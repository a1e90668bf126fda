import PhraseLang.Proofs.Grammar.Soundness
import PhraseLang.Proofs.Grammar.Completeness

/-! The tokens that are a program.
A row of tokens is read exactly when it has a derivation, and what is read is the tree of it. The
literals and operators of the row are in that tree, in order; all other tokens are structure. -/
namespace PhraseLang.Grammar

def isStored (k : Kind) : Bool := k.isLiteral || k.operator?.isSome

mutual

/-- The tokens stored in a statement, from left to right. -/
def storedIn : Statement → List Token
  | .assign _ name value => name :: value.tokens
  | .conditional _ condition body rest =>
    condition.tokens ++ storedInAll body ++ storedInClauses rest
  | .whileLoop _ condition body => condition.tokens ++ storedInAll body
  | .countedLoop _ _ binding body => binding :: storedInAll body

def storedInAll : List Statement → List Token
  | [] => []
  | s :: rest => storedIn s ++ storedInAll rest

def storedInClauses : Alternative → List Token
  | .nothing => []
  | .otherwise body => storedInAll body
  | .elseIf condition body rest => condition.tokens ++ storedInAll body ++ storedInClauses rest

end

def stored (ts : List Token) : List Token := ts.filter fun t => isStored t.kind

theorem stored_append (a b : List Token) : stored (a ++ b) = stored a ++ stored b :=
  List.filter_append a b

theorem stored_word {kinds : List Kind} (w : Word kinds) (ts : List Token)
    (structural : kinds.all (fun k => !isStored k) = true) : stored (w.val :: ts) = stored ts := by
  have notStored := List.all_eq_true.mp structural w.val.kind w.property
  exact List.filter_cons_of_neg (by simpa using notStored)

theorem stored_name {kinds : List Kind} (w : Word kinds) (ts : List Token)
    (names : kinds.all isStored = true) : stored (w.val :: ts) = w.val :: stored ts :=
  List.filter_cons_of_pos (List.all_eq_true.mp names w.val.kind w.property)

theorem stored_breaks (breaks : List (Word [.newline])) (ts : List Token) :
    stored (words breaks ++ ts) = stored ts := by
  induction breaks with
  | nil => rfl
  | cons w breaks ih => exact (stored_word w _ rfl).trans ih

theorem Chain.stored_tokens (c : Chain) : stored c.tokens = c.tree.tokens := by
  apply List.filter_eq_self.mpr
  intro t ht
  rcases Chain.kind_of_mem ht with literal | ⟨o, operator⟩
  · simp [isStored, literal]
  · simp [isStored, operator, Kind.operator?]

theorem Value.stored_tokens (v : Value) : stored v.tokens = v.tree.tokens := by
  cases v with
  | one c => exact c.stored_tokens
  | many first rest more =>
    have tail : stored (rest.flatMap fun p => p.1.val :: p.2.tokens) =
        Expr.tokens.tokensOfAll (rest.map fun p => p.2.tree) := by
      clear more
      induction rest with
      | nil => rfl
      | cons p rest ih =>
        rw [List.flatMap_cons, List.cons_append, stored_word p.1 _ rfl, stored_append,
          p.2.stored_tokens, ih]
        rfl
    rw [Value.tokens, stored_append, first.stored_tokens, tail]
    rfl

mutual

theorem Stmt.stored_tokens : ∀ s : Stmt, stored s.tokens = storedIn s.tree
  | .assign first name becomes value last => by
    rw [Stmt.tokens, stored_word first _ rfl, stored_name name _ rfl, stored_word becomes _ rfl,
      stored_append, value.stored_tokens, stored_word last _ rfl]
    simp [Stmt.tree, storedIn, stored]
  | .conditional first condition body clauses => by
    rw [Stmt.tokens, stored_word first _ rfl, stored_append, stored_append, condition.stored_tokens,
      body.stored_tokens, clauses.stored_tokens, Stmt.tree, storedIn]
  | .whileLoop first condition close suffix body => by
    rw [Stmt.tokens, stored_word first _ rfl, stored_append, condition.stored_tokens,
      stored_word close _ rfl, stored_word suffix _ rfl, body.stored_tokens, Stmt.tree, storedIn]
  | .countedLoop first count counted binding body => by
    rw [Stmt.tokens, stored_word first _ rfl, stored_name binding _ rfl, body.stored_tokens,
      Stmt.tree, storedIn]

theorem Block.stored_tokens : ∀ b : Block, stored b.tokens = storedInAll b.trees
  | .braces opening lineBreak indent body dedent closing => by
    rw [Block.tokens, stored_word opening _ rfl, stored_word lineBreak _ rfl,
      stored_word indent _ rfl, stored_append, body.stored_tokens, stored_word dedent _ rfl,
      stored_word closing _ rfl]
    simp [Block.trees, stored]

theorem Body.stored_tokens : ∀ b : Body, stored b.tokens = storedInAll b.trees
  | .nil => rfl
  | .blank lineBreak rest => by
    rw [Body.tokens, stored_word lineBreak _ rfl, rest.stored_tokens, Body.trees]
  | .stmt s rest => by
    rw [Body.tokens, stored_append, s.stored_tokens, rest.stored_tokens, Body.trees, storedInAll]

theorem Clauses.stored_tokens : ∀ c : Clauses, stored c.tokens = storedInClauses c.tree
  | .nothing => rfl
  | .otherwise breaks first body => by
    rw [Clauses.tokens, stored_breaks, stored_word first _ rfl, body.stored_tokens, Clauses.tree,
      storedInClauses]
  | .elseIf breaks first condition body rest => by
    rw [Clauses.tokens, stored_breaks, stored_word first _ rfl, stored_append, stored_append,
      condition.stored_tokens, body.stored_tokens, rest.stored_tokens, Clauses.tree,
      storedInClauses]

end

theorem storedInAll_append (a b : List Statement) :
    storedInAll (a ++ b) = storedInAll a ++ storedInAll b := by
  induction a with
  | nil => rfl
  | cons s a ih => simp [storedInAll, ih]

theorem Derivation.stored_tokens : ∀ d : Derivation, stored d.tokens = storedInAll d.trees
  | .nil => rfl
  | .blank lineBreak rest => by
    rw [Derivation.tokens, stored_word lineBreak _ rfl, rest.stored_tokens, Derivation.trees]
  | .block b rest => by
    rw [Derivation.tokens, stored_append, b.stored_tokens, rest.stored_tokens, Derivation.trees,
      storedInAll_append]
  | .stmt s rest => by
    rw [Derivation.tokens, stored_append, s.stored_tokens, rest.stored_tokens, Derivation.trees,
      storedInAll]

theorem ofTokens_sound {ts : List Token} {p : Program} (read : Program.ofTokens ts = .ok p) :
    ∃ d : Derivation, d.tokens = ts ∧ d.program = p := by
  unfold Program.ofTokens at read
  cases result : Reader.statements (endOffset ts) ts.length ts with
  | error e => rw [result] at read; cases read
  | ok ss =>
    rw [result] at read
    cases read
    obtain ⟨d, same, rfl⟩ := statements_sound (Nat.le_refl ts.length) result
    exact ⟨d, same, rfl⟩

theorem ofTokens_complete (d : Derivation) : Program.ofTokens d.tokens = .ok d.program := by
  rw [Program.ofTokens, d.reads (Nat.le_refl d.tokens.length)]
  rfl

/-- Rows of tokens are read exactly along their derivations. A row has one tree only, which stores
its literals and operators in order. A run of operands and operators in turn is a chain in one way,
and nothing else is one. -/
theorem ofTokens_ok_iff_derivation (ts : List Token) :
    (∀ p, Program.ofTokens ts = .ok p ↔ ∃ d : Derivation, d.tokens = ts ∧ d.program = p) ∧
    (∀ d e : Derivation, d.tokens = ts → e.tokens = ts → d.program = e.program) ∧
    (∀ d : Derivation, d.tokens = ts → storedInAll d.program.statements = stored ts) ∧
    (∀ run : List Token, (∃ c : Chain, c.tokens = run ∧ ∀ e : Chain, e.tokens = run → e = c) ↔
      Expr.Alternates run) := by
  refine ⟨?_, ?_, ?_, ?_⟩
  · intro p
    constructor
    · exact ofTokens_sound
    · rintro ⟨d, rfl, rfl⟩
      exact ofTokens_complete d
  · rintro d e rfl same
    have read := ofTokens_complete e
    rw [same, ofTokens_complete d] at read
    exact Except.ok.inj read
  · rintro d rfl
    exact d.stored_tokens.symm
  · intro run
    rw [← Expr.exists_grouped_iff]
    constructor
    · rintro ⟨c, same, _⟩
      exact ⟨c.tree, c.grouped, same⟩
    · rintro ⟨e, grouped, same⟩
      refine ⟨⟨e, grouped⟩, same, ?_⟩
      rintro ⟨other, groupedToo⟩ sameToo
      obtain rfl := Expr.grouped_unique groupedToo grouped (sameToo.trans same.symm)
      rfl

end PhraseLang.Grammar
