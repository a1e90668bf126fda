import PhraseLang.Proofs.Grammar.Acceptance

/-! Programs at other offsets.
One function moves every offset of a token, of a tree and of a derivation. The moved tokens of a
derivation are the tokens of the moved derivation, and its tree is the moved tree: where a program
stands plays no part in how it is read. -/
namespace PhraseLang

def Span.relocate (f : Nat → Nat) (s : Span) : Span := ⟨f s.start, f s.stop⟩

def Token.relocate (f : Nat → Nat) (t : Token) : Token := { t with span := t.span.relocate f }

theorem Token.shift_eq_relocate (n : Nat) : Token.shift n = Token.relocate (· + n) := rfl

def Expr.relocate (f : Nat → Nat) : Expr → Expr
  | .literal token => .literal (token.relocate f)
  | .binary left op right => .binary (left.relocate f) (op.relocate f) (right.relocate f)
  | .array elements => .array (relocateAll elements)
where
  relocateAll : List Expr → List Expr
    | [] => []
    | e :: rest => e.relocate f :: relocateAll rest

mutual

def Statement.relocate (f : Nat → Nat) : Statement → Statement
  | .assign span name value => .assign (span.relocate f) (name.relocate f) (value.relocate f)
  | .conditional span condition body rest =>
    .conditional (span.relocate f) (condition.relocate f) (Statement.relocateAll f body)
      (rest.relocate f)
  | .whileLoop span condition body =>
    .whileLoop (span.relocate f) (condition.relocate f) (Statement.relocateAll f body)
  | .countedLoop span count binding body =>
    .countedLoop (span.relocate f) count (binding.relocate f) (Statement.relocateAll f body)

def Statement.relocateAll (f : Nat → Nat) : List Statement → List Statement
  | [] => []
  | s :: rest => s.relocate f :: Statement.relocateAll f rest

def Alternative.relocate (f : Nat → Nat) : Alternative → Alternative
  | .nothing => .nothing
  | .otherwise body => .otherwise (Statement.relocateAll f body)
  | .elseIf condition body rest =>
    .elseIf (condition.relocate f) (Statement.relocateAll f body) (rest.relocate f)

end

def Program.relocate (f : Nat → Nat) (p : Program) : Program :=
  ⟨Statement.relocateAll f p.statements⟩

section
variable {f : Nat → Nat}

theorem Expr.relocateAll_eq_map (es : List Expr) :
    Expr.relocate.relocateAll f es = es.map (Expr.relocate f) := by
  induction es with
  | nil => rfl
  | cons e es ih => rw [Expr.relocate.relocateAll, ih, List.map_cons]

theorem Statement.relocateAll_eq_map (ss : List Statement) :
    Statement.relocateAll f ss = ss.map (Statement.relocate f) := by
  induction ss with
  | nil => rfl
  | cons s ss ih => rw [Statement.relocateAll, ih, List.map_cons]

theorem Expr.operator?_relocate (e : Expr) : (e.relocate f).operator? = e.operator? := by
  cases e <;> rfl

theorem Expr.grouped_relocate : ∀ {e : Expr}, (e.relocate f).Grouped ↔ e.Grouped
  | .literal _ | .array _ => Iff.rfl
  | .binary left op right => by
    have same : strength (op.relocate f) = strength op := rfl
    simp only [Expr.relocate, Expr.Grouped, grouped_relocate, operator?_relocate, same]
    rfl

mutual

theorem Expr.tokens_relocate : ∀ e : Expr,
    (e.relocate f).tokens = e.tokens.map (Token.relocate f)
  | .literal _ => rfl
  | .binary left op right => by
    simp [Expr.relocate, Expr.tokens, left.tokens_relocate, right.tokens_relocate]
  | .array elements => Expr.tokensOfAll_relocate elements

theorem Expr.tokensOfAll_relocate : ∀ es : List Expr,
    Expr.tokens.tokensOfAll (Expr.relocate.relocateAll f es) =
      (Expr.tokens.tokensOfAll es).map (Token.relocate f)
  | [] => rfl
  | e :: rest => by
    simp [Expr.relocate.relocateAll, Expr.tokens.tokensOfAll, e.tokens_relocate,
      Expr.tokensOfAll_relocate rest]

end

end

namespace Grammar
variable {f : Nat → Nat}

theorem spanOf_relocate {ts : List Token} (nonempty : ts ≠ []) :
    spanOf (ts.map (Token.relocate f)) = (spanOf ts).relocate f := by
  obtain ⟨first, isFirst⟩ := Option.isSome_iff_exists.mp (List.isSome_head?.mpr nonempty)
  obtain ⟨last, isLast⟩ := Option.isSome_iff_exists.mp (List.getLast?_isSome.mpr nonempty)
  simp [spanOf, endOffset, isFirst, isLast, Span.relocate, Token.relocate]

def Word.relocate (f : Nat → Nat) {kinds : List Kind} (w : Word kinds) : Word kinds :=
  ⟨w.val.relocate f, w.property⟩

def Chain.relocate (f : Nat → Nat) (c : Chain) : Chain :=
  ⟨c.tree.relocate f, Expr.grouped_relocate.mpr c.grouped⟩

def Value.relocate (f : Nat → Nat) : Value → Value
  | .one e => .one (e.relocate f)
  | .many first rest more =>
    .many (first.relocate f) (rest.map fun p => (p.1.relocate f, p.2.relocate f))
      (by simpa using more)

mutual

def Stmt.relocate (f : Nat → Nat) : Stmt → Stmt
  | .assign first name becomes value last =>
    .assign (first.relocate f) (name.relocate f) (becomes.relocate f) (value.relocate f)
      (last.relocate f)
  | .conditional first condition body clauses =>
    .conditional (first.relocate f) (condition.relocate f) (body.relocate f) (clauses.relocate f)
  | .whileLoop first condition close suffix body =>
    .whileLoop (first.relocate f) (condition.relocate f) (close.relocate f) (suffix.relocate f)
      (body.relocate f)
  | .countedLoop first count counted binding body =>
    .countedLoop (first.relocate f) count counted (binding.relocate f) (body.relocate f)

def Block.relocate (f : Nat → Nat) : Block → Block
  | .braces opening lineBreak indent body dedent closing =>
    .braces (opening.relocate f) (lineBreak.relocate f) (indent.relocate f) (body.relocate f)
      (dedent.relocate f) (closing.relocate f)

def Body.relocate (f : Nat → Nat) : Body → Body
  | .nil => .nil
  | .blank lineBreak rest => .blank (lineBreak.relocate f) (rest.relocate f)
  | .stmt s rest => .stmt (s.relocate f) (rest.relocate f)

def Clauses.relocate (f : Nat → Nat) : Clauses → Clauses
  | .nothing => .nothing
  | .otherwise breaks first body =>
    .otherwise (breaks.map (Word.relocate f)) (first.relocate f) (body.relocate f)
  | .elseIf breaks first condition body rest =>
    .elseIf (breaks.map (Word.relocate f)) (first.relocate f) (condition.relocate f)
      (body.relocate f) (rest.relocate f)

end

def Derivation.relocate (f : Nat → Nat) : Derivation → Derivation
  | .nil => .nil
  | .blank lineBreak rest => .blank (lineBreak.relocate f) (rest.relocate f)
  | .block b rest => .block (b.relocate f) (rest.relocate f)
  | .stmt s rest => .stmt (s.relocate f) (rest.relocate f)

theorem Word.val_relocate {kinds : List Kind} (w : Word kinds) :
    (w.relocate f).val = w.val.relocate f := rfl

theorem words_relocate {kinds : List Kind} (ws : List (Word kinds)) :
    words (ws.map (Word.relocate f)) = (words ws).map (Token.relocate f) := by
  simp [words, Word.val_relocate]

theorem Chain.tree_relocate (c : Chain) : (c.relocate f).tree = c.tree.relocate f := rfl

theorem Chain.tokens_relocate (c : Chain) :
    (c.relocate f).tokens = c.tokens.map (Token.relocate f) := c.tree.tokens_relocate

theorem Value.tokens_relocate (v : Value) :
    (v.relocate f).tokens = v.tokens.map (Token.relocate f) := by
  cases v with
  | one c => exact c.tokens_relocate
  | many first rest more =>
    simp [Value.relocate, Value.tokens, Chain.tokens_relocate, List.flatMap_map, List.map_flatMap,
      Word.val_relocate]

theorem Value.tree_relocate (v : Value) : (v.relocate f).tree = v.tree.relocate f := by
  cases v with
  | one c => rfl
  | many first rest more =>
    simp [Value.relocate, Value.tree, Expr.relocate, Expr.relocateAll_eq_map, Chain.tree_relocate]

mutual

theorem Stmt.tokens_relocate : ∀ s : Stmt,
    (s.relocate f).tokens = s.tokens.map (Token.relocate f)
  | .assign first name becomes value last => by
    simp [Stmt.relocate, Stmt.tokens, value.tokens_relocate, Word.val_relocate]
  | .conditional first condition body clauses => by
    simp [Stmt.relocate, Stmt.tokens, condition.tokens_relocate, body.tokens_relocate,
      clauses.tokens_relocate, Word.val_relocate]
  | .whileLoop first condition close suffix body => by
    simp [Stmt.relocate, Stmt.tokens, condition.tokens_relocate, body.tokens_relocate,
      Word.val_relocate]
  | .countedLoop first count counted binding body => by
    simp [Stmt.relocate, Stmt.tokens, body.tokens_relocate, Word.val_relocate]

theorem Block.tokens_relocate : ∀ b : Block,
    (b.relocate f).tokens = b.tokens.map (Token.relocate f)
  | .braces opening lineBreak indent body dedent closing => by
    simp [Block.relocate, Block.tokens, body.tokens_relocate, Word.val_relocate]

theorem Body.tokens_relocate : ∀ b : Body,
    (b.relocate f).tokens = b.tokens.map (Token.relocate f)
  | .nil => rfl
  | .blank lineBreak rest => by
    simp [Body.relocate, Body.tokens, rest.tokens_relocate, Word.val_relocate]
  | .stmt s rest => by
    simp [Body.relocate, Body.tokens, s.tokens_relocate, rest.tokens_relocate]

theorem Clauses.tokens_relocate : ∀ c : Clauses,
    (c.relocate f).tokens = c.tokens.map (Token.relocate f)
  | .nothing => rfl
  | .otherwise breaks first body => by
    simp [Clauses.relocate, Clauses.tokens, words_relocate, body.tokens_relocate,
      Word.val_relocate]
  | .elseIf breaks first condition body rest => by
    simp [Clauses.relocate, Clauses.tokens, words_relocate, condition.tokens_relocate,
      body.tokens_relocate, rest.tokens_relocate, Word.val_relocate]

end

theorem Stmt.spanOf_relocate (s : Stmt) :
    spanOf (s.relocate f).tokens = (spanOf s.tokens).relocate f := by
  rw [s.tokens_relocate, Grammar.spanOf_relocate s.tokens_ne_nil]

mutual

theorem Stmt.tree_relocate : ∀ s : Stmt, (s.relocate f).tree = s.tree.relocate f
  | .assign first name becomes value last => by
    have span := (Stmt.assign first name becomes value last).spanOf_relocate (f := f)
    rw [Stmt.relocate] at span ⊢
    simp [Stmt.tree, Statement.relocate, span, value.tree_relocate, Word.val_relocate]
  | .conditional first condition body clauses => by
    have span := (Stmt.conditional first condition body clauses).spanOf_relocate (f := f)
    rw [Stmt.relocate] at span ⊢
    simp [Stmt.tree, Statement.relocate, span, Chain.tree_relocate, body.trees_relocate,
      clauses.tree_relocate]
  | .whileLoop first condition close suffix body => by
    have span := (Stmt.whileLoop first condition close suffix body).spanOf_relocate (f := f)
    rw [Stmt.relocate] at span ⊢
    simp [Stmt.tree, Statement.relocate, span, Chain.tree_relocate, body.trees_relocate]
  | .countedLoop first count counted binding body => by
    have span := (Stmt.countedLoop first count counted binding body).spanOf_relocate (f := f)
    rw [Stmt.relocate] at span ⊢
    simp [Stmt.tree, Statement.relocate, span, body.trees_relocate, Word.val_relocate]

theorem Block.trees_relocate : ∀ b : Block,
    (b.relocate f).trees = Statement.relocateAll f b.trees
  | .braces _ _ _ body _ _ => body.trees_relocate

theorem Body.trees_relocate : ∀ b : Body,
    (b.relocate f).trees = Statement.relocateAll f b.trees
  | .nil => rfl
  | .blank lineBreak rest => rest.trees_relocate
  | .stmt s rest => by
    simp [Body.relocate, Body.trees, Statement.relocateAll, s.tree_relocate, rest.trees_relocate]

theorem Clauses.tree_relocate : ∀ c : Clauses, (c.relocate f).tree = c.tree.relocate f
  | .nothing => rfl
  | .otherwise breaks first body => by
    simp [Clauses.relocate, Clauses.tree, Alternative.relocate, body.trees_relocate]
  | .elseIf breaks first condition body rest => by
    simp [Clauses.relocate, Clauses.tree, Alternative.relocate, Chain.tree_relocate,
      body.trees_relocate, rest.tree_relocate]

end

theorem Derivation.tokens_relocate : ∀ d : Derivation,
    (d.relocate f).tokens = d.tokens.map (Token.relocate f)
  | .nil => rfl
  | .blank lineBreak rest => by
    simp [Derivation.relocate, Derivation.tokens, rest.tokens_relocate, Word.val_relocate]
  | .block b rest => by
    simp [Derivation.relocate, Derivation.tokens, b.tokens_relocate, rest.tokens_relocate]
  | .stmt s rest => by
    simp [Derivation.relocate, Derivation.tokens, s.tokens_relocate, rest.tokens_relocate]

theorem Derivation.program_relocate (d : Derivation) :
    (d.relocate f).program = d.program.relocate f := by
  have trees : ∀ d : Derivation, (d.relocate f).trees = Statement.relocateAll f d.trees := by
    intro d
    induction d with
    | nil => rfl
    | blank lineBreak rest ih => exact ih
    | block b rest ih =>
      simp [Derivation.relocate, Derivation.trees, b.trees_relocate, ih,
        Statement.relocateAll_eq_map]
    | stmt s rest ih =>
      simp [Derivation.relocate, Derivation.trees, s.tree_relocate, ih, Statement.relocateAll]
  exact congrArg Program.mk (trees d)

end Grammar

end PhraseLang
