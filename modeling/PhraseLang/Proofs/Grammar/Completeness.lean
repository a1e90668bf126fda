import PhraseLang.Proofs.Grammar.Run

/-! What has a derivation is read.
The scans that look ahead stop at the right place: a chain holds no brace and no parenthesis, a
value no end of assignment, and what follows a statement of a derivation begins no clause. -/
namespace PhraseLang.Grammar
open Reader

theorem ok_bind {α β : Type} (a : α) (f : α → Except ParseError β) :
    ((.ok a : Except ParseError α) >>= f) = f a := rfl

theorem error_bind {α β : Type} (e : ParseError) (f : α → Except ParseError β) :
    ((.error e : Except ParseError α) >>= f) = .error e := rfl

theorem Word.kind_eq {k : Kind} (w : Word [k]) : w.val.kind = k := List.mem_singleton.mp w.property

theorem kind_ne {kinds : List Kind} {t : Token} {k : Kind} (h : t.kind ∈ kinds)
    (other : k ∉ kinds) : t.kind ≠ k := fun same => other (same ▸ h)

theorem expect_word {eof : Nat} {kinds : List Kind} (w : Word kinds) (rest : List Token) :
    expect eof kinds (w.val :: rest) = .ok (w.val, rest) := by
  rw [expect, if_pos w.property]

theorem through_run {eof : Nat} {stop : Kind} {run : List Token} {t : Token} (rest : List Token)
    (free : ∀ x ∈ run, x.kind ≠ stop) (isStop : t.kind = stop) :
    through eof stop (run ++ t :: rest) = .ok ((run, t), rest) := by
  have free : ∀ x ∈ run, (x.kind != stop) = true := fun x hx => bne_iff_ne.mpr (free x hx)
  have last : (t.kind != stop) = false := by simp [isStop]
  have taken : (run ++ t :: rest).takeWhile (fun t => t.kind != stop) = run := by
    rw [List.takeWhile_append_of_pos free, List.takeWhile_cons_of_neg (by simp [last]),
      List.append_nil]
  have left : (run ++ t :: rest).dropWhile (fun t => t.kind != stop) = t :: rest := by
    rw [List.dropWhile_append_of_pos free, List.dropWhile_cons_of_neg (by simp [last])]
  simp only [through, taken, left]

theorem closing?_run {run : List Token} {close : Token} (rest : List Token)
    (free : ∀ x ∈ run, x.kind ≠ .punctuation .leftParen ∧ x.kind ≠ .punctuation .rightParen)
    (isClose : close.kind = .punctuation .rightParen) :
    closing? 0 (run ++ close :: rest) = some (run, close, rest) := by
  induction run with
  | nil => simp [closing?, isClose]
  | cons x run ih =>
    have tail := ih fun y hy => free y (List.mem_cons_of_mem x hy)
    obtain ⟨notOpen, notClose⟩ := free x List.mem_cons_self
    rw [List.cons_append, closing?, if_neg notOpen, if_neg notClose]
    simp only [tail, Option.map_some]

/-- A value holds literals, operators and commas only. -/
theorem Value.kind_ne {v : Value} {t : Token} (h : t ∈ v.tokens) {k : Kind}
    (notLiteral : k.isLiteral = false) (notOperator : k.operator? = none)
    (notComma : k ≠ Run.comma) : t.kind ≠ k := by
  cases v with
  | one c => exact Chain.kind_ne h notLiteral notOperator
  | many first rest more =>
    rcases List.mem_append.mp h with h | h
    · exact Chain.kind_ne h notLiteral notOperator
    · obtain ⟨p, _, h⟩ := List.mem_flatMap.mp h
      rcases List.mem_cons.mp h with rfl | h
      · exact fun same => notComma (same.symm.trans p.1.kind_eq)
      · exact Chain.kind_ne h notLiteral notOperator

/-- Behind line breaks, no clause begins here. -/
def NoClause (ts : List Token) : Prop :=
  ∀ t ∈ (ts.dropWhile fun t => t.kind == .newline).head?,
    t.kind ≠ .keyword .elseIf ∧ t.kind ≠ .keyword .otherwise

theorem noClause_cons {t : Token} (notElseIf : t.kind ≠ .keyword .elseIf)
    (notElse : t.kind ≠ .keyword .otherwise) {ts : List Token} (tail : NoClause ts) :
    NoClause (t :: ts) := by
  by_cases isBreak : t.kind = .newline
  · simpa [NoClause, isBreak] using tail
  · simp [NoClause, isBreak, notElseIf, notElse]

theorem noClause_of_kind {t : Token} {ts : List Token} (notBreak : t.kind ≠ .newline)
    (notElseIf : t.kind ≠ .keyword .elseIf) (notElse : t.kind ≠ .keyword .otherwise) :
    NoClause (t :: ts) := by
  simp [NoClause, notBreak, notElseIf, notElse]

theorem isLayout_statementStarts : ∀ k ∈ statementStarts, k.isLayout = false := by decide

theorem Stmt.exists_first (s : Stmt) :
    ∃ t ts, s.tokens = t :: ts ∧ t.kind ∈ statementStarts := by
  cases s with
  | assign first | conditional first | whileLoop first | countedLoop first =>
    exact ⟨first.val, _, rfl, by rw [first.kind_eq]; decide⟩

theorem Stmt.noClause (s : Stmt) (rest : List Token) : NoClause (s.tokens ++ rest) := by
  obtain ⟨t, ts, same, starts⟩ := s.exists_first
  rw [same]
  exact noClause_of_kind (kind_ne starts (by decide)) (kind_ne starts (by decide))
    (kind_ne starts (by decide))

theorem Body.noClause : ∀ (b : Body) (dedent : Word [.dedent]) (rest : List Token),
    NoClause (b.tokens ++ dedent.val :: rest)
  | .nil, dedent, rest =>
    noClause_of_kind (kind_ne dedent.property (by decide)) (kind_ne dedent.property (by decide))
      (kind_ne dedent.property (by decide))
  | .blank lineBreak b, dedent, rest =>
    noClause_cons (kind_ne lineBreak.property (by decide)) (kind_ne lineBreak.property (by decide))
      (b.noClause dedent rest)
  | .stmt s b, dedent, rest => by
    rw [Body.tokens, List.append_assoc]
    exact s.noClause _

theorem Derivation.noClause : ∀ d : Derivation, NoClause d.tokens
  | .nil => by simp [NoClause, Derivation.tokens]
  | .blank lineBreak d =>
    noClause_cons (kind_ne lineBreak.property (by decide)) (kind_ne lineBreak.property (by decide))
      d.noClause
  | .block (.braces opening ..) d =>
    noClause_of_kind (kind_ne opening.property (by decide)) (kind_ne opening.property (by decide))
      (kind_ne opening.property (by decide))
  | .stmt s d => s.noClause _

/-- The readings of a statement, a block, a body and clauses, from enough tokens. -/
def Stmt.Reads (eof : Nat) (s : Stmt) : Prop :=
  ∀ n rest, (s.tokens ++ rest).length ≤ n + 1 → NoClause rest →
    statement eof (body eof n) n (s.tokens ++ rest) = .ok (s.tree, rest)

def Block.Reads (eof : Nat) (b : Block) : Prop :=
  ∀ n rest, (b.tokens ++ rest).length ≤ n + 1 →
    block eof (body eof n) (b.tokens ++ rest) = .ok ((b.trees, endOffset b.tokens), rest)

def Body.Reads (eof : Nat) (b : Body) : Prop :=
  ∀ n (dedent : Word [.dedent]) rest, (b.tokens ++ dedent.val :: rest).length ≤ n →
    body eof n (b.tokens ++ dedent.val :: rest) = .ok (b.trees, rest)

def Clauses.Reads (eof : Nat) (c : Clauses) : Prop :=
  ∀ n m front rest, (c.tokens ++ rest).length ≤ n → c.tokens.length ≤ m → NoClause rest →
    alternative eof (body eof n) m (endOffset front) (c.tokens ++ rest) =
      .ok ((c.tree, endOffset (front ++ c.tokens)), rest)

section
variable {eof : Nat}

theorem reads_braces {inner : Body} (h : inner.Reads eof) (opening : Word [.punctuation .leftCurly])
    (lineBreak : Word [.newline]) (indent : Word [.indent]) (dedent : Word [.dedent])
    (closing : Word [.punctuation .rightCurly]) :
    (Block.braces opening lineBreak indent inner dedent closing).Reads eof := by
  intro n rest bound
  have regroup : (Block.braces opening lineBreak indent inner dedent closing).tokens ++ rest =
      opening.val :: lineBreak.val :: indent.val ::
        (inner.tokens ++ dedent.val :: closing.val :: rest) := by simp [Block.tokens]
  have ends : endOffset (Block.braces opening lineBreak indent inner dedent closing).tokens =
      closing.val.span.stop := by
    rw [Block.tokens, endOffset_cons _ (by simp), endOffset_cons _ (by simp),
      endOffset_cons _ (by simp), endOffset_append _ (by simp)]
    rfl
  rw [regroup] at bound ⊢
  simp only [List.length_cons] at bound
  have found := h n dedent (closing.val :: rest) (by omega)
  rw [ends, block]
  simp only [expect_word, ok_bind, found]
  rfl

theorem reads_guarded {b : Block} (h : b.Reads eof) (condition : Chain) (n : Nat)
    (rest : List Token) (bound : (b.tokens ++ rest).length ≤ n + 1) :
    guarded eof (body eof n) (condition.tokens ++ b.tokens ++ rest) =
      .ok ((condition.tree, b.trees, endOffset b.tokens), rest) := by
  have found := h n rest bound
  obtain ⟨opening, lineBreak, indent, inner, dedent, closing⟩ := b
  have free : ∀ x ∈ condition.tokens, x.kind ≠ .punctuation .leftCurly :=
    fun x hx => Chain.kind_ne hx rfl rfl
  rw [Block.tokens, List.cons_append] at found
  rw [Block.tokens, List.append_assoc, List.cons_append, guarded,
    through_run _ free opening.kind_eq]
  simp only [ok_bind, read_chain, found]
  rfl

theorem reads_nothing : Clauses.nothing.Reads eof := by
  intro n m front rest _ _ follow
  rw [Clauses.tokens, List.nil_append, List.append_nil]
  cases m with
  | zero => rfl
  | succ m =>
    unfold alternative
    split
    · rfl
    · rename_i t tail behind
      obtain ⟨notElseIf, notElse⟩ := follow t (by rw [behind]; rfl)
      rw [if_neg notElseIf, if_neg notElse]
      rfl

theorem dropWhile_breaks (breaks : List (Word [.newline])) {t : Token} (ts : List Token)
    (notBreak : t.kind ≠ .newline) :
    (words breaks ++ t :: ts).dropWhile (fun t => t.kind == .newline) = t :: ts := by
  have all : ∀ x ∈ words breaks, (x.kind == .newline) = true := by
    intro x hx
    obtain ⟨w, _, rfl⟩ := List.mem_map.mp hx
    exact beq_iff_eq.mpr (Word.kind_eq w)
  rw [List.dropWhile_append_of_pos all, List.dropWhile_cons_of_neg (by simpa using notBreak)]

theorem reads_otherwise {b : Block} (h : b.Reads eof) (breaks : List (Word [.newline]))
    (first : Word [.keyword .otherwise]) : (Clauses.otherwise breaks first b).Reads eof := by
  intro n m front rest bound fewer follow
  have regroup : (Clauses.otherwise breaks first b).tokens ++ rest =
      words breaks ++ first.val :: (b.tokens ++ rest) := by simp [Clauses.tokens]
  have ends : endOffset (front ++ (Clauses.otherwise breaks first b).tokens) =
      endOffset b.tokens := by
    rw [Clauses.tokens, endOffset_append _ (by simp), endOffset_append _ (by simp),
      endOffset_cons _ b.tokens_ne_nil]
  have notBreak : first.val.kind ≠ .newline := kind_ne first.property (by decide)
  have notElseIf : first.val.kind ≠ .keyword .elseIf := kind_ne first.property (by decide)
  rw [regroup] at bound ⊢
  simp only [List.length_append, List.length_cons] at bound
  have found := h n rest (by simp only [List.length_append]; omega)
  cases m with
  | zero => simp [Clauses.tokens] at fewer
  | succ m =>
    rw [ends, alternative, dropWhile_breaks breaks _ notBreak]
    simp only [if_neg notElseIf, if_pos first.kind_eq, found, ok_bind]
    rfl

theorem reads_elseIf {b : Block} {more : Clauses} (hb : b.Reads eof) (hm : more.Reads eof)
    (breaks : List (Word [.newline])) (first : Word [.keyword .elseIf]) (condition : Chain) :
    (Clauses.elseIf breaks first condition b more).Reads eof := by
  intro n m front rest bound fewer follow
  have regroup : (Clauses.elseIf breaks first condition b more).tokens ++ rest =
      words breaks ++ first.val :: (condition.tokens ++ b.tokens ++ (more.tokens ++ rest)) := by
    simp [Clauses.tokens]
  have ends : endOffset (front ++ (Clauses.elseIf breaks first condition b more).tokens) =
      endOffset (b.tokens ++ more.tokens) := by
    have nonempty := List.append_ne_nil_of_left_ne_nil b.tokens_ne_nil more.tokens
    rw [Clauses.tokens, endOffset_append _ (by simp), endOffset_append _ (by simp),
      List.append_assoc, endOffset_cons _ (List.append_ne_nil_of_right_ne_nil _ nonempty),
      endOffset_append _ nonempty]
  have notBreak : first.val.kind ≠ .newline := kind_ne first.property (by decide)
  rw [regroup] at bound ⊢
  simp only [List.length_append, List.length_cons] at bound
  simp only [Clauses.tokens, List.length_append, List.length_cons] at fewer
  have found := reads_guarded hb condition n (more.tokens ++ rest)
    (by simp only [List.length_append]; omega)
  cases m with
  | zero => omega
  | succ m =>
    have tail := hm n m b.tokens rest (by simp only [List.length_append]; omega) (by omega) follow
    rw [ends, alternative, dropWhile_breaks breaks _ notBreak]
    simp only [if_pos first.kind_eq, found, ok_bind, tail]
    rfl

theorem reads_assign (first : Word [.keyword .define]) (name : Word [.constant, .binding])
    (becomes : Word [.keyword .assign]) (value : Value) (last : Word [.keyword .endOfAssign]) :
    (Stmt.assign first name becomes value last).Reads eof := by
  intro n rest _ _
  have regroup : (Stmt.assign first name becomes value last).tokens ++ rest =
      first.val :: name.val :: becomes.val :: (value.tokens ++ last.val :: rest) := by
    simp [Stmt.tokens]
  have ends : spanOf (Stmt.assign first name becomes value last).tokens =
      ⟨first.val.span.start, last.val.span.stop⟩ := by
    rw [Stmt.tokens, spanOf_cons, endOffset_cons _ (by simp), endOffset_cons _ (by simp),
      endOffset_cons _ (by simp), endOffset_append _ (by simp)]
    rfl
  have free : ∀ x ∈ value.tokens, x.kind ≠ .keyword .endOfAssign :=
    fun x hx => Value.kind_ne hx rfl rfl (by decide)
  have run : Run.read true last.val.span.start value.tokens = .ok value.tree :=
    read_true_eq_ok_iff.mpr ⟨value, rfl, rfl⟩
  rw [regroup, Stmt.tree, ends]
  simp only [statement, first.kind_eq, assignment, expect_word, ok_bind,
    through_run rest free last.kind_eq, run]
  rfl

theorem reads_conditional {b : Block} {clauses : Clauses} (hb : b.Reads eof)
    (hc : clauses.Reads eof) (first : Word [.keyword .ifThen]) (condition : Chain) :
    (Stmt.conditional first condition b clauses).Reads eof := by
  intro n rest bound follow
  have regroup : (Stmt.conditional first condition b clauses).tokens ++ rest =
      first.val :: (condition.tokens ++ b.tokens ++ (clauses.tokens ++ rest)) := by
    simp [Stmt.tokens]
  have ends : spanOf (Stmt.conditional first condition b clauses).tokens =
      ⟨first.val.span.start, endOffset (b.tokens ++ clauses.tokens)⟩ := by
    have nonempty := List.append_ne_nil_of_left_ne_nil b.tokens_ne_nil clauses.tokens
    rw [Stmt.tokens, spanOf_cons, List.append_assoc,
      endOffset_cons _ (List.append_ne_nil_of_right_ne_nil _ nonempty), endOffset_append _ nonempty]
  rw [regroup] at bound ⊢
  simp only [List.length_append, List.length_cons] at bound
  have found := reads_guarded hb condition n (clauses.tokens ++ rest)
    (by simp only [List.length_append]; omega)
  have tail := hc n n b.tokens rest (by simp only [List.length_append]; omega) (by omega) follow
  rw [Stmt.tree, ends]
  simp only [statement, first.kind_eq, conditional, found, ok_bind, tail]
  rfl

theorem reads_whileLoop {b : Block} (h : b.Reads eof) (first : Word [.punctuation .leftParen])
    (condition : Chain) (close : Word [.punctuation .rightParen])
    (suffix : Word [.keyword .whileLoop]) :
    (Stmt.whileLoop first condition close suffix b).Reads eof := by
  intro n rest bound _
  have regroup : (Stmt.whileLoop first condition close suffix b).tokens ++ rest =
      first.val :: (condition.tokens ++ close.val :: (suffix.val :: (b.tokens ++ rest))) := by
    simp [Stmt.tokens]
  have ends : spanOf (Stmt.whileLoop first condition close suffix b).tokens =
      ⟨first.val.span.start, endOffset b.tokens⟩ := by
    rw [Stmt.tokens, spanOf_cons, endOffset_cons _ (by simp), endOffset_append _ (by simp),
      endOffset_cons _ (by simp), endOffset_cons _ b.tokens_ne_nil]
  have free : ∀ x ∈ condition.tokens,
      x.kind ≠ .punctuation .leftParen ∧ x.kind ≠ .punctuation .rightParen :=
    fun x hx => ⟨Chain.kind_ne hx rfl rfl, Chain.kind_ne hx rfl rfl⟩
  rw [regroup] at bound ⊢
  simp only [List.length_append, List.length_cons] at bound
  have found := h n rest (by simp only [List.length_append]; omega)
  rw [Stmt.tree, ends]
  simp only [statement, first.kind_eq, whileLoop, closing?_run _ free close.kind_eq,
    if_pos suffix.kind_eq, read_chain, ok_bind, found]
  rfl

theorem reads_countedLoop {b : Block} (h : b.Reads eof) (first : Word [.keyword .countedLoop])
    (count : UInt64) (counted : Text.readUInt64? first.val.text = some count)
    (binding : Word [.binding]) : (Stmt.countedLoop first count counted binding b).Reads eof := by
  intro n rest bound _
  have regroup : (Stmt.countedLoop first count counted binding b).tokens ++ rest =
      first.val :: binding.val :: (b.tokens ++ rest) := by simp [Stmt.tokens]
  have ends : spanOf (Stmt.countedLoop first count counted binding b).tokens =
      ⟨first.val.span.start, endOffset b.tokens⟩ := by
    rw [Stmt.tokens, spanOf_cons, endOffset_cons _ (by simp), endOffset_cons _ b.tokens_ne_nil]
  rw [regroup] at bound ⊢
  simp only [List.length_append, List.length_cons] at bound
  have found := h n rest (by simp only [List.length_append]; omega)
  rw [Stmt.tree, ends]
  simp only [statement, first.kind_eq, countedLoop, counted, expect_word, ok_bind, found]
  rfl

theorem reads_nil : Body.nil.Reads eof := by
  intro n dedent rest bound
  cases n with
  | zero => cases bound
  | succ n =>
    rw [Body.tokens, List.nil_append]
    simp only [body, dedent.kind_eq]
    rfl

theorem reads_blank {b : Body} (h : b.Reads eof) (lineBreak : Word [.newline]) :
    (Body.blank lineBreak b).Reads eof := by
  intro n dedent rest bound
  cases n with
  | zero => cases bound
  | succ n =>
    rw [Body.tokens, List.cons_append] at bound ⊢
    simp only [body, lineBreak.kind_eq]
    exact h n dedent rest (Nat.le_of_succ_le_succ bound)

theorem body_of_start {n : Nat} {t : Token} {ts : List Token} (starts : t.kind ∈ statementStarts) :
    body eof (n + 1) (t :: ts) = statement eof (body eof n) n (t :: ts) >>= fun p =>
      body eof n p.2 >>= fun q => .ok (p.1 :: q.1, q.2) := by
  rw [body]
  split
  · exact absurd ‹t.kind = .dedent› (kind_ne starts (by decide))
  · exact absurd ‹t.kind = .newline› (kind_ne starts (by decide))
  · rfl

theorem statements_of_start {n : Nat} {t : Token} {ts : List Token}
    (starts : t.kind ∈ statementStarts) :
    statements eof (n + 1) (t :: ts) = statement eof (body eof n) n (t :: ts) >>= fun p =>
      statements eof n p.2 >>= fun rest => .ok (p.1 :: rest) := by
  rw [statements]
  split
  · exact absurd ‹t.kind = .newline› (kind_ne starts (by decide))
  · exact absurd ‹t.kind = .punctuation .leftCurly› (kind_ne starts (by decide))
  · rfl

theorem reads_stmt {s : Stmt} {b : Body} (hs : s.Reads eof) (hb : b.Reads eof) :
    (Body.stmt s b).Reads eof := by
  intro n dedent rest bound
  have regroup : (Body.stmt s b).tokens ++ dedent.val :: rest =
      s.tokens ++ (b.tokens ++ dedent.val :: rest) := by simp [Body.tokens]
  rw [regroup] at bound ⊢
  cases n with
  | zero =>
    have empty := List.length_eq_zero_iff.mp (Nat.le_zero.mp bound)
    exact absurd (List.append_eq_nil_iff.mp empty).1 s.tokens_ne_nil
  | succ n =>
    have positive := List.length_pos_iff.mpr s.tokens_ne_nil
    have head := hs n (b.tokens ++ dedent.val :: rest) bound (b.noClause dedent rest)
    have tail := hb n dedent rest (by simp only [List.length_append] at bound ⊢; omega)
    obtain ⟨t, ts, same, starts⟩ := s.exists_first
    rw [same, List.cons_append] at head ⊢
    simp only [body_of_start starts, head, ok_bind, tail]
    rfl

mutual

theorem Stmt.reads : ∀ s : Stmt, s.Reads eof
  | .assign first name becomes value last => reads_assign first name becomes value last
  | .conditional first condition body clauses =>
    reads_conditional body.reads clauses.reads first condition
  | .whileLoop first condition close suffix body =>
    reads_whileLoop body.reads first condition close suffix
  | .countedLoop first count counted binding body =>
    reads_countedLoop body.reads first count counted binding

theorem Block.reads : ∀ b : Block, b.Reads eof
  | .braces opening lineBreak indent body dedent closing =>
    reads_braces body.reads opening lineBreak indent dedent closing

theorem Body.reads : ∀ b : Body, b.Reads eof
  | .nil => reads_nil
  | .blank lineBreak rest => reads_blank rest.reads lineBreak
  | .stmt s rest => reads_stmt s.reads rest.reads

theorem Clauses.reads : ∀ c : Clauses, c.Reads eof
  | .nothing => reads_nothing
  | .otherwise breaks first body => reads_otherwise body.reads breaks first
  | .elseIf breaks first condition body rest =>
    reads_elseIf body.reads rest.reads breaks first condition

end

theorem Derivation.reads : ∀ (d : Derivation) {n : Nat}, d.tokens.length ≤ n →
    statements eof n d.tokens = .ok d.trees
  | .nil, n, _ => by cases n <;> rfl
  | .blank lineBreak d, n, bound => by
    cases n with
    | zero => cases bound
    | succ n =>
      rw [Derivation.tokens]
      simp only [statements, lineBreak.kind_eq]
      exact d.reads (Nat.le_of_succ_le_succ bound)
  | .block b d, n, bound => by
    rw [Derivation.tokens] at bound ⊢
    cases n with
    | zero =>
      have empty := List.length_eq_zero_iff.mp (Nat.le_zero.mp bound)
      exact absurd (List.append_eq_nil_iff.mp empty).1 b.tokens_ne_nil
    | succ n =>
      have positive := List.length_pos_iff.mpr b.tokens_ne_nil
      have head : b.Reads eof := b.reads
      have head := head n d.tokens bound
      have tail := d.reads (n := n) (by simp only [List.length_append] at bound; omega)
      obtain ⟨opening, lineBreak, indent, body, dedent, closing⟩ := b
      rw [Block.tokens, List.cons_append] at head ⊢
      simp only [statements, opening.kind_eq, head, ok_bind, tail]
      rfl
  | .stmt s d, n, bound => by
    rw [Derivation.tokens] at bound ⊢
    cases n with
    | zero =>
      have empty := List.length_eq_zero_iff.mp (Nat.le_zero.mp bound)
      exact absurd (List.append_eq_nil_iff.mp empty).1 s.tokens_ne_nil
    | succ n =>
      have positive := List.length_pos_iff.mpr s.tokens_ne_nil
      have head : s.Reads eof := s.reads
      have head := head n d.tokens bound d.noClause
      have tail := d.reads (n := n) (by simp only [List.length_append] at bound; omega)
      obtain ⟨t, ts, same, starts⟩ := s.exists_first
      rw [same, List.cons_append] at head ⊢
      simp only [statements_of_start starts, head, ok_bind, tail]
      rfl

end

end PhraseLang.Grammar
