import PhraseLang.Expr

/-! The grouping of operators in an expression.
A grouped tree over a run of operands and operators is unique: it is the one that `Expr.extend`
grows along the run. Nothing is said here about which runs the reader takes. -/
namespace PhraseLang.Expr

/-- The literals and the operators of an expression, from left to right. -/
def tokens : Expr → List Token
  | .literal token => [token]
  | .binary left op right => left.tokens ++ op :: right.tokens
  | .array elements => tokensOfAll elements
where
  tokensOfAll : List Expr → List Token
    | [] => []
    | e :: rest => e.tokens ++ tokensOfAll rest

/-- Operators of one precedence group to the left, and stronger ones below weaker ones. -/
def Grouped : Expr → Prop
  | .literal token => token.kind.isLiteral = true
  | .binary left op right =>
    (∃ o, op.kind = .operator o) ∧ left.Grouped ∧ right.Grouped ∧
      (∀ o ∈ left.operator?, strength op ≤ o.precedence) ∧
      (∀ o ∈ right.operator?, strength op < o.precedence)
  | .array _ => False

/-- One more step of a run: an operator and the operand behind it. -/
def IsStep (p : Token × Token) : Prop := (∃ o, p.1.kind = .operator o) ∧ p.2.kind.isLiteral = true

def flatten (steps : List (Token × Token)) : List Token := steps.flatMap fun p => [p.1, p.2]

def extendAll (e : Expr) (steps : List (Token × Token)) : Expr :=
  steps.foldl (fun e p => e.extend p.1 p.2) e

theorem strength_of_operator {t : Token} {o : Operator} (h : t.kind = .operator o) :
    strength t = o.precedence := by
  simp [strength, h, Kind.operator?]

theorem tokens_extend (e : Expr) (op x : Token) : (e.extend op x).tokens = e.tokens ++ [op, x] := by
  match e with
  | .literal t => rfl
  | .array es => rfl
  | .binary left top right =>
    unfold extend
    split
    · simp [tokens, tokens_extend right op x]
    · simp [tokens]

theorem tokens_extendAll (steps : List (Token × Token)) (e : Expr) :
    (e.extendAll steps).tokens = e.tokens ++ flatten steps := by
  induction steps generalizing e with
  | nil => simp [extendAll, flatten]
  | cons p steps ih =>
    have tail := ih (e.extend p.1 p.2)
    rw [tokens_extend] at tail
    simpa [extendAll, flatten] using tail

/-- The operator at the top is the old one or the new one. -/
theorem operator?_extend (e : Expr) (op x : Token) :
    (e.extend op x).operator? = e.operator? ∨ (e.extend op x).operator? = op.kind.operator? := by
  cases e with
  | literal t => exact .inr rfl
  | array es => exact .inr rfl
  | binary left top right =>
    unfold extend
    split
    · exact .inl rfl
    · exact .inr rfl

theorem grouped_extend {e : Expr} {p : Token × Token} (grouped : e.Grouped) (step : IsStep p) :
    (e.extend p.1 p.2).Grouped := by
  obtain ⟨⟨o, operator⟩, operand⟩ := step
  match e, grouped with
  | .literal t, grouped =>
    exact ⟨⟨o, operator⟩, grouped, operand, by simp [operator?], by simp [operator?]⟩
  | .binary left top right, grouped =>
    have ⟨isOperator, groupedLeft, groupedRight, weak, strong⟩ := grouped
    unfold extend
    split
    · rename_i stronger
      have inner := grouped_extend groupedRight (p := p) ⟨⟨o, operator⟩, operand⟩
      refine ⟨isOperator, groupedLeft, inner, weak, ?_⟩
      intro q hq
      rcases operator?_extend right p.1 p.2 with same | new
      · exact strong q (same ▸ hq)
      · have hq : q = o := by simpa [new, operator, Kind.operator?] using hq.symm
        rw [strength_of_operator operator] at stronger
        exact hq ▸ stronger
    · rename_i weaker
      obtain ⟨t, isTop⟩ := isOperator
      refine ⟨⟨o, operator⟩, grouped, operand, ?_, by simp [operator?]⟩
      intro q hq
      have hq : q = t := by simpa [operator?, isTop, Kind.operator?] using hq.symm
      rw [hq, ← strength_of_operator isTop]
      exact Nat.le_of_not_lt weaker

theorem grouped_extendAll {steps : List (Token × Token)} {e : Expr} (grouped : e.Grouped)
    (all : ∀ p ∈ steps, IsStep p) : (e.extendAll steps).Grouped := by
  induction steps generalizing e with
  | nil => exact grouped
  | cons p steps ih =>
    have head := grouped_extend grouped (all p List.mem_cons_self)
    exact ih head fun q hq => all q (List.mem_cons_of_mem p hq)

theorem flatten_injective {a b : List (Token × Token)} (same : flatten a = flatten b) : a = b := by
  induction a generalizing b with
  | nil =>
    cases b with
    | nil => rfl
    | cons q b => cases same
  | cons p a ih =>
    cases b with
    | nil => cases same
    | cons q b =>
      have h := List.cons.inj same
      have g := List.cons.inj h.2
      rw [Prod.ext h.1 g.1, ih g.2]

/-- Below an operator that is weaker than all of the steps, the steps extend the right operand. -/
theorem extendAll_binary {left right : Expr} {top : Token} {steps : List (Token × Token)}
    (stronger : ∀ p ∈ steps, strength top < strength p.1) :
    (binary left top right).extendAll steps = binary left top (right.extendAll steps) := by
  induction steps generalizing right with
  | nil => rfl
  | cons p steps ih =>
    have head : (binary left top right).extend p.1 p.2 =
        binary left top (right.extend p.1 p.2) := by
      rw [extend, if_pos (stronger p List.mem_cons_self)]
    simp only [extendAll, List.foldl_cons, head]
    exact ih fun q hq => stronger q (List.mem_cons_of_mem p hq)

/-- A grouped tree is grown back along its own run, and no operator in it is weaker than its top. -/
theorem exists_steps {e : Expr} (grouped : e.Grouped) :
    ∃ t steps, e.tokens = t :: flatten steps ∧ t.kind.isLiteral = true ∧ (∀ p ∈ steps, IsStep p) ∧
      extendAll (.literal t) steps = e ∧
      ∀ k, (∀ o ∈ e.operator?, k ≤ o.precedence) → ∀ p ∈ steps, k ≤ strength p.1 := by
  match e, grouped with
  | .literal t, grouped =>
    exact ⟨t, [], rfl, grouped, by simp, rfl, by simp⟩
  | .binary left op right, ⟨⟨o, operator⟩, groupedLeft, groupedRight, weak, strong⟩ =>
    obtain ⟨a, as, tokensLeft, literalLeft, stepsLeft, grownLeft, aboveLeft⟩ :=
      exists_steps groupedLeft
    obtain ⟨b, bs, tokensRight, literalRight, stepsRight, grownRight, aboveRight⟩ :=
      exists_steps groupedRight
    have strengthOp := strength_of_operator operator
    have outer := aboveLeft (strength op) weak
    have inner := aboveRight (strength op + 1) strong
    -- The left part is no weaker at its top, so the operator goes above all of it.
    have attached : left.extend op b = .binary left op (.literal b) := by
      match left, weak with
      | .literal _, _ | .array _, _ => rfl
      | .binary l top r, weak =>
        obtain ⟨t, isTop⟩ := groupedLeft.1
        have bound : strength op ≤ strength top := by
          rw [strength_of_operator isTop]
          exact weak t (by simp [operator?, isTop, Kind.operator?])
        rw [extend, if_neg (Nat.not_lt_of_le bound)]
    refine ⟨a, as ++ (op, b) :: bs, ?_, literalLeft, ?_, ?_, ?_⟩
    · simp [tokens, tokensLeft, tokensRight, flatten]
    · intro p hp
      rcases List.mem_append.mp hp with hp | hp
      · exact stepsLeft p hp
      · rcases List.mem_cons.mp hp with rfl | hp
        · exact ⟨⟨o, operator⟩, literalRight⟩
        · exact stepsRight p hp
    · calc extendAll (.literal a) (as ++ (op, b) :: bs)
          = ((extendAll (.literal a) as).extend op b).extendAll bs := List.foldl_append
        _ = .binary left op right := by
          rw [grownLeft, attached, extendAll_binary inner, grownRight]
    · intro k above
      have aboveOp : k ≤ strength op := by
        rw [strengthOp]
        exact above o (by simp [operator?, operator, Kind.operator?])
      intro p hp
      rcases List.mem_append.mp hp with hp | hp
      · exact Nat.le_trans aboveOp (outer p hp)
      · rcases List.mem_cons.mp hp with rfl | hp
        · exact aboveOp
        · exact Nat.le_trans aboveOp (Nat.le_of_succ_le (inner p hp))

/-- A run groups in one way only. -/
theorem grouped_unique {d e : Expr} (hd : d.Grouped) (he : e.Grouped)
    (same : d.tokens = e.tokens) : d = e := by
  obtain ⟨a, as, tokensD, _, _, grownD, _⟩ := exists_steps hd
  obtain ⟨b, bs, tokensE, _, _, grownE, _⟩ := exists_steps he
  rw [tokensD, tokensE] at same
  have h := List.cons.inj same
  rw [← grownD, ← grownE, h.1, flatten_injective h.2]

/-- Operands and operators in turn, an operand first and last. -/
inductive Alternates : List Token → Prop where
  | operand {t : Token} : t.kind.isLiteral = true → Alternates [t]
  | operator {t op : Token} {o : Operator} {rest : List Token} :
      t.kind.isLiteral = true → op.kind = .operator o → Alternates rest →
        Alternates (t :: op :: rest)

theorem alternates_iff_steps {run : List Token} : Alternates run ↔
    ∃ t steps, run = t :: flatten steps ∧ t.kind.isLiteral = true ∧ ∀ p ∈ steps, IsStep p := by
  constructor
  · intro h
    induction h with
    | @operand t literal => exact ⟨t, [], rfl, literal, by simp⟩
    | @operator t op o rest literal isOperator _ ih =>
      obtain ⟨x, steps, rfl, operand, all⟩ := ih
      refine ⟨t, (op, x) :: steps, rfl, literal, ?_⟩
      intro p hp
      rcases List.mem_cons.mp hp with rfl | hp
      · exact ⟨⟨o, isOperator⟩, operand⟩
      · exact all p hp
  · rintro ⟨t, steps, rfl, literal, all⟩
    induction steps generalizing t with
    | nil => exact .operand literal
    | cons p steps ih =>
      obtain ⟨⟨o, operator⟩, operand⟩ := all p List.mem_cons_self
      exact .operator literal operator
        (ih p.2 operand fun q hq => all q (List.mem_cons_of_mem p hq))

/-- The runs that group are those of operands and operators in turn. -/
theorem exists_grouped_iff {run : List Token} :
    (∃ e : Expr, e.Grouped ∧ e.tokens = run) ↔ Alternates run := by
  rw [alternates_iff_steps]
  constructor
  · rintro ⟨e, grouped, rfl⟩
    obtain ⟨t, steps, same, literal, all, _⟩ := exists_steps grouped
    exact ⟨t, steps, same, literal, all⟩
  · rintro ⟨t, steps, rfl, literal, all⟩
    exact ⟨extendAll (.literal t) steps, grouped_extendAll literal all, tokens_extendAll steps _⟩

/-- The order of strengths alone, whatever the tokens are: what stands to the right of an operator
binds more strongly, what stands to the left at least as strongly. -/
def Ranked : Expr → Prop
  | .literal _ => True
  | .binary left op right =>
    left.Ranked ∧ right.Ranked ∧ ∀ o ∈ op.kind.operator?,
      (∀ p ∈ left.operator?, o.precedence ≤ p.precedence) ∧
        ∀ p ∈ right.operator?, o.precedence < p.precedence
  | .array _ => False

theorem Grouped.ranked {e : Expr} (grouped : e.Grouped) : e.Ranked := by
  match e, grouped with
  | .literal _, _ => trivial
  | .binary left op right, ⟨⟨o, operator⟩, groupedLeft, groupedRight, weak, strong⟩ =>
    refine ⟨groupedLeft.ranked, groupedRight.ranked, fun q hq => ?_⟩
    obtain rfl : o = q := by simpa [operator, Kind.operator?] using hq
    rw [← strength_of_operator operator]
    exact ⟨weak, strong⟩

theorem Ranked.length_tokens {e : Expr} (ranked : e.Ranked) : e.tokens.length % 2 = 1 := by
  match e, ranked with
  | .literal _, _ => rfl
  | .binary left op right, ⟨rankedLeft, rankedRight, _⟩ =>
    have sizeLeft := rankedLeft.length_tokens
    have sizeRight := rankedRight.length_tokens
    simp only [tokens, List.length_append, List.length_cons]
    omega

theorem Alternates.split {a b : List Token} {op : Token} (alternates : Alternates (a ++ op :: b))
    (odd : a.length % 2 = 1) : Alternates a ∧ (∃ o, op.kind = .operator o) ∧ Alternates b := by
  generalize same : a ++ op :: b = run at alternates
  induction alternates generalizing a with
  | @operand t literal =>
    have size := congrArg List.length same
    simp only [List.length_append, List.length_cons, List.length_nil] at size
    omega
  | @operator t next o rest literal isOperator behind ih =>
    -- The operator is behind the first operand, or it is further on in the rest.
    rcases a with - | ⟨x, - | ⟨y, a⟩⟩
    · cases odd
    · simp only [List.cons_append, List.nil_append, List.cons.injEq] at same
      obtain ⟨rfl, rfl, rfl⟩ := same
      exact ⟨.operand literal, ⟨o, isOperator⟩, behind⟩
    · simp only [List.cons_append, List.cons.injEq] at same
      obtain ⟨rfl, rfl, same⟩ := same
      simp only [List.length_cons] at odd
      obtain ⟨front, middle, back⟩ := ih (by omega) same
      exact ⟨.operator literal isOperator front, middle, back⟩

/-- Over operands and operators in turn, the order of strengths is all that grouping asks. -/
theorem Ranked.grouped {e : Expr} (ranked : e.Ranked) (alternates : Alternates e.tokens) :
    e.Grouped := by
  match e, ranked with
  | .literal t, _ =>
    generalize same : (Expr.literal t).tokens = run at alternates
    cases alternates with
    | operand literal =>
      obtain ⟨rfl, -⟩ := List.cons.inj same
      exact literal
    | operator => cases same
  | .binary left op right, ⟨rankedLeft, rankedRight, order⟩ =>
    obtain ⟨runLeft, ⟨o, operator⟩, runRight⟩ := alternates.split rankedLeft.length_tokens
    obtain ⟨weak, strong⟩ := order o (by simp [operator, Kind.operator?])
    rw [← strength_of_operator operator] at weak strong
    exact ⟨⟨o, operator⟩, rankedLeft.grouped runLeft, rankedRight.grouped runRight, weak, strong⟩

end PhraseLang.Expr
