import PhraseLang.Proofs.Grammar.Basic

/-! Runs read as expressions.
Without arrays the reader takes exactly the tokens of a chain, with arrays exactly those of a value,
and returns its tree. Where a run ends in the source plays no part in that. -/
namespace PhraseLang.Grammar
open PhraseLang.Expr PhraseLang.Run

theorem mem_separatorKinds {k : Kind} {isArray : Bool} :
    k ∈ separatorKinds isArray ↔ (∃ o, k = .operator o) ∨ isArray = true ∧ k = comma := by
  constructor
  · intro h
    rcases List.mem_append.mp h with h | h
    · obtain ⟨o, _, rfl⟩ := List.mem_map.mp h
      exact .inl ⟨o, rfl⟩
    · cases isArray with
      | false => cases h
      | true => exact .inr ⟨rfl, List.mem_singleton.mp h⟩
  · rintro (⟨o, rfl⟩ | ⟨rfl, rfl⟩)
    · exact List.mem_append_left _ (List.mem_map.mpr ⟨o, by cases o <;> decide, rfl⟩)
    · exact List.mem_append_right _ (List.mem_singleton.mpr rfl)

theorem Chain.exists_steps (c : Chain) :
    ∃ t steps, c.tokens = t :: flatten steps ∧ t.kind.isLiteral = true ∧ (∀ p ∈ steps, IsStep p) ∧
      extendAll (.literal t) steps = c.tree := by
  obtain ⟨t, steps, same, literal, all, grown, _⟩ := Expr.exists_steps c.grouped
  exact ⟨t, steps, same, literal, all, grown⟩

/-- A chain holds literals and operators only. -/
theorem Chain.kind_of_mem {c : Chain} {t : Token} (h : t ∈ c.tokens) :
    t.kind.isLiteral = true ∨ ∃ o, t.kind = .operator o := by
  obtain ⟨x, steps, same, literal, all, _⟩ := c.exists_steps
  rw [same] at h
  rcases List.mem_cons.mp h with rfl | h
  · exact .inl literal
  · obtain ⟨p, hp, ht⟩ := List.mem_flatMap.mp h
    have step := all p hp
    rcases List.mem_cons.mp ht with rfl | ht
    · exact .inr step.1
    · exact .inl (List.mem_singleton.mp ht ▸ step.2)

theorem Chain.kind_ne {c : Chain} {t : Token} (h : t ∈ c.tokens) {k : Kind}
    (notLiteral : k.isLiteral = false) (notOperator : k.operator? = none) : t.kind ≠ k := by
  rintro rfl
  rcases Chain.kind_of_mem h with literal | ⟨o, operator⟩
  · simp [literal] at notLiteral
  · simp [operator, Kind.operator?] at notOperator

/-- The elements behind the first one, each behind its comma. -/
abbrev Tail := List (Word [comma] × Chain)

def Tail.tokens (rest : Tail) : List Token := rest.flatMap fun p => p.1.val :: p.2.tokens

def Tail.trees (rest : Tail) : List Expr := rest.map fun p => p.2.tree

theorem elements_sound {isArray : Bool} {stop : Nat} {ts : List Token} {es : List Expr}
    (current : Expr) (grouped : current.Grouped)
    (read : elements isArray stop current ts = .ok es) :
    ∃ (first : Chain) (rest : Tail), es = first.tree :: rest.trees ∧
      first.tokens ++ rest.tokens = current.tokens ++ ts ∧ (isArray = false → rest = []) := by
  fun_induction elements isArray stop current ts generalizing es with
  | case1 current =>
    cases read
    exact ⟨⟨current, grouped⟩, [], rfl, rfl, fun _ => rfl⟩
  | case2 | case5 | case6 => cases read
  | case3 current separator allowed operand rest literal isComma ih =>
    cases tail : elements isArray stop (.literal operand) rest with
    | error e => rw [tail] at read; cases read
    | ok others =>
      rw [tail] at read
      cases read
      obtain ⟨second, more, rfl, same, _⟩ := ih literal tail
      refine ⟨⟨current, grouped⟩, (⟨separator, by simp [isComma]⟩, second) :: more, rfl, ?_, ?_⟩
      · have same : second.tokens ++ Tail.tokens more = operand :: rest := same
        rw [← same]
        rfl
      · intro noArray
        rcases mem_separatorKinds.mp allowed with ⟨o, operator⟩ | ⟨array, _⟩
        · rw [isComma] at operator
          cases operator
        · rw [noArray] at array
          cases array
  | case4 current separator allowed operand rest literal notComma ih =>
    rcases mem_separatorKinds.mp allowed with operator | ⟨_, isComma⟩
    · have extended := grouped_extend grouped (p := (separator, operand)) ⟨operator, literal⟩
      obtain ⟨first, more, rfl, same, none⟩ := ih extended read
      refine ⟨first, more, rfl, ?_, none⟩
      rw [same, tokens_extend, List.append_assoc]
      rfl
    · exact absurd isComma notComma

theorem elements_steps (isArray : Bool) (stop : Nat) (steps : List (Token × Token))
    (all : ∀ p ∈ steps, IsStep p) (e : Expr) (more : List Token) :
    elements isArray stop e (flatten steps ++ more) =
      elements isArray stop (e.extendAll steps) more := by
  induction steps generalizing e with
  | nil => rfl
  | cons p steps ih =>
    obtain ⟨⟨o, operator⟩, operand⟩ := all p List.mem_cons_self
    have allowed : p.1.kind ∈ separatorKinds isArray := mem_separatorKinds.mpr (.inl ⟨o, operator⟩)
    have notComma : p.1.kind ≠ comma := by rw [operator]; exact Kind.noConfusion
    have tail := ih (fun q hq => all q (List.mem_cons_of_mem p hq)) (e.extend p.1 p.2)
    have head : flatten (p :: steps) ++ more = p.1 :: p.2 :: (flatten steps ++ more) := rfl
    rw [head, elements, if_pos allowed]
    simp only [operand, if_true, if_neg notComma]
    exact tail

theorem elements_chain (isArray : Bool) (stop : Nat) (c : Chain) :
    ∃ t ts, c.tokens = t :: ts ∧ t.kind.isLiteral = true ∧ ∀ more,
      elements isArray stop (.literal t) (ts ++ more) = elements isArray stop c.tree more := by
  obtain ⟨t, steps, same, literal, all, grown⟩ := c.exists_steps
  refine ⟨t, flatten steps, same, literal, fun more => ?_⟩
  rw [elements_steps isArray stop steps all, grown]

theorem elements_tail (stop : Nat) (rest : Tail) (e : Expr) :
    elements true stop e rest.tokens = .ok (e :: rest.trees) := by
  induction rest generalizing e with
  | nil => rfl
  | cons p rest ih =>
    have isComma : p.1.val.kind = comma := List.mem_singleton.mp p.1.property
    have allowed : p.1.val.kind ∈ separatorKinds true :=
      mem_separatorKinds.mpr (.inr ⟨rfl, isComma⟩)
    obtain ⟨t, ts, same, literal, run⟩ := elements_chain true stop p.2
    have cut : Tail.tokens (p :: rest) = p.1.val :: t :: (ts ++ Tail.tokens rest) := by
      simp [Tail.tokens, same]
    rw [cut, elements, if_pos allowed]
    simp only [literal, if_true, isComma]
    rw [run, ih]
    rfl

theorem any_comma_chain (c : Chain) : (c.tokens.any fun t => t.kind == comma) = false := by
  apply List.any_eq_false.mpr
  intro t ht isComma
  exact Chain.kind_ne ht rfl rfl (eq_of_beq isComma)

theorem read_eq_ok {arrayAllowed : Bool} {stop : Nat} {run : List Token} {e : Expr}
    (read : Run.read arrayAllowed stop run = .ok e) :
    ∃ (first : Chain) (rest : Tail), first.tokens ++ rest.tokens = run ∧
      .ofElements (first.tree :: rest.trees) = e ∧
      (arrayAllowed = false → rest = []) := by
  cases run with
  | nil => cases read
  | cons operand rest =>
    by_cases literal : operand.kind.isLiteral = true
    · simp only [Run.read, literal, if_true] at read
      cases result : elements (arrayAllowed && (operand :: rest).any fun t => t.kind == comma) stop
          (.literal operand) rest with
      | error e => rw [result] at read; cases read
      | ok es =>
        rw [result] at read
        obtain ⟨first, tail, rfl, same, none⟩ := elements_sound (.literal operand) literal result
        cases read
        exact ⟨first, tail, same, rfl, fun h => none (by rw [h, Bool.false_and])⟩
    · simp only [Run.read, if_neg literal] at read
      cases read

theorem read_chain (arrayAllowed : Bool) (stop : Nat) (c : Chain) :
    Run.read arrayAllowed stop c.tokens = .ok c.tree := by
  have noComma := any_comma_chain c
  obtain ⟨t, ts, same, literal, run⟩ := elements_chain false stop c
  have all := run []
  rw [List.append_nil] at all
  rw [same] at noComma ⊢
  simp only [Run.read, literal, if_true, noComma, Bool.and_false, all]
  rfl

/-- Without arrays, the runs that can be read are the chains. -/
theorem read_false_eq_ok_iff {stop : Nat} {run : List Token} {e : Expr} :
    Run.read false stop run = .ok e ↔ ∃ c : Chain, c.tokens = run ∧ c.tree = e := by
  constructor
  · intro read
    obtain ⟨first, rest, same, tree, none⟩ := read_eq_ok read
    cases none rfl
    exact ⟨first, by simpa [Tail.tokens] using same, tree⟩
  · rintro ⟨c, rfl, rfl⟩
    exact read_chain false stop c

/-- With arrays, the runs that can be read are the values. -/
theorem read_true_eq_ok_iff {stop : Nat} {run : List Token} {e : Expr} :
    Run.read true stop run = .ok e ↔ ∃ v : Value, v.tokens = run ∧ v.tree = e := by
  constructor
  · intro read
    obtain ⟨first, rest, same, tree, _⟩ := read_eq_ok read
    cases rest with
    | nil => exact ⟨.one first, by simpa [Tail.tokens, Value.tokens] using same, tree⟩
    | cons p rest => exact ⟨.many first (p :: rest) (List.cons_ne_nil p rest), same, tree⟩
  · rintro ⟨v, rfl, rfl⟩
    cases v with
    | one c => exact read_chain true stop c
    | many first rest more =>
      obtain ⟨p, rest, rfl⟩ := List.exists_cons_of_ne_nil more
      obtain ⟨t, ts, same, literal, run⟩ := elements_chain true stop first
      have cut : (Value.many first (p :: rest) more).tokens =
          t :: (ts ++ Tail.tokens (p :: rest)) := by
        simp [Value.tokens, Tail.tokens, same]
      have isComma : p.1.val.kind = comma := List.mem_singleton.mp p.1.property
      have array : ((t :: (ts ++ Tail.tokens (p :: rest))).any fun t => t.kind == comma) = true :=
        List.any_eq_true.mpr ⟨p.1.val, by simp [Tail.tokens], by simp [isComma]⟩
      rw [cut, Run.read]
      simp only [literal, if_true, array, Bool.and_true]
      rw [run, elements_tail]
      rfl

end PhraseLang.Grammar
