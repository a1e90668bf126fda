import PhraseLang.Proofs.Grammar.Completeness
import PhraseLang.Proofs.Grammar.Soundness

/-! Precedence climbing.
A run read another way: an operand, and behind it every operator that binds strongly enough, its
right operand read by the same rule from a level higher. The reader of runs grows its tree at the
right end instead, and both come to the same tree or the same error. -/
namespace PhraseLang.Climbing
open PhraseLang.Run PhraseLang.Expr PhraseLang.Grammar

mutual

/-- An operand, and the operators behind it that bind at least as strongly as `least`. -/
def expression (stop least : Nat) : (ts : List Token) →
    Except ParseError (Expr × { rest : List Token // rest.length < ts.length })
  | [] => .error (.unexpectedEnd operandKinds stop)
  | t :: ts =>
    if t.kind.isLiteral then do
      let (e, ⟨rest, within⟩) ← operators stop least (.literal t) ts
      return (e, ⟨rest, Nat.lt_succ_of_le within⟩)
    else .error (.notAnOperand t)
termination_by ts => ts.length

/-- The operators that go on with `left`. The right operand of each holds stronger ones only, so
operators of one strength group to the left. -/
def operators (stop least : Nat) (left : Expr) : (ts : List Token) →
    Except ParseError (Expr × { rest : List Token // rest.length ≤ ts.length })
  | [] => .ok (left, ⟨[], Nat.le_refl _⟩)
  | op :: ts =>
    match op.kind.operator? with
    | none => .ok (left, ⟨op :: ts, Nat.le_refl _⟩)
    | some o =>
      if o.precedence < least then .ok (left, ⟨op :: ts, Nat.le_refl _⟩)
      else do
        let (right, ⟨more, shorter⟩) ← expression stop (o.precedence + 1) ts
        let (e, ⟨rest, within⟩) ← operators stop least (.binary left op right) more
        return (e, ⟨rest, Nat.le_succ_of_le (Nat.le_trans within (Nat.le_of_lt shorter))⟩)
termination_by ts => ts.length

end

/-- One expression, and one more behind every comma. -/
def array (stop : Nat) (ts : List Token) : Except ParseError (List Expr × List Token) := do
  match ← expression stop 0 ts with
  | (first, ⟨[], _⟩) => return ([first], [])
  | (first, ⟨t :: more, _⟩) =>
    if t.kind = comma then do
      let (others, rest) ← array stop more
      return (first :: others, rest)
    else return ([first], t :: more)
termination_by ts.length
decreasing_by exact Nat.lt_of_succ_lt ‹_›

/-- Nothing may be left of a run that has been read. -/
def finish {α : Type} (isArray : Bool) (result : α) : List Token → Except ParseError α
  | [] => .ok result
  | t :: _ => .error (.unexpectedToken t (separatorKinds isArray))

/-- The expression that a run is, read by climbing. -/
def read (arrayAllowed : Bool) (stop : Nat) (run : List Token) : Except ParseError Expr :=
  if arrayAllowed && run.any fun t => t.kind == comma then do
    let (es, rest) ← array stop run
    finish true (.array es) rest
  else do
    let (e, rest) ← expression stop 0 run
    finish false e rest.val

section
variable {stop least : Nat} {left : Expr} {op t : Token} {ts : List Token} {o : Operator}

/-- Where the climb of a level ends, no operator of the level goes on. -/
def Ends (least : Nat) (rest : List Token) : Prop :=
  ∀ t ∈ rest.head?, ∀ o, t.kind = .operator o → o.precedence < least

theorem expression_bind {β : Type} (literal : t.kind.isLiteral = true)
    (next : Expr → List Token → Except ParseError β) :
    (do let r ← expression stop least (t :: ts); next r.1 r.2.val) =
      (do let r ← operators stop least (.literal t) ts; next r.1 r.2.val) := by
  rw [expression, if_pos literal]
  simp only [bind_assoc, pure_bind]

theorem operators_ends (ends : Ends least ts) :
    operators stop least left ts = .ok (left, ⟨ts, Nat.le_refl _⟩) := by
  cases ts with
  | nil => rw [operators]
  | cons op ts =>
    rw [operators]
    cases isOperator : op.kind with
    | operator o => exact if_pos (ends op rfl o isOperator)
    | _ => rfl

theorem operators_bind {β : Type} (isOperator : op.kind = .operator o)
    (strong : least ≤ o.precedence) (next : Expr → List Token → Except ParseError β) :
    (do let r ← operators stop least left (op :: ts); next r.1 r.2.val) =
      (do
        let right ← expression stop (o.precedence + 1) ts
        let r ← operators stop least (.binary left op right.1) right.2.val
        next r.1 r.2.val) := by
  rw [operators]
  simp only [isOperator, Kind.operator?, if_neg (Nat.not_lt_of_le strong)]
  simp only [bind_assoc, pure_bind]

theorem exists_operator (goesOn : ¬ Ends least ts) :
    ∃ op more o, ts = op :: more ∧ op.kind = .operator o ∧ least ≤ o.precedence := by
  cases ts with
  | nil => exact absurd (fun _ first => absurd first (by simp)) goesOn
  | cons op more =>
    simp only [Ends, List.head?_cons, Option.mem_some, forall_eq', Classical.not_forall] at goesOn
    obtain ⟨o, isOperator, strong⟩ := goesOn
    exact ⟨op, more, o, rfl, isOperator, Nat.le_of_not_lt strong⟩

end

/-- Induction along the climb of a level: it ends, or an operator of the level goes on with a right
operand of a higher one. -/
@[elab_as_elim]
theorem climb_induction (stop : Nat) {motive : Nat → Expr → List Token → Prop}
    (ends : ∀ least left ts, Ends least ts → motive least left ts)
    (operator : ∀ least left op o ts, op.kind = .operator o → least ≤ o.precedence →
      (∀ x more, ts = x :: more → motive (o.precedence + 1) (.literal x) more) →
      (∀ right, expression stop (o.precedence + 1) ts = .ok right →
        motive least (.binary left op right.1) right.2.val) →
      motive least left (op :: ts))
    (least : Nat) (left : Expr) (ts : List Token) : motive least left ts := by
  by_cases here : Ends least ts
  · exact ends least left ts here
  · obtain ⟨op, more, o, same, isOperator, strong⟩ := exists_operator here
    rw [same]
    apply operator least left op o more isOperator strong
    · intro x rest operand
      exact climb_induction stop ends operator _ _ rest
    · intro right _
      have shorter := right.2.property
      exact climb_induction stop ends operator _ _ right.2.val
termination_by ts.length
decreasing_by
  · rw [same, operand]
    exact Nat.lt_succ_of_lt (Nat.lt_succ_self _)
  · rw [same]
    exact Nat.lt_succ_of_lt shorter

section
variable {stop least : Nat} {left : Expr} {ts : List Token}

/-- The climb of a level leaves nothing of the level. -/
theorem ends_of_operators {r : Expr × { rest : List Token // rest.length ≤ ts.length }}
    (read : operators stop least left ts = .ok r) : Ends least r.2.val := by
  induction least, left, ts using climb_induction stop with
  | ends least left ts ends =>
    rw [operators_ends ends] at read
    cases read
    exact ends
  | operator least left op o ts isOperator strong _ ih =>
    have climbed : (do let r ← operators stop least left (op :: ts); .ok (r.1, r.2.val)) =
        (.ok (r.1, r.2.val) : Except ParseError (Expr × List Token)) := by rw [read, ok_bind]
    rw [operators_bind isOperator strong fun e rest => .ok (e, rest)] at climbed
    obtain ⟨right, operand, more⟩ := ok_of_bind climbed
    obtain ⟨s, later, same⟩ := ok_of_bind more
    have same : s.2.val = r.2.val := congrArg Prod.snd (Except.ok.inj same)
    exact same ▸ ih right operand later

end

/-- A context that an operator of the level passes by: it extends what stands in the context. -/
def Carries (least : Nat) (f : Expr → Expr) : Prop :=
  ∀ e op x, least ≤ strength op → (f e).extend op x = f (e.extend op x)

theorem Carries.binary {least : Nat} {f : Expr → Expr} {left : Expr} {op : Token} {o : Operator}
    (carries : Carries least f) (isOperator : op.kind = .operator o)
    (strong : least ≤ o.precedence) :
    Carries (o.precedence + 1) fun e => f (.binary left op e) := by
  intro e next x stronger
  have above : strength op < strength next := by
    rw [strength_of_operator isOperator]
    exact stronger
  have inner : (Expr.binary left op e).extend next x = .binary left op (e.extend next x) := by
    rw [extend, if_pos above]
  rw [carries _ next x (by omega), inner]

/-- The next operator of a level takes all of the expression for its left operand. -/
def Attaches (least : Nat) (left : Expr) (ts : List Token) : Prop :=
  ∀ op ∈ ts.head?, ∀ o, op.kind = .operator o → least ≤ o.precedence →
    ∀ x, left.extend op x = .binary left op (.literal x)

theorem attaches_literal (least : Nat) (t : Token) (ts : List Token) :
    Attaches least (.literal t) ts := fun _ _ _ _ _ _ => rfl

theorem attaches_binary {least : Nat} {left right : Expr} {op : Token} {o : Operator}
    {ts : List Token} (isOperator : op.kind = .operator o) (ends : Ends (o.precedence + 1) ts) :
    Attaches least (.binary left op right) ts := by
  intro next first p isNext _ x
  have weaker := ends next first p isNext
  have notAbove : ¬ strength op < strength next := by
    rw [strength_of_operator isOperator, strength_of_operator isNext]
    omega
  rw [extend, if_neg notAbove]

theorem ends_of_expression {stop least : Nat} {ts : List Token}
    {r : Expr × { rest : List Token // rest.length < ts.length }}
    (read : expression stop least ts = .ok r) : Ends least r.2.val := by
  cases ts with
  | nil =>
    rw [expression] at read
    cases read
  | cons t ts =>
    rw [expression] at read
    split at read
    · obtain ⟨s, climbed, same⟩ := ok_of_bind read
      cases same
      exact ends_of_operators climbed
    · cases read

theorem elements_operators {isArray : Bool} {stop least : Nat} {left : Expr} {ts : List Token}
    {f : Expr → Expr} (carries : Carries least f) (attaches : Attaches least left ts) :
    elements isArray stop (f left) ts =
      (do let r ← operators stop least left ts; elements isArray stop (f r.1) r.2.val) := by
  induction least, left, ts using climb_induction stop generalizing f with
  | ends least left ts ends =>
    rw [operators_ends ends]
    rfl
  | operator least left op o ts isOperator strong operand further =>
    have allowed : op.kind ∈ separatorKinds isArray := mem_separatorKinds.mpr (.inl ⟨o, isOperator⟩)
    have notComma : op.kind ≠ comma := by rw [isOperator]; exact Kind.noConfusion
    rw [operators_bind isOperator strong fun e rest => elements isArray stop (f e) rest]
    cases ts with
    | nil =>
      rw [expression, elements, if_pos allowed]
      rfl
    | cons x more =>
      rw [elements, if_pos allowed]
      by_cases literal : x.kind.isLiteral = true
      · have grown : (f left).extend op x = f (.binary left op (.literal x)) := by
          rw [carries left op x (by rwa [strength_of_operator isOperator]),
            attaches op rfl o isOperator strong x]
        simp only [literal, if_true, if_neg notComma, grown]
        rw [operand x more rfl (carries.binary isOperator strong) (attaches_literal _ x more),
          ← expression_bind literal fun e rest =>
            elements isArray stop (f (.binary left op e)) rest]
        cases read : expression stop (o.precedence + 1) (x :: more) with
        | error e => rfl
        | ok right =>
          have behind := ends_of_expression read
          exact further right read carries (attaches_binary isOperator behind)
      · rw [expression, if_neg literal]
        simp only [literal]
        rfl

/-- The expressions of a run from the first operand on. -/
def start (isArray : Bool) (stop : Nat) : List Token → Except ParseError (List Expr)
  | [] => .error (.unexpectedEnd operandKinds stop)
  | t :: ts =>
    if t.kind.isLiteral then elements isArray stop (.literal t) ts else .error (.notAnOperand t)

section
variable {isArray : Bool} {stop : Nat} {ts : List Token}

theorem start_eq_expression :
    start isArray stop ts =
      (do let r ← expression stop 0 ts; elements isArray stop r.1 r.2.val) := by
  cases ts with
  | nil =>
    rw [expression]
    rfl
  | cons t ts =>
    by_cases literal : t.kind.isLiteral = true
    · have carries : Carries 0 fun e => e := fun _ _ _ _ => rfl
      rw [expression_bind literal fun e rest => elements isArray stop e rest, start, if_pos literal]
      exact elements_operators carries (attaches_literal 0 t ts)
    · rw [expression, start, if_neg literal, if_neg literal]
      rfl

theorem elements_stopped {e : Expr} (ends : Ends 0 ts)
    (noComma : isArray = true → ∀ t ∈ ts.head?, t.kind ≠ comma) :
    elements isArray stop e ts = finish isArray [e] ts := by
  cases ts with
  | nil => rfl
  | cons t ts =>
    have notAllowed : t.kind ∉ separatorKinds isArray := by
      intro allowed
      rcases mem_separatorKinds.mp allowed with ⟨o, isOperator⟩ | ⟨array, isComma⟩
      · exact absurd (ends t rfl o isOperator) (Nat.not_lt_zero _)
      · exact noComma array t rfl isComma
    unfold elements
    exact if_neg notAllowed

theorem elements_comma {e : Expr} {t : Token} (isComma : t.kind = comma) :
    elements true stop e (t :: ts) = (start true stop ts).map (e :: ·) := by
  have allowed : t.kind ∈ separatorKinds true := mem_separatorKinds.mpr (.inr ⟨rfl, isComma⟩)
  cases ts with
  | nil =>
    rw [elements, if_pos allowed]
    rfl
  | cons x more =>
    rw [elements, if_pos allowed, start]
    by_cases literal : x.kind.isLiteral = true
    · simp only [literal, if_true, if_pos isComma]
    · simp only [if_neg literal]
      rfl

theorem start_array (ts : List Token) :
    start true stop ts = (do let r ← array stop ts; finish true r.1 r.2) := by
  rw [array, start_eq_expression]
  cases read : expression stop 0 ts with
  | error e => rfl
  | ok r =>
    have ends := ends_of_expression read
    obtain ⟨first, rest, shorter⟩ := r
    cases rest with
    | nil => rfl
    | cons t more =>
      by_cases isComma : t.kind = comma
      · have shorter : more.length < ts.length := Nat.lt_of_succ_lt shorter
        have tail := start_array more
        simp only [ok_bind, if_pos isComma, elements_comma isComma, tail, bind_assoc]
        cases array stop more with
        | error e => rfl
        | ok others =>
          obtain ⟨es, behind⟩ := others
          cases behind <;> rfl
      · simp only [ok_bind, if_neg isComma]
        rw [elements_stopped ends]
        · rfl
        · rintro - u first
          cases first
          exact isComma
termination_by ts.length

theorem read_eq_start (arrayAllowed : Bool) (run : List Token) :
    Run.read arrayAllowed stop run =
      (start (arrayAllowed && run.any fun t => t.kind == comma) stop run).map .ofElements := by
  cases run with
  | nil => rfl
  | cons t ts =>
    by_cases literal : t.kind.isLiteral = true
    · simp only [Run.read, start, if_pos literal]
    · simp only [Run.read, start, if_neg literal]
      rfl

/-- Where a comma is, there are two expressions or more. -/
theorem ofElements_of_comma {es : List Expr} (read : start true stop ts = .ok es)
    (commas : (ts.any fun t => t.kind == comma) = true) : Expr.ofElements es = .array es := by
  cases ts with
  | nil => cases read
  | cons t ts =>
    by_cases literal : t.kind.isLiteral = true
    · rw [start, if_pos literal] at read
      obtain ⟨first, rest, rfl, same, -⟩ := elements_sound (.literal t) literal read
      cases rest with
      | nil =>
        have none := any_comma_chain first
        have same : first.tokens = t :: ts := by simpa [Tail.tokens, Expr.tokens] using same
        rw [same, commas] at none
        cases none
      | cons p rest => rfl
    · rw [start, if_neg literal] at read
      cases read

end

/-- Both ways of reading come to the same expression, or to the same error. -/
theorem read_eq (arrayAllowed : Bool) (stop : Nat) (run : List Token) :
    read arrayAllowed stop run = Run.read arrayAllowed stop run := by
  rw [read_eq_start, read]
  split
  · rename_i isArray
    have commas := (Bool.and_eq_true_iff.mp isArray).2
    have many (es : List Expr) (whole : start true stop run = .ok es) :
        Expr.ofElements es = .array es := ofElements_of_comma whole commas
    rw [isArray]
    rw [start_array] at many ⊢
    generalize array stop run = result at many ⊢
    cases result with
    | error e => rfl
    | ok r =>
      obtain ⟨es, rest⟩ := r
      cases rest with
      | nil => exact congrArg Except.ok (many es rfl).symm
      | cons t more => rfl
  · rename_i notArray
    rw [Bool.eq_false_iff.mpr notArray, start_eq_expression]
    cases read : expression stop 0 run with
    | error e => rfl
    | ok r =>
      have ends := ends_of_expression read
      have stopped : elements false stop r.1 r.2.val = finish false [r.1] r.2.val :=
        elements_stopped ends (by simp)
      simp only [ok_bind, stopped]
      cases r.2.val <;> rfl

theorem expression_whole_iff {stop : Nat} {run : List Token} {e : Expr} :
    (∃ within, expression stop 0 run = .ok (e, ⟨[], within⟩)) ↔
      Run.read false stop run = .ok e := by
  have noArray : ¬ (false && run.any fun t => t.kind == comma) = true := by simp
  rw [← read_eq, read, if_neg noArray]
  constructor
  · rintro ⟨within, climbed⟩
    rw [climbed]
    rfl
  · intro whole
    obtain ⟨⟨d, rest, within⟩, climbed, finished⟩ := ok_of_bind whole
    cases rest with
    | nil =>
      cases finished
      exact ⟨within, climbed⟩
    | cons t rest => cases finished

/-- The stars and slashes bind more strongly than the plus and minus signs. -/
theorem precedence_lt_iff (a b : Operator) :
    a.precedence < b.precedence ↔ (a = .plus ∨ a = .minus) ∧ (b = .star ∨ b = .slash) := by
  cases a <;> cases b <;> decide

/-- Climbing takes a whole run of operands and operators in turn, and its tree is the only one over
the run that ranks the operators by their strength and groups equal ones to the left. -/
theorem expression_ranked {run : List Token} (alternates : Alternates run) (stop : Nat) :
    (∃ e within, expression stop 0 run = .ok (e, ⟨[], within⟩) ∧
      (∀ arrayAllowed, Run.read arrayAllowed stop run = .ok e) ∧
      e.tokens = run ∧ e.Ranked ∧ ∀ d : Expr, d.tokens = run → d.Ranked → d = e) ∧
    ∀ a b : Operator, a.precedence < b.precedence ↔
      (a = .plus ∨ a = .minus) ∧ (b = .star ∨ b = .slash) := by
  refine ⟨?_, precedence_lt_iff⟩
  obtain ⟨e, grouped, rfl⟩ := exists_grouped_iff.mpr alternates
  have reads := fun arrayAllowed => read_chain arrayAllowed stop ⟨e, grouped⟩
  obtain ⟨within, climbed⟩ := expression_whole_iff.mpr (reads false)
  refine ⟨e, within, climbed, reads, rfl, grouped.ranked, ?_⟩
  intro d same ranked
  rw [← same] at alternates
  exact grouped_unique (ranked.grouped alternates) grouped same

def mixedRun : List Token :=
  [⟨.number, "1", ⟨0, 1⟩⟩, ⟨.operator .minus, "-", ⟨1, 2⟩⟩, ⟨.word, "a", ⟨2, 3⟩⟩,
    ⟨.operator .star, "*", ⟨3, 4⟩⟩, ⟨.binding, "b", ⟨4, 7⟩⟩, ⟨.operator .plus, "+", ⟨7, 8⟩⟩,
    ⟨.constant, "c", ⟨8, 10⟩⟩]

def mixedTree : Expr :=
  .binary
    (.binary (.literal ⟨.number, "1", ⟨0, 1⟩⟩) ⟨.operator .minus, "-", ⟨1, 2⟩⟩
      (.binary (.literal ⟨.word, "a", ⟨2, 3⟩⟩) ⟨.operator .star, "*", ⟨3, 4⟩⟩
        (.literal ⟨.binding, "b", ⟨4, 7⟩⟩)))
    ⟨.operator .plus, "+", ⟨7, 8⟩⟩ (.literal ⟨.constant, "c", ⟨8, 10⟩⟩)

theorem expression_ranked_mixed : Alternates mixedRun ∧
    ∃ within, expression 10 0 mixedRun = .ok (mixedTree, ⟨[], within⟩) := by
  have alternates : Alternates mixedRun :=
    .operator rfl rfl (.operator rfl rfl (.operator rfl rfl (.operand rfl)))
  have ranked : mixedTree.Ranked := by
    simp [mixedTree, Ranked, Expr.operator?, Kind.operator?, Operator.precedence]
  obtain ⟨⟨e, within, climbed, -, -, -, only⟩, -⟩ := expression_ranked alternates 10
  have same : mixedTree = e := only mixedTree rfl ranked
  exact ⟨alternates, within, same ▸ climbed⟩

end PhraseLang.Climbing
