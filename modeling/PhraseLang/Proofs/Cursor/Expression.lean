import PhraseLang.Proofs.Climbing
import PhraseLang.Proofs.Cursor.Walk

/-! Expressions read with a cursor.
The run of an expression is a row of its own, climbed with a cursor from its beginning. Every round
of the climb takes a token, so there are never more rounds than tokens. -/
namespace PhraseLang.Cursor
open PhraseLang.Run

section
variable (run : List Token) (stop : Nat)

/-- A single operand. -/
def primary : Walk Expr := do
  match ← peek run with
  | none => unexpected run stop operandKinds
  | some t =>
    if t.kind.isLiteral then
      let _ ← advance run
      return .literal t
    else refuse (.notAnOperand t)

mutual

/-- An operand, and the operators behind it that bind at least as strongly as `least`. -/
def expression : Nat → Nat → Walk Expr
  | 0, _ => halt .exhausted
  | n + 1, least => do
    let left ← primary run stop
    operators n least left

def operators : Nat → Nat → Expr → Walk Expr
  | 0, _, _ => halt .exhausted
  | n + 1, least, left => do
    match ← peek run with
    | none => return left
    | some op =>
      match op.kind.operator? with
      | none => return left
      | some o =>
        if o.precedence < least then return left
        else
          let _ ← advance run
          let right ← expression n (o.precedence + 1)
          operators n least (.binary left op right)

end

/-- One expression, and one more behind every comma. -/
def array : Nat → Walk (List Expr)
  | 0 => halt .exhausted
  | n + 1 => do
    let first ← expression run stop (run.length + 1) 0
    if ← matchToken run comma then
      let others ← array n
      return first :: others
    else return [first]

def content (isArray : Bool) : Walk Expr :=
  if isArray then do
    let elements ← array run stop (run.length + 1)
    return .array elements
  else expression run stop (run.length + 1) 0

/-- Nothing may be left of a run that has been read. -/
def finish (isArray : Bool) (e : Expr) : Walk Expr := do
  match ← peek run with
  | none => return e
  | some t => refuse (.unexpectedToken t (separatorKinds isArray))

/-- The expression that a run is. -/
def wholeRun (arrayAllowed : Bool) : Walk Expr := do
  let isArray := arrayAllowed && run.any fun t => t.kind == comma
  let e ← content run stop isArray
  finish run isArray e

def parseRun (arrayAllowed : Bool) : Walk Expr := apart run (wholeRun run stop arrayAllowed)

end

section
variable {run : List Token} {stop n least i : Nat}

theorem getElem?_of_drop {t : Token} {more : List Token} (left : t :: more = run.drop i) :
    run[i]? = some t ∧ more = run.drop (i + 1) := by
  constructor
  · rw [← List.head?_drop, ← left]
    rfl
  · rw [← List.drop_drop, ← left]
    rfl

theorem primary_some {t : Token} (here : run[i]? = some t) (literal : t.kind.isLiteral = true) :
    primary run stop i = ([.forward i (i + 1)], .ok (.literal t, i + 1)) := by
  rw [primary, peek_bind here]
  simp only [if_pos literal]
  rw [bind_ok (advance_some here)]
  rfl

theorem primary_refused {t : Token} (here : run[i]? = some t) (other : ¬ t.kind.isLiteral = true) :
    primary run stop i = refuse (.notAnOperand t) i := by
  rw [primary, peek_bind here]
  simp only [if_neg other]

theorem primary_none (none : run[i]? = none) :
    primary run stop i = refuse (.unexpectedEnd operandKinds stop) i := by
  rw [primary, peek_bind none]
  simp only [unexpected_eq, drop_eq_nil none]
  rfl

/-- The cursor stands where the tokens that the climb has left begin. -/
def Climbed (run : List Token) (lo : Nat) {p : List Token → Prop} (e : Expr) (j : Nat)
    (c : Expr × { rest : List Token // p rest }) : Prop :=
  lo ≤ j ∧ j ≤ run.length ∧ e = c.1 ∧ c.2.val = run.drop j

theorem expression_tracks
    (ih : ∀ left, i < run.length → Tracks run (Climbed run (i + 1)) (i + 1)
      (operators run stop n least left (i + 1))
      (Climbing.operators stop least left (run.drop (i + 1)))) {us : List Token}
    (same : us = run.drop i) :
    Tracks run (Climbed run (i + 1)) i (expression run stop (n + 1) least i)
      (Climbing.expression stop least us) := by
  rw [expression]
  cases here : run[i]? with
  | none =>
    obtain rfl := same.trans (drop_eq_nil here)
    rw [bind_error (primary_none here), Climbing.expression]
    exact .refuse _
  | some t =>
    obtain rfl := same.trans (Lookahead.drop_eq_cons here)
    rw [Climbing.expression]
    by_cases literal : t.kind.isLiteral = true
    · rw [if_pos literal]
      refine .step (primary_some here literal) (.next here) ?_
      apply (ih (.literal t) (lt_length here)).map
      rintro e j ⟨e', rest, within⟩ climbed
      exact ⟨_, rfl, climbed⟩
    · rw [if_neg literal, bind_error (primary_refused here literal)]
      exact .refuse _

theorem operators_tracks {left : Expr} (within : i ≤ run.length)
    (ihExpression : ∀ least, i < run.length → Tracks run (Climbed run (i + 2)) (i + 1)
      (expression run stop n least (i + 1)) (Climbing.expression stop least (run.drop (i + 1))))
    (ihOperators : ∀ left j us, i < j → j ≤ run.length → us = run.drop j →
      Tracks run (Climbed run j) j (operators run stop n least left j)
        (Climbing.operators stop least left us)) {us : List Token} (same : us = run.drop i) :
    Tracks run (Climbed run i) i (operators run stop (n + 1) least left i)
      (Climbing.operators stop least left us) := by
  rw [operators]
  cases here : run[i]? with
  | none =>
    obtain rfl := same.trans (drop_eq_nil here)
    rw [peek_bind here, Climbing.operators]
    exact .pure ⟨Nat.le_refl i, within, rfl, (drop_eq_nil here).symm⟩
  | some op =>
    obtain rfl := same.trans (Lookahead.drop_eq_cons here)
    have ending := (Lookahead.drop_eq_cons here).symm
    rw [peek_bind here, Climbing.operators]
    dsimp only
    cases isOperator : op.kind.operator? with
    | none => exact .pure ⟨Nat.le_refl i, within, rfl, ending⟩
    | some o =>
      by_cases weak : o.precedence < least
      · simp only [if_pos weak]
        exact .pure ⟨Nat.le_refl i, within, rfl, ending⟩
      · simp only [if_neg weak]
        refine .step (advance_some here) (.next here) ?_
        refine (ihExpression (o.precedence + 1) (lt_length here)).bind ?_
        rintro right j ⟨right', more, shorter⟩ ⟨past, inside, rfl, left⟩
        apply (ihOperators _ j more (by omega) inside left).map
        rintro e k ⟨e', rest, _⟩ ⟨past', inside', value, left'⟩
        exact ⟨_, rfl, by omega, inside', value, left'⟩

/-- Both readings of a level, with more rounds than tokens are left. -/
theorem climb_tracks (stop n : Nat) :
    (∀ i least us, run.length - i < n → us = run.drop i →
      Tracks run (Climbed run (i + 1)) i (expression run stop n least i)
        (Climbing.expression stop least us)) ∧
    ∀ i least left us, run.length - i < n → i ≤ run.length → us = run.drop i →
      Tracks run (Climbed run i) i (operators run stop n least left i)
        (Climbing.operators stop least left us) := by
  induction n with
  | zero => exact ⟨fun _ _ _ none => absurd none (Nat.not_lt_zero _),
      fun _ _ _ _ none => absurd none (Nat.not_lt_zero _)⟩
  | succ n ih =>
    obtain ⟨ihExpression, ihOperators⟩ := ih
    constructor
    · intro i least us enough same
      apply expression_tracks
      · intro left room
        exact ihOperators (i + 1) least left _ (by omega) (by omega) rfl
      · exact same
    · intro i least left us enough within same
      apply operators_tracks within
      · intro least room
        exact ihExpression (i + 1) least _ (by omega) rfl
      · intro left j us past inside same
        exact ihOperators j least left us (by omega) inside same
      · exact same

theorem array_tracks (enough : run.length - i < n) :
    Tracks run (fun es j c => j ≤ run.length ∧ es = c.1 ∧ c.2 = run.drop j) i
      (array run stop n i) (Climbing.array stop (run.drop i)) := by
  induction n generalizing i with
  | zero => exact absurd enough (Nat.not_lt_zero _)
  | succ n ih =>
    rw [array, Climbing.array]
    refine ((climb_tracks stop (run.length + 1)).1 i 0 _ (by omega) rfl).bind ?_
    rintro first j ⟨first', rest, shorter⟩ ⟨past, inside, rfl, left⟩
    cases rest with
    | nil =>
      have other : ∀ t, run[j]? = some t → t.kind ≠ comma := by
        intro t here
        cases left.trans (Lookahead.drop_eq_cons here)
      refine .step (matchToken_none other) (.nil j) ?_
      exact .pure ⟨inside, rfl, left⟩
    | cons t more =>
      obtain ⟨here, behind⟩ := getElem?_of_drop left
      by_cases isComma : t.kind = comma
      · simp only [if_pos isComma]
        refine .step (matchToken_some here isComma) (.next here) ?_
        have room := lt_length here
        subst behind
        apply (ih (by omega)).bind
        rintro others k ⟨others', rest⟩ ⟨inside', rfl, left'⟩
        exact .pure ⟨inside', rfl, left'⟩
      · simp only [if_neg isComma]
        have other : ∀ u, run[j]? = some u → u.kind ≠ comma := by
          intro u there
          obtain rfl := Option.some.inj (here.symm.trans there)
          exact isComma
        refine .step (matchToken_none other) (.nil j) ?_
        exact .pure ⟨inside, rfl, left⟩

theorem finish_tracks {isArray : Bool} {e : Expr} {rest : List Token} (left : rest = run.drop i) :
    Tracks run (fun e _ c => e = c) i (finish run isArray e i)
      (Climbing.finish isArray e rest) := by
  rw [finish]
  cases rest with
  | nil =>
    have none : run[i]? = none := by
      rw [← List.head?_drop, ← left]
      rfl
    rw [peek_bind none]
    exact .pure rfl
  | cons t more =>
    rw [peek_bind (getElem?_of_drop left).1]
    exact .refuse _

theorem wholeRun_tracks (run : List Token) (stop : Nat) (arrayAllowed : Bool) :
    Tracks run (fun e _ c => e = c) 0 (wholeRun run stop arrayAllowed 0)
      (Run.read arrayAllowed stop run) := by
  rw [← Climbing.read_eq, Climbing.read, wholeRun]
  cases arrayAllowed && run.any fun t => t.kind == comma with
  | true =>
    have elements : Tracks run (fun e j c => e = .array c.1 ∧ c.2 = run.drop j) 0
        (content run stop true 0) (Climbing.array stop run) := by
      refine (array_tracks (Nat.lt_succ_self _)).follow ?_
      rintro es j ⟨es', rest⟩ ⟨-, rfl, left⟩
      exact .pure ⟨rfl, left⟩
    refine elements.bind ?_
    rintro e j ⟨es, rest⟩ ⟨rfl, left⟩
    exact finish_tracks left
  | false =>
    have single := (climb_tracks stop (run.length + 1)).1 0 0 run (Nat.lt_succ_self _) rfl
    refine single.bind ?_
    rintro e j ⟨e', rest⟩ ⟨-, -, rfl, left⟩
    exact finish_tracks left

/-- What is done on a run leaves the cursor of the row around it where it is. -/
theorem Way.inside {ts : List Token} {log : List Event} (safe : ∀ e ∈ log, e.Safe run) :
    Way ts i (log.map (.inside run)) i := by
  induction log with
  | nil => exact .nil i
  | cons e log ih =>
    obtain ⟨here, behind⟩ := List.forall_mem_cons.mp safe
    exact .cons here rfl rfl (ih behind)

theorem parseRun_tracks {ts : List Token} (arrayAllowed : Bool) :
    Tracks ts (fun e j c => j = i ∧ e = c) i (parseRun run stop arrayAllowed i)
      (Run.read arrayAllowed stop run) := by
  have tracks := wholeRun_tracks run stop arrayAllowed
  have way : Way ts i _ i := .inside tracks.safe
  unfold parseRun apart
  generalize wholeRun run stop arrayAllowed 0 = x at tracks way
  generalize Run.read arrayAllowed stop run = r at tracks
  cases tracks with
  | ok _ same => exact .ok way ⟨rfl, same⟩
  | refused => exact .refused_of_way way

end

end PhraseLang.Cursor
