import PhraseLang.Proofs.Climbing

/-! The first token of a run that does not fit its position.
Operands and separators stand in turn, from an operand on. A run is read to its end if every token
fits its position and the last one is an operand. If not, the error is about the first position
where that fails, whatever stands behind it and however deep the operators before it are nested. -/
namespace PhraseLang.Run
open PhraseLang.Grammar

/-- What may stand at a position of a run. -/
def Fits (isArray : Bool) (i : Nat) (k : Kind) : Prop :=
  if i % 2 = 0 then k.isLiteral = true else (∃ o, k = .operator o) ∨ isArray = true ∧ k = comma

theorem fits_operand {isArray : Bool} {i : Nat} {k : Kind} (even : i % 2 = 0) :
    Fits isArray i k ↔ k.isLiteral = true := by
  rw [Fits, if_pos even]

theorem fits_separator {isArray : Bool} {i : Nat} {k : Kind} (odd : i % 2 = 1) :
    Fits isArray i k ↔ k ∈ separatorKinds isArray := by
  rw [Fits, if_neg (by omega), mem_separatorKinds]

instance (isArray : Bool) (i : Nat) (k : Kind) : Decidable (Fits isArray i k) :=
  if even : i % 2 = 0 then decidable_of_iff _ (fits_operand even).symm
  else decidable_of_iff _ (fits_separator (by omega)).symm

/-- The error about a token that does not fit its position. -/
def misfit (isArray : Bool) (i : Nat) (t : Token) : ParseError :=
  if i % 2 = 0 then .notAnOperand t else .unexpectedToken t (separatorKinds isArray)

/-- The fault of a run whose tokens stand at the positions from `i` on, if it has one. -/
def fault? (isArray : Bool) (stop : Nat) : Nat → List Token → Option ParseError
  | i, [] => if i % 2 = 0 then some (.unexpectedEnd operandKinds stop) else none
  | i, t :: ts =>
    if Fits isArray i t.kind then fault? isArray stop (i + 1) ts else some (misfit isArray i t)

/-- A reading fails with the fault, and succeeds if there is none. -/
def EndsIn {α : Type} (reading : Except ParseError α) : Option ParseError → Prop
  | none => ∃ a, reading = .ok a
  | some e => reading = .error e

theorem EndsIn.map {α β : Type} {reading : Except ParseError α} {fault : Option ParseError}
    (ends : EndsIn reading fault) (f : α → β) : EndsIn (reading.map f) fault := by
  cases fault with
  | none =>
    obtain ⟨a, rfl⟩ := ends
    exact ⟨f a, rfl⟩
  | some e =>
    have failed : reading = .error e := ends
    rw [failed]
    rfl

section
variable {isArray : Bool} {stop : Nat}

/-- Behind an operand, whatever has been read so far plays no part. -/
theorem elements_endsIn {current : Expr} {ts : List Token} {i : Nat} (odd : i % 2 = 1) :
    EndsIn (elements isArray stop current ts) (fault? isArray stop i ts) := by
  have even : (i + 1) % 2 = 0 := by omega
  fun_induction elements isArray stop current ts generalizing i with
  | case1 current =>
    rw [fault?, if_neg (by omega)]
    exact ⟨_, rfl⟩
  | case2 current separator allowed =>
    rw [fault?, if_pos ((fits_separator odd).mpr allowed), fault?, if_pos even]
    rfl
  | case3 current separator allowed operand rest literal isComma ih =>
    rw [fault?, if_pos ((fits_separator odd).mpr allowed), fault?,
      if_pos ((fits_operand even).mpr literal)]
    exact (ih (by omega) (by omega)).map _
  | case4 current separator allowed operand rest literal notComma ih =>
    rw [fault?, if_pos ((fits_separator odd).mpr allowed), fault?,
      if_pos ((fits_operand even).mpr literal)]
    exact ih (by omega) (by omega)
  | case5 current separator allowed operand rest notLiteral =>
    rw [fault?, if_pos ((fits_separator odd).mpr allowed), fault?,
      if_neg fun fits => notLiteral ((fits_operand even).mp fits), misfit, if_pos even]
    rfl
  | case6 current separator rest notAllowed =>
    rw [fault?, if_neg fun fits => notAllowed ((fits_separator odd).mp fits), misfit,
      if_neg (by omega)]
    rfl

theorem read_endsIn (arrayAllowed : Bool) (run : List Token) :
    EndsIn (read arrayAllowed stop run)
      (fault? (arrayAllowed && run.any fun t => t.kind == comma) stop 0 run) := by
  cases run with
  | nil => rfl
  | cons t ts =>
    rw [read, fault?]
    by_cases literal : t.kind.isLiteral = true
    · rw [if_pos literal, if_pos ((fits_operand rfl).mpr literal)]
      exact (elements_endsIn rfl).map _
    · rw [if_neg literal, if_neg fun fits => literal ((fits_operand rfl).mp fits)]
      rfl

/-- Every token before the one at `n` fits its position, the first one the position `i`. -/
def FitBefore (isArray : Bool) (n i : Nat) (ts : List Token) : Prop :=
  ∀ j t, j < n → ts[j]? = some t → Fits isArray (j + i) t.kind

theorem FitBefore.tail {n i : Nat} {t : Token} {ts : List Token}
    (fit : FitBefore isArray (n + 1) i (t :: ts)) : FitBefore isArray n (i + 1) ts := by
  intro j u before here
  have fits := fit (j + 1) u (by omega) (by simpa using here)
  rwa [Nat.succ_add_eq_add_succ] at fits

theorem FitBefore.head {n i : Nat} {t : Token} {ts : List Token}
    (fit : FitBefore isArray (n + 1) i (t :: ts)) : Fits isArray i t.kind := by
  have fits := fit 0 t (Nat.succ_pos n) rfl
  rwa [Nat.zero_add] at fits

theorem fault?_of_fit {i : Nat} {ts : List Token} (fit : FitBefore isArray ts.length i ts) :
    fault? isArray stop i ts =
      if (ts.length + i) % 2 = 0 then some (.unexpectedEnd operandKinds stop) else none := by
  induction ts generalizing i with
  | nil =>
    rw [fault?, List.length_nil, Nat.zero_add]
  | cons t ts ih =>
    rw [fault?, if_pos fit.head, ih fit.tail, List.length_cons, Nat.succ_add_eq_add_succ]

theorem fault?_of_misfit {i n : Nat} {ts : List Token} {t : Token} (here : ts[n]? = some t)
    (fit : FitBefore isArray n i ts) (misfits : ¬ Fits isArray (n + i) t.kind) :
    fault? isArray stop i ts = some (misfit isArray (n + i) t) := by
  induction ts generalizing i n with
  | nil => cases here
  | cons u ts ih =>
    cases n with
    | zero =>
      obtain rfl : u = t := by simpa using here
      rw [Nat.zero_add] at misfits ⊢
      rw [fault?, if_neg misfits]
    | succ n =>
      rw [Nat.succ_add_eq_add_succ] at misfits ⊢
      rw [fault?, if_pos fit.head, ih (by simpa using here) fit.tail misfits]

theorem fit_of_fault? {i : Nat} {ts : List Token} (none : fault? isArray stop i ts = none) :
    FitBefore isArray ts.length i ts := by
  induction ts generalizing i with
  | nil => exact fun _ _ before => absurd before (Nat.not_lt_zero _)
  | cons t ts ih =>
    rw [fault?] at none
    split at none
    · rename_i first
      intro j u before here
      cases j with
      | zero =>
        obtain rfl : t = u := by simpa using here
        rwa [Nat.zero_add]
      | succ j =>
        rw [Nat.succ_add_eq_add_succ]
        exact ih none j u (Nat.lt_of_succ_lt_succ before) (by simpa using here)
    · cases none

end

/-- Where arrays are allowed, a comma makes the run one. -/
def holdsArray (arrayAllowed : Bool) (run : List Token) : Bool :=
  arrayAllowed && run.any fun t => t.kind == comma

theorem fitBefore_length {isArray : Bool} {run : List Token}
    (fits : ∀ i t, run[i]? = some t → Fits isArray i t.kind) :
    FitBefore isArray run.length 0 run := fun i t _ here => fits i t here

theorem fits_of_fitBefore {isArray : Bool} {run : List Token}
    (fit : FitBefore isArray run.length 0 run) (i : Nat) (t : Token) (here : run[i]? = some t) :
    Fits isArray i t.kind := fit i t (List.getElem?_eq_some_iff.mp here).1 here

/-- A run is read exactly if every token fits its position and the last one is an operand. If not,
the error is about the first token that does not fit, or about the end where an operand is due.
Climbing comes to the same. -/
theorem read_first_misfit (arrayAllowed : Bool) (stop : Nat) (run : List Token) :
    ((∃ e, read arrayAllowed stop run = .ok e) ↔
      (∀ i t, run[i]? = some t → Fits (holdsArray arrayAllowed run) i t.kind) ∧
        run.length % 2 = 1) ∧
    (∀ i t, run[i]? = some t →
      (∀ j u, j < i → run[j]? = some u → Fits (holdsArray arrayAllowed run) j u.kind) →
      ¬ Fits (holdsArray arrayAllowed run) i t.kind →
      read arrayAllowed stop run = .error (
        if i % 2 = 0 then .notAnOperand t
        else .unexpectedToken t
          ([.operator .plus, .operator .minus, .operator .star, .operator .slash] ++
            if holdsArray arrayAllowed run then [.punctuation .comma] else []))) ∧
    ((∀ i t, run[i]? = some t → Fits (holdsArray arrayAllowed run) i t.kind) →
      run.length % 2 = 0 →
      read arrayAllowed stop run =
        .error (.unexpectedEnd [.number, .word, .constant, .binding] stop)) ∧
    Climbing.read arrayAllowed stop run = read arrayAllowed stop run := by
  have ends : EndsIn (read arrayAllowed stop run)
      (fault? (holdsArray arrayAllowed run) stop 0 run) := read_endsIn arrayAllowed run
  refine ⟨⟨?_, ?_⟩, ?_, ?_, Climbing.read_eq arrayAllowed stop run⟩
  · rintro ⟨e, accepted⟩
    cases found : fault? (holdsArray arrayAllowed run) stop 0 run with
    | some d =>
      rw [found, accepted] at ends
      cases ends
    | none =>
      have fit := fit_of_fault? found
      rw [fault?_of_fit fit, Nat.add_zero] at found
      have odd : ¬ run.length % 2 = 0 := fun even => by simp [even] at found
      exact ⟨fits_of_fitBefore fit, by omega⟩
  · rintro ⟨fits, odd⟩
    rw [fault?_of_fit (fitBefore_length fits), Nat.add_zero, if_neg (by omega)] at ends
    exact ends
  · intro i t here before misfits
    have fit : FitBefore (holdsArray arrayAllowed run) i 0 run := before
    rw [fault?_of_misfit here fit misfits] at ends
    exact ends
  · intro fits even
    rw [fault?_of_fit (fitBefore_length fits), Nat.add_zero, if_pos even] at ends
    exact ends

/-- A comma is no separator in a condition, whatever is wrong behind it. -/
def listedRun : List Token :=
  [⟨.number, "1", ⟨0, 1⟩⟩, ⟨.operator .star, "*", ⟨1, 2⟩⟩, ⟨.number, "2", ⟨2, 3⟩⟩,
    ⟨.punctuation .comma, ",", ⟨3, 4⟩⟩, ⟨.operator .plus, "+", ⟨4, 5⟩⟩]

theorem read_first_misfit_listed :
    read false 5 listedRun = .error (.unexpectedToken ⟨.punctuation .comma, ",", ⟨3, 4⟩⟩
      [.operator .plus, .operator .minus, .operator .star, .operator .slash]) ∧
    read true 5 listedRun = .error (.notAnOperand ⟨.operator .plus, "+", ⟨4, 5⟩⟩) ∧
    read true 4 (listedRun.take 4) =
      .error (.unexpectedEnd [.number, .word, .constant, .binding] 4) := by
  have fitBefore (isArray : Bool) (n : Nat) (ts : List Token)
      (all : ∀ j ∈ List.range n, ∀ u ∈ ts[j]?, Fits isArray j u.kind) :
      ∀ j u, j < n → ts[j]? = some u → Fits isArray j u.kind :=
    fun j u before here => all j (List.mem_range.mpr before) u here
  refine ⟨?_, ?_, ?_⟩
  · have before := fitBefore false 3 listedRun (by decide)
    exact (read_first_misfit false 5 listedRun).2.1 3 _ rfl before (by decide)
  · have before := fitBefore true 4 listedRun (by decide)
    exact (read_first_misfit true 5 listedRun).2.1 4 _ rfl before (by decide)
  · refine (read_first_misfit true 4 (listedRun.take 4)).2.2.1 (fun i t here => ?_) rfl
    exact fitBefore _ 4 _ (by decide) i t (List.getElem?_eq_some_iff.mp here).1 here

end PhraseLang.Run
