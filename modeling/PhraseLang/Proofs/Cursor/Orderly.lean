import PhraseLang.Proofs.Cursor.Parsing

/-! Orderly readings.
A cursor goes back only to where the statement or the block that was read last has ended. Only the
clauses behind a conditional do that, and a block has always been read right in front of them. With
what the readers come to, that says how a whole row is read. -/
namespace PhraseLang.Cursor

/-- Neither a step back nor the end of a statement or a block, also not on the run of an
expression. -/
def Event.isQuiet : Event → Bool
  | .back _ _ | .returned _ _ => false
  | .inside _ e => e.isQuiet
  | _ => true

/-- Where the statement or the block that was read last has ended, given where it had before. -/
def Event.ended (last : Option Nat) : Event → Option Nat
  | .returned _ j => some j
  | _ => last

/-- A step back goes to where the statement or the block that was read last has ended. -/
def Event.Restores (last : Option Nat) : Event → Prop
  | .back _ j => last = some j
  | .inside _ e => e.isQuiet = true
  | _ => True

/-- The same for all events of a row. -/
def Restored : Option Nat → List Event → Prop
  | _, [] => True
  | last, e :: log => e.Restores last ∧ Restored (e.ended last) log

theorem Event.restores_of_isQuiet {e : Event} (quiet : e.isQuiet = true) (last : Option Nat) :
    e.Restores last ∧ e.ended last = last := by
  cases e with
  | back | returned => cases quiet
  | inside => exact ⟨quiet, rfl⟩
  | _ => exact ⟨trivial, rfl⟩

section
variable {last : Option Nat} {log more : List Event}

theorem Restored.append (first : Restored last log)
    (second : Restored (log.foldl Event.ended last) more) : Restored last (log ++ more) := by
  induction log generalizing last with
  | nil => exact second
  | cons e log ih => exact ⟨first.1, ih first.2 second⟩

theorem restored_of_quiet (quiet : ∀ e ∈ log, e.isQuiet = true) (last : Option Nat) :
    Restored last log ∧ log.foldl Event.ended last = last := by
  induction log with
  | nil => exact ⟨trivial, rfl⟩
  | cons e log ih =>
    obtain ⟨here, behind⟩ := List.forall_mem_cons.mp quiet
    obtain ⟨restores, same⟩ := e.restores_of_isQuiet here last
    rw [List.foldl_cons, Restored, same]
    exact ⟨⟨restores, (ih behind).1⟩, (ih behind).2⟩

end

namespace Walk
variable {α β : Type} {w : Walk α} {f : α → Walk β} {last : Option Nat} {i j : Nat}

/-- A reading without a step back, in which no statement and no block is read. -/
def Quiet (w : Walk α) : Prop := ∀ i, ∀ e ∈ (w i).1, e.isQuiet = true

/-- A reading with steps back only to where the statement or the block read last has ended. -/
def Restoring (w : Walk α) : Prop := ∀ last i, Restored last (w i).1

/-- A reading that ends with a statement or a block. -/
def Sealed (w : Walk α) : Prop :=
  ∀ last i a j, (w i).2 = .ok (a, j) → (w i).1.foldl Event.ended last = some j

theorem bind_cases (w : Walk α) (f : α → Walk β) (i : Nat) :
    (∃ h, (w i).2 = .error h ∧ (w >>= f) i = ((w i).1, .error h)) ∨
      ∃ a j, (w i).2 = .ok (a, j) ∧ (w >>= f) i = ((w i).1 ++ (f a j).1, (f a j).2) := by
  rcases here : w i with ⟨log, h | ⟨a, j⟩⟩
  · exact .inl ⟨h, rfl, bind_error here⟩
  · exact .inr ⟨a, j, rfl, bind_ok here⟩

theorem Quiet.restored (quiet : w.Quiet) (last : Option Nat) (i : Nat) :
    Restored last (w i).1 ∧ (w i).1.foldl Event.ended last = last :=
  restored_of_quiet (quiet i) last

theorem Quiet.restoring (quiet : w.Quiet) : w.Restoring := fun last i => (quiet.restored last i).1

theorem Quiet.bind (first : w.Quiet) (rest : ∀ a, (f a).Quiet) : (w >>= f).Quiet := by
  intro i e he
  rcases bind_cases w f i with ⟨h, -, same⟩ | ⟨a, j, -, same⟩
  · rw [same] at he
    exact first i e he
  · rw [same] at he
    rcases List.mem_append.mp he with he | he
    · exact first i e he
    · exact rest a j e he

theorem Quiet.bind_restored (first : w.Quiet) (rest : ∀ a j, Restored last (f a j).1) :
    Restored last ((w >>= f) i).1 := by
  obtain ⟨restored, same⟩ := first.restored last i
  rcases bind_cases w f i with ⟨h, -, whole⟩ | ⟨a, j, -, whole⟩
  · rw [whole]
    exact restored
  · rw [whole]
    apply restored.append
    rw [same]
    exact rest a j

theorem Restoring.bind_restored (first : Restored last (w i).1) (rest : ∀ a, (f a).Restoring) :
    Restored last ((w >>= f) i).1 := by
  rcases bind_cases w f i with ⟨h, -, whole⟩ | ⟨a, j, -, whole⟩
  · rw [whole]
    exact first
  · rw [whole]
    exact first.append (rest a _ j)

theorem Restoring.bind (first : w.Restoring) (rest : ∀ a, (f a).Restoring) :
    (w >>= f).Restoring := fun last i => bind_restored (first last i) rest

/-- Behind a statement or a block, the cursor may go back to where it has ended. -/
theorem Sealed.bind_restored (isSealed : w.Sealed) (first : Restored last (w i).1)
    (rest : ∀ a j, Restored (some j) (f a j).1) : Restored last ((w >>= f) i).1 := by
  rcases bind_cases w f i with ⟨h, -, whole⟩ | ⟨a, j, ended, whole⟩
  · rw [whole]
    exact first
  · rw [whole]
    apply first.append
    rw [isSealed last i a j ended]
    exact rest a j

theorem Sealed.behind (rest : ∀ a, (f a).Sealed) : (w >>= f).Sealed := by
  intro last i b k ended
  rcases bind_cases w f i with ⟨h, -, whole⟩ | ⟨a, j, -, whole⟩
  · rw [whole] at ended
    cases ended
  · rw [whole] at ended ⊢
    rw [List.foldl_append]
    exact rest a _ j b k ended

theorem Sealed.map (isSealed : w.Sealed) (g : α → β) : (w >>= fun a => pure (g a)).Sealed := by
  intro last i b k ended
  rcases bind_cases w (fun a => pure (g a)) i with ⟨h, -, whole⟩ | ⟨a, j, here, whole⟩
  · rw [whole] at ended
    cases ended
  · rw [whole] at ended ⊢
    obtain ⟨-, rfl⟩ := Prod.mk.inj (Except.ok.inj ended)
    rw [List.foldl_append, isSealed last i a j here]
    rfl

theorem quiet_pure (a : α) : (pure a : Walk α).Quiet := fun _ _ none => absurd none List.not_mem_nil

theorem quiet_halt (h : Halt) : (halt h : Walk α).Quiet :=
  fun _ _ none => absurd none List.not_mem_nil

theorem quiet_refuse (e : ParseError) : (refuse e : Walk α).Quiet := quiet_halt _

theorem quiet_cursor : cursor.Quiet := fun _ _ none => absurd none List.not_mem_nil

theorem quiet_tell {e : Event} (quiet : e.isQuiet = true) : (tell e).Quiet := by
  intro i x hx
  obtain rfl := List.mem_singleton.mp hx
  exact quiet

theorem quiet_moveTo (j : Nat) : (moveTo j).Quiet := by
  intro i x hx
  obtain rfl := List.mem_singleton.mp hx
  rfl

theorem quiet_apart {run : List Token} (quiet : w.Quiet) : (apart run w).Quiet := by
  intro i x hx
  obtain ⟨e, he, rfl⟩ := List.mem_map.mp hx
  exact quiet 0 e he

theorem sealed_call (w : Walk α) : (call w).Sealed := by
  intro last i a j ended
  unfold call at ended ⊢
  split at ended
  · obtain ⟨-, rfl⟩ := Prod.mk.inj (Except.ok.inj ended)
    rw [List.foldl_append]
    rfl
  · cases ended
  · rename_i notOk _
    exact (notOk _ a j (Prod.ext rfl ended)).elim

theorem Restoring.call (restoring : w.Restoring) : (call w).Restoring := by
  intro last i
  have restored := restoring last i
  unfold Cursor.call
  split
  · rename_i here
    rw [here] at restored
    exact restored.append ⟨trivial, trivial⟩
  · rename_i here
    rw [here] at restored
    exact restored.append ⟨trivial, trivial⟩
  · exact restored

section
variable (ts : List Token) (eof : Nat)

theorem quiet_peek : (peek ts).Quiet := fun _ _ none => absurd none List.not_mem_nil

theorem quiet_advance : (advance ts).Quiet := by
  refine (quiet_peek ts).bind fun found => ?_
  cases found with
  | none => exact quiet_pure _
  | some t => exact quiet_cursor.bind fun i => (quiet_moveTo (i + 1)).bind fun _ => quiet_pure _

theorem quiet_unexpected (kinds : List Kind) : (unexpected ts eof kinds : Walk α).Quiet := by
  refine (quiet_peek ts).bind fun found => ?_
  cases found with
  | none => exact quiet_refuse _
  | some t => exact quiet_refuse _

theorem quiet_expect (kinds : List Kind) : (expect ts eof kinds).Quiet := by
  refine (quiet_peek ts).bind fun found => ?_
  cases found with
  | none => exact quiet_unexpected ts eof kinds
  | some t =>
    dsimp only
    split
    · exact quiet_cursor.bind fun i => (quiet_moveTo (i + 1)).bind fun _ => quiet_pure _
    · exact quiet_unexpected ts eof kinds

theorem quiet_matchToken (kind : Kind) : (matchToken ts kind).Quiet := by
  refine (quiet_peek ts).bind fun found => ?_
  split
  · exact (quiet_advance ts).bind fun _ => quiet_pure _
  · exact quiet_pure _

theorem quiet_skipNewlines (n : Nat) : (skipNewlines ts n).Quiet := by
  induction n with
  | zero => exact quiet_halt _
  | succ n ih =>
    refine (quiet_matchToken ts .newline).bind fun found => ?_
    split
    · exact ih
    · exact quiet_pure _

theorem quiet_slice (start stop : Nat) : (slice ts start stop).Quiet := by
  refine (quiet_tell rfl).bind fun _ => ?_
  split
  · exact quiet_pure _
  · exact quiet_halt _

theorem quiet_scanTo (stop : Kind) (n : Nat) : (scanTo ts eof stop n).Quiet := by
  induction n with
  | zero => exact quiet_halt _
  | succ n ih =>
    refine (quiet_peek ts).bind fun found => ?_
    split
    · exact quiet_pure _
    · refine (quiet_advance ts).bind fun taken => ?_
      cases taken with
      | none => exact quiet_unexpected ts eof _
      | some t => exact ih

theorem quiet_collectUntil (stop : Kind) : (collectUntil ts eof stop).Quiet :=
  quiet_cursor.bind fun start => (quiet_scanTo ts eof stop _).bind fun _ =>
    quiet_cursor.bind fun j => quiet_slice ts start j

theorem quiet_primary (stop : Nat) : (primary ts stop).Quiet := by
  refine (quiet_peek ts).bind fun found => ?_
  cases found with
  | none => exact quiet_unexpected ts stop _
  | some t =>
    dsimp only
    split
    · exact (quiet_advance ts).bind fun _ => quiet_pure _
    · exact quiet_refuse _

/-- Both readings of a level. -/
theorem quiet_climb (stop n : Nat) :
    (∀ least, (expression ts stop n least).Quiet) ∧
      ∀ least left, (operators ts stop n least left).Quiet := by
  induction n with
  | zero => exact ⟨fun _ => quiet_halt _, fun _ _ => quiet_halt _⟩
  | succ n ih =>
    obtain ⟨ihExpression, ihOperators⟩ := ih
    constructor
    · intro least
      rw [expression]
      exact (quiet_primary ts stop).bind fun left => ihOperators least left
    · intro least left
      rw [operators]
      refine (quiet_peek ts).bind fun found => ?_
      cases found with
      | none => exact quiet_pure _
      | some op =>
        dsimp only
        split
        · exact quiet_pure _
        · split
          · exact quiet_pure _
          · exact (quiet_advance ts).bind fun _ => (ihExpression _).bind fun right =>
              ihOperators least _

theorem quiet_array (stop n : Nat) : (array ts stop n).Quiet := by
  induction n with
  | zero => exact quiet_halt _
  | succ n ih =>
    refine ((quiet_climb ts stop _).1 0).bind fun first => ?_
    refine (quiet_matchToken ts _).bind fun found => ?_
    split
    · exact ih.bind fun _ => quiet_pure _
    · exact quiet_pure _

theorem quiet_parseRun (run : List Token) (stop : Nat) (arrayAllowed : Bool) :
    (parseRun run stop arrayAllowed).Quiet := by
  have content : ∀ isArray, (content run stop isArray).Quiet := by
    intro isArray
    cases isArray with
    | true => exact (quiet_array run stop _).bind fun _ => quiet_pure _
    | false => exact (quiet_climb run stop _).1 0
  refine quiet_apart ((content _).bind fun e => ?_)
  refine (quiet_peek run).bind fun found => ?_
  cases found with
  | none => exact quiet_pure _
  | some t => exact quiet_refuse _

end

section
variable (ts : List Token) (eof : Nat) {b : Walk (List Statement)}

theorem restoring_block (restoring : b.Restoring) : (block ts eof b).Restoring := by
  refine (quiet_expect ts eof _).restoring.bind fun _ => ?_
  refine (quiet_expect ts eof _).restoring.bind fun _ => ?_
  refine (quiet_expect ts eof _).restoring.bind fun _ => ?_
  refine restoring.bind fun _ => ?_
  refine (quiet_expect ts eof _).restoring.bind fun _ => ?_
  refine (quiet_expect ts eof _).restoring.bind fun _ => ?_
  exact (quiet_pure _).restoring

theorem restoring_assignment : (assignment ts eof).Restoring := by
  refine (quiet_expect ts eof _).restoring.bind fun _ => ?_
  refine (quiet_expect ts eof _).restoring.bind fun _ => ?_
  refine (quiet_expect ts eof _).restoring.bind fun _ => ?_
  refine (quiet_collectUntil ts eof _).restoring.bind fun run => ?_
  refine (quiet_expect ts eof _).restoring.bind fun last => ?_
  exact ((quiet_parseRun run _ true).bind fun _ => quiet_pure _).restoring

theorem restoring_guarded (restoring : b.Restoring) : (guarded ts eof b).Restoring := by
  refine (quiet_collectUntil ts eof _).restoring.bind fun run => ?_
  refine (quiet_peek ts).restoring.bind fun _ => ?_
  refine (quiet_parseRun run _ false).restoring.bind fun _ => ?_
  exact (restoring_block ts eof restoring).call.bind fun _ => (quiet_pure _).restoring

theorem sealed_guarded (b : Walk (List Statement)) : (guarded ts eof b).Sealed :=
  .behind fun _ => .behind fun _ => .behind fun _ => (sealed_call _).map _

/-- The clauses stand where a block has ended. -/
theorem restored_clauses (restoring : b.Restoring) (n i : Nat) :
    Restored (some i) (clauses ts eof b n i).1 := by
  induction n generalizing i with
  | zero => trivial
  | succ n ih =>
    rw [clauses, cursor_bind]
    refine (quiet_skipNewlines ts _).bind_restored fun _ j => ?_
    refine (quiet_matchToken ts _).bind_restored fun found j => ?_
    split
    · -- Behind a further clause, its own block is the one read last.
      refine (sealed_guarded ts eof b).bind_restored (restoring_guarded ts eof restoring _ _) ?_
      exact fun _ k => Restoring.bind_restored (ih k) fun _ => (quiet_pure _).restoring
    · refine (quiet_matchToken ts _).bind_restored fun found j => ?_
      split
      · exact ((restoring_block ts eof restoring).call.bind fun _ => (quiet_pure _).restoring) _ _
      · exact ⟨rfl, trivial⟩

theorem restoring_conditional (restoring : b.Restoring) : (conditional ts eof b).Restoring := by
  refine (quiet_expect ts eof _).restoring.bind fun _ => fun last i => ?_
  refine (sealed_guarded ts eof b).bind_restored (restoring_guarded ts eof restoring _ _) ?_
  intro _ j
  have clausesRestored := restored_clauses ts eof restoring (ts.length + 1) j
  exact Restoring.bind_restored clausesRestored fun _ => (quiet_pure _).restoring

theorem restoring_whileLoop (restoring : b.Restoring) : (whileLoop ts eof b).Restoring := by
  refine quiet_cursor.restoring.bind fun start => ?_
  refine (quiet_expect ts eof _).restoring.bind fun _ => ?_
  cases Lookahead.matching? ts start with
  | none => exact (quiet_unexpected ts eof _).restoring
  | some close =>
    refine quiet_cursor.restoring.bind fun _ => ?_
    refine (quiet_slice ts _ close).restoring.bind fun run => ?_
    refine (quiet_moveTo close).restoring.bind fun _ => ?_
    refine (quiet_expect ts eof _).restoring.bind fun closer => ?_
    refine (quiet_parseRun run _ false).restoring.bind fun _ => ?_
    refine (quiet_expect ts eof _).restoring.bind fun _ => ?_
    exact (restoring_block ts eof restoring).call.bind fun _ => (quiet_pure _).restoring

theorem restoring_countedLoop (restoring : b.Restoring) : (countedLoop ts eof b).Restoring := by
  refine (quiet_expect ts eof _).restoring.bind fun first => ?_
  cases Text.readUInt64? first.text with
  | none => exact (quiet_refuse _).restoring
  | some count =>
    refine (quiet_expect ts eof _).restoring.bind fun _ => ?_
    exact (restoring_block ts eof restoring).call.bind fun _ => (quiet_pure _).restoring

theorem restoring_statement (restoring : b.Restoring) : (statement ts eof b).Restoring := by
  refine (quiet_peek ts).restoring.bind fun found => ?_
  cases found with
  | none => exact ((quiet_tell rfl).bind fun _ => quiet_unexpected ts eof _).restoring
  | some t =>
    refine Restoring.bind ?_ fun _ => (quiet_cursor.bind fun _ => quiet_pure _).restoring
    unfold production
    split
    · exact restoring_countedLoop ts eof restoring
    · exact restoring_conditional ts eof restoring
    · refine quiet_cursor.restoring.bind fun _ => ?_
      split
      · exact restoring_whileLoop ts eof restoring
      · exact (quiet_refuse _).restoring
    · exact restoring_assignment ts eof
    · exact (quiet_refuse _).restoring

theorem restoring_body (n : Nat) : (body ts eof n).Restoring := by
  induction n with
  | zero => exact (quiet_halt _).restoring
  | succ n ih =>
    refine (quiet_peek ts).restoring.bind fun found => ?_
    cases found with
    | none => exact (quiet_unexpected ts eof _).restoring
    | some t =>
      dsimp only [bodyRound]
      split
      · exact (quiet_pure _).restoring
      · exact (quiet_advance ts).restoring.bind fun _ => ih
      · refine (restoring_statement ts eof ih).call.bind fun _ => ?_
        exact ih.bind fun _ => (quiet_pure _).restoring

theorem restoring_statements (n : Nat) : (statements ts eof n).Restoring := by
  induction n with
  | zero => exact (quiet_halt _).restoring
  | succ n ih =>
    refine (quiet_peek ts).restoring.bind fun found => ?_
    cases found with
    | none => exact (quiet_pure _).restoring
    | some t =>
      dsimp only [round]
      split
      · exact (quiet_advance ts).restoring.bind fun _ => ih
      · refine (restoring_block ts eof (restoring_body ts eof n)).call.bind fun _ => ?_
        exact ih.bind fun _ => (quiet_pure _).restoring
      · refine (restoring_statement ts eof (restoring_body ts eof n)).call.bind fun _ => ?_
        exact ih.bind fun _ => (quiet_pure _).restoring

theorem restoring_program : (program ts).Restoring :=
  (restoring_statements ts _ _).bind fun _ => (quiet_pure _).restoring

end

end Walk

/-- The outcome of a reading that comes to what a reader comes to. -/
def settle (ts : List Token) : Except ParseError Program → Except Halt (Program × Nat)
  | .ok p => .ok (p, ts.length)
  | .error e => .error (.refused e)

/-- The reading of a whole row: nothing that it does is unsafe, a step back goes to where what was
read last has ended, it comes to an end with the result of the readers, and nothing is done behind a
failure but to fail by the same error. -/
structure Orderly (ts : List Token) (log : List Event) (result : Except Halt (Program × Nat)) :
    Prop where
  safe : ∀ e ∈ log, e.Safe ts
  restored : Restored none log
  ends : result = settle ts (Program.ofTokens ts)
  way : ∃ done failures j, log = done ++ failures ∧ Way ts 0 done j ∧ j ≤ ts.length ∧
    ∀ x ∈ failures, ∃ e, x = .failed e ∧ Program.ofTokens ts = .error e

/-- Every row of tokens is read in an orderly way. -/
theorem program_orderly (ts : List Token) :
    Orderly ts (program ts 0).1 (program ts 0).2 := by
  have tracks := program_tracks ts
  have safe := tracks.safe
  have restored := Walk.restoring_program ts none 0
  revert tracks safe restored
  generalize program ts 0 = run
  generalize read : Program.ofTokens ts = r
  intro tracks safe restored
  cases tracks with
  | @ok log _ _ _ way related =>
    obtain ⟨rfl, rfl⟩ := related
    have noFailures : log = log ++ [] := (List.append_nil log).symm
    exact ⟨safe, restored, by rw [read]; rfl, log, [], _, noFailures, way, Nat.le_refl _, by simp⟩
  | refused way failures =>
    have within := way.le_length (Nat.zero_le _)
    refine ⟨safe, restored, by rw [read]; rfl, _, _, _, rfl, way, within, ?_⟩
    exact fun x hx => ⟨_, failures x hx, read⟩

def Event.isBack : Event → Bool
  | .back _ _ => true
  | _ => false

/-- A conditional with a line break behind it, which is given back. -/
def endedConditional : List Token :=
  [⟨.keyword .ifThen, "sweet", ⟨0, 5⟩⟩, ⟨.word, "a", ⟨6, 7⟩⟩,
    ⟨.punctuation .leftCurly, "\x7b", ⟨8, 9⟩⟩, ⟨.newline, "\n", ⟨9, 10⟩⟩, ⟨.indent, "", ⟨10, 11⟩⟩,
    ⟨.dedent, "", ⟨11, 11⟩⟩, ⟨.punctuation .rightCurly, "\x7d", ⟨11, 12⟩⟩,
    ⟨.newline, "\n", ⟨12, 13⟩⟩]

example : (program endedConditional 0).1.filter Event.isBack = [.back 8 7] := by rfl

end PhraseLang.Cursor
