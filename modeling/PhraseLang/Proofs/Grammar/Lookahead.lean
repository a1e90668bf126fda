import PhraseLang.Proofs.Grammar.Extension

/-! The lookahead that tells a loop from a stray parenthesis.
A loop begins like any parenthesis. It is looked ahead for by the parenthesis that closes the first
one, found by counting, and then read from the front, where that parenthesis is looked for again.
The first match is the least place at which as many are closed as opened, so what has been looked at
is there when it is read: of the checks on the way only those of the condition and of the block can
fail. -/
namespace PhraseLang.Lookahead
open Reader Grammar

/-- The place of the parenthesis that closes the last of `depth` open ones. The tokens stand at the
places from `i` on; a parenthesis that closes nothing leaves the depth at 0. -/
def scan : Nat → Nat → List Token → Option Nat
  | _, _, [] => none
  | depth, i, t :: ts =>
    if t.kind = .punctuation .leftParen then scan (depth + 1) (i + 1) ts
    else if t.kind = .punctuation .rightParen then
      if depth - 1 = 0 then some i else scan (depth - 1) (i + 1) ts
    else scan depth (i + 1) ts

def matching? (ts : List Token) (start : Nat) : Option Nat := scan 0 start (ts.drop start)

/-- The loop's phrase stands right behind the parenthesis that closes the one at `start`. -/
def isLoopAhead (ts : List Token) (start : Nat) : Bool :=
  ((matching? ts start).bind fun close => ts[close + 1]?).any (·.kind == .keyword .whileLoop)

/-- What ends a reading that keeps all tokens and a place among them. -/
inductive Stop where
  | refused (e : ParseError)
  /-- A slice whose bounds are not in order, or not among the tokens. -/
  | badSlice (start stop : Nat)

def slice (ts : List Token) (start stop : Nat) : Except Stop (List Token) :=
  if start ≤ stop ∧ stop ≤ ts.length then .ok ((ts.drop start).take (stop - start))
  else .error (.badSlice start stop)

/-- The error about the token that stands where one of these kinds is due. -/
def unexpected (eof : Nat) (kinds : List Kind) : List Token → ParseError
  | [] => .unexpectedEnd kinds eof
  | t :: _ => .unexpectedToken t kinds

/-- The place of the match, or the error of the token that stands where the match is missing. -/
def expectMatch (eof : Nat) (ts : List Token) (start : Nat) (behind : List Token) :
    Except Stop Nat :=
  match matching? ts start with
  | some close => .ok close
  | none => .error (.refused (unexpected eof [.punctuation .rightParen] behind))

def checked {α : Type} (x : Except ParseError α) : Except Stop α := x.mapError .refused

theorem checked_ok {α : Type} (a : α) : checked (.ok a : Except ParseError α) = .ok a := rfl

theorem stop_bind {α β : Type} (a : α) (f : α → Except Stop β) :
    ((.ok a : Except Stop α) >>= f) = f a := rfl

/-- The loop at `start`, read with every check on the way. -/
def loop (eof : Nat) (body : Reader (List Statement)) (ts : List Token) (start : Nat) :
    Except Stop (Statement × List Token) := do
  let (first, behind) ← checked (expect eof [.punctuation .leftParen] (ts.drop start))
  let close ← expectMatch eof ts start behind
  let run ← slice ts (start + 1) close
  let (closer, behind) ← checked (expect eof [.punctuation .rightParen] (ts.drop close))
  let condition ← checked (Run.read false closer.span.start run)
  let (_, behind) ← checked (expect eof [.keyword .whileLoop] behind)
  let ((statements, stop), rest) ← checked (block eof body behind)
  return (.whileLoop ⟨first.span.start, stop⟩ condition statements, rest)

def opened (ts : List Token) : Nat := ts.countP (·.kind = .punctuation .leftParen)

def closed (ts : List Token) : Nat := ts.countP (·.kind = .punctuation .rightParen)

/-- The tokens from the place `start` through the place `last`. -/
def stretch (ts : List Token) (start last : Nat) : List Token :=
  (ts.drop start).take (last + 1 - start)

def Balanced (ts : List Token) (start last : Nat) : Prop :=
  opened (stretch ts start last) = closed (stretch ts start last)

section
variable {depth : Nat} {t : Token} {ts us : List Token}

theorem opened_append (ts us : List Token) : opened (ts ++ us) = opened ts + opened us :=
  List.countP_append

theorem closed_append (ts us : List Token) : closed (ts ++ us) = closed ts + closed us :=
  List.countP_append

theorem opened_cons (t : Token) (ts : List Token) : opened (t :: ts) = opened [t] + opened ts :=
  opened_append [t] ts

theorem closed_cons (t : Token) (ts : List Token) : closed (t :: ts) = closed [t] + closed ts :=
  closed_append [t] ts

/-- No front closes more than the `depth` parentheses open before it and those it opened. -/
def StaysOpen (depth : Nat) (ts : List Token) : Prop :=
  ∀ front, front <+: ts → closed front ≤ depth + opened front

theorem StaysOpen.cons {deeper : Nat} (rest : StaysOpen deeper ts)
    (moved : deeper + closed [t] = depth + opened [t]) : StaysOpen depth (t :: ts) := by
  intro front within
  cases front with
  | nil => exact Nat.zero_le _
  | cons u tail =>
    obtain ⟨rfl, later⟩ := List.cons_prefix_cons.mp within
    have bound := rest tail later
    rw [opened_cons, closed_cons]
    omega

theorem staysOpen_nil : StaysOpen depth [] := by
  intro front within
  rw [List.prefix_nil.mp within]
  exact Nat.zero_le _

/-- What the search for a closing parenthesis says about the parentheses on its way. -/
inductive Counted (depth : Nat) (ts : List Token) :
    Option (List Token × Token × List Token) → Prop where
  | found {run rest : List Token} {close : Token} : StaysOpen depth run →
      closed run = depth + opened run → Counted depth ts (some (run, close, rest))
  | missing : StaysOpen depth ts → Counted depth ts none

theorem Counted.cons {deeper : Nat} {found : Option (List Token × Token × List Token)}
    (rest : Counted deeper ts found) (moved : deeper + closed [t] = depth + opened [t]) :
    Counted depth (t :: ts) (found.map fun p => (t :: p.1, p.2.1, p.2.2)) := by
  cases rest with
  | missing stays => exact .missing (stays.cons moved)
  | @found run behind close stays level =>
    refine .found (stays.cons moved) ?_
    rw [opened_cons t run, closed_cons t run]
    omega

theorem closing?_counted (depth : Nat) (ts : List Token) :
    Counted depth ts (closing? depth ts) := by
  induction ts generalizing depth with
  | nil => exact .missing staysOpen_nil
  | cons t ts ih =>
    unfold closing?
    split
    · rename_i isOpen
      exact (ih _).cons (by simp [opened, closed, isOpen])
    · rename_i notOpen
      split
      · rename_i isClose
        cases depth with
        | zero => exact .found staysOpen_nil rfl
        | succ outer => exact (ih _).cons (by simp [opened, closed, isClose])
      · rename_i notClose
        exact (ih _).cons (by simp [opened, closed, notOpen, notClose])

/-- Counting finds the place of the parenthesis that the reader finds. -/
theorem scan_eq (depth i : Nat) (ts : List Token) :
    scan (depth + 1) i ts = (closing? depth ts).map fun p => i + p.1.length := by
  induction ts generalizing depth i with
  | nil => rfl
  | cons t ts ih =>
    have step (deeper : Nat) : scan (deeper + 1) (i + 1) ts =
        ((closing? deeper ts).map fun p => (t :: p.1, p.2.1, p.2.2)).map
          fun p => i + p.1.length := by
      rw [ih, Option.map_map]
      congr 1
      funext p
      exact Nat.succ_add_eq_add_succ i p.1.length
    unfold scan closing?
    split
    · exact step (depth + 1)
    · split
      · cases depth with
        | zero => rfl
        | succ outer => exact step outer
      · exact step depth

end

section
variable {ts : List Token} {start : Nat} {paren : Token}

theorem drop_eq_cons (here : ts[start]? = some paren) :
    ts.drop start = paren :: ts.drop (start + 1) := by
  obtain ⟨within, rfl⟩ := List.getElem?_eq_some_iff.mp here
  exact List.drop_eq_getElem_cons within

theorem matching?_eq (here : ts[start]? = some paren)
    (isOpen : paren.kind = .punctuation .leftParen) :
    matching? ts start =
      (closing? 0 (ts.drop (start + 1))).map fun p => start + 1 + p.1.length := by
  rw [matching?, drop_eq_cons here, scan, if_pos isOpen, scan_eq]

/-- Behind its parenthesis, a stretch is a front of the tokens that follow. -/
theorem stretch_eq (here : ts[start]? = some paren) {k : Nat} :
    stretch ts start (start + k) = paren :: (ts.drop (start + 1)).take k := by
  have size : start + k + 1 - start = k + 1 := by omega
  rw [stretch, size, drop_eq_cons here, List.take_succ_cons]

/-- Up to a front that closes no more than it opens, the parenthesis is still open. -/
theorem open_of_front (here : ts[start]? = some paren)
    (isOpen : paren.kind = .punctuation .leftParen) {k : Nat}
    (stays : closed ((ts.drop (start + 1)).take k) ≤ opened ((ts.drop (start + 1)).take k)) :
    closed (stretch ts start (start + k)) < opened (stretch ts start (start + k)) := by
  have one : opened [paren] = 1 ∧ closed [paren] = 0 := by simp [opened, closed, isOpen]
  rw [stretch_eq here, opened_cons, closed_cons]
  omega

/-- The first match: it is balanced, and up to any place before it the parenthesis is open. -/
structure IsMatch (ts : List Token) (start close : Nat) : Prop where
  behind : start < close
  within : close < ts.length
  balanced : Balanced ts start close
  still_open : ∀ d, start ≤ d → d < close →
    closed (stretch ts start d) < opened (stretch ts start d)

theorem isMatch_of_closing? (here : ts[start]? = some paren)
    (isOpen : paren.kind = .punctuation .leftParen) {run rest : List Token} {closer : Token}
    (found : closing? 0 (ts.drop (start + 1)) = some (run, closer, rest)) :
    IsMatch ts start (start + 1 + run.length) := by
  obtain ⟨cut, isClose⟩ := closing?_eq_some found
  have counted := closing?_counted 0 (ts.drop (start + 1))
  rw [found] at counted
  cases counted with
  | found stays level =>
    have size := congrArg List.length cut
    simp only [List.length_drop, List.length_append, List.length_cons] at size
    refine ⟨by omega, by omega, ?_, fun d after before => ?_⟩
    · have whole : stretch ts start (start + 1 + run.length) = paren :: (run ++ [closer]) := by
        rw [Nat.add_assoc, stretch_eq here, cut, Nat.add_comm 1, List.take_append,
          List.take_of_length_le (Nat.le_succ _), Nat.add_sub_cancel_left]
        rfl
      have ends : opened [paren] = 1 ∧ closed [paren] = 0 ∧ opened [closer] = 0 ∧
          closed [closer] = 1 := by
        simp [opened, closed, isOpen, isClose]
      rw [Balanced, whole, opened_cons, closed_cons, opened_append, closed_append]
      omega
    · obtain ⟨k, rfl⟩ := Nat.exists_eq_add_of_le after
      have inside : k ≤ run.length := by omega
      refine open_of_front here isOpen ?_
      rw [cut, List.take_append_of_le_length inside]
      have bound := stays _ (List.take_prefix k run)
      omega

theorem not_balanced_of_closing? (here : ts[start]? = some paren)
    (isOpen : paren.kind = .punctuation .leftParen)
    (missing : closing? 0 (ts.drop (start + 1)) = none) {d : Nat} (after : start < d) :
    ¬ Balanced ts start d := by
  have counted := closing?_counted 0 (ts.drop (start + 1))
  rw [missing] at counted
  cases counted with
  | missing stays =>
    obtain ⟨k, rfl⟩ := Nat.exists_eq_add_of_le (Nat.le_of_lt after)
    have bound := stays _ (List.take_prefix k _)
    rw [Nat.zero_add] at bound
    exact Nat.ne_of_gt (open_of_front here isOpen bound)

theorem isMatch_of_matching? (here : ts[start]? = some paren)
    (isOpen : paren.kind = .punctuation .leftParen) {close : Nat}
    (found : matching? ts start = some close) : IsMatch ts start close := by
  rw [matching?_eq here isOpen] at found
  obtain ⟨⟨run, closer, rest⟩, closes, rfl⟩ := Option.map_eq_some_iff.mp found
  exact isMatch_of_closing? here isOpen closes

theorem matching?_eq_none_iff (here : ts[start]? = some paren)
    (isOpen : paren.kind = .punctuation .leftParen) :
    matching? ts start = none ↔ ∀ d, start < d → d < ts.length → ¬ Balanced ts start d := by
  constructor
  · intro missing d after _
    rw [matching?_eq here isOpen] at missing
    exact not_balanced_of_closing? here isOpen (Option.map_eq_none_iff.mp missing) after
  · intro never
    refine Option.eq_none_iff_forall_ne_some.mpr fun close found => ?_
    have first := isMatch_of_matching? here isOpen found
    exact never close first.behind first.within first.balanced

/-- The match is the least place behind the parenthesis at which the stretch is balanced. -/
theorem matching?_eq_some_iff (here : ts[start]? = some paren)
    (isOpen : paren.kind = .punctuation .leftParen) {close : Nat} :
    matching? ts start = some close ↔
      (start < close ∧ close < ts.length ∧ Balanced ts start close) ∧
        ∀ d, start < d → d < close → ¬ Balanced ts start d := by
  constructor
  · intro found
    have first := isMatch_of_matching? here isOpen found
    refine ⟨⟨first.behind, first.within, first.balanced⟩, fun d after before => ?_⟩
    exact Nat.ne_of_gt (first.still_open d (Nat.le_of_lt after) before)
  · rintro ⟨⟨behind, within, balanced⟩, least⟩
    cases found : matching? ts start with
    | none =>
      exact absurd balanced ((matching?_eq_none_iff here isOpen).mp found close behind within)
    | some first =>
      have isMatch := isMatch_of_matching? here isOpen found
      rcases Nat.lt_trichotomy first close with before | rfl | after
      · exact absurd isMatch.balanced (least first isMatch.behind before)
      · rfl
      · have still := isMatch.still_open close (Nat.le_of_lt behind) after
        exact absurd balanced (Nat.ne_of_gt still)

end

section
variable {eof : Nat} {body : Reader (List Statement)} {ts : List Token} {start n : Nat}
  {paren : Token}

/-- The condition between the parentheses, and the block behind the loop's phrase. -/
def parts (eof : Nat) (body : Reader (List Statement)) (ts : List Token) (paren : Token)
    (start close : Nat) (closer : Token) : Except ParseError (Statement × List Token) := do
  let condition ←
    Run.read false closer.span.start ((ts.drop (start + 1)).take (close - (start + 1)))
  let ((statements, stop), rest) ← block eof body (ts.drop (close + 2))
  return (.whileLoop ⟨paren.span.start, stop⟩ condition statements, rest)

/-- The lookahead looks for the header that the reader of loops asks for. -/
theorem isLoopAhead_iff (here : ts[start]? = some paren)
    (isOpen : paren.kind = .punctuation .leftParen) :
    isLoopAhead ts start = true ↔ Header (ts.drop (start + 1)) := by
  have behind (run rest : List Token) (closer : Token)
      (cut : ts.drop (start + 1) = run ++ closer :: rest) :
      ts[start + 1 + run.length + 1]? = rest.head? := by
    rw [← List.head?_drop, Nat.add_assoc, ← List.drop_drop, cut, ← List.drop_drop, List.drop_left]
    rfl
  rw [isLoopAhead, matching?_eq here isOpen]
  constructor
  · intro ahead
    obtain ⟨suffix, seen, isSuffix⟩ := (Option.any_eq_true _ _).mp ahead
    obtain ⟨close, found, next⟩ := Option.bind_eq_some_iff.mp seen
    obtain ⟨⟨run, closer, rest⟩, closes, rfl⟩ := Option.map_eq_some_iff.mp found
    rw [behind run rest closer (closing?_eq_some closes).1] at next
    obtain ⟨rest, rfl⟩ := List.head?_eq_some_iff.mp next
    exact ⟨run, closer, suffix, rest, closes, eq_of_beq isSuffix⟩
  · rintro ⟨run, closer, suffix, rest, closes, isSuffix⟩
    rw [closes]
    simp only [Option.map_some, Option.bind_some]
    rw [behind run (suffix :: rest) closer (closing?_eq_some closes).1]
    simp [isSuffix]

theorem statement_eq (here : ts[start]? = some paren)
    (isOpen : paren.kind = .punctuation .leftParen) :
    statement eof body n (ts.drop start) = whileLoop eof body paren (ts.drop (start + 1)) := by
  rw [drop_eq_cons here, statement]
  simp only [isOpen]

/-- Where a loop is ahead, no check of its parts fails but those of the condition and the block. -/
theorem loop_eq (here : ts[start]? = some paren)
    (isOpen : paren.kind = .punctuation .leftParen) (ahead : isLoopAhead ts start = true) :
    ∃ close closer, matching? ts start = some close ∧ ts[close]? = some closer ∧
      statement eof body n (ts.drop start) = parts eof body ts paren start close closer ∧
      loop eof body ts start = checked (parts eof body ts paren start close closer) := by
  obtain ⟨run, closer, suffix, rest, closes, isSuffix⟩ := (isLoopAhead_iff here isOpen).mp ahead
  obtain ⟨cut, isClose⟩ := closing?_eq_some closes
  have found : matching? ts start = some (start + 1 + run.length) := by
    rw [matching?_eq here isOpen, closes]
    rfl
  have isMatch := isMatch_of_matching? here isOpen found
  have atCloser : ts.drop (start + 1 + run.length) = closer :: suffix :: rest := by
    rw [← List.drop_drop, cut, List.drop_left]
  have behind : ts.drop (start + 1 + run.length + 2) = rest := by
    rw [← List.drop_drop, atCloser]
    rfl
  have inside : (ts.drop (start + 1)).take (start + 1 + run.length - (start + 1)) = run := by
    rw [Nat.add_sub_cancel_left, cut, List.take_left]
  have isRun : slice ts (start + 1) (start + 1 + run.length) = .ok run := by
    rw [slice, if_pos ⟨Nat.le_add_right _ _, Nat.le_of_lt isMatch.within⟩, inside]
  have first : expect eof [.punctuation .leftParen] (ts.drop start) =
      .ok (paren, ts.drop (start + 1)) := by
    rw [drop_eq_cons here, expect, if_pos (by simp [isOpen])]
  refine ⟨_, closer, found, ?_, ?_, ?_⟩
  · rw [← List.head?_drop, atCloser]
    rfl
  · rw [statement_eq here isOpen, whileLoop, closes, parts, inside, behind]
    simp only [if_pos isSuffix]
  · have isMatched : expectMatch eof ts start (ts.drop (start + 1)) =
        .ok (start + 1 + run.length) := by
      rw [expectMatch, found]
    have second : expect eof [.punctuation .rightParen] (closer :: suffix :: rest) =
        .ok (closer, suffix :: rest) := by
      rw [expect, if_pos (by simp [isClose])]
    have third : expect eof [.keyword .whileLoop] (suffix :: rest) = .ok (suffix, rest) := by
      rw [expect, if_pos (by simp [isSuffix])]
    rw [loop, first, parts, inside, behind]
    simp only [checked_ok, stop_bind, isMatched, isRun, atCloser, second, third]
    cases Run.read false closer.span.start run with
    | error e => rfl
    | ok condition =>
      cases block eof body rest with
      | error e => rfl
      | ok read => rfl

theorem error_of_parts {close : Nat} {closer : Token} {e : ParseError}
    (failed : parts eof body ts paren start close closer = .error e) :
    Run.read false closer.span.start ((ts.drop (start + 1)).take (close - (start + 1))) =
        .error e ∨
      block eof body (ts.drop (close + 2)) = .error e := by
  rcases error_of_bind failed with here | ⟨condition, _, failed₁⟩
  · exact .inl here
  · rcases error_of_bind failed₁ with here | ⟨read, _, never⟩
    · exact .inr here
    · cases never

end

/-- The parenthesis that closes the one at `start` is the first place that balances it. Where a loop
is ahead, its reading comes to that place again and can fail in its condition or its block only;
where none is, the parenthesis is refused. -/
theorem loop_lookahead {ts : List Token} {start : Nat} {paren : Token}
    (here : ts[start]? = some paren) (isOpen : paren.kind = .punctuation .leftParen)
    (eof n : Nat) (body : Reader (List Statement)) :
    (∀ close, matching? ts start = some close ↔
      (start < close ∧ close < ts.length ∧ Balanced ts start close) ∧
        ∀ d, start < d → d < close → ¬ Balanced ts start d) ∧
    (∀ close, matching? ts start = some close → ∀ d, start ≤ d → d < close →
      closed (stretch ts start d) < opened (stretch ts start d)) ∧
    (matching? ts start = none ↔ ∀ d, start < d → d < ts.length → ¬ Balanced ts start d) ∧
    (isLoopAhead ts start = true → ∃ close closer, matching? ts start = some close ∧
      ts[close]? = some closer ∧
      statement eof body n (ts.drop start) = parts eof body ts paren start close closer ∧
      loop eof body ts start = checked (parts eof body ts paren start close closer) ∧
      ∀ e, parts eof body ts paren start close closer = .error e →
        Run.read false closer.span.start ((ts.drop (start + 1)).take (close - (start + 1))) =
            .error e ∨
          block eof body (ts.drop (close + 2)) = .error e) ∧
    (isLoopAhead ts start = false →
      statement eof body n (ts.drop start) = .error (.notAStatement paren)) := by
  refine ⟨fun _ => matching?_eq_some_iff here isOpen, fun close found => ?_,
    matching?_eq_none_iff here isOpen, fun ahead => ?_, fun notAhead => ?_⟩
  · exact (isMatch_of_matching? here isOpen found).still_open
  · obtain ⟨close, closer, found, atClose, reads, loops⟩ := loop_eq here isOpen ahead
    exact ⟨close, closer, found, atClose, reads, loops, fun _ => error_of_parts⟩
  · rw [statement_eq here isOpen]
    apply whileLoop_of_not_header
    rw [← isLoopAhead_iff here isOpen, notAhead]
    exact Bool.false_ne_true

/-- A loop with parentheses too many around its condition. -/
def nestedHeader : List Token :=
  [⟨.punctuation .leftParen, "(", ⟨0, 1⟩⟩, ⟨.punctuation .leftParen, "(", ⟨1, 2⟩⟩,
    ⟨.constant, "a", ⟨2, 4⟩⟩, ⟨.punctuation .rightParen, ")", ⟨4, 5⟩⟩,
    ⟨.punctuation .rightParen, ")", ⟨5, 6⟩⟩, ⟨.keyword .whileLoop, "yarp'", ⟨7, 12⟩⟩]

theorem loop_lookahead_nested :
    Balanced nestedHeader 0 4 ∧
    (∃ close closer, matching? nestedHeader 0 = some close ∧
      loop 12 (body 12 6) nestedHeader 0 =
        checked (parts 12 (body 12 6) nestedHeader ⟨.punctuation .leftParen, "(", ⟨0, 1⟩⟩ 0 close
          closer)) ∧
    statement 12 (body 12 6) 6 (nestedHeader.drop 1) =
      .error (.notAStatement ⟨.punctuation .leftParen, "(", ⟨1, 2⟩⟩) := by
  have first : nestedHeader[0]? = some ⟨.punctuation .leftParen, "(", ⟨0, 1⟩⟩ := rfl
  have second : nestedHeader[1]? = some ⟨.punctuation .leftParen, "(", ⟨1, 2⟩⟩ := rfl
  have outer := loop_lookahead first rfl 12 6 (body 12 6)
  have inner := loop_lookahead second rfl 12 6 (body 12 6)
  refine ⟨((outer.1 4).mp rfl).1.2.2, ?_, inner.2.2.2.2 rfl⟩
  obtain ⟨close, closer, found, _, _, loops, _⟩ := outer.2.2.2.1 rfl
  exact ⟨close, closer, found, loops⟩

end PhraseLang.Lookahead
