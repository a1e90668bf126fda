import PhraseLang.Proofs.Grammar.Lookahead

/-! Readings with a cursor.
All tokens stay in one row, and a cursor goes along it. A reading tells what it does with the
cursor and with slices of the row; a slice out of order and a loop that goes on for too long are
outcomes of their own. `Tracks` holds a reading beside a reader that takes the tokens off a list. -/
namespace PhraseLang.Cursor

inductive Event where
  | forward (i j : Nat)
  | back (i j : Nat)
  | sliced (start stop : Nat)
  /-- A statement or a block was read, from `i` to `j`. -/
  | returned (i j : Nat)
  /-- A statement or a block could not be read. -/
  | failed (e : ParseError)
  /-- A statement was asked for where no token is left. -/
  | cameToEnd
  /-- What the reading of an expression does, on its own run. -/
  | inside (run : List Token) (e : Event)

/-- What ends a reading. -/
inductive Halt where
  | refused (e : ParseError)
  | badSlice (start stop : Nat)
  /-- A loop or a recursion goes on for more rounds than it was given. -/
  | exhausted

/-- A reading, from the place of the cursor: what it does, and its result with the place behind. -/
def Walk (α : Type) : Type := Nat → List Event × Except Halt (α × Nat)

instance : Monad Walk where
  pure a := fun i => ([], .ok (a, i))
  bind w f := fun i =>
    match w i with
    | (log, .ok (a, j)) => (log ++ (f a j).1, (f a j).2)
    | (log, .error h) => (log, .error h)

def cursor : Walk Nat := fun i => ([], .ok (i, i))

def tell (e : Event) : Walk Unit := fun i => ([e], .ok ((), i))

def moveTo (j : Nat) : Walk Unit := fun i => ([.forward i j], .ok ((), j))

def restore (j : Nat) : Walk Unit := fun i => ([.back i j], .ok ((), j))

def halt {α : Type} (h : Halt) : Walk α := fun _ => ([], .error h)

def refuse {α : Type} (e : ParseError) : Walk α := halt (.refused e)

/-- A reading of another row, from its beginning. The cursor stays where it is. -/
def apart {α : Type} (run : List Token) (w : Walk α) : Walk α := fun i =>
  ((w 0).1.map (.inside run), (w 0).2.map fun p => (p.1, i))

section
variable (ts : List Token) (eof : Nat)

def peek : Walk (Option Token) := fun i => ([], .ok (ts[i]?, i))

def advance : Walk (Option Token) := do
  match ← peek ts with
  | none => return none
  | some t =>
    moveTo ((← cursor) + 1)
    return some t

def unexpected {α : Type} (kinds : List Kind) : Walk α := do
  match ← peek ts with
  | some t => refuse (.unexpectedToken t kinds)
  | none => refuse (.unexpectedEnd kinds eof)

def expect (kinds : List Kind) : Walk Token := do
  match ← peek ts with
  | none => unexpected ts eof kinds
  | some t =>
    if t.kind ∈ kinds then
      moveTo ((← cursor) + 1)
      return t
    else unexpected ts eof kinds

/-- Takes the token at the cursor if it is of a kind. -/
def matchToken (kind : Kind) : Walk Bool := do
  if (← peek ts).any (·.kind == kind) then
    let _ ← advance ts
    return true
  else return false

def skipNewlines : Nat → Walk Unit
  | 0 => halt .exhausted
  | n + 1 => do
    if ← matchToken ts .newline then skipNewlines n

def slice (start stop : Nat) : Walk (List Token) := do
  tell (.sliced start stop)
  if start ≤ stop ∧ stop ≤ ts.length then return (ts.drop start).take (stop - start)
  else halt (.badSlice start stop)

def scanTo (stop : Kind) : Nat → Walk Unit
  | 0 => halt .exhausted
  | n + 1 => do
    if (← peek ts).any (·.kind == stop) then return ()
    else
      match ← advance ts with
      | none => unexpected ts eof [stop]
      | some _ => scanTo stop n

/-- The tokens from the cursor up to the first one of a kind. -/
def collectUntil (stop : Kind) : Walk (List Token) := do
  let start ← cursor
  scanTo ts eof stop (ts.length + 1)
  slice ts start (← cursor)

/-- Where the token in front of the cursor ends. -/
def previousEnd : Nat → Nat
  | 0 => 0
  | i + 1 => (ts[i]?.map fun t => t.span.stop).getD 0

/-- The reading of a statement or a block, told when it is over. -/
def call {α : Type} (w : Walk α) : Walk α := fun i =>
  match w i with
  | (log, .ok (a, j)) => (log ++ [.returned i j], .ok (a, j))
  | (log, .error (.refused e)) => (log ++ [.failed e], .error (.refused e))
  | other => other

end

/-- The token at a place is of a kind. -/
def KindAt (ts : List Token) (i : Nat) (kind : Kind) : Prop :=
  ∃ t, ts[i]? = some t ∧ t.kind = kind

/-- Nothing is done outside of the row. The cursor goes back only over line breaks, to the place
behind a closing brace; a statement or a block takes a token at least. -/
def Event.Safe : List Token → Event → Prop
  | ts, .forward i j => i ≤ j ∧ j ≤ ts.length
  | ts, .back i j => (∃ k, j = k + 1 ∧ KindAt ts k (.punctuation .rightCurly)) ∧ j ≤ i ∧
      i ≤ ts.length ∧ ∀ k, j ≤ k → k < i → KindAt ts k .newline
  | ts, .sliced start stop => start ≤ stop ∧ stop ≤ ts.length
  | ts, .returned i j => i < j ∧ j ≤ ts.length
  | _, .failed _ => True
  | _, .cameToEnd => False
  | _, .inside run e => e.Safe run

def Event.isFailure : Event → Bool
  | .failed _ => true
  | _ => false

/-- The place of the cursor behind an event, given the place in front. -/
def Event.Leads (i j : Nat) : Event → Prop
  | .forward start stop | .back start stop => start = i ∧ stop = j
  | _ => i = j

/-- Safe events without a failure, which lead the cursor from `i` to `k`. -/
inductive Way (ts : List Token) : Nat → List Event → Nat → Prop where
  | nil (i : Nat) : Way ts i [] i
  | cons {i j k : Nat} {e : Event} {log : List Event} : e.Safe ts → e.isFailure = false →
      e.Leads i j → Way ts j log k → Way ts i (e :: log) k

/-- A reading from `i` that comes to what a reader comes to. If it is refused, the failures of all
the calls around are the last it does. -/
inductive Tracks {α γ : Type} (ts : List Token) (R : α → Nat → γ → Prop) (i : Nat) :
    List Event × Except Halt (α × Nat) → Except ParseError γ → Prop where
  | ok {log : List Event} {a : α} {j : Nat} {c : γ} : Way ts i log j → R a j c →
      Tracks ts R i (log, .ok (a, j)) (.ok c)
  | refused {log failures : List Event} {j : Nat} {e : ParseError} : Way ts i log j →
      (∀ x ∈ failures, x = .failed e) →
      Tracks ts R i (log ++ failures, .error (.refused e)) (.error e)

section
variable {ts : List Token} {eof i j k : Nat}

theorem Way.append {log more : List Event} (first : Way ts i log j) (second : Way ts j more k) :
    Way ts i (log ++ more) k := by
  induction first with
  | nil => exact second
  | cons safe noFailure leads _ ih => exact .cons safe noFailure leads (ih second)

theorem Way.safe {log : List Event} (way : Way ts i log j) : ∀ e ∈ log, e.Safe ts := by
  induction way with
  | nil => exact fun e none => absurd none List.not_mem_nil
  | cons safe _ _ _ ih => exact List.forall_mem_cons.mpr ⟨safe, ih⟩

theorem Way.le_length {log : List Event} (way : Way ts i log j) (within : i ≤ ts.length) :
    j ≤ ts.length := by
  induction way with
  | nil => exact within
  | @cons i j _ e _ safe _ leads _ ih =>
    apply ih
    cases e with
    | forward => exact leads.2 ▸ safe.2
    | back => exact leads.2 ▸ Nat.le_trans safe.2.1 safe.2.2.1
    | _ => exact (show i = j from leads) ▸ within

theorem Way.single {e : Event} (safe : e.Safe ts) (noFailure : e.isFailure = false)
    (leads : e.Leads i j) : Way ts i [e] j := .cons safe noFailure leads (.nil j)

theorem Way.forward (ordered : i ≤ j) (within : j ≤ ts.length) : Way ts i [.forward i j] j :=
  .single ⟨ordered, within⟩ rfl ⟨rfl, rfl⟩

section
variable {α β : Type} {w : Walk α} {f : α → Walk β} {log : List Event}

theorem bind_ok {a : α} (here : w i = (log, .ok (a, j))) :
    (w >>= f) i = (log ++ (f a j).1, (f a j).2) := by
  change (match w i with
    | (log, .ok (a, j)) => (log ++ (f a j).1, (f a j).2)
    | (log, .error h) => (log, .error h)) = _
  rw [here]

theorem bind_error {h : Halt} (here : w i = (log, .error h)) : (w >>= f) i = (log, .error h) := by
  change (match w i with
    | (log, .ok (a, j)) => (log ++ (f a j).1, (f a j).2)
    | (log, .error h) => (log, .error h)) = _
  rw [here]

end

namespace Tracks
variable {α β γ δ : Type} {R : α → Nat → γ → Prop} {S : β → Nat → δ → Prop}

theorem pure {a : α} {c : γ} (related : R a i c) :
    Tracks ts R i ((Pure.pure a : Walk α) i) (.ok c) := .ok (.nil i) related

theorem refused_of_way {log : List Event} {e : ParseError} (way : Way ts i log j) :
    Tracks ts R i (log, .error (.refused e)) (.error e) := by
  have refused : Tracks ts R i (log ++ [], .error (.refused e)) (.error e) :=
    .refused way fun _ none => absurd none List.not_mem_nil
  rwa [List.append_nil] at refused

theorem refuse (e : ParseError) : Tracks ts R i ((Cursor.refuse e : Walk α) i) (.error e) :=
  refused_of_way (.nil i)

theorem mono {R' : α → Nat → γ → Prop} {x : List Event × Except Halt (α × Nat)}
    {r : Except ParseError γ} (tracks : Tracks ts R i x r)
    (weaker : ∀ a j c, R a j c → R' a j c) : Tracks ts R' i x r := by
  cases tracks with
  | ok way related => exact .ok way (weaker _ _ _ related)
  | refused way failures => exact .refused way failures

/-- What follows a part of a reading is behind that part on the way. -/
theorem behind {log : List Event} {x : List Event × Except Halt (β × Nat)}
    {r : Except ParseError δ} (way : Way ts i log j) (tracks : Tracks ts S j x r) :
    Tracks ts S i (log ++ x.1, x.2) r := by
  cases tracks with
  | ok way' related => exact .ok (way.append way') related
  | refused way' failures =>
    rw [← List.append_assoc]
    exact .refused (way.append way') failures

/-- A part of a reading that no reader has a counterpart for. -/
theorem step {w : Walk α} {f : α → Walk β} {log : List Event} {a : α} {r : Except ParseError δ}
    (here : w i = (log, .ok (a, j))) (way : Way ts i log j) (rest : Tracks ts S j (f a j) r) :
    Tracks ts S i ((w >>= f) i) r := by
  rw [bind_ok here]
  exact behind way rest

theorem bind {w : Walk α} {f : α → Walk β} {r : Except ParseError γ}
    {g : γ → Except ParseError δ} (first : Tracks ts R i (w i) r)
    (rest : ∀ a j c, R a j c → Tracks ts S j (f a j) (g c)) :
    Tracks ts S i ((w >>= f) i) (r >>= g) := by
  generalize here : w i = x at first
  cases first with
  | ok way related => exact step here way (rest _ _ _ related)
  | refused way failures =>
    rw [bind_error here]
    exact .refused way failures

theorem exists_of_ok {x : List Event × Except Halt (α × Nat)} {c : γ}
    (tracks : Tracks ts R i x (.ok c)) :
    ∃ log a j, x = (log, .ok (a, j)) ∧ Way ts i log j ∧ R a j c := by
  cases tracks with
  | ok way related => exact ⟨_, _, _, rfl, way, related⟩

theorem safe {x : List Event × Except Halt (α × Nat)} {r : Except ParseError γ}
    (tracks : Tracks ts R i x r) : ∀ e ∈ x.1, e.Safe ts := by
  cases tracks with
  | ok way _ => exact way.safe
  | refused way failures =>
    intro e he
    rcases List.mem_append.mp he with he | he
    · exact way.safe e he
    · rw [failures e he]
      trivial

/-- What is done behind a reading, where the reader is over. -/
theorem follow {S : β → Nat → γ → Prop} {w : Walk α} {f : α → Walk β} {r : Except ParseError γ}
    (first : Tracks ts R i (w i) r) (rest : ∀ a j c, R a j c → Tracks ts S j (f a j) (.ok c)) :
    Tracks ts S i ((w >>= f) i) r := by
  have same : (r >>= .ok) = r := by cases r <;> rfl
  rw [← same]
  exact bind first rest

/-- What a reader makes of its result afterwards. -/
theorem map {x : List Event × Except Halt (α × Nat)} {r : Except ParseError γ}
    {R' : α → Nat → δ → Prop} {g : γ → Except ParseError δ} (tracks : Tracks ts R i x r)
    (related : ∀ a j c, R a j c → ∃ d, g c = .ok d ∧ R' a j d) : Tracks ts R' i x (r >>= g) := by
  cases tracks with
  | ok way here =>
    obtain ⟨d, same, there⟩ := related _ _ _ here
    change Tracks ts R' i _ (g _)
    rw [same]
    exact .ok way there
  | refused way failures => exact .refused way failures

/-- A call that returns has taken a token at least. -/
theorem call {w : Walk α} {r : Except ParseError γ} (tracks : Tracks ts R i (w i) r)
    (progress : ∀ a j c, R a j c → i < j ∧ j ≤ ts.length) :
    Tracks ts R i (Cursor.call w i) r := by
  unfold Cursor.call
  generalize w i = x at tracks
  cases tracks with
  | ok way related =>
    exact .ok (way.append (.single (progress _ _ _ related) rfl rfl)) related
  | @refused log old _ e way failures =>
    change Tracks ts R i (log ++ old ++ [.failed e], _) _
    rw [List.append_assoc]
    refine .refused way fun x hx => ?_
    rcases List.mem_append.mp hx with hx | hx
    · exact failures x hx
    · exact List.mem_singleton.mp hx

end Tracks

end

section
variable {ts : List Token} {eof i j n : Nat} {t : Token} {kind : Kind} {kinds : List Kind}

theorem lt_length (here : ts[i]? = some t) : i < ts.length := (List.getElem?_eq_some_iff.mp here).1

theorem drop_eq_nil (none : ts[i]? = none) : ts.drop i = [] :=
  List.drop_eq_nil_of_le (List.getElem?_eq_none_iff.mp none)

theorem Way.next (here : ts[i]? = some t) : Way ts i [.forward i (i + 1)] (i + 1) :=
  .forward (Nat.le_succ i) (lt_length here)

theorem peek_bind {β : Type} {f : Option Token → Walk β} {found : Option Token}
    (here : ts[i]? = found) : (peek ts >>= f) i = f found i := by
  subst here
  rfl

theorem cursor_bind {β : Type} (f : Nat → Walk β) : (cursor >>= f) i = f i i := rfl

theorem advance_some (here : ts[i]? = some t) :
    advance ts i = ([.forward i (i + 1)], .ok (some t, i + 1)) := by
  rw [advance, peek_bind here]
  rfl

theorem advance_none (none : ts[i]? = none) : advance ts i = ([], .ok (.none, i)) := by
  rw [advance, peek_bind none]
  rfl

theorem expect_some (here : ts[i]? = some t) (allowed : t.kind ∈ kinds) :
    expect ts eof kinds i = ([.forward i (i + 1)], .ok (t, i + 1)) := by
  rw [expect, peek_bind here]
  simp only [if_pos allowed]
  rfl

theorem matchToken_some (here : ts[i]? = some t) (same : t.kind = kind) :
    matchToken ts kind i = ([.forward i (i + 1)], .ok (true, i + 1)) := by
  have found : (some t).any (·.kind == kind) = true := by simp [same]
  rw [matchToken, peek_bind here, if_pos found, bind_ok (advance_some here)]
  rfl

theorem matchToken_none (other : ∀ t, ts[i]? = some t → t.kind ≠ kind) :
    matchToken ts kind i = ([], .ok (false, i)) := by
  have missed : ¬ ts[i]?.any (·.kind == kind) = true := by
    intro found
    obtain ⟨t, here, same⟩ := (Option.any_eq_true _ _).mp found
    exact other t here (eq_of_beq same)
  rw [matchToken, peek_bind rfl, if_neg missed]
  rfl

/-- What is unexpected is told by the tokens that are left. -/
theorem unexpected_eq {α : Type} (kinds : List Kind) :
    (unexpected ts eof kinds : Walk α) i =
      refuse (Lookahead.unexpected eof kinds (ts.drop i)) i := by
  cases here : ts[i]? with
  | none => rw [unexpected, peek_bind here, drop_eq_nil here, Lookahead.unexpected]
  | some t =>
    rw [unexpected, peek_bind here, Lookahead.drop_eq_cons here, Lookahead.unexpected]

theorem expect_tracks (kinds : List Kind) :
    Tracks ts (fun t j c => j = i + 1 ∧ ts[i]? = some t ∧ t.kind ∈ kinds ∧ c = (t, ts.drop j)) i
      (expect ts eof kinds i) (Reader.expect eof kinds (ts.drop i)) := by
  cases here : ts[i]? with
  | none =>
    rw [expect, peek_bind here, drop_eq_nil here, Reader.expect]
    simp only [unexpected_eq, drop_eq_nil here]
    exact .refuse _
  | some t =>
    rw [Lookahead.drop_eq_cons here, Reader.expect]
    by_cases allowed : t.kind ∈ kinds
    · rw [expect_some here allowed, if_pos allowed]
      exact .ok (.next here) ⟨rfl, rfl, allowed, rfl⟩
    · rw [expect, peek_bind here, if_neg allowed]
      simp only [if_neg allowed, unexpected_eq, Lookahead.drop_eq_cons here]
      exact .refuse _

/-- Line breaks are skipped as far as they go. -/
theorem skipNewlines_tracks (enough : ts.length - i < n) (within : i ≤ ts.length) :
    Tracks ts (fun _ j rest => i ≤ j ∧ j ≤ ts.length ∧ rest = ts.drop j ∧
        ∀ k, i ≤ k → k < j → KindAt ts k .newline) i
      (skipNewlines ts n i) (.ok ((ts.drop i).dropWhile (·.kind == .newline))) := by
  induction n generalizing i with
  | zero => exact absurd enough (Nat.not_lt_zero _)
  | succ n ih =>
    rw [skipNewlines]
    by_cases isBreak : KindAt ts i .newline
    · obtain ⟨t, here, same⟩ := isBreak
      have room := lt_length here
      have rest : (ts.drop i).dropWhile (·.kind == .newline) =
          (ts.drop (i + 1)).dropWhile (·.kind == .newline) := by
        rw [Lookahead.drop_eq_cons here]
        simp [same]
      rw [rest]
      refine .step (matchToken_some here same) (.next here) ?_
      simp only [if_true]
      refine (ih (by omega) (by omega)).mono fun _ j rest ⟨past, inside, left, breaks⟩ => ?_
      refine ⟨by omega, inside, left, fun k after before => ?_⟩
      rcases Nat.eq_or_lt_of_le after with rfl | after
      · exact ⟨t, here, same⟩
      · exact breaks k after before
    · have other : ∀ t, ts[i]? = some t → t.kind ≠ .newline :=
        fun t here same => isBreak ⟨t, here, same⟩
      have rest : (ts.drop i).dropWhile (·.kind == .newline) = ts.drop i := by
        cases here : ts[i]? with
        | none => rw [drop_eq_nil here, List.dropWhile_nil]
        | some t =>
          rw [Lookahead.drop_eq_cons here]
          simp [other t here]
      rw [rest]
      refine .step (matchToken_none other) (.nil i) ?_
      exact .pure ⟨Nat.le_refl i, within, rfl, fun k after before => by omega⟩

theorem through_cons (eof : Nat) {stop : Kind} (other : t.kind ≠ stop) (rest : List Token) :
    Reader.through eof stop (t :: rest) =
      (Reader.through eof stop rest >>= fun c => .ok ((t :: c.1.1, c.1.2), c.2)) := by
  have goesOn : (t.kind != stop) = true := bne_iff_ne.mpr other
  rw [Reader.through, Reader.through]
  simp only [List.dropWhile_cons, List.takeWhile_cons, goesOn, if_true]
  split <;> rfl

theorem scanTo_tracks {stop : Kind} (enough : ts.length - i < n) :
    Tracks ts (fun _ j c => ∃ t, i ≤ j ∧ ts[j]? = some t ∧ t.kind = stop ∧
        c = (((ts.drop i).take (j - i), t), ts.drop (j + 1))) i
      (scanTo ts eof stop n i) (Reader.through eof stop (ts.drop i)) := by
  induction n generalizing i with
  | zero => exact absurd enough (Nat.not_lt_zero _)
  | succ n ih =>
    rw [scanTo]
    cases here : ts[i]? with
    | none =>
      rw [peek_bind here, if_neg (by simp), bind_ok (advance_none here), drop_eq_nil here,
        Reader.through]
      simp only [unexpected_eq, drop_eq_nil here]
      exact .refuse _
    | some t =>
      have room := lt_length here
      rw [peek_bind here, Lookahead.drop_eq_cons here]
      by_cases same : t.kind = stop
      · rw [if_pos (by simp [same]), Reader.through]
        simp only [List.dropWhile_cons, List.takeWhile_cons, same, bne_self_eq_false,
          if_neg Bool.false_ne_true]
        exact .pure ⟨t, Nat.le_refl i, here, same, by simp⟩
      · rw [if_neg (by simp [same]), through_cons eof same]
        refine .step (advance_some here) (.next here) ?_
        refine (ih (by omega)).map fun _ j c ⟨u, past, there, isStop, left⟩ => ?_
        refine ⟨_, rfl, u, by omega, there, isStop, ?_⟩
        have size : j - i = j - (i + 1) + 1 := by omega
        rw [left, size, List.take_succ_cons]

theorem slice_eq {start stop : Nat} (ordered : start ≤ stop) (within : stop ≤ ts.length) :
    slice ts start stop i =
      ([.sliced start stop], .ok ((ts.drop start).take (stop - start), i)) := by
  have told : tell (.sliced start stop) i = ([.sliced start stop], .ok ((), i)) := rfl
  rw [slice, bind_ok told, if_pos ⟨ordered, within⟩]
  rfl

theorem Way.sliced {start stop : Nat} (ordered : start ≤ stop) (within : stop ≤ ts.length) :
    Way ts i [.sliced start stop] i := .single ⟨ordered, within⟩ rfl rfl

theorem collectUntil_tracks (stop : Kind) :
    Tracks ts (fun run j c => ∃ t, i ≤ j ∧ ts[j]? = some t ∧ t.kind = stop ∧
        c = ((run, t), ts.drop (j + 1))) i
      (collectUntil ts eof stop i) (Reader.through eof stop (ts.drop i)) := by
  rw [collectUntil, cursor_bind]
  refine (scanTo_tracks (Nat.lt_succ_of_le (Nat.sub_le _ _))).follow ?_
  rintro _ j c ⟨t, past, there, isStop, left⟩
  have within := Nat.le_of_lt (lt_length there)
  rw [cursor_bind, slice_eq past within]
  exact .ok (.sliced past within) ⟨t, past, there, isStop, left⟩

end

end PhraseLang.Cursor
