import PhraseLang.Proofs.Cursor.Expression

/-! Programs read with a cursor.
The readings go along the row of all tokens, forward but for the line breaks behind a conditional,
which are given back. Every round of a loop and every body in a body stands behind a token more, so
one round more than there are tokens is enough for all of them. -/
namespace PhraseLang.Cursor

section
variable (ts : List Token) (eof : Nat)

def block (body : Walk (List Statement)) : Walk (List Statement) := do
  let _ ← expect ts eof [.punctuation .leftCurly]
  let _ ← expect ts eof [.newline]
  let _ ← expect ts eof [.indent]
  let statements ← body
  let _ ← expect ts eof [.dedent]
  let _ ← expect ts eof [.punctuation .rightCurly]
  return statements

def assignment : Walk (Span → Statement) := do
  let _ ← expect ts eof [.keyword .define]
  let name ← expect ts eof [.constant, .binding]
  let _ ← expect ts eof [.keyword .assign]
  let run ← collectUntil ts eof (.keyword .endOfAssign)
  let last ← expect ts eof [.keyword .endOfAssign]
  let value ← parseRun run last.span.start true
  return fun span => .assign span name value

/-- A condition up to the brace that opens its block, and the block. -/
def guarded (body : Walk (List Statement)) : Walk (Expr × List Statement) := do
  let run ← collectUntil ts eof (.punctuation .leftCurly)
  let stop := ((← peek ts).map fun t => t.span.start).getD eof
  let condition ← parseRun run stop false
  let statements ← call (block ts eof body)
  return (condition, statements)

/-- The clause at the cursor and those behind it. Where there is none, the cursor goes back to where
it was before the line breaks. -/
def clause (body : Walk (List Statement)) (more : Walk Alternative) (before : Nat) :
    Walk Alternative := do
  if ← matchToken ts (.keyword .elseIf) then
    let (condition, statements) ← guarded ts eof body
    let others ← more
    return .elseIf condition statements others
  else if ← matchToken ts (.keyword .otherwise) then
    let statements ← call (block ts eof body)
    return .otherwise statements
  else
    restore before
    return .nothing

def clauses (body : Walk (List Statement)) : Nat → Walk Alternative
  | 0 => halt .exhausted
  | n + 1 => do
    let before ← cursor
    skipNewlines ts (ts.length + 1)
    clause ts eof body (clauses body n) before

def conditional (body : Walk (List Statement)) : Walk (Span → Statement) := do
  let _ ← expect ts eof [.keyword .ifThen]
  let (condition, statements) ← guarded ts eof body
  let others ← clauses ts eof body (ts.length + 1)
  return fun span => .conditional span condition statements others

def whileLoop (body : Walk (List Statement)) : Walk (Span → Statement) := do
  let start ← cursor
  let _ ← expect ts eof [.punctuation .leftParen]
  match Lookahead.matching? ts start with
  | none => unexpected ts eof [.punctuation .rightParen]
  | some close =>
    let run ← slice ts (← cursor) close
    moveTo close
    let closer ← expect ts eof [.punctuation .rightParen]
    let condition ← parseRun run closer.span.start false
    let _ ← expect ts eof [.keyword .whileLoop]
    let statements ← call (block ts eof body)
    return fun span => .whileLoop span condition statements

def countedLoop (body : Walk (List Statement)) : Walk (Span → Statement) := do
  let first ← expect ts eof [.keyword .countedLoop]
  match Text.readUInt64? first.text with
  | none => refuse (.badCount first)
  | some count =>
    let binding ← expect ts eof [.binding]
    let statements ← call (block ts eof body)
    return fun span => .countedLoop span count binding statements

/-- The statement that a token begins, still without its span. -/
def production (body : Walk (List Statement)) (t : Token) : Walk (Span → Statement) :=
  match t.kind with
  | .keyword .countedLoop => countedLoop ts eof body
  | .keyword .ifThen => conditional ts eof body
  | .punctuation .leftParen => do
    if Lookahead.isLoopAhead ts (← cursor) then whileLoop ts eof body
    else refuse (.notAStatement t)
  | .keyword .define => assignment ts eof
  | _ => refuse (.notAStatement t)

def statement (body : Walk (List Statement)) : Walk Statement := do
  match ← peek ts with
  | none =>
    tell .cameToEnd
    unexpected ts eof Reader.statementStarts
  | some t =>
    let finish ← production ts eof body t
    return finish ⟨t.span.start, previousEnd ts (← cursor)⟩

/-- A round of the loop over a body, at a token. -/
def bodyRound (more : Walk (List Statement)) (t : Token) : Walk (List Statement) :=
  match t.kind with
  | .dedent => return []
  | .newline => do
    let _ ← advance ts
    more
  | _ => do
    let s ← call (statement ts eof more)
    let rest ← more
    return s :: rest

/-- The statements of a body, up to the dedent behind them. -/
def body : Nat → Walk (List Statement)
  | 0 => halt .exhausted
  | n + 1 => do
    match ← peek ts with
    | none => unexpected ts eof [.dedent]
    | some t => bodyRound ts eof (body n) t

/-- A round of the loop over a program, at a token. -/
def round (body more : Walk (List Statement)) (t : Token) : Walk (List Statement) :=
  match t.kind with
  | .newline => do
    let _ ← advance ts
    more
  | .punctuation .leftCurly => do
    let inner ← call (block ts eof body)
    let rest ← more
    return inner ++ rest
  | _ => do
    let s ← call (statement ts eof body)
    let rest ← more
    return s :: rest

def statements : Nat → Walk (List Statement)
  | 0 => halt .exhausted
  | n + 1 => do
    match ← peek ts with
    | none => return []
    | some t => round ts eof (body ts eof n) (statements n) t

end

def program (ts : List Token) : Walk Program := do
  let all ← statements ts (endOffset ts) (ts.length + 1)
  return ⟨all⟩

section
variable {ts : List Token} {eof i j m n stop : Nat} {w : Walk (List Statement)}
  {b : Reader (List Statement)}

/-- The cursor is behind `lo`, where the tokens that a reader has left begin. -/
structure Comes (ts : List Token) (lo j : Nat) (rest : List Token) : Prop where
  progress : lo < j
  within : j ≤ ts.length
  left : rest = ts.drop j

/-- The cursor is right behind a closing brace, which ends at `stop`. -/
def Closes (ts : List Token) (j stop : Nat) : Prop :=
  ∃ k brace, j = k + 1 ∧ ts[k]? = some brace ∧ brace.kind = .punctuation .rightCurly ∧
    brace.span.stop = stop

theorem Closes.previousEnd_eq (closes : Closes ts j stop) : previousEnd ts j = stop := by
  obtain ⟨k, brace, rfl, here, -, ends⟩ := closes
  rw [previousEnd, here]
  exact ends

/-- The cursor is at the dedent behind a body, and the reader right behind that dedent. -/
def BodyDone (ts : List Token) (lo : Nat) (found : List Statement) (j : Nat)
    (c : List Statement × List Token) : Prop :=
  lo ≤ j ∧ found = c.1 ∧ ∃ dedent, ts[j]? = some dedent ∧ dedent.kind = .dedent ∧
    c.2 = ts.drop (j + 1)

/-- The reading of the bodies behind a place comes to what the reader of bodies does. -/
def Bodies (ts : List Token) (i : Nat) (w : Walk (List Statement))
    (b : Reader (List Statement)) : Prop :=
  ∀ j, i < j → j ≤ ts.length → Tracks ts (BodyDone ts j) j (w j) (b (ts.drop j))

theorem Bodies.later (bodies : Bodies ts i w b) (past : i ≤ j) : Bodies ts j w b :=
  fun k after within => bodies k (Nat.lt_of_le_of_lt past after) within

theorem block_tracks (bodies : Bodies ts i w b) :
    Tracks ts (fun found j c => Comes ts i j c.2 ∧ found = c.1.1 ∧ Closes ts j c.1.2) i
      (block ts eof w i) (Reader.block eof b (ts.drop i)) := by
  rw [block, Reader.block]
  refine (expect_tracks _).bind ?_
  rintro _ _ _ ⟨rfl, first, -, rfl⟩
  refine (expect_tracks _).bind ?_
  rintro _ _ _ ⟨rfl, second, -, rfl⟩
  refine (expect_tracks _).bind ?_
  rintro _ _ _ ⟨rfl, third, -, rfl⟩
  have room := lt_length third
  refine (bodies _ (by omega) (by omega)).bind ?_
  rintro _ j ⟨found, rest⟩ ⟨past, rfl, dedent, here, isDedent, rfl⟩
  refine .step (expect_some here (by simp [isDedent])) (.next here) ?_
  refine (expect_tracks _).bind ?_
  rintro brace _ _ ⟨rfl, last, isBrace, rfl⟩
  have final := lt_length last
  refine .pure ⟨⟨by omega, by omega, rfl⟩, rfl, _, brace, rfl, last, ?_, rfl⟩
  exact List.mem_singleton.mp isBrace

theorem called_block (bodies : Bodies ts i w b) :
    Tracks ts (fun found j c => Comes ts i j c.2 ∧ found = c.1.1 ∧ Closes ts j c.1.2) i
      (call (block ts eof w) i) (Reader.block eof b (ts.drop i)) :=
  (block_tracks bodies).call fun _ _ _ done => ⟨done.1.progress, done.1.within⟩

theorem guarded_tracks (bodies : Bodies ts i w b) :
    Tracks ts (fun p j c => Comes ts i j c.2 ∧ p = (c.1.1, c.1.2.1) ∧ Closes ts j c.1.2.2) i
      (guarded ts eof w i) (Reader.guarded eof b (ts.drop i)) := by
  rw [guarded, Reader.guarded]
  refine (collectUntil_tracks _).bind ?_
  rintro run j _ ⟨brace, past, here, -, rfl⟩
  rw [peek_bind here]
  refine (parseRun_tracks false).bind ?_
  rintro condition _ _ ⟨rfl, rfl⟩
  rw [← Lookahead.drop_eq_cons here]
  refine (called_block (bodies.later past)).bind ?_
  rintro _ k ⟨⟨found, stop⟩, rest⟩ ⟨comes, rfl, closes⟩
  exact .pure ⟨⟨Nat.lt_of_le_of_lt past comes.progress, comes.within, comes.left⟩, rfl, closes⟩

/-- The cursor is behind the clauses of a conditional, at the brace that closes the last one. -/
def ClausesDone (ts : List Token) (lo : Nat) (found : Alternative) (j : Nat)
    (c : (Alternative × Nat) × List Token) : Prop :=
  lo ≤ j ∧ j ≤ ts.length ∧ c.2 = ts.drop j ∧ found = c.1.1 ∧ Closes ts j c.1.2

/-- Where no clause follows, the cursor goes back over the line breaks to the brace. -/
theorem restored (closes : Closes ts i stop) (past : i ≤ j) (within : j ≤ ts.length)
    (breaks : ∀ k, i ≤ k → k < j → KindAt ts k .newline) :
    Tracks ts (ClausesDone ts i) j
      ((do restore i; return .nothing : Walk Alternative) j)
      (.ok ((.nothing, stop), ts.drop i)) := by
  have closes' := closes
  obtain ⟨k, brace, rfl, here, isBrace, -⟩ := closes'
  have back : restore (k + 1) j = ([.back j (k + 1)], .ok ((), k + 1)) := rfl
  have way : Way ts j [.back j (k + 1)] (k + 1) :=
    .single ⟨⟨k, rfl, brace, here, isBrace⟩, past, within, breaks⟩ rfl ⟨rfl, rfl⟩
  refine .step back way ?_
  exact .pure ⟨Nat.le_refl _, Nat.le_trans past within, rfl, rfl, closes⟩

theorem clause_none {more : Walk Alternative} (closes : Closes ts i stop) (past : i ≤ j)
    (within : j ≤ ts.length) (breaks : ∀ k, i ≤ k → k < j → KindAt ts k .newline)
    (noElseIf : ∀ t, ts[j]? = some t → t.kind ≠ .keyword .elseIf)
    (noElse : ∀ t, ts[j]? = some t → t.kind ≠ .keyword .otherwise) :
    Tracks ts (ClausesDone ts i) j (clause ts eof w more i j)
      (.ok ((.nothing, stop), ts.drop i)) := by
  rw [clause]
  refine .step (matchToken_none noElseIf) (.nil j) ?_
  rw [if_neg Bool.false_ne_true]
  refine .step (matchToken_none noElse) (.nil j) ?_
  exact restored closes past within breaks

theorem clauses_tracks (bodies : Bodies ts i w b) (closes : Closes ts i stop)
    (within : i ≤ ts.length) (enough : ts.length - i < n) (fuel : ts.length - i ≤ m) :
    Tracks ts (ClausesDone ts i) i (clauses ts eof w n i)
      (Reader.alternative eof b m stop (ts.drop i)) := by
  induction n generalizing i m stop with
  | zero => exact absurd enough (Nat.not_lt_zero _)
  | succ n ih =>
    obtain ⟨log, _, j, skips, way, past, inside, left, breaks⟩ :=
      (skipNewlines_tracks (Nat.lt_succ_of_le (Nat.sub_le _ _)) within).exists_of_ok
    rw [clauses, cursor_bind]
    refine .step skips way ?_
    cases m with
    | zero =>
      have none : ts[j]? = none := List.getElem?_eq_none_iff.mpr (by omega)
      apply clause_none closes past inside breaks <;> simp [none]
    | succ m =>
      rw [Reader.alternative, left]
      cases here : ts[j]? with
      | none =>
        rw [drop_eq_nil here]
        apply clause_none closes past inside breaks <;> simp [here]
      | some t =>
        rw [Lookahead.drop_eq_cons here]
        have room := lt_length here
        by_cases isElseIf : t.kind = .keyword .elseIf
        · simp only [if_pos isElseIf]
          rw [clause]
          refine .step (matchToken_some here isElseIf) (.next here) ?_
          rw [if_pos rfl]
          refine (guarded_tracks (bodies.later (by omega))).bind ?_
          rintro _ k ⟨⟨condition, found, stop'⟩, rest⟩ ⟨comes, rfl, closes'⟩
          obtain rfl : rest = ts.drop k := comes.left
          have further := comes.progress
          refine (ih (bodies.later (by omega)) closes' comes.within (by omega) (by omega)).bind ?_
          rintro _ l ⟨⟨others, stop''⟩, rest⟩ ⟨past', inside', left', rfl, closes''⟩
          exact .pure ⟨by omega, inside', left', rfl, closes''⟩
        · simp only [if_neg isElseIf]
          by_cases isElse : t.kind = .keyword .otherwise
          · simp only [if_pos isElse]
            have noElseIf : ∀ u, ts[j]? = some u → u.kind ≠ .keyword .elseIf := by
              simpa [here] using isElseIf
            rw [clause]
            refine .step (matchToken_none noElseIf) (.nil j) ?_
            rw [if_neg Bool.false_ne_true]
            refine .step (matchToken_some here isElse) (.next here) ?_
            rw [if_pos rfl]
            refine (called_block (bodies.later (by omega))).bind ?_
            rintro _ k ⟨⟨found, stop'⟩, rest⟩ ⟨comes, rfl, closes'⟩
            have further := comes.progress
            exact .pure ⟨by omega, comes.within, comes.left, rfl, closes'⟩
          · simp only [if_neg isElse]
            apply clause_none closes past inside breaks
            · simpa [here] using isElseIf
            · simpa [here] using isElse

/-- The cursor is behind a statement, which lacks only its span. -/
def ProductionDone (ts : List Token) (lo : Nat) (first : Token) (finish : Span → Statement)
    (j : Nat) (c : Statement × List Token) : Prop :=
  Comes ts lo j c.2 ∧ finish ⟨first.span.start, previousEnd ts j⟩ = c.1

section
variable {first : Token} (here : ts[i]? = some first)
include here

theorem conditional_tracks (isIf : first.kind = .keyword .ifThen) (bodies : Bodies ts i w b)
    (fuel : ts.length - (i + 1) ≤ m) :
    Tracks ts (ProductionDone ts i first) i (conditional ts eof w i)
      (Reader.conditional eof b m first (ts.drop (i + 1))) := by
  rw [conditional, Reader.conditional]
  refine .step (expect_some here (by simp [isIf])) (.next here) ?_
  refine (guarded_tracks (bodies.later (Nat.le_succ i))).bind ?_
  rintro _ j ⟨⟨condition, found, stop⟩, rest⟩ ⟨comes, rfl, closes⟩
  obtain rfl : rest = ts.drop j := comes.left
  have further := comes.progress
  refine (clauses_tracks (bodies.later (by omega)) closes comes.within
    (Nat.lt_succ_of_le (Nat.sub_le _ _)) (by omega)).bind ?_
  rintro _ k ⟨⟨others, stop'⟩, rest⟩ ⟨past, inside, left, rfl, closes'⟩
  exact .pure ⟨⟨by omega, inside, left⟩, by rw [closes'.previousEnd_eq]⟩

theorem countedLoop_tracks (isLoop : first.kind = .keyword .countedLoop)
    (bodies : Bodies ts i w b) :
    Tracks ts (ProductionDone ts i first) i (countedLoop ts eof w i)
      (Reader.countedLoop eof b first (ts.drop (i + 1))) := by
  rw [countedLoop, Reader.countedLoop]
  refine .step (expect_some here (by simp [isLoop])) (.next here) ?_
  cases Text.readUInt64? first.text with
  | none => exact .refuse _
  | some count =>
    refine (expect_tracks _).bind ?_
    rintro binding _ _ ⟨rfl, -, -, rfl⟩
    refine (called_block (bodies.later (by omega))).bind ?_
    rintro _ j ⟨⟨found, stop⟩, rest⟩ ⟨comes, rfl, closes⟩
    have further := comes.progress
    exact .pure ⟨⟨by omega, comes.within, comes.left⟩, by rw [closes.previousEnd_eq]⟩

theorem assignment_tracks (isDefine : first.kind = .keyword .define) :
    Tracks ts (ProductionDone ts i first) i (assignment ts eof i)
      (Reader.assignment eof first (ts.drop (i + 1))) := by
  rw [assignment, Reader.assignment]
  refine .step (expect_some here (by simp [isDefine])) (.next here) ?_
  refine (expect_tracks _).bind ?_
  rintro name _ _ ⟨rfl, -, -, rfl⟩
  refine (expect_tracks _).bind ?_
  rintro _ _ _ ⟨rfl, -, -, rfl⟩
  refine (collectUntil_tracks _).bind ?_
  rintro run j _ ⟨last, past, there, isLast, rfl⟩
  refine .step (expect_some there (by simp [isLast])) (.next there) ?_
  refine (parseRun_tracks true).bind ?_
  rintro value _ _ ⟨rfl, rfl⟩
  refine .pure ⟨⟨by omega, lt_length there, rfl⟩, ?_⟩
  rw [previousEnd, there]
  rfl

theorem whileLoop_tracks (isOpen : first.kind = .punctuation .leftParen)
    (ahead : Lookahead.isLoopAhead ts i = true) (bodies : Bodies ts i w b) :
    Tracks ts (ProductionDone ts i first) i (whileLoop ts eof w i)
      (Reader.whileLoop eof b first (ts.drop (i + 1))) := by
  obtain ⟨run, closer, suffix, rest, closes, isSuffix⟩ :=
    (Lookahead.isLoopAhead_iff here isOpen).mp ahead
  obtain ⟨cut, isClose⟩ := Grammar.closing?_eq_some closes
  have atCloser : closer :: suffix :: rest = ts.drop (i + 1 + run.length) := by
    rw [← List.drop_drop, cut, List.drop_left]
  obtain ⟨closerAt, behind⟩ := getElem?_of_drop atCloser
  obtain ⟨suffixAt, rfl⟩ := getElem?_of_drop behind
  have found : Lookahead.matching? ts i = some (i + 1 + run.length) := by
    rw [Lookahead.matching?_eq here isOpen, closes]
    rfl
  have inside : (ts.drop (i + 1)).take (i + 1 + run.length - (i + 1)) = run := by
    rw [Nat.add_sub_cancel_left, cut, List.take_left]
  have ordered : i + 1 ≤ i + 1 + run.length := Nat.le_add_right _ _
  have within := Nat.le_of_lt (lt_length closerAt)
  have jump : moveTo (i + 1 + run.length) (i + 1) =
      ([.forward (i + 1) (i + 1 + run.length)], .ok ((), i + 1 + run.length)) := rfl
  rw [whileLoop, Reader.whileLoop, closes, cursor_bind, found]
  simp only [if_pos isSuffix]
  refine .step (expect_some here (by simp [isOpen])) (.next here) ?_
  rw [cursor_bind]
  refine .step (slice_eq ordered within) (.sliced ordered within) ?_
  rw [inside]
  refine .step jump (.forward ordered within) ?_
  refine .step (expect_some closerAt (by simp [isClose])) (.next closerAt) ?_
  refine (parseRun_tracks false).bind ?_
  rintro condition _ _ ⟨rfl, rfl⟩
  refine .step (expect_some suffixAt (by simp [isSuffix])) (.next suffixAt) ?_
  refine (called_block (bodies.later (by omega))).bind ?_
  rintro _ j ⟨⟨statements, stop⟩, rest⟩ ⟨comes, rfl, closed⟩
  have further := comes.progress
  exact .pure ⟨⟨by omega, comes.within, comes.left⟩, by rw [closed.previousEnd_eq]⟩

omit here in
theorem production_other (notLoop : first.kind ≠ .keyword .countedLoop)
    (notIf : first.kind ≠ .keyword .ifThen) (notOpen : first.kind ≠ .punctuation .leftParen)
    (notDefine : first.kind ≠ .keyword .define) :
    production ts eof w first = refuse (.notAStatement first) := by
  unfold production
  split
  · exact absurd ‹_› notLoop
  · exact absurd ‹_› notIf
  · exact absurd ‹_› notOpen
  · exact absurd ‹_› notDefine
  · rfl

theorem production_tracks (bodies : Bodies ts i w b) (fuel : ts.length - (i + 1) ≤ m) :
    Tracks ts (ProductionDone ts i first) i (production ts eof w first i)
      (Reader.statement eof b m (first :: ts.drop (i + 1))) := by
  rw [Reader.statement]
  split
  · rename_i isLoop
    simp only [production, isLoop]
    exact countedLoop_tracks here isLoop bodies
  · rename_i isIf
    simp only [production, isIf]
    exact conditional_tracks here isIf bodies fuel
  · rename_i isOpen
    simp only [production, isOpen]
    rw [cursor_bind]
    cases ahead : Lookahead.isLoopAhead ts i with
    | true =>
      rw [if_pos rfl]
      exact whileLoop_tracks here isOpen ahead bodies
    | false =>
      have noHeader : ¬ Grammar.Header (ts.drop (i + 1)) := by
        rw [← Lookahead.isLoopAhead_iff here isOpen, ahead]
        exact Bool.false_ne_true
      rw [if_neg Bool.false_ne_true, Grammar.whileLoop_of_not_header noHeader]
      exact .refuse _
  · rename_i isDefine
    simp only [production, isDefine]
    exact assignment_tracks here isDefine
  · rename_i notLoop notIf notOpen notDefine
    rw [production_other notLoop notIf notOpen notDefine]
    exact .refuse _

theorem statement_tracks (bodies : Bodies ts i w b) (fuel : ts.length - (i + 1) ≤ m) :
    Tracks ts (fun s j c => Comes ts i j c.2 ∧ s = c.1) i (statement ts eof w i)
      (Reader.statement eof b m (first :: ts.drop (i + 1))) := by
  rw [statement, peek_bind here]
  refine (production_tracks here bodies fuel).follow ?_
  rintro finish j ⟨s, rest⟩ ⟨comes, value⟩
  rw [cursor_bind]
  exact .pure ⟨comes, value⟩

theorem called_statement (bodies : Bodies ts i w b) (fuel : ts.length - (i + 1) ≤ m) :
    Tracks ts (fun s j c => Comes ts i j c.2 ∧ s = c.1) i (call (statement ts eof w) i)
      (Reader.statement eof b m (first :: ts.drop (i + 1))) :=
  (statement_tracks here bodies fuel).call fun _ _ _ done => ⟨done.1.progress, done.1.within⟩

end

theorem BodyDone.later {found : List Statement} {c : List Statement × List Token} {lo : Nat}
    (done : BodyDone ts i found j c) (past : lo ≤ i) : BodyDone ts lo found j c :=
  ⟨Nat.le_trans past done.1, done.2⟩

theorem bodyRound_other {t : Token} (notDedent : t.kind ≠ .dedent) (notBreak : t.kind ≠ .newline) :
    bodyRound ts eof w t = do
      let s ← call (statement ts eof w)
      let rest ← w
      return s :: rest := by
  unfold bodyRound
  split
  · exact absurd ‹_› notDedent
  · exact absurd ‹_› notBreak
  · rfl

theorem round_other {v : Walk (List Statement)} {t : Token} (notBreak : t.kind ≠ .newline)
    (notBrace : t.kind ≠ .punctuation .leftCurly) :
    round ts eof w v t = do
      let s ← call (statement ts eof w)
      let rest ← v
      return s :: rest := by
  unfold round
  split
  · exact absurd ‹_› notBreak
  · exact absurd ‹_› notBrace
  · rfl

theorem body_tracks (within : i ≤ ts.length) (enough : ts.length - i < n)
    (fuel : ts.length - i ≤ m) :
    Tracks ts (BodyDone ts i) i (body ts eof n i) (Reader.body eof m (ts.drop i)) := by
  induction n generalizing i m with
  | zero => exact absurd enough (Nat.not_lt_zero _)
  | succ n ih =>
    rw [body]
    cases here : ts[i]? with
    | none =>
      have ended : Reader.body eof m [] = .error (.unexpectedEnd [.dedent] eof) := by
        cases m <;> rw [Reader.body]
      rw [peek_bind here, drop_eq_nil here, ended]
      simp only [unexpected_eq, drop_eq_nil here]
      exact .refuse _
    | some t =>
      have room := lt_length here
      obtain ⟨m, rfl⟩ : ∃ k, m = k + 1 := ⟨m - 1, by omega⟩
      rw [peek_bind here, Lookahead.drop_eq_cons here, Reader.body]
      dsimp only
      split
      · rename_i isDedent
        simp only [bodyRound, isDedent]
        exact .pure ⟨Nat.le_refl i, rfl, t, here, isDedent, rfl⟩
      · rename_i isBreak
        simp only [bodyRound, isBreak]
        refine .step (advance_some here) (.next here) ?_
        refine (ih (by omega) (by omega) (by omega)).mono fun _ _ _ done => ?_
        exact done.later (Nat.le_succ i)
      · rename_i notDedent notBreak
        have bodies : Bodies ts i (body ts eof n) (Reader.body eof m) :=
          fun j past inside => ih inside (by omega) (by omega)
        rw [bodyRound_other notDedent notBreak]
        refine (called_statement here bodies (by omega)).bind ?_
        rintro _ j ⟨s, rest⟩ ⟨comes, rfl⟩
        obtain rfl : rest = ts.drop j := comes.left
        have further := comes.progress
        refine (ih comes.within (by omega) (by omega)).bind ?_
        rintro _ k ⟨others, rest⟩ ⟨past, rfl, atDedent⟩
        exact .pure ⟨by omega, rfl, atDedent⟩

theorem statements_tracks (eof : Nat) (within : i ≤ ts.length) (enough : ts.length - i < n)
    (fuel : ts.length - i ≤ m) :
    Tracks ts (fun all j c => all = c ∧ j = ts.length) i (statements ts eof n i)
      (Reader.statements eof m (ts.drop i)) := by
  induction n generalizing i m with
  | zero => exact absurd enough (Nat.not_lt_zero _)
  | succ n ih =>
    rw [statements]
    cases here : ts[i]? with
    | none =>
      have ended : Reader.statements eof m [] = .ok [] := by cases m <;> rw [Reader.statements]
      rw [peek_bind here, drop_eq_nil here, ended]
      exact .pure ⟨rfl, Nat.le_antisymm within (List.getElem?_eq_none_iff.mp here)⟩
    | some t =>
      have room := lt_length here
      obtain ⟨m, rfl⟩ : ∃ k, m = k + 1 := ⟨m - 1, by omega⟩
      have bodies : Bodies ts i (body ts eof n) (Reader.body eof m) :=
        fun j past inside => body_tracks inside (by omega) (by omega)
      rw [peek_bind here, Lookahead.drop_eq_cons here, Reader.statements]
      dsimp only
      split
      · rename_i isBreak
        simp only [round, isBreak]
        refine .step (advance_some here) (.next here) ?_
        exact ih (by omega) (by omega) (by omega)
      · rename_i isBrace
        simp only [round, isBrace]
        rw [← Lookahead.drop_eq_cons here]
        refine (called_block bodies).bind ?_
        rintro _ j ⟨⟨inner, stop⟩, rest⟩ ⟨comes, rfl, -⟩
        obtain rfl : rest = ts.drop j := comes.left
        have further := comes.progress
        refine (ih comes.within (by omega) (by omega)).bind ?_
        rintro _ k others ⟨rfl, final⟩
        exact .pure ⟨rfl, final⟩
      · rename_i notBreak notBrace
        rw [round_other notBreak notBrace]
        refine (called_statement here bodies (by omega)).bind ?_
        rintro _ j ⟨s, rest⟩ ⟨comes, rfl⟩
        obtain rfl : rest = ts.drop j := comes.left
        have further := comes.progress
        refine (ih comes.within (by omega) (by omega)).bind ?_
        rintro _ k others ⟨rfl, final⟩
        exact .pure ⟨rfl, final⟩

theorem program_tracks (ts : List Token) :
    Tracks ts (fun p j q => p = q ∧ j = ts.length) 0 (program ts 0) (Program.ofTokens ts) := by
  have read : Program.ofTokens ts =
      (Reader.statements (endOffset ts) ts.length ts >>= fun all => .ok ⟨all⟩) := by
    rw [Program.ofTokens]
    cases Reader.statements (endOffset ts) ts.length ts <;> rfl
  have tracks := statements_tracks (endOffset ts) (Nat.zero_le ts.length) (Nat.lt_succ_self _)
    (Nat.le_refl _)
  rw [program, read]
  refine tracks.bind ?_
  rintro _ j all ⟨rfl, final⟩
  exact .pure ⟨rfl, final⟩

end

end PhraseLang.Cursor
