import Mathlib.Data.List.TakeWhile
import PhraseLang.Proofs.Grammar.Failure

/-! Rows of tokens with more tokens behind them.
A reader decides on the tokens that it has seen, so more tokens behind them change nothing: not what
it read, and not the error it found. There are three exceptions. Tokens that are missing at the end
may come, the header of a loop may be completed, and behind the last line breaks a clause may follow.
The last one never shows as an error. -/
namespace PhraseLang.Grammar
open Reader

/-- The loop's phrase stands behind the parenthesis that closes a condition. -/
def Header (ts : List Token) : Prop :=
  ∃ run close suffix rest, closing? 0 ts = some (run, close, suffix :: rest) ∧
    suffix.kind = .keyword .whileLoop

/-- The tokens ended at `eof`. Where a run ended instead, the kinds of an operand are expected. -/
def EndsAt (eof : Nat) (e : ParseError) : Prop :=
  ∃ kinds, e = .unexpectedEnd kinds eof ∧ kinds ≠ Run.operandKinds

/-- A parenthesis of `ts` was refused, and only with `us` its header is complete. -/
def HeaderCut (ts us : List Token) (e : ParseError) : Prop :=
  ∃ front paren rest, ts = front ++ paren :: rest ∧ paren.kind = .punctuation .leftParen ∧
    e = .notAStatement paren ∧ ¬ Header rest ∧ Header (rest ++ us)

def OnlyBreaks (ts : List Token) : Prop := ∀ t ∈ ts, t.kind = .newline

theorem onlyBreaks_of_dropWhile {ts : List Token}
    (none : ts.dropWhile (fun t => t.kind == .newline) = []) : OnlyBreaks ts := by
  intro t ht
  exact beq_iff_eq.mp (List.dropWhile_eq_nil_iff.mp none t ht)

def Nowhere (_ : List Token) : Prop := False

section
variable {whole us ts : List Token} {eof eof' : Nat} {α β : Type}

/-- Of two readings the second had `us` behind its tokens: it has the error of the first one, unless
that one failed for the end of its tokens. -/
def Stands (whole us : List Token) (eof : Nat) (x y : Except ParseError α) : Prop :=
  ∀ e, x = .error e → y = .error e ∨ EndsAt eof e ∨ HeaderCut whole us e

/-- It also read what the first one read, unless that one left tokens for which `more` holds. -/
def Agree (whole us : List Token) (eof : Nat) (more : List Token → Prop)
    (x y : Except ParseError (α × List Token)) : Prop :=
  (∀ a rest, x = .ok (a, rest) → y = .ok (a, rest ++ us) ∨ more rest) ∧ Stands whole us eof x y

variable {more : List Token → Prop} {x y : Except ParseError (α × List Token)}

theorem agree_ok (a : α) (rest : List Token) :
    Agree whole us eof more (.ok (a, rest)) (.ok (a, rest ++ us)) := by
  constructor
  · rintro _ _ ⟨⟩
    exact .inl rfl
  · rintro _ ⟨⟩

theorem agree_error (e : ParseError) :
    Agree whole us eof more (.error e : Except ParseError (α × List Token)) (.error e) := by
  constructor
  · rintro _ _ ⟨⟩
  · rintro _ ⟨⟩
    exact .inl rfl

theorem agree_end {kinds : List Kind} (notRun : kinds ≠ Run.operandKinds) :
    Agree whole us eof more (.error (.unexpectedEnd kinds eof)) y := by
  constructor
  · rintro _ _ ⟨⟩
  · rintro _ ⟨⟩
    exact .inr (.inl ⟨kinds, rfl, notRun⟩)

theorem agree_more {a : α} {rest : List Token} (here : more rest) :
    Agree whole us eof more (.ok (a, rest)) y := by
  constructor
  · rintro _ _ ⟨⟩
    exact .inr here
  · rintro _ ⟨⟩

/-- An error behind the first reading stands, if one behind tokens with `more` is about their end. -/
theorem Agree.stands_bind {f g : α × List Token → Except ParseError β}
    (first : Agree whole us eof more x y)
    (next : ∀ a rest, x = .ok (a, rest) → Stands whole us eof (f (a, rest)) (g (a, rest ++ us)))
    (ends : ∀ a rest e, more rest → f (a, rest) = .error e → EndsAt eof e) :
    Stands whole us eof (x >>= f) (y >>= g) := by
  intro e failed
  rcases error_of_bind failed with here | ⟨⟨a, rest⟩, read, later⟩
  · rcases first.2 e here with same | cut
    · exact .inl (by rw [same]; rfl)
    · exact .inr cut
  · rcases first.1 a rest read with same | open_
    · rw [same]
      exact next a rest read e later
    · exact .inr (.inl (ends a rest e open_ later))

theorem Stands.map {x y : Except ParseError α} (first : Stands whole us eof x y) (f : α → β) :
    Stands whole us eof (x >>= fun a => .ok (f a)) (y >>= fun a => .ok (f a)) := by
  intro e failed
  rcases error_of_bind failed with here | ⟨a, _, never⟩
  · rcases first e here with same | cut
    · exact .inl (by rw [same]; rfl)
    · exact .inr cut
  · cases never

theorem Agree.bind {f g : α × List Token → Except ParseError (β × List Token)}
    (first : Agree whole us eof Nowhere x y)
    (next : ∀ a rest, x = .ok (a, rest) →
      Agree whole us eof more (f (a, rest)) (g (a, rest ++ us))) :
    Agree whole us eof more (x >>= f) (y >>= g) := by
  constructor
  · intro b rest' read
    obtain ⟨⟨a, rest⟩, here, later⟩ := ok_of_bind read
    rw [(first.1 a rest here).resolve_right id]
    exact (next a rest here).1 b rest' later
  · exact first.stands_bind (fun a rest here => (next a rest here).2) fun _ _ _ never => never.elim

theorem Agree.bind_same {r : Except ParseError β} {f g : β → Except ParseError (α × List Token)}
    (next : ∀ b, r = .ok b → Agree whole us eof more (f b) (g b)) :
    Agree whole us eof more (r >>= f) (r >>= g) := by
  cases r with
  | ok b => exact next b rfl
  | error e => exact agree_error e

theorem Agree.map {f g : α × List Token → Except ParseError (β × List Token)}
    (first : Agree whole us eof more x y)
    (next : ∀ a rest, ∃ b, f (a, rest) = .ok (b, rest) ∧ g (a, rest ++ us) = .ok (b, rest ++ us)) :
    Agree whole us eof more (x >>= f) (y >>= g) := by
  have noError (a : α) (rest : List Token) (e : ParseError) : f (a, rest) ≠ .error e := by
    obtain ⟨b, here, _⟩ := next a rest
    intro failed
    cases here.symm.trans failed
  constructor
  · intro c rest' read
    obtain ⟨⟨a, rest⟩, here, later⟩ := ok_of_bind read
    obtain ⟨b, atFirst, atSecond⟩ := next a rest
    obtain ⟨rfl, rfl⟩ : b = c ∧ rest = rest' := by simpa using atFirst.symm.trans later
    rcases first.1 a rest here with same | open_
    · exact .inl (by rw [same]; exact atSecond)
    · exact .inr open_
  · apply first.stands_bind
    · exact fun a rest _ e failed => absurd failed (noError a rest e)
    · exact fun a rest e _ failed => absurd failed (noError a rest e)

theorem expect_agree {kinds : List Kind} (notRun : kinds ≠ Run.operandKinds) :
    Agree whole us eof more (expect eof kinds ts) (expect eof' kinds (ts ++ us)) := by
  cases ts with
  | nil => exact agree_end notRun
  | cons t ts =>
    rw [List.cons_append, expect, expect]
    by_cases allowed : t.kind ∈ kinds
    · rw [if_pos allowed, if_pos allowed]
      exact agree_ok t ts
    · rw [if_neg allowed, if_neg allowed]
      exact agree_error _

theorem through_agree {stop : Kind} :
    Agree whole us eof more (through eof stop ts) (through eof' stop (ts ++ us)) := by
  by_cases missing : ts.dropWhile (fun t => t.kind != stop) = []
  · have failed : through eof stop ts = .error (.unexpectedEnd [stop] eof) := by
      simp only [through, missing]
    rw [failed]
    exact agree_end (by simp [Run.operandKinds])
  · obtain ⟨t, rest, found⟩ := List.exists_cons_of_ne_nil missing
    have isStop : t.kind = stop := by
      have head := List.head?_dropWhile_not (fun t : Token => t.kind != stop) ts
      simpa [found] using head
    have cut := List.takeWhile_append_dropWhile (p := fun t => t.kind != stop) (l := ts)
    rw [found] at cut
    have free : ∀ u ∈ ts.takeWhile (fun t => t.kind != stop), u.kind ≠ stop := by
      intro u hu
      exact bne_iff_ne.mp (List.all_eq_true.mp List.all_takeWhile u hu)
    generalize ts.takeWhile (fun t => t.kind != stop) = run at cut free
    subst cut
    rw [List.append_assoc, List.cons_append, through_run _ free isStop, through_run _ free isStop]
    exact agree_ok _ _

/-- A parenthesis that is closed is closed at the same place with more tokens behind. -/
theorem closing?_append {depth : Nat} {run rest : List Token} {close : Token}
    (found : closing? depth ts = some (run, close, rest)) (us : List Token) :
    closing? depth (ts ++ us) = some (run, close, rest ++ us) := by
  induction ts generalizing depth run with
  | nil => cases found
  | cons t ts ih =>
    have inside {deeper : Nat} (h : ((closing? deeper ts).map fun p =>
        (t :: p.1, p.2.1, p.2.2)) = some (run, close, rest)) :
        ((closing? deeper (ts ++ us)).map fun p =>
          (t :: p.1, p.2.1, p.2.2)) = some (run, close, rest ++ us) := by
      obtain ⟨⟨run', close', rest'⟩, later, same⟩ := Option.map_eq_some_iff.mp h
      cases same
      rw [ih later]
      rfl
    rw [List.cons_append]
    unfold closing? at found ⊢
    split at found
    · rename_i isOpen
      rw [if_pos isOpen]
      exact inside found
    · rename_i notOpen
      rw [if_neg notOpen]
      split at found
      · rename_i isClose
        rw [if_pos isClose]
        split at found
        · cases found
          rfl
        · exact inside found
      · rename_i notClose
        rw [if_neg notClose]
        exact inside found

theorem assignment_agree (first : Token) :
    Agree whole us eof more (assignment eof first ts) (assignment eof' first (ts ++ us)) := by
  refine (expect_agree (by decide)).bind fun name ts₁ _ => ?_
  refine (expect_agree (by decide)).bind fun becomes ts₂ _ => ?_
  refine through_agree.bind fun p ts₃ _ => ?_
  exact .bind_same fun value _ => agree_ok _ _

end

theorem whileLoop_of_not_header {eof : Nat} {body : Reader (List Statement)} {first : Token}
    {ts : List Token} (refused : ¬ Header ts) :
    whileLoop eof body first ts = .error (.notAStatement first) := by
  unfold whileLoop
  split
  · rename_i run close suffix rest found
    have notSuffix : suffix.kind ≠ .keyword .whileLoop :=
      fun isSuffix => refused ⟨run, close, suffix, rest, found, isSuffix⟩
    rw [if_neg notSuffix]
  · rfl

section
variable {whole us : List Token} {eof eof' n : Nat} {body body' : Reader (List Statement)}

/-- Two readers of bodies that agree on the tokens of the row, of which there are at most `n`. -/
def BodiesAgree (whole us : List Token) (eof n : Nat) (body body' : Reader (List Statement)) :
    Prop :=
  ∀ ts, ts <:+ whole → ts.length ≤ n → Agree whole us eof Nowhere (body ts) (body' (ts ++ us))

variable (bodies : BodiesAgree whole us eof n body body') {more : List Token → Prop}
  {ts : List Token}
include bodies

theorem block_agree (part : ts <:+ whole) (bound : ts.length ≤ n + 1) :
    Agree whole us eof more (block eof body ts) (block eof' body' (ts ++ us)) := by
  refine (expect_agree (by decide)).bind fun opening ts₁ read => ?_
  obtain ⟨rfl, _⟩ := expect_eq_ok read
  refine (expect_agree (by decide)).bind fun lineBreak ts₂ read => ?_
  obtain ⟨rfl, _⟩ := expect_eq_ok read
  refine (expect_agree (by decide)).bind fun indent ts₃ read => ?_
  obtain ⟨rfl, _⟩ := expect_eq_ok read
  simp only [List.length_cons] at bound
  have inner : ts₃ <:+ whole := by
    apply List.IsSuffix.trans _ part
    exact ⟨[opening, lineBreak, indent], rfl⟩
  refine (bodies ts₃ inner (by omega)).bind fun found ts₄ _ => ?_
  exact (expect_agree (by decide)).bind fun closing ts₅ _ => agree_ok _ _

theorem guarded_agree (part : ts <:+ whole) (bound : ts.length ≤ n) :
    Agree whole us eof more (guarded eof body ts) (guarded eof' body' (ts ++ us)) := by
  refine through_agree.bind fun p ts₁ read => ?_
  obtain ⟨run, brace⟩ := p
  obtain ⟨rfl, _⟩ := through_eq_ok read
  have inner : brace :: ts₁ <:+ whole := (List.suffix_append _ _).trans part
  have fewer : (brace :: ts₁).length ≤ n := by
    rw [List.length_append] at bound
    omega
  refine .bind_same fun condition _ => ?_
  exact (block_agree bodies inner (by omega)).bind fun found ts₂ _ => agree_ok _ _

theorem whileLoop_agree {first : Token} (isOpen : first.kind = .punctuation .leftParen)
    (part : first :: ts <:+ whole) (bound : ts.length ≤ n) :
    Agree whole us eof more (whileLoop eof body first ts)
      (whileLoop eof' body' first (ts ++ us)) := by
  by_cases header : Header ts
  · obtain ⟨run, close, suffix, rest, found, isSuffix⟩ := header
    obtain ⟨rfl, _⟩ := closing?_eq_some found
    have inner : rest <:+ whole := by
      apply List.IsSuffix.trans _ part
      exact ⟨first :: run ++ [close, suffix], by simp⟩
    simp only [List.length_append, List.length_cons] at bound
    simp only [whileLoop, found, closing?_append found us, List.cons_append, if_pos isSuffix]
    refine .bind_same fun condition _ => ?_
    exact (block_agree bodies inner (by omega)).bind fun found ts₁ _ => agree_ok _ _
  · rw [whileLoop_of_not_header header]
    by_cases header' : Header (ts ++ us)
    · obtain ⟨front, cut⟩ := part
      constructor
      · rintro _ _ ⟨⟩
      · rintro _ ⟨⟩
        exact .inr (.inr ⟨front, first, ts, cut.symm, isOpen, rfl, header, header'⟩)
    · rw [whileLoop_of_not_header header']
      exact agree_error _

theorem countedLoop_agree (first : Token) (part : ts <:+ whole) (bound : ts.length ≤ n) :
    Agree whole us eof more (countedLoop eof body first ts)
      (countedLoop eof' body' first (ts ++ us)) := by
  unfold countedLoop
  split
  · exact agree_error _
  · refine (expect_agree (by decide)).bind fun binding ts₁ read => ?_
    obtain ⟨rfl, _⟩ := expect_eq_ok read
    have inner : ts₁ <:+ whole := (List.suffix_cons binding ts₁).trans part
    rw [List.length_cons] at bound
    exact (block_agree bodies inner (by omega)).bind fun found ts₂ _ => agree_ok _ _

variable (sound : Sound body)
include sound

/-- The only reader that looks past its end: behind line breaks a clause may follow. -/
theorem alternative_agree {k k' : Nat} (stop : Nat) (part : ts <:+ whole) (bound : ts.length ≤ n)
    (enough : ts.length ≤ k) (enough' : (ts ++ us).length ≤ k') :
    Agree whole us eof OnlyBreaks (alternative eof body k stop ts)
      (alternative eof' body' k' stop (ts ++ us)) := by
  induction k generalizing ts k' stop with
  | zero =>
    obtain rfl := List.length_eq_zero_iff.mp (Nat.le_zero.mp enough)
    exact agree_more (by simp [OnlyBreaks])
  | succ k ih =>
    by_cases none : ts.dropWhile (fun t => t.kind == .newline) = []
    · have read : alternative eof body (k + 1) stop ts = .ok ((.nothing, stop), ts) := by
        simp only [alternative, none]
      rw [read]
      exact agree_more (onlyBreaks_of_dropWhile none)
    · obtain ⟨t, rest, found⟩ := List.exists_cons_of_ne_nil none
      have found' : (ts ++ us).dropWhile (fun t => t.kind == .newline) = t :: (rest ++ us) := by
        rw [List.dropWhile_append, found]
        rfl
      have behind : t :: rest <:+ ts := found ▸ List.dropWhile_suffix _
      have size := behind.length_le
      rw [List.length_cons] at size
      have inner : rest <:+ whole := (List.suffix_cons t rest).trans (behind.trans part)
      cases k' with
      | zero =>
        rw [List.length_append] at enough'
        omega
      | succ k' =>
        simp only [alternative, found, found']
        by_cases isElseIf : t.kind = .keyword .elseIf
        · rw [if_pos isElseIf, if_pos isElseIf]
          refine (guarded_agree bodies inner (by omega)).bind fun p ts₁ read => ?_
          obtain ⟨condition, statements, stop⟩ := p
          obtain ⟨c, b, rfl, -⟩ := guarded_sound sound read
          have tail : ts₁ <:+ whole := (List.suffix_append _ _).trans inner
          simp only [List.length_append] at size enough'
          refine (ih stop tail (by omega) (by omega) ?_).map fun q ts₂ => ⟨_, rfl, rfl⟩
          rw [List.length_append]
          omega
        · rw [if_neg isElseIf, if_neg isElseIf]
          by_cases isElse : t.kind = .keyword .otherwise
          · rw [if_pos isElse, if_pos isElse]
            exact (block_agree bodies inner (by omega)).bind fun found ts₁ _ => agree_ok _ _
          · rw [if_neg isElse, if_neg isElse]
            exact agree_ok _ _

theorem conditional_agree {n' : Nat} (first : Token) (part : ts <:+ whole) (bound : ts.length ≤ n)
    (enough : (ts ++ us).length ≤ n') :
    Agree whole us eof OnlyBreaks (conditional eof body n first ts)
      (conditional eof' body' n' first (ts ++ us)) := by
  refine (guarded_agree bodies part bound).bind fun p ts₁ read => ?_
  obtain ⟨condition, statements, stop⟩ := p
  obtain ⟨c, b, rfl, -⟩ := guarded_sound sound read
  have tail : ts₁ <:+ whole := (List.suffix_append _ _).trans part
  simp only [List.length_append] at bound enough
  refine (alternative_agree bodies sound stop tail (by omega) (by omega) ?_).map
    fun q ts₂ => ⟨_, rfl, rfl⟩
  rw [List.length_append]
  omega

theorem statement_agree {n' : Nat} (part : ts <:+ whole) (bound : ts.length ≤ n + 1)
    (enough : (ts ++ us).length ≤ n' + 1) :
    Agree whole us eof OnlyBreaks (statement eof body n ts)
      (statement eof' body' n' (ts ++ us)) := by
  cases ts with
  | nil => exact agree_end (by decide)
  | cons t ts =>
    have inner : ts <:+ whole := (List.suffix_cons t ts).trans part
    have fewer : ts.length ≤ n := Nat.le_of_succ_le_succ bound
    rw [List.cons_append, statement, statement]
    split
    · exact countedLoop_agree bodies t inner fewer
    · exact conditional_agree bodies sound t inner fewer (Nat.le_of_succ_le_succ enough)
    · exact whileLoop_agree bodies ‹_› part fewer
    · exact assignment_agree t
    · exact agree_error _

end

theorem body_of_onlyBreaks {eof n : Nat} {ts : List Token} (breaks : OnlyBreaks ts) :
    body eof n ts = .error (.unexpectedEnd [.dedent] eof) := by
  induction n generalizing ts with
  | zero => rfl
  | succ n ih =>
    cases ts with
    | nil => rfl
    | cons t ts =>
      simp only [body, breaks t List.mem_cons_self]
      exact ih fun u hu => breaks u (List.mem_cons_of_mem t hu)

theorem statements_of_onlyBreaks {eof n : Nat} {ts : List Token} (breaks : OnlyBreaks ts) :
    statements eof n ts = .ok [] := by
  induction n generalizing ts with
  | zero => rfl
  | succ n ih =>
    cases ts with
    | nil => rfl
    | cons t ts =>
      simp only [statements, breaks t List.mem_cons_self]
      exact ih fun u hu => breaks u (List.mem_cons_of_mem t hu)

section
variable {whole us : List Token} {eof : Nat}

theorem body_agree (eof' : Nat) {n n' : Nat} (room : n + us.length ≤ n') :
    BodiesAgree whole us eof n (body eof n) (body eof' n') := by
  induction n generalizing n' with
  | zero => exact fun ts _ _ => agree_end (by decide)
  | succ n ih =>
    intro ts part bound
    obtain ⟨m, rfl⟩ : ∃ m, n' = m + 1 := ⟨n' - 1, by omega⟩
    have bodies : BodiesAgree whole us eof n (body eof n) (body eof' m) := ih (by omega)
    cases ts with
    | nil => exact agree_end (by decide)
    | cons t ts =>
      have inner : ts <:+ whole := (List.suffix_cons t ts).trans part
      have fewer : ts.length ≤ n := Nat.le_of_succ_le_succ bound
      have enough : (t :: ts ++ us).length ≤ m + 1 := by
        simp only [List.length_append, List.length_cons] at bound ⊢
        omega
      have first : Agree whole us eof OnlyBreaks (statement eof (body eof n) n (t :: ts))
          (statement eof' (body eof' m) m (t :: ts ++ us)) :=
        statement_agree bodies (body_sound eof n) part bound enough
      have next (s : Statement) (ts₁ : List Token)
          (read : statement eof (body eof n) n (t :: ts) = .ok (s, ts₁)) :
          Agree whole us eof Nowhere
            (body eof n ts₁ >>= fun p => .ok (s :: p.1, p.2))
            (body eof' m (ts₁ ++ us) >>= fun p => .ok (s :: p.1, p.2)) := by
        have later := statement_behind read
        have left := Nat.le_trans later.length_le fewer
        exact (bodies ts₁ (later.trans inner) left).bind fun others ts₂ _ => agree_ok _ _
      rw [List.cons_append] at first ⊢
      rw [body, body]
      split
      · exact agree_ok _ _
      · exact bodies ts inner fewer
      · constructor
        · intro ss rest read
          obtain ⟨⟨s, ts₁⟩, here, later⟩ := ok_of_bind read
          rcases first.1 s ts₁ here with same | breaks
          · rw [same]
            exact (next s ts₁ here).1 ss rest later
          · obtain ⟨_, never, _⟩ := ok_of_bind later
            rw [body_of_onlyBreaks breaks] at never
            cases never
        · refine first.stands_bind (fun s ts₁ here => ?_) fun s ts₁ e breaks failed => ?_
          · exact (next s ts₁ here).2
          · -- Behind line breaks alone the end of the indentation is missing.
            simp only [body_of_onlyBreaks breaks] at failed
            cases failed
            exact ⟨_, rfl, by decide⟩

theorem statements_stand (eof' : Nat) {n n' : Nat} {ts : List Token} (room : n + us.length ≤ n')
    (part : ts <:+ whole) (bound : ts.length ≤ n) :
    Stands whole us eof (statements eof n ts) (statements eof' n' (ts ++ us)) := by
  induction n generalizing n' ts with
  | zero => rintro _ ⟨⟩
  | succ n ih =>
    obtain ⟨m, rfl⟩ : ∃ m, n' = m + 1 := ⟨n' - 1, by omega⟩
    have bodies : BodiesAgree whole us eof n (body eof n) (body eof' m) :=
      body_agree eof' (by omega)
    cases ts with
    | nil => rintro _ ⟨⟩
    | cons t ts =>
      have inner : ts <:+ whole := (List.suffix_cons t ts).trans part
      have fewer : ts.length ≤ n := Nat.le_of_succ_le_succ bound
      have enough : (t :: ts ++ us).length ≤ m + 1 := by
        simp only [List.length_append, List.length_cons] at bound ⊢
        omega
      rw [List.cons_append, statements, statements]
      split
      · exact ih (by omega) inner fewer
      · have first : Agree whole us eof Nowhere (block eof (body eof n) (t :: ts))
            (block eof' (body eof' m) (t :: (ts ++ us))) := block_agree bodies part bound
        refine first.stands_bind (fun p ts₁ read => ?_) fun _ _ _ never => never.elim
        obtain ⟨inside, stop⟩ := p
        have later := block_behind read
        have left := Nat.le_trans later.length_le fewer
        have rest : Stands whole us eof (statements eof n ts₁) (statements eof' m (ts₁ ++ us)) :=
          ih (by omega) (later.trans inner) left
        exact rest.map fun others => inside ++ others
      · have first : Agree whole us eof OnlyBreaks (statement eof (body eof n) n (t :: ts))
            (statement eof' (body eof' m) m (t :: (ts ++ us))) :=
          statement_agree bodies (body_sound eof n) part bound enough
        refine first.stands_bind (fun s ts₁ read => ?_) fun s ts₁ e breaks failed => ?_
        · have later := statement_behind read
          have left := Nat.le_trans later.length_le fewer
          have rest : Stands whole us eof (statements eof n ts₁) (statements eof' m (ts₁ ++ us)) :=
            ih (by omega) (later.trans inner) left
          exact rest.map fun others => s :: others
        · simp only [statements_of_onlyBreaks breaks] at failed
          cases failed

end

/-- More tokens behind a row leave its error as it is, unless tokens were missing at the end of the
row or it refused a parenthesis. A front of a row that is read lacks tokens at its end, or cuts the
header of a loop. -/
theorem ofTokens_append_of_error {ts : List Token} {e : ParseError}
    (failed : Program.ofTokens ts = .error e) (us : List Token) :
    (Program.ofTokens (ts ++ us) = .error e ∨ EndsAt (endOffset ts) e ∨
      ∃ paren, paren.kind = .punctuation .leftParen ∧ e = .notAStatement paren) ∧
    ∀ p, Program.ofTokens (ts ++ us) = .ok p → EndsAt (endOffset ts) e ∨ HeaderCut ts us e := by
  have room : ts.length + us.length ≤ (ts ++ us).length := by rw [List.length_append]
  have both : Stands ts us (endOffset ts) (statements (endOffset ts) ts.length ts)
      (statements (endOffset (ts ++ us)) (ts ++ us).length (ts ++ us)) :=
    statements_stand _ room List.suffix_rfl (Nat.le_refl _)
  have stands := both e (ofTokens_eq_error_iff.mp failed)
  rw [← ofTokens_eq_error_iff] at stands
  constructor
  · rcases stands with same | ended | ⟨_, paren, _, _, isOpen, refused, _⟩
    · exact .inl same
    · exact .inr (.inl ended)
    · exact .inr (.inr ⟨paren, isOpen, refused⟩)
  · intro p read
    apply stands.resolve_left
    intro failed
    cases read.symm.trans failed

/-- The loop `($a) yarp'`, cut in front of its phrase. -/
theorem ofTokens_append_of_error_header :
    let paren : Token := ⟨.punctuation .leftParen, "(", ⟨0, 1⟩⟩
    let cut : List Token :=
      [paren, ⟨.constant, "a", ⟨1, 3⟩⟩, ⟨.punctuation .rightParen, ")", ⟨3, 4⟩⟩]
    let rest : List Token :=
      [⟨.keyword .whileLoop, "yarp'", ⟨5, 10⟩⟩, ⟨.punctuation .leftCurly, "\x7b", ⟨11, 12⟩⟩,
        ⟨.newline, "\n", ⟨12, 13⟩⟩, ⟨.indent, "", ⟨13, 15⟩⟩, ⟨.newline, "\n", ⟨15, 16⟩⟩,
        ⟨.dedent, "", ⟨16, 16⟩⟩, ⟨.punctuation .rightCurly, "\x7d", ⟨16, 17⟩⟩]
    Program.ofTokens cut = .error (.notAStatement paren) ∧
      ∃ p, Program.ofTokens (cut ++ rest) = .ok p ∧ HeaderCut cut rest (.notAStatement paren) := by
  intro paren cut rest
  have failed : Program.ofTokens cut = .error (.notAStatement paren) := rfl
  obtain ⟨p, read⟩ : ∃ p, Program.ofTokens (cut ++ rest) = .ok p := ⟨_, rfl⟩
  refine ⟨failed, p, read, ?_⟩
  rcases (ofTokens_append_of_error failed rest).2 p read with ⟨_, ended, _⟩ | header
  · cases ended
  · exact header

end PhraseLang.Grammar
