import PhraseLang.Proofs.Grammar.Run

/-! What is read has a derivation.
Each reader that succeeds has taken the tokens of a derivation off the front, and returns its tree.
The readers of the bodies are a parameter, as they are in the readers themselves. -/
namespace PhraseLang.Grammar
open Reader

theorem ok_of_bind {ε α β : Type} {x : Except ε α} {f : α → Except ε β} {b : β}
    (h : (x >>= f) = .ok b) : ∃ a, x = .ok a ∧ f a = .ok b := by
  cases x with
  | error e => cases h
  | ok a => exact ⟨a, rfl, h⟩

theorem exists_ok_of_isSome {α : Type} {x : Except ParseError α}
    (h : x.toOption.isSome = true) : ∃ a, x = .ok a := by
  cases x with
  | error e => cases h
  | ok a => exact ⟨a, rfl⟩

theorem error_of_bind {α β : Type} {x : Except ParseError α} {f : α → Except ParseError β}
    {e : ParseError} (h : (x >>= f) = .error e) : x = .error e ∨ ∃ a, x = .ok a ∧ f a = .error e := by
  cases x with
  | error d =>
    cases h
    exact .inl rfl
  | ok a => exact .inr ⟨a, rfl, h⟩

theorem expect_eq_ok {eof : Nat} {kinds : List Kind} {ts rest : List Token} {t : Token}
    (read : expect eof kinds ts = .ok (t, rest)) : ts = t :: rest ∧ t.kind ∈ kinds := by
  cases ts with
  | nil => cases read
  | cons x ts =>
    by_cases allowed : x.kind ∈ kinds
    · rw [expect, if_pos allowed] at read
      cases read
      exact ⟨rfl, allowed⟩
    · rw [expect, if_neg allowed] at read
      cases read

theorem through_eq_ok {eof : Nat} {stop : Kind} {ts run rest : List Token} {t : Token}
    (read : through eof stop ts = .ok ((run, t), rest)) :
    ts = run ++ t :: rest ∧ t.kind = stop := by
  have whole := List.takeWhile_append_dropWhile (p := fun t => t.kind != stop) (l := ts)
  unfold through at read
  split at read
  · cases read
  · rename_i x tail behind
    cases read
    refine ⟨by rw [← behind, whole], ?_⟩
    have head := List.head?_dropWhile_not (fun t : Token => t.kind != stop) ts
    simpa [behind] using head

theorem closing?_eq_some {depth : Nat} {ts run rest : List Token} {close : Token}
    (found : closing? depth ts = some (run, close, rest)) :
    ts = run ++ close :: rest ∧ close.kind = .punctuation .rightParen := by
  induction ts generalizing depth run with
  | nil => cases found
  | cons t ts ih =>
    have inside {deeper : Nat} (h : ((closing? deeper ts).map fun p =>
        (t :: p.1, p.2.1, p.2.2)) = some (run, close, rest)) :
        t :: ts = run ++ close :: rest ∧ close.kind = .punctuation .rightParen := by
      obtain ⟨⟨run', close', rest'⟩, later, same⟩ := Option.map_eq_some_iff.mp h
      cases same
      obtain ⟨rfl, kind⟩ := ih later
      exact ⟨rfl, kind⟩
    unfold closing? at found
    split at found
    · exact inside found
    · split at found
      · rename_i isClose
        split at found
        · cases found
          exact ⟨rfl, isClose⟩
        · exact inside found
      · exact inside found

/-- A reader of bodies that takes the tokens of a body and the dedent behind it. -/
def Sound (read : Reader (List Statement)) : Prop :=
  ∀ ts statements rest, read ts = .ok (statements, rest) →
    ∃ (body : Body) (dedent : Word [.dedent]),
      ts = body.tokens ++ dedent.val :: rest ∧ body.trees = statements

/-- The line breaks in front of a clause. -/
theorem exists_breaks (ts : List Token) :
    ∃ breaks : List (Word [.newline]),
      ts = words breaks ++ ts.dropWhile fun t => t.kind == .newline := by
  induction ts with
  | nil => exact ⟨[], rfl⟩
  | cons t ts ih =>
    by_cases isBreak : t.kind = .newline
    · obtain ⟨breaks, same⟩ := ih
      refine ⟨⟨t, List.mem_singleton.mpr isBreak⟩ :: breaks, ?_⟩
      simp only [words, List.map_cons, List.cons_append, List.dropWhile_cons, isBreak,
        beq_self_eq_true, if_true]
      exact congrArg (t :: ·) same
    · exact ⟨[], by simp [words, isBreak]⟩

/-- The tokens `ts` down to `rest` are those of clauses; a block in front of them ends at `stop`,
and the last block of all at `stop'`. -/
def HasClauses (ts rest : List Token) (tree : Alternative) (stop stop' : Nat) : Prop :=
  ∃ c : Clauses, ts = c.tokens ++ rest ∧ c.tree = tree ∧
    ∀ front, endOffset front = stop → endOffset (front ++ c.tokens) = stop'

theorem nothing_sound {ts rest : List Token} {tree : Alternative} {stop stop' : Nat}
    (read : (.ok ((.nothing, stop), ts) : Except ParseError _) = .ok ((tree, stop'), rest)) :
    HasClauses ts rest tree stop stop' := by
  cases read
  exact ⟨.nothing, rfl, rfl, fun front h => by rw [Clauses.tokens, List.append_nil, h]⟩

theorem assignment_sound {eof : Nat} (first : Word [.keyword .define]) {ts rest : List Token}
    {s : Statement} (read : assignment eof first ts = .ok (s, rest)) :
    ∃ stmt : Stmt, first.val :: ts = stmt.tokens ++ rest ∧ stmt.tree = s := by
  obtain ⟨⟨name, ts₁⟩, readName, read⟩ := ok_of_bind read
  obtain ⟨⟨becomes, ts₂⟩, readBecomes, read⟩ := ok_of_bind read
  obtain ⟨⟨⟨run, last⟩, ts₃⟩, readRun, read⟩ := ok_of_bind read
  obtain ⟨value, readValue, read⟩ := ok_of_bind read
  cases read
  obtain ⟨rfl, isName⟩ := expect_eq_ok readName
  obtain ⟨rfl, isBecomes⟩ := expect_eq_ok readBecomes
  obtain ⟨rfl, isLast⟩ := through_eq_ok readRun
  obtain ⟨v, rfl, rfl⟩ := read_true_eq_ok_iff.mp readValue
  refine ⟨.assign first ⟨name, isName⟩ ⟨becomes, isBecomes⟩ v
    ⟨last, List.mem_singleton.mpr isLast⟩, ?_, ?_⟩
  · simp [Stmt.tokens]
  · simp only [Stmt.tree, Stmt.tokens, spanOf_cons]
    rw [endOffset_cons _ (by simp), endOffset_cons _ (by simp), endOffset_cons _ (by simp),
      endOffset_append _ (by simp)]
    rfl

section
variable {eof : Nat} {body : Reader (List Statement)} (sound : Sound body)
include sound

theorem block_sound {ts rest : List Token} {statements : List Statement} {stop : Nat}
    (read : block eof body ts = .ok ((statements, stop), rest)) :
    ∃ b : Block, ts = b.tokens ++ rest ∧ b.trees = statements ∧ endOffset b.tokens = stop := by
  obtain ⟨⟨opening, ts₁⟩, readOpening, read⟩ := ok_of_bind read
  obtain ⟨⟨lineBreak, ts₂⟩, readBreak, read⟩ := ok_of_bind read
  obtain ⟨⟨indent, ts₃⟩, readIndent, read⟩ := ok_of_bind read
  obtain ⟨⟨found, ts₄⟩, readBody, read⟩ := ok_of_bind read
  obtain ⟨⟨closing, ts₅⟩, readClosing, read⟩ := ok_of_bind read
  cases read
  obtain ⟨rfl, isOpening⟩ := expect_eq_ok readOpening
  obtain ⟨rfl, isBreak⟩ := expect_eq_ok readBreak
  obtain ⟨rfl, isIndent⟩ := expect_eq_ok readIndent
  obtain ⟨inner, dedent, rfl, trees⟩ := sound _ _ _ readBody
  obtain ⟨rfl, isClosing⟩ := expect_eq_ok readClosing
  refine ⟨.braces ⟨opening, isOpening⟩ ⟨lineBreak, isBreak⟩ ⟨indent, isIndent⟩ inner dedent
    ⟨closing, isClosing⟩, ?_, trees, ?_⟩
  · simp [Block.tokens]
  · simp only [Block.tokens]
    rw [endOffset_cons _ (by simp), endOffset_cons _ (by simp), endOffset_cons _ (by simp),
      endOffset_append _ (by simp)]
    rfl

theorem guarded_sound {ts rest : List Token} {condition : Expr} {statements : List Statement}
    {stop : Nat} (read : guarded eof body ts = .ok ((condition, statements, stop), rest)) :
    ∃ (c : Chain) (b : Block), ts = c.tokens ++ b.tokens ++ rest ∧ c.tree = condition ∧
      b.trees = statements ∧ endOffset b.tokens = stop := by
  obtain ⟨⟨⟨run, brace⟩, ts₁⟩, readRun, read⟩ := ok_of_bind read
  obtain ⟨found, readCondition, read⟩ := ok_of_bind read
  obtain ⟨⟨⟨inner, last⟩, ts₂⟩, readBlock, read⟩ := ok_of_bind read
  cases read
  obtain ⟨rfl, _⟩ := through_eq_ok readRun
  obtain ⟨c, rfl, tree⟩ := read_false_eq_ok_iff.mp readCondition
  obtain ⟨b, same, trees, last⟩ := block_sound sound readBlock
  exact ⟨c, b, by rw [same, List.append_assoc], tree, trees, last⟩

theorem alternative_sound {n : Nat} {ts rest : List Token} {stop stop' : Nat} {tree : Alternative}
    (read : alternative eof body n stop ts = .ok ((tree, stop'), rest)) :
    HasClauses ts rest tree stop stop' := by
  induction n generalizing ts tree stop with
  | zero => exact nothing_sound read
  | succ n ih =>
    obtain ⟨breaks, cut⟩ := exists_breaks ts
    unfold alternative at read
    split at read
    · exact nothing_sound read
    · rename_i t tail behind
      rw [behind] at cut
      split at read
      · rename_i isElseIf
        obtain ⟨⟨⟨condition, inner, last⟩, ts₁⟩, readGuarded, read⟩ := ok_of_bind read
        obtain ⟨⟨⟨more, last'⟩, ts₂⟩, readMore, read⟩ := ok_of_bind read
        cases read
        obtain ⟨c, b, rfl, rfl, rfl, ends⟩ := guarded_sound sound readGuarded
        obtain ⟨d, rfl, rfl, ends'⟩ := ih readMore
        refine ⟨.elseIf breaks ⟨t, List.mem_singleton.mpr isElseIf⟩ c b d, ?_, rfl, ?_⟩
        · simp [cut, Clauses.tokens]
        · intro front _
          -- The clauses behind this one begin where its block ends.
          have final := ends' b.tokens ends
          have regroup : front ++ (words breaks ++ t :: (c.tokens ++ b.tokens ++ d.tokens)) =
              (front ++ words breaks ++ t :: c.tokens) ++ (b.tokens ++ d.tokens) := by simp
          rw [Clauses.tokens, regroup,
            endOffset_append _ (List.append_ne_nil_of_left_ne_nil b.tokens_ne_nil _), final]
      · split at read
        · rename_i isElse
          obtain ⟨⟨⟨inner, last⟩, ts₁⟩, readBlock, read⟩ := ok_of_bind read
          cases read
          obtain ⟨b, rfl, rfl, ends⟩ := block_sound sound readBlock
          refine ⟨.otherwise breaks ⟨t, List.mem_singleton.mpr isElse⟩ b, ?_, rfl, ?_⟩
          · simp [cut, Clauses.tokens]
          · intro front _
            rw [Clauses.tokens, endOffset_append _ (by simp), endOffset_append _ (by simp),
              endOffset_cons _ b.tokens_ne_nil, ends]
        · exact nothing_sound read

theorem conditional_sound {n : Nat} (first : Word [.keyword .ifThen]) {ts rest : List Token}
    {s : Statement} (read : conditional eof body n first ts = .ok (s, rest)) :
    ∃ stmt : Stmt, first.val :: ts = stmt.tokens ++ rest ∧ stmt.tree = s := by
  obtain ⟨⟨⟨condition, inner, stop⟩, ts₁⟩, readGuarded, read⟩ := ok_of_bind read
  obtain ⟨⟨⟨clauses, stop'⟩, ts₂⟩, readClauses, read⟩ := ok_of_bind read
  cases read
  obtain ⟨c, b, rfl, rfl, rfl, ends⟩ := guarded_sound sound readGuarded
  obtain ⟨d, rfl, rfl, ends'⟩ := alternative_sound sound readClauses
  refine ⟨.conditional first c b d, by simp [Stmt.tokens], ?_⟩
  have final := ends' b.tokens ends
  have nonempty := List.append_ne_nil_of_left_ne_nil b.tokens_ne_nil d.tokens
  simp only [Stmt.tree, Stmt.tokens, spanOf_cons]
  rw [List.append_assoc, endOffset_cons _ (List.append_ne_nil_of_right_ne_nil _ nonempty),
    endOffset_append _ nonempty, final]

theorem whileLoop_sound (first : Word [.punctuation .leftParen]) {ts rest : List Token}
    {s : Statement} (read : whileLoop eof body first ts = .ok (s, rest)) :
    ∃ stmt : Stmt, first.val :: ts = stmt.tokens ++ rest ∧ stmt.tree = s := by
  unfold whileLoop at read
  split at read
  · rename_i run close suffix ts₁ found
    split at read
    · rename_i isSuffix
      obtain ⟨condition, readCondition, read⟩ := ok_of_bind read
      obtain ⟨⟨⟨inner, stop⟩, ts₂⟩, readBlock, read⟩ := ok_of_bind read
      cases read
      obtain ⟨rfl, isClose⟩ := closing?_eq_some found
      obtain ⟨c, rfl, rfl⟩ := read_false_eq_ok_iff.mp readCondition
      obtain ⟨b, rfl, rfl, ends⟩ := block_sound sound readBlock
      refine ⟨.whileLoop first c ⟨close, List.mem_singleton.mpr isClose⟩
        ⟨suffix, List.mem_singleton.mpr isSuffix⟩ b, by simp [Stmt.tokens], ?_⟩
      simp only [Stmt.tree, Stmt.tokens, spanOf_cons]
      rw [endOffset_cons _ (by simp), endOffset_append _ (by simp), endOffset_cons _ (by simp),
        endOffset_cons _ b.tokens_ne_nil, ends]
    · cases read
  · cases read

theorem countedLoop_sound (first : Word [.keyword .countedLoop]) {ts rest : List Token}
    {s : Statement} (read : countedLoop eof body first ts = .ok (s, rest)) :
    ∃ stmt : Stmt, first.val :: ts = stmt.tokens ++ rest ∧ stmt.tree = s := by
  unfold countedLoop at read
  split at read
  · cases read
  · rename_i count counted
    obtain ⟨⟨binding, ts₁⟩, readBinding, read⟩ := ok_of_bind read
    obtain ⟨⟨⟨inner, stop⟩, ts₂⟩, readBlock, read⟩ := ok_of_bind read
    cases read
    obtain ⟨rfl, isBinding⟩ := expect_eq_ok readBinding
    obtain ⟨b, rfl, rfl, ends⟩ := block_sound sound readBlock
    refine ⟨.countedLoop first count counted ⟨binding, isBinding⟩ b, by simp [Stmt.tokens], ?_⟩
    simp only [Stmt.tree, Stmt.tokens, spanOf_cons]
    rw [endOffset_cons _ (by simp), endOffset_cons _ b.tokens_ne_nil, ends]

theorem statement_sound {n : Nat} {ts rest : List Token} {s : Statement}
    (read : statement eof body n ts = .ok (s, rest)) :
    ∃ stmt : Stmt, ts = stmt.tokens ++ rest ∧ stmt.tree = s := by
  cases ts with
  | nil => cases read
  | cons t ts =>
    simp only [statement] at read
    split at read
    · exact countedLoop_sound sound ⟨t, List.mem_singleton.mpr ‹_›⟩ read
    · exact conditional_sound sound ⟨t, List.mem_singleton.mpr ‹_›⟩ read
    · exact whileLoop_sound sound ⟨t, List.mem_singleton.mpr ‹_›⟩ read
    · exact assignment_sound ⟨t, List.mem_singleton.mpr ‹_›⟩ read
    · cases read

end

theorem body_sound (eof n : Nat) : Sound (body eof n) := by
  induction n with
  | zero =>
    intro ts ss rest read
    cases read
  | succ n ih =>
    intro ts ss rest read
    cases ts with
    | nil => cases read
    | cons t ts =>
      unfold body at read
      split at read
      · rename_i isDedent
        cases read
        exact ⟨.nil, ⟨t, List.mem_singleton.mpr isDedent⟩, rfl, rfl⟩
      · rename_i isBreak
        obtain ⟨b, dedent, rfl, rfl⟩ := ih _ _ _ read
        exact ⟨.blank ⟨t, List.mem_singleton.mpr isBreak⟩ b, dedent, rfl, rfl⟩
      · obtain ⟨⟨s, ts₁⟩, readStatement, read⟩ := ok_of_bind read
        obtain ⟨⟨others, ts₂⟩, readBody, read⟩ := ok_of_bind read
        cases read
        obtain ⟨stmt, same, rfl⟩ := statement_sound ih readStatement
        obtain ⟨b, dedent, rfl, rfl⟩ := ih _ _ _ readBody
        exact ⟨.stmt stmt b, dedent, by rw [same, Body.tokens, List.append_assoc], rfl⟩

theorem shorter {n : Nat} {t : Token} {ts front rest : List Token} (cut : t :: ts = front ++ rest)
    (nonempty : front ≠ []) (bound : ts.length ≤ n) : rest.length ≤ n := by
  have size := congrArg List.length cut
  have positive := List.length_pos_iff.mpr nonempty
  simp only [List.length_cons, List.length_append] at size
  omega

theorem statements_sound {eof n : Nat} {ts : List Token} {ss : List Statement}
    (enough : ts.length ≤ n) (read : statements eof n ts = .ok ss) :
    ∃ d : Derivation, d.tokens = ts ∧ d.trees = ss := by
  -- Without the bound there would be tokens left that no statement accounts for.
  induction n generalizing ts ss with
  | zero =>
    cases List.length_eq_zero_iff.mp (Nat.le_zero.mp enough)
    cases read
    exact ⟨.nil, rfl, rfl⟩
  | succ n ih =>
    cases ts with
    | nil =>
      cases read
      exact ⟨.nil, rfl, rfl⟩
    | cons t ts =>
      have fewer : ts.length ≤ n := Nat.le_of_succ_le_succ enough
      unfold statements at read
      split at read
      · rename_i isBreak
        obtain ⟨d, rfl, rfl⟩ := ih fewer read
        exact ⟨.blank ⟨t, List.mem_singleton.mpr isBreak⟩ d, rfl, rfl⟩
      · obtain ⟨⟨⟨inner, stop⟩, ts₁⟩, readBlock, read⟩ := ok_of_bind read
        obtain ⟨others, readRest, read⟩ := ok_of_bind read
        cases read
        obtain ⟨b, same, rfl, _⟩ := block_sound (body_sound eof n) readBlock
        obtain ⟨d, rfl, rfl⟩ := ih (shorter same b.tokens_ne_nil fewer) readRest
        exact ⟨.block b d, same.symm, rfl⟩
      · obtain ⟨⟨s, ts₁⟩, readStatement, read⟩ := ok_of_bind read
        obtain ⟨others, readRest, read⟩ := ok_of_bind read
        cases read
        obtain ⟨stmt, same, rfl⟩ := statement_sound (body_sound eof n) readStatement
        obtain ⟨d, rfl, rfl⟩ := ih (shorter same stmt.tokens_ne_nil fewer) readRest
        exact ⟨.stmt stmt d, same.symm, rfl⟩

theorem suffix_of_cut {t : Token} {ts front rest : List Token} (cut : t :: ts = front ++ rest)
    (nonempty : front ≠ []) : rest <:+ ts := by
  obtain ⟨u, front, rfl⟩ := List.exists_cons_of_ne_nil nonempty
  obtain ⟨rfl, rfl⟩ := List.cons.inj cut
  exact List.suffix_append front rest

section
variable {eof n : Nat} {t : Token} {ts rest : List Token}

theorem block_behind {statements : List Statement} {stop : Nat}
    (read : block eof (body eof n) (t :: ts) = .ok ((statements, stop), rest)) : rest <:+ ts := by
  obtain ⟨b, same, -⟩ := block_sound (body_sound eof n) read
  exact suffix_of_cut same b.tokens_ne_nil

theorem statement_behind {s : Statement}
    (read : statement eof (body eof n) n (t :: ts) = .ok (s, rest)) : rest <:+ ts := by
  obtain ⟨stmt, same, -⟩ := statement_sound (body_sound eof n) read
  exact suffix_of_cut same stmt.tokens_ne_nil

end

end PhraseLang.Grammar
