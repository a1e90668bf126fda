import Mathlib.Data.List.TakeWhile
import PhraseLang.Proofs.Grammar.Acceptance

/-! Where the reading of tokens fails.
Every error is about a token of the row that is of none of the kinds it could be of, or about an end:
that of the row, or that of a run, which is where the token begins that ends the run. -/
namespace PhraseLang.Grammar
open Reader Run

/-- Nothing stands where an operand is due: the run is empty, or ends with a separator. -/
def BreaksOff (run : List Token) : Prop := ∀ t ∈ run.getLast?, t.kind ∈ separatorKinds true

/-- What the reading of a run that ends at `stop` can fail with. -/
inductive RunFault (stop : Nat) (run : List Token) : ParseError → Prop where
  | breaksOff : BreaksOff run → RunFault stop run (.unexpectedEnd operandKinds stop)
  | notAnOperand {t : Token} : t ∈ run → RunFault stop run (.notAnOperand t)
  | notASeparator {t : Token} {isArray : Bool} : t ∈ run → t.kind ∉ separatorKinds isArray →
      RunFault stop run (.unexpectedToken t (separatorKinds isArray))

theorem separatorKinds_subset {isArray : Bool} {k : Kind} (h : k ∈ separatorKinds isArray) :
    k ∈ separatorKinds true := by
  rw [mem_separatorKinds] at h ⊢
  rcases h with operator | ⟨_, isComma⟩
  · exact .inl operator
  · exact .inr ⟨rfl, isComma⟩

theorem elements_fault {isArray : Bool} {stop : Nat} {ts : List Token} {e : ParseError}
    (current : Expr) (front : List Token) (failed : elements isArray stop current ts = .error e) :
    RunFault stop (front ++ ts) e := by
  have regroup (front : List Token) (separator operand : Token) (rest : List Token) :
      front ++ separator :: operand :: rest = (front ++ [separator, operand]) ++ rest := by simp
  fun_induction elements isArray stop current ts generalizing front with
  | case1 => cases failed
  | case2 current separator allowed =>
    cases failed
    refine .breaksOff fun t last => ?_
    obtain rfl : separator = t := by simpa using last
    exact separatorKinds_subset allowed
  | case3 current separator _ operand rest _ _ ih =>
    cases tail : elements isArray stop (.literal operand) rest with
    | ok es => rw [tail] at failed; cases failed
    | error d =>
      rw [tail] at failed
      cases failed
      rw [regroup]
      exact ih _ tail
  | case4 current separator _ operand rest _ _ ih =>
    rw [regroup]
    exact ih _ failed
  | case5 =>
    cases failed
    exact .notAnOperand (by simp)
  | case6 current separator rest notAllowed =>
    cases failed
    exact .notASeparator (by simp) notAllowed

theorem read_fault {arrayAllowed : Bool} {stop : Nat} {run : List Token} {e : ParseError}
    (failed : Run.read arrayAllowed stop run = .error e) : RunFault stop run e := by
  cases run with
  | nil =>
    cases failed
    exact .breaksOff (by simp [BreaksOff])
  | cons operand rest =>
    by_cases literal : operand.kind.isLiteral = true
    · simp only [Run.read, literal, if_true] at failed
      cases result : elements (arrayAllowed && (operand :: rest).any fun t => t.kind == comma) stop
          (.literal operand) rest with
      | ok es => rw [result] at failed; cases failed
      | error d =>
        rw [result] at failed
        cases failed
        exact elements_fault (.literal operand) [operand] result
    · simp only [Run.read, if_neg literal] at failed
      cases failed
      exact .notAnOperand (by simp)

/-- The run between a word that opens one and the first token that can end it. -/
inductive Delimits (opening : Token) (run : List Token) (stop : Token) (rest : List Token) :
    Prop where
  | condition : opening.kind ∈ [.keyword .ifThen, .keyword .elseIf] →
      stop.kind = .punctuation .leftCurly → (∀ t ∈ run, t.kind ≠ .punctuation .leftCurly) →
      Delimits opening run stop rest
  | value : opening.kind = .keyword .assign → stop.kind = .keyword .endOfAssign →
      (∀ t ∈ run, t.kind ≠ .keyword .endOfAssign) → Delimits opening run stop rest
  | loop : opening.kind = .punctuation .leftParen → stop.kind = .punctuation .rightParen →
      closing? 0 (run ++ stop :: rest) = some (run, stop, rest) → Delimits opening run stop rest

/-- A run of the row breaks off, and `offset` is where the token begins that ends it. -/
def BrokenRun (ts : List Token) (offset : Nat) : Prop :=
  ∃ front opening run stop rest, ts = front ++ opening :: (run ++ stop :: rest) ∧
    Delimits opening run stop rest ∧ BreaksOff run ∧ offset = stop.span.start

/-- What the reading of a row of tokens that ends at `eof` can fail with. -/
inductive Fault (eof : Nat) (ts : List Token) : ParseError → Prop where
  | unexpectedToken {t : Token} {kinds : List Kind} : t ∈ ts → t.kind ∉ kinds → kinds ≠ [] →
      Fault eof ts (.unexpectedToken t kinds)
  | atEnd {kinds : List Kind} : Fault eof ts (.unexpectedEnd kinds eof)
  | brokenRun {offset : Nat} : BrokenRun ts offset →
      Fault eof ts (.unexpectedEnd operandKinds offset)
  | notAnOperand {t : Token} : t ∈ ts → Fault eof ts (.notAnOperand t)
  | notAStatement {t : Token} : t ∈ ts → Fault eof ts (.notAStatement t)
  | badCount {t : Token} : t ∈ ts → t.kind = .keyword .countedLoop →
      Text.readUInt64? t.text = none → Fault eof ts (.badCount t)

section
variable {whole ts : List Token} {eof : Nat} {e : ParseError}

theorem expect_fault {kinds : List Kind} (some : kinds ≠ []) (part : ts <:+ whole)
    (failed : expect eof kinds ts = .error e) : Fault eof whole e := by
  cases ts with
  | nil =>
    cases failed
    exact .atEnd
  | cons t ts =>
    by_cases allowed : t.kind ∈ kinds
    · rw [expect, if_pos allowed] at failed
      cases failed
    · rw [expect, if_neg allowed] at failed
      cases failed
      exact .unexpectedToken (part.subset List.mem_cons_self) allowed some

theorem through_fault {stop : Kind} (failed : through eof stop ts = .error e) :
    Fault eof whole e := by
  unfold through at failed
  split at failed
  · cases failed
    exact .atEnd
  · cases failed

theorem free_of_through {eof : Nat} {stop : Kind} {run rest : List Token} {t : Token}
    (read : through eof stop ts = .ok ((run, t), rest)) : ∀ u ∈ run, u.kind ≠ stop := by
  unfold through at read
  split at read
  · cases read
  · cases read
    intro u hu
    exact bne_iff_ne.mp (List.all_eq_true.mp List.all_takeWhile u hu)

theorem fault_of_run {opening stop : Token} {run rest : List Token} {arrayAllowed : Bool}
    (part : opening :: (run ++ stop :: rest) <:+ whole) (delimits : Delimits opening run stop rest)
    (failed : Run.read arrayAllowed stop.span.start run = .error e) : Fault eof whole e := by
  have inside (t : Token) (ht : t ∈ run) : t ∈ whole :=
    part.subset (List.mem_cons_of_mem _ (List.mem_append_left _ ht))
  cases read_fault failed with
  | breaksOff breaks =>
    obtain ⟨front, cut⟩ := part
    exact .brokenRun ⟨front, opening, run, stop, rest, cut.symm, delimits, breaks, rfl⟩
  | notAnOperand ht => exact .notAnOperand (inside _ ht)
  | notASeparator ht notAllowed =>
    exact .unexpectedToken (inside _ ht) notAllowed (by simp [separatorKinds, Operator.all])

theorem assignment_fault {first : Token} (part : first :: ts <:+ whole)
    (failed : assignment eof first ts = .error e) : Fault eof whole e := by
  have part := (List.suffix_cons first ts).trans part
  rcases error_of_bind failed with here | ⟨⟨name, ts₁⟩, readName, failed₁⟩
  · exact expect_fault (by decide) part here
  obtain ⟨rfl, _⟩ := expect_eq_ok readName
  have part := (List.suffix_cons name ts₁).trans part
  rcases error_of_bind failed₁ with here | ⟨⟨becomes, ts₂⟩, readBecomes, failed₂⟩
  · exact expect_fault (by decide) part here
  obtain ⟨rfl, isBecomes⟩ := expect_eq_ok readBecomes
  rcases error_of_bind failed₂ with here | ⟨⟨⟨run, last⟩, ts₃⟩, readRun, failed₃⟩
  · exact through_fault here
  obtain ⟨rfl, isLast⟩ := through_eq_ok readRun
  have delimits : Delimits becomes run last ts₃ :=
    .value (List.mem_singleton.mp isBecomes) isLast (free_of_through readRun)
  rcases error_of_bind failed₃ with here | ⟨value, _, never⟩
  · exact fault_of_run part delimits here
  · cases never

end

section
variable {whole ts : List Token} {eof : Nat} {e : ParseError} {body : Reader (List Statement)}
  (sound : Sound body)
  (bodies : ∀ ts e, ts <:+ whole → body ts = .error e → Fault eof whole e)
include sound bodies

theorem block_fault (part : ts <:+ whole) (failed : block eof body ts = .error e) :
    Fault eof whole e := by
  rcases error_of_bind failed with here | ⟨⟨opening, ts₁⟩, readOpening, failed₁⟩
  · exact expect_fault (by decide) part here
  obtain ⟨rfl, _⟩ := expect_eq_ok readOpening
  have part := (List.suffix_cons opening ts₁).trans part
  rcases error_of_bind failed₁ with here | ⟨⟨lineBreak, ts₂⟩, readBreak, failed₂⟩
  · exact expect_fault (by decide) part here
  obtain ⟨rfl, _⟩ := expect_eq_ok readBreak
  have part := (List.suffix_cons lineBreak ts₂).trans part
  rcases error_of_bind failed₂ with here | ⟨⟨indent, ts₃⟩, readIndent, failed₃⟩
  · exact expect_fault (by decide) part here
  obtain ⟨rfl, _⟩ := expect_eq_ok readIndent
  have part := (List.suffix_cons indent ts₃).trans part
  rcases error_of_bind failed₃ with here | ⟨⟨found, ts₄⟩, readBody, failed₄⟩
  · exact bodies ts₃ e part here
  obtain ⟨inner, dedent, rfl, _⟩ := sound _ _ _ readBody
  have later : ts₄ <:+ inner.tokens ++ dedent.val :: ts₄ :=
    (List.suffix_cons dedent.val ts₄).trans (List.suffix_append _ _)
  rcases error_of_bind failed₄ with here | ⟨closing, _, never⟩
  · exact expect_fault (by decide) (later.trans part) here
  · cases never

theorem guarded_fault {opening : Token}
    (isOpening : opening.kind ∈ [.keyword .ifThen, .keyword .elseIf]) (part : opening :: ts <:+ whole)
    (failed : guarded eof body ts = .error e) : Fault eof whole e := by
  rcases error_of_bind failed with here | ⟨⟨⟨run, brace⟩, ts₁⟩, readRun, failed₁⟩
  · exact through_fault here
  obtain ⟨rfl, isBrace⟩ := through_eq_ok readRun
  have delimits : Delimits opening run brace ts₁ :=
    .condition isOpening isBrace (free_of_through readRun)
  rcases error_of_bind failed₁ with here | ⟨condition, _, failed₂⟩
  · exact fault_of_run part delimits here
  have part : brace :: ts₁ <:+ whole :=
    ((List.suffix_append _ _).trans (List.suffix_cons opening _)).trans part
  rcases error_of_bind failed₂ with here | ⟨found, _, never⟩
  · exact block_fault sound bodies part here
  · cases never

theorem alternative_fault {n stop : Nat} (part : ts <:+ whole)
    (failed : alternative eof body n stop ts = .error e) : Fault eof whole e := by
  induction n generalizing ts stop with
  | zero => cases failed
  | succ n ih =>
    have behind := List.dropWhile_suffix (l := ts) fun t => t.kind == .newline
    unfold alternative at failed
    split at failed
    · cases failed
    · rename_i t rest found
      rw [found] at behind
      have part := behind.trans part
      split at failed
      · rename_i isElseIf
        rcases error_of_bind failed with here | ⟨⟨⟨condition, inner, stop⟩, ts₁⟩, read, failed₁⟩
        · exact guarded_fault sound bodies (by simp [isElseIf]) part here
        obtain ⟨c, b, rfl, -⟩ := guarded_sound sound read
        have later : ts₁ <:+ whole :=
          ((List.suffix_append _ _).trans (List.suffix_cons t _)).trans part
        rcases error_of_bind failed₁ with here | ⟨more, _, never⟩
        · exact ih later here
        · cases never
      · split at failed
        · rcases error_of_bind failed with here | ⟨found, _, never⟩
          · exact block_fault sound bodies ((List.suffix_cons t rest).trans part) here
          · cases never
        · cases failed

theorem conditional_fault {n : Nat} {first : Token} (isFirst : first.kind = .keyword .ifThen)
    (part : first :: ts <:+ whole) (failed : conditional eof body n first ts = .error e) :
    Fault eof whole e := by
  rcases error_of_bind failed with here | ⟨⟨⟨condition, inner, stop⟩, ts₁⟩, read, failed₁⟩
  · exact guarded_fault sound bodies (by simp [isFirst]) part here
  obtain ⟨c, b, rfl, -⟩ := guarded_sound sound read
  have later : ts₁ <:+ whole :=
    ((List.suffix_append _ _).trans (List.suffix_cons first _)).trans part
  rcases error_of_bind failed₁ with here | ⟨more, _, never⟩
  · exact alternative_fault sound bodies later here
  · cases never

theorem whileLoop_fault {first : Token} (isFirst : first.kind = .punctuation .leftParen)
    (part : first :: ts <:+ whole) (failed : whileLoop eof body first ts = .error e) :
    Fault eof whole e := by
  have here : first ∈ whole := part.subset List.mem_cons_self
  unfold whileLoop at failed
  split at failed
  · rename_i run close suffix ts₁ found
    split at failed
    · obtain ⟨rfl, isClose⟩ := closing?_eq_some found
      rcases error_of_bind failed with here | ⟨condition, _, failed₁⟩
      · exact fault_of_run part (.loop isFirst isClose found) here
      have later : ts₁ <:+ whole := by
        apply List.IsSuffix.trans _ part
        exact ⟨first :: run ++ [close, suffix], by simp⟩
      rcases error_of_bind failed₁ with here | ⟨found, _, never⟩
      · exact block_fault sound bodies later here
      · cases never
    · cases failed
      exact .notAStatement here
  · cases failed
    exact .notAStatement here

theorem countedLoop_fault {first : Token} (isFirst : first.kind = .keyword .countedLoop)
    (part : first :: ts <:+ whole) (failed : countedLoop eof body first ts = .error e) :
    Fault eof whole e := by
  have here : first ∈ whole := part.subset List.mem_cons_self
  have part := (List.suffix_cons first ts).trans part
  unfold countedLoop at failed
  split at failed
  · cases failed
    exact .badCount here isFirst ‹_›
  · rcases error_of_bind failed with here | ⟨⟨binding, ts₁⟩, readBinding, failed₁⟩
    · exact expect_fault (by decide) part here
    obtain ⟨rfl, _⟩ := expect_eq_ok readBinding
    rcases error_of_bind failed₁ with here | ⟨found, _, never⟩
    · exact block_fault sound bodies ((List.suffix_cons binding ts₁).trans part) here
    · cases never

theorem statement_fault {n : Nat} (part : ts <:+ whole)
    (failed : statement eof body n ts = .error e) : Fault eof whole e := by
  cases ts with
  | nil =>
    cases failed
    exact .atEnd
  | cons t ts =>
    rw [statement] at failed
    split at failed
    · exact countedLoop_fault sound bodies ‹_› part failed
    · exact conditional_fault sound bodies ‹_› part failed
    · exact whileLoop_fault sound bodies ‹_› part failed
    · exact assignment_fault part failed
    · cases failed
      exact .notAStatement (part.subset List.mem_cons_self)

end

section
variable {whole : List Token} {eof n : Nat}

theorem body_fault (ts : List Token) (e : ParseError) (part : ts <:+ whole)
    (failed : body eof n ts = .error e) : Fault eof whole e := by
  induction n generalizing ts e with
  | zero =>
    cases failed
    exact .atEnd
  | succ n ih =>
    cases ts with
    | nil =>
      cases failed
      exact .atEnd
    | cons t ts =>
      have inner := (List.suffix_cons t ts).trans part
      rw [body] at failed
      split at failed
      · cases failed
      · exact ih ts e inner failed
      · rcases error_of_bind failed with here | ⟨⟨s, ts₁⟩, read, failed₁⟩
        · exact statement_fault (body_sound eof n) ih part here
        rcases error_of_bind failed₁ with here | ⟨others, _, never⟩
        · exact ih ts₁ e ((statement_behind read).trans inner) here
        · cases never

theorem statements_fault {ts : List Token} {e : ParseError} (part : ts <:+ whole)
    (failed : statements eof n ts = .error e) : Fault eof whole e := by
  induction n generalizing ts with
  | zero => cases failed
  | succ n ih =>
    cases ts with
    | nil => cases failed
    | cons t ts =>
      have inner := (List.suffix_cons t ts).trans part
      rw [statements] at failed
      split at failed
      · exact ih inner failed
      · rcases error_of_bind failed with here | ⟨⟨⟨statements, stop⟩, ts₁⟩, read, failed₁⟩
        · exact block_fault (body_sound eof n) body_fault part here
        rcases error_of_bind failed₁ with here | ⟨others, _, never⟩
        · exact ih ((block_behind read).trans inner) here
        · cases never
      · rcases error_of_bind failed with here | ⟨⟨s, ts₁⟩, read, failed₁⟩
        · exact statement_fault (body_sound eof n) body_fault part here
        rcases error_of_bind failed₁ with here | ⟨others, _, never⟩
        · exact ih ((statement_behind read).trans inner) here
        · cases never

end

theorem ofTokens_eq_error_iff {ts : List Token} {e : ParseError} :
    Program.ofTokens ts = .error e ↔ statements (endOffset ts) ts.length ts = .error e := by
  unfold Program.ofTokens
  cases statements (endOffset ts) ts.length ts with
  | ok ss => constructor <;> rintro ⟨⟩
  | error d => constructor <;> rintro ⟨⟩ <;> rfl

theorem ofTokens_fault {ts : List Token} {e : ParseError} (failed : Program.ofTokens ts = .error e) :
    Fault (endOffset ts) ts e :=
  statements_fault List.suffix_rfl (ofTokens_eq_error_iff.mp failed)

end PhraseLang.Grammar
