import Mathlib.Data.String.Basic
import PhraseLang.Command.Outcome
import PhraseLang.Proofs.Dump.Lines
import PhraseLang.Proofs.Listing
import PhraseLang.Proofs.Width

/-! The command line is all or nothing.
A request either prints all that it asks for and says nothing else, or prints nothing and says why.
Who writes the report on a rejected source plays no part, as long as the report tells the code of
the error. A run that halts, where the width of a line overflows, prints nothing either, and has an
exit code that is neither of the two. -/
namespace PhraseLang
open Layout (OverflowsIn)

/-- A writer of reports on rejected sources, from the path, the source and the error. -/
abbrev Report := String → String → ParseError → String

def Report.TellsCode (report : Report) : Prop :=
  ∀ path source cause, cause.code.toList <:+: (report path source cause).toList

/-- A message with its line end. An empty message is not told at all. -/
def told (message : String) : String := if message.isEmpty then "" else message ++ "\n"

/-- The text of a notice, the report on a rejected source left to `report`. -/
def Notice.textBy (report : Report) : Notice → String
  | .rejected path source cause => told (report path source cause)
  | .unreadable path cause => told (cause.message path)
  | .usage cause => text (.usage cause)
  | .noInput => text .noInput
  | .overflow path => text (.overflow path)

/-- What goes to the error stream with these reports. -/
def Outcome.errorsBy (report : Report) (o : Outcome) : String :=
  (o.notice.map (Notice.textBy report)).getD ""

/-- The path leads to a source that is not too large. -/
def PathState.Holds (state : PathState) (source : String) : Prop :=
  state = .text source ∧ source.utf8ByteSize ≤ 104857600

/-- The output has a line for each token and nothing else. -/
def Lists (source : String) (tokens : List Token) (places : Bool) (output : String) : Prop :=
  Text.lines output.toList = tokens.map (fun t => (t.entry source.toList places).toList) ++ [[]]

/-- The output has a line for each keyword, the longest phrase first, and nothing else. -/
def ListsKeywords (output : String) : Prop :=
  Text.lines output.toList = Keyword.longestFirst.map (fun k => k.entry.toList) ++ [[]]

/-- The output has the lines of a program and nothing else. -/
def Dumps (p : Program) (output : String) : Prop :=
  output.toList = (Statement.linesAll 0 p.statements).flatMap DumpLine.chars

/-- What a request asks for, where there is such a thing. -/
inductive Request.Asks (files : String → PathState) : Request → String → Prop where
  | tokens {path source output : String} {tab : UInt64} {places : Bool} {ts : List Token} :
      (files path).Holds source → tokenize? tab source = some ts →
      Lists source ts places output → Asks files (.tokens path tab places) output
  | file {path output : String} : Asks files (.tokens path 4 false) output →
      Asks files (.file path) output
  | program {path source output : String} {tab : UInt64} {ts : List Token} {p : Program} :
      (files path).Holds source → tokenize? tab source = some ts → Program.ofTokens ts = .ok p →
      Dumps p output → Asks files (.program path tab) output
  | keywords {output : String} : ListsKeywords output → Asks files .keywords output
  | version : Asks files .version versionText
  | help : Asks files .help helpText

/-- The source that a request is about can be read, and the width of one of its lines overflows. -/
inductive Request.Halts (files : String → PathState) : Request → Prop where
  | tokens {path source : String} {tab : UInt64} {places : Bool} : (files path).Holds source →
      OverflowsIn tab source → Halts files (.tokens path tab places)
  | program {path source : String} {tab : UInt64} : (files path).Holds source →
      OverflowsIn tab source → Halts files (.program path tab)

/-- All of the output and nothing on the error stream, or nothing of it and the reason: what was
asked for does not exist, or the run halts. -/
inductive Outcome.AllOrNothing (report : Report) (asks : String → Prop) (halts : Prop)
    (o : Outcome) : Prop where
  | all : o.code = 0 → o.errorsBy report = "" → asks o.output → ¬ halts →
      AllOrNothing report asks halts o
  | nothing : o.code = 1 → o.output = "" → o.errorsBy report ≠ "" → (∀ output, ¬ asks output) →
      ¬ halts → AllOrNothing report asks halts o
  | halted : o.code = 101 → o.output = "" → o.errorsBy report ≠ "" → (∀ output, ¬ asks output) →
      halts → AllOrNothing report asks halts o

section
variable {report : Report}

theorem append_ne_empty {front : String} (some : front ≠ "") (rest : String) :
    front ++ rest ≠ "" := by
  intro empty
  exact some (String.append_eq_empty_iff.mp empty).1

theorem told_of_ne_empty {message : String} (some : message ≠ "") :
    told message = message ++ "\n" := by
  have notEmpty : message.isEmpty = false := by simpa using some
  rw [told, notEmpty]
  rfl

theorem told_ne_empty {message : String} (some : message ≠ "") : told message ≠ "" := by
  rw [told_of_ne_empty some]
  exact append_ne_empty some "\n"

theorem Report.TellsCode.ne_empty (tells : report.TellsCode) (path source : String)
    (cause : ParseError) : report path source cause ≠ "" := by
  intro empty
  have code := tells path source cause
  rw [empty] at code
  have none := List.infix_nil.mp code
  cases cause <;> simp [ParseError.code] at none

theorem tellsCode_rejection : Report.TellsCode rejection := by
  intro path source cause
  simp only [rejection, String.toList_append, List.append_assoc]
  exact List.infix_append' [] _ _

theorem ReadFailure.message_ne_empty (path : String) (cause : ReadFailure) :
    cause.message path ≠ "" := by
  unfold message
  split <;> simp only [String.append_assoc] <;> exact append_ne_empty (by decide) _

theorem Notice.textBy_ne_empty (tells : report.TellsCode) (notice : Notice) :
    notice.textBy report ≠ "" := by
  cases notice with
  | usage cause => simp [textBy, text]
  | noInput =>
    rw [textBy, text]
    decide
  | overflow path => simp [textBy, text]
  | unreadable path cause => exact told_ne_empty (cause.message_ne_empty path)
  | rejected path source cause => exact told_ne_empty (tells.ne_empty path source cause)

/-- The notices of this program are those with its own reports. -/
theorem Notice.textBy_rejection (notice : Notice) : notice.textBy rejection = notice.text := by
  cases notice with
  | usage | noInput | overflow => rfl
  | unreadable path cause => exact told_of_ne_empty (cause.message_ne_empty path)
  | rejected path source cause => exact told_of_ne_empty (tellsCode_rejection.ne_empty path _ _)

theorem Outcome.errorsBy_rejection (o : Outcome) : o.errorsBy rejection = o.errors := by
  have same : Notice.textBy rejection = Notice.text := funext Notice.textBy_rejection
  rw [errorsBy, same]
  rfl

end

theorem length_le_utf8Len (cs : List Char) : cs.length ≤ String.utf8Len cs := by
  induction cs with
  | nil => exact Nat.le_refl 0
  | cons c cs ih =>
    have positive := c.utf8Size_pos
    rw [List.length_cons, String.utf8Len_cons]
    omega

namespace PathState
variable {state : PathState} {source source' : String}

theorem Holds.eq (holds : state.Holds source) (holds' : state.Holds source') :
    source = source' := PathState.text.inj (holds.1.symm.trans holds'.1)

theorem Holds.length_le (holds : state.Holds source) : source.length ≤ 104857600 := by
  have size := length_le_utf8Len source.toList
  rw [String.length_toList, String.utf8Len_toList] at size
  exact size.trans holds.2

/-- With tabs that are not very wide no readable source is long enough to overflow. -/
theorem Holds.not_overflowsIn {tab : UInt64} (holds : state.Holds source)
    (narrow : 104857600 * max 1 tab.toNat < UInt64.size) : ¬ OverflowsIn tab source := by
  apply Layout.not_overflowsIn_of_lt
  exact Nat.lt_of_le_of_lt (Nat.mul_le_mul_right _ holds.length_le) narrow

end PathState

/-- What is done with a source is done with the one under the path, if there is one. -/
theorem withSource_cases (path : String) (state : PathState) (run : String → Outcome) :
    (∃ source, state.Holds source ∧ withSource path state run = run source) ∨
      (∀ source, ¬ state.Holds source) ∧
        ∃ notice, withSource path state run = .failure notice := by
  rw [withSource]
  cases state with
  | text content =>
    by_cases large : maxSourceSize < content.utf8ByteSize
    · rw [PathState.source, if_pos large]
      refine .inr ⟨?_, _, rfl⟩
      rintro source ⟨same, small⟩
      obtain rfl := PathState.text.inj same
      exact absurd small (Nat.not_le_of_lt large)
    · rw [PathState.source, if_neg large]
      exact .inl ⟨content, ⟨rfl, Nat.le_of_not_lt large⟩, rfl⟩
  | missing | throughFile | directory | binary =>
    refine .inr ⟨?_, _, rfl⟩
    rintro source ⟨same, -⟩
    cases same

section
variable {report : Report} {files : String → PathState}

section
variable {asks : String → Prop} {halts : Prop}

theorem Outcome.AllOrNothing.of_success {output : String} (asked : asks output)
    (goesOn : ¬ halts) : (success output).AllOrNothing report asks halts :=
  .all rfl rfl asked goesOn

theorem Outcome.AllOrNothing.of_failure (tells : report.TellsCode) {notice : Notice}
    (none : ∀ output, ¬ asks output) (goesOn : ¬ halts) :
    (failure notice).AllOrNothing report asks halts :=
  .nothing rfl rfl (notice.textBy_ne_empty tells) none goesOn

theorem Outcome.AllOrNothing.of_halted (tells : report.TellsCode) {path : String}
    (none : ∀ output, ¬ asks output) (overflows : halts) :
    (Outcome.halted path).AllOrNothing report asks halts :=
  .halted rfl rfl (Notice.textBy_ne_empty tells (.overflow path)) none overflows

/-- The exit code tells whether there is what was asked for. -/
theorem Outcome.AllOrNothing.code_eq_zero_iff {o : Outcome}
    (whole : o.AllOrNothing report asks halts) : o.code = 0 ↔ ∃ output, asks output := by
  cases whole with
  | all success _ asked => exact ⟨fun _ => ⟨_, asked⟩, fun _ => success⟩
  | nothing code _ _ none | halted code _ _ none =>
    rw [code]
    refine ⟨fun success => absurd success (by decide), fun asked => ?_⟩
    obtain ⟨output, asked⟩ := asked
    exact absurd asked (none output)

end

namespace Request
variable {path : String} {tab : UInt64} {places : Bool}

theorem run_tokens (tells : report.TellsCode) (path : String) (tab : UInt64) (places : Bool) :
    ((tokens path tab places).run files).AllOrNothing report
      ((tokens path tab places).Asks files) ((tokens path tab places).Halts files) := by
  rw [run, listTokens]
  rcases withSource_cases path (files path) _ with ⟨source, holds, same⟩ | ⟨none, notice, same⟩
  · rw [same]
    cases found : tokenize? tab source with
    | none =>
      refine .of_halted tells (fun output asked => ?_)
        (.tokens holds (Layout.tokenize?_eq_none_iff.mp found))
      cases asked with
      | tokens holds' found' =>
        obtain rfl := holds.eq holds'
        cases found.symm.trans found'
    | some ts =>
      refine .of_success (.tokens holds found (lines_tokenListing source ts places))
        fun halts => ?_
      cases halts with
      | tokens holds' overflows =>
        obtain rfl := holds.eq holds'
        exact (Layout.tokenize?_eq_some_iff.mp found).1 overflows
  · rw [same]
    refine .of_failure tells (fun output asked => ?_) (fun halts => ?_)
    · cases asked with
      | tokens holds => exact none _ holds
    · cases halts with
      | tokens holds => exact none _ holds

theorem run_program (tells : report.TellsCode) (path : String) (tab : UInt64) :
    ((program path tab).run files).AllOrNothing report ((program path tab).Asks files)
      ((program path tab).Halts files) := by
  rw [run]
  rcases withSource_cases path (files path) _ with ⟨source, holds, same⟩ | ⟨none, notice, same⟩
  · rw [same, Program.ofSource?]
    cases found : tokenize? tab source with
    | none =>
      refine .of_halted tells (fun output asked => ?_)
        (.program holds (Layout.tokenize?_eq_none_iff.mp found))
      cases asked with
      | program holds' found' =>
        obtain rfl := holds.eq holds'
        cases found.symm.trans found'
    | some ts =>
      have goesOn : ¬ (program path tab).Halts files := by
        intro halts
        cases halts with
        | program holds' overflows =>
          obtain rfl := holds.eq holds'
          exact (Layout.tokenize?_eq_some_iff.mp found).1 overflows
      rw [Option.map_some]
      cases parsed : Program.ofTokens ts with
      | ok p =>
        have shown : Dumps p p.dump := Statement.toList_dumpAll 0 p.statements
        exact .of_success (.program holds found parsed shown) goesOn
      | error cause =>
        refine .of_failure tells (fun output asked => ?_) goesOn
        cases asked with
        | program holds' found' accepted =>
          obtain rfl := holds.eq holds'
          obtain rfl := Option.some.inj (found.symm.trans found')
          cases accepted.symm.trans parsed
  · rw [same]
    refine .of_failure tells (fun output asked => ?_) (fun halts => ?_)
    · cases asked with
      | program holds => exact none _ holds
    · cases halts with
      | program holds => exact none _ holds

/-- A file without a command never halts: it is read with tabs of the default width. -/
theorem run_file (tells : report.TellsCode) (path : String) :
    ((file path).run files).AllOrNothing report ((file path).Asks files)
      ((file path).Halts files) := by
  have goesOn : ¬ (file path).Halts files := by
    intro halts
    cases halts
  have listed : ((file path).run files).AllOrNothing report ((tokens path 4 false).Asks files)
    ((tokens path 4 false).Halts files) := run_tokens tells path 4 false
  cases listed with
  | all success quiet asked => exact .all success quiet (.file asked) goesOn
  | nothing failure empty reason none =>
    refine .nothing failure empty reason (fun output asked => ?_) goesOn
    cases asked with
    | file asked => exact none output asked
  | halted _ _ _ _ halts =>
    cases halts with
    | tokens holds overflows => exact absurd overflows (holds.not_overflowsIn (by decide))

theorem run_allOrNothing (tells : report.TellsCode) (request : Request) :
    (request.run files).AllOrNothing report (request.Asks files) (request.Halts files) := by
  cases request with
  | file path => exact run_file tells path
  | tokens path tab places => exact run_tokens tells path tab places
  | program path tab => exact run_program tells path tab
  | keywords =>
    exact .of_success (.keywords lines_keywordListing) fun halts => by cases halts
  | version => exact .of_success .version fun halts => by cases halts
  | help => exact .of_success .help fun halts => by cases halts
  | nothing => exact .of_failure tells (fun output asked => by cases asked) fun halts => by cases halts

theorem exists_asks_tokens : (∃ output, (tokens path tab places).Asks files output) ↔
    ∃ source, (files path).Holds source ∧ ¬ OverflowsIn tab source := by
  constructor
  · rintro ⟨output, asked⟩
    cases asked with
    | tokens holds found => exact ⟨_, holds, (Layout.tokenize?_eq_some_iff.mp found).1⟩
  · rintro ⟨source, holds, fits⟩
    have found := Layout.tokenize?_eq_some_iff.mpr ⟨fits, rfl⟩
    exact ⟨_, .tokens holds found (lines_tokenListing source _ places)⟩

theorem exists_asks_tokens_of_narrow (narrow : 104857600 * max 1 tab.toNat < UInt64.size) :
    (∃ output, (tokens path tab places).Asks files output) ↔
      ∃ source, (files path).Holds source := by
  rw [exists_asks_tokens]
  constructor
  · rintro ⟨source, holds, -⟩
    exact ⟨source, holds⟩
  · rintro ⟨source, holds⟩
    exact ⟨source, holds, holds.not_overflowsIn narrow⟩

theorem exists_asks_file : (∃ output, (file path).Asks files output) ↔
    ∃ source, (files path).Holds source := by
  have listed : (∃ output, (tokens path 4 false).Asks files output) ↔
      ∃ source, (files path).Holds source := exists_asks_tokens_of_narrow (by decide)
  rw [← listed]
  constructor
  · rintro ⟨output, asked⟩
    cases asked with
    | file asked => exact ⟨output, asked⟩
  · rintro ⟨output, asked⟩
    exact ⟨output, .file asked⟩

theorem exists_asks_program : (∃ output, (program path tab).Asks files output) ↔
    ∃ source ts p, (files path).Holds source ∧ tokenize? tab source = some ts ∧
      Program.ofTokens ts = .ok p := by
  constructor
  · rintro ⟨output, asked⟩
    cases asked with
    | program holds found accepted => exact ⟨_, _, _, holds, found, accepted⟩
  · rintro ⟨source, ts, p, holds, found, accepted⟩
    exact ⟨p.dump, .program holds found accepted (Statement.toList_dumpAll 0 p.statements)⟩

end Request

end

/-- Every request prints all that it asks for and nothing else, or nothing but the reason. Tokens
are listed for every source that can be read, and a program is shown for every one of them that has
one, unless the width of a line overflows: then the run halts. Only tabs of more than 10^11 blanks
make a source overflow that is not too large. A file without a command is listed as the command
lists it with tabs of width 4 and no places. -/
theorem run_all_or_nothing (report : Report) (tells : report.TellsCode)
    (files : String → PathState) :
    (∀ request : Request, (request.run files).AllOrNothing report (request.Asks files)
      (request.Halts files)) ∧
    (∀ request : Request, (request.run files).errorsBy rejection = (request.run files).errors) ∧
    (∀ path tab places, ((Request.tokens path tab places).run files).code = 0 ↔
      ∃ source, (files path).Holds source ∧ ¬ OverflowsIn tab source) ∧
    (∀ path tab places, 104857600 * max 1 tab.toNat < UInt64.size →
      (((Request.tokens path tab places).run files).code = 0 ↔
        ∃ source, (files path).Holds source)) ∧
    (∀ path tab, ((Request.program path tab).run files).code = 0 ↔
      ∃ source ts p, (files path).Holds source ∧ tokenize? tab source = some ts ∧
        Program.ofTokens ts = .ok p) ∧
    ∀ path, (((Request.file path).run files).code = 0 ↔ ∃ source, (files path).Holds source) ∧
      (Request.file path).run files = (Request.tokens path 4 false).run files := by
  refine ⟨Request.run_allOrNothing tells, fun request => Outcome.errorsBy_rejection _,
    fun path tab places => ?_, fun path tab places narrow => ?_, fun path tab => ?_,
    fun path => ⟨?_, rfl⟩⟩
  · rw [(Request.run_tokens tells path tab places).code_eq_zero_iff, Request.exists_asks_tokens]
  · rw [(Request.run_tokens tells path tab places).code_eq_zero_iff,
      Request.exists_asks_tokens_of_narrow narrow]
  · rw [(Request.run_program tells path tab).code_eq_zero_iff, Request.exists_asks_program]
  · rw [(Request.run_file tells path).code_eq_zero_iff, Request.exists_asks_file]

/-- A single file that holds a word. -/
def wordFile (path : String) : PathState := if path = "a" then .text "asia" else .missing

theorem run_all_or_nothing_wordFile :
    Report.TellsCode rejection ∧ ((Request.tokens "a" 4 false).run wordFile).code = 0 ∧
      ((Request.file "a").run wordFile).code = 0 ∧
      ¬ ((Request.program "b" 4).run wordFile).code = 0 := by
  obtain ⟨-, -, -, listed, shown, default⟩ :=
    run_all_or_nothing rejection tellsCode_rejection wordFile
  have holds : (wordFile "a").Holds "asia" := ⟨rfl, by decide⟩
  refine ⟨tellsCode_rejection, ?_, ?_, ?_⟩
  · exact (listed "a" 4 false (by decide)).mpr ⟨"asia", holds⟩
  · exact (default "a").1.mpr ⟨"asia", holds⟩
  · intro success
    obtain ⟨source, ts, p, ⟨held, -⟩, -⟩ := (shown "b" 4).mp success
    cases held

/-- A single file whose only line overflows with the widest tabs. -/
def overflowFile (path : String) : PathState :=
  if path = "t" then .text Layout.tabThenSpace else .missing

/-- A source that can be read, and a run that neither lists its tokens nor ends with code 1. -/
theorem overflowFile_halts :
    (overflowFile "t").Holds Layout.tabThenSpace ∧
    ((Request.tokens "t" Layout.maxWidth false).run overflowFile).code = 101 ∧
    ((Request.tokens "t" Layout.maxWidth false).run overflowFile).output = "" := by
  have overflows : tokenize? Layout.maxWidth Layout.tabThenSpace = none := by decide +kernel
  have read : (overflowFile "t").source = .ok Layout.tabThenSpace := rfl
  have halts : (Request.tokens "t" Layout.maxWidth false).run overflowFile = .halted "t" := by
    rw [Request.run, listTokens, withSource, read]
    simp only [overflows]
  rw [halts]
  exact ⟨⟨rfl, by decide⟩, rfl, rfl⟩

end PhraseLang
