import PhraseLang.Command.Arguments
import PhraseLang.Command.Files
import PhraseLang.Listing
import PhraseLang.Program.Dump
import PhraseLang.Program.Reading

/-! What a run of the program comes to: an exit code, and either the whole output or one notice.
A run that halts, where the width of a line overflows, has an exit code of its own. -/
namespace PhraseLang

inductive Notice where
  | usage (cause : UsageError)
  | noInput
  | unreadable (path : String) (cause : ReadFailure)
  /-- The source under a path is no program. -/
  | rejected (path source : String) (cause : ParseError)
  /-- The width of a line of the source under a path overflows. -/
  | overflow (path : String)

structure Outcome where
  code : UInt32
  output : String
  notice : Option Notice

namespace Outcome

def success (output : String) : Outcome := ⟨0, output, none⟩

def failure (notice : Notice) : Outcome := ⟨1, "", some notice⟩

/-- A run whose arguments were not understood. -/
def misuse (cause : UsageError) : Outcome := ⟨2, "", some (.usage cause)⟩

/-- A run that halts in the middle of the source under a path. -/
def halted (path : String) : Outcome := ⟨101, "", some (.overflow path)⟩

end Outcome

def versionText : String := "vita 0.1.0-alpha.1\n"

def helpText : String :=
  "Usage: vita [FILE]\n" ++
  "       vita lex FILE [--tab-width N] [--spans]\n" ++
  "       vita parse FILE [--tab-width N]\n" ++
  "       vita keywords\n"

def withSource (path : String) (state : PathState) (run : String → Outcome) : Outcome :=
  match state.source with
  | .error cause => .failure (.unreadable path cause)
  | .ok source => run source

/-- The tokens of the source under a path. Nothing is printed before the last of them is known. -/
def listTokens (files : String → PathState) (path : String) (tab : UInt64) (places : Bool) :
    Outcome :=
  withSource path (files path) fun source =>
    match tokenize? tab source with
    | none => .halted path
    | some ts => .success (tokenListing source ts places)

/-- The outcome of a request, where `files` tells what each path leads to. -/
def Request.run (files : String → PathState) : Request → Outcome
  | .file path => listTokens files path defaultTabWidth false
  | .tokens path tab places => listTokens files path tab places
  | .program path tab =>
    withSource path (files path) fun source =>
      match Program.ofSource? tab source with
      | none => .halted path
      | some (.error cause) => .failure (.rejected path source cause)
      | some (.ok p) => .success p.dump
  | .keywords => .success keywordListing
  | .version => .success versionText
  | .help => .success helpText
  | .nothing => .failure .noInput

def runArgs (files : String → PathState) (arguments : List String) : Outcome :=
  match Request.ofArgs arguments with
  | .error cause => .misuse cause
  | .ok request => request.run files

/-- A rejected source told with its place and the line. -/
def rejection (path source : String) (cause : ParseError) : String :=
  let place := Text.position source cause.span.start
  let help := match cause.help? with
    | none => ""
    | some help => "\n  help: " ++ help
  cause.code ++ "\n" ++
    path ++ ":" ++ toString place.line ++ ":" ++ toString place.column ++ ": " ++ cause.message ++
    "\n  | " ++ place.text ++ "\n  " ++ cause.label ++ help

def Notice.text : Notice → String
  | .usage cause => "error: " ++ cause.message ++ "\n\n" ++ helpText
  | .noInput => "no input file given; run `vita --help` for usage\n"
  | .unreadable path cause => cause.message path ++ "\n"
  | .rejected path source cause => rejection path source cause ++ "\n"
  | .overflow path => path ++ ": the width of a line overflows 64 bits\n"

/-- What goes to the error stream. -/
def Outcome.errors (o : Outcome) : String := (o.notice.map Notice.text).getD ""

end PhraseLang
