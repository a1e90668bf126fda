import PhraseLang.Layout
import PhraseLang.Text.Decimal

/-! The arguments of the command line, read into a request.
An option stands before or after the file; two dashes end the options. The name of a command is the
command wherever it stands among the first arguments; a file given before it is not looked at. -/
namespace PhraseLang

inductive Request where
  /-- A file was given and no command. -/
  | file (path : String)
  | tokens (path : String) (tab : UInt64) (places : Bool)
  | program (path : String) (tab : UInt64)
  | keywords
  | version
  | help
  /-- No file and no command were given. -/
  | nothing
deriving DecidableEq

inductive UsageError where
  | emptyFile
  | missingFile
  | surplus (argument : String)
  | unknownOption (argument : String)
  | repeatedOption (name : String)
  | missingValue (name : String)
  | invalidWidth (value : String)
deriving DecidableEq

def UsageError.message : UsageError → String
  | .emptyFile => "a file needs a name"
  | .missingFile => "a file is missing"
  | .surplus argument => "unexpected argument '" ++ argument ++ "'"
  | .unknownOption argument => "unknown option '" ++ argument ++ "'"
  | .repeatedOption name => "option '--" ++ name ++ "' is given more than once"
  | .missingValue name => "option '--" ++ name ++ "' needs a value"
  | .invalidWidth value => "'" ++ value ++ "' is no tab width"

inductive Argument where
  | separator
  /-- Two dashes and a name, perhaps with a value behind an equals sign. -/
  | long (name : String) (value : Option String)
  /-- One dash and letters, of which the first is kept. -/
  | short (letter : Char)
  | plain
deriving DecidableEq

def Argument.ofString (argument : String) : Argument :=
  match argument.toList with
  | ['-', '-'] => .separator
  | '-' :: '-' :: rest =>
    let name := String.ofList (rest.takeWhile (· ≠ '='))
    match rest.dropWhile (· ≠ '=') with
    | [] => .long name none
    | _ :: value => .long name (some (String.ofList value))
  | '-' :: letter :: _ => .short letter
  | _ => .plain

namespace Request

/-- The arguments of one command as far as they have been read. -/
structure Options where
  file : Option String := none
  tab : Option UInt64 := none
  places : Bool := false

structure Form where
  file : Bool
  tab : Bool
  places : Bool

def Options.addFile (form : Form) (o : Options) (path : String) : Except UsageError Options :=
  if o.file.isSome || !form.file then .error (.surplus path)
  else if path.isEmpty then .error .emptyFile
  else .ok { o with file := some path }

def Options.addTab (o : Options) (value : String) : Except UsageError Options :=
  if o.tab.isSome then .error (.repeatedOption "tab-width")
  else match Text.readUInt64? value with
    | none => .error (.invalidWidth value)
    | some tab => .ok { o with tab := some tab }

def Options.addPlaces (o : Options) : Except UsageError Options :=
  if o.places then .error (.repeatedOption "spans") else .ok { o with places := true }

def ofCommand (form : Form) (finish : Options → Except UsageError Request) (o : Options) :
    List String → Except UsageError Request
  | [] => finish o
  | argument :: rest =>
    match Argument.ofString argument with
    | .separator => do finish (← rest.foldlM (Options.addFile form) o)
    | .plain => do ofCommand form finish (← o.addFile form argument) rest
    | .long "help" none | .short 'h' => .ok .help
    | .long "tab-width" (some value) =>
      if form.tab then do ofCommand form finish (← o.addTab value) rest
      else .error (.unknownOption argument)
    | .long "tab-width" none =>
      if form.tab then
        match rest with
        | [] => .error (.missingValue "tab-width")
        | value :: rest => do ofCommand form finish (← o.addTab value) rest
      else .error (.unknownOption argument)
    | .long "spans" none =>
      if form.places then do ofCommand form finish (← o.addPlaces) rest
      else .error (.unknownOption argument)
    | .long _ _ | .short _ => .error (.unknownOption argument)

def commandNames : List String := ["lex", "parse", "keywords", "help"]

/-- Help is asked for on the whole or on one command. -/
def ofHelp : List String → Except UsageError Request
  | [] => .ok .help
  | [name] => if name ∈ commandNames then .ok .help else .error (.surplus name)
  | _ :: other :: _ => .error (.surplus other)

/-- The command of a name, as a reader of the arguments behind it. -/
def command? : String → Option (List String → Except UsageError Request)
  | "lex" => some (ofCommand ⟨true, true, true⟩ (fun o =>
      match o.file with
      | none => .error .missingFile
      | some path => .ok (.tokens path (o.tab.getD defaultTabWidth) o.places)) {})
  | "parse" => some (ofCommand ⟨true, true, false⟩ (fun o =>
      match o.file with
      | none => .error .missingFile
      | some path => .ok (.program path (o.tab.getD defaultTabWidth))) {})
  | "keywords" => some (ofCommand ⟨false, false, false⟩ (fun _ => .ok .keywords) {})
  | "help" => some ofHelp
  | _ => none

def ofFile (o : Options) : Request :=
  match o.file with
  | none => .nothing
  | some path => .file path

/-- The arguments from the first one on, a file perhaps given already. -/
def ofArgsFrom (o : Options) : List String → Except UsageError Request
  | [] => .ok (ofFile o)
  | argument :: rest =>
    match Argument.ofString argument with
    | .separator => do return ofFile (← rest.foldlM (Options.addFile ⟨true, false, false⟩) o)
    | .plain =>
      match command? argument with
      | some command => command rest
      | none => do ofArgsFrom (← o.addFile ⟨true, false, false⟩ argument) rest
    | .long "help" none | .short 'h' => .ok .help
    | .long "version" none | .short 'V' => .ok .version
    | .long _ _ | .short _ => .error (.unknownOption argument)

def ofArgs (arguments : List String) : Except UsageError Request := ofArgsFrom {} arguments

end Request

end PhraseLang
