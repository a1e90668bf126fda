/-! The reserved phrases.
Several phrases are made of several words, and some begin with another phrase, so a text may begin
with more than one of them. `matching` lists all of them, the longest first; which of them counts as
a word of its own is decided by what follows it (`endsWell`). -/
namespace PhraseLang

inductive Keyword where
  | define | assign | endOfAssign
  | ifThen | otherwise | elseIf
  | countedLoop | whileLoop | breakLoop
  | trueLit | falseLit | noneLit
  | importOne | importAll
deriving DecidableEq

inductive Category where
  | binding | control | literal | imports
deriving DecidableEq

/-- How far a phrase is supported: a reserved one is recognised, but no statement uses it. -/
inductive Stability where
  | stable | reserved
deriving DecidableEq

def Category.label : Category → String
  | .binding => "binding"
  | .control => "control"
  | .literal => "literal"
  | .imports => "import"

def Stability.label : Stability → String
  | .stable => "stable"
  | .reserved => "reserved"

namespace Keyword

/-- Every keyword, in the order of the reference table. -/
def all : List Keyword :=
  [.define, .assign, .endOfAssign, .ifThen, .otherwise, .elseIf, .countedLoop, .whileLoop,
   .breakLoop, .trueLit, .falseLit, .noneLit, .importOne, .importAll]

/-- The name under which messages and listings show a keyword. -/
def name : Keyword → String
  | .define => "Define"
  | .assign => "Assign"
  | .endOfAssign => "EndOfAssign"
  | .ifThen => "If"
  | .otherwise => "Else"
  | .elseIf => "ElseIf"
  | .countedLoop => "For"
  | .whileLoop => "While"
  | .breakLoop => "Break"
  | .trueLit => "True"
  | .falseLit => "False"
  | .noneLit => "None"
  | .importOne => "Import"
  | .importAll => "ImportAll"

def phrase : Keyword → String
  | .define => "I would love to own a plot of land in the 1800s called"
  | .assign => "and lease it to"
  | .endOfAssign => "owners"
  | .ifThen => "sweet"
  | .otherwise => "stout"
  | .elseIf => "sweet but stout"
  | .countedLoop => "lolsie"
  | .whileLoop => "yarp'"
  | .breakLoop => "jump off the bandwagon"
  | .trueLit => "not particularly"
  | .falseLit => "not not particularly"
  | .noneLit => "context"
  | .importOne => "scammy"
  | .importAll => "American"

def category : Keyword → Category
  | .define | .assign | .endOfAssign => .binding
  | .ifThen | .otherwise | .elseIf | .countedLoop | .whileLoop | .breakLoop => .control
  | .trueLit | .falseLit | .noneLit => .literal
  | .importOne | .importAll => .imports

def stability : Keyword → Stability
  | .breakLoop | .trueLit | .falseLit | .noneLit | .importOne | .importAll => .reserved
  | _ => .stable

def description : Keyword → String
  | .define => "Starts an assignment; followed by a `$const` or `£variable` name."
  | .assign => "Separates the assigned name from its value."
  | .endOfAssign => "Terminates the value of an assignment."
  | .ifThen => "Conditional: `sweet <condition> \x7b ... \x7d`."
  | .otherwise => "Fallback branch of a conditional."
  | .elseIf => "Chained conditional branch."
  | .countedLoop =>
    "Counted loop; each trailing `s` adds one repetition (`lolsiesss` runs three times)."
  | .whileLoop => "Loop suffix: `(<condition>) yarp' \x7b ... \x7d`."
  | .breakLoop => "Leaves the innermost loop."
  | .trueLit => "Boolean true."
  | .falseLit => "Boolean false."
  | .noneLit => "The absent value."
  | .importOne => "Imports a single module."
  | .importAll => "Imports everything from a module."

def letters (k : Keyword) : List Char := k.phrase.toList

def longestFirst : List Keyword :=
  [.define, .breakLoop, .falseLit, .trueLit, .assign, .elseIf, .importAll, .noneLit, .endOfAssign,
   .countedLoop, .importOne, .ifThen, .otherwise, .whileLoop]

theorem mem_all (k : Keyword) : k ∈ all := by cases k <;> decide

theorem longestFirst_perm_all : longestFirst.Perm all := by decide

/-- The order of `longestFirst`: by falling length, then by the place in `all`. -/
theorem longestFirst_pairwise : longestFirst.Pairwise fun a b =>
    b.letters.length < a.letters.length ∨
      a.letters.length = b.letters.length ∧ all.idxOf a < all.idxOf b := by decide

def ofPhrase? (text : String) : Option Keyword := all.find? fun k => k.phrase == text

/-- The phrases that a text begins with, the longest first. -/
def matching (text : List Char) : List Keyword :=
  longestFirst.filter fun k => k.letters.isPrefixOf text

def longestMatch? (text : List Char) : Option Keyword := (matching text).head?

/-- The letter whose run after a counted loop's phrase is its repetition count. -/
def repeatMark : Char := 's'

/-- A counted loop's phrase goes on in its run of repeat marks, so anything may follow it. -/
def takesTrailer : Keyword → Bool
  | .countedLoop => true
  | _ => false

/-- A character that makes the letters before it part of a longer word. -/
def continuesWord (c : Char) : Bool := c.isAlphanum || c == '_'

/-- A text that begins with the phrase of `k` has it there as a word of its own. -/
def endsWell (k : Keyword) (text : List Char) : Bool :=
  k.takesTrailer || !((text.drop k.letters.length).head?.any continuesWord)

/-- The keyword at the beginning of a text: the longest matching phrase that ends well. -/
def atStart? (text : List Char) : Option Keyword := (matching text).find? fun k => k.endsWell text

theorem prefix_of_atStart? {text : List Char} {k : Keyword} (h : atStart? text = some k) :
    k.letters <+: text := by
  have found : k ∈ matching text := List.mem_of_find?_eq_some h
  exact List.isPrefixOf_iff_prefix.mp (List.mem_filter.mp found).2

theorem letters_ne_nil (k : Keyword) : k.letters ≠ [] := by cases k <;> decide

end Keyword

end PhraseLang
