import PhraseLang.Keyword
import PhraseLang.Span
import PhraseLang.Symbol
import PhraseLang.Text.Quoted

/-! Tokens: the words of a program with the place where they stand. -/
namespace PhraseLang

inductive Kind where
  | keyword (k : Keyword)
  | operator (o : Operator)
  | punctuation (p : Punctuation)
  /-- A bare run of letters: a string literal. -/
  | word
  | number
  | constant
  | binding
  | newline | indent | dedent
  /-- A character that nothing else accounts for. -/
  | unknown
deriving DecidableEq

namespace Kind

/-- The name of a kind in messages and listings; all operators share one. -/
def name : Kind → String
  | .keyword k => k.name
  | .operator _ => "BinaryOperator"
  | .punctuation p => p.name
  | .word => "String"
  | .number => "Number"
  | .constant => "Const"
  | .binding => "Variable"
  | .newline => "Newline"
  | .indent => "Indent"
  | .dedent => "Dedent"
  | .unknown => "Unknown"

def isLayout : Kind → Bool
  | .newline | .indent | .dedent => true
  | _ => false

def isLiteral : Kind → Bool
  | .word | .number | .constant | .binding => true
  | _ => false

def operator? : Kind → Option Operator
  | .operator o => some o
  | _ => none

def ofSigil : Sigil → Kind
  | .dollar => .constant
  | .pound => .binding

/-- The sigil that a kind of token drops from its text. -/
def sigil? : Kind → Option Sigil
  | .constant => some .dollar
  | .binding => some .pound
  | _ => none

end Kind

/-- A word of the program. The text of a counted loop is its repetition count in decimal, that of a
name lacks the sigil, and that of an indentation change is empty; the span covers all of it. -/
structure Token where
  kind : Kind
  text : String
  span : Span
deriving DecidableEq

namespace Token

/-- The wording of a token in a message: layout by kind alone, anything else with its text. -/
def describe (t : Token) : String :=
  if t.kind.isLayout then t.kind.name else t.kind.name ++ " `" ++ t.text ++ "`"

/-- The wording of a token in a listing, on one line whatever its text is. -/
def display (t : Token) : String :=
  if t.kind.isLayout then t.kind.name else t.kind.name ++ " " ++ Text.quoted t.text

/-- The same token when `n` more bytes stand in front of the source. -/
def shift (n : Nat) (t : Token) : Token := { t with span := t.span.shift n }

end Token

end PhraseLang
