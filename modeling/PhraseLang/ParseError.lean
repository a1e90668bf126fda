import PhraseLang.Token

/-! Why a row of tokens is not a program, and how that is told. -/
namespace PhraseLang

inductive ParseError where
  /-- A token that is none of the kinds that could stand there. -/
  | unexpectedToken (found : Token) (expected : List Kind)
  /-- The tokens, or the run of an expression, end where one of these kinds is missing. -/
  | unexpectedEnd (expected : List Kind) (offset : Nat)
  | notAnOperand (found : Token)
  | notAStatement (found : Token)
  /-- A repetition count that is no 64-bit numeral. -/
  | badCount (found : Token)
deriving DecidableEq

namespace ParseError

def found? : ParseError → Option Token
  | .unexpectedToken found _ | .notAnOperand found | .notAStatement found | .badCount found =>
    some found
  | .unexpectedEnd _ _ => none

/-- The kinds that could have stood there, where the error is about a set of them. -/
def expected : ParseError → List Kind
  | .unexpectedToken _ expected | .unexpectedEnd expected _ => expected
  | _ => []

def span : ParseError → Span
  | .unexpectedEnd _ offset => .point offset
  | .unexpectedToken found _ | .notAnOperand found | .notAStatement found | .badCount found =>
    found.span

/-- Alternatives in a sentence, each name once: `A`, `A or B`, `A, B or C`. -/
def alternatives (kinds : List Kind) : String :=
  match (kinds.map Kind.name).eraseDups.reverse with
  | [] => "nothing"
  | [only] => only
  | last :: others => ", ".intercalate others.reverse ++ " or " ++ last

def message : ParseError → String
  | .unexpectedToken found expected =>
    "unexpected " ++ found.describe ++ ", expected " ++ alternatives expected
  | .unexpectedEnd expected _ => "unexpected end of input, expected " ++ alternatives expected
  | .notAnOperand found => "unidentifiable operand " ++ found.describe
  | .notAStatement found => "unrecognized statement starting with " ++ found.describe
  | .badCount found => "invalid repetition count `" ++ found.text ++ "`"

def code : ParseError → String
  | .unexpectedToken _ _ => "vita::parse::unexpected_token"
  | .unexpectedEnd _ _ => "vita::parse::unexpected_eof"
  | .notAnOperand _ => "vita::parse::unidentifiable_operand"
  | .notAStatement _ => "vita::parse::unrecognized_statement"
  | .badCount _ => "vita::parse::invalid_repeat_count"

def label : ParseError → String
  | .unexpectedToken _ _ => "unexpected token"
  | .unexpectedEnd _ _ => "input ends here"
  | .notAnOperand _ => "not an operand"
  | .notAStatement _ => "no statement starts like this"
  | .badCount _ => "repetition count out of range"

/-- Advice on the shape of a block, given where layout is missing. -/
def blockHelp (expected : List Kind) : Option String :=
  if expected.any Kind.isLayout then
    some <| "a block is `\x7b`, a line break, an indented body, " ++
      "then `\x7d` back at the outer indentation"
  else none

def help? : ParseError → Option String
  | .unexpectedToken _ expected | .unexpectedEnd expected _ => blockHelp expected
  | .notAnOperand _ => some "operands are numbers, bare words, `$constants` or `£variables`"
  | .notAStatement _ =>
    some <| "statements start with `" ++ Keyword.define.phrase ++ "`, `" ++
      Keyword.ifThen.phrase ++ "`, `" ++ Keyword.countedLoop.phrase ++ "`, or `(condition) " ++
      Keyword.whileLoop.phrase ++ "`"
  | .badCount _ => some "use fewer trailing `s` characters"

end ParseError

end PhraseLang
