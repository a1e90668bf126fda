import PhraseLang.Expr
import PhraseLang.ParseError

/-! Runs: the tokens of one expression, cut out between two delimiters.
The positions of a run are operands and separators in turn, from an operand on; the first token that
does not fit its position is the error. -/
namespace PhraseLang.Run

def comma : Kind := .punctuation .comma

def operandKinds : List Kind := [.number, .word, .constant, .binding]

/-- What may stand at the position of a separator: an operator, and in an array a comma. -/
def separatorKinds (isArray : Bool) : List Kind :=
  Operator.all.map .operator ++ if isArray then [comma] else []

/-- The expressions of a run, given the first one as far as it has been read. An operator extends
it by the operand that follows, a comma begins the next one. `stop` is where the run ends. -/
def elements (isArray : Bool) (stop : Nat) : Expr → List Token → Except ParseError (List Expr)
  | current, [] => .ok [current]
  | current, separator :: rest =>
    if separator.kind ∈ separatorKinds isArray then
      match rest with
      | [] => .error (.unexpectedEnd operandKinds stop)
      | operand :: rest =>
        if operand.kind.isLiteral then
          if separator.kind = comma then
            (elements isArray stop (.literal operand) rest).map (current :: ·)
          else elements isArray stop (current.extend separator operand) rest
        else .error (.notAnOperand operand)
    else .error (.unexpectedToken separator (separatorKinds isArray))

/-- The expression that a run is. Where arrays are allowed, any comma makes the run an array. -/
def read (arrayAllowed : Bool) (stop : Nat) (run : List Token) : Except ParseError Expr :=
  match run with
  | [] => .error (.unexpectedEnd operandKinds stop)
  | operand :: rest =>
    if operand.kind.isLiteral then
      let isArray := arrayAllowed && run.any fun t => t.kind == comma
      (elements isArray stop (.literal operand) rest).map .ofElements
    else .error (.notAnOperand operand)

end PhraseLang.Run
