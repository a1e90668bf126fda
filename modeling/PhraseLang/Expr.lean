import PhraseLang.Token

/-! Expressions: literals, binary operations and arrays, built of the tokens they were read from. -/
namespace PhraseLang

inductive Expr where
  | literal (token : Token)
  | binary (left : Expr) (op : Token) (right : Expr)
  | array (elements : List Expr)

namespace Expr

/-- The operator at the top; none for a literal, an array, or a token that is no operator. -/
def operator? : Expr → Option Operator
  | .binary _ op _ => op.kind.operator?
  | _ => none

/-- From the first token to the last. An array spans its first through its last element. -/
def span : Expr → Span
  | .literal token => token.span
  | .binary left _ right => left.span.merge right.span
  | .array [] => .point 0
  | .array (first :: rest) => first.span.merge (lastSpan first.span rest)
where
  /-- The span of the last of some expressions, or the given one if there is none. -/
  lastSpan (otherwise : Span) : List Expr → Span
    | [] => otherwise
    | e :: rest => lastSpan e.span rest

/-- A token as an expression shows it: a name with its sigil, anything else as it is. -/
def literalText (token : Token) : String :=
  match token.kind.sigil? with
  | some sigil => sigil.symbol.toString ++ token.text
  | none => token.text

/-- The written form: operators in front, in parentheses; arrays in brackets. -/
def text : Expr → String
  | .literal token => literalText token
  | .binary left op right => "(" ++ op.text ++ " " ++ left.text ++ " " ++ right.text ++ ")"
  | .array [] => "[]"
  | .array (first :: rest) => "[" ++ first.text ++ restText rest ++ "]"
where
  restText : List Expr → String
    | [] => ""
    | e :: rest => ", " ++ e.text ++ restText rest

def strength (op : Token) : Nat := (op.kind.operator?.map Operator.precedence).getD 0

/-- The expression with one more operator and operand at its right end. An operator that binds more
strongly than the one at the top takes its left operand from the right end of the tree. -/
def extend (e : Expr) (op operand : Token) : Expr :=
  match e with
  | .binary left top right =>
    if strength top < strength op then .binary left top (right.extend op operand)
    else .binary e op (.literal operand)
  | _ => .binary e op (.literal operand)

/-- One expression as itself, several as an array. -/
def ofElements : List Expr → Expr
  | [e] => e
  | elements => .array elements

end Expr

end PhraseLang
