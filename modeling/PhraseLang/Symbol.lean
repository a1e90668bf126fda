/-! The one-character symbols: binary operators, punctuation, and the sigils in front of names. -/
namespace PhraseLang

inductive Operator where
  | plus | minus | star | slash
deriving DecidableEq

namespace Operator

def all : List Operator := [.plus, .minus, .star, .slash]

def name : Operator → String
  | .plus => "Plus"
  | .minus => "Minus"
  | .star => "Star"
  | .slash => "Slash"

def symbol : Operator → Char
  | .plus => '+'
  | .minus => '-'
  | .star => '*'
  | .slash => '/'

/-- How strongly an operator binds; operators of one precedence group to the left. -/
def precedence : Operator → Nat
  | .plus | .minus => 1
  | .star | .slash => 2

def ofChar? (c : Char) : Option Operator := all.find? fun o => o.symbol == c

theorem ofChar?_eq_some_iff {c : Char} {o : Operator} : ofChar? c = some o ↔ c = o.symbol := by
  constructor
  · intro h
    have found := List.find?_some h
    exact (eq_of_beq found).symm
  · rintro rfl
    cases o <;> rfl

end Operator

inductive Punctuation where
  | leftParen | rightParen | leftCurly | rightCurly | comma
deriving DecidableEq

namespace Punctuation

def all : List Punctuation := [.leftParen, .rightParen, .leftCurly, .rightCurly, .comma]

def name : Punctuation → String
  | .leftParen => "LeftParen"
  | .rightParen => "RightParen"
  | .leftCurly => "LeftCurly"
  | .rightCurly => "RightCurly"
  | .comma => "Comma"

def symbol : Punctuation → Char
  | .leftParen => '('
  | .rightParen => ')'
  | .leftCurly => '{'
  | .rightCurly => '}'
  | .comma => ','

def ofChar? (c : Char) : Option Punctuation := all.find? fun p => p.symbol == c

theorem ofChar?_eq_some_iff {c : Char} {p : Punctuation} : ofChar? c = some p ↔ c = p.symbol := by
  constructor
  · intro h
    have found := List.find?_some h
    exact (eq_of_beq found).symm
  · rintro rfl
    cases p <;> rfl

end Punctuation

/-- Names never stand bare: a dollar sign announces a constant, a pound sign a variable. -/
inductive Sigil where
  | dollar | pound
deriving DecidableEq

namespace Sigil

def symbol : Sigil → Char
  | .dollar => '$'
  | .pound => '£'

def ofChar? (c : Char) : Option Sigil :=
  if c = '$' then some .dollar else if c = '£' then some .pound else none

theorem ofChar?_eq_some_iff {c : Char} {s : Sigil} : ofChar? c = some s ↔ c = s.symbol := by
  cases s <;> simp only [ofChar?, symbol] <;> split <;> simp_all

end Sigil

end PhraseLang
