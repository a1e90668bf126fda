import PhraseLang.Text.ExtendingMark
import PhraseLang.Text.Unprintable

/-! Texts in double quotes on one line.
A quote and a backslash are escaped by a backslash, four controls by a letter of their own, and
every other character that would not be seen by the hexadecimal number of its code point. -/
namespace PhraseLang.Text

/-- An ASCII character that stands for itself without a look at the tables. -/
def isPlain (c : Char) : Bool := 0x20 ≤ c.toNat && c.toNat ≤ 0x7e

/-- Whether a character is written by its code point. -/
def isNumbered (c : Char) : Bool := !isPlain c && (isExtendingMark c || isUnprintable c)

def escape (c : Char) : List Char :=
  match c with
  | '\x00' => ['\\', '0']
  | '\t' => ['\\', 't']
  | '\n' => ['\\', 'n']
  | '\r' => ['\\', 'r']
  | '"' => ['\\', '"']
  | '\\' => ['\\', '\\']
  | c => if isNumbered c then ['\\', 'u', '{'] ++ Nat.toDigits 16 c.toNat ++ ['}'] else [c]

/-- A text between quotes, every character escaped where it must be. -/
def quoted (text : String) : String :=
  String.ofList ('"' :: text.toList.flatMap escape ++ ['"'])

end PhraseLang.Text
