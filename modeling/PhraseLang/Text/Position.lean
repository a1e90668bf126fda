import PhraseLang.Text.Bytes

/-! Where an offset stands in a text: its line, its column and the whole line.
Lines are the pieces between line feeds; columns count characters. An offset past the end, or inside
a character, stands for the last character boundary that is not above it. -/
namespace PhraseLang.Text

def advance (place : Nat × Nat) (c : Char) : Nat × Nat :=
  if c = '\n' then (place.1 + 1, 1) else (place.1, place.2 + 1)

/-- The line and the column of an offset, both counted from one. -/
def lineColumn (source : List Char) (offset : Nat) : Nat × Nat :=
  (takeBytes offset source).foldl advance (1, 1)

def lastLine (cs : List Char) : List Char := (cs.reverse.takeWhile (· ≠ '\n')).reverse

def firstLine (cs : List Char) : List Char := cs.takeWhile (· ≠ '\n')

/-- The line that an offset stands in, without its line feed. -/
def lineAround (source : List Char) (offset : Nat) : List Char :=
  lastLine (takeBytes offset source) ++ firstLine (dropBytes offset source)

structure Position where
  line : Nat
  column : Nat
  text : String
deriving DecidableEq

def position (source : String) (offset : Nat) : Position where
  line := (lineColumn source.toList offset).1
  column := (lineColumn source.toList offset).2
  text := String.ofList (lineAround source.toList offset)

theorem foldl_advance_reverse (cs : List Char) :
    cs.reverse.foldl advance (1, 1) =
      (cs.count '\n' + 1, (cs.takeWhile (· ≠ '\n')).length + 1) := by
  induction cs with
  | nil => rfl
  | cons c cs ih =>
    rw [List.reverse_cons, List.foldl_append, ih]
    by_cases h : c = '\n' <;> simp [advance, h]

/-- The line counts the line feeds in front, the column the characters behind the last of them. -/
theorem lineColumn_eq (source : List Char) (offset : Nat) :
    lineColumn source offset =
      ((takeBytes offset source).count '\n' + 1,
        (lastLine (takeBytes offset source)).length + 1) := by
  have h := foldl_advance_reverse (takeBytes offset source).reverse
  simpa [lineColumn, lastLine] using h

end PhraseLang.Text
