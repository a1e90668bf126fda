import PhraseLang.Piece
import PhraseLang.Text.Bytes

/-! Layout: pieces of source put into place as tokens.
After each line feed the next line is measured and, unless it is blank, compared with the open
levels of indentation: a wider line opens a level, a narrower one closes every level wider than it.
Levels still open at the end of the source are closed there. A line whose width overflows 64 bits
ends everything: such a source has no tokens. -/
namespace PhraseLang

namespace Layout

def maxWidth : UInt64 := 0xffffffffffffffff

/-- A tab widens a line by its width and never beyond the maximum. -/
def addTab (tab width : UInt64) : UInt64 :=
  if width.toNat + tab.toNat < UInt64.size then width + tab else maxWidth

/-- A space widens a line by one. On top of the maximum the sum overflows, and there is no width. -/
def addSpace? (width : UInt64) : Option UInt64 :=
  if width.toNat + 1 < UInt64.size then some (width + 1) else none

/-- The width of a row of spaces and tabs. A row in which a space overflows has none: whoever
measures it halts there, and neither the line nor anything else of the source comes to a token. -/
def width? (tab : UInt64) (indentation : List Char) : Option UInt64 :=
  indentation.foldlM (fun w c => if c = '\t' then some (addTab tab w) else addSpace? w) 0

/-- The width of a row that has one. -/
def width (tab : UInt64) (indentation : List Char) : UInt64 := (width? tab indentation).getD 0

/-- The line goes no further: its end, the end of the source, a carriage return, or a comment up to
the end of the line comes next. -/
def lineEnds : List Piece → Bool
  | [] | .newline _ :: _ | .blank '\r' :: _ | .comment (.line _) :: _ => true
  | _ => false

def isSpacing : Piece → Bool
  | .blank c => Piece.isIndentation c
  | _ => false

/-- Whether the line that begins with these pieces, behind its indentation, is passed over by
layout. One block comment at its beginning is looked through; one that is never closed hides the
rest of the source. -/
def isBlankLine : List Piece → Bool
  | .comment (.block _) :: rest => lineEnds (rest.dropWhile isSpacing)
  | .comment (.unclosed _) :: _ => true
  | line => lineEnds line

/-- How far the pieces are placed: the offset of the next one, and the widths of the open levels,
innermost first and without the base level 0. -/
structure State where
  offset : Nat
  levels : List UInt64
deriving DecidableEq

def top (levels : List UInt64) : UInt64 := levels.headD 0

/-- The open levels behind a line of width `w`. -/
def measure (w : UInt64) (levels : List UInt64) : List UInt64 :=
  if top levels < w then w :: levels else levels.dropWhile (w < ·)

def State.tokens (tab : UInt64) (s : State) (rest : List Piece) : Piece → List Token
  | .newline indentation =>
    let start := s.offset + 1
    let stop := start + Text.byteLength indentation
    let here := width tab indentation
    ⟨.newline, "\n", ⟨s.offset, start⟩⟩ ::
      if isBlankLine rest then []
      else if top s.levels < here then [⟨.indent, "", ⟨start, stop⟩⟩]
      else (s.levels.takeWhile (here < ·)).map fun _ => ⟨.dedent, "", .point stop⟩
  | .lexeme x => [⟨x.kind, x.value, ⟨s.offset, s.offset + Text.byteLength x.text⟩⟩]
  | .blank _ | .comment _ => []

def State.next (tab : UInt64) (s : State) (rest : List Piece) (p : Piece) : State where
  offset := s.offset + Text.byteLength p.source
  levels := match p with
    | .newline indentation =>
      if isBlankLine rest then s.levels else measure (width tab indentation) s.levels
    | _ => s.levels

def place (tab : UInt64) (s : State) : List Piece → List Token
  | [] => s.levels.map fun _ => ⟨.dedent, "", .point s.offset⟩
  | p :: rest => s.tokens tab rest p ++ place tab (s.next tab rest p) rest

/-- What the lines behind line feeds are indented with, those of blank lines too. -/
def indentations (ps : List Piece) : List (List Char) := ps.filterMap fun
  | .newline indentation => some indentation
  | _ => none

end Layout

def defaultTabWidth : UInt64 := 4

/-- The tokens of a source whose lines all have a width. Each has some: what is not understood is a
token too. -/
def tokenize (tab : UInt64) (source : String) : List Token :=
  Layout.place tab ⟨0, []⟩ (pieces source.toList)

/-- The tokens of a source, or none where the width of a line overflows, a blank one included. -/
def tokenize? (tab : UInt64) (source : String) : Option (List Token) :=
  if (Layout.indentations (pieces source.toList)).all fun row => (Layout.width? tab row).isSome then
    some (tokenize tab source)
  else none

end PhraseLang
