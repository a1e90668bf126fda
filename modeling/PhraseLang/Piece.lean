import PhraseLang.Comment
import PhraseLang.Lexeme

/-! A source cut into pieces, before layout.
Where a piece begins and ends depends only on the text from there on. The pieces hold all of the
source, in order. -/
namespace PhraseLang

inductive Piece where
  /-- A line feed with the spaces and tabs that open the next line. -/
  | newline (indentation : List Char)
  /-- One space, tab or carriage return elsewhere. -/
  | blank (c : Char)
  | comment (extent : Comment.Extent)
  | lexeme (x : Lexeme)
deriving DecidableEq

namespace Piece

/-- What a line may be indented with. -/
def isIndentation (c : Char) : Bool := c == ' ' || c == '\t'

def isBlank (c : Char) : Bool := isIndentation c || c == '\r'

def source : Piece → List Char
  | .newline indentation => '\n' :: indentation
  | .blank c => [c]
  | .comment extent => extent.text
  | .lexeme x => x.text

def atStart (c : Char) (cs : List Char) : Piece :=
  if c = '\n' then .newline (cs.takeWhile isIndentation)
  else if isBlank c then .blank c
  else match Comment.atStart? (c :: cs) with
    | some extent => .comment extent
    | none => .lexeme (Lexeme.atStart c cs)

theorem atStart_prefix (c : Char) (cs : List Char) : (atStart c cs).source <+: c :: cs := by
  unfold atStart
  split
  · rename_i feed
    exact List.cons_prefix_cons.mpr ⟨feed.symm, List.takeWhile_prefix _⟩
  split
  · exact List.cons_prefix_cons.mpr ⟨rfl, List.nil_prefix⟩
  split
  · rename_i found
    exact Comment.prefix_of_atStart? found
  · exact Lexeme.atStart_prefix c cs

theorem atStart_ne_nil (c : Char) (cs : List Char) : (atStart c cs).source ≠ [] := by
  unfold atStart
  split
  · simp [source]
  split
  · simp [source]
  split
  · rename_i found
    exact Comment.ne_nil_of_atStart? found
  · exact Lexeme.atStart_ne_nil c cs

end Piece

def pieces : List Char → List Piece
  | [] => []
  | c :: cs => Piece.atStart c cs :: pieces (cs.drop ((Piece.atStart c cs).source.length - 1))
termination_by text => text.length

theorem pieces_cons (c : Char) (cs : List Char) :
    pieces (c :: cs) =
      Piece.atStart c cs :: pieces ((c :: cs).drop (Piece.atStart c cs).source.length) := by
  have positive := List.length_pos_iff.mpr (Piece.atStart_ne_nil c cs)
  rw [pieces]
  congr 2
  obtain ⟨n, size⟩ := Nat.exists_eq_add_one.mpr positive
  simp [size]

/-- Nothing of a text is lost in its pieces. -/
theorem flatMap_source_pieces (text : List Char) : (pieces text).flatMap Piece.source = text := by
  match text with
  | [] => simp [pieces]
  | c :: cs =>
    have smaller :
        ((c :: cs).drop (Piece.atStart c cs).source.length).length < (c :: cs).length := by
      have positive := List.length_pos_iff.mpr (Piece.atStart_ne_nil c cs)
      simp only [List.length_drop, List.length_cons]
      omega
    rw [pieces_cons, List.flatMap_cons, flatMap_source_pieces]
    exact (List.prefix_iff_eq_append.mp (Piece.atStart_prefix c cs))
termination_by text.length
decreasing_by exact smaller

end PhraseLang
