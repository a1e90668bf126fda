import PhraseLang.Proofs.Bare
import PhraseLang.Proofs.Passage

/-! The tokens of a text without their places.
They depend on the text and on the levels that are open in front of it, and not on where it
stands. -/
namespace PhraseLang
open Text Layout

/-- The tokens of a text behind some open levels, without their places. -/
def bareTokens (tab : UInt64) (levels : List UInt64) (text : List Char) : List Token :=
  (place tab ⟨0, levels⟩ (pieces text)).map Token.bare

def Kind.bare (k : Kind) (text : String) : Token := ⟨k, text, ⟨0, 0⟩⟩

theorem Token.bare_eq (t : Token) : t.bare = t.kind.bare t.text := rfl

section
variable {tab : UInt64} {levels : List UInt64}

theorem place_bare (tab : UInt64) (s : State) (ps : List Piece) :
    (place tab s ps).map Token.bare = (place tab ⟨0, s.levels⟩ ps).map Token.bare := by
  have moved := place_shift tab ⟨0, s.levels⟩ ps s.offset
  rw [Nat.zero_add] at moved
  rw [moved, List.map_map]
  rfl

theorem bareTokens_of_pieces {text rest : List Char} {p : Piece}
    (whole : pieces text = p :: pieces rest) :
    bareTokens tab levels text =
      (State.tokens tab ⟨0, levels⟩ (pieces rest) p).map Token.bare ++
        bareTokens tab (State.next tab ⟨0, levels⟩ (pieces rest) p).levels rest := by
  rw [bareTokens, whole, place, List.map_append, place_bare]
  rfl

theorem bareTokens_of_cut {c : Char} {cs rest : List Char}
    (cut : c :: cs = (Piece.atStart c cs).source ++ rest) :
    bareTokens tab levels (c :: cs) =
      (State.tokens tab ⟨0, levels⟩ (pieces rest) (Piece.atStart c cs)).map Token.bare ++
        bareTokens tab (State.next tab ⟨0, levels⟩ (pieces rest) (Piece.atStart c cs)).levels
          rest :=
  bareTokens_of_pieces (pieces_of_cut cut)

theorem bareTokens_of_silent {text rest : List Char} {p : Piece} (silent : p.isSilent = true)
    (whole : pieces text = p :: pieces rest) :
    bareTokens tab levels text = bareTokens tab levels rest := by
  rw [bareTokens_of_pieces whole]
  cases p with
  | blank | comment => rfl
  | newline | lexeme => cases silent

theorem bareTokens_of_blank {b : Char} (blank : Piece.isBlank b = true) (rest : List Char) :
    bareTokens tab levels (b :: rest) = bareTokens tab levels rest :=
  bareTokens_of_silent rfl (pieces_of_blank blank rest)

theorem bareTokens_blank (rest : List Char) :
    bareTokens tab levels (' ' :: rest) = bareTokens tab levels rest :=
  bareTokens_of_blank rfl rest

end

end PhraseLang
