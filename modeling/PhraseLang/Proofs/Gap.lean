import PhraseLang.Proofs.Cut

/-! Text in front of a blank.
A blank ends whatever begins in front of it, apart from an indentation, a comment, and a phrase or
a mark that is spelled with a blank there. So a piece that is none of these is the same with the
blank behind it and without. -/
namespace PhraseLang
open Layout

/-- What is found as a whole or not at all: the marks of comments and the phrases. -/
def spellings : List (List Char) := Comment.marks ++ Keyword.all.map Keyword.letters

/-- Nothing that is spelled in full begins in the front and ends behind it. -/
def Unbroken (front rest : List Char) : Prop :=
  ∀ spelling ∈ spellings, spelling <+: front ++ rest → spelling <+: front

theorem mark_mem_spellings {mark : List Char} (isMark : mark ∈ Comment.marks) :
    mark ∈ spellings :=
  List.mem_append_left _ isMark

theorem letters_mem_spellings (k : Keyword) : k.letters ∈ spellings :=
  List.mem_append_right _ (List.mem_map_of_mem (Keyword.mem_all k))

theorem eq_of_isBlank {b : Char} (blank : Piece.isBlank b = true) :
    b = ' ' ∨ b = '\t' ∨ b = '\r' := by
  simpa [Piece.isBlank, Piece.isIndentation, or_assoc] using blank

/-- Blanks are in none of the classes of characters that lexemes are made of. -/
theorem stop_of_isBlank {p : Char → Bool} {b : Char} (blank : Piece.isBlank b = true)
    (stop : [' ', '\t', '\r'].all (fun c => !p c) = true) : p b = false := by
  have listed : b ∈ [' ', '\t', '\r'] := by simpa using eq_of_isBlank blank
  exact (Bool.not_eq_true' _).mp (List.all_eq_true.mp stop b listed)

theorem settled_of_blank {b : Char} (blank : Piece.isBlank b = true) (front rest : List Char) :
    Settled front (b :: rest) := by
  intro k _ _ c first
  obtain rfl := Option.mem_some.mp first
  exact stop_of_isBlank blank (by decide)

section
variable {b c : Char} {cs front rest : List Char}

theorem Lexeme.mem_numeral {d : Char} {text : List Char} (inside : d ∈ numeral text) :
    d.isDigit = true ∨ d = '.' := by
  have digits (part : List Char) : ∀ d ∈ part.takeWhile Char.isDigit, d.isDigit = true :=
    List.all_eq_true.mp List.all_takeWhile
  rw [numeral_eq] at inside
  rcases List.mem_append.mp inside with inside | inside
  · exact .inl (digits _ d inside)
  · rcases fraction_cases (text.dropWhile Char.isDigit) with ⟨none, -⟩ | ⟨part, -, -, some⟩
    · rw [none] at inside
      cases inside
    · rw [some] at inside
      rcases List.mem_cons.mp inside with isPoint | inside
      · exact .inr isPoint
      · exact .inl (digits _ d inside)

theorem Lexeme.blank_not_mem_numeral (blank : Piece.isBlank b = true) (text : List Char) :
    b ∉ numeral text := by
  intro inside
  rcases mem_numeral inside with digit | rfl
  · have noDigit : Char.isDigit b = false := stop_of_isBlank blank (by decide)
    rw [noDigit] at digit
    cases digit
  · cases blank

/-- A lexeme goes beyond a blank only where a phrase does. -/
theorem Lexeme.text_before_blank (blank : Piece.isBlank b = true)
    (unbroken : Unbroken (c :: cs) (b :: rest)) :
    (atStart c (cs ++ b :: rest)).text <+: c :: cs := by
  have noLetter : Char.isAlpha b = false := stop_of_isBlank blank (by decide)
  have single : [c] <+: c :: cs := List.cons_prefix_cons.mpr ⟨rfl, List.nil_prefix⟩
  have form := form_atStart c (cs ++ b :: rest)
  generalize atStart c (cs ++ b :: rest) = x at form
  cases form with
  | punctuation | operator | bareSigil | unknown => exact single
  | @keyword k noSymbol found =>
    have here : k.letters <+: c :: cs ++ b :: rest := Keyword.prefix_of_atStart? found
    obtain ⟨tail, cut⟩ := unbroken _ (letters_mem_spellings k) here
    rw [← List.cons_append, ← cut, ofKeyword, List.append_assoc, List.drop_left]
    refine (List.prefix_append_right_inj k.letters).mpr ?_
    split
    · exact takeWhile_before (stop_of_isBlank (p := (· == Keyword.repeatMark)) blank (by decide))
    · exact List.nil_prefix
  | name => exact List.cons_prefix_cons.mpr ⟨rfl, takeWhile_before noLetter⟩
  | word =>
    rw [← List.cons_append]
    exact takeWhile_before noLetter
  | number =>
    have here : numeral (c :: cs ++ b :: rest) <+: c :: cs ++ b :: rest := numeral_prefix _
    exact prefix_before here (blank_not_mem_numeral blank _)

/-- The pieces that would go on with more blanks. -/
inductive Piece.OpenEnd (text : List Char) : Piece → Prop where
  | newline {indentation : List Char} : text = '\n' :: indentation →
      OpenEnd text (.newline indentation)
  | line : OpenEnd text (.comment (.line text))
  | unclosed {body : List Char} : OpenEnd text (.comment (.unclosed body))

theorem Comment.text_before_blank {e : Extent} (found : atStart? (front ++ b :: rest) = some e)
    (unbroken : Unbroken front (b :: rest)) (ended : atStart? front ≠ some (.line front))
    (closed : ∀ text, atStart? front ≠ some (.unclosed text)) : e.text <+: front := by
  have whole (mark : List Char) (isMark : mark ∈ marks) := unbroken mark (mark_mem_spellings isMark)
  refine text_within found whole (fun text isLine => ?_) closed
  subst isLine
  obtain ⟨marked, rfl⟩ := atStart?_eq_line_iff.mp found
  rw [List.takeWhile_append]
  split
  · rename_i all
    have goesOn := (List.takeWhile_prefix (l := front) _).eq_of_length all
    refine absurd ?_ ended
    exact atStart?_eq_line_iff.mpr ⟨whole _ List.mem_cons_self marked, goesOn.symm⟩
  · exact List.takeWhile_prefix _

theorem Piece.source_before_blank (blank : isBlank b = true)
    (unbroken : Unbroken (c :: cs) (b :: rest)) (closed : ¬ OpenEnd (c :: cs) (atStart c cs)) :
    (atStart c (cs ++ b :: rest)).source <+: c :: cs := by
  have form := form_atStart c (cs ++ b :: rest)
  generalize here : atStart c (cs ++ b :: rest) = p at form
  cases form with
  | newline isFeed =>
    subst isFeed
    refine List.cons_prefix_cons.mpr ⟨rfl, ?_⟩
    rw [List.takeWhile_append]
    split
    · rename_i all
      have goesOn : cs.takeWhile isIndentation = cs := (List.takeWhile_prefix _).eq_of_length all
      refine absurd ?_ closed
      rw [atStart, if_pos rfl, goesOn]
      exact .newline rfl
    · exact List.takeWhile_prefix _
  | blank => exact List.cons_prefix_cons.mpr ⟨rfl, List.nil_prefix⟩
  | comment noFeed noBlank found =>
    have found : Comment.atStart? (c :: cs ++ b :: rest) = some _ := found
    have comment {e : Comment.Extent} (alone : Comment.atStart? (c :: cs) = some e) :
        atStart c cs = .comment e := by
      rw [atStart, if_neg noFeed, noBlank, if_neg (by simp), alone]
    refine Comment.text_before_blank found unbroken (fun line => ?_) fun text opened => ?_
    · rw [comment line] at closed
      exact closed .line
    · rw [comment opened] at closed
      exact closed .unclosed
  | lexeme => exact Lexeme.text_before_blank blank unbroken

/-- In front of a blank stands what stands at the end of the text. -/
theorem Piece.atStart_before_blank (blank : isBlank b = true)
    (unbroken : Unbroken (c :: cs) (b :: rest)) (closed : ¬ OpenEnd (c :: cs) (atStart c cs)) :
    atStart c (cs ++ b :: rest) = atStart c cs :=
  (atStart_front (settled_of_blank blank _ _) (source_before_blank blank unbroken closed)).symm

end

end PhraseLang
