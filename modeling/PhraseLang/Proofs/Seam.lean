import PhraseLang.Proofs.Gap
import PhraseLang.Proofs.Passage

/-! Text in front of a letter.
A comment that directly follows other text begins with a letter, so what ends there ends well
without a blank: only another comment, or a counted loop, ends with a letter itself. A phrase or a
mark that has a blank behind the same text is therefore none, and a space may stand in place of the
comment. The suffix of a while loop is the one phrase that ends with no letter. -/
namespace PhraseLang
open Layout

theorem takeWhile_ne_front {p : Char → Bool} {c : Char} (goesOn : p c = true)
    (front rest : List Char) : (front ++ c :: rest).takeWhile p ≠ front := by
  intro same
  have all : ∀ d ∈ front, p d = true := by
    intro d inside
    rw [← same] at inside
    exact List.mem_takeWhile_imp inside
  rw [List.takeWhile_append_of_pos all, List.takeWhile_cons_of_pos goesOn] at same
  have size := congrArg List.length same
  simp at size

/-- A text that ends with a letter only behind a mark of a comment or the phrase of a counted
loop. -/
def Closed (text : List Char) : Prop :=
  text.getLast?.any Char.isAlpha = true → '>' ∈ text ∨ Keyword.countedLoop.letters <:+: text

instance (text : List Char) : Decidable (Closed text) := inferInstanceAs (Decidable (_ → _))

theorem Closed.of_last {c : Char} {text : List Char} (last : text.getLast? = some c)
    (noLetter : c.isAlpha = false) : Closed text := by
  intro letter
  rw [last, Option.any_some, noLetter] at letter
  cases letter

theorem Closed.of_plain {text : List Char} (plain : ∀ c ∈ text, c.isAlpha = false) :
    Closed text := by
  cases last : text.getLast? with
  | none =>
    intro letter
    rw [last] at letter
    cases letter
  | some c => exact .of_last last (plain c (List.mem_of_getLast? last))

theorem Closed.append {tail : List Char} (closed : Closed tail) (nonempty : tail ≠ [])
    (front : List Char) : Closed (front ++ tail) := by
  intro letter
  obtain ⟨c, last⟩ := Option.isSome_iff_exists.mp (List.getLast?_isSome.mpr nonempty)
  rw [List.getLast?_append, last, Option.some_or, ← last] at letter
  rcases closed letter with arrow | loop
  · exact .inl (List.mem_append_right front arrow)
  · exact .inr (loop.trans (List.suffix_append front tail).isInfix)

/-- The front of a spelling up to one of its blanks ends with a letter. -/
theorem not_closed_of_blank {front rest : List Char} (listed : front ++ ' ' :: rest ∈ spellings) :
    ¬ Closed front := by
  have table : ∀ spelling ∈ spellings, ∀ n ∈ List.range spelling.length,
      spelling[n]? = some ' ' → ¬ Closed (spelling.take n) := by decide +kernel
  have here := table _ listed front.length (by simp) (by simp)
  rwa [List.take_left] at here

theorem not_closed_letters {k : Keyword} (notLoop : k ≠ .whileLoop)
    (noTrailer : k.takesTrailer = false) : ¬ Closed k.letters := by
  cases k with
  | whileLoop => exact absurd rfl notLoop
  | countedLoop => cases noTrailer
  | _ => decide +kernel

namespace Comment
variable {text rest : List Char} {e : Extent}

theorem exists_head (found : atStart? text = some e) :
    ∃ c cs, text = c :: cs ∧ (c = 'e' ∨ c = 'a') := by
  have heads : ∀ mark ∈ marks, mark.head?.any (fun c => c = 'e' ∨ c = 'a') = true := by decide
  by_contra none
  have missed : atStart? text = .none := atStart?_of_miss fun mark isMark here => by
    have head := heads mark isMark
    obtain ⟨tail, rfl⟩ := here
    cases mark with
    | nil => cases head
    | cons c mark => exact none ⟨c, mark ++ tail, rfl, of_decide_eq_true head⟩
  rw [found] at missed
  cases missed

theorem arrow_mem_text (whole : Whole e rest) : '>' ∈ e.text := by
  cases whole with
  | line marked => exact marked.subset (by decide)
  | block => exact List.mem_append_left _ (by decide)
  | unclosed => exact List.mem_append_left _ (by decide)

end Comment

section
variable {c d : Char} {cs rest more : List Char}

/-- In front of a letter only the phrase of a counted loop ends well. -/
theorem Lexeme.closed_keyword {k : Keyword} (letter : d.isAlpha = true)
    (found : Keyword.atStart? (c :: (cs ++ d :: rest)) = some k)
    (whole : (ofKeyword k (c :: (cs ++ d :: rest))).text = c :: cs) : Closed (c :: cs) := by
  cases trailer : k.takesTrailer with
  | true =>
    obtain rfl : k = .countedLoop := by
      cases k with
      | countedLoop => rfl
      | _ => cases trailer
    intro _
    rw [← whole]
    exact .inr (List.prefix_append _ _).isInfix
  | false =>
    have whole : k.letters = c :: cs := by simpa [ofKeyword, trailer] using whole
    have ends := List.find?_some found
    have behind : (c :: (cs ++ d :: rest)).drop k.letters.length = d :: rest := by
      rw [whole, ← List.cons_append, List.drop_left]
    simp [Keyword.endsWell, trailer, behind, Keyword.continuesWord, Char.isAlphanum, letter]
      at ends

/-- A lexeme that is all of the text in front of a letter. -/
theorem Lexeme.closed_text (letter : d.isAlpha = true)
    (whole : (atStart c (cs ++ d :: rest)).text = c :: cs) : Closed (c :: cs) := by
  have single (noLetter : c.isAlpha = false) (here : [c] = c :: cs) : Closed (c :: cs) := by
    obtain rfl := (List.cons.inj here).2
    exact .of_last rfl noLetter
  have form := form_atStart c (cs ++ d :: rest)
  generalize atStart c (cs ++ d :: rest) = x at form whole
  cases form with
  | @punctuation p isSymbol =>
    obtain rfl := Punctuation.ofChar?_eq_some_iff.mp isSymbol
    exact single (by cases p <;> rfl) whole
  | @operator o _ isSymbol =>
    obtain rfl := Operator.ofChar?_eq_some_iff.mp isSymbol
    exact single (by cases o <;> rfl) whole
  | @keyword k _ found =>
    exact closed_keyword letter found whole
  | name =>
    -- A name or a word would go on with the letter.
    exact absurd (List.cons.inj whole).2 (takeWhile_ne_front letter cs rest)
  | @bareSigil s _ _ isSigil =>
    obtain rfl := Sigil.ofChar?_eq_some_iff.mp isSigil
    exact single (by cases s <;> rfl) whole
  | word => exact absurd whole (takeWhile_ne_front letter (c :: cs) rest)
  | number =>
    refine .of_plain fun e inside => ?_
    have whole : numeral (c :: (cs ++ d :: rest)) = c :: cs := whole
    rw [← whole] at inside
    rcases mem_numeral inside with digit | rfl
    · exact isAlpha_of_isDigit digit
    · rfl
  | unknown _ _ _ noLetter => exact single noLetter whole

theorem Piece.closed_source (letter : d.isAlpha = true)
    (whole : (atStart c (cs ++ d :: rest)).source = c :: cs) : Closed (c :: cs) := by
  have noLetter {b : Char} (blank : isBlank b = true) : b.isAlpha = false :=
    stop_of_isBlank blank (by decide)
  have form := form_atStart c (cs ++ d :: rest)
  generalize atStart c (cs ++ d :: rest) = p at form whole
  cases form with
  | newline isFeed =>
    refine .of_plain fun e inside => ?_
    subst isFeed
    rw [← whole] at inside
    rcases List.mem_cons.mp inside with rfl | inside
    · rfl
    · have spacing : isIndentation e = true := List.mem_takeWhile_imp inside
      exact noLetter (Bool.or_eq_true_iff.mpr (.inl spacing))
  | blank blank =>
    obtain rfl := (List.cons.inj whole).2
    exact .of_last rfl (noLetter blank)
  | comment _ _ found =>
    intro _
    have cut : c :: (cs ++ d :: rest) = c :: cs ++ d :: rest := rfl
    rw [← whole] at cut ⊢
    exact .inl (Comment.arrow_mem_text (Comment.whole_of_atStart? found cut))
  | lexeme => exact Lexeme.closed_text letter whole

/-- A closed text is no front of a phrase or a mark that goes on with a blank. -/
theorem unbroken_of_closed {front : List Char} (closed : Closed front) (rest : List Char) :
    Unbroken front (' ' :: rest) := by
  intro spelling listed here
  rcases List.prefix_or_prefix_of_prefix here (List.prefix_append front _) with le | ge
  · exact le
  obtain ⟨tail, rfl⟩ := ge
  cases tail with
  | nil => simp
  | cons b tail =>
    obtain ⟨rfl, -⟩ := List.cons_prefix_cons.mp ((List.prefix_append_right_inj front).mp here)
    exact absurd closed (not_closed_of_blank listed)

theorem settled_of_closed {front : List Char} (closed : Closed front)
    (notLoop : front ≠ Keyword.whileLoop.letters) (rest : List Char) : Settled front rest := by
  rintro k rfl noTrailer
  have other : k ≠ .whileLoop := by
    rintro rfl
    exact notLoop rfl
  exact absurd closed (not_closed_letters other noTrailer)

/-- In front of a letter nothing but an indentation is open to more blanks. -/
theorem Piece.not_openEnd {tail : List Char} (letter : d.isAlpha = true)
    (cut : c :: cs = (atStart c (cs ++ d :: rest)).source ++ tail)
    (inLine : c = '\n' → tail ≠ []) : ¬ OpenEnd (c :: cs) (atStart c (cs ++ d :: rest)) := by
  have form := form_atStart c (cs ++ d :: rest)
  generalize atStart c (cs ++ d :: rest) = p at form cut
  intro open_
  cases open_ with
  | newline text =>
    obtain ⟨rfl, rfl⟩ := List.cons.inj text
    exact inLine rfl (List.append_cancel_left (cut.symm.trans (List.append_nil _).symm))
  | line =>
    cases form with
    | comment _ _ found =>
      have whole : Comment.Whole (.line (c :: cs)) (d :: rest) :=
        Comment.whole_of_atStart? found rfl
      cases whole with
      | line _ _ ends =>
        obtain rfl := ends d rfl
        cases letter
  | @unclosed body =>
    cases form with
    | comment _ _ found =>
      have cut : c :: cs = body ++ tail := cut
      have behind : c :: (cs ++ d :: rest) = body ++ (tail ++ d :: rest) := by
        rw [← List.append_assoc, ← cut, List.cons_append]
      have whole := Comment.whole_of_atStart? found behind
      generalize left : tail ++ d :: rest = behind at whole
      cases whole
      simp at left

/-- A piece that ends in front of a letter is the same in front of a space. -/
theorem Piece.atStart_gap {tail : List Char} (letter : d.isAlpha = true)
    (closed : Closed (c :: cs)) (notLoop : c :: cs ≠ Keyword.whileLoop.letters)
    (cut : c :: cs = (atStart c (cs ++ d :: rest)).source ++ tail)
    (inLine : c = '\n' → tail ≠ []) (more : List Char) :
    atStart c (cs ++ ' ' :: more) = atStart c (cs ++ d :: rest) := by
  have open_ := not_openEnd letter cut inLine
  have alone := atStart_front (settled_of_closed closed notLoop (d :: rest)) ⟨tail, cut.symm⟩
  rw [← alone] at open_ ⊢
  exact atStart_before_blank rfl (unbroken_of_closed closed more) open_

end

end PhraseLang
