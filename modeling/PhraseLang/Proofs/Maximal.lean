import PhraseLang.Proofs.LongestPhrase

/-! The lexemes of a source go as far as they can.
Every token that is no layout stands for a stretch of the class of its kind, and the text behind it
would not make a longer one. What stands in front plays no part. -/
namespace PhraseLang
open Text Layout

/-- Characters of a class, and something else behind them. -/
structure IsRun (p : Char → Bool) (cut rest : List Char) : Prop where
  nonempty : cut ≠ []
  all : ∀ c ∈ cut, p c = true
  ends : ∀ c ∈ rest.head?, p c = false

/-- A character of no class. -/
structure IsStray (c : Char) : Prop where
  noBlank : c ∉ [' ', '\t', '\r', '\n']
  noPunctuation : ∀ p : Punctuation, c ≠ p.symbol
  noOperator : ∀ o : Operator, c ≠ o.symbol
  noSigil : ∀ s : Sigil, c ≠ s.symbol
  noLetter : c.isAlpha = false
  noDigit : c.isDigit = false

/-- The stretches that a token of a kind may stand for, with the text behind them. -/
def Kind.Fills (cut rest : List Char) : Kind → Prop
  | .number =>
    (IsRun Char.isDigit cut rest ∧ ∀ d more, rest = '.' :: d :: more → d.isDigit = false) ∨
      ∃ whole digits, cut = whole ++ '.' :: digits ∧ IsRun Char.isDigit whole ('.' :: digits) ∧
        IsRun Char.isDigit digits rest
  | .word =>
    IsRun Char.isAlpha cut rest ∧ (∀ k : Keyword, ¬ k.Stands (cut ++ rest)) ∧
      ∀ mark ∈ Comment.marks, ¬ mark <+: cut ++ rest
  | .constant => ∃ name, cut = '$' :: name ∧ IsRun Char.isAlpha name rest
  | .binding => ∃ name, cut = '£' :: name ∧ IsRun Char.isAlpha name rest
  | .unknown =>
    ∃ c, cut = [c] ∧
      ((∃ s : Sigil, c = s.symbol ∧ ∀ d ∈ rest.head?, d.isAlpha = false) ∨ IsStray c)
  | .operator o => cut = [o.symbol]
  | .punctuation p => cut = [p.symbol]
  | .keyword k => k.Stands (cut ++ rest) ∧ k.Takes cut rest
  | .newline | .indent | .dedent => True

theorem Kind.fills_of_isLayout {k : Kind} (layout : k.isLayout = true) (cut rest : List Char) :
    k.Fills cut rest := by
  cases k with
  | newline | indent | dedent => trivial
  | _ => cases layout

theorem isRun_takeWhile {p : Char → Bool} {text rest : List Char} (some : text.takeWhile p ≠ [])
    (cut : text = text.takeWhile p ++ rest) : IsRun p (text.takeWhile p) rest where
  nonempty := some
  all := List.all_eq_true.mp List.all_takeWhile
  ends := head_of_cut cut

namespace Lexeme

theorem fills_numeral {c : Char} {cs rest : List Char} (digit : c.isDigit = true)
    (cut : c :: cs = numeral (c :: cs) ++ rest) : Kind.number.Fills (numeral (c :: cs)) rest := by
  have nonempty : (c :: cs).takeWhile Char.isDigit ≠ [] := by simp [digit]
  have parts := List.takeWhile_append_dropWhile (p := Char.isDigit) (l := c :: cs)
  have whole := isRun_takeWhile nonempty parts.symm
  rw [numeral_eq, List.append_assoc] at cut
  have tail := List.append_cancel_left (parts.trans cut)
  rw [numeral_eq]
  rcases fraction_cases ((c :: cs).dropWhile Char.isDigit) with
    ⟨none, noFraction⟩ | ⟨more, point, some, isFraction⟩
  · rw [none, List.nil_append] at tail
    rw [none, List.append_nil]
    rw [tail] at whole noFraction
    exact .inl ⟨whole, noFraction⟩
  · rw [isFraction, point, List.cons_append, List.cons.injEq] at tail
    rw [isFraction]
    refine .inr ⟨_, _, rfl, ⟨nonempty, whole.all, head_stop rfl _⟩, isRun_takeWhile some tail.2⟩

end Lexeme

theorem isStray_of_plain {c : Char} (noFeed : c ≠ '\n') (noBlank : Piece.isBlank c = false)
    (noSymbol : Lexeme.NoSymbol c) (noSigil : Sigil.ofChar? c = none) (noLetter : c.isAlpha = false)
    (noDigit : c.isDigit = false) : IsStray c := by
  obtain ⟨noPunctuation, noOperator⟩ := Lexeme.noSymbol_iff.mp noSymbol
  have outside := Piece.not_mem_blanks_iff.mpr ⟨noFeed, noBlank⟩
  refine ⟨outside, noPunctuation, noOperator, ?_, noLetter, noDigit⟩
  rintro s rfl
  rw [Sigil.ofChar?_eq_some_iff.mpr rfl] at noSigil
  cases noSigil

theorem fills_name {s : Sigil} {name rest : List Char} (run : IsRun Char.isAlpha name rest) :
    (Kind.ofSigil s).Fills (s.symbol :: name) rest := by
  cases s with
  | dollar => exact ⟨name, rfl, run⟩
  | pound => exact ⟨name, rfl, run⟩

/-- A lexeme fills the stretch that it takes. -/
theorem Lexeme.fills_atStart {c : Char} {cs rest : List Char} (noFeed : c ≠ '\n')
    (noBlank : Piece.isBlank c = false) (noComment : Comment.atStart? (c :: cs) = none)
    (cut : c :: cs = (atStart c cs).text ++ rest) :
    (atStart c cs).kind.Fills (atStart c cs).text rest := by
  have form := form_atStart c cs
  generalize atStart c cs = x at form cut ⊢
  cases form with
  | punctuation isSymbol =>
    rw [Punctuation.ofChar?_eq_some_iff.mp isSymbol]
    rfl
  | operator _ isSymbol =>
    rw [Operator.ofChar?_eq_some_iff.mp isSymbol]
    rfl
  | keyword _ found =>
    have stands := (Keyword.longest_of_atStart? found).1
    refine ⟨?_, Keyword.takes_ofKeyword stands.phrase cut⟩
    rwa [← cut]
  | name _ _ isSigil some =>
    rw [Sigil.ofChar?_eq_some_iff.mp isSigil]
    exact fills_name (isRun_takeWhile some (List.cons.inj cut).2)
  | @bareSigil s _ _ isSigil none =>
    obtain rfl : cs = rest := (List.cons.inj cut).2
    have noLetter : ∀ d ∈ cs.head?, d.isAlpha = false := head_of_cut (by rw [none, List.nil_append])
    exact ⟨c, rfl, .inl ⟨s, Sigil.ofChar?_eq_some_iff.mp isSigil, noLetter⟩⟩
  | word _ noKeyword _ letter =>
    refine ⟨isRun_takeWhile (by simp [letter]) cut, ?_, ?_⟩
    · rw [← cut]
      exact Keyword.atStart?_eq_none_iff.mp noKeyword
    · rw [← cut]
      exact Comment.miss_of_atStart? noComment
  | number _ _ _ _ digit => exact fills_numeral digit cut
  | unknown noSymbol _ noSigil noLetter noDigit =>
    exact ⟨c, rfl, .inr (isStray_of_plain noFeed noBlank noSymbol noSigil noLetter noDigit)⟩

/-- Every token of a source fills its span, with all of the text behind it in view. -/
theorem lexeme_maximal (tab : UInt64) (source : String) : ∀ t ∈ tokenize tab source,
    t.kind.Fills (slice source.toList t.span.start t.span.stop)
      (dropBytes t.span.stop source.toList) := by
  intro t ht
  cases isLayout : t.kind.isLayout with
  | true => exact Kind.fills_of_isLayout isLayout _ _
  | false =>
    obtain ⟨front, behind, same⟩ := List.append_of_mem ht
    obtain ⟨s, c, cs, rest, located⟩ := exists_located same isLayout
    rw [located.slice_eq, located.dropBytes_eq, located.token]
    have isLexeme := Piece.form_atStart c cs
    rw [located.piece] at isLexeme
    cases isLexeme with
    | lexeme noFeed noBlank noComment =>
      exact Lexeme.fills_atStart noFeed noBlank noComment located.cut

/-- The second point has a digit behind it too, but a numeral takes only one. -/
theorem lexeme_maximal_points :
    (⟨.number, "1.2", ⟨0, 3⟩⟩ : Token) ∈ tokenize 4 "1.2.3 $x1" ∧
      Kind.number.Fills "1.2".toList ".3 $x1".toList ∧
    (⟨.constant, "x", ⟨6, 8⟩⟩ : Token) ∈ tokenize 4 "1.2.3 $x1" ∧
      Kind.constant.Fills "$x".toList "1".toList := by
  have numeral : (⟨.number, "1.2", ⟨0, 3⟩⟩ : Token) ∈ tokenize 4 "1.2.3 $x1" := by decide +kernel
  have name : (⟨.constant, "x", ⟨6, 8⟩⟩ : Token) ∈ tokenize 4 "1.2.3 $x1" := by decide +kernel
  exact ⟨numeral, lexeme_maximal 4 "1.2.3 $x1" _ numeral, name, lexeme_maximal 4 "1.2.3 $x1" _ name⟩

end PhraseLang
