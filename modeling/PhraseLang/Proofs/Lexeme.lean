import PhraseLang.Lexeme

/-! The forms of a lexeme, and what it shows in its token.
`Form` lists the forms with the tests that lead to each. The text of a token is the lexeme itself,
without the sigil of a name; only a counted loop shows a number in place of its marks. -/
namespace PhraseLang

theorem isAlpha_of_isDigit {c : Char} (digit : c.isDigit = true) : c.isAlpha = false := by
  have small : c.val ≤ '9'.val := of_decide_eq_true (Bool.and_eq_true_iff.mp digit).2
  refine Bool.eq_false_iff.mpr fun letter => ?_
  rcases Bool.or_eq_true_iff.mp letter with upper | lower
  · have large : 'A'.val ≤ c.val := (of_decide_eq_true upper).1
    exact absurd (UInt32.le_trans large small) (by decide)
  · have large : 'a'.val ≤ c.val := of_decide_eq_true (Bool.and_eq_true_iff.mp lower).1
    exact absurd (UInt32.le_trans large small) (by decide)

namespace Lexeme

def NoSymbol (c : Char) : Prop := Punctuation.ofChar? c = none ∧ Operator.ofChar? c = none

theorem noSymbol_iff {c : Char} :
    NoSymbol c ↔ (∀ p : Punctuation, c ≠ p.symbol) ∧ ∀ o : Operator, c ≠ o.symbol := by
  rw [NoSymbol, Option.eq_none_iff_forall_ne_some, Option.eq_none_iff_forall_ne_some]
  simp only [ne_eq, Punctuation.ofChar?_eq_some_iff, Operator.ofChar?_eq_some_iff]

/-- The lexemes at the beginning of `c :: cs`, each under the tests that have to decide for it. -/
inductive Form (c : Char) (cs : List Char) : Lexeme → Prop where
  | punctuation {p : Punctuation} : Punctuation.ofChar? c = some p → Form c cs ⟨.punctuation p, [c]⟩
  | operator {o : Operator} : Punctuation.ofChar? c = none → Operator.ofChar? c = some o →
      Form c cs ⟨.operator o, [c]⟩
  | keyword {k : Keyword} : NoSymbol c → Keyword.atStart? (c :: cs) = some k →
      Form c cs (ofKeyword k (c :: cs))
  | name {s : Sigil} : NoSymbol c → Keyword.atStart? (c :: cs) = none → Sigil.ofChar? c = some s →
      cs.takeWhile Char.isAlpha ≠ [] → Form c cs ⟨.ofSigil s, c :: cs.takeWhile Char.isAlpha⟩
  | bareSigil {s : Sigil} : NoSymbol c → Keyword.atStart? (c :: cs) = none →
      Sigil.ofChar? c = some s → cs.takeWhile Char.isAlpha = [] → Form c cs ⟨.unknown, [c]⟩
  | word : NoSymbol c → Keyword.atStart? (c :: cs) = none → Sigil.ofChar? c = none →
      c.isAlpha = true → Form c cs ⟨.word, (c :: cs).takeWhile Char.isAlpha⟩
  | number : NoSymbol c → Keyword.atStart? (c :: cs) = none → Sigil.ofChar? c = none →
      c.isAlpha = false → c.isDigit = true → Form c cs ⟨.number, numeral (c :: cs)⟩
  | unknown : NoSymbol c → Keyword.atStart? (c :: cs) = none → Sigil.ofChar? c = none →
      c.isAlpha = false → c.isDigit = false → Form c cs ⟨.unknown, [c]⟩

theorem form_atStart (c : Char) (cs : List Char) : Form c cs (atStart c cs) := by
  unfold atStart
  split
  · exact .punctuation ‹_›
  · rename_i found
    have noPunctuation := Option.eq_none_iff_forall_ne_some.mpr found
    split
    · exact .operator noPunctuation ‹_›
    · rename_i found
      have noOperator := Option.eq_none_iff_forall_ne_some.mpr found
      have noSymbol : NoSymbol c := ⟨noPunctuation, noOperator⟩
      split
      · exact .keyword noSymbol ‹_›
      · rename_i found
        have noKeyword := Option.eq_none_iff_forall_ne_some.mpr found
        split
        · rename_i s isSigil
          unfold ofSigil
          split
          · exact .bareSigil noSymbol noKeyword isSigil ‹_›
          · rename_i nameless
            exact .name noSymbol noKeyword isSigil nameless
        · rename_i found
          have noSigil := Option.eq_none_iff_forall_ne_some.mpr found
          split
          · exact .word noSymbol noKeyword noSigil ‹_›
          · rename_i noLetter
            have noLetter := Bool.eq_false_iff.mpr noLetter
            split
            · exact .number noSymbol noKeyword noSigil noLetter ‹_›
            · rename_i noDigit
              exact .unknown noSymbol noKeyword noSigil noLetter (Bool.eq_false_iff.mpr noDigit)

theorem keyword_of_kind {c : Char} {cs : List Char} {k : Keyword}
    (isKeyword : (atStart c cs).kind = .keyword k) :
    Keyword.atStart? (c :: cs) = some k ∧ atStart c cs = ofKeyword k (c :: cs) := by
  have form := form_atStart c cs
  generalize atStart c cs = x at form isKeyword ⊢
  cases form with
  | @keyword j _ found =>
    obtain rfl : j = k := Kind.keyword.inj isKeyword
    exact ⟨found, rfl⟩
  | @name s => cases s <;> cases isKeyword
  | _ => cases isKeyword

theorem isLayout_atStart (c : Char) (cs : List Char) : (atStart c cs).kind.isLayout = false := by
  have form := form_atStart c cs
  generalize atStart c cs = x at form ⊢
  cases form with
  | @name s => cases s <;> rfl
  | _ => rfl

def sigil (k : Kind) : List Char := (k.sigil?.map Sigil.symbol).toList

/-- Except for a counted loop, a lexeme is the text of its token behind its sigil. -/
theorem text_atStart {c : Char} {cs : List Char}
    (notLoop : (atStart c cs).kind ≠ .keyword .countedLoop) :
    (atStart c cs).text = sigil (atStart c cs).kind ++ (atStart c cs).value.toList := by
  have form := form_atStart c cs
  generalize atStart c cs = x at form notLoop ⊢
  cases form with
  | @keyword k =>
    cases k with
    | countedLoop => exact absurd rfl notLoop
    | _ => simp [ofKeyword, value, sigil, Kind.sigil?]
  | @name s _ _ isSigil =>
    have same := Sigil.ofChar?_eq_some_iff.mp isSigil
    cases s <;> simp [value, sigil, Kind.sigil?, Kind.ofSigil, same]
  | _ => simp [value, sigil, Kind.sigil?]

theorem text_ofKeyword_countedLoop (text : List Char) :
    ∃ marks, (∀ d ∈ marks, d = Keyword.repeatMark) ∧
      (ofKeyword .countedLoop text).text = Keyword.countedLoop.letters ++ marks :=
  ⟨_, fun d hd => eq_of_beq (List.all_eq_true.mp List.all_takeWhile d hd), rfl⟩

theorem text_countedLoop {c : Char} {cs : List Char}
    (isLoop : (atStart c cs).kind = .keyword .countedLoop) :
    ∃ n, (atStart c cs).text = Keyword.countedLoop.letters ++ List.replicate n Keyword.repeatMark ∧
      (atStart c cs).value = toString n := by
  have form := form_atStart c cs
  generalize atStart c cs = x at form isLoop ⊢
  cases form with
  | @keyword k =>
    obtain rfl : k = .countedLoop := Kind.keyword.inj isLoop
    obtain ⟨marks, allMarks, text⟩ := text_ofKeyword_countedLoop (c :: cs)
    refine ⟨marks.length, by rw [text, ← List.eq_replicate_of_mem allMarks], ?_⟩
    generalize ofKeyword .countedLoop (c :: cs) = x at isLoop text
    rw [value, isLoop, text, List.length_append, Nat.add_sub_cancel_left]
  | @name s => cases s <;> cases isLoop
  | _ => cases isLoop

end Lexeme

end PhraseLang
