import PhraseLang.Token

/-! Lexemes: the stretches of source that become tokens.
At any character that is neither blank, line feed nor the start of a comment, exactly one lexeme
begins; it is a front part of the text from there, and never empty. -/
namespace PhraseLang

structure Lexeme where
  kind : Kind
  text : List Char
deriving DecidableEq

namespace Lexeme

/-- The longest numeral at the beginning of a text: digits, and behind a point more digits. A point
without a digit behind it is not part of it. -/
def numeral (text : List Char) : List Char :=
  let whole := text.takeWhile Char.isDigit
  match text.dropWhile Char.isDigit with
  | '.' :: rest =>
    match rest.takeWhile Char.isDigit with
    | [] => whole
    | fraction => whole ++ '.' :: fraction
  | _ => whole

/-- The stretch of a keyword at the beginning of a text: its phrase, and the repeat marks behind it
where they count. -/
def ofKeyword (k : Keyword) (text : List Char) : Lexeme where
  kind := .keyword k
  text := k.letters ++ if k.takesTrailer then
    (text.drop k.letters.length).takeWhile (· == Keyword.repeatMark) else []

/-- The stretch of a name: its sigil and the letters behind it. A sigil with no letter behind it is
no name. -/
def ofSigil (s : Sigil) (c : Char) (cs : List Char) : Lexeme :=
  match cs.takeWhile Char.isAlpha with
  | [] => ⟨.unknown, [c]⟩
  | name => ⟨.ofSigil s, c :: name⟩

def atStart (c : Char) (cs : List Char) : Lexeme :=
  if let some p := Punctuation.ofChar? c then ⟨.punctuation p, [c]⟩
  else if let some o := Operator.ofChar? c then ⟨.operator o, [c]⟩
  else if let some k := Keyword.atStart? (c :: cs) then ofKeyword k (c :: cs)
  else if let some s := Sigil.ofChar? c then ofSigil s c cs
  else if c.isAlpha then ⟨.word, (c :: cs).takeWhile Char.isAlpha⟩
  else if c.isDigit then ⟨.number, numeral (c :: cs)⟩
  else ⟨.unknown, [c]⟩

theorem numeral_prefix (text : List Char) : numeral text <+: text := by
  have whole := List.takeWhile_append_dropWhile (p := Char.isDigit) (l := text)
  unfold numeral
  split
  · rename_i rest behind
    split
    · exact List.takeWhile_prefix _
    · rename_i fraction _
      rw [behind] at whole
      have more : '.' :: rest.takeWhile Char.isDigit <+: '.' :: rest :=
        List.cons_prefix_cons.mpr ⟨rfl, List.takeWhile_prefix _⟩
      have joined := (List.prefix_append_right_inj (text.takeWhile Char.isDigit)).mpr more
      rw [whole] at joined
      exact joined
  · exact List.takeWhile_prefix _

theorem numeral_ne_nil {c : Char} (digit : c.isDigit = true) (cs : List Char) :
    numeral (c :: cs) ≠ [] := by
  unfold numeral
  simp only [List.takeWhile_cons, digit, if_true]
  split
  · split <;> simp
  · simp

theorem ofKeyword_prefix {k : Keyword} {text : List Char} (h : k.letters <+: text) :
    (ofKeyword k text).text <+: text := by
  obtain ⟨rest, rfl⟩ := h
  refine (List.prefix_append_right_inj _).mpr ?_
  rw [List.drop_left]
  split
  · exact List.takeWhile_prefix _
  · exact List.nil_prefix

theorem ofKeyword_ne_nil (k : Keyword) (text : List Char) : (ofKeyword k text).text ≠ [] := by
  simp [ofKeyword, k.letters_ne_nil]

theorem ofSigil_prefix (s : Sigil) (c : Char) (cs : List Char) :
    (ofSigil s c cs).text <+: c :: cs := by
  unfold ofSigil
  split
  · exact List.cons_prefix_cons.mpr ⟨rfl, List.nil_prefix⟩
  · exact List.cons_prefix_cons.mpr ⟨rfl, List.takeWhile_prefix _⟩

/-- A lexeme is a front part of the text that it is read from. -/
theorem atStart_prefix (c : Char) (cs : List Char) : (atStart c cs).text <+: c :: cs := by
  have single : [c] <+: c :: cs := List.cons_prefix_cons.mpr ⟨rfl, List.nil_prefix⟩
  unfold atStart
  split
  · exact single
  split
  · exact single
  split
  · rename_i found
    exact ofKeyword_prefix (Keyword.prefix_of_atStart? found)
  split
  · exact ofSigil_prefix _ c cs
  split
  · exact List.takeWhile_prefix _
  split
  · exact numeral_prefix _
  · exact single

theorem atStart_ne_nil (c : Char) (cs : List Char) : (atStart c cs).text ≠ [] := by
  unfold atStart
  split
  · simp
  split
  · simp
  split
  · exact ofKeyword_ne_nil _ _
  split
  · unfold ofSigil
    split <;> simp
  split
  · rename_i letter
    simp [letter]
  split
  · rename_i digit
    exact numeral_ne_nil digit cs
  · simp

/-- The text of the token: the repetition count of a counted loop, a name without its sigil, and
otherwise what stands in the source. -/
def value (x : Lexeme) : String :=
  match x.kind with
  | .keyword .countedLoop => toString (x.text.length - Keyword.countedLoop.letters.length)
  | .constant | .binding => String.ofList (x.text.drop 1)
  | _ => String.ofList x.text

end Lexeme

end PhraseLang
