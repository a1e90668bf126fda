import PhraseLang.Proofs.Canonical.Source
import PhraseLang.Proofs.Phrase
import PhraseLang.Proofs.Unplaced

/-! The lexemes of a written program.
Each lexeme of a written program is read back with the text behind it in sight. What stands behind a
literal is one of a few separators, and no phrase and no comment marker goes on with any of them. -/
namespace PhraseLang
open Text Layout

section
variable {tab : UInt64} {levels : List UInt64}

/-- A text that begins with a lexeme. -/
structure Starts (text : List Char) : Prop where
  head : ∃ c cs, text = c :: cs ∧ c ≠ '\n' ∧ Piece.isBlank c = false
  noComment : Comment.atStart? text = none

theorem Starts.atStart {c : Char} {cs : List Char} (starts : Starts (c :: cs)) :
    Piece.atStart c cs = .lexeme (Lexeme.atStart c cs) := by
  obtain ⟨d, ds, same, noFeed, noBlank⟩ := starts.head
  obtain ⟨rfl, rfl⟩ := List.cons.inj same
  rw [Piece.atStart, if_neg noFeed, if_neg (by simp [noBlank]), starts.noComment]

theorem Starts.flush {text : List Char} (starts : Starts text) :
    ∀ c ∈ text.head?, Piece.isIndentation c = false := by
  obtain ⟨c, cs, rfl, -, noBlank⟩ := starts.head
  exact head_stop (Bool.or_eq_false_iff.mp noBlank).1 cs

theorem bareTokens_of_starts {c : Char} {cs rest : List Char} {x : Lexeme}
    (starts : Starts (c :: cs)) (here : Lexeme.atStart c cs = x) (cut : c :: cs = x.text ++ rest) :
    bareTokens tab levels (c :: cs) = x.kind.bare x.value :: bareTokens tab levels rest := by
  subst here
  have piece := starts.atStart
  rw [bareTokens_of_cut (by rw [piece]; exact cut), piece]
  rfl

end

theorem Comment.atStart?_of_head {c : Char} {cs : List Char} (notLine : c ≠ 'e')
    (notBlock : c ≠ 'a') : atStart? (c :: cs) = none := by
  simp [atStart?, lineMarker, opener, List.isPrefixOf, Ne.symm notLine, Ne.symm notBlock]

/-- Letters and digits are no symbols, no sigils and no blanks. -/
structure IsPlain (c : Char) : Prop where
  noPunctuation : Punctuation.ofChar? c = none
  noOperator : Operator.ofChar? c = none
  noSigil : Sigil.ofChar? c = none
  noBlank : Piece.isBlank c = false
  noFeed : c ≠ '\n'

theorem isPlain_of_alphanum {c : Char} (alphanum : c.isAlphanum = true) : IsPlain c := by
  refine ⟨?_, ?_, ?_, ?_, ?_⟩
  · refine Option.eq_none_iff_forall_ne_some.mpr fun p found => ?_
    rw [Punctuation.ofChar?_eq_some_iff.mp found] at alphanum
    cases p <;> cases alphanum
  · refine Option.eq_none_iff_forall_ne_some.mpr fun o found => ?_
    rw [Operator.ofChar?_eq_some_iff.mp found] at alphanum
    cases o <;> cases alphanum
  · refine Option.eq_none_iff_forall_ne_some.mpr fun s found => ?_
    rw [Sigil.ofChar?_eq_some_iff.mp found] at alphanum
    cases s <;> cases alphanum
  · refine Bool.eq_false_iff.mpr fun blank => ?_
    simp only [Piece.isBlank, Piece.isIndentation, Bool.or_eq_true, beq_iff_eq] at blank
    rcases blank with (rfl | rfl) | rfl <;> cases alphanum
  · rintro rfl
    cases alphanum

theorem starts_of_head {c : Char} {cs : List Char} (noFeed : c ≠ '\n')
    (noBlank : Piece.isBlank c = false) (notLine : c ≠ 'e') (notBlock : c ≠ 'a') :
    Starts (c :: cs) :=
  ⟨⟨c, cs, rfl, noFeed, noBlank⟩, Comment.atStart?_of_head notLine notBlock⟩

theorem starts_punctuation (p : Punctuation) (rest : List Char) : Starts (p.symbol :: rest) := by
  cases p <;> exact starts_of_head (by decide) (by decide) (by decide) (by decide)

theorem starts_operator (o : Operator) (rest : List Char) : Starts (o.symbol :: rest) := by
  cases o <;> exact starts_of_head (by decide) (by decide) (by decide) (by decide)

section
variable {tab : UInt64} {levels : List UInt64}

theorem bareTokens_punctuation (p : Punctuation) (rest : List Char) :
    bareTokens tab levels (p.symbol :: rest) =
      (Kind.punctuation p).bare p.symbol.toString :: bareTokens tab levels rest := by
  have here : Lexeme.atStart p.symbol rest = ⟨.punctuation p, [p.symbol]⟩ := by cases p <;> rfl
  rw [bareTokens_of_starts (starts_punctuation p rest) here rfl]
  rfl

theorem bareTokens_operator (o : Operator) (rest : List Char) :
    bareTokens tab levels (o.symbol :: rest) =
      (Kind.operator o).bare o.symbol.toString :: bareTokens tab levels rest := by
  have here : Lexeme.atStart o.symbol rest = ⟨.operator o, [o.symbol]⟩ := by cases o <;> rfl
  rw [bareTokens_of_starts (starts_operator o rest) here rfl]
  rfl

end

namespace Keyword

theorem exists_head (k : Keyword) : ∃ c cs, k.letters = c :: cs ∧ c.isAlpha = true := by
  cases k <;> exact ⟨_, _, rfl, rfl⟩

theorem atStart?_of_head {c : Char} {cs : List Char} (noLetter : c.isAlpha = false) :
    atStart? (c :: cs) = none := by
  rw [atStart?_eq_find?]
  refine List.find?_eq_none.mpr fun k _ stands => ?_
  have here := List.isPrefixOf_iff_prefix.mp (Bool.and_eq_true_iff.mp stands).1
  obtain ⟨d, ds, letters, letter⟩ := k.exists_head
  rw [letters] at here
  rw [(List.cons_prefix_cons.mp here).1, noLetter] at letter
  cases letter

/-- A phrase is read where it stands, unless it is the front of the longer phrase. -/
theorem atStart?_letters {k : Keyword} {rest : List Char}
    (ends : k.takesTrailer = true ∨ ∀ c ∈ rest.head?, continuesWord c = false)
    (notLonger : k = .ifThen → ¬ Keyword.elseIf.letters <+: k.letters ++ rest) :
    atStart? (k.letters ++ rest) = some k := by
  have stands : k.Stands (k.letters ++ rest) := by
    refine ⟨List.prefix_append _ _, ?_⟩
    rw [List.drop_left]
    exact ends.imp takesTrailer_iff.mp
      fun stop c first => continuesWord_eq_false_iff.mp (stop c first)
  cases found : atStart? (k.letters ++ rest) with
  | none => exact absurd stands (atStart?_eq_none_iff.mp found k)
  | some j =>
    obtain ⟨here, longest⟩ := longest_of_atStart? found
    by_contra different
    have size := longest k stands fun same => different (same ▸ rfl)
    have within := List.prefix_of_prefix_length_le stands.phrase here.phrase (Nat.le_of_lt size)
    obtain rfl | ⟨rfl, rfl⟩ := eq_of_letters_le k j within
    · exact different rfl
    · exact notLonger rfl here.phrase

end Keyword

theorem Comment.atStart?_letters (k : Keyword) (rest : List Char) :
    atStart? (k.letters ++ rest) = none := by
  have apart : ∀ k ∈ Keyword.all, ∀ mark ∈ marks,
      ¬ mark <+: k.letters ∧ ¬ k.letters <+: mark := by decide +kernel
  refine atStart?_of_miss fun mark hmark here => ?_
  obtain ⟨notLe, notGe⟩ := apart k (Keyword.mem_all k) mark hmark
  rcases List.prefix_or_prefix_of_prefix here (List.prefix_append k.letters rest) with le | ge
  · exact notLe le
  · exact notGe ge

theorem starts_keyword (k : Keyword) (rest : List Char) : Starts (k.letters ++ rest) := by
  obtain ⟨c, cs, letters, letter⟩ := k.exists_head
  have plain := isPlain_of_alphanum (c := c) (by simp [Char.isAlphanum, letter])
  exact ⟨⟨c, cs ++ rest, by rw [letters]; rfl, plain.noFeed, plain.noBlank⟩,
    Comment.atStart?_letters k rest⟩

theorem Lexeme.atStart_letters {k : Keyword} {c : Char} {cs rest : List Char}
    (text : k.letters ++ rest = c :: cs) (found : Keyword.atStart? (k.letters ++ rest) = some k) :
    atStart c cs = ofKeyword k (c :: cs) := by
  obtain ⟨d, ds, letters, letter⟩ := k.exists_head
  rw [letters, List.cons_append] at text
  obtain ⟨rfl, rfl⟩ := List.cons.inj text
  have plain := isPlain_of_alphanum (c := d) (by simp [Char.isAlphanum, letter])
  rw [letters, List.cons_append] at found
  simp only [atStart, plain.noPunctuation, plain.noOperator, found]

section
variable {tab : UInt64} {levels : List UInt64}

theorem bareTokens_keyword {k : Keyword} {rest : List Char} (noTrailer : k.takesTrailer = false)
    (ends : ∀ c ∈ rest.head?, Keyword.continuesWord c = false)
    (notLonger : k = .ifThen → ¬ Keyword.elseIf.letters <+: k.letters ++ rest) :
    bareTokens tab levels (k.letters ++ rest) =
      (Kind.keyword k).bare k.phrase :: bareTokens tab levels rest := by
  have found := Keyword.atStart?_letters (.inr ends) notLonger
  have starts := starts_keyword k rest
  obtain ⟨c, cs, text, -⟩ := starts.head
  have here := Lexeme.atStart_letters text found
  have whole : Lexeme.ofKeyword k (c :: cs) = ⟨.keyword k, k.letters⟩ := by
    simp [Lexeme.ofKeyword, noTrailer]
  have value : (⟨.keyword k, k.letters⟩ : Lexeme).value = k.phrase := by
    cases k with
    | countedLoop => cases noTrailer
    | _ => exact String.ofList_toList
  rw [whole] at here
  rw [text] at starts ⊢
  rw [bareTokens_of_starts starts here text.symm, value]

theorem bareTokens_countedLoop (n : Nat) {rest : List Char} (ends : ∀ c ∈ rest.head?, c = ' ') :
    bareTokens tab levels (Keyword.countedLoop.letters ++
        (List.replicate n Keyword.repeatMark ++ rest)) =
      (Kind.keyword .countedLoop).bare (toString n) :: bareTokens tab levels rest := by
  have found : Keyword.atStart? (Keyword.countedLoop.letters ++
      (List.replicate n Keyword.repeatMark ++ rest)) = some .countedLoop :=
    Keyword.atStart?_letters (.inl rfl) nofun
  have starts := starts_keyword .countedLoop (List.replicate n Keyword.repeatMark ++ rest)
  obtain ⟨c, cs, text, -⟩ := starts.head
  have here := Lexeme.atStart_letters text found
  have marks : (List.replicate n Keyword.repeatMark ++ rest).takeWhile
      (· == Keyword.repeatMark) = List.replicate n Keyword.repeatMark := by
    rw [List.takeWhile_append_of_pos fun c hc => by rw [List.eq_of_mem_replicate hc]; rfl]
    cases rest with
    | nil => simp
    | cons d rest =>
      rw [ends d rfl, List.takeWhile_cons_of_neg (by decide), List.append_nil]
  have whole : Lexeme.ofKeyword .countedLoop (c :: cs) =
      ⟨.keyword .countedLoop,
        Keyword.countedLoop.letters ++ List.replicate n Keyword.repeatMark⟩ := by
    rw [← text, Lexeme.ofKeyword, List.drop_left, marks]
    rfl
  rw [whole] at here
  rw [text] at starts ⊢
  have cut : c :: cs = (Keyword.countedLoop.letters ++ List.replicate n Keyword.repeatMark) ++
      rest := by
    rw [← text, List.append_assoc]
  rw [bareTokens_of_starts starts here cut]
  simp [Lexeme.value]

end

/-- What stands behind a literal of a written program: an operator, a comma, a closing parenthesis,
a brace, or the end of an assignment. -/
def separators : List (List Char) :=
  [',' :: [], ')' :: [], [' ', '{'], ' ' :: Keyword.endOfAssign.letters] ++
    Operator.all.map fun o => [' ', o.symbol, ' ']

def Follows (rest : List Char) : Prop := ∃ separator ∈ separators, separator <+: rest

/-- What a word must not go on to be: the phrases and the marks of comments, and what makes the
longer of two phrases. -/
def reserved : List (List Char) :=
  "but stout".toList :: (Comment.marks ++ Keyword.all.map Keyword.letters)

theorem head_of_follows {rest : List Char} (follows : Follows rest) :
    ∃ c tail, rest = c :: tail ∧ c ∈ [' ', ',', ')'] := by
  have heads : ∀ separator ∈ separators,
      separator.head?.any (· ∈ [' ', ',', ')']) = true := by decide
  obtain ⟨separator, listed, more, rfl⟩ := follows
  have head := heads separator listed
  cases separator with
  | nil => cases head
  | cons c separator => exact ⟨c, separator ++ more, rfl, by simpa using head⟩

theorem follows_stop {p : Char → Bool} {rest : List Char} (follows : Follows rest)
    (stop : [' ', ',', ')'].all (fun c => !p c) = true) : ∀ c ∈ rest.head?, p c = false := by
  obtain ⟨c, tail, rfl, isStop⟩ := head_of_follows follows
  exact head_stop ((Bool.not_eq_true' _).mp (List.all_eq_true.mp stop c isStop)) tail

/-- A word with its separator begins no reserved phrase that does not lie within the word. -/
theorem le_word_of_follows {phrase word rest : List Char} (listed : phrase ∈ reserved)
    (letters : ∀ c ∈ word, c.isAlpha = true) (follows : Follows rest)
    (here : phrase <+: word ++ rest) : phrase <+: word := by
  have apart : ∀ phrase ∈ reserved, ∀ separator ∈ separators,
      phrase.dropWhile Char.isAlpha = [] ∨ ¬ phrase.dropWhile Char.isAlpha <+: separator ∧
        ¬ separator <+: phrase.dropWhile Char.isAlpha := by decide +kernel
  rcases List.prefix_or_prefix_of_prefix here (List.prefix_append word rest) with le | ge
  · exact le
  obtain ⟨tail, rfl⟩ := ge
  have tail_le := (List.prefix_append_right_inj word).mp here
  cases tail with
  | nil => simp
  | cons c tail =>
    -- The phrase would go on with the separator, behind its first word.
    have stop : c.isAlpha = false := by
      refine follows_stop follows (by decide) c ?_
      obtain ⟨more, rfl⟩ := tail_le
      rfl
    have left : (word ++ c :: tail).dropWhile Char.isAlpha = c :: tail := by
      rw [List.dropWhile_append_of_pos letters, List.dropWhile_cons_of_neg (by simp [stop])]
    obtain ⟨separator, isSeparator, separator_le⟩ := follows
    rcases apart _ listed separator isSeparator with none | ⟨notLe, notGe⟩
    · rw [left] at none
      cases none
    · rw [left] at notLe notGe
      rcases List.prefix_or_prefix_of_prefix tail_le separator_le with le | ge
      · exact absurd le notLe
      · exact absurd ge notGe

theorem not_le_of_blank {phrase word : List Char} (letters : ∀ c ∈ word, c.isAlpha = true)
    (blank : ' ' ∈ phrase) : ¬ phrase <+: word := by
  intro within
  have letter := letters ' ' (within.subset blank)
  cases letter

theorem Keyword.atStart?_word {text : String} {rest : List Char} (plain : IsPlainWord text)
    (follows : Follows rest) : atStart? (text.toList ++ rest) = none := by
  obtain ⟨⟨_, letters⟩, noPhrase, noLoop⟩ := plain
  rw [atStart?_eq_find?]
  refine List.find?_eq_none.mpr fun k _ stands => ?_
  obtain ⟨here, ends⟩ := Bool.and_eq_true_iff.mp stands
  have listed : k.letters ∈ reserved := by
    exact List.mem_cons_of_mem _ (List.mem_append_right _ (List.mem_map_of_mem (mem_all k)))
  obtain ⟨tail, whole⟩ := le_word_of_follows listed letters follows
    (List.isPrefixOf_iff_prefix.mp here)
  cases tail with
  | nil =>
    rw [List.append_nil] at whole
    exact noPhrase k (String.toList_inj.mp whole)
  | cons c tail =>
    -- The letter behind the phrase makes a longer word of it.
    have letter : c.isAlpha = true := letters c (by rw [← whole]; simp)
    rw [← whole, List.append_assoc, Keyword.endsWell, List.drop_left] at ends
    have continues : continuesWord c = true := by simp [continuesWord, Char.isAlphanum, letter]
    rcases Bool.or_eq_true_iff.mp ends with trailer | ends
    · cases k with
      | countedLoop => exact noLoop ⟨_, whole⟩
      | _ => cases trailer
    · simp [continues] at ends

theorem Comment.atStart?_word {word rest : List Char} (letters : ∀ c ∈ word, c.isAlpha = true)
    (follows : Follows rest) : atStart? (word ++ rest) = none := by
  have listed : ∀ mark ∈ marks, mark ∈ reserved ∧ ' ' ∈ mark := by decide +kernel
  refine atStart?_of_miss fun mark hmark here => ?_
  obtain ⟨isReserved, blank⟩ := listed mark hmark
  exact not_le_of_blank letters blank (le_word_of_follows isReserved letters follows here)

section
variable {tab : UInt64} {levels : List UInt64}

theorem bareTokens_word {text : String} {rest : List Char} (plain : IsPlainWord text)
    (follows : Follows rest) :
    bareTokens tab levels (text.toList ++ rest) =
      Kind.word.bare text :: bareTokens tab levels rest := by
  obtain ⟨nonempty, letters⟩ := plain.1
  have noKeyword := Keyword.atStart?_word plain follows
  have noComment := Comment.atStart?_word letters follows
  have taken := takeWhile_stop letters (follows_stop follows (by decide))
  obtain ⟨c, cs, isText⟩ := List.exists_cons_of_ne_nil nonempty
  have letter : c.isAlpha = true := letters c (by simp [isText])
  have isPlain := isPlain_of_alphanum (c := c) (by simp [Char.isAlphanum, letter])
  rw [isText, List.cons_append] at noKeyword noComment taken ⊢
  have starts : Starts (c :: (cs ++ rest)) :=
    ⟨⟨c, cs ++ rest, rfl, isPlain.noFeed, isPlain.noBlank⟩, noComment⟩
  have here : Lexeme.atStart c (cs ++ rest) = ⟨.word, c :: cs⟩ := by
    simp only [Lexeme.atStart, isPlain.noPunctuation, isPlain.noOperator, noKeyword,
      isPlain.noSigil, letter, if_true, taken]
  rw [bareTokens_of_starts starts here rfl, ← isText]
  simp [Lexeme.value]

theorem bareTokens_name {t : Token} {s : Sigil} {rest : List Char} (kind : t.kind = .ofSigil s)
    (isName : IsName t.text) (stop : ∀ c ∈ rest.head?, c.isAlpha = false) :
    bareTokens tab levels ((Expr.literalText t).toList ++ rest) =
      t.bare :: bareTokens tab levels rest := by
  obtain ⟨nonempty, letters⟩ := isName
  have taken := takeWhile_stop letters stop
  have shown : (Expr.literalText t).toList = s.symbol :: t.text.toList := by
    cases s <;> simp [Expr.literalText, kind, Kind.ofSigil, Kind.sigil?]
  have starts : Starts (s.symbol :: (t.text.toList ++ rest)) := by
    cases s <;> exact starts_of_head (by decide) (by decide) (by decide) (by decide)
  have noKeyword : Keyword.atStart? (s.symbol :: (t.text.toList ++ rest)) = none :=
    Keyword.atStart?_of_head (by cases s <;> rfl)
  have ofSigil : Lexeme.ofSigil s s.symbol (t.text.toList ++ rest) =
      ⟨.ofSigil s, s.symbol :: t.text.toList⟩ := by
    obtain ⟨c, cs, isText⟩ := List.exists_cons_of_ne_nil nonempty
    rw [isText] at taken ⊢
    simp only [Lexeme.ofSigil, taken]
  have here : Lexeme.atStart s.symbol (t.text.toList ++ rest) =
      ⟨.ofSigil s, s.symbol :: t.text.toList⟩ := by
    rw [← ofSigil]
    cases s <;> simp only [Lexeme.atStart, noKeyword] <;> rfl
  have value : (⟨.ofSigil s, s.symbol :: t.text.toList⟩ : Lexeme).value = t.text := by
    cases s <;> exact String.ofList_toList
  rw [shown, List.cons_append, bareTokens_of_starts starts here rfl, value, t.bare_eq, kind]

theorem IsNumeral.exists_parts {text : String} (numeral : IsNumeral text) :
    ∃ c whole part, text.toList = c :: (whole ++ part) ∧
      (∀ d ∈ c :: whole, d.isDigit = true) ∧ IsFraction part := by
  obtain ⟨nonempty, isFraction⟩ := numeral
  have digits : ∀ d ∈ text.toList.takeWhile Char.isDigit, d.isDigit = true :=
    fun d hd => List.mem_takeWhile_imp hd
  have parts := List.takeWhile_append_dropWhile (p := Char.isDigit) (l := text.toList)
  obtain ⟨c, whole, isWhole⟩ := List.exists_cons_of_ne_nil nonempty
  rw [isWhole] at digits parts
  exact ⟨c, whole, _, parts.symm, digits, isFraction⟩

theorem Lexeme.numeral_of_stop {text : String} {rest : List Char} (isNumeral : IsNumeral text)
    (noDigit : ∀ c ∈ rest.head?, c.isDigit = false) (noPoint : ∀ c ∈ rest.head?, c ≠ '.') :
    numeral (text.toList ++ rest) = text.toList := by
  obtain ⟨c, whole, part, isText, digits, isFraction⟩ := isNumeral.exists_parts
  rw [isText, ← List.cons_append, List.append_assoc, numeral_eq]
  cases part with
  | nil =>
    have none : fraction rest = [] := by
      unfold fraction
      split
      · exact absurd rfl (noPoint '.' rfl)
      · rfl
    rw [List.nil_append, takeWhile_stop digits noDigit, dropWhile_stop digits noDigit, none]
  | cons d part =>
    obtain ⟨rfl, nonempty, behind⟩ := isFraction
    have stop : ∀ d ∈ ('.' :: part ++ rest).head?, d.isDigit = false := head_stop rfl _
    have read : fraction ('.' :: part ++ rest) = '.' :: part := by
      rw [List.cons_append, fraction, takeWhile_stop behind noDigit, if_neg nonempty]
    rw [takeWhile_stop digits stop, dropWhile_stop digits stop, read, List.cons_append]

theorem bareTokens_number {text : String} {rest : List Char} (isNumeral : IsNumeral text)
    (follows : Follows rest) :
    bareTokens tab levels (text.toList ++ rest) =
      Kind.number.bare text :: bareTokens tab levels rest := by
  have noPoint : ∀ c ∈ rest.head?, c ≠ '.' := by
    intro c first
    have stop := follows_stop (p := (· == '.')) follows (by decide) c first
    simpa using stop
  have taken := Lexeme.numeral_of_stop isNumeral (follows_stop follows (by decide)) noPoint
  obtain ⟨c, whole, part, isText, digits, -⟩ := isNumeral.exists_parts
  have digit := digits c List.mem_cons_self
  have isPlain := isPlain_of_alphanum (c := c) (by simp [Char.isAlphanum, digit])
  have noLetter := isAlpha_of_isDigit digit
  rw [isText, List.cons_append] at taken ⊢
  have starts : Starts (c :: (whole ++ part ++ rest)) :=
    starts_of_head isPlain.noFeed isPlain.noBlank (by rintro rfl; cases noLetter)
      (by rintro rfl; cases noLetter)
  have here : Lexeme.atStart c (whole ++ part ++ rest) = ⟨.number, c :: (whole ++ part)⟩ := by
    simp only [Lexeme.atStart, isPlain.noPunctuation, isPlain.noOperator,
      Keyword.atStart?_of_head noLetter, isPlain.noSigil, noLetter, digit, taken,
      Bool.false_eq_true, if_false, if_true]
  rw [bareTokens_of_starts starts here rfl, ← isText]
  simp [Lexeme.value]

/-- Every literal that can be written is read back in front of a separator. -/
theorem bareTokens_literal {t : Token} {rest : List Char} (writable : t.Writable)
    (literal : t.kind.isLiteral = true) (follows : Follows rest) :
    bareTokens tab levels ((Expr.literalText t).toList ++ rest) =
      t.bare :: bareTokens tab levels rest := by
  obtain ⟨kind, text, span⟩ := t
  have stop := follows_stop (p := Char.isAlpha) follows (by decide)
  cases kind with
  | word => exact bareTokens_word writable follows
  | number => exact bareTokens_number writable follows
  | constant => exact bareTokens_name (s := .dollar) rfl writable stop
  | binding => exact bareTokens_name (s := .pound) rfl writable stop
  | _ => cases literal

/-- No literal with its separator makes the longer of two phrases of the one in front of it. -/
theorem not_longer_of_literal {t : Token} {rest : List Char} (writable : t.Writable)
    (literal : t.kind.isLiteral = true) (follows : Follows rest) :
    ¬ Keyword.elseIf.letters <+:
      Keyword.ifThen.letters ++ ' ' :: ((Expr.literalText t).toList ++ rest) := by
  have longer : Keyword.elseIf.letters =
      Keyword.ifThen.letters ++ ' ' :: "but stout".toList := by decide
  rw [longer, List.prefix_append_right_inj, List.cons_prefix_cons]
  rintro ⟨-, here⟩
  obtain ⟨kind, text, span⟩ := t
  cases kind with
  | word =>
    have letters : ∀ c ∈ text.toList, c.isAlpha = true := writable.1.2
    have here : "but stout".toList <+: text.toList ++ rest := here
    have within := le_word_of_follows (by simp [reserved]) letters follows here
    exact not_le_of_blank letters (by decide) within
  | number =>
    have isNumeral : IsNumeral text := writable
    obtain ⟨c, whole, part, isText, digits, -⟩ := isNumeral.exists_parts
    have here : "but stout".toList <+: text.toList ++ rest := here
    rw [isText] at here
    obtain ⟨rfl, -⟩ := List.cons_prefix_cons.mp here
    have digit := digits _ List.mem_cons_self
    cases digit
  | constant | binding =>
    simp [Expr.literalText, Kind.sigil?, Sigil.symbol] at here
  | _ => cases literal

end

end PhraseLang
