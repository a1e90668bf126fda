import PhraseLang.Proofs.Comment
import PhraseLang.Proofs.Lexeme
import PhraseLang.Proofs.Scan

/-! A text cut in two between pieces.
Where pieces begin and end is decided with the text behind them in sight: a phrase may be refused
for the letter behind it, a comment may be closed far away. The front of a cut has the same pieces
by itself, unless a phrase ends at the cut or a comment is left open there. A line feed is always
such a cut. -/
namespace PhraseLang

theorem takeWhile_front {p : Char → Bool} {front rest : List Char}
    (within : (front ++ rest).takeWhile p <+: front) :
    front.takeWhile p = (front ++ rest).takeWhile p := by
  rw [List.takeWhile_append] at within ⊢
  split at within
  · rename_i all
    have whole : front.takeWhile p = front := (List.takeWhile_prefix p).eq_of_length all
    have size := within.length_le
    rw [List.length_append] at size
    have none : rest.takeWhile p = [] := List.length_eq_zero_iff.mp (by omega)
    rw [if_pos all, none, List.append_nil, whole]
  · rename_i some
    rw [if_neg some]

theorem takeWhile_before {p : Char → Bool} {front rest : List Char} {c : Char}
    (stop : p c = false) : (front ++ c :: rest).takeWhile p <+: front := by
  rw [List.takeWhile_append, List.takeWhile_cons_of_neg (by simp [stop]), List.append_nil]
  split
  · exact List.prefix_rfl
  · exact List.takeWhile_prefix p

theorem head_stop {p : Char → Bool} {c : Char} (stop : p c = false) (rest : List Char) :
    ∀ d ∈ (c :: rest).head?, p d = false := by
  intro d first
  obtain rfl := Option.mem_some.mp first
  exact stop

theorem cut_append {c : Char} {cs part tail : List Char} (cut : c :: cs = part ++ tail)
    (rest : List Char) : c :: (cs ++ rest) = part ++ (tail ++ rest) := by
  rw [← List.append_assoc, ← cut, List.cons_append]

theorem takeWhile_stop {p : Char → Bool} {text rest : List Char} (all : ∀ c ∈ text, p c = true)
    (stop : ∀ c ∈ rest.head?, p c = false) : (text ++ rest).takeWhile p = text := by
  rw [List.takeWhile_append_of_pos all]
  cases rest with
  | nil => simp
  | cons c rest => rw [List.takeWhile_cons_of_neg (by simp [stop c rfl]), List.append_nil]

theorem dropWhile_stop {p : Char → Bool} {text rest : List Char} (all : ∀ c ∈ text, p c = true)
    (stop : ∀ c ∈ rest.head?, p c = false) : (text ++ rest).dropWhile p = rest := by
  rw [List.dropWhile_append_of_pos all]
  cases rest with
  | nil => rfl
  | cons c rest => rw [List.dropWhile_cons_of_neg (by simp [stop c rfl])]

theorem prefix_before {front rest part : List Char} {c : Char} (here : part <+: front ++ c :: rest)
    (without : c ∉ part) : part <+: front := by
  rcases List.prefix_or_prefix_of_prefix here (List.prefix_append front (c :: rest)) with le | ge
  · exact le
  · obtain ⟨tail, rfl⟩ := ge
    have tail_le := (List.prefix_append_right_inj front).mp here
    cases tail with
    | nil => simp
    | cons d tail =>
      obtain ⟨rfl, -⟩ := List.cons_prefix_cons.mp tail_le
      exact absurd (by simp) without

theorem find?_eq_of_imp {α : Type} {p q : α → Bool} {l : List α}
    (imp : ∀ x, q x = true → p x = true)
    (found : ∀ x, l.find? p = some x → q x = true) : l.find? q = l.find? p := by
  induction l with
  | nil => rfl
  | cons x l ih =>
    by_cases hit : p x = true
    · have here := found x (List.find?_cons_of_pos hit)
      rw [List.find?_cons_of_pos here, List.find?_cons_of_pos hit]
    · have miss : ¬ q x = true := fun here => hit (imp x here)
      rw [List.find?_cons_of_neg hit] at found
      rw [List.find?_cons_of_neg miss, List.find?_cons_of_neg hit, ih found]

namespace Comment

theorem through?_front {mark front rest part : List Char} (nonempty : mark ≠ [])
    (found : through? mark (front ++ rest) = some part) (within : part <+: front) :
    through? mark front = some part := by
  induction front generalizing part with
  | nil =>
    have closes := suffix_of_through? found
    rw [List.prefix_nil.mp within] at closes
    exact absurd (List.suffix_nil.mp closes) nonempty
  | cons c front ih =>
    rw [List.cons_append, through?] at found
    rw [through?]
    split at found
    · cases found
      rw [if_pos (List.isPrefixOf_iff_prefix.mpr within)]
    · rename_i later
      have notHere : ¬ mark.isPrefixOf (c :: front) = true := fun here =>
        later (List.isPrefixOf_iff_prefix.mpr
          (List.prefix_append_of_prefix (List.isPrefixOf_iff_prefix.mp here)))
      obtain ⟨tail, foundTail, rfl⟩ := Option.map_eq_some_iff.mp found
      rw [if_neg notHere, ih foundTail (List.cons_prefix_cons.mp within).2]
      rfl

theorem through?_append {mark front part : List Char} (found : through? mark front = some part)
    (rest : List Char) : through? mark (front ++ rest) = some part := by
  induction front generalizing part with
  | nil => cases found
  | cons c front ih =>
    have inside : part <+: c :: front := prefix_of_through? found
    have marked : mark <:+ part := suffix_of_through? found
    rw [through?] at found
    rw [List.cons_append, through?]
    split at found
    · rename_i here
      have here : mark <+: c :: front ++ rest :=
        List.prefix_append_of_prefix (List.isPrefixOf_iff_prefix.mp here)
      rw [if_pos (List.isPrefixOf_iff_prefix.mpr (by simpa using here)), found]
    · rename_i later
      have notHere : ¬ mark.isPrefixOf (c :: (front ++ rest)) = true := by
        intro here
        -- The mark that is found lies within the front, so it is no longer than that.
        have here : mark <+: c :: front ++ rest := List.isPrefixOf_iff_prefix.mp here
        have front_le : c :: front <+: c :: front ++ rest := List.prefix_append _ _
        have size := Nat.le_trans marked.length_le inside.length_le
        exact later (List.isPrefixOf_iff_prefix.mpr
          (List.prefix_of_prefix_length_le here front_le size))
      obtain ⟨tail, foundTail, rfl⟩ := Option.map_eq_some_iff.mp found
      rw [if_neg notHere, ih foundTail]
      rfl

theorem not_isPrefixOf_front {mark front rest : List Char}
    (none : ¬ mark.isPrefixOf (front ++ rest) = true) : ¬ mark.isPrefixOf front = true := by
  intro here
  exact none (List.isPrefixOf_iff_prefix.mpr
    (List.prefix_append_of_prefix (List.isPrefixOf_iff_prefix.mp here)))

theorem atStart?_front_eq_none {front rest : List Char}
    (missing : atStart? (front ++ rest) = none) :
    atStart? front = none := by
  unfold atStart? at missing ⊢
  split at missing
  · cases missing
  · rename_i notLine
    split at missing
    · split at missing <;> cases missing
    · rename_i notBlock
      rw [if_neg (not_isPrefixOf_front notLine), if_neg (not_isPrefixOf_front notBlock)]

theorem atStart?_front {front rest : List Char} {e : Extent}
    (found : atStart? (front ++ rest) = some e) (within : e.text <+: front) :
    atStart? front = some e := by
  unfold atStart? at found ⊢
  split at found
  · rename_i isLine
    cases found
    have same := takeWhile_front (p := fun c => decide (c ≠ '\n')) within
    have marked : lineMarker.toList.isPrefixOf front = true := by
      refine List.isPrefixOf_iff_prefix.mpr (List.IsPrefix.trans ?_ within)
      obtain ⟨tail, cut⟩ := List.isPrefixOf_iff_prefix.mp isLine
      have plain : ∀ c ∈ lineMarker.toList, decide (c ≠ '\n') = true := by simp [lineMarker]
      rw [← cut, List.takeWhile_append_of_pos plain]
      exact List.prefix_append _ _
    rw [if_pos marked, same]
  · rename_i notLine
    rw [if_neg (not_isPrefixOf_front notLine)]
    split at found
    · rename_i isBlock
      split at found
      · rename_i body closes
        cases found
        have within : opener.toList ++ body <+: front := within
        obtain ⟨tail, rfl⟩ := (List.prefix_append _ _).trans within
        rw [List.append_assoc, List.drop_left] at closes
        have inside := (List.prefix_append_right_inj opener.toList).mp within
        rw [if_pos (List.isPrefixOf_iff_prefix.mpr (List.prefix_append _ _)), List.drop_left,
          through?_front (by decide) closes inside]
      · rename_i missing
        cases found
        -- A comment left open goes to the end of the text, so nothing is behind the front.
        have size := within.length_le
        simp only [Extent.text, List.length_append] at size
        obtain rfl : rest = [] := List.length_eq_zero_iff.mp (by omega)
        rw [List.append_nil] at isBlock missing ⊢
        rw [if_pos isBlock, missing]
    · cases found

end Comment

/-- Where the front is a phrase, the character behind it makes no longer word of it. -/
def Settled (front rest : List Char) : Prop :=
  ∀ k : Keyword, k.letters = front → k.takesTrailer = false →
    ∀ c ∈ rest.head?, Keyword.continuesWord c = false

namespace Keyword

theorem atStart?_eq_find? (text : List Char) : atStart? text =
    longestFirst.find? fun k => k.letters.isPrefixOf text && k.endsWell text := by
  rw [atStart?, matching, List.find?_filter]
  simp only [Bool.decide_and, Bool.decide_eq_true]

theorem endsWell_front {front rest : List Char} {k : Keyword} (settled : Settled front rest)
    (here : k.letters <+: front) : k.endsWell (front ++ rest) = k.endsWell front := by
  obtain ⟨tail, rfl⟩ := here
  cases tail with
  | nil =>
    cases trailer : k.takesTrailer with
    | true => simp [endsWell, trailer]
    | false =>
      have follows := settled k (by simp) trailer
      have none : rest.head?.any continuesWord = false := by
        cases first : rest.head? with
        | none => rfl
        | some c => exact follows c first
      simp [endsWell, none]
  | cons c tail => simp [endsWell]

theorem atStart?_front {front rest : List Char} (settled : Settled front rest)
    (within : ∀ k, atStart? (front ++ rest) = some k → k.letters <+: front) :
    atStart? front = atStart? (front ++ rest) := by
  rw [atStart?_eq_find?] at within
  rw [atStart?_eq_find?, atStart?_eq_find?]
  refine find?_eq_of_imp (fun k stands => ?_) fun k found => ?_
  · obtain ⟨here, ends⟩ := Bool.and_eq_true_iff.mp stands
    have here := List.isPrefixOf_iff_prefix.mp here
    have more : k.letters <+: front ++ rest := List.prefix_append_of_prefix here
    rw [endsWell_front settled here, ends, List.isPrefixOf_iff_prefix.mpr more]
    rfl
  · have here := within k found
    have stands := List.find?_some found
    have ends := (Bool.and_eq_true_iff.mp stands).2
    rw [endsWell_front settled here] at ends
    rw [ends, List.isPrefixOf_iff_prefix.mpr here]
    rfl

end Keyword

namespace Lexeme

theorem ofKeyword_front {k : Keyword} {front rest : List Char}
    (within : (ofKeyword k (front ++ rest)).text <+: front) :
    ofKeyword k front = ofKeyword k (front ++ rest) := by
  obtain ⟨tail, rfl⟩ := (List.prefix_append k.letters _).trans within
  have inside := (List.prefix_append_right_inj k.letters).mp within
  simp only [ofKeyword, List.append_assoc, List.drop_left] at inside ⊢
  split at inside
  · rename_i takes
    rw [if_pos takes, if_pos takes, takeWhile_front inside]
  · rename_i takes
    rw [if_neg takes, if_neg takes]

theorem ofSigil_front {s : Sigil} {c : Char} {front rest : List Char}
    (within : (ofSigil s c (front ++ rest)).text <+: c :: front) :
    ofSigil s c front = ofSigil s c (front ++ rest) := by
  have same : front.takeWhile Char.isAlpha = (front ++ rest).takeWhile Char.isAlpha := by
    refine takeWhile_front ?_
    unfold ofSigil at within
    split at within
    · rename_i nameless
      rw [nameless]
      exact List.nil_prefix
    · exact (List.cons_prefix_cons.mp within).2
  rw [ofSigil, ofSigil, same]

/-- The point and the digits behind the whole part of a numeral, if there are both. -/
def fraction : List Char → List Char
  | '.' :: rest =>
    if rest.takeWhile Char.isDigit = [] then [] else '.' :: rest.takeWhile Char.isDigit
  | _ => []

theorem numeral_eq (text : List Char) :
    numeral text = text.takeWhile Char.isDigit ++ fraction (text.dropWhile Char.isDigit) := by
  unfold numeral
  split
  · rename_i rest behind
    rw [behind, fraction]
    split
    · rename_i none
      rw [if_pos none, List.append_nil]
    · rename_i some
      rw [if_neg some]
  · rename_i noPoint
    have none : fraction (text.dropWhile Char.isDigit) = [] := by
      unfold fraction
      split
      · rename_i rest behind
        exact absurd behind (noPoint rest)
      · rfl
    rw [none, List.append_nil]

theorem fraction_cases (tail : List Char) :
    (fraction tail = [] ∧ ∀ d more, tail = '.' :: d :: more → d.isDigit = false) ∨
      ∃ rest, tail = '.' :: rest ∧ rest.takeWhile Char.isDigit ≠ [] ∧
        fraction tail = '.' :: rest.takeWhile Char.isDigit := by
  unfold fraction
  split
  · rename_i rest
    split
    · rename_i none
      refine .inl ⟨rfl, ?_⟩
      rintro d more same
      obtain rfl := (List.cons.inj same).2
      refine Bool.eq_false_iff.mpr fun digit => ?_
      simp [digit] at none
    · rename_i some
      exact .inr ⟨rest, rfl, some, rfl⟩
  · rename_i noPoint
    exact .inl ⟨rfl, fun d more same => absurd same (noPoint (d :: more))⟩

theorem fraction_front {tail rest : List Char} (within : fraction (tail ++ rest) <+: tail) :
    fraction tail = fraction (tail ++ rest) := by
  cases tail with
  | nil => exact (List.prefix_nil.mp within).symm
  | cons c tail =>
    by_cases isPoint : c = '.'
    · subst isPoint
      have same : tail.takeWhile Char.isDigit = (tail ++ rest).takeWhile Char.isDigit := by
        refine takeWhile_front ?_
        rw [List.cons_append, fraction] at within
        split at within
        · rename_i none
          rw [none]
          exact List.nil_prefix
        · exact (List.cons_prefix_cons.mp within).2
      rw [List.cons_append, fraction, fraction, same]
    · simp [fraction, isPoint]

theorem numeral_front {front rest : List Char} (within : numeral (front ++ rest) <+: front) :
    numeral front = numeral (front ++ rest) := by
  rw [numeral_eq] at within
  have whole := takeWhile_front ((List.prefix_append _ _).trans within)
  have cut := List.takeWhile_append_dropWhile (p := Char.isDigit) (l := front)
  have behind : (front ++ rest).dropWhile Char.isDigit = front.dropWhile Char.isDigit ++ rest := by
    have cutBoth := List.takeWhile_append_dropWhile (p := Char.isDigit) (l := front ++ rest)
    rw [← whole] at cutBoth
    exact List.append_cancel_left (cutBoth.trans (by rw [← List.append_assoc, cut]))
  have inside : fraction (front.dropWhile Char.isDigit ++ rest) <+:
      front.dropWhile Char.isDigit := by
    rw [← whole, behind] at within
    exact (List.prefix_append_right_inj _).mp (by rwa [cut])
  rw [numeral_eq, numeral_eq, ← whole, behind, fraction_front inside]

theorem atStart_front {c : Char} {front rest : List Char} (settled : Settled (c :: front) rest)
    (within : (atStart c (front ++ rest)).text <+: c :: front) :
    atStart c front = atStart c (front ++ rest) := by
  unfold atStart at within ⊢
  cases isPunctuation : Punctuation.ofChar? c with
  | some p => rfl
  | none =>
    cases isOperator : Operator.ofChar? c with
    | some o => rfl
    | none =>
      simp only [isPunctuation, isOperator] at within ⊢
      cases found : Keyword.atStart? (c :: (front ++ rest)) with
      | some k =>
        simp only [found] at within
        have same := Keyword.atStart?_front settled fun j hj => by
          obtain rfl : k = j := Option.some.inj (found.symm.trans hj)
          exact (List.prefix_append _ _).trans within
        rw [List.cons_append, found] at same
        simp only [same]
        exact ofKeyword_front within
      | none =>
        simp only [found] at within
        have same := Keyword.atStart?_front settled fun j hj => by
          cases found.symm.trans hj
        rw [List.cons_append, found] at same
        simp only [same]
        cases isSigil : Sigil.ofChar? c with
        | some s =>
          simp only [isSigil] at within
          exact ofSigil_front within
        | none =>
          simp only [isSigil] at within ⊢
          split at within
          · rename_i letter
            rw [if_pos letter, if_pos letter]
            have within : (c :: front ++ rest).takeWhile Char.isAlpha <+: c :: front := within
            exact congrArg (Lexeme.mk .word) (takeWhile_front within)
          · rename_i noLetter
            rw [if_neg noLetter, if_neg noLetter]
            split at within
            · rename_i digit
              rw [if_pos digit, if_pos digit]
              have within : numeral (c :: front ++ rest) <+: c :: front := within
              exact congrArg (Lexeme.mk .number) (numeral_front within)
            · rename_i noDigit
              rw [if_neg noDigit, if_neg noDigit]

end Lexeme

namespace Piece

theorem atStart_front {c : Char} {front rest : List Char} (settled : Settled (c :: front) rest)
    (within : (atStart c (front ++ rest)).source <+: c :: front) :
    atStart c front = atStart c (front ++ rest) := by
  unfold atStart at within ⊢
  split
  · rename_i feed
    rw [if_pos feed] at within
    rw [takeWhile_front (List.cons_prefix_cons.mp within).2]
  · rename_i noFeed
    simp only [if_neg noFeed] at within
    split
    · rfl
    · rename_i noBlank
      simp only [if_neg noBlank] at within
      cases found : Comment.atStart? (c :: (front ++ rest)) with
      | some e =>
        simp only [found] at within
        have found : Comment.atStart? (c :: front ++ rest) = some e := found
        simp only [Comment.atStart?_front found within]
      | none =>
        simp only [found] at within
        have found : Comment.atStart? (c :: front ++ rest) = none := found
        simp only [Comment.atStart?_front_eq_none found]
        exact congrArg lexeme (Lexeme.atStart_front settled within)

end Piece

theorem flatMap_source_of_cut {front rest : List Char} {ps : List Piece}
    (cut : pieces (front ++ rest) = ps ++ pieces rest) : ps.flatMap Piece.source = front := by
  have whole := flatMap_source_pieces (front ++ rest)
  rw [cut, List.flatMap_append, flatMap_source_pieces] at whole
  exact List.append_cancel_right whole

theorem exists_cut_of_pieces {text rest : List Char} {p : Piece} {ps : List Piece}
    (whole : pieces (text ++ rest) = p :: ps ++ pieces rest) :
    ∃ c cs tail, text = c :: cs ∧ p = Piece.atStart c (cs ++ rest) ∧ c :: cs = p.source ++ tail ∧
      pieces (tail ++ rest) = ps ++ pieces rest := by
  have cut := flatMap_source_of_cut whole
  rw [List.flatMap_cons] at cut
  cases text with
  | nil =>
    have size := congrArg List.length whole
    simp only [List.nil_append, List.cons_append, List.length_cons, List.length_append] at size
    omega
  | cons c cs =>
    have first := whole
    rw [List.cons_append, pieces_cons] at first
    obtain ⟨rfl, -⟩ := List.cons.inj first
    refine ⟨c, cs, ps.flatMap Piece.source, rfl, rfl, cut.symm, ?_⟩
    rw [List.cons_append, Layout.pieces_of_cut (cut_append cut.symm rest)] at whole
    exact (List.cons.inj whole).2

/-- In front of a cut the pieces are those of the front alone. -/
theorem pieces_front {front rest : List Char} {ps : List Piece}
    (cut : pieces (front ++ rest) = ps ++ pieces rest)
    (settled : ∀ tail, tail <:+ front → Settled tail rest) : pieces front = ps := by
  induction ps generalizing front with
  | nil =>
    obtain rfl : [] = front := flatMap_source_of_cut cut
    rw [pieces]
  | cons p ps ih =>
    obtain ⟨c, cs, tail, rfl, rfl, parts, behind⟩ := exists_cut_of_pieces cut
    have same := Piece.atStart_front (settled _ List.suffix_rfl) ⟨tail, parts.symm⟩
    have suffix : tail <:+ c :: cs := ⟨_, parts.symm⟩
    rw [← same] at parts ⊢
    rw [Layout.pieces_of_cut parts, ih behind fun t ht => settled t (ht.trans suffix)]

namespace Lexeme

theorem feed_not_mem_letters (k : Keyword) : '\n' ∉ k.letters := by cases k <;> decide

theorem feed_not_mem_takeWhile {p : Char → Bool} (stop : p '\n' = false) (text : List Char) :
    '\n' ∉ text.takeWhile p := by
  intro inside
  have kept := List.all_eq_true.mp (List.all_takeWhile (p := p) (l := text)) '\n' inside
  rw [stop] at kept
  cases kept

theorem feed_not_mem_fraction (text : List Char) : '\n' ∉ fraction text := by
  rcases fraction_cases text with ⟨none, -⟩ | ⟨digits, -, -, some⟩
  · rw [none]
    exact List.not_mem_nil
  · rw [some]
    intro inside
    rcases List.mem_cons.mp inside with isPoint | inside
    · cases isPoint
    · exact feed_not_mem_takeWhile rfl _ inside

/-- Only a line feed by itself would be a lexeme with a line feed. -/
theorem feed_not_mem_text {c : Char} {cs : List Char} (noFeed : c ≠ '\n') :
    '\n' ∉ (atStart c cs).text := by
  have single : '\n' ∉ [c] := by simpa using noFeed.symm
  have form := form_atStart c cs
  generalize atStart c cs = x at form
  cases form with
  | punctuation | operator | bareSigil | unknown => exact single
  | @keyword k =>
    intro inside
    rcases List.mem_append.mp inside with inside | inside
    · exact feed_not_mem_letters k inside
    · split at inside
      · exact feed_not_mem_takeWhile rfl _ inside
      · cases inside
  | name =>
    intro inside
    rcases List.mem_cons.mp inside with isFeed | inside
    · exact noFeed isFeed.symm
    · exact feed_not_mem_takeWhile rfl _ inside
  | word => exact feed_not_mem_takeWhile rfl _
  | number =>
    rw [numeral_eq]
    intro inside
    rcases List.mem_append.mp inside with inside | inside
    · exact feed_not_mem_takeWhile rfl _ inside
    · exact feed_not_mem_fraction _ inside

end Lexeme

theorem settled_of_feed (front rest : List Char) : Settled front ('\n' :: rest) := by
  intro k _ _ c first
  obtain rfl := Option.mem_some.mp first
  rfl

theorem Comment.atStart?_of_unclosed {text : List Char}
    (notLine : ¬ lineMarker.toList.isPrefixOf (opener.toList ++ text) = true)
    (open_ : through? closer.toList text = none) :
    atStart? (opener.toList ++ text) = some (.unclosed (opener.toList ++ text)) := by
  rw [atStart?, if_neg notLine, if_pos (List.isPrefixOf_iff_prefix.mpr (List.prefix_append _ _)),
    List.drop_left, open_]

/-- A comment lies in front of a cut that leaves marks whole, if the text by itself leaves no comment
open there. -/
theorem Comment.text_within {front rest : List Char} {e : Extent}
    (found : atStart? (front ++ rest) = some e)
    (whole : ∀ mark ∈ marks, mark <+: front ++ rest → mark <+: front)
    (ended : ∀ text, e = .line text → text <+: front)
    (closed : ∀ text, atStart? front ≠ some (.unclosed text)) : e.text <+: front := by
  unfold atStart? at found
  split at found
  · cases found
    exact ended _ rfl
  · rename_i notLine
    split at found
    · rename_i isBlock
      have marked : opener.toList <+: front :=
        whole _ (List.mem_cons_of_mem _ List.mem_cons_self) (List.isPrefixOf_iff_prefix.mp isBlock)
      obtain ⟨tail, rfl⟩ := marked
      rw [List.append_assoc, List.drop_left] at found
      cases body : through? closer.toList tail with
      | none =>
        -- A front without the closing mark would be an open comment by itself.
        have opened := atStart?_of_unclosed (not_isPrefixOf_front notLine) body
        exact absurd opened (closed _)
      | some part =>
        rw [through?_append body] at found
        cases found
        exact (List.prefix_append_right_inj _).mpr (prefix_of_through? body)
    · cases found

theorem Comment.atStart?_eq_line_iff {text body : List Char} : atStart? text = some (.line body) ↔
    lineMarker.toList <+: text ∧ body = text.takeWhile (fun c => decide (c ≠ '\n')) := by
  rw [← List.isPrefixOf_iff_prefix]
  constructor
  · intro found
    unfold atStart? at found
    split at found
    · rename_i marked
      cases found
      exact ⟨marked, rfl⟩
    · split at found
      · split at found <;> cases found
      · cases found
  · rintro ⟨marked, rfl⟩
    rw [atStart?, if_pos marked]

theorem Comment.feed_not_mem_marks {mark : List Char} (isMark : mark ∈ marks) : '\n' ∉ mark := by
  have plain : ∀ mark ∈ marks, '\n' ∉ mark := by decide
  exact plain mark isMark

theorem Comment.text_before_feed {front rest : List Char} {e : Extent}
    (found : atStart? (front ++ '\n' :: rest) = some e)
    (closed : ∀ text, atStart? front ≠ some (.unclosed text)) : e.text <+: front := by
  refine text_within found (fun mark isMark here => ?_) (fun text isLine => ?_) closed
  · exact prefix_before here (feed_not_mem_marks isMark)
  · subst isLine
    rw [(atStart?_eq_line_iff.mp found).2]
    exact takeWhile_before rfl

/-- What begins in front of a line feed ends there, unless it is a comment left open. -/
theorem Piece.source_before_feed {c : Char} {front rest : List Char}
    (closed : ∀ text, atStart c front ≠ .comment (.unclosed text)) :
    (atStart c (front ++ '\n' :: rest)).source <+: c :: front := by
  have form := form_atStart c (front ++ '\n' :: rest)
  generalize here : atStart c (front ++ '\n' :: rest) = p at form
  cases form with
  | newline isFeed =>
    subst isFeed
    exact List.cons_prefix_cons.mpr ⟨rfl, takeWhile_before rfl⟩
  | blank => exact List.cons_prefix_cons.mpr ⟨rfl, List.nil_prefix⟩
  | comment noFeed noBlank found =>
    have found : Comment.atStart? (c :: front ++ '\n' :: rest) = some _ := found
    refine Comment.text_before_feed found fun text opened => closed text ?_
    rw [atStart, if_neg noFeed, noBlank, if_neg (by simp), opened]
  | lexeme noFeed =>
    have here : (Lexeme.atStart c (front ++ '\n' :: rest)).text <+: c :: front ++ '\n' :: rest :=
      Lexeme.atStart_prefix _ _
    exact prefix_before here (Lexeme.feed_not_mem_text noFeed)

theorem pieces_append_feed (front rest : List Char)
    (closed : ∀ text, .comment (.unclosed text) ∉ pieces front) :
    pieces (front ++ '\n' :: rest) = pieces front ++ pieces ('\n' :: rest) := by
  match front with
  | [] => simp [pieces]
  | c :: front =>
    obtain ⟨tail, cut⟩ := Layout.exists_cut c front
    have smaller := Layout.length_of_cut cut
    have whole := Layout.pieces_of_cut cut
    rw [whole] at closed ⊢
    have within : (Piece.atStart c (front ++ '\n' :: rest)).source <+: c :: front :=
      Piece.source_before_feed fun text opened => closed text (by simp [opened])
    have same := Piece.atStart_front (settled_of_feed _ _) within
    have cutBoth : c :: (front ++ '\n' :: rest) =
        (Piece.atStart c (front ++ '\n' :: rest)).source ++ (tail ++ '\n' :: rest) := by
      rw [← same]
      exact cut_append cut _
    rw [List.cons_append, Layout.pieces_of_cut cutBoth,
      pieces_append_feed tail rest (fun text opened => closed text (List.mem_cons_of_mem _ opened)),
      same, List.cons_append]
termination_by front.length
decreasing_by exact smaller

end PhraseLang
