import PhraseLang.Proofs.Gap
import PhraseLang.Proofs.Unplaced

/-! Blanks at the ends of lines.
One blank in front of a line feed is in no lexeme: it stands alone, or it makes an indentation or a
comment one character longer. An indentation grows that way only on a line of nothing else, which is
not measured, so the tokens stay as they are. -/
namespace PhraseLang
open Layout

namespace Comment
variable {b c : Char} {mark front inner rest : List Char}

/-- A mark that the front lacks is looked for behind the next character, if it does not hold that
one. -/
theorem through?_past (nonempty : mark ≠ []) (without : c ∉ mark)
    (missing : through? mark front = none) :
    through? mark (front ++ c :: rest) = (through? mark rest).map (front ++ c :: ·) := by
  induction front with
  | nil =>
    have notHere : ¬ mark.isPrefixOf (c :: rest) = true := by
      intro here
      have here : mark <+: [] ++ c :: rest := List.isPrefixOf_iff_prefix.mp here
      exact nonempty (List.prefix_nil.mp (prefix_before here without))
    rw [List.nil_append, through?, if_neg notHere]
    rfl
  | cons d front ih =>
    rw [through?] at missing
    split at missing
    · cases missing
    · rename_i notHere
      have notBoth : ¬ mark.isPrefixOf (d :: (front ++ c :: rest)) = true := by
        intro here
        have here : mark <+: d :: front ++ c :: rest := List.isPrefixOf_iff_prefix.mp here
        exact notHere (List.isPrefixOf_iff_prefix.mpr (prefix_before here without))
      rw [List.cons_append, through?, if_neg notBoth, ih (Option.map_eq_none_iff.mp missing),
        Option.map_map]
      rfl

theorem through?_concat (nonempty : mark ≠ []) (ends : mark.getLast? ≠ some b)
    (missing : through? mark front = none) : through? mark (front ++ [b]) = none := by
  refine Option.eq_none_iff_forall_ne_some.mpr fun part found => ?_
  rcases List.prefix_concat_iff.mp (prefix_of_through? found) with whole | within
  · obtain ⟨before, same⟩ := suffix_of_through? found
    obtain ⟨d, last⟩ := Option.isSome_iff_exists.mp (List.getLast?_isSome.mpr nonempty)
    have lasts := congrArg List.getLast? (same.trans whole)
    simp only [List.getLast?_append, last, List.getLast?_singleton, Option.some_or] at lasts
    exact ends (last.trans lasts)
  · rw [through?_front nonempty found within] at missing
    cases missing

theorem atStart?_line_goesOn {text more : List Char} (found : atStart? text = some (.line text))
    (plain : '\n' ∉ more) :
    atStart? (text ++ more ++ '\n' :: rest) = some (.line (text ++ more)) := by
  obtain ⟨marked, whole⟩ := atStart?_eq_line_iff.mp found
  have all : ∀ d ∈ text ++ more, decide (d ≠ '\n') = true := by
    intro d inside
    rcases List.mem_append.mp inside with inside | inside
    · rw [whole] at inside
      exact List.all_eq_true.mp List.all_takeWhile d inside
    · refine decide_eq_true ?_
      rintro rfl
      exact plain inside
  refine atStart?_eq_line_iff.mpr ⟨?_, (takeWhile_stop all (head_stop (by simp) rest)).symm⟩
  exact marked.trans ((List.prefix_append _ _).trans (List.prefix_append _ _))

/-- Comments of one form. -/
inductive Extent.Alike : Extent → Extent → Prop where
  | line (s t : List Char) : Alike (.line s) (.line t)
  | block (s t : List Char) : Alike (.block s) (.block t)
  | unclosed (s t : List Char) : Alike (.unclosed s) (.unclosed t)

theorem not_line_of_opener (text : List Char) :
    ¬ lineMarker.toList.isPrefixOf (opener.toList ++ text) = true := by
  simp [lineMarker, opener]

theorem exists_inner_of_unclosed {text body : List Char}
    (opened : atStart? text = some (.unclosed body)) :
    ∃ inner, text = opener.toList ++ inner ∧ through? closer.toList inner = none := by
  unfold atStart? at opened
  split at opened
  · cases opened
  · split at opened
    · rename_i isBlock
      obtain ⟨inner, rfl⟩ := List.isPrefixOf_iff_prefix.mp isBlock
      rw [List.drop_left] at opened
      split at opened
      · cases opened
      · rename_i missing
        exact ⟨inner, rfl, missing⟩
    · cases opened

theorem atStart?_past_feed (missing : through? closer.toList inner = none) (rest : List Char) :
    atStart? (opener.toList ++ (inner ++ '\n' :: rest)) =
      match through? closer.toList rest with
      | some body => some (.block (opener.toList ++ (inner ++ '\n' :: body)))
      | none => some (.unclosed (opener.toList ++ (inner ++ '\n' :: rest))) := by
  rw [atStart?, if_neg (not_line_of_opener _),
    if_pos (List.isPrefixOf_iff_prefix.mpr (List.prefix_append _ _)), List.drop_left,
    through?_past (by decide) (by decide) missing]
  cases through? closer.toList rest <;> rfl

/-- A comment left open in front of a line feed ends at the same place with a blank in it. -/
theorem exists_alike_of_unclosed {text body : List Char} (blank : Piece.isBlank b = true)
    (opened : atStart? text = some (.unclosed body)) (rest : List Char) :
    ∃ (d e : Extent) (tail : List Char), d.Alike e ∧
      atStart? (text ++ '\n' :: rest) = some d ∧ text ++ '\n' :: rest = d.text ++ tail ∧
      atStart? (text ++ b :: '\n' :: rest) = some e ∧
      text ++ b :: '\n' :: rest = e.text ++ tail := by
  obtain ⟨inner, rfl, missing⟩ := exists_inner_of_unclosed opened
  have ends : closer.toList.getLast? ≠ some b := by
    rcases eq_of_isBlank blank with rfl | rfl | rfl <;> decide
  have without := atStart?_past_feed missing rest
  have within := atStart?_past_feed (through?_concat (by decide) ends missing) rest
  cases found : through? closer.toList rest with
  | none =>
    simp only [found, List.append_assoc, List.singleton_append] at without within
    exact ⟨_, _, [], .unclosed _ _, by simpa using without, by simp [Extent.text],
      by simpa using within, by simp [Extent.text]⟩
  | some part =>
    obtain ⟨tail, rfl⟩ := prefix_of_through? found
    simp only [found, List.append_assoc, List.singleton_append] at without within
    exact ⟨_, _, tail, .block _ _, by simpa using without, by simp [Extent.text],
      by simpa using within, by simp [Extent.text]⟩

end Comment

/-- Nothing is spelled with a line feed, or ends with a blank. -/
theorem unbroken_of_padding {b : Char} (blank : Piece.isBlank b = true) (front rest : List Char) :
    Unbroken front (b :: '\n' :: rest) := by
  have plain : ∀ spelling ∈ spellings,
      '\n' ∉ spelling ∧ spelling.getLast?.any Piece.isBlank = false := by decide +kernel
  intro spelling listed here
  obtain ⟨noFeed, ends⟩ := plain spelling listed
  have here : spelling <+: (front ++ [b]) ++ '\n' :: rest := by simpa using here
  rcases List.prefix_concat_iff.mp (prefix_before here noFeed) with rfl | within
  · simp [blank] at ends
  · exact within

/-- The first pieces of a text with a line feed in it, without and with a blank in front of it. -/
inductive Paired (b : Char) (rest front : List Char) : Prop where
  | before {p : Piece} {tail : List Char} : p.source ≠ [] → front = p.source ++ tail →
      (∀ indentation, p = .newline indentation → tail ≠ []) →
      pieces (front ++ '\n' :: rest) = p :: pieces (tail ++ '\n' :: rest) →
      pieces (front ++ b :: '\n' :: rest) = p :: pieces (tail ++ b :: '\n' :: rest) →
      Paired b rest front
  | indentation {i j tail : List Char} : tail = '\n' :: rest ∨ tail = '\r' :: '\n' :: rest →
      pieces (front ++ '\n' :: rest) = .newline i :: pieces ('\n' :: rest) →
      pieces (front ++ b :: '\n' :: rest) = .newline j :: pieces tail → Paired b rest front
  | comment {d e : Comment.Extent} {tail : List Char} : d.Alike e →
      pieces (front ++ '\n' :: rest) = .comment d :: pieces tail →
      pieces (front ++ b :: '\n' :: rest) = .comment e :: pieces tail → Paired b rest front

section
variable {b : Char}

theorem pieces_of_newline {i rest : List Char} (all : ∀ d ∈ i, Piece.isIndentation d = true)
    (stop : ∀ d ∈ rest.head?, Piece.isIndentation d = false) :
    pieces ('\n' :: (i ++ rest)) = .newline i :: pieces rest := by
  have here : Piece.atStart '\n' (i ++ rest) = .newline i := by
    rw [Piece.atStart, if_pos rfl, takeWhile_stop all stop]
  exact pieces_of_atStart here rfl

theorem paired_of_indentation (blank : Piece.isBlank b = true) {i : List Char}
    (all : ∀ d ∈ i, Piece.isIndentation d = true) (rest : List Char) :
    Paired b rest ('\n' :: i) := by
  have without : pieces ('\n' :: i ++ '\n' :: rest) = .newline i :: pieces ('\n' :: rest) :=
    pieces_of_newline all (head_stop rfl rest)
  by_cases spacing : Piece.isIndentation b = true
  · have all : ∀ d ∈ i ++ [b], Piece.isIndentation d = true := by
      intro d inside
      rcases List.mem_append.mp inside with inside | isLast
      · exact all d inside
      · rwa [List.mem_singleton.mp isLast]
    have longer := pieces_of_newline all (head_stop (c := '\n') rfl rest)
    exact .indentation (.inl rfl) without (by simpa using longer)
  · have isReturn : b = '\r' := by
      have other := (Bool.or_eq_true_iff.mp blank).resolve_left spacing
      exact eq_of_beq other
    subst isReturn
    have same : pieces ('\n' :: i ++ '\r' :: '\n' :: rest) =
        .newline i :: pieces ('\r' :: '\n' :: rest) :=
      pieces_of_newline all (head_stop rfl _)
    exact .indentation (.inr rfl) without same

/-- What would go on with a blank goes on with the one in front of the line feed. -/
theorem paired_of_openEnd {c : Char} {cs : List Char} (blank : Piece.isBlank b = true)
    (open_ : Piece.OpenEnd (c :: cs) (Piece.atStart c cs)) (rest : List Char) :
    Paired b rest (c :: cs) := by
  have form := Piece.form_atStart c cs
  generalize here : Piece.atStart c cs = p at form open_
  cases open_ with
  | newline text =>
    obtain ⟨rfl, rfl⟩ := List.cons.inj text
    have whole : cs.takeWhile Piece.isIndentation = cs := by
      rw [Piece.atStart, if_pos rfl] at here
      exact Piece.newline.inj here
    refine paired_of_indentation blank (fun d inside => ?_) rest
    rw [← whole] at inside
    exact List.mem_takeWhile_imp inside
  | line =>
    cases form with
    | comment noFeed noBlank found =>
      have noBreak : '\n' ∉ [b] := by
        rintro isFeed
        obtain rfl := List.mem_singleton.mp isFeed
        cases blank
      have without : Comment.atStart? (c :: cs ++ [] ++ '\n' :: rest) =
          some (.line (c :: cs ++ [])) := Comment.atStart?_line_goesOn found (by simp)
      have within : Comment.atStart? (c :: cs ++ [b] ++ '\n' :: rest) =
          some (.line (c :: cs ++ [b])) := Comment.atStart?_line_goesOn found noBreak
      rw [List.append_nil] at without
      rw [List.append_assoc] at within
      exact .comment (.line _ _) (pieces_of_comment noFeed noBlank without rfl)
        (pieces_of_comment noFeed noBlank within (by simp [Comment.Extent.text]))
  | unclosed =>
    cases form with
    | comment noFeed noBlank found =>
      obtain ⟨d, e, tail, alike, without, cut, within, cutBlank⟩ :=
        Comment.exists_alike_of_unclosed blank found rest
      exact .comment alike (pieces_of_comment noFeed noBlank without cut)
        (pieces_of_comment noFeed noBlank within cutBlank)

/-- What would not go on with a blank is the same without it and with it. -/
theorem paired (blank : Piece.isBlank b = true) (c : Char) (cs rest : List Char) :
    Paired b rest (c :: cs) := by
  by_cases open_ : Piece.OpenEnd (c :: cs) (Piece.atStart c cs)
  · exact paired_of_openEnd blank open_ rest
  have notUnclosed : ∀ text, Piece.atStart c cs ≠ .comment (.unclosed text) := by
    intro text unclosed
    rw [unclosed] at open_
    exact open_ .unclosed
  have without := Piece.atStart_front (settled_of_feed (c :: cs) rest)
    (Piece.source_before_feed notUnclosed)
  have within := Piece.atStart_before_blank blank (unbroken_of_padding blank (c :: cs) rest) open_
  obtain ⟨tail, cut⟩ := exists_cut c cs
  refine .before (Piece.atStart_ne_nil c cs) cut (fun i isNewline none => ?_)
    (pieces_of_atStart without.symm (cut_append cut _))
    (pieces_of_atStart within (cut_append cut _))
  rw [isNewline] at cut open_
  rw [none, List.append_nil] at cut
  exact open_ (.newline cut)

theorem lineEnds_comment {d e : Comment.Extent} (alike : d.Alike e) (ps : List Piece) :
    lineEnds (.comment d :: ps) = lineEnds (.comment e :: ps) := by
  cases alike <;> rfl

theorem exists_newline (rest : List Char) :
    ∃ i tail, pieces ('\n' :: rest) = .newline i :: pieces tail := by
  obtain ⟨tail, cut⟩ := exists_cut '\n' rest
  exact ⟨_, tail, pieces_of_cut cut⟩

theorem length_of_source {p : Piece} {text tail : List Char} (nonempty : p.source ≠ [])
    (cut : text = p.source ++ tail) : tail.length < text.length := by
  have positive := List.length_pos_iff.mpr nonempty
  rw [cut, List.length_append]
  omega

/-- Behind a block comment too, a line ends where it ended without the blank. -/
theorem lineEnds_padded (blank : Piece.isBlank b = true) (front rest : List Char) :
    lineEnds ((pieces (front ++ b :: '\n' :: rest)).dropWhile isSpacing) =
      lineEnds ((pieces (front ++ '\n' :: rest)).dropWhile isSpacing) := by
  match front with
  | [] =>
    obtain ⟨i, tail, newline⟩ := exists_newline rest
    rw [List.nil_append, List.nil_append, pieces_of_blank blank, newline]
    rcases eq_of_isBlank blank with rfl | rfl | rfl <;> rfl
  | c :: cs =>
    cases paired blank c cs rest with
    | @before p tail nonempty cut _ without within =>
      have smaller := length_of_source nonempty cut
      rw [without, within, List.dropWhile_cons, List.dropWhile_cons]
      split
      · exact lineEnds_padded blank tail rest
      · rw [lineEnds_cons, ← lineEnds_cons p]
    | indentation _ without within =>
      rw [without, within]
      rfl
    | @comment d e tail alike without within =>
      rw [without, within]
      exact (lineEnds_comment alike _).symm
termination_by front.length
decreasing_by exact smaller

/-- A line that has begun is blank with the blank at its end if it is without. -/
theorem isBlankLine_padded (blank : Piece.isBlank b = true) {front : List Char}
    (begun : front ≠ []) (rest : List Char) :
    isBlankLine (pieces (front ++ b :: '\n' :: rest)) =
      isBlankLine (pieces (front ++ '\n' :: rest)) := by
  obtain ⟨c, cs, rfl⟩ := List.exists_cons_of_ne_nil begun
  cases paired blank c cs rest with
  | @before p tail _ _ _ without within =>
    rw [without, within]
    cases p with
    | newline | lexeme => rfl
    | blank => exact (lineEnds_cons _ _).trans (lineEnds_cons _ _).symm
    | comment e =>
      cases e with
      | line | unclosed => rfl
      | block => exact lineEnds_padded blank tail rest
  | indentation _ without within =>
    rw [without, within]
    rfl
  | comment alike without within =>
    rw [without, within]
    cases alike <;> rfl

end

theorem bareTokens_padded {b : Char} (blank : Piece.isBlank b = true) (tab : UInt64)
    (levels : List UInt64) (front rest : List Char) :
    bareTokens tab levels (front ++ b :: '\n' :: rest) =
      bareTokens tab levels (front ++ '\n' :: rest) := by
  match front with
  | [] => exact bareTokens_of_blank blank _
  | c :: cs =>
    cases paired blank c cs rest with
    | @before p tail nonempty cut begun without within =>
      have smaller := length_of_source nonempty cut
      obtain ⟨tokens, next⟩ : State.tokens tab ⟨0, levels⟩ (pieces (tail ++ b :: '\n' :: rest)) p =
            State.tokens tab ⟨0, levels⟩ (pieces (tail ++ '\n' :: rest)) p ∧
          State.next tab ⟨0, levels⟩ (pieces (tail ++ b :: '\n' :: rest)) p =
            State.next tab ⟨0, levels⟩ (pieces (tail ++ '\n' :: rest)) p :=
        step_congr fun i isNewline => isBlankLine_padded blank (begun i isNewline) rest
      rw [bareTokens_of_pieces within, bareTokens_of_pieces without, tokens, next,
        bareTokens_padded blank tab _ tail rest]
    | @indentation i j tail same without within =>
      obtain ⟨k, behind, newline⟩ := exists_newline rest
      have blankLine : isBlankLine (pieces ('\n' :: rest)) = true := by
        rw [newline]
        rfl
      have blankTail : isBlankLine (pieces tail) = true := by
        rcases same with rfl | rfl
        · exact blankLine
        · rw [pieces_of_blank rfl]
          rfl
      have sameTail : bareTokens tab levels tail = bareTokens tab levels ('\n' :: rest) := by
        rcases same with rfl | rfl
        · rfl
        · exact bareTokens_of_blank rfl _
      rw [bareTokens_of_pieces within, bareTokens_of_pieces without]
      simp [State.tokens, State.next, blankLine, blankTail, sameTail, Token.bare_eq]
    | @comment d e tail alike without within =>
      rw [bareTokens_of_silent rfl within, bareTokens_of_silent rfl without]
termination_by front.length
decreasing_by exact smaller

/-- A text with a row of blanks added in front of each line feed, or in front of some. -/
inductive Padded : List Char → List Char → Prop where
  | nil : Padded [] []
  | char (c : Char) {s t : List Char} : Padded s t → Padded (c :: s) (c :: t)
  | blank {b : Char} {s t : List Char} : Piece.isBlank b = true → Padded ('\n' :: s) t →
      Padded ('\n' :: s) (b :: t)

/-- A text with a carriage return in front of each line feed. -/
def crLf (text : List Char) : List Char :=
  text.flatMap fun c => if c = '\n' then ['\r', '\n'] else [c]

theorem padded_crLf (text : List Char) : Padded text (crLf text) := by
  induction text with
  | nil => exact .nil
  | cons c text ih =>
    rw [crLf, List.flatMap_cons]
    split
    · rename_i isFeed
      subst isFeed
      exact .blank rfl (.char '\n' ih)
    · exact .char c ih

/-- Padding is added one blank at a time, from the left. -/
theorem Padded.bareTokens_eq {s t : List Char} (padded : Padded s t) (tab : UInt64)
    (levels : List UInt64) (front : List Char) :
    bareTokens tab levels (front ++ t) = bareTokens tab levels (front ++ s) := by
  induction padded generalizing front with
  | nil => rfl
  | char c _ ih =>
    have behind := ih (front ++ [c])
    rwa [List.append_assoc, List.append_assoc] at behind
  | @blank b s t isBlank _ ih =>
    have behind := ih (front ++ [b])
    rw [List.append_assoc, List.append_assoc] at behind
    exact behind.trans (bareTokens_padded isBlank tab levels front s)

/-- Two sources of the same tokens and the same program, apart from where these stand. -/
structure ReadAlike (tab : UInt64) (first second : String) : Prop where
  tokens : (tokenize tab first).map Token.bare = (tokenize tab second).map Token.bare
  programs : (Program.ofSource tab first).toOption.map Program.bare =
    (Program.ofSource tab second).toOption.map Program.bare

theorem exists_ofTokens_of_bare {ts us : List Token} {p : Program}
    (same : ts.map Token.bare = us.map Token.bare) (accepted : Program.ofTokens us = .ok p) :
    ∃ q, Program.ofTokens ts = .ok q ∧ q.bare = p.bare := by
  obtain ⟨d, rfl, rfl⟩ := Grammar.ofTokens_sound accepted
  exact Grammar.ofTokens_of_bare same

theorem ReadAlike.of_tokens {tab : UInt64} {first second : String}
    (same : (tokenize tab first).map Token.bare = (tokenize tab second).map Token.bare) :
    ReadAlike tab first second := by
  refine ⟨same, ?_⟩
  unfold Program.ofSource
  cases accepted : Program.ofTokens (tokenize tab second) with
  | ok p =>
    obtain ⟨q, read, bare⟩ := exists_ofTokens_of_bare same accepted
    rw [read]
    exact congrArg some bare
  | error e =>
    cases read : Program.ofTokens (tokenize tab first) with
    | ok q =>
      obtain ⟨p, other, -⟩ := exists_ofTokens_of_bare same.symm read
      rw [accepted] at other
      cases other
    | error => rfl

/-- Blanks at the ends of lines say nothing, inside comments or out of them, and neither do carriage
returns in front of line feeds. -/
theorem readAlike_of_padded (tab : UInt64) {source padded : String}
    (blanks : Padded source.toList padded.toList) :
    ReadAlike tab source padded ∧ ReadAlike tab source (String.ofList (crLf source.toList)) := by
  have alike {text : String} (added : Padded source.toList text.toList) :
      ReadAlike tab source text :=
    .of_tokens (added.bareTokens_eq tab [] []).symm
  refine ⟨alike blanks, alike ?_⟩
  rw [String.toList_ofList]
  exact padded_crLf source.toList

/-- A tab and a carriage return are added at the ends of two lines, the second one empty. -/
theorem readAlike_of_padded_lines :
    Padded "x\n\n y".toList "x\t\n \r\n y".toList ∧
    ReadAlike 4 "x\n\n y" "x\t\n \r\n y" ∧
    ReadAlike 4 "x\n\n y" "x\r\n\r\n y" := by
  have blanks : Padded "x\n\n y".toList "x\t\n \r\n y".toList :=
    .char 'x' (.blank rfl (.char '\n' (.blank rfl (.blank rfl (.char '\n' (.char ' ' (.char 'y'
      .nil)))))))
  obtain ⟨padded, returns⟩ := readAlike_of_padded 4 blanks
  exact ⟨blanks, padded, returns⟩

end PhraseLang
