import PhraseLang.Program.Reading
import PhraseLang.Proofs.Width

/-! The width of a tab.
The levels that are open are the widths of lines measured before, and a line is only compared with
them and with 0. So two tab widths that order the lines alike, and leave the same ones at 0, open
and close levels at the same places: the stacks hold other numbers, for the same lines. -/
namespace PhraseLang
open Layout Text

/-- The blanks in front of the lines that are measured: those behind a `Newline` that are not
passed over. -/
def measuredLines (tab : UInt64) (source : String) : List (List Char) :=
  ((tokenize tab source).filter (·.kind = .newline)).filterMap fun feed =>
    let line := dropBytes feed.span.stop source.toList
    if isBlankLine (pieces (line.dropWhile Piece.isIndentation)) then none
    else some (line.takeWhile Piece.isIndentation)

/-- Both tab widths order these lines alike, and give the width 0 to the same ones. -/
structure OrderAlike (tab tab' : UInt64) (lines : List (List Char)) : Prop where
  lt_iff : ∀ a ∈ lines, ∀ b ∈ lines, width tab a < width tab b ↔ width tab' a < width tab' b
  zero_iff : ∀ a ∈ lines, width tab a = 0 ↔ width tab' a = 0

/-- Two states at one place, whose levels are the widths of the same lines. -/
inductive Levelled (tab tab' : UInt64) (lines : List (List Char)) : State → State → Prop where
  | mk (offset : Nat) (opened : List (List Char)) : opened ⊆ lines →
      Levelled tab tab' lines ⟨offset, opened.map (width tab)⟩ ⟨offset, opened.map (width tab')⟩

theorem while_congr {α : Type} {p q : α → Bool} {list : List α}
    (same : ∀ a ∈ list, p a = q a) :
    list.takeWhile p = list.takeWhile q ∧ list.dropWhile p = list.dropWhile q := by
  induction list with
  | nil => exact ⟨rfl, rfl⟩
  | cons a list ih =>
    obtain ⟨taken, left⟩ := ih fun b hb => same b (List.mem_cons_of_mem a hb)
    rw [List.takeWhile_cons, List.takeWhile_cons, List.dropWhile_cons, List.dropWhile_cons,
      same a List.mem_cons_self, taken, left]
    exact ⟨rfl, rfl⟩

section
variable {tab tab' : UInt64} {lines : List (List Char)} (alike : OrderAlike tab tab' lines)
include alike

section
variable {opened : List (List Char)} {blanks : List Char}

theorem OrderAlike.top_lt_iff (all : opened ⊆ lines) (here : blanks ∈ lines) :
    top (opened.map (width tab)) < width tab blanks ↔
      top (opened.map (width tab')) < width tab' blanks := by
  cases opened with
  | nil =>
    -- The base level is no line: the wider lines are those that are not of width 0.
    have positive (w : UInt64) : (0 : UInt64) < w ↔ w ≠ 0 := UInt64.pos_iff_ne_zero
    simp only [List.map_nil, top, List.headD_nil, positive]
    exact not_congr (alike.zero_iff blanks here)
  | cons a opened => exact alike.lt_iff a (all List.mem_cons_self) blanks here

/-- A line closes the levels of the same lines, and leaves those of the same lines open. -/
theorem OrderAlike.closes (all : opened ⊆ lines) (here : blanks ∈ lines) :
    ∃ shut kept : List (List Char), kept ⊆ lines ∧
      (opened.map (width tab)).takeWhile (width tab blanks < ·) = shut.map (width tab) ∧
      (opened.map (width tab)).dropWhile (width tab blanks < ·) = kept.map (width tab) ∧
      (opened.map (width tab')).takeWhile (width tab' blanks < ·) = shut.map (width tab') ∧
      (opened.map (width tab')).dropWhile (width tab' blanks < ·) = kept.map (width tab') := by
  have same : ∀ a ∈ opened, decide (width tab' blanks < width tab' a) =
      decide (width tab blanks < width tab a) := by
    intro a ha
    exact decide_eq_decide.mpr (alike.lt_iff blanks here a (all ha)).symm
  obtain ⟨taken, left⟩ := while_congr same
  refine ⟨_, _, ?_, List.takeWhile_map, List.dropWhile_map, ?_, ?_⟩
  · exact List.Subset.trans (List.dropWhile_sublist _).subset all
  · rw [List.takeWhile_map]
    exact congrArg (List.map (width tab')) taken
  · rw [List.dropWhile_map]
    exact congrArg (List.map (width tab')) left

end

/-- A line feed emits the same tokens, and opens and closes the levels of the same lines. -/
theorem OrderAlike.step_newline {s s' : State} (levelled : Levelled tab tab' lines s s')
    {blanks : List Char} {behind : List Piece}
    (here : isBlankLine behind = false → blanks ∈ lines) :
    s.tokens tab behind (.newline blanks) = s'.tokens tab' behind (.newline blanks) ∧
      Levelled tab tab' lines (s.next tab behind (.newline blanks))
        (s'.next tab' behind (.newline blanks)) := by
  cases levelled with
  | mk offset opened all =>
    by_cases blank : isBlankLine behind = true
    · simp only [State.tokens, State.next, blank, if_true, true_and]
      exact .mk _ opened all
    · have here := here (Bool.eq_false_iff.mpr blank)
      have wider_iff := alike.top_lt_iff all here
      by_cases wider : top (opened.map (width tab)) < width tab blanks
      · have wider' := wider_iff.mp wider
        simp only [State.tokens, State.next, Layout.measure, blank, wider, wider', if_true]
        exact ⟨trivial, .mk _ (blanks :: opened) (List.cons_subset.mpr ⟨here, all⟩)⟩
      · have narrow' : ¬ top (opened.map (width tab')) < width tab' blanks :=
          fun wider' => wider (wider_iff.mpr wider')
        obtain ⟨shut, kept, all, taken, left, taken', left'⟩ := alike.closes all here
        simp only [State.tokens, State.next, Layout.measure, blank, wider, narrow', if_false,
          taken, left, taken', left', List.map_map]
        exact ⟨rfl, .mk _ kept all⟩

theorem OrderAlike.step {s s' : State} (levelled : Levelled tab tab' lines s s') {p : Piece}
    {behind : List Piece}
    (here : ∀ blanks, p = .newline blanks → isBlankLine behind = false → blanks ∈ lines) :
    s.tokens tab behind p = s'.tokens tab' behind p ∧
      Levelled tab tab' lines (s.next tab behind p) (s'.next tab' behind p) := by
  cases p with
  | newline blanks => exact alike.step_newline levelled (here blanks rfl)
  | blank | comment | lexeme =>
    cases levelled with
    | mk offset opened all => exact ⟨rfl, .mk _ opened all⟩

end

section
variable {tab tab' : UInt64} {source : String} {out : List Token} {s s' : State} {cs : List Char}

theorem mem_measuredLines (scan : Scan tab source.toList out s ('\n' :: cs))
    (notBlank : isBlankLine (pieces (cs.dropWhile Piece.isIndentation)) = false) :
    cs.takeWhile Piece.isIndentation ∈ measuredLines tab source := by
  obtain ⟨layout, -, line⟩ := scan.line
  have whole : tokenize tab source =
      (out ++ s.feed :: layout) ++ place tab _ (pieces (cs.dropWhile Piece.isIndentation)) :=
    line.next.place_eq
  have isToken : s.feed ∈ (tokenize tab source).filter (·.kind = .newline) :=
    List.mem_filter.mpr ⟨by simp [whole], rfl⟩
  have behind : dropBytes s.feed.span.stop source.toList = cs := scan.dropBytes_feed
  refine List.mem_filterMap.mpr ⟨s.feed, isToken, ?_⟩
  simp only [behind, notBlank, if_neg Bool.false_ne_true]

theorem OrderAlike.place_eq {text : List Char}
    (alike : OrderAlike tab tab' (measuredLines tab source))
    (scan : Scan tab source.toList out s text)
    (levelled : Levelled tab tab' (measuredLines tab source) s s') :
    place tab s (pieces text) = place tab' s' (pieces text) := by
  induction text using pieces_induction generalizing out s s' with
  | nil =>
    cases levelled with
    | mk offset opened all =>
      rw [pieces, place_nil, place_nil, State.closing, State.closing, List.map_map, List.map_map]
      rfl
  | piece c cs rest cut ih =>
    have measured : ∀ blanks, Piece.atStart c cs = .newline blanks →
        isBlankLine (pieces rest) = false → blanks ∈ measuredLines tab source := by
      intro blanks isFeed notBlank
      have form := Piece.form_atStart c cs
      rw [isFeed] at form cut
      cases form with
      | newline first =>
        subst first
        have left : cs.dropWhile Piece.isIndentation = rest :=
          dropWhile_of_cut (List.cons.inj cut).2
        exact mem_measuredLines scan (left ▸ notBlank)
    obtain ⟨tokens, next⟩ := alike.step levelled measured
    rw [place_of_cut cut, place_of_cut cut, tokens, ih (scan.step cut) next]

end

end PhraseLang
