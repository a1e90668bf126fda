import Mathlib.Data.List.Induction
import PhraseLang.Proofs.Levels

/-! The width of a line in 64 bits, against what its blanks come to.
A tab stops at the maximum. A space does not: on top of the maximum it overflows, and the whole
source is left without tokens. So the order of the blanks counts: a line is as wide as its blanks
come to, or as the maximum, as long as no space stands behind blanks that come to the maximum. -/
namespace PhraseLang

namespace Layout
open Text

/-- What spaces and tabs come to without a bound. -/
def extent (tab : UInt64) (row : List Char) : Nat := row.count ' ' + row.count '\t' * tab.toNat

/-- A row of spaces and tabs, in any order, built at its end as it is measured. -/
inductive IsRow : List Char → Prop where
  | nil : IsRow []
  | space {row : List Char} : IsRow row → IsRow (row ++ [' '])
  | tab {row : List Char} : IsRow row → IsRow (row ++ ['\t'])

/-- A space of the row stands behind blanks that come to the maximum. -/
def Overflows (tab : UInt64) (row : List Char) : Prop :=
  ∃ front, front ++ [' '] <+: row ∧ maxWidth.toNat ≤ extent tab front

section
variable {tab w : UInt64} {row more front : List Char}

@[simp] theorem extent_nil : extent tab [] = 0 := by simp [extent]

@[simp] theorem extent_space : extent tab (row ++ [' ']) = extent tab row + 1 := by
  simp [extent]
  omega

@[simp] theorem extent_tab : extent tab (row ++ ['\t']) = extent tab row + tab.toNat := by
  simp [extent, Nat.succ_mul, Nat.add_assoc]

@[simp] theorem extent_spaces (n : Nat) : extent tab (List.replicate n ' ') = n := by
  simp [extent, List.count_replicate]

theorem extent_mono (tab : UInt64) (within : row.Sublist more) :
    extent tab row ≤ extent tab more := by
  apply Nat.add_le_add
  · exact within.count_le ' '
  · exact Nat.mul_le_mul_right _ (within.count_le '\t')

@[simp] theorem width?_space : width? tab (row ++ [' ']) = (width? tab row).bind addSpace? := by
  rw [width?, List.foldlM_append, ← width?]
  cases width? tab row with
  | none => rfl
  | some w => exact Option.bind_fun_some (addSpace? w)

@[simp] theorem width?_tab : width? tab (row ++ ['\t']) = (width? tab row).map (addTab tab) := by
  rw [width?, List.foldlM_append, ← width?]
  cases width? tab row <;> rfl

theorem width_of_some (measured : width? tab row = some w) : width tab row = w := by
  rw [width, measured]
  rfl

theorem size_eq_maxWidth : UInt64.size = maxWidth.toNat + 1 := rfl

theorem toNat_addTab (tab w : UInt64) :
    (addTab tab w).toNat = min maxWidth.toNat (w.toNat + tab.toNat) := by
  have size := size_eq_maxWidth
  by_cases within : w.toNat + tab.toNat < UInt64.size
  · rw [addTab, if_pos within, UInt64.toNat_add, Nat.mod_eq_of_lt within]
    omega
  · rw [addTab, if_neg within]
    omega

/-- A space is added exactly, or not at all on top of the maximum. -/
theorem addSpace?_cases (w : UInt64) :
    (w.toNat < maxWidth.toNat ∧ ∃ v, addSpace? w = some v ∧ v.toNat = w.toNat + 1) ∨
      w.toNat = maxWidth.toNat ∧ addSpace? w = none := by
  have size := size_eq_maxWidth
  have bound := w.toNat_lt_size
  by_cases room : w.toNat + 1 < UInt64.size
  · refine .inl ⟨by omega, w + 1, if_pos room, ?_⟩
    exact (UInt64.toNat_add w 1).trans (Nat.mod_eq_of_lt room)
  · exact .inr ⟨by omega, if_neg room⟩

theorem isRow_iff : IsRow row ↔ ∀ c ∈ row, Piece.isIndentation c = true := by
  constructor
  · intro isRow
    induction isRow with
    | nil => exact fun c hc => absurd hc List.not_mem_nil
    | space _ ih =>
      rw [List.forall_mem_append, List.forall_mem_singleton]
      exact ⟨ih, rfl⟩
    | tab _ ih =>
      rw [List.forall_mem_append, List.forall_mem_singleton]
      exact ⟨ih, rfl⟩
  · intro blanks
    induction row using List.reverseRecOn with
    | nil => exact .nil
    | append_singleton row c ih =>
      have before := ih fun b hb => blanks b (List.mem_append_left _ hb)
      have last : c = ' ' ∨ c = '\t' := by
        simpa [Piece.isIndentation] using blanks c (List.mem_append_right _ List.mem_cons_self)
      rcases last with rfl | rfl
      · exact before.space
      · exact before.tab

theorem isRow_takeWhile (cs : List Char) : IsRow (cs.takeWhile Piece.isIndentation) :=
  isRow_iff.mpr fun _ hc => List.mem_takeWhile_imp hc

theorem not_overflows_nil : ¬ Overflows tab [] := by
  rintro ⟨front, within, -⟩
  simp at within

theorem overflows_concat {c : Char} : Overflows tab (row ++ [c]) ↔
    Overflows tab row ∨ c = ' ' ∧ maxWidth.toNat ≤ extent tab row := by
  constructor
  · rintro ⟨front, within, full⟩
    rcases List.prefix_concat_iff.mp within with same | before
    · obtain ⟨rfl, isSpace⟩ := List.append_inj' same rfl
      obtain rfl := (List.cons.inj isSpace).1
      exact .inr ⟨rfl, full⟩
    · exact .inl ⟨front, before, full⟩
  · rintro (⟨front, before, full⟩ | ⟨rfl, full⟩)
    · exact ⟨front, before.trans (List.prefix_append _ _), full⟩
    · exact ⟨row, List.prefix_rfl, full⟩

/-- Blanks added anywhere leave a space that overflows where it overflows. -/
theorem Overflows.of_sublist (overflows : Overflows tab row) (within : row.Sublist more) :
    Overflows tab more := by
  obtain ⟨front, ⟨rest, rfl⟩, full⟩ := overflows
  rw [List.append_assoc, List.append_sublist_iff] at within
  obtain ⟨before, behind, rfl, inFront, inRest⟩ := within
  obtain ⟨found, left, rfl, isSpace, -⟩ := List.cons_sublist_iff.mp inRest
  obtain ⟨skipped, others, rfl⟩ := List.append_of_mem isSpace
  refine ⟨before ++ skipped, ⟨others ++ left, by simp⟩, full.trans ?_⟩
  exact extent_mono tab (inFront.trans (List.sublist_append_left before skipped))

/-- Measuring a row: it overflows and has no width, or its width is what the row comes to, up to
the maximum. -/
theorem width?_cases (tab : UInt64) (isRow : IsRow row) :
    (Overflows tab row ∧ width? tab row = none) ∨ (¬ Overflows tab row ∧
      ∃ w, width? tab row = some w ∧ w.toNat = min maxWidth.toNat (extent tab row)) := by
  induction isRow with
  | nil => exact .inr ⟨not_overflows_nil, 0, rfl, by rw [extent_nil]; rfl⟩
  | @space row _ ih =>
    rw [width?_space, extent_space, overflows_concat]
    rcases ih with ⟨overflows, none⟩ | ⟨fits, w, measured, exact⟩
    · exact .inl ⟨.inl overflows, by rw [none]; rfl⟩
    · rw [measured, Option.bind_some]
      rcases addSpace?_cases w with ⟨room, v, added, more⟩ | ⟨full, none⟩
      · refine .inr ⟨?_, v, added, by omega⟩
        rintro (overflows | ⟨-, full⟩)
        · exact fits overflows
        · omega
      · exact .inl ⟨.inr ⟨rfl, by omega⟩, none⟩
  | @tab row _ ih =>
    rw [width?_tab, extent_tab, overflows_concat]
    rcases ih with ⟨overflows, none⟩ | ⟨fits, w, measured, exact⟩
    · exact .inl ⟨.inl overflows, by rw [none]; rfl⟩
    · refine .inr ⟨?_, addTab tab w, by rw [measured]; rfl, ?_⟩
      · rintro (overflows | ⟨isSpace, -⟩)
        · exact fits overflows
        · cases isSpace
      · rw [toNat_addTab]
        omega

theorem width?_eq_none_iff (isRow : IsRow row) : width? tab row = none ↔ Overflows tab row := by
  rcases width?_cases tab isRow with ⟨overflows, none⟩ | ⟨fits, w, measured, -⟩
  · exact ⟨fun _ => overflows, fun _ => none⟩
  · rw [measured]
    exact ⟨fun none => absurd none (Option.some_ne_none w), fun overflows => absurd overflows fits⟩

theorem toNat_of_width? (isRow : IsRow row) (measured : width? tab row = some w) :
    w.toNat = min maxWidth.toNat (extent tab row) := by
  rcases width?_cases tab isRow with ⟨-, none⟩ | ⟨-, v, measured', exact⟩
  · exact absurd (measured.symm.trans none) (Option.some_ne_none w)
  · obtain rfl := Option.some.inj (measured.symm.trans measured')
    exact exact

theorem exists_width? (isRow : IsRow row) (fits : ¬ Overflows tab row) :
    ∃ w, width? tab row = some w := by
  apply Option.ne_none_iff_exists'.mp
  exact fun none => fits ((width?_eq_none_iff isRow).mp none)

theorem not_overflows_of_lt (fits : extent tab row < UInt64.size) : ¬ Overflows tab row := by
  rintro ⟨front, within, full⟩
  have more := extent_mono tab within.sublist
  have size := size_eq_maxWidth
  rw [extent_space] at more
  omega

theorem IsRow.extent_le (isRow : IsRow row) : extent tab row ≤ row.length * max 1 tab.toNat := by
  induction isRow with
  | nil => rw [extent_nil]; exact Nat.zero_le _
  | space _ ih =>
    rw [extent_space, List.length_append, List.length_singleton, Nat.succ_mul]
    exact Nat.add_le_add ih (Nat.le_max_left _ _)
  | tab _ ih =>
    rw [extent_tab, List.length_append, List.length_singleton, Nat.succ_mul]
    exact Nat.add_le_add ih (Nat.le_max_right _ _)

/-- Blanks that come to no more than the maximum are measured exactly. -/
theorem toNat_width_of_lt (isRow : IsRow row) (fits : extent tab row < UInt64.size) :
    (width tab row).toNat = extent tab row := by
  have size := size_eq_maxWidth
  obtain ⟨w, measured⟩ := exists_width? isRow (not_overflows_of_lt fits)
  rw [width_of_some measured, toNat_of_width? isRow measured]
  omega

/-- How wide a row of blanks is, by what the blanks come to. The row in another order is as wide,
and more blanks anywhere make no narrower row, unless these overflow. -/
structure Counted (tab : UInt64) (row : List Char) : Prop where
  overflows_iff : width? tab row = none ↔ Overflows tab row
  exact : ∀ w, width? tab row = some w → w.toNat = min maxWidth.toNat (extent tab row)
  commutes : ∀ other, IsRow other → other.count ' ' = row.count ' ' →
    other.count '\t' = row.count '\t' → ∀ w v, width? tab row = some w →
      width? tab other = some v → w = v
  grows : ∀ more, IsRow more → row.Sublist more → ∀ v, width? tab more = some v →
    ∃ w, width? tab row = some w ∧ w ≤ v

theorem IsRow.counted (isRow : IsRow row) : Counted tab row := by
  constructor
  · exact width?_eq_none_iff isRow
  · exact fun w => toNat_of_width? isRow
  · intro other isOther spaces tabs w v measured measured'
    apply UInt64.toNat.inj
    rw [toNat_of_width? isRow measured, toNat_of_width? isOther measured', extent, extent, spaces,
      tabs]
  · intro more isMore within v measured
    have fits : ¬ Overflows tab row := by
      intro overflows
      have none := (width?_eq_none_iff isMore).mpr (overflows.of_sublist within)
      exact absurd (measured.symm.trans none) (Option.some_ne_none v)
    obtain ⟨w, here⟩ := exists_width? isRow fits
    have wider := toNat_of_width? isMore measured
    have narrower := toNat_of_width? isRow here
    have longer := extent_mono tab within
    refine ⟨w, here, UInt64.le_iff_toNat_le.mpr ?_⟩
    omega

end

/-- What the line behind a `Newline` is indented with. -/
def lineBehind (source : List Char) (feed : Token) : List Char :=
  (dropBytes feed.span.stop source).takeWhile Piece.isIndentation

/-- The lines behind the `Newline`s of a token list, in order. -/
def linesBehind (source : List Char) (tokens : List Token) : List (List Char) :=
  (tokens.filter (·.kind = .newline)).map (lineBehind source)

/-- A space overflows in a line behind a line feed, be it in a blank one. -/
def OverflowsIn (tab : UInt64) (source : String) : Prop :=
  ∃ row ∈ indentations (pieces source.toList), Overflows tab row

section
variable {tab : UInt64} {source text row : List Char} {out ts us : List Token} {s : State}

theorem linesBehind_append : linesBehind source (ts ++ us) =
    linesBehind source ts ++ linesBehind source us := by
  rw [linesBehind, List.filter_append, List.map_append]
  rfl

theorem linesBehind_cons_newline {feed : Token} (isFeed : feed.kind = .newline) :
    linesBehind source (feed :: ts) = lineBehind source feed :: linesBehind source ts := by
  have kept : (feed :: ts).filter (·.kind = .newline) = feed :: ts.filter (·.kind = .newline) :=
    List.filter_cons_of_pos (decide_eq_true isFeed)
  rw [linesBehind, kept]
  rfl

theorem linesBehind_of_none (none : ∀ t ∈ ts, t.kind ≠ .newline) : linesBehind source ts = [] := by
  rw [linesBehind, List.filter_eq_nil_iff.mpr fun t ht => by simpa using none t ht]
  rfl

theorem LineStep.kind_ne_newline {blanks : List Char} {behind : List Piece}
    {layout : List Token} {levels : List UInt64}
    (line : LineStep tab s blanks behind layout levels) : ∀ t ∈ layout, t.kind ≠ .newline := by
  intro t ht
  rcases line.kinds with ⟨u, rfl, isIndent⟩ | dedents
  · rw [List.mem_singleton.mp ht, isIndent]
    decide
  · rw [dedents t ht]
    decide

/-- The lines that are measured are those behind the `Newline`s. -/
theorem Scan.linesBehind (scan : Scan tab source out s text) :
    linesBehind source (place tab s (pieces text)) = indentations (pieces text) := by
  induction text using pieces_induction generalizing out s with
  | nil =>
    rw [pieces, place_nil]
    exact linesBehind_of_none (by simp [State.closing])
  | piece c cs rest cut ih =>
    have behind := ih (scan.step cut)
    have form := Piece.form_atStart c cs
    rw [place_of_cut cut, pieces_of_cut cut, linesBehind_append, behind]
    generalize found : Piece.atStart c cs = p at form
    cases form with
    | newline isFeed =>
      subst isFeed
      obtain ⟨layout, emitted, step⟩ := lineStep tab s (cs.takeWhile Piece.isIndentation)
        (pieces rest)
      have here : lineBehind source s.feed = cs.takeWhile Piece.isIndentation :=
        congrArg (List.takeWhile Piece.isIndentation) scan.dropBytes_feed
      rw [emitted, linesBehind_cons_newline rfl, linesBehind_of_none step.kind_ne_newline,
        here]
      rfl
    | blank | comment => rfl
    | lexeme =>
      have plain := Lexeme.isLayout_atStart c cs
      rw [linesBehind_of_none]
      · rfl
      · intro t ht isNewline
        obtain rfl := List.mem_singleton.mp ht
        have isNewline : (Lexeme.atStart c cs).kind = .newline := isNewline
        rw [isNewline] at plain
        cases plain

/-- A line that is measured stands behind a line feed of the text. -/
theorem exists_feed_of_mem_indentations (inText : row ∈ indentations (pieces text)) :
    ∃ front rest, text = front ++ '\n' :: rest ∧ rest.takeWhile Piece.isIndentation = row := by
  induction text using pieces_induction with
  | nil => simp [pieces, indentations] at inText
  | piece c cs rest cut ih =>
    have further (behind : row ∈ indentations (pieces rest)) : ∃ front rest,
        c :: cs = front ++ '\n' :: rest ∧ rest.takeWhile Piece.isIndentation = row := by
      obtain ⟨front, left, rfl, same⟩ := ih behind
      exact ⟨(Piece.atStart c cs).source ++ front, left, by rw [cut, List.append_assoc], same⟩
    have form := Piece.form_atStart c cs
    rw [pieces_of_cut cut] at inText
    generalize Piece.atStart c cs = p at form inText
    cases form with
    | newline isFeed =>
      subst isFeed
      rcases List.mem_cons.mp inText with rfl | behind
      · exact ⟨[], cs, rfl, rfl⟩
      · exact further behind
    | blank | comment | lexeme => exact further inText

theorem isRow_of_mem_indentations (inText : row ∈ indentations (pieces text)) : IsRow row := by
  obtain ⟨front, rest, -, rfl⟩ := exists_feed_of_mem_indentations inText
  exact isRow_takeWhile rest

theorem length_le_of_mem_indentations (inText : row ∈ indentations (pieces text)) :
    row.length ≤ text.length := by
  obtain ⟨front, rest, rfl, rfl⟩ := exists_feed_of_mem_indentations inText
  have within := (List.takeWhile_prefix Piece.isIndentation (l := rest)).length_le
  rw [List.length_append, List.length_cons]
  omega

end

theorem indentations_append (ps qs : List Piece) :
    indentations (ps ++ qs) = indentations ps ++ indentations qs := List.filterMap_append

section
variable {tab : UInt64} {source : String} {ts : List Token}

/-- What overflows in a stretch of the pieces overflows in the whole. -/
theorem overflowsIn_of_pieces {part : List Char} (within : pieces part <:+: pieces source.toList)
    (overflows : OverflowsIn tab (String.ofList part)) : OverflowsIn tab source := by
  obtain ⟨row, inPart, overflows⟩ := overflows
  rw [String.toList_ofList] at inPart
  exact ⟨row, (within.sublist.filterMap _).subset inPart, overflows⟩

/-- Nothing overflows in a source that is too short for it. -/
theorem not_overflowsIn_of_lt (fits : source.length * max 1 tab.toNat < UInt64.size) :
    ¬ OverflowsIn tab source := by
  rintro ⟨row, inSource, overflows⟩
  have within := length_le_of_mem_indentations inSource
  rw [String.length_toList] at within
  refine not_overflows_of_lt ?_ overflows
  calc extent tab row
      ≤ row.length * max 1 tab.toNat := (isRow_of_mem_indentations inSource).extent_le
    _ ≤ source.length * max 1 tab.toNat := Nat.mul_le_mul_right _ within
    _ < UInt64.size := fits

theorem tokenize?_eq_none_iff : tokenize? tab source = none ↔ OverflowsIn tab source := by
  have isNone_iff : ∀ row ∈ indentations (pieces source.toList),
      ¬ (width? tab row).isSome = true ↔ Overflows tab row := by
    intro row inSource
    rw [← width?_eq_none_iff (isRow_of_mem_indentations inSource), Option.not_isSome_iff_eq_none]
  simp only [tokenize?, ite_eq_right_iff, Option.some_ne_none, imp_false, List.all_eq_true,
    not_forall, OverflowsIn]
  constructor
  · rintro ⟨row, inSource, none⟩
    exact ⟨row, inSource, (isNone_iff row inSource).mp none⟩
  · rintro ⟨row, inSource, overflows⟩
    exact ⟨row, inSource, (isNone_iff row inSource).mpr overflows⟩

theorem tokenize?_eq_some_iff :
    tokenize? tab source = some ts ↔ ¬ OverflowsIn tab source ∧ ts = tokenize tab source := by
  rw [← tokenize?_eq_none_iff, tokenize?]
  split
  · rw [Option.some_inj]
    exact ⟨fun same => ⟨Option.some_ne_none _, same.symm⟩, fun same => same.2.symm⟩
  · constructor
    · intro none
      cases none
    · intro fits
      exact absurd rfl fits.1

/-- The lines behind the `Newline`s of a source, blank ones too, are measured as what their spaces
and tabs come to, up to the maximum. If a space overflows in one of them, the source has no
tokens, and only then. -/
theorem line_width_counted (tab : UInt64) (source : String) :
    linesBehind source.toList (tokenize tab source) = indentations (pieces source.toList) ∧
    (∀ row ∈ indentations (pieces source.toList), Counted tab row) ∧
    (tokenize? tab source = none ↔ ∃ row ∈ indentations (pieces source.toList),
      Overflows tab row) ∧
    ∀ ts, tokenize? tab source = some ts → ts = tokenize tab source ∧
      ∀ row ∈ indentations (pieces source.toList),
        (width tab row).toNat = min maxWidth.toNat (extent tab row) := by
  refine ⟨Scan.start.linesBehind, ?_, tokenize?_eq_none_iff, fun ts tokens => ?_⟩
  · exact fun row inSource => (isRow_of_mem_indentations inSource).counted
  · obtain ⟨fits, same⟩ := tokenize?_eq_some_iff.mp tokens
    refine ⟨same, fun row inSource => ?_⟩
    have isRow := isRow_of_mem_indentations inSource
    obtain ⟨w, measured⟩ := exists_width? isRow fun overflows => fits ⟨row, inSource, overflows⟩
    rw [width_of_some measured]
    exact toNat_of_width? isRow measured

end

/-- The tab makes the line as wide as can be; the spaces in front of it leave room for it. -/
def spacesThenTab : String := "a\n  \tb"

theorem line_width_counted_saturated :
    tokenize? maxWidth spacesThenTab = some [⟨.word, "a", ⟨0, 1⟩⟩, ⟨.newline, "\n", ⟨1, 2⟩⟩,
      ⟨.indent, "", ⟨2, 5⟩⟩, ⟨.word, "b", ⟨5, 6⟩⟩, ⟨.dedent, "", ⟨6, 6⟩⟩] ∧
    extent maxWidth [' ', ' ', '\t'] = UInt64.size + 1 ∧
    (width maxWidth [' ', ' ', '\t']).toNat = maxWidth.toNat := by
  have tokens : tokenize? maxWidth spacesThenTab = some [⟨.word, "a", ⟨0, 1⟩⟩,
      ⟨.newline, "\n", ⟨1, 2⟩⟩, ⟨.indent, "", ⟨2, 5⟩⟩, ⟨.word, "b", ⟨5, 6⟩⟩,
      ⟨.dedent, "", ⟨6, 6⟩⟩] := by
    decide +kernel
  have inSource : [' ', ' ', '\t'] ∈ indentations (pieces spacesThenTab.toList) := by
    decide +kernel
  have total : extent maxWidth [' ', ' ', '\t'] = UInt64.size + 1 := by decide +kernel
  obtain ⟨-, -, -, exact⟩ := line_width_counted maxWidth spacesThenTab
  refine ⟨tokens, total, ?_⟩
  rw [(exact _ tokens).2 _ inSource, total]
  rfl

def tabThenSpace : String := "\n\t x"

/-- A space behind the widest tab overflows, and the source has no tokens. The line has the width of
the maximum with the two the other way around, and without the space. -/
theorem tabThenSpace_overflows :
    tokenize? maxWidth tabThenSpace = none ∧
    indentations (pieces tabThenSpace.toList) = [['\t', ' ']] ∧
    width? maxWidth ['\t', ' '] = none ∧
    min maxWidth.toNat (extent maxWidth ['\t', ' ']) = maxWidth.toNat ∧
    width? maxWidth [' ', '\t'] = some maxWidth ∧ width? maxWidth ['\t'] = some maxWidth := by
  decide +kernel

end Layout

end PhraseLang
