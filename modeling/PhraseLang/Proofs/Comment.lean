import PhraseLang.Comment

/-! Whole comments.
What is a whole comment depends on the text behind it: a line comment goes on to the end of its
line, a block comment through the first closing marker, and to the end of the text if there is
none. -/
namespace PhraseLang.Comment

inductive Whole : Extent → List Char → Prop where
  | line {body rest : List Char} : lineMarker.toList <+: body → '\n' ∉ body →
      (∀ c ∈ rest.head?, c = '\n') → Whole (.line body) rest
  | block {inner rest : List Char} : closer.toList <:+ inner →
      (∀ a b, inner = a ++ closer.toList ++ b → b = []) →
      Whole (.block (opener.toList ++ inner)) rest
  | unclosed {inner : List Char} : ¬ closer.toList <:+: inner →
      Whole (.unclosed (opener.toList ++ inner)) []

theorem suffix_of_through? {mark text front : List Char} (h : through? mark text = some front) :
    mark <:+ front := by
  induction text generalizing front with
  | nil => cases h
  | cons c cs ih =>
    unfold through? at h
    split at h
    · cases h
      exact List.suffix_rfl
    · obtain ⟨tail, later, rfl⟩ := Option.map_eq_some_iff.mp h
      exact (ih later).trans (List.suffix_cons c tail)

/-- No occurrence of the mark ends before the front does. -/
theorem first_of_through? {mark text front : List Char} (h : through? mark text = some front)
    (a b : List Char) (occurs : front = a ++ mark ++ b) : b = [] := by
  induction text generalizing front a with
  | nil => cases h
  | cons c cs ih =>
    unfold through? at h
    split at h
    · cases h
      have size := congrArg List.length occurs
      simp only [List.length_append] at size
      exact List.length_eq_zero_iff.mp (by omega)
    · rename_i notHere
      obtain ⟨tail, later, rfl⟩ := Option.map_eq_some_iff.mp h
      cases a with
      | nil =>
        have here : mark <+: c :: tail := ⟨b, occurs.symm⟩
        have whole : c :: tail <+: c :: cs :=
          List.cons_prefix_cons.mpr ⟨rfl, prefix_of_through? later⟩
        exact absurd (List.isPrefixOf_iff_prefix.mpr (here.trans whole)) notHere
      | cons x a => exact ih later a (List.cons.inj occurs).2

theorem not_infix_of_through? {mark text : List Char} (nonempty : mark ≠ [])
    (h : through? mark text = none) : ¬ mark <:+: text := by
  induction text with
  | nil => exact fun inside => nonempty (List.infix_nil.mp inside)
  | cons c cs ih =>
    unfold through? at h
    split at h
    · cases h
    · rename_i notHere
      intro inside
      rcases List.infix_cons_iff.mp inside with here | later
      · exact notHere (List.isPrefixOf_iff_prefix.mpr here)
      · exact ih (Option.map_eq_none_iff.mp h) later

theorem whole_of_atStart? {text rest : List Char} {e : Extent} (h : atStart? text = some e)
    (cut : text = e.text ++ rest) : Whole e rest := by
  unfold atStart? at h
  split at h
  · rename_i isLine
    cases h
    have whole := List.takeWhile_append_dropWhile (p := fun c => decide (c ≠ '\n')) (l := text)
    have left : text.dropWhile (fun c => decide (c ≠ '\n')) = rest :=
      List.append_cancel_left (whole.trans cut)
    have marker : lineMarker.toList <+: text := List.isPrefixOf_iff_prefix.mp isLine
    refine .line ?_ ?_ ?_
    · obtain ⟨tail, rfl⟩ := marker
      have plain : ∀ c ∈ lineMarker.toList, decide (c ≠ '\n') = true := by simp [lineMarker]
      rw [List.takeWhile_append_of_pos plain]
      exact List.prefix_append _ _
    · intro feed
      have kept := List.all_eq_true.mp
        (List.all_takeWhile (p := fun c => decide (c ≠ '\n')) (l := text)) '\n' feed
      simp at kept
    · intro c first
      have head := List.head?_dropWhile_not (fun c => decide (c ≠ '\n')) text
      rw [left, first] at head
      simpa using head
  · split at h
    · rename_i isOpen
      obtain ⟨tail, rfl⟩ := List.isPrefixOf_iff_prefix.mp isOpen
      rw [List.drop_left] at h
      split at h
      · rename_i body found
        cases h
        exact .block (suffix_of_through? found) (first_of_through? found)
      · rename_i missing
        cases h
        have empty : rest = [] := List.append_cancel_left (cut.symm.trans (List.append_nil _).symm)
        subst empty
        exact .unclosed (not_infix_of_through? (by decide) missing)
    · cases h

def marks : List (List Char) := [lineMarker.toList, opener.toList]

theorem atStart?_of_miss {text : List Char} (miss : ∀ mark ∈ marks, ¬ mark <+: text) :
    atStart? text = none := by
  have noLine := miss lineMarker.toList List.mem_cons_self
  have noBlock := miss opener.toList (List.mem_cons_of_mem _ List.mem_cons_self)
  rw [← List.isPrefixOf_iff_prefix] at noLine noBlock
  rw [atStart?, if_neg noLine, if_neg noBlock]

theorem miss_of_atStart? {text : List Char} (none : atStart? text = none) :
    ∀ mark ∈ marks, ¬ mark <+: text := by
  unfold atStart? at none
  split at none
  · cases none
  · rename_i noLine
    split at none
    · split at none <;> cases none
    · rename_i noBlock
      rw [List.isPrefixOf_iff_prefix] at noLine noBlock
      intro mark listed
      rcases List.mem_cons.mp listed with rfl | listed
      · exact noLine
      · obtain rfl := List.mem_singleton.mp listed
        exact noBlock

end PhraseLang.Comment
