/-! Comments: where they begin and where they end.
A line comment runs up to its line feed and does not hold it. A block comment runs through the first
closing marker in its body, over any number of lines; without one it runs to the end of the text.
Every extent given here is a front part of the text it was read from. -/
namespace PhraseLang.Comment

def lineMarker : String := "europe ->"

def opener : String := "asia ->"

def closer : String := "<- asia"

/-- The front of a text through the first occurrence of `mark`. -/
def through? (mark : List Char) : List Char → Option (List Char)
  | [] => none
  | c :: cs =>
    if mark.isPrefixOf (c :: cs) then some mark else (through? mark cs).map (c :: ·)

theorem prefix_of_through? {mark text front : List Char} (h : through? mark text = some front) :
    front <+: text := by
  induction text generalizing front with
  | nil => simp [through?] at h
  | cons c cs ih =>
    by_cases found : mark.isPrefixOf (c :: cs) = true
    · simp only [through?, found, if_true, Option.some.injEq] at h
      exact h ▸ List.isPrefixOf_iff_prefix.mp found
    · simp only [through?, found] at h
      obtain ⟨tail, later, rfl⟩ := Option.map_eq_some_iff.mp h
      exact List.cons_prefix_cons.mpr ⟨rfl, ih later⟩

inductive Extent where
  /-- A line comment, without the line feed behind it. -/
  | line (text : List Char)
  | block (text : List Char)
  /-- A block comment that is never closed. -/
  | unclosed (text : List Char)
deriving DecidableEq

def Extent.text : Extent → List Char
  | .line text | .block text | .unclosed text => text

def atStart? (text : List Char) : Option Extent :=
  if lineMarker.toList.isPrefixOf text then some (.line (text.takeWhile (· ≠ '\n')))
  else if opener.toList.isPrefixOf text then
    match through? closer.toList (text.drop opener.toList.length) with
    | some body => some (.block (opener.toList ++ body))
    | none => some (.unclosed text)
  else none

theorem prefix_of_atStart? {text : List Char} {e : Extent} (h : atStart? text = some e) :
    e.text <+: text := by
  by_cases line : lineMarker.toList.isPrefixOf text = true
  · simp only [atStart?, line, if_true, Option.some.injEq] at h
    exact h ▸ List.takeWhile_prefix _
  · by_cases open_ : opener.toList.isPrefixOf text = true
    · simp only [atStart?, line, open_, if_true] at h
      obtain ⟨rest, rfl⟩ := List.isPrefixOf_iff_prefix.mp open_
      rw [List.drop_left] at h
      cases body : through? closer.toList rest with
      | none =>
        simp only [body] at h
        cases h
        exact List.prefix_rfl
      | some front =>
        simp only [body] at h
        cases h
        exact (List.prefix_append_right_inj _).mpr (prefix_of_through? body)
    · simp [atStart?, line, open_] at h

theorem ne_nil_of_atStart? {text : List Char} {e : Extent} (h : atStart? text = some e) :
    e.text ≠ [] := by
  by_cases line : lineMarker.toList.isPrefixOf text = true
  · simp only [atStart?, line, if_true, Option.some.injEq] at h
    obtain ⟨rest, rfl⟩ := List.isPrefixOf_iff_prefix.mp line
    subst h
    simp [Extent.text, lineMarker]
  · by_cases open_ : opener.toList.isPrefixOf text = true
    · simp only [atStart?, line, open_, if_true] at h
      obtain ⟨rest, rfl⟩ := List.isPrefixOf_iff_prefix.mp open_
      cases body : through? closer.toList ((opener.toList ++ rest).drop opener.toList.length) <;>
        simp only [body] at h <;> cases h <;> simp [Extent.text, opener]
    · simp [atStart?, line, open_] at h

end PhraseLang.Comment
