import PhraseLang.Layout

/-! Scans of a source, piece by piece.
A scan stops at any boundary between two pieces. It says what has been emitted so far, in which
state, and what text is left; its end is the token list of the source. Nothing here depends on what
a piece emits. -/
namespace PhraseLang

/-- What is left of a list behind the part where a test holds begins where it fails. -/
theorem head_dropWhile {α : Type} (p : α → Bool) (list : List α) :
    ∀ c ∈ (list.dropWhile p).head?, p c = false := by
  intro c first
  have head := List.head?_dropWhile_not p list
  rw [first] at head
  simpa using head

theorem dropWhile_of_cut {α : Type} {p : α → Bool} {list rest : List α}
    (cut : list = list.takeWhile p ++ rest) : list.dropWhile p = rest :=
  List.append_cancel_left (List.takeWhile_append_dropWhile.trans cut)

theorem head_of_cut {α : Type} {p : α → Bool} {list rest : List α}
    (cut : list = list.takeWhile p ++ rest) : ∀ c ∈ rest.head?, p c = false := by
  rw [← dropWhile_of_cut cut]
  exact head_dropWhile p list

inductive Piece.Form (c : Char) (cs : List Char) : Piece → Prop where
  | newline : c = '\n' → Form c cs (.newline (cs.takeWhile isIndentation))
  | blank : isBlank c = true → Form c cs (.blank c)
  | comment {e : Comment.Extent} : c ≠ '\n' → isBlank c = false →
      Comment.atStart? (c :: cs) = some e → Form c cs (.comment e)
  | lexeme : c ≠ '\n' → isBlank c = false → Comment.atStart? (c :: cs) = none →
      Form c cs (.lexeme (Lexeme.atStart c cs))

theorem Piece.form_atStart (c : Char) (cs : List Char) : Form c cs (atStart c cs) := by
  unfold atStart
  split
  · exact .newline ‹_›
  · rename_i noFeed
    split
    · exact .blank ‹_›
    · rename_i noBlank
      have noBlank := Bool.eq_false_iff.mpr noBlank
      split
      · exact .comment noFeed noBlank ‹_›
      · exact .lexeme noFeed noBlank ‹_›

/-- A piece of no tokens, which leaves the levels as they are. -/
def Piece.isSilent : Piece → Bool
  | .blank _ | .comment _ => true
  | .newline _ | .lexeme _ => false

namespace Layout

/-- Scanning `source` so far has emitted the tokens, led to the state and left the text. -/
inductive Scan (tab : UInt64) (source : List Char) : List Token → State → List Char → Prop where
  | start : Scan tab source [] ⟨0, []⟩ source
  | step {out : List Token} {s : State} {c : Char} {cs rest : List Char} :
      Scan tab source out s (c :: cs) → c :: cs = (Piece.atStart c cs).source ++ rest →
        Scan tab source (out ++ s.tokens tab (pieces rest) (Piece.atStart c cs))
          (s.next tab (pieces rest) (Piece.atStart c cs)) rest

def State.closing (s : State) : List Token := s.levels.map fun _ => ⟨.dedent, "", .point s.offset⟩

theorem place_nil (tab : UInt64) (s : State) : place tab s [] = s.closing := rfl

theorem exists_cut (c : Char) (cs : List Char) :
    ∃ rest, c :: cs = (Piece.atStart c cs).source ++ rest := by
  obtain ⟨rest, same⟩ := Piece.atStart_prefix c cs
  exact ⟨rest, same.symm⟩

theorem length_of_cut {c : Char} {cs rest : List Char}
    (cut : c :: cs = (Piece.atStart c cs).source ++ rest) : rest.length < (c :: cs).length := by
  have positive := List.length_pos_iff.mpr (Piece.atStart_ne_nil c cs)
  have size := congrArg List.length cut
  rw [List.length_append] at size
  omega

/-- Induction along the pieces of a text. -/
@[elab_as_elim]
theorem pieces_induction {motive : List Char → Prop} (nil : motive [])
    (piece : ∀ c cs rest, c :: cs = (Piece.atStart c cs).source ++ rest → motive rest →
      motive (c :: cs)) (text : List Char) : motive text := by
  match text with
  | [] => exact nil
  | c :: cs =>
    obtain ⟨rest, cut⟩ := exists_cut c cs
    have smaller := length_of_cut cut
    exact piece c cs rest cut (pieces_induction nil piece rest)
termination_by text.length
decreasing_by exact smaller

theorem pieces_of_cut {c : Char} {cs rest : List Char}
    (cut : c :: cs = (Piece.atStart c cs).source ++ rest) :
    pieces (c :: cs) = Piece.atStart c cs :: pieces rest := by
  have left : (c :: cs).drop (Piece.atStart c cs).source.length = rest := by
    generalize Piece.atStart c cs = p at cut
    rw [cut, List.drop_left]
  rw [pieces_cons, left]

theorem pieces_of_atStart {c : Char} {cs rest : List Char} {p : Piece}
    (here : Piece.atStart c cs = p) (cut : c :: cs = p.source ++ rest) :
    pieces (c :: cs) = p :: pieces rest := by
  subst here
  exact pieces_of_cut cut

theorem pieces_of_comment {c : Char} {cs rest : List Char} {e : Comment.Extent} (noFeed : c ≠ '\n')
    (noBlank : Piece.isBlank c = false) (found : Comment.atStart? (c :: cs) = some e)
    (cut : c :: cs = e.text ++ rest) : pieces (c :: cs) = .comment e :: pieces rest := by
  have here : Piece.atStart c cs = .comment e := by
    rw [Piece.atStart, if_neg noFeed, noBlank, if_neg (by simp), found]
  exact pieces_of_atStart here cut

theorem pieces_of_blank {b : Char} (blank : Piece.isBlank b = true) (rest : List Char) :
    pieces (b :: rest) = .blank b :: pieces rest := by
  have noFeed : b ≠ '\n' := by
    rintro rfl
    cases blank
  have here : Piece.atStart b rest = .blank b := by rw [Piece.atStart, if_neg noFeed, if_pos blank]
  exact pieces_of_atStart here rfl

theorem place_of_cut {tab : UInt64} {s : State} {c : Char} {cs rest : List Char}
    (cut : c :: cs = (Piece.atStart c cs).source ++ rest) :
    place tab s (pieces (c :: cs)) = s.tokens tab (pieces rest) (Piece.atStart c cs) ++
      place tab (s.next tab (pieces rest) (Piece.atStart c cs)) (pieces rest) := by
  rw [pieces_of_cut cut, place]

def State.feed (s : State) : Token := ⟨.newline, "\n", ⟨s.offset, s.offset + 1⟩⟩

/-- What a line feed and the indentation behind it do: the layout tokens that they emit behind the
token of the line feed, and the levels that are open then. -/
inductive LineStep (tab : UInt64) (s : State) (indentation : List Char) (behind : List Piece) :
    List Token → List UInt64 → Prop where
  | blank : isBlankLine behind = true → LineStep tab s indentation behind [] s.levels
  | deeper : isBlankLine behind = false → top s.levels < width tab indentation →
      LineStep tab s indentation behind
        [⟨.indent, "", ⟨s.offset + 1, s.offset + 1 + Text.byteLength indentation⟩⟩]
        (width tab indentation :: s.levels)
  | closing : isBlankLine behind = false → ¬ top s.levels < width tab indentation →
      LineStep tab s indentation behind
        ((s.levels.takeWhile (width tab indentation < ·)).map fun _ =>
          ⟨.dedent, "", .point (s.offset + 1 + Text.byteLength indentation)⟩)
        (s.levels.dropWhile (width tab indentation < ·))

theorem lineStep (tab : UInt64) (s : State) (indentation : List Char) (behind : List Piece) :
    ∃ layout, s.tokens tab behind (.newline indentation) = s.feed :: layout ∧
      LineStep tab s indentation behind layout
        (s.next tab behind (.newline indentation)).levels := by
  by_cases isBlank : isBlankLine behind = true
  · refine ⟨[], by simp [State.tokens, State.feed, isBlank], ?_⟩
    have same : (s.next tab behind (.newline indentation)).levels = s.levels := by
      simp [State.next, isBlank]
    rw [same]
    exact .blank isBlank
  · have notBlank := Bool.eq_false_iff.mpr isBlank
    have measured : (s.next tab behind (.newline indentation)).levels =
        measure (width tab indentation) s.levels := by
      simp [State.next, notBlank]
    rw [measured]
    by_cases wider : top s.levels < width tab indentation
    · have levels : measure (width tab indentation) s.levels = width tab indentation :: s.levels :=
        if_pos wider
      rw [levels]
      exact ⟨_, by simp only [State.tokens, State.feed, notBlank, wider, if_true]; rfl,
        .deeper notBlank wider⟩
    · have levels : measure (width tab indentation) s.levels =
          s.levels.dropWhile (width tab indentation < ·) := if_neg wider
      rw [levels]
      exact ⟨_, by simp only [State.tokens, State.feed, notBlank, wider, if_false]; rfl,
        .closing notBlank wider⟩

theorem append_eq_split {α : Type} {x y front behind : List α} {t : α}
    (h : x ++ y = front ++ t :: behind) :
    (∃ b, x = front ++ t :: b ∧ behind = b ++ y) ∨
      (∃ f, front = x ++ f ∧ y = f ++ t :: behind) := by
  rcases List.append_eq_append_iff.mp h with ⟨f, hf, hy⟩ | ⟨b, hx, hb⟩
  · exact .inr ⟨f, hf, hy⟩
  · cases b with
    | nil => exact .inr ⟨[], by simpa using hx.symm, hb.symm⟩
    | cons u b =>
      have h := List.cons.inj hb
      exact .inl ⟨b, by rw [hx, h.1], h.2⟩

namespace Scan
variable {tab : UInt64} {source : List Char}

theorem offset {out : List Token} {s : State} {text : List Char}
    (scan : Scan tab source out s text) :
    ∃ front, source = front ++ text ∧ Text.byteLength front = s.offset := by
  induction scan with
  | start => exact ⟨[], rfl, rfl⟩
  | @step out s c cs rest _ cut ih =>
    obtain ⟨front, same, size⟩ := ih
    refine ⟨front ++ (Piece.atStart c cs).source, ?_, ?_⟩
    · rw [List.append_assoc, ← cut, same]
    · rw [Text.byteLength_append, size]
      rfl

/-- What has been emitted and what is still to come are the tokens of the source. -/
theorem place_eq {out : List Token} {s : State} {text : List Char}
    (scan : Scan tab source out s text) :
    place tab ⟨0, []⟩ (pieces source) = out ++ place tab s (pieces text) := by
  induction scan with
  | start => rfl
  | step _ cut ih => rw [ih, place_of_cut cut, List.append_assoc]

theorem exists_end {out : List Token} {s : State} {text : List Char}
    (scan : Scan tab source out s text) :
    ∃ out' s', Scan tab source out' s' [] ∧ out <+: out' := by
  induction text using pieces_induction generalizing out s with
  | nil => exact ⟨out, s, scan, List.prefix_rfl⟩
  | piece c cs rest cut ih =>
    obtain ⟨out', s', final, more⟩ := ih (scan.step cut)
    exact ⟨out', s', final, (List.prefix_append _ _).trans more⟩

/-- A token of the source was emitted for one of the pieces, or it closes a level at the end. -/
theorem locate {out front behind : List Token} {s : State} {text : List Char} {t : Token}
    (scan : Scan tab source out s text)
    (same : place tab s (pieces text) = front ++ t :: behind) :
    (∃ out' s' c cs rest a b, Scan tab source out' s' (c :: cs) ∧
      c :: cs = (Piece.atStart c cs).source ++ rest ∧
      s'.tokens tab (pieces rest) (Piece.atStart c cs) = a ++ t :: b ∧ out ++ front = out' ++ a ∧
      behind = b ++ place tab (s'.next tab (pieces rest) (Piece.atStart c cs)) (pieces rest)) ∨
    (∃ out' s' a, Scan tab source out' s' [] ∧ s'.closing = a ++ t :: behind ∧
      out ++ front = out' ++ a) := by
  induction text using pieces_induction generalizing out front s with
  | nil => exact .inr ⟨out, s, front, scan, by simpa [pieces, place_nil] using same, rfl⟩
  | piece c cs rest cut ih =>
    rw [place_of_cut cut] at same
    rcases append_eq_split same with ⟨b, here, after⟩ | ⟨f, before, later⟩
    · exact .inl ⟨out, s, c, cs, rest, front, b, scan, cut, here, rfl, after⟩
    · have found := ih (scan.step cut) later
      rw [List.append_assoc, ← before] at found
      exact found

end Scan

/-- The tokens of a source are those of its scan, and those that close the levels still open. -/
theorem exists_scan (tab : UInt64) (source : String) :
    ∃ out s, Scan tab source.toList out s [] ∧ tokenize tab source = out ++ s.closing := by
  have first : Scan tab source.toList [] ⟨0, []⟩ source.toList := .start
  obtain ⟨out, s, scan, -⟩ := first.exists_end
  refine ⟨out, s, scan, ?_⟩
  rw [tokenize, scan.place_eq, pieces, place_nil]

end Layout

end PhraseLang
