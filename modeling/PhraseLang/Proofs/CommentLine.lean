import PhraseLang.Proofs.Offside

/-! Which lines are measured.
Behind every `Newline` the next line is passed over or measured. A line that holds no lexeme is
measured only for its second block comment. -/
namespace PhraseLang
open Layout

section
variable {tab : UInt64} {source : String} {front behind layout : List Token} {feed : Token}

theorem HoldsNothing.of_layout (quiet : ∀ t ∈ layout, t.kind = .indent ∨ t.kind = .dedent) :
    HoldsNothing (layout ++ behind) ↔ HoldsNothing behind := by
  have inLine : ∀ t ∈ layout, decide (t.kind ≠ .newline) = true := by
    intro t ht
    rcases quiet t ht with kind | kind <;> simp [kind]
  rw [HoldsNothing, List.takeWhile_append_of_pos inLine]
  constructor
  · intro holds t ht
    exact holds t (List.mem_append_right layout ht)
  · intro holds t ht
    rcases List.mem_append.mp ht with here | later
    · exact quiet t here
    · exact holds t later

theorem kind_of_layout {s s' : State} {cs : List Char}
    (line : Line tab source.toList front s cs layout s') :
    ∀ t ∈ layout, t.kind = .indent ∨ t.kind = .dedent := by
  intro t ht
  rcases line.step.kinds with ⟨u, rfl, isIndent⟩ | dedents
  · rw [List.mem_singleton.mp ht]
    exact .inl isIndent
  · exact .inr (dedents t ht)

/-- Behind every `Newline` the line is passed over exactly if no lexeme comes before the next
`Newline` and no second block comment does. A line that is passed over leaves the levels as they are
and emits nothing, any other line is measured. -/
theorem blankLine_iff (crlf : CrLf source.toList)
    (same : tokenize tab source = front ++ feed :: behind) (isFeed : feed.kind = .newline) :
    ∃ s s' cs layout, Line tab source.toList front s cs layout s' ∧ feed = s.feed ∧
      behind = layout ++ place tab s' (pieces (cs.dropWhile Piece.isIndentation)) ∧
      (isBlankLine (pieces (cs.dropWhile Piece.isIndentation)) = true ↔
        HoldsNothing behind ∧
          (lineOf (pieces (cs.dropWhile Piece.isIndentation))).countP Piece.isBlock ≤ 1) ∧
      (isBlankLine (pieces (cs.dropWhile Piece.isIndentation)) = true →
        layout = [] ∧ s'.levels = s.levels) ∧
      (isBlankLine (pieces (cs.dropWhile Piece.isIndentation)) = false →
        Measured (width tab (cs.takeWhile Piece.isIndentation)) (stack s.levels)
          (stack s'.levels) layout) := by
  cases origin same (isFeed ▸ rfl) with
  | @feed s s' cs layout line token after =>
    obtain ⟨read, whole, -⟩ := line.next.offset
    have crlfLine := CrLf.of_append (whole ▸ crlf)
    have flush := head_dropWhile Piece.isIndentation cs
    refine ⟨s, s', cs, layout, line, token, after, ?_, line.step.of_blank, fun measured =>
      line.step.measured measured line.here.nested⟩
    rw [isBlankLine_iff crlfLine flush, after, HoldsNothing.of_layout (kind_of_layout line),
      holdsNothing_place]
    exact ⟨fun ⟨silent, blocks⟩ => ⟨silent, blocks⟩, fun ⟨silent, blocks⟩ => ⟨silent, blocks⟩⟩
  | measured line =>
    rcases line.step.kinds_at with ⟨_, _, isIndent⟩ | dedents
    · rw [isFeed] at isIndent
      cases isIndent
    · rw [dedents feed (by simp)] at isFeed
      cases isFeed
  | closing isDedent =>
    rw [isFeed] at isDedent
    cases isDedent

end

def commentedSource : String :=
  "a\n  asia -> x\n y <- asia  europe -> z\n b"

theorem blankLine_iff_commented :
    ∃ s s' cs layout, Line 4 commentedSource.toList [⟨.word, "a", ⟨0, 1⟩⟩] s cs layout s' ∧
      (isBlankLine (pieces (cs.dropWhile Piece.isIndentation)) = true ↔
        HoldsNothing [⟨.newline, "\n", ⟨37, 38⟩⟩, ⟨.indent, "", ⟨38, 39⟩⟩, ⟨.word, "b", ⟨39, 40⟩⟩,
          ⟨.dedent, "", ⟨40, 40⟩⟩] ∧
          (lineOf (pieces (cs.dropWhile Piece.isIndentation))).countP Piece.isBlock ≤ 1) := by
  have tokens : tokenize 4 commentedSource = [⟨.word, "a", ⟨0, 1⟩⟩] ++ ⟨.newline, "\n", ⟨1, 2⟩⟩ ::
      [⟨.newline, "\n", ⟨37, 38⟩⟩, ⟨.indent, "", ⟨38, 39⟩⟩, ⟨.word, "b", ⟨39, 40⟩⟩,
        ⟨.dedent, "", ⟨40, 40⟩⟩] := by decide +kernel
  have noReturn : '\r' ∉ commentedSource.toList := by decide +kernel
  obtain ⟨s, s', cs, layout, line, -, -, blank, -⟩ :=
    blankLine_iff (crlf_of_not_mem noReturn) tokens rfl
  exact ⟨s, s', cs, layout, line, blank⟩

def doubleComment : String := "\n  asia -> x <- asia asia -> y <- asia"

/-- A line of two block comments holds nothing and is measured all the same. -/
theorem doubleComment_measured :
    CrLf doubleComment.toList ∧
    ∃ s s' cs layout, Line 4 doubleComment.toList [] s cs layout s' ∧
      tokenize 4 doubleComment =
        s.feed :: (layout ++ place 4 s' (pieces (cs.dropWhile Piece.isIndentation))) ∧
      HoldsNothing (layout ++ place 4 s' (pieces (cs.dropWhile Piece.isIndentation))) ∧
      isBlankLine (pieces (cs.dropWhile Piece.isIndentation)) = false ∧
      layout.map Token.kind = [.indent] := by
  have noReturn : '\r' ∉ doubleComment.toList := by decide +kernel
  have scan : Scan 4 doubleComment.toList [] ⟨0, []⟩ ('\n' :: doubleComment.toList.tail) := .start
  obtain ⟨layout, -, line⟩ := scan.line
  have measured : isBlankLine
      (pieces (doubleComment.toList.tail.dropWhile Piece.isIndentation)) = false := by
    decide +kernel
  have silent : (lineOf (pieces
      (doubleComment.toList.tail.dropWhile Piece.isIndentation))).all Piece.isSilent = true := by
    decide +kernel
  have wide : (0 : UInt64) < width 4 (doubleComment.toList.tail.takeWhile Piece.isIndentation) := by
    decide +kernel
  have opens := (line.step.measured measured nested_nil).wider ⟨0, rfl, wide⟩
  refine ⟨crlf_of_not_mem noReturn, _, _, _, layout, line, line.next.place_eq, ?_, measured,
    opens.2⟩
  apply (HoldsNothing.of_layout (kind_of_layout line)).mpr
  exact (holdsNothing_place _ _).mpr (List.all_eq_true.mp silent)

end PhraseLang
