import PhraseLang.Proofs.Grammar.Failure
import PhraseLang.Proofs.Tiling
import PhraseLang.Text.Position

/-! Where the errors of a source stand.
The span of an error cuts the source at two places between characters, so its label and its line and
column can be told without rounding. A token that an error is about is a token of the source. -/
namespace PhraseLang
open Text Grammar

/-- A span that lies in the source and splits no character. -/
structure Span.Marks (source : List Char) (s : Span) : Prop where
  ordered : s.start ≤ s.stop
  inside : s.stop ≤ byteLength source
  startBoundary : IsBoundary source s.start
  stopBoundary : IsBoundary source s.stop

theorem Cuts.marks {source : List Char} {t : Token} (cuts : Cuts source t) :
    t.span.Marks source :=
  ⟨cuts.ordered, cuts.inside, cuts.startBoundary, cuts.stopBoundary⟩

theorem IsBoundary.marks {source : List Char} {offset : Nat} (boundary : IsBoundary source offset) :
    (Span.point offset).Marks source := by
  refine ⟨Nat.le_refl offset, ?_, boundary, boundary⟩
  obtain ⟨front, rest, rfl, size⟩ := boundary
  rw [byteLength_append, Span.point, ← size]
  exact Nat.le_add_right _ _

/-- Between two characters an offset stands behind exactly the text that its position counts. -/
theorem IsBoundary.exists_position {source : List Char} {offset : Nat}
    (boundary : IsBoundary source offset) :
    ∃ before behind, source = before ++ behind ∧ byteLength before = offset ∧
      lineColumn source offset = (before.count '\n' + 1, (lastLine before).length + 1) ∧
      lineAround source offset = lastLine before ++ firstLine behind := by
  obtain ⟨before, behind, rfl, rfl⟩ := boundary
  refine ⟨before, behind, rfl, rfl, ?_, ?_⟩
  · rw [lineColumn_eq, takeBytes_byteLength_append]
  · rw [lineAround, takeBytes_byteLength_append, dropBytes_byteLength_append]

theorem Tiled.endBoundary {source front g rest : List Char} {out : List Token}
    (tiled : Tiled source out front g rest) : IsBoundary source (endOffset out) := by
  refine ⟨front, g ++ rest, ?_, tiled.endOffset_eq.symm⟩
  rw [tiled.source_eq, List.append_assoc]

theorem Grammar.Fault.marks {source : List Char} {ts : List Token} {e : ParseError}
    (fault : Fault (endOffset ts) ts e) (cuts : ∀ t ∈ ts, Cuts source t)
    (ends : IsBoundary source (endOffset ts)) : e.span.Marks source := by
  cases fault with
  | atEnd => exact ends.marks
  | brokenRun broken =>
    obtain ⟨front, opening, run, stop, rest, rfl, _, _, rfl⟩ := broken
    exact (cuts stop (by simp)).startBoundary.marks
  | unexpectedToken here | notAnOperand here | notAStatement here | badCount here =>
    exact (cuts _ here).marks

theorem Grammar.Fault.found_mem {eof : Nat} {ts : List Token} {e : ParseError}
    (fault : Fault eof ts e) : ∀ t ∈ e.found?, t ∈ ts := by
  intro t ht
  cases fault with
  | atEnd | brokenRun => cases ht
  | unexpectedToken here | notAnOperand here | notAStatement here | badCount here =>
    obtain rfl := Option.mem_some.mp ht
    exact here

/-- The errors of a source are placed in it: between characters, at a token of the source that is of
none of the expected kinds, behind its last token, or where a run breaks off. -/
theorem ofSource_error_placed {tab : UInt64} {source : String} {e : ParseError}
    (failed : Program.ofSource tab source = .error e) :
    e.span.Marks source.toList ∧
    (∃ before behind, source.toList = before ++ behind ∧ byteLength before = e.span.start ∧
      lineColumn source.toList e.span.start =
        (before.count '\n' + 1, (lastLine before).length + 1) ∧
      lineAround source.toList e.span.start = lastLine before ++ firstLine behind) ∧
    (∀ t ∈ e.found?, t ∈ tokenize tab source) ∧
    (∀ kinds offset, e = .unexpectedEnd kinds offset →
      offset = endOffset (tokenize tab source) ∨ BrokenRun (tokenize tab source) offset) ∧
    (∀ t kinds, e = .unexpectedToken t kinds → t.kind ∉ kinds ∧ kinds ≠ []) := by
  obtain ⟨front, g, tiled⟩ := exists_tiled tab source
  have fault : Fault (endOffset (tokenize tab source)) (tokenize tab source) e :=
    ofTokens_fault failed
  have marks := fault.marks tiled.cuts tiled.endBoundary
  refine ⟨marks, marks.startBoundary.exists_position, fault.found_mem, ?_, ?_⟩
  · rintro kinds offset rfl
    cases fault with
    | atEnd => exact .inl rfl
    | brokenRun broken => exact .inr broken
  · rintro t kinds rfl
    cases fault with
    | unexpectedToken _ notAllowed some => exact ⟨notAllowed, some⟩

/-- The run of `sweet £a + {` breaks off in front of its brace. -/
theorem ofSource_error_placed_condition :
    Program.ofSource 4 "sweet £a + \x7b" = .error (.unexpectedEnd Run.operandKinds 12) ∧
    (Span.point 12).Marks "sweet £a + \x7b".toList ∧
    BrokenRun (tokenize 4 "sweet £a + \x7b") 12 := by
  have tokens : tokenize 4 "sweet £a + \x7b" =
      [⟨.keyword .ifThen, "sweet", ⟨0, 5⟩⟩, ⟨.binding, "a", ⟨6, 9⟩⟩,
        ⟨.operator .plus, "+", ⟨10, 11⟩⟩, ⟨.punctuation .leftCurly, "\x7b", ⟨12, 13⟩⟩] := by
    decide +kernel
  have failed : Program.ofSource 4 "sweet £a + \x7b" =
      .error (.unexpectedEnd Run.operandKinds 12) := by
    rw [Program.ofSource, tokens]
    rfl
  obtain ⟨marks, -, -, atEnd, -⟩ := ofSource_error_placed failed
  refine ⟨failed, marks, (atEnd _ _ rfl).resolve_left ?_⟩
  rw [tokens]
  decide

end PhraseLang
