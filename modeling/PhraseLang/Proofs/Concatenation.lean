import PhraseLang.Proofs.Cut
import PhraseLang.Proofs.Grammar.Nesting
import PhraseLang.Proofs.Passage
import PhraseLang.Proofs.Relocation
import PhraseLang.Proofs.Width

/-! Two sources with a line feed between them.
A source that is read leaves no level open, and its last line is judged alike at its end and in
front of a line feed. So a source behind it is read as it is by itself, only further on. -/
namespace PhraseLang
open Text Layout

namespace Grammar

def Derivation.append : Derivation → Derivation → Derivation
  | .nil, e => e
  | .blank lineBreak d, e => .blank lineBreak (d.append e)
  | .block b d, e => .block b (d.append e)
  | .stmt s d, e => .stmt s (d.append e)

theorem Derivation.tokens_append (d e : Derivation) :
    (d.append e).tokens = d.tokens ++ e.tokens := by
  induction d with
  | nil => rfl
  | blank lineBreak d ih => exact congrArg (lineBreak.val :: ·) ih
  | block b d ih => simp [Derivation.append, Derivation.tokens, ih]
  | stmt s d ih => simp [Derivation.append, Derivation.tokens, ih]

theorem Derivation.trees_append (d e : Derivation) :
    (d.append e).trees = d.trees ++ e.trees := by
  induction d with
  | nil => rfl
  | blank lineBreak d ih => exact ih
  | block b d ih => simp [Derivation.append, Derivation.trees, ih]
  | stmt s d ih => simp [Derivation.append, Derivation.trees, ih]

theorem Derivation.getLast?_tokens : ∀ d : Derivation, ∀ t ∈ d.tokens.getLast?, t.kind ≠ .dedent
  | .nil => by simp [Derivation.tokens]
  | .blank lineBreak d => by
    have only : ∀ t ∈ [lineBreak.val].getLast?, t.kind ≠ .dedent := by
      intro t ht
      obtain rfl := Option.mem_some.mp ht
      exact kind_ne lineBreak.property (by decide)
    exact getLast?_kind_append only d.getLast?_tokens
  | .block b d => getLast?_kind_append b.getLast?_tokens d.getLast?_tokens
  | .stmt s d => getLast?_kind_append s.getLast?_tokens d.getLast?_tokens

end Grammar
open Grammar

/-- A source that is read has come back to the base level at its end. -/
theorem levels_of_accepted {tab : UInt64} {source : String} {p : Program}
    (accepted : Program.ofSource tab source = .ok p) :
    (State.after tab [] ⟨0, []⟩ (pieces source.toList)).levels = [] := by
  obtain ⟨d, same, -⟩ := ofTokens_sound accepted
  have last := d.getLast?_tokens
  have whole := place_append tab ⟨0, []⟩ (pieces source.toList) []
  rw [List.append_nil, place_nil] at whole
  rw [same, tokenize, whole] at last
  generalize State.after tab [] ⟨0, []⟩ (pieces source.toList) = s at last ⊢
  -- The levels still open would be closed by `Dedent`s at the end of the tokens.
  by_cases closed : s.levels = []
  · exact closed
  · have some : s.closing ≠ [] := by simpa [State.closing] using closed
    obtain ⟨t, isLast⟩ := Option.isSome_iff_exists.mp (List.getLast?_isSome.mpr some)
    have isDedent : t.kind = .dedent := by
      obtain ⟨_, _, rfl⟩ := List.mem_map.mp (List.mem_of_getLast? isLast)
      rfl
    exact absurd isDedent (last t (by rw [List.getLast?_append, isLast]; rfl))

/-- A line feed in front of text that is not indented puts it on a line of its own. -/
theorem pieces_feed {text : List Char}
    (flush : ∀ c ∈ text.head?, Piece.isIndentation c = false) :
    pieces ('\n' :: text) = .newline [] :: pieces text := by
  have none : text.takeWhile Piece.isIndentation = [] := by
    cases text with
    | nil => rfl
    | cons c text => exact List.takeWhile_cons_of_neg (by simp [flush c rfl])
  have here : Piece.atStart '\n' text = .newline [] := congrArg Piece.newline none
  have cut : '\n' :: text = (Piece.atStart '\n' text).source ++ text := by rw [here]; rfl
  rw [pieces_of_cut cut, here]

theorem place_feed (tab : UInt64) (offset : Nat) (ps : List Piece) :
    place tab ⟨offset, []⟩ (.newline [] :: ps) =
      ⟨.newline, "\n", ⟨offset, offset + 1⟩⟩ :: place tab ⟨offset + 1, []⟩ ps := by
  have base : width tab [] = 0 := rfl
  have tokens : (⟨offset, []⟩ : State).tokens tab ps (.newline []) =
      [⟨.newline, "\n", ⟨offset, offset + 1⟩⟩] := by
    simp [State.tokens, top, base]
  have next : (⟨offset, []⟩ : State).next tab ps (.newline []) = ⟨offset + 1, []⟩ := by
    simp [State.next, Layout.measure, base, Piece.source]
    rfl
  rw [place, tokens, next]
  rfl

theorem tokenize_append_feed {tab : UInt64} {first second : String} {p : Program}
    (accepted : Program.ofSource tab first = .ok p)
    (closed : ∀ text, .comment (.unclosed text) ∉ pieces first.toList)
    (flush : ∀ c ∈ second.toList.head?, Piece.isIndentation c = false) :
    tokenize tab (first ++ "\n" ++ second) =
      tokenize tab first ++
        ⟨.newline, "\n", ⟨byteLength first.toList, byteLength first.toList + 1⟩⟩ ::
          (tokenize tab second).map (Token.shift (byteLength first.toList + 1)) := by
  have text : (first ++ "\n" ++ second).toList = first.toList ++ '\n' :: second.toList := by simp
  have sealed_ : Sealed (pieces first.toList) (.newline [] :: pieces second.toList) :=
    .inl ⟨[], _, rfl⟩
  obtain ⟨emits, after⟩ := emits_of_sealed tab ⟨0, []⟩ sealed_
  have offset := offset_after tab ⟨0, []⟩ (pieces first.toList) []
  rw [flatMap_source_pieces, Nat.zero_add] at offset
  have alone := place_append tab ⟨0, []⟩ (pieces first.toList) []
  have levels := levels_of_accepted accepted
  rw [List.append_nil, place_nil, State.closing, levels, List.map_nil, List.append_nil] at alone
  have behind : State.after tab [] ⟨0, []⟩ (pieces first.toList) =
      ⟨byteLength first.toList, []⟩ := by
    generalize State.after tab [] ⟨0, []⟩ (pieces first.toList) = s at offset levels ⊢
    cases s
    rw [← offset, ← levels]
  have moved := place_shift tab ⟨0, []⟩ (pieces second.toList) (byteLength first.toList + 1)
  rw [Nat.zero_add] at moved
  rw [tokenize, text, pieces_append_feed _ _ closed, pieces_feed flush, place_append, emits, after,
    behind, place_feed, moved, ← alone]
  rfl

/-- The lines of both are measured as they are alone, and the line feed adds one without blanks. -/
theorem overflowsIn_append_feed {tab : UInt64} {first second : String}
    (closed : ∀ text, .comment (.unclosed text) ∉ pieces first.toList)
    (flush : ∀ c ∈ second.toList.head?, Piece.isIndentation c = false) :
    OverflowsIn tab (first ++ "\n" ++ second) ↔ OverflowsIn tab first ∨ OverflowsIn tab second := by
  have text : (first ++ "\n" ++ second).toList = first.toList ++ '\n' :: second.toList := by simp
  have lines : indentations (pieces (first ++ "\n" ++ second).toList) =
      indentations (pieces first.toList) ++ [] :: indentations (pieces second.toList) := by
    rw [text, pieces_append_feed _ _ closed, pieces_feed flush, indentations_append]
    rfl
  rw [OverflowsIn, lines]
  simp only [List.mem_append, List.mem_cons, or_and_right, exists_or, exists_eq_left,
    not_overflows_nil, false_or]
  rfl

/-- Two sources that are read by themselves are read in one, the second behind a line feed, unless
a comment is left open in the first or the second begins with blanks. No line overflows that does
not in one of the two. -/
theorem ofSource_append_feed {tab : UInt64} {first second : String} {p q : Program}
    (acceptedFirst : Program.ofSource tab first = .ok p)
    (acceptedSecond : Program.ofSource tab second = .ok q)
    (closed : ∀ text, .comment (.unclosed text) ∉ pieces first.toList)
    (flush : ∀ c ∈ second.toList.head?, Piece.isIndentation c = false) :
    tokenize tab (first ++ "\n" ++ second) =
      tokenize tab first ++
        ⟨.newline, "\n", ⟨byteLength first.toList, byteLength first.toList + 1⟩⟩ ::
          (tokenize tab second).map (Token.shift (byteLength first.toList + 1)) ∧
    Program.ofSource tab (first ++ "\n" ++ second) =
      .ok ⟨p.statements ++ (q.relocate (· + (byteLength first.toList + 1))).statements⟩ ∧
    (OverflowsIn tab (first ++ "\n" ++ second) ↔
      OverflowsIn tab first ∨ OverflowsIn tab second) := by
  have tokens := tokenize_append_feed acceptedFirst closed flush
  refine ⟨tokens, ?_, overflowsIn_append_feed closed flush⟩
  obtain ⟨d, sameFirst, rfl⟩ := ofTokens_sound acceptedFirst
  obtain ⟨e, sameSecond, rfl⟩ := ofTokens_sound acceptedSecond
  let feed : Word [.newline] :=
    ⟨⟨.newline, "\n", ⟨byteLength first.toList, byteLength first.toList + 1⟩⟩, by simp⟩
  let moved := e.relocate (· + (byteLength first.toList + 1))
  have whole : (d.append (.blank feed moved)).tokens = tokenize tab (first ++ "\n" ++ second) := by
    rw [tokens, Derivation.tokens_append, Derivation.tokens, e.tokens_relocate, sameFirst,
      sameSecond, Token.shift_eq_relocate]
  have read := ofTokens_complete (d.append (.blank feed moved))
  rw [whole] at read
  have trees : moved.trees = (e.program.relocate (· + (byteLength first.toList + 1))).statements :=
    congrArg Program.statements e.program_relocate
  rw [Program.ofSource, read, Derivation.program, Derivation.trees_append, Derivation.trees, trees]
  rfl

def conditionalSource : String :=
  "sweet $a \x7b\n  lolsie £i \x7b\n" ++
  "    I would love to own a plot of land in the 1800s called £b and lease it to 7 owners\n" ++
  "  \x7d\n\x7d asia -> done <- asia "

def Piece.isOpenComment : Piece → Bool
  | .comment (.unclosed _) => true
  | _ => false

def assignmentSource : String :=
  "europe -> more\n" ++
  "I would love to own a plot of land in the 1800s called $c and lease it to x, 1 owners"

theorem ofSource_append_feed_conditional :
    ∃ p q, Program.ofSource 4 conditionalSource = .ok p ∧
      Program.ofSource 4 assignmentSource = .ok q ∧
      (∀ text, .comment (.unclosed text) ∉ pieces conditionalSource.toList) ∧
      (∀ c ∈ assignmentSource.toList.head?, Piece.isIndentation c = false) ∧
      Program.ofSource 4 (conditionalSource ++ "\n" ++ assignmentSource) =
        .ok ⟨p.statements ++
          (q.relocate (· + (byteLength conditionalSource.toList + 1))).statements⟩ := by
  have readFirst : (Program.ofSource 4 conditionalSource).toOption.isSome = true := by
    decide +kernel
  have readSecond : (Program.ofSource 4 assignmentSource).toOption.isSome = true := by
    decide +kernel
  have noneOpen : (pieces conditionalSource.toList).any Piece.isOpenComment = false := by
    decide +kernel
  have closed : ∀ text, .comment (.unclosed text) ∉ pieces conditionalSource.toList :=
    fun text inside => absurd rfl (List.any_eq_false.mp noneOpen _ inside)
  have head : assignmentSource.toList.head? = some 'e' := by decide +kernel
  have flush : ∀ c ∈ assignmentSource.toList.head?, Piece.isIndentation c = false := by
    intro c first
    obtain rfl := Option.some.inj (head.symm.trans first)
    rfl
  cases first : Program.ofSource 4 conditionalSource with
  | error e => rw [first] at readFirst; cases readFirst
  | ok p =>
    cases second : Program.ofSource 4 assignmentSource with
    | error e => rw [second] at readSecond; cases readSecond
    | ok q =>
      exact ⟨p, q, rfl, rfl, closed, flush, (ofSource_append_feed first second closed flush).2.1⟩

end PhraseLang
