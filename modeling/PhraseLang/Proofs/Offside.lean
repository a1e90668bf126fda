import PhraseLang.Proofs.BlankLine
import PhraseLang.Proofs.Grammar.Acceptance
import PhraseLang.Proofs.Grammar.Nesting
import PhraseLang.Proofs.Levels

/-! The offside rule of programs that are read.
A statement that begins a line is indented exactly as far as the block around it, and the brace that
closes a block begins a line that is indented less than the block and no less than what is around
it. The reader of tokens sees no widths: it sees one `Indent` and one `Dedent` for each block, which
keeps the nesting of blocks and the stack of indentation in step. -/
namespace PhraseLang
open Text Layout Grammar

/-- The width of the line that a token stands on, given the tokens in front of it: of the blanks
behind the last line feed that is a token. -/
def lineWidth (tab : UInt64) (source : List Char) (front : List Token) : Option UInt64 :=
  (front.filter (·.kind = .newline)).getLast?.map fun feed =>
    width tab ((dropBytes feed.span.stop source).takeWhile Piece.isIndentation)

theorem lineWidth_of_line {tab : UInt64} {source cs : List Char} {out layout : List Token}
    {s s' : State} (line : Line tab source out s cs layout s') (quiet : List Token)
    (noFeed : ∀ t ∈ quiet, t.kind ≠ .newline) :
    lineWidth tab source (out ++ s.feed :: quiet) =
      some (width tab (cs.takeWhile Piece.isIndentation)) := by
  have behind : dropBytes (s.offset + 1) source = cs := line.here.dropBytes_feed
  have none : quiet.filter (·.kind = .newline) = [] := by
    refine List.filter_eq_nil_iff.mpr fun t ht => ?_
    simpa using noFeed t ht
  have last : ((out ++ s.feed :: quiet).filter (·.kind = .newline)).getLast? = some s.feed := by
    rw [List.filter_append, List.filter_cons_of_pos (by rfl), none, List.getLast?_append]
    rfl
  rw [lineWidth, last, Option.map_some]
  exact congrArg (fun text => some (width tab (text.takeWhile Piece.isIndentation))) behind

section
variable {tab : UInt64} {source : String} {front behind : List Token} {n t : Token}

/-- A line whose first token is a lexeme, with no `Indent` or `Dedent` before it, is exactly as wide
as the innermost level. -/
theorem lineWidth_newline (crlf : CrLf source.toList)
    (same : tokenize tab source = front ++ n :: t :: behind) (isNewline : n.kind = .newline)
    (plain : t.kind.isLayout = false) :
    lineWidth tab source.toList (front ++ [n]) =
      some (top (openLevels tab source.toList (front ++ [n]))) := by
  obtain ⟨s, s', cs, layout, line, rfl, after⟩ := exists_line_of_newline same isNewline
  have quiet : layout = [] := by
    cases layout with
    | nil => rfl
    | cons u layout =>
      obtain rfl := (List.cons.inj after).1
      rw [line.step.isLayout_of_mem List.mem_cons_self] at plain
      cases plain
  subst quiet
  rw [List.nil_append] at after
  -- A line that is passed over holds no lexeme, so this one was measured.
  have notBlank : isBlankLine (pieces (cs.dropWhile Piece.isIndentation)) = false := by
    refine Bool.eq_false_iff.mpr fun blank => ?_
    obtain ⟨read, whole, -⟩ := line.next.offset
    have flush := head_dropWhile Piece.isIndentation cs
    have holds := (isBlankLine_iff (CrLf.of_append (whole ▸ crlf)) flush).mp blank
    have nothing : HoldsNothing (t :: behind) := by
      rw [after]
      exact (holdsNothing_place s' _).mpr holds.silent
    rw [nothing.isLayout_head] at plain
    cases plain
  rw [line.next.levels.2, lineWidth_of_line line [] (by simp),
    line.step.width_of_nil notBlank rfl]

theorem lineWidth_indent (same : tokenize tab source = front ++ n :: behind)
    (isIndent : n.kind = .indent) :
    lineWidth tab source.toList (front ++ [n]) =
      some (top (openLevels tab source.toList (front ++ [n]))) := by
  cases origin same (isIndent ▸ rfl) with
  | feed _ isFeed =>
    subst isFeed
    cases isIndent
  | @measured out a b s s' cs line before =>
    rcases line.step.kinds_at with ⟨rfl, rfl, _⟩ | dedents
    · have measured := lineWidth_of_line line [n] (by simp [isIndent])
      have opened := line.next.levels.2
      rw [before, List.append_assoc]
      exact measured.trans (congrArg some (opened ▸ line.step.of_indent isIndent))
    · rw [dedents n (by simp)] at isIndent
      cases isIndent
  | closing isDedent =>
    rw [isIndent] at isDedent
    cases isDedent

/-- A single `Dedent` with more to come stands on a line that closes one level. -/
theorem lineWidth_dedent (same : tokenize tab source = front ++ n :: t :: behind)
    (isDedent : n.kind = .dedent) (first : ∀ u ∈ front.getLast?, u.kind ≠ .dedent)
    (more : t.kind ≠ .dedent) :
    ∃ f feed w, front = f ++ [feed] ∧ feed.kind = .newline ∧
      lineWidth tab source.toList (front ++ [n]) = some w ∧
      top (openLevels tab source.toList (front ++ [n])) ≤ w ∧
      w < top (openLevels tab source.toList front) := by
  cases origin same (isDedent ▸ rfl) with
  | feed _ isFeed =>
    subst isFeed
    cases isDedent
  | closing _ dedents => exact absurd (dedents t List.mem_cons_self) more
  | @measured out a b s s' cs line before after =>
    rcases line.step.kinds_at with ⟨_, _, isIndent⟩ | dedents
    · rw [isDedent] at isIndent
      cases isIndent
    · subst before
      -- One `Dedent` more on either side would stand in place of `front`'s last token or of `t`.
      obtain rfl : a = [] := by
        by_cases empty : a = []
        · exact empty
        · obtain ⟨u, last⟩ := Option.isSome_iff_exists.mp (List.getLast?_isSome.mpr empty)
          have isLast : (out ++ s.feed :: a).getLast? = some u := by
            simp [List.getLast?_cons, last]
          exact absurd (dedents u (by simp [List.mem_of_getLast? last])) (first u isLast)
      obtain rfl : b = [] := by
        cases b with
        | nil => rfl
        | cons u b =>
          obtain rfl := (List.cons.inj after).1
          exact absurd (dedents t (by simp)) more
      obtain ⟨below, above⟩ := line.step.of_dedent List.mem_cons_self isDedent
      have measured := lineWidth_of_line line [n] (by simp [isDedent])
      have opened : openLevels tab source.toList (out ++ [s.feed]) = s.levels := by
        rw [openLevels, List.foldl_append]
        exact line.here.levels.2
      have closed := line.next.levels.2
      refine ⟨out, s.feed, _, rfl, rfl, ?_, ?_, opened ▸ below⟩
      · rw [List.append_assoc]
        exact measured
      · rw [List.append_assoc]
        exact closed ▸ above

end

theorem openLevels_eq_map (tab : UInt64) (source : List Char) (tokens : List Token) :
    openLevels tab source tokens = (openIndents tokens).map (indentWidth tab source) := by
  have general : ∀ indents, tokens.foldl (levelsAfter tab source)
      (indents.map (indentWidth tab source)) =
        (tokens.foldl opens indents).map (indentWidth tab source) := by
    -- Over any open indents, since a `Dedent` uncovers those in front of the tokens at hand.
    induction tokens with
    | nil => exact fun _ => rfl
    | cons t tokens ih =>
      intro indents
      have same : levelsAfter tab source (indents.map (indentWidth tab source)) t =
          (opens indents t).map (indentWidth tab source) := by
        obtain ⟨kind, text, span⟩ := t
        cases kind with
        | dedent => exact List.map_tail.symm
        | _ => rfl
      rw [List.foldl_cons, List.foldl_cons, same]
      exact ih (opens indents t)
  exact general []

/-- The offside rule for one derivation of the tokens of a source. -/
structure Offside (tab : UInt64) (source : String) (d : Derivation) : Prop where
  /-- The widths of the blocks around a landmark are the levels open there. -/
  levels : ∀ front s blocks, .statement front s blocks ∈ d.landmarks [] →
    openLevels tab source.toList front = blocks.map (indentWidth tab source.toList) ∧
      IsStack (stack (blocks.map (indentWidth tab source.toList)))
  statements : ∀ front s blocks, .statement front s blocks ∈ d.landmarks [] →
    (∃ t ∈ front.getLast?, t.kind = .newline ∨ t.kind = .indent) →
      lineWidth tab source.toList front =
        some (top (blocks.map (indentWidth tab source.toList)))
  closings : ∀ front brace indent blocks, .closing front brace indent blocks ∈ d.landmarks [] →
    ∃ f feed dedent w, front = f ++ [feed, dedent] ∧ feed.kind = .newline ∧
      dedent.kind = .dedent ∧ lineWidth tab source.toList front = some w ∧
      top (blocks.map (indentWidth tab source.toList)) ≤ w ∧
      w < indentWidth tab source.toList indent

theorem offside_of_fits {tab : UInt64} {source : String} {d : Derivation}
    (crlf : CrLf source.toList) (fits : ∀ m ∈ d.landmarks [], m.Fits (tokenize tab source)) :
    Offside tab source d where
  levels := by
    intro front s blocks hm
    obtain ⟨opened, behind, same⟩ := fits _ hm
    have levels := openLevels_eq_map tab source.toList front
    rw [opened] at levels
    have before : front <+: tokenize tab source := ⟨s.tokens ++ behind, by rw [same]; simp⟩
    exact ⟨levels, levels ▸ (stack_between before).1⟩
  statements := by
    intro front s blocks hm starts
    obtain ⟨opened, behind, same⟩ := fits _ hm
    obtain ⟨n, last, isStart⟩ := starts
    obtain ⟨f, rfl⟩ := List.getLast?_eq_some_iff.mp last
    obtain ⟨t, ts, first, isFirst⟩ := s.exists_first
    have plain := isLayout_statementStarts t.kind isFirst
    have same : tokenize tab source = f ++ n :: t :: (ts ++ behind) := by simp [same, first]
    rw [← opened, ← openLevels_eq_map]
    rcases isStart with isNewline | isIndent
    · exact lineWidth_newline crlf same isNewline plain
    · exact lineWidth_indent same isIndent
  closings := by
    intro front brace indent blocks hm
    obtain ⟨isBrace, opened, ⟨behind, same⟩, inner, dedent, rfl, isDedent, inside, last⟩ :=
      fits _ hm
    have same : tokenize tab source = inner ++ dedent :: brace :: behind := by simp [same]
    have more : brace.kind ≠ .dedent := by rw [isBrace]; nofun
    obtain ⟨f, feed, w, rfl, isFeed, measured, above, below⟩ :=
      lineWidth_dedent same isDedent last more
    rw [openLevels_eq_map, opened] at above
    rw [openLevels_eq_map, inside] at below
    exact ⟨f, feed, dedent, w, by simp, isFeed, isDedent, measured, above, below⟩

/-- A source that is read, with every carriage return at the end of a line, keeps the offside rule:
at all of its statements, and at all of the braces that close its blocks. -/
theorem ofSource_offside {tab : UInt64} {source : String} {p : Program}
    (accepted : Program.ofSource tab source = .ok p) (crlf : CrLf source.toList) :
    (∃ d : Derivation, d.tokens = tokenize tab source ∧ d.program = p) ∧
    ∀ d : Derivation, d.tokens = tokenize tab source →
      (d.landmarks []).filterMap Landmark.tree? = nestedAll p.statements ∧
      (∀ m ∈ d.landmarks [], m.Fits (tokenize tab source)) ∧ Offside tab source d := by
  refine ⟨ofTokens_sound accepted, fun d same => ?_⟩
  have fits : ∀ m ∈ d.landmarks [], m.Fits (tokenize tab source) :=
    d.landmarks_fit same.symm rfl
  have read := ofTokens_complete d
  rw [same] at read
  obtain rfl : p = d.program := Except.ok.inj (accepted.symm.trans read)
  exact ⟨d.filterMap_landmarks [], fits, offside_of_fits crlf fits⟩

theorem crlf_of_not_mem {text : List Char} (noReturn : '\r' ∉ text) : CrLf text := by
  intro a b same
  exact absurd (by simp [same]) noReturn

def indentedSource : String :=
  "sweet $a \x7b\n" ++
  "  I would love to own a plot of land in the 1800s called £b and lease it to 1 owners\n" ++
  "\x7d"

theorem ofSource_offside_indented :
    (∃ p, Program.ofSource 4 indentedSource = .ok p) ∧ CrLf indentedSource.toList ∧
    ∀ d : Derivation, d.tokens = tokenize 4 indentedSource → Offside 4 indentedSource d := by
  have isRead : (Program.ofSource 4 indentedSource).toOption.isSome = true := by decide +kernel
  have noReturn : '\r' ∉ indentedSource.toList := by decide +kernel
  have crlf := crlf_of_not_mem noReturn
  cases accepted : Program.ofSource 4 indentedSource with
  | error e => rw [accepted] at isRead; cases isRead
  | ok p => exact ⟨⟨p, rfl⟩, crlf, fun d same => ((ofSource_offside accepted crlf).2 d same).2.2⟩

end PhraseLang
