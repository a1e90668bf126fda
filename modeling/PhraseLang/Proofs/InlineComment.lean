import PhraseLang.Proofs.Levels
import PhraseLang.Proofs.Seam
import PhraseLang.Proofs.Unplaced

/-! A space in place of a comment.
Behind a token of its own line a comment says no more than a space: the pieces in front of it and
behind it stay, and so does what layout makes of them. Only the suffix of a while loop is a phrase
with the space that it is not in front of a comment. -/
namespace PhraseLang
open Layout

section
variable {tab : UInt64} {source a b text : List Char} {ps : List Piece}

/-- What follows may be exchanged if each piece is the same in front of the other text. -/
theorem pieces_exchange (whole : pieces (text ++ a) = ps ++ pieces a)
    (step : ∀ (passed qs : List Piece) (c : Char) (cs tail : List Char),
      ps = passed ++ Piece.atStart c (cs ++ a) :: qs →
      c :: cs = (Piece.atStart c (cs ++ a)).source ++ tail →
      pieces (tail ++ a) = qs ++ pieces a → Piece.atStart c (cs ++ b) = Piece.atStart c (cs ++ a)) :
    pieces (text ++ b) = ps ++ pieces b := by
  induction ps generalizing text with
  | nil =>
    obtain rfl : [] = text := flatMap_source_of_cut whole
    rfl
  | cons p ps ih =>
    obtain ⟨c, cs, tail, rfl, rfl, cut, behind⟩ := exists_cut_of_pieces whole
    have same := step [] ps c cs tail rfl cut behind
    have later := ih behind fun passed qs d ds more parts =>
      step (Piece.atStart c (cs ++ a) :: passed) qs d ds more (congrArg _ parts)
    rw [← same] at cut ⊢
    rw [List.cons_append, pieces_of_cut (cut_append cut b), later, List.cons_append]

/-- The text behind any first pieces of a source is reached by its scan. -/
theorem Layout.Scan.exists_of_pieces {out : List Token} {s : State}
    (scan : Scan tab source out s text) (whole : pieces text = ps ++ pieces a) :
    ∃ out' s', Scan tab source out' s' a := by
  obtain ⟨front, rfl⟩ : ∃ front, front ++ a = text := by
    refine ⟨ps.flatMap Piece.source, ?_⟩
    rw [← flatMap_source_pieces text, whole, List.flatMap_append, flatMap_source_pieces]
  induction ps generalizing out s front with
  | nil =>
    obtain rfl : [] = front := flatMap_source_of_cut whole
    exact ⟨out, s, scan⟩
  | cons p ps ih =>
    obtain ⟨c, cs, tail, rfl, rfl, cut, behind⟩ := exists_cut_of_pieces whole
    exact ih tail (scan.step (cut_append cut a)) behind

theorem closed_of_pieces {d : Char} {rest : List Char} (letter : d.isAlpha = true)
    (whole : pieces (text ++ d :: rest) = ps ++ pieces (d :: rest)) : Closed text := by
  induction ps generalizing text with
  | nil =>
    obtain rfl : [] = text := flatMap_source_of_cut whole
    exact .of_plain nofun
  | cons p ps ih =>
    obtain ⟨c, cs, tail, rfl, rfl, cut, behind⟩ := exists_cut_of_pieces whole
    by_cases last : tail = []
    · rw [last, List.append_nil] at cut
      exact Piece.closed_source letter cut.symm
    · rw [cut]
      exact (ih behind).append last _

/-- A space in place of a comment leaves the pieces in front of it, unless the suffix of a while
loop is there. -/
theorem pieces_gap {d : Char} {rest : List Char} (letter : d.isAlpha = true)
    (whole : pieces (text ++ d :: rest) = ps ++ pieces (d :: rest))
    (inLine : ∀ i, ps.getLast? ≠ some (.newline i))
    (free : ∀ out s, ¬ Scan tab (text ++ d :: rest) out s
      (Keyword.whileLoop.letters ++ d :: rest)) (more : List Char) :
    pieces (text ++ ' ' :: more) = ps ++ pieces (' ' :: more) := by
  refine pieces_exchange whole fun passed qs c cs tail parts cut behind => ?_
  have here : pieces (c :: cs ++ d :: rest) =
      (Piece.atStart c (cs ++ d :: rest) :: qs) ++ pieces (d :: rest) := by
    rw [List.cons_append, pieces_of_cut (cut_append cut _), behind, List.cons_append]
  refine Piece.atStart_gap letter (closed_of_pieces letter here) ?_ cut ?_ more
  · -- A phrase of a while loop here would be one that the scan comes to.
    intro isLoop
    rw [isLoop] at here
    have reached : pieces (text ++ d :: rest) =
        passed ++ pieces (Keyword.whileLoop.letters ++ d :: rest) := by
      rw [whole, parts, here, List.append_assoc]
    obtain ⟨out, s, scan⟩ := Scan.start.exists_of_pieces reached
    exact free out s scan
  · -- A line feed up to the end of the text would be the last piece.
    rintro rfl rfl
    have none : qs = [] := List.self_eq_append_left.mp behind
    refine inLine ((cs ++ d :: rest).takeWhile Piece.isIndentation) ?_
    rw [parts, none, List.getLast?_concat, Piece.atStart, if_pos rfl]

/-- In front of the suffix of a while loop nothing changes whatever stands behind it. -/
theorem pieces_before_loop {d : Char} {rest : List Char} (letter : d.isAlpha = true)
    (whole : pieces (text ++ (Keyword.whileLoop.letters ++ d :: rest)) =
      ps ++ pieces (Keyword.whileLoop.letters ++ d :: rest)) (more : List Char) :
    pieces (text ++ (Keyword.whileLoop.letters ++ ' ' :: more)) =
      ps ++ pieces (Keyword.whileLoop.letters ++ ' ' :: more) := by
  refine pieces_exchange whole fun passed qs c cs tail _ cut _ => ?_
  have closed : Closed (c :: cs ++ Keyword.whileLoop.letters) :=
    .append (by decide +kernel) (by decide) (c :: cs)
  have notLoop : c :: cs ++ Keyword.whileLoop.letters ≠ Keyword.whileLoop.letters := by
    intro same
    cases List.append_left_eq_self.mp same
  rw [← List.append_assoc] at cut ⊢
  rw [← List.append_assoc]
  exact Piece.atStart_gap letter closed notLoop (cut_append cut Keyword.whileLoop.letters)
    (fun _ none => by cases List.append_eq_nil_iff.mp none |>.2) more

end

section
variable {tab : UInt64} {s : State} {ps qs silent behind more : List Piece} {x y : Lexeme}

theorem place_silent (quiet : ∀ p ∈ silent, p.isSilent = true) (s : State) :
    (place tab s (silent ++ behind)).map Token.bare =
      (place tab ⟨0, s.levels⟩ behind).map Token.bare := by
  induction silent generalizing s with
  | nil => exact place_bare tab s behind
  | cons p silent ih =>
    have later := ih (fun q inside => quiet q (List.mem_cons_of_mem p inside))
      (s.next tab (silent ++ behind) p)
    have isSilent := quiet p List.mem_cons_self
    rw [List.cons_append, place, List.map_append, later]
    cases p with
    | blank | comment => rfl
    | newline | lexeme => cases isSilent

/-- Behind a lexeme of their line, blanks and comments say nothing. -/
theorem place_past_lexeme (quiet : ∀ p ∈ silent, p.isSilent = true) {p : Piece}
    (isSilent : p.isSilent = true) :
    (place tab s ((qs ++ .lexeme x :: silent) ++ p :: behind)).map Token.bare =
      (s.emits tab [] (qs ++ [.lexeme x])).map Token.bare ++
        (place tab ⟨0, (s.after tab [] (qs ++ [.lexeme x])).levels⟩ behind).map Token.bare := by
  have quietMore : ∀ q ∈ silent ++ [p], q.isSilent = true := by
    intro q inside
    rcases List.mem_append.mp inside with inside | isLast
    · exact quiet q inside
    · rwa [List.mem_singleton.mp isLast]
  have sealed_ : Sealed (qs ++ [.lexeme x]) ((silent ++ [p]) ++ behind) :=
    .inr ⟨x, List.getLast?_concat⟩
  obtain ⟨emits, after⟩ := emits_of_sealed tab s sealed_
  have parts : (qs ++ .lexeme x :: silent) ++ p :: behind =
      (qs ++ [.lexeme x]) ++ ((silent ++ [p]) ++ behind) := by simp
  rw [parts, place_append, emits, after, List.map_append, place_silent quietMore]

theorem isSilent_of_emits (none : s.emits tab behind ps = []) :
    ∀ p ∈ ps, p.isSilent = true := by
  induction ps generalizing s with
  | nil => simp
  | cons p ps ih =>
    obtain ⟨here, later⟩ := List.append_eq_nil_iff.mp none
    intro q inside
    rcases List.mem_cons.mp inside with rfl | inside
    · cases q with
      | newline | lexeme => cases here
      | blank | comment => rfl
    · exact ih later q inside

/-- The last token of a line comes from a lexeme, with blanks and comments behind it. -/
theorem exists_lexeme_of_last {t : Token} (last : (s.emits tab behind ps).getLast? = some t)
    (plain : t.kind.isLayout = false) :
    ∃ qs x silent, ps = qs ++ .lexeme x :: silent ∧ ∀ p ∈ silent, p.isSilent = true := by
  induction ps generalizing s with
  | nil => cases last
  | cons p ps ih =>
    rw [State.emits, List.getLast?_append] at last
    by_cases none : (s.next tab (ps ++ behind) p).emits tab behind ps = []
    · rw [none, List.getLast?_nil, Option.none_or] at last
      have quiet := isSilent_of_emits none
      cases p with
      | lexeme x => exact ⟨[], x, ps, rfl, quiet⟩
      | blank | comment => cases last
      | newline i =>
        obtain ⟨layout, emitted, line⟩ := lineStep tab s i (ps ++ behind)
        rw [emitted] at last
        have isLayout : t.kind.isLayout = true := by
          rcases List.mem_cons.mp (List.mem_of_getLast? last) with rfl | inside
          · rfl
          · exact line.isLayout_of_mem inside
        rw [plain] at isLayout
        cases isLayout
    · obtain ⟨u, isLast⟩ := Option.isSome_iff_exists.mp (List.getLast?_isSome.mpr none)
      rw [isLast, Option.some_or, ← isLast] at last
      obtain ⟨qs, x, silent, rfl, quiet⟩ := ih last
      exact ⟨p :: qs, x, silent, rfl, quiet⟩

/-- That a lexeme follows is all that a line sees of it. -/
theorem isBlankLine_lexeme (ps : List Piece) :
    isBlankLine (ps ++ .lexeme x :: behind) = isBlankLine (ps ++ .lexeme y :: more) := by
  cases ps with
  | nil => rfl
  | cons p ps =>
    have plain : lineEnds (p :: (ps ++ .lexeme x :: behind)) =
        lineEnds (p :: (ps ++ .lexeme y :: more)) :=
      (lineEnds_cons p _).trans (lineEnds_cons p _).symm
    cases p with
    | newline | lexeme | blank => exact plain
    | comment e =>
      cases e with
      | line => exact plain
      | unclosed => rfl
      | block body =>
        change lineEnds ((ps ++ .lexeme x :: behind).dropWhile isSpacing) =
          lineEnds ((ps ++ .lexeme y :: more).dropWhile isSpacing)
        rw [List.dropWhile_append, List.dropWhile_append]
        split
        · rfl
        · rename_i some
          have some : ps.dropWhile isSpacing ≠ [] := fun none => some (List.isEmpty_iff.mpr none)
          rw [lineEnds_append some, lineEnds_append some]

theorem emits_lexeme (tab : UInt64) (s : State) (ps : List Piece) :
    s.emits tab (.lexeme x :: behind) ps = s.emits tab (.lexeme y :: more) ps ∧
      s.after tab (.lexeme x :: behind) ps = s.after tab (.lexeme y :: more) ps := by
  induction ps generalizing s with
  | nil => exact ⟨rfl, rfl⟩
  | cons p ps ih =>
    obtain ⟨tokens, next⟩ : s.tokens tab (ps ++ .lexeme x :: behind) p =
          s.tokens tab (ps ++ .lexeme y :: more) p ∧
        s.next tab (ps ++ .lexeme x :: behind) p = s.next tab (ps ++ .lexeme y :: more) p :=
      step_congr fun _ _ => isBlankLine_lexeme ps
    obtain ⟨emits, after⟩ := ih (s.next tab (ps ++ .lexeme y :: more) p)
    rw [State.emits, State.emits, State.after, State.after, tokens, next, emits, after]
    exact ⟨rfl, rfl⟩

/-- Two texts with the same pieces up to a lexeme: which lexeme it is makes no difference to the
tokens in front of it, and none to the levels behind it. -/
theorem exists_levels_past {tab : UInt64} {first second rest other : List Char} {ps : List Piece}
    {x y : Lexeme} (whole : pieces first = ps ++ .lexeme x :: pieces rest)
    (wholeOther : pieces second = ps ++ .lexeme y :: pieces other) :
    ∃ levels,
      bareTokens tab [] first =
        (State.emits tab (.lexeme x :: pieces rest) ⟨0, []⟩ ps).map Token.bare ++
          x.kind.bare x.value :: bareTokens tab levels rest ∧
      bareTokens tab [] second =
        (State.emits tab (.lexeme x :: pieces rest) ⟨0, []⟩ ps).map Token.bare ++
          y.kind.bare y.value :: bareTokens tab levels other := by
  have past {text rest : List Char} {z : Lexeme}
      (whole : pieces text = ps ++ .lexeme z :: pieces rest) : bareTokens tab [] text =
      (State.emits tab (.lexeme z :: pieces rest) ⟨0, []⟩ ps).map Token.bare ++ z.kind.bare z.value ::
        bareTokens tab (State.after tab (.lexeme z :: pieces rest) ⟨0, []⟩ ps).levels rest := by
    rw [bareTokens, whole, place_append, List.map_append, place, List.map_append, place_bare]
    rfl
  have behind := past wholeOther
  obtain ⟨emits, after⟩ := emits_lexeme (x := x) (y := y) tab ⟨0, []⟩ ps
  rw [← emits, ← after] at behind
  exact ⟨_, past whole, behind⟩

theorem getLast?_ne_newline (quiet : ∀ p ∈ silent, p.isSilent = true) (i : List Char) :
    (qs ++ .lexeme x :: silent).getLast? ≠ some (.newline i) := by
  intro last
  obtain ⟨p, isLast⟩ := Option.isSome_iff_exists.mp
    (List.getLast?_isSome.mpr (List.cons_ne_nil (.lexeme x) silent))
  rw [List.getLast?_append, isLast, Option.some_or, ← isLast] at last
  rcases List.mem_cons.mp (List.mem_of_getLast? last) with isLexeme | inside
  · cases isLexeme
  · cases quiet _ inside

end

/-- The source with a space in place of what stands between the two texts. -/
def withSpace (before rest : List Char) : String := String.ofList (before ++ ' ' :: rest)

/-- The scan of the source skips the comment behind a token of its own line. -/
structure SkipsInLine (tab : UInt64) (source : String) (before : List Char) (e : Comment.Extent)
    (rest : List Char) : Prop where
  source_eq : source.toList = before ++ (e.text ++ rest)
  found : Comment.atStart? (e.text ++ rest) = some e
  scan : ∃ out s, Scan tab source.toList out s (e.text ++ rest) ∧
    ∃ t, out.getLast? = some t ∧ t.kind.isLayout = false

/-- Directly in front of the comment the scan comes to the suffix of a while loop, which is no
phrase there. -/
def StandsBehindLoop (tab : UInt64) (source : String) (e : Comment.Extent) (rest : List Char)
    (out : List Token) : Prop :=
  ∃ s, Scan tab source.toList out s (Keyword.whileLoop.letters ++ (e.text ++ rest))

section
variable {tab : UInt64} {source : String} {before rest : List Char} {e : Comment.Extent}

theorem isAlpha_of_head {c : Char} (isHead : c = 'e' ∨ c = 'a') : c.isAlpha = true := by
  rcases isHead with rfl | rfl <;> rfl

theorem SkipsInLine.exists_head (skips : SkipsInLine tab source before e rest) :
    ∃ c cs, e.text ++ rest = c :: cs ∧ (c = 'e' ∨ c = 'a') ∧
      pieces (c :: cs) = .comment e :: pieces rest := by
  obtain ⟨c, cs, text, isHead⟩ := Comment.exists_head skips.found
  have found := skips.found
  rw [text] at found
  refine ⟨c, cs, text, isHead, pieces_of_comment ?_ ?_ found text.symm⟩
  · rcases isHead with rfl | rfl <;> decide
  · rcases isHead with rfl | rfl <;> rfl

theorem SkipsInLine.map_bare_eq (skips : SkipsInLine tab source before e rest)
    (free : ∀ out, ¬ StandsBehindLoop tab source e rest out) :
    (tokenize tab (withSpace before rest)).map Token.bare =
      (tokenize tab source).map Token.bare := by
  obtain ⟨c, cs, text, isHead, comment⟩ := skips.exists_head
  obtain ⟨out, s, scan, t, last, plain⟩ := skips.scan
  have source_eq := skips.source_eq
  rw [text] at scan source_eq
  obtain ⟨ps, whole, rfl, -⟩ := scan.exists_pieces
  obtain ⟨qs, x, silent, rfl, quiet⟩ := exists_lexeme_of_last last plain
  have cut : pieces (before ++ c :: cs) = (qs ++ .lexeme x :: silent) ++ pieces (c :: cs) := by
    rw [← source_eq, whole]
  have noLoop (out : List Token) (s : State) :
      ¬ Scan tab (before ++ c :: cs) out s (Keyword.whileLoop.letters ++ c :: cs) := by
    intro reached
    rw [← source_eq, ← text] at reached
    exact free out ⟨s, reached⟩
  have gap : pieces (before ++ ' ' :: rest) =
      (qs ++ .lexeme x :: silent) ++ pieces (' ' :: rest) :=
    pieces_gap (isAlpha_of_head isHead) cut (getLast?_ne_newline quiet) noLoop rest
  rw [comment] at whole
  rw [pieces_of_blank rfl] at gap
  rw [tokenize, tokenize, withSpace, String.toList_ofList, whole, gap, place_past_lexeme quiet rfl,
    place_past_lexeme quiet rfl]

/-- The suffix of a while loop directly in front of a comment is a word and an apostrophe. -/
theorem pieces_loop_comment {c : Char} (isHead : c = 'e' ∨ c = 'a') (cs : List Char) :
    pieces (Keyword.whileLoop.letters ++ c :: cs) =
        .lexeme ⟨.word, ['y', 'a', 'r', 'p']⟩ :: pieces ('\'' :: c :: cs) ∧
      pieces ('\'' :: c :: cs) = .lexeme ⟨.unknown, ['\'']⟩ :: pieces (c :: cs) := by
  have word : Piece.atStart 'y' ('a' :: 'r' :: 'p' :: '\'' :: c :: cs) =
      .lexeme ⟨.word, ['y', 'a', 'r', 'p']⟩ := by
    rcases isHead with rfl | rfl <;> rfl
  have mark : Piece.atStart '\'' (c :: cs) = .lexeme ⟨.unknown, ['\'']⟩ := by
    rcases isHead with rfl | rfl <;> rfl
  exact ⟨pieces_of_atStart word rfl, pieces_of_atStart mark rfl⟩

theorem pieces_loop_space (rest : List Char) :
    pieces (Keyword.whileLoop.letters ++ ' ' :: rest) =
      .lexeme ⟨.keyword .whileLoop, Keyword.whileLoop.letters⟩ :: pieces (' ' :: rest) := by
  have suffix : Piece.atStart 'y' ('a' :: 'r' :: 'p' :: '\'' :: ' ' :: rest) =
      .lexeme ⟨.keyword .whileLoop, Keyword.whileLoop.letters⟩ := rfl
  exact pieces_of_atStart suffix rfl

/-- With a space in place of the comment the word and the apostrophe are the suffix. -/
theorem SkipsInLine.map_bare_of_loop (skips : SkipsInLine tab source before e rest)
    {out : List Token} (loop : StandsBehindLoop tab source e rest out) :
    ∃ behind,
      (tokenize tab source).map Token.bare =
        out.map Token.bare ++ [Kind.word.bare "yarp", Kind.unknown.bare "'"] ++ behind ∧
      (tokenize tab (withSpace before rest)).map Token.bare =
        out.map Token.bare ++ [(Kind.keyword .whileLoop).bare "yarp'"] ++ behind := by
  obtain ⟨c, cs, text, isHead, comment⟩ := skips.exists_head
  obtain ⟨s, scan⟩ := loop
  have source_eq := skips.source_eq
  rw [text] at scan source_eq
  obtain ⟨front, cut, -⟩ := scan.offset
  obtain rfl : before = front ++ Keyword.whileLoop.letters := by
    rw [source_eq, ← List.append_assoc] at cut
    exact List.append_cancel_right cut
  obtain ⟨ps, whole, rfl, -⟩ := scan.exists_pieces
  have gap := whole
  rw [cut] at gap
  have gap := pieces_before_loop (isAlpha_of_head isHead) gap rest
  rw [pieces_loop_space, ← List.append_assoc] at gap
  obtain ⟨word, mark⟩ := pieces_loop_comment isHead cs
  rw [word] at whole ⊢
  have replaced : pieces (withSpace (front ++ Keyword.whileLoop.letters) rest).toList =
      ps ++ .lexeme ⟨.keyword .whileLoop, Keyword.whileLoop.letters⟩ :: pieces (' ' :: rest) := by
    rw [withSpace, String.toList_ofList, gap]
  obtain ⟨levels, original, suffix⟩ := exists_levels_past whole replaced
  rw [bareTokens_of_pieces mark, bareTokens_of_silent rfl comment] at original
  rw [bareTokens_blank] at suffix
  refine ⟨bareTokens tab levels rest, original.trans ?_, suffix.trans ?_⟩
  · rw [List.append_assoc]
    rfl
  · rw [List.append_assoc]
    rfl

/-- A comment behind a token of its line is as good as a space, unless it makes two tokens of the
suffix of a while loop directly in front of it. -/
theorem comment_as_space (skips : SkipsInLine tab source before e rest) :
    ((∀ out, ¬ StandsBehindLoop tab source e rest out) →
      (tokenize tab (withSpace before rest)).map Token.bare =
        (tokenize tab source).map Token.bare) ∧
    ∀ out, StandsBehindLoop tab source e rest out → ∃ behind,
      (tokenize tab source).map Token.bare =
        out.map Token.bare ++ [Kind.word.bare "yarp", Kind.unknown.bare "'"] ++ behind ∧
      (tokenize tab (withSpace before rest)).map Token.bare =
        out.map Token.bare ++ [(Kind.keyword .whileLoop).bare "yarp'"] ++ behind :=
  ⟨skips.map_bare_eq, fun _ loop => skips.map_bare_of_loop loop⟩

end

/-- The marks of a counted loop are not read on behind a comment. -/
theorem comment_as_space_counted :
    SkipsInLine 4 "lolsieasia -> x <- asias" "lolsie".toList (.block "asia -> x <- asia".toList)
        ['s'] ∧
    (∀ out, ¬ StandsBehindLoop 4 "lolsieasia -> x <- asias" (.block "asia -> x <- asia".toList)
        ['s'] out) ∧
    (tokenize 4 "lolsie s").map Token.bare =
      (tokenize 4 "lolsieasia -> x <- asias").map Token.bare := by
  have loop : Scan 4 "lolsieasia -> x <- asias".toList
      [⟨.keyword .countedLoop, "0", ⟨0, 6⟩⟩] ⟨6, []⟩ "asia -> x <- asias".toList :=
    Scan.start.step (by decide +kernel)
  have skips : SkipsInLine 4 "lolsieasia -> x <- asias" "lolsie".toList
      (.block "asia -> x <- asia".toList) ['s'] :=
    ⟨by decide, by decide +kernel, _, _, loop, _, rfl, rfl⟩
  have free (out : List Token) : ¬ StandsBehindLoop 4 "lolsieasia -> x <- asias"
      (.block "asia -> x <- asia".toList) ['s'] out := by
    rintro ⟨s, scan⟩
    obtain ⟨front, cut, -⟩ := scan.offset
    have isFront : "lolsie".toList = front ++ Keyword.whileLoop.letters := by
      refine List.append_cancel_right (skips.source_eq.symm.trans (cut.trans ?_))
      exact (List.append_assoc _ _ _).symm
    have inside : '\'' ∈ "lolsie".toList := by
      rw [isFront]
      exact List.mem_append_right front (by decide)
    revert inside
    decide
  exact ⟨skips, free, (comment_as_space skips).1 free⟩

/-- The comment begins with a letter, so that the suffix in front of it is no phrase. -/
theorem not_comment_as_space :
    SkipsInLine 4 "yarp'asia -> x <- asia" "yarp'".toList (.block "asia -> x <- asia".toList) [] ∧
    (tokenize 4 (withSpace "yarp'".toList [])).map Token.bare ≠
      (tokenize 4 "yarp'asia -> x <- asia").map Token.bare := by
  have word : Scan 4 "yarp'asia -> x <- asia".toList [⟨.word, "yarp", ⟨0, 4⟩⟩] ⟨4, []⟩
      "'asia -> x <- asia".toList := Scan.start.step (by decide +kernel)
  have mark : Scan 4 "yarp'asia -> x <- asia".toList
      [⟨.word, "yarp", ⟨0, 4⟩⟩, ⟨.unknown, "'", ⟨4, 5⟩⟩] ⟨5, []⟩ "asia -> x <- asia".toList :=
    word.step (by decide +kernel)
  refine ⟨⟨by decide, by decide +kernel, _, _, mark, _, rfl, rfl⟩, ?_⟩
  decide +kernel

end PhraseLang
