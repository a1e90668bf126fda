import PhraseLang.Proofs.Concatenation
import PhraseLang.Proofs.Grammar.Segments
import PhraseLang.Proofs.Offside

/-! The text of one statement.
A statement at the top level begins where no level is open, and ends with a lexeme that the text
behind it has no part in. So what its span cuts out of the source is read as this statement alone,
moved to the front. -/
namespace PhraseLang
open Text Layout Grammar

namespace Grammar

/-- The statements at the top level of a derivation that stand in no block of their own. -/
def Derivation.standing : Derivation → List Stmt
  | .nil => []
  | .blank _ rest | .block _ rest => rest.standing
  | .stmt s rest => s :: rest.standing

/-- The blocks that stand alone at the top level. -/
def Derivation.blocks : Derivation → List Block
  | .nil => []
  | .blank _ rest | .stmt _ rest => rest.blocks
  | .block b rest => b :: rest.blocks

theorem Derivation.standing_sublist (d : Derivation) :
    (d.standing.map Stmt.tree).Sublist d.trees := by
  induction d with
  | nil => exact List.Sublist.refl _
  | blank lineBreak d ih => exact ih
  | block b d ih => exact ih.trans (List.sublist_append_right _ _)
  | stmt s d ih => exact ih.cons_cons s.tree

theorem Derivation.standing_or_blocks (d : Derivation) :
    ∀ r ∈ d.trees, r ∈ d.standing.map Stmt.tree ∨ ∃ b ∈ d.blocks, r ∈ b.trees := by
  induction d with
  | nil => simp [Derivation.trees]
  | blank lineBreak d ih => exact ih
  | block b d ih =>
    intro r hr
    rcases List.mem_append.mp hr with hr | hr
    · exact .inr ⟨b, List.mem_cons_self, hr⟩
    · rcases ih r hr with here | ⟨c, inside, hr⟩
      · exact .inl here
      · exact .inr ⟨c, List.mem_cons_of_mem b inside, hr⟩
  | stmt s d ih =>
    intro r hr
    rcases List.mem_cons.mp hr with rfl | hr
    · exact .inl List.mem_cons_self
    · exact (ih r hr).imp_left (List.mem_cons_of_mem _)

/-- In front of such a statement every `Indent` has its `Dedent`. -/
theorem Derivation.tokens_of_standing {d : Derivation} {s : Stmt} (standing : s ∈ d.standing) :
    ∃ front behind, d.tokens = front ++ s.tokens ++ behind ∧ openIndents front = [] := by
  have skip {part : List Token} {d : Derivation} (neutral : Neutral part)
      (found : ∃ front behind, d.tokens = front ++ s.tokens ++ behind ∧ openIndents front = []) :
      ∃ front behind, part ++ d.tokens = front ++ s.tokens ++ behind ∧ openIndents front = [] := by
    obtain ⟨front, behind, same, closed⟩ := found
    refine ⟨part ++ front, behind, by simp [same], ?_⟩
    rw [openIndents, List.foldl_append, neutral]
    exact closed
  induction d with
  | nil => cases standing
  | blank lineBreak d ih => exact skip (.cons lineBreak neutral_nil) (ih standing)
  | block b d ih => exact skip b.neutral (ih standing)
  | stmt r d ih =>
    rcases List.mem_cons.mp standing with rfl | standing
    · exact ⟨[], d.tokens, rfl, rfl⟩
    · exact skip r.neutral (ih standing)

/-- The end of an assignment, or a closing brace. -/
def isStatementEnd (k : Kind) : Prop := k = .keyword .endOfAssign ∨ k = .punctuation .rightCurly

theorem isStatementEnd_lastKind (s : Statement) : isStatementEnd s.lastKind := by
  cases s with
  | assign => exact .inl rfl
  | conditional | whileLoop | countedLoop => exact .inr rfl

/-- Rows of tokens with one row between them are read as the same statement. -/
theorem Stmt.tree_eq_of_tokens {r s : Stmt} (same : r.tokens = s.tokens) : r.tree = s.tree := by
  have readR := ofTokens_complete (.stmt r .nil)
  have readS := ofTokens_complete (.stmt s .nil)
  have rows : (Derivation.stmt r .nil).tokens = (Derivation.stmt s .nil).tokens :=
    congrArg (· ++ []) same
  rw [rows, readS] at readR
  have trees := congrArg Program.statements (Except.ok.inj readR)
  exact (List.cons.inj trees).1.symm

end Grammar

/-- A lexeme of a source, with the text behind it. -/
structure Layout.Located (tab : UInt64) (source : List Char) (front : List Token) (t : Token)
    (s : State) (c : Char) (cs rest : List Char) : Prop where
  scan : Scan tab source front s (c :: cs)
  cut : c :: cs = (Lexeme.atStart c cs).text ++ rest
  piece : Piece.atStart c cs = .lexeme (Lexeme.atStart c cs)
  token : t = ⟨(Lexeme.atStart c cs).kind, (Lexeme.atStart c cs).value,
    ⟨s.offset, s.offset + byteLength (Lexeme.atStart c cs).text⟩⟩

theorem Layout.exists_located {tab : UInt64} {source : List Char} {front behind : List Token}
    {t : Token} (same : place tab ⟨0, []⟩ (pieces source) = front ++ t :: behind)
    (plain : t.kind.isLayout = false) :
    ∃ s c cs rest, Located tab source front t s c cs rest := by
  rcases Scan.start.locate same with
    ⟨out, s, c, cs, rest, a, b, scan, cut, here, before, -⟩ | ⟨out, s, a, -, here, -⟩
  · rw [List.nil_append] at before
    subst before
    have form := Piece.form_atStart c cs
    generalize found : Piece.atStart c cs = p at form
    rw [found] at here cut
    cases form with
    | newline =>
      obtain ⟨layout, emitted, line⟩ :=
        lineStep tab s (cs.takeWhile Piece.isIndentation) (pieces rest)
      rw [emitted] at here
      have inside : t ∈ s.feed :: layout := by simp [here]
      have isLayout : t.kind.isLayout = true := by
        rcases List.mem_cons.mp inside with rfl | inside
        · rfl
        · exact line.isLayout_of_mem inside
      rw [plain] at isLayout
      cases isLayout
    | blank => simp [State.tokens] at here
    | comment => simp [State.tokens] at here
    | lexeme =>
      cases a with
      | cons x a => simp [State.tokens] at here
      | nil =>
        rw [List.append_nil]
        exact ⟨s, c, cs, rest, scan, cut, found, (List.cons.inj here).1.symm⟩
  · have inside : t ∈ s.closing := by simp [here]
    obtain ⟨_, _, rfl⟩ := List.mem_map.mp inside
    cases plain

namespace Layout.Located
variable {tab : UInt64} {source : List Char} {front : List Token} {t : Token} {s : State} {c : Char}
  {cs rest : List Char}

theorem exists_before (located : Located tab source front t s c cs rest) :
    ∃ before, source = before ++ (Lexeme.atStart c cs).text ++ rest ∧
      t.span = ⟨byteLength before, byteLength before + byteLength (Lexeme.atStart c cs).text⟩ := by
  obtain ⟨before, whole, size⟩ := located.scan.offset
  refine ⟨before, ?_, by rw [located.token, size]⟩
  rw [whole, located.cut, List.append_assoc]

/-- The span of a lexeme cuts it out of the source. -/
theorem slice_eq (located : Located tab source front t s c cs rest) :
    slice source t.span.start t.span.stop = (Lexeme.atStart c cs).text := by
  obtain ⟨before, whole, span⟩ := located.exists_before
  rw [span, whole]
  exact slice_append before _ rest

/-- The text behind the span of a lexeme is the text that is left. -/
theorem dropBytes_eq (located : Located tab source front t s c cs rest) :
    dropBytes t.span.stop source = rest := by
  obtain ⟨before, whole, span⟩ := located.exists_before
  rw [span, whole]
  show dropBytes (byteLength before + byteLength (Lexeme.atStart c cs).text) _ = rest
  rw [← byteLength_append, dropBytes_byteLength_append]

/-- Behind a lexeme the scan goes on. -/
theorem next (located : Located tab source front t s c cs rest) :
    ∃ s', Scan tab source (front ++ [t]) s' rest := by
  have cut : c :: cs = (Piece.atStart c cs).source ++ rest := by
    rw [located.piece]
    exact located.cut
  have scan := located.scan.step cut
  rw [located.piece] at scan
  rw [located.token]
  exact ⟨_, scan⟩

end Layout.Located

theorem rightCurly_not_mem_letters (k : Keyword) : '}' ∉ k.letters := by cases k <;> decide

theorem settled_of_brace {before tail rest : List Char} (suffix : tail <:+ before ++ ['}']) :
    Settled tail rest := by
  -- No phrase ends with a brace.
  rintro k rfl _
  obtain ⟨front, same⟩ := suffix
  have isLast := congrArg List.getLast? same
  obtain ⟨d, hd⟩ := Option.isSome_iff_exists.mp (List.getLast?_isSome.mpr k.letters_ne_nil)
  simp only [List.getLast?_append, hd] at isLast
  obtain rfl : d = '}' := Option.some.inj isLast
  exact absurd (List.mem_of_getLast? hd) (rightCurly_not_mem_letters k)

/-- The text behind a statement makes no longer phrase of what ends it. -/
theorem settled_of_end {c : Char} {cs rest : List Char} (before : List Char)
    (cut : c :: cs = (Lexeme.atStart c cs).text ++ rest)
    (ends : isStatementEnd (Lexeme.atStart c cs).kind) :
    ∀ tail, tail <:+ before ++ (Lexeme.atStart c cs).text → Settled tail rest := by
  have form := Lexeme.form_atStart c cs
  generalize Lexeme.atStart c cs = x at form cut ends ⊢
  cases form with
  | @punctuation p isSymbol =>
    rcases ends with ends | ends
    · cases ends
    · obtain rfl : p = .rightCurly := Kind.punctuation.inj ends
      obtain rfl : c = '}' := Punctuation.ofChar?_eq_some_iff.mp isSymbol
      exact fun tail suffix => settled_of_brace suffix
  | @keyword k noSymbol found =>
    rcases ends with ends | ends
    · obtain rfl : k = .endOfAssign := Kind.keyword.inj ends
      intro tail _ _ _ _
      have stands := List.find?_some found
      have cut : c :: cs = Keyword.endOfAssign.letters ++ rest := by
        simpa [Lexeme.ofKeyword, Keyword.takesTrailer] using cut
      rw [cut, Keyword.endsWell, List.drop_left] at stands
      cases rest with
      | nil => simp
      | cons d rest => simpa [Keyword.takesTrailer] using stands
    · cases ends
  | @name s => cases s <;> rcases ends with ends | ends <;> cases ends
  | _ => rcases ends with ends | ends <;> cases ends

/-- The tokens of a text through the end of a statement are those of the text up to there, if every
`Indent` among them has its `Dedent`. -/
theorem Layout.place_through {tab : UInt64} {text : List Char} {ts behind : List Token} {t : Token}
    (same : place tab ⟨0, []⟩ (pieces text) = ts ++ t :: behind) (ends : isStatementEnd t.kind)
    (closed : openIndents (ts ++ [t]) = []) :
    ∃ part rest, text = part ++ rest ∧ t.span.stop = byteLength part ∧
      pieces part <+: pieces text ∧ place tab ⟨0, []⟩ (pieces part) = ts ++ [t] := by
  have plain : t.kind.isLayout = false := by
    rcases ends with ends | ends <;> rw [ends] <;> rfl
  obtain ⟨s, c, cs, rest, scan, cut, piece, token⟩ := exists_located same plain
  obtain ⟨before, whole, size⟩ := scan.offset
  have stop := congrArg (fun t : Token => t.span.stop) token
  have ends : isStatementEnd (Lexeme.atStart c cs).kind := by
    rw [token] at ends
    exact ends
  have settled := settled_of_end before cut ends
  have cutPiece : c :: cs = (Piece.atStart c cs).source ++ rest := by rw [piece]; exact cut
  have next := scan.step cutPiece
  rw [piece] at next
  have emitted : s.tokens tab (pieces rest) (.lexeme (Lexeme.atStart c cs)) = [t] := by
    rw [token]
    rfl
  rw [emitted] at next
  -- The pieces up to the end of the statement, the last of them the lexeme of `t`.
  obtain ⟨ps, pieces_eq, -, -⟩ := scan.exists_pieces
  obtain ⟨qs, upTo, emits, after⟩ := next.exists_pieces
  rw [pieces_of_cut cutPiece, piece] at pieces_eq
  have last : qs = ps ++ [.lexeme (Lexeme.atStart c cs)] := by
    refine List.append_cancel_right (upTo.symm.trans (pieces_eq.trans ?_))
    simp
  generalize Lexeme.atStart c cs = x at cut settled stop last after next
  have parts : text = before ++ x.text ++ rest := by rw [whole, cut, List.append_assoc]
  rw [parts] at upTo
  have alone := pieces_front upTo settled
  have sealed_ : Sealed qs (pieces rest) := .inr ⟨x, by rw [last]; simp⟩
  obtain ⟨sameEmits, sameAfter⟩ := emits_of_sealed tab ⟨0, []⟩ sealed_
  have levels := next.levels.2
  rw [openLevels_eq_map, closed, List.map_nil, after, sameAfter] at levels
  refine ⟨before ++ x.text, rest, parts, ?_, ?_, ?_⟩
  · rw [byteLength_append, size]
    exact stop
  · rw [alone, parts, upTo]
    exact List.prefix_append qs _
  · have placed := place_append tab ⟨0, []⟩ qs []
    rw [List.append_nil, place_nil, State.closing, ← levels, List.map_nil, List.append_nil,
      ← sameEmits, ← emits] at placed
    rw [alone, placed]

/-- From a token in front of which no level is open, a source is read as if it began there. -/
theorem Layout.place_from {tab : UInt64} {source : List Char} {front behind : List Token}
    {t : Token} (same : place tab ⟨0, []⟩ (pieces source) = front ++ t :: behind)
    (plain : t.kind.isLayout = false) (closed : openIndents front = []) :
    ∃ before text, source = before ++ text ∧ t.span.start = byteLength before ∧
      pieces text <:+ pieces source ∧
      (place tab ⟨0, []⟩ (pieces text)).map (Token.shift (byteLength before)) = t :: behind := by
  obtain ⟨s, c, cs, rest, scan, -, -, token⟩ := exists_located same plain
  obtain ⟨before, whole, size⟩ := scan.offset
  have levels := scan.levels.2
  rw [openLevels_eq_map, closed, List.map_nil] at levels
  obtain ⟨ps, cut, -, -⟩ := scan.exists_pieces
  refine ⟨before, c :: cs, whole, by rw [token, size], ⟨ps, cut.symm⟩, ?_⟩
  have here := scan.place_eq
  rw [same] at here
  rw [List.append_cancel_left here, ← place_shift, size, Nat.zero_add, levels]

theorem Token.relocate_shift (n : Nat) (t : Token) : (t.shift n).relocate (· - n) = t := by
  simp [Token.shift, Token.relocate, Span.shift, Span.relocate]

/-- The text that a statement's span cuts out has the statement's tokens, moved to the front. -/
theorem tokenize_excerpt {tab : UInt64} {source : String} {front behind : List Token} {s : Stmt}
    (same : tokenize tab source = front ++ s.tokens ++ behind) (closed : openIndents front = []) :
    ∃ before part after, source.toList = before ++ part ++ after ∧
      s.tree.span = ⟨byteLength before, byteLength before + byteLength part⟩ ∧
      pieces part <:+: pieces source.toList ∧
      tokenize tab (String.ofList part) = (s.relocate (· - byteLength before)).tokens ∧
      ((s.relocate (· - byteLength before)).relocate (· + byteLength before)).tokens =
        s.tokens := by
  obtain ⟨t, ts, first, isFirst⟩ := s.exists_first
  obtain ⟨head, inner, u, edges, -, -, kind⟩ := s.exists_edges
  have ends : isStatementEnd u.kind := kind ▸ isStatementEnd_lastKind s.tree
  obtain ⟨us, last⟩ : ∃ us, s.tokens = us ++ [u] := ⟨head :: inner, edges⟩
  have plain := isLayout_statementStarts t.kind isFirst
  have here : tokenize tab source = front ++ t :: (ts ++ behind) := by simp [same, first]
  obtain ⟨before, text, whole, start, suffix, moved⟩ := place_from here plain closed
  -- In the text from the statement on, its tokens come first.
  have moved : (place tab ⟨0, []⟩ (pieces text)).map (Token.shift (byteLength before)) =
      us ++ u :: behind := by rw [moved, ← List.cons_append, ← first, last]; simp
  obtain ⟨vs, rest, placed, moved_vs, moved_rest⟩ := List.map_eq_append_iff.mp moved
  obtain ⟨v, behind', rfl, rfl, -⟩ := List.map_eq_cons_iff.mp moved_rest
  have tokens : vs ++ [v] = (s.relocate (· - byteLength before)).tokens := by
    rw [s.tokens_relocate, last, ← moved_vs]
    simp [Function.comp_def, Token.relocate_shift]
  have neutral := (s.relocate (· - byteLength before)).neutral []
  rw [← tokens] at neutral
  obtain ⟨part, after, cut, stop, front, alone⟩ := place_through placed ends neutral
  refine ⟨before, part, after, by rw [whole, cut, List.append_assoc], ?_,
    front.isInfix.trans suffix.isInfix, ?_, ?_⟩
  · rw [s.span_tree, first, spanOf_cons, ← first, last, start]
    simp [endOffset, Token.shift, Span.shift, stop, Nat.add_comm]
  · rw [tokenize, String.toList_ofList, alone, tokens]
  · rw [Stmt.tokens_relocate, ← tokens, last, ← moved_vs, ← Token.shift_eq_relocate]
    simp

/-- The span of a statement at the top level cuts this statement out of a source that is read. No
line of it overflows that does not in the source. -/
theorem ofSource_slice {tab : UInt64} {source : String} {p : Program}
    (accepted : Program.ofSource tab source = .ok p) :
    (∃ d : Derivation, d.tokens = tokenize tab source ∧ d.program = p) ∧
    ∀ d : Derivation, d.tokens = tokenize tab source →
      (d.standing.map Stmt.tree).Sublist p.statements ∧
      (∀ r ∈ p.statements, r ∈ d.standing.map Stmt.tree ∨ ∃ b ∈ d.blocks, r ∈ b.trees) ∧
      ∀ r ∈ d.standing.map Stmt.tree,
        Program.ofSource tab (String.ofList (slice source.toList r.span.start r.span.stop)) =
          .ok ⟨[r.relocate (· - r.span.start)]⟩ ∧
        (r.relocate (· - r.span.start)).relocate (· + r.span.start) = r ∧
        (OverflowsIn tab (String.ofList (slice source.toList r.span.start r.span.stop)) →
          OverflowsIn tab source) := by
  refine ⟨ofTokens_sound accepted, fun d same => ?_⟩
  have read := ofTokens_complete d
  rw [same] at read
  obtain rfl : p = d.program := Except.ok.inj (accepted.symm.trans read)
  refine ⟨d.standing_sublist, d.standing_or_blocks, fun r hr => ?_⟩
  obtain ⟨s, standing, rfl⟩ := List.mem_map.mp hr
  obtain ⟨front, behind, here, closed⟩ := Derivation.tokens_of_standing standing
  obtain ⟨before, part, after, whole, span, within, tokens, back⟩ :=
    tokenize_excerpt (same.symm.trans here) closed
  have cut : slice source.toList s.tree.span.start s.tree.span.stop = part := by
    rw [span, whole, slice_append]
  have start : s.tree.span.start = byteLength before := congrArg Span.start span
  rw [← start] at tokens back
  have alone := ofTokens_complete (.stmt (s.relocate (· - s.tree.span.start)) .nil)
  rw [Derivation.tokens, Derivation.tokens, List.append_nil] at alone
  rw [← Stmt.tree_relocate, ← Stmt.tree_relocate]
  refine ⟨?_, Stmt.tree_eq_of_tokens back, ?_⟩
  · rw [cut, Program.ofSource, tokens, alone]
    rfl
  · rw [cut]
    exact overflowsIn_of_pieces within

def loopSource : String :=
  "\x7b\n  lolsie £i \x7b\n" ++
  "    I would love to own a plot of land in the 1800s called £b and lease it to 7 owners\n" ++
  "  \x7d\n\x7d asia -> alone <- asia lolsies £n \x7b\n" ++
  "   I would love to own a plot of land in the 1800s called $x and lease it to £n owners\n" ++
  "\x7d europe -> last"

theorem ofSource_slice_loop :
    ∃ p, Program.ofSource 4 loopSource = .ok p ∧
      ∃ d : Derivation, d.tokens = tokenize 4 loopSource ∧ d.program = p ∧
        ∀ r ∈ d.standing.map Stmt.tree,
          Program.ofSource 4
              (String.ofList (slice loopSource.toList r.span.start r.span.stop)) =
            .ok ⟨[r.relocate (· - r.span.start)]⟩ := by
  have isRead : (Program.ofSource 4 loopSource).toOption.isSome = true := by decide +kernel
  cases accepted : Program.ofSource 4 loopSource with
  | error e => rw [accepted] at isRead; cases isRead
  | ok p =>
    obtain ⟨⟨d, same, tree⟩, all⟩ := ofSource_slice accepted
    exact ⟨p, rfl, d, same, tree, fun r hr => ((all d same).2.2 r hr).1⟩

end PhraseLang
