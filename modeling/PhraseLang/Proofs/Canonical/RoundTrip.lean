import PhraseLang.Proofs.Canonical.Margins

/-! Written programs read back.
Each statement, block and clause of a tree has a derivation, and the tokens of its text are those of
the derivation, whatever lines follow. So the text of a program is read as this program, apart from
the places of its tokens. -/
namespace PhraseLang
open Text Layout Grammar

section
variable {tab : UInt64} {levels : List UInt64} {rest : List Char}

theorem bareTokens_phrase {k : Keyword} (noTrailer : k.takesTrailer = false)
    (notIf : k ≠ .ifThen) (rest : List Char) :
    bareTokens tab levels (k.letters ++ ' ' :: rest) =
      (phraseWord k).val.bare :: bareTokens tab levels rest := by
  rw [bareTokens_keyword noTrailer (head_stop rfl rest) fun isIf => absurd isIf notIf,
    bareTokens_blank]
  rfl

theorem bareTokens_ifThen {condition : Expr} (writable : condition.Writable)
    (follows : Follows rest) :
    bareTokens tab levels (Keyword.ifThen.letters ++ ' ' :: (condition.source ++ rest)) =
      (phraseWord .ifThen).val.bare ::
        (condition.tokens.map Token.bare ++ bareTokens tab levels rest) := by
  obtain ⟨t, allowed, literal, front⟩ := writable.exists_front
  obtain ⟨more, same, behind⟩ := front rest follows
  have notLonger := not_longer_of_literal allowed literal behind
  rw [← same] at notLonger
  rw [bareTokens_keyword rfl (head_stop rfl _) fun _ => notLonger, bareTokens_blank,
    condition.bareTokens_source writable follows]
  rfl

end

/-- The text goes on in a new line, if at all. -/
def EndsLine (rest : List Char) : Prop := ∀ c ∈ rest.head?, c = '\n'

theorem EndsLine.ends {rest : List Char} (ends : EndsLine rest) :
    ∀ c ∈ rest.head?, Keyword.continuesWord c = false := by
  intro c first
  rw [ends c first]
  rfl

theorem endsLine_feed (rest : List Char) : EndsLine ('\n' :: rest) := by
  intro c first
  exact (Option.mem_some.mp first).symm

/-- A derivation of the tokens that the text of a statement has at some depth. -/
structure SpellsStatement (tab : UInt64) (depth : Nat) (s : Statement) (r : Stmt) : Prop where
  tree : r.tree.bare = s.bare
  tokens : ∀ rest, EndsLine rest →
    bareTokens tab (levelsAt depth) (s.source depth ++ rest) =
      r.tokens.map Token.bare ++ bareTokens tab (levelsAt depth) rest

structure SpellsBlock (tab : UInt64) (depth : Nat) (body : List Statement) (b : Block) : Prop where
  trees : b.trees.map Statement.bare = body.map Statement.bare
  tokens : ∀ rest,
    bareTokens tab (levelsAt depth)
        (braces depth (Statement.linesSource (depth + 1) body) ++ rest) =
      b.tokens.map Token.bare ++ bareTokens tab (levelsAt depth) rest

/-- The same for the lines of a body behind its first statement, through the margin in front of the
closing brace. -/
structure SpellsLines (tab : UInt64) (depth : Nat) (ss : List Statement) (b : Body) : Prop where
  trees : b.trees.map Statement.bare = ss.map Statement.bare
  tokens : ∀ rest, Starts rest →
    bareTokens tab (levelsAt (depth + 1))
        (Statement.linesSource (depth + 1) ss ++ '\n' :: (margin depth ++ rest)) =
      b.tokens.map Token.bare ++ Kind.dedent.bare "" :: bareTokens tab (levelsAt depth) rest

structure SpellsClauses (tab : UInt64) (depth : Nat) (a : Alternative) (c : Clauses) : Prop where
  tree : c.tree.relocate (fun _ => 0) = a.relocate fun _ => 0
  tokens : ∀ rest, EndsLine rest →
    bareTokens tab (levelsAt depth) (a.source depth ++ rest) =
      c.tokens.map Token.bare ++ bareTokens tab (levelsAt depth) rest

section
variable {tab : UInt64} {depth : Nat}

theorem SpellsBlock.relocateAll {body : List Statement} {b : Block}
    (spells : SpellsBlock tab depth body b) :
    Statement.relocateAll (fun _ => 0) b.trees = Statement.relocateAll (fun _ => 0) body := by
  rw [Statement.relocateAll_eq_map, Statement.relocateAll_eq_map]
  exact spells.trees

theorem exists_ofSigil {k : Kind} (named : k = .constant ∨ k = .binding) :
    ∃ s, k = Kind.ofSigil s := by
  rcases named with rfl | rfl
  · exact ⟨.dollar, rfl⟩
  · exact ⟨.pound, rfl⟩

theorem spells_assign (span : Span) {name : Token} {value : Expr}
    (named : name.kind = .constant ∨ name.kind = .binding) (isName : IsName name.text)
    (writable : value.WritableValue) :
    ∃ r, SpellsStatement tab depth (.assign span name value) r := by
  obtain ⟨v, rfl, read⟩ := exists_value_source tab (levelsAt depth) writable
  obtain ⟨s, kind⟩ := exists_ofSigil named
  refine ⟨.assign (phraseWord .define) ⟨name, by simpa using named⟩ (phraseWord .assign) v
    (phraseWord .endOfAssign), rfl, fun rest ends => ?_⟩
  have cut : (Statement.assign span name v.tree).source depth ++ rest =
      Keyword.define.letters ++ ' ' :: ((Expr.literalText name).toList ++ ' ' ::
        (Keyword.assign.letters ++ ' ' :: (v.tree.source ++ ' ' ::
          (Keyword.endOfAssign.letters ++ rest)))) := by
    simp [Statement.source]
  rw [cut, bareTokens_phrase rfl (by decide), bareTokens_name kind isName (head_stop rfl _),
    bareTokens_blank, bareTokens_phrase rfl (by decide), read _ (follows_end rest),
    bareTokens_blank, bareTokens_keyword (k := .endOfAssign) rfl ends.ends nofun]
  simp [Stmt.tokens, bare_phraseWord]

theorem spells_conditional (span : Span) {condition : Expr} (writable : condition.Writable)
    {body : List Statement} {clauses : Alternative} {b : Block} {c : Clauses}
    (spellsBody : SpellsBlock tab depth body b)
    (spellsClauses : SpellsClauses tab depth clauses c) :
    SpellsStatement tab depth (.conditional span condition body clauses)
      (.conditional (phraseWord .ifThen) ⟨condition, writable.grouped⟩ b c) where
  tree := by
    simp [Stmt.tree, Statement.bare, Statement.relocate, Span.relocate, spellsBody.relocateAll,
      spellsClauses.tree]
  tokens := by
    intro rest ends
    have cut : (Statement.conditional span condition body clauses).source depth ++ rest =
        Keyword.ifThen.letters ++ ' ' :: (condition.source ++ ' ' ::
          (braces depth (Statement.linesSource (depth + 1) body) ++
            (clauses.source depth ++ rest))) := by
      simp [Statement.source]
    rw [cut, bareTokens_ifThen writable (follows_braces _ _ _), bareTokens_blank, spellsBody.tokens,
      spellsClauses.tokens rest ends]
    simp [Stmt.tokens, Chain.tokens]

theorem spells_whileLoop (span : Span) {condition : Expr} (writable : condition.Writable)
    {body : List Statement} {b : Block} (spellsBody : SpellsBlock tab depth body b) :
    SpellsStatement tab depth (.whileLoop span condition body)
      (.whileLoop (word (.punctuation .leftParen) "(") ⟨condition, writable.grouped⟩
        (word (.punctuation .rightParen) ")") (phraseWord .whileLoop) b) where
  tree := by
    simp [Stmt.tree, Statement.bare, Statement.relocate, Span.relocate, spellsBody.relocateAll]
  tokens := by
    intro rest _
    have cut : (Statement.whileLoop span condition body).source depth ++ rest =
        Punctuation.leftParen.symbol :: (condition.source ++ Punctuation.rightParen.symbol :: ' ' ::
          (Keyword.whileLoop.letters ++ ' ' ::
            (braces depth (Statement.linesSource (depth + 1) body) ++ rest))) := by
      simp [Statement.source, Punctuation.symbol]
    rw [cut, bareTokens_punctuation, condition.bareTokens_source writable (follows_closing _),
      bareTokens_punctuation, bareTokens_blank, bareTokens_phrase rfl (by decide),
      spellsBody.tokens]
    simp only [Stmt.tokens, Chain.tokens, bare_word, List.map_cons, List.map_append,
      List.cons_append, List.append_assoc]
    rfl

theorem spells_countedLoop (span : Span) (count : UInt64) {binding : Token}
    (kind : binding.kind = .binding) (isName : IsName binding.text) {body : List Statement}
    {b : Block} (spellsBody : SpellsBlock tab depth body b) :
    SpellsStatement tab depth (.countedLoop span count binding body)
      (.countedLoop (word (.keyword .countedLoop) (toString count.toNat)) count
        (readUInt64?_toString count) ⟨binding, by simp [kind]⟩ b) where
  tree := by
    simp [Stmt.tree, Statement.bare, Statement.relocate, Span.relocate, spellsBody.relocateAll]
  tokens := by
    intro rest _
    have cut : (Statement.countedLoop span count binding body).source depth ++ rest =
        Keyword.countedLoop.letters ++ (List.replicate count.toNat Keyword.repeatMark ++ ' ' ::
          ((Expr.literalText binding).toList ++ ' ' ::
            (braces depth (Statement.linesSource (depth + 1) body) ++ rest))) := by
      simp [Statement.source]
    rw [cut, bareTokens_countedLoop _ fun c first => (Option.mem_some.mp first).symm,
      bareTokens_blank, bareTokens_name (s := .pound) kind isName (head_stop rfl _),
      bareTokens_blank, spellsBody.tokens]
    simp [Stmt.tokens, bare_word]

theorem spells_nil (fits : 4 * (depth + 1) < UInt64.size) :
    SpellsLines tab depth [] (.blank (word .newline "\n") .nil) where
  trees := rfl
  tokens := by
    intro rest starts
    rw [Statement.linesSource, List.nil_append, bareTokens_closing fits starts]
    rfl

theorem endsLine_lines (depth : Nat) (ss : List Statement) (rest : List Char) :
    EndsLine (Statement.linesSource depth ss ++ '\n' :: rest) := by
  cases ss with
  | nil => exact endsLine_feed rest
  | cons s ss =>
    rw [Statement.linesSource]
    exact endsLine_feed _

theorem spells_cons (fits : 4 * (depth + 1) < UInt64.size) {s : Statement} {ss : List Statement}
    {r : Stmt} {b : Body} (spellsHead : SpellsStatement tab (depth + 1) s r)
    (spellsTail : SpellsLines tab depth ss b) : SpellsLines tab depth (s :: ss) (.blank (word .newline "\n") (.stmt r b)) where
  trees := by
    simp [Body.trees, spellsHead.tree, spellsTail.trees]
  tokens := by
    intro rest starts
    have cut : Statement.linesSource (depth + 1) (s :: ss) ++ '\n' :: (margin depth ++ rest) =
        '\n' :: (margin (depth + 1) ++ (s.source (depth + 1) ++
          (Statement.linesSource (depth + 1) ss ++ '\n' :: (margin depth ++ rest)))) := by
      simp [Statement.linesSource]
    rw [cut, bareTokens_level fits (s.starts _ _), spellsHead.tokens _ (endsLine_lines _ _ _),
      spellsTail.tokens rest starts]
    simp [Body.tokens, bare_word]

/-- A body opens a level with its first statement, and closes it in front of its brace. -/
theorem spells_block (fits : 4 * (depth + 1) < UInt64.size) {s : Statement} {ss : List Statement}
    {r : Stmt} {b : Body} (spellsHead : SpellsStatement tab (depth + 1) s r)
    (spellsTail : SpellsLines tab depth ss b) :
    SpellsBlock tab depth (s :: ss)
      (.braces (word (.punctuation .leftCurly) "\x7b") (word .newline "\n") (word .indent "")
        (.stmt r b) (word .dedent "") (word (.punctuation .rightCurly) "\x7d")) where
  trees := by
    simp [Block.trees, Body.trees, spellsHead.tree, spellsTail.trees]
  tokens := by
    intro rest
    have cut : braces depth (Statement.linesSource (depth + 1) (s :: ss)) ++ rest =
        Punctuation.leftCurly.symbol :: '\n' :: (margin (depth + 1) ++ (s.source (depth + 1) ++
          (Statement.linesSource (depth + 1) ss ++ '\n' ::
            (margin depth ++ Punctuation.rightCurly.symbol :: rest)))) := by
      simp [braces, Statement.linesSource, Punctuation.symbol]
    rw [cut, bareTokens_punctuation, bareTokens_deeper fits (s.starts _ _),
      spellsHead.tokens _ (endsLine_lines _ _ _),
      spellsTail.tokens _ (starts_punctuation .rightCurly rest), bareTokens_punctuation]
    simp only [Block.tokens, Body.tokens, bare_word, List.map_cons, List.map_append, List.map_nil,
      List.cons_append, List.nil_append, List.append_assoc]
    rfl

theorem spells_otherwise (fits : 4 * depth < UInt64.size) {body : List Statement} {b : Block}
    (spellsBody : SpellsBlock tab depth body b) :
    SpellsClauses tab depth (.otherwise body)
      (.otherwise [word .newline "\n"] (phraseWord .otherwise) b) where
  tree := by
    simp [Clauses.tree, Alternative.relocate, spellsBody.relocateAll]
  tokens := by
    intro rest _
    have cut : (Alternative.otherwise body).source depth ++ rest =
        '\n' :: (margin depth ++ (Keyword.otherwise.letters ++ ' ' ::
          (braces depth (Statement.linesSource (depth + 1) body) ++ rest))) := by
      simp [Alternative.source]
    rw [cut, bareTokens_level fits (starts_keyword .otherwise _),
      bareTokens_phrase rfl (by decide), spellsBody.tokens]
    simp [Clauses.tokens, words, bare_word]

theorem spells_elseIf (fits : 4 * depth < UInt64.size) {condition : Expr}
    (writable : condition.Writable) {body : List Statement} {clauses : Alternative} {b : Block}
    {c : Clauses} (spellsBody : SpellsBlock tab depth body b)
    (spellsClauses : SpellsClauses tab depth clauses c) :
    SpellsClauses tab depth (.elseIf condition body clauses)
      (.elseIf [word .newline "\n"] (phraseWord .elseIf) ⟨condition, writable.grouped⟩ b
        c) where
  tree := by
    simp [Clauses.tree, Alternative.relocate, spellsBody.relocateAll, spellsClauses.tree]
  tokens := by
    intro rest ends
    have cut : (Alternative.elseIf condition body clauses).source depth ++ rest =
        '\n' :: (margin depth ++ (Keyword.elseIf.letters ++ ' ' :: (condition.source ++ ' ' ::
          (braces depth (Statement.linesSource (depth + 1) body) ++
            (clauses.source depth ++ rest))))) := by
      simp [Alternative.source]
    rw [cut, bareTokens_level fits (starts_keyword .elseIf _), bareTokens_phrase rfl (by decide),
      condition.bareTokens_source writable (follows_braces _ _ _), bareTokens_blank,
      spellsBody.tokens, spellsClauses.tokens rest ends]
    simp [Clauses.tokens, Chain.tokens, words, bare_word]

theorem spells_nothing : SpellsClauses tab depth .nothing .nothing :=
  ⟨rfl, fun _ _ => rfl⟩

end

section
variable (tab : UInt64)

mutual

/-- What is nested in a statement stands deeper by its height at most, so every margin in its text
fits 64 bits with the deepest one. -/
theorem exists_spells : ∀ (s : Statement) (depth : Nat), s.Writable →
    4 * (depth + s.height) < UInt64.size → ∃ r, SpellsStatement tab depth s r
  | .assign span _ _, _, ⟨named, isName, writable⟩, _ => spells_assign span named isName writable
  | .conditional span _ body clauses, depth, ⟨allowed, nonempty, all, others⟩, fits => by
    rw [Statement.height] at fits
    obtain ⟨b, spellsBody⟩ := exists_spells_block body depth nonempty all (by omega)
    obtain ⟨c, spellsClauses⟩ := exists_spells_clauses clauses depth others (by omega)
    exact ⟨_, spells_conditional span allowed spellsBody spellsClauses⟩
  | .whileLoop span _ body, depth, ⟨allowed, nonempty, all⟩, fits => by
    obtain ⟨b, spellsBody⟩ := exists_spells_block body depth nonempty all fits
    exact ⟨_, spells_whileLoop span allowed spellsBody⟩
  | .countedLoop span count _ body, depth, ⟨kind, isName, nonempty, all⟩, fits => by
    obtain ⟨b, spellsBody⟩ := exists_spells_block body depth nonempty all fits
    exact ⟨_, spells_countedLoop span count kind isName spellsBody⟩

theorem exists_spells_block : ∀ (body : List Statement) (depth : Nat), body ≠ [] →
    Statement.WritableAll body → 4 * (depth + (Statement.heightAll body + 1)) < UInt64.size →
    ∃ b, SpellsBlock tab depth body b
  | [], _, nonempty, _, _ => absurd rfl nonempty
  | s :: ss, depth, _, ⟨here, behind⟩, fits => by
    rw [Statement.heightAll] at fits
    obtain ⟨r, spellsHead⟩ := exists_spells s (depth + 1) here (by omega)
    obtain ⟨b, spellsTail⟩ := exists_spells_lines ss depth behind (by omega)
    exact ⟨_, spells_block (by omega) spellsHead spellsTail⟩

theorem exists_spells_lines : ∀ (ss : List Statement) (depth : Nat), Statement.WritableAll ss →
    4 * (depth + (Statement.heightAll ss + 1)) < UInt64.size → ∃ b, SpellsLines tab depth ss b
  | [], _, _, fits => ⟨_, spells_nil fits⟩
  | s :: ss, depth, ⟨here, behind⟩, fits => by
    rw [Statement.heightAll] at fits
    obtain ⟨r, spellsHead⟩ := exists_spells s (depth + 1) here (by omega)
    obtain ⟨b, spellsTail⟩ := exists_spells_lines ss depth behind (by omega)
    exact ⟨_, spells_cons (by omega) spellsHead spellsTail⟩

theorem exists_spells_clauses : ∀ (a : Alternative) (depth : Nat), a.Writable →
    4 * (depth + a.height) < UInt64.size → ∃ c, SpellsClauses tab depth a c
  | .nothing, _, _, _ => ⟨_, spells_nothing⟩
  | .otherwise body, depth, ⟨nonempty, all⟩, fits => by
    obtain ⟨b, spellsBody⟩ := exists_spells_block body depth nonempty all fits
    exact ⟨_, spells_otherwise (by omega) spellsBody⟩
  | .elseIf _ body clauses, depth, ⟨allowed, nonempty, all, others⟩, fits => by
    rw [Alternative.height] at fits
    obtain ⟨b, spellsBody⟩ := exists_spells_block body depth nonempty all (by omega)
    obtain ⟨c, spellsClauses⟩ := exists_spells_clauses clauses depth others (by omega)
    exact ⟨_, spells_elseIf (by omega) allowed spellsBody spellsClauses⟩

end

theorem bareTokens_feed {rest : List Char}
    (flush : ∀ c ∈ rest.head?, Piece.isIndentation c = false) :
    bareTokens tab [] ('\n' :: rest) = Kind.newline.bare "\n" :: bareTokens tab [] rest := by
  rw [bareTokens, pieces_feed flush, place_feed, List.map_cons, place_bare]
  rfl

/-- The lines of a program, each statement with a line break behind it. -/
theorem exists_spells_program {ss : List Statement} (writable : Statement.WritableAll ss)
    (fits : 4 * Statement.heightAll ss < UInt64.size) : ∃ d : Derivation,
      d.trees.map Statement.bare = ss.map Statement.bare ∧
      bareTokens tab [] (ss.flatMap fun s => s.source 0 ++ ['\n']) = d.tokens.map Token.bare := by
  induction ss with
  | nil =>
    refine ⟨.nil, rfl, ?_⟩
    simp [bareTokens, pieces, place_nil, State.closing, Derivation.tokens]
  | cons s ss ih =>
    obtain ⟨here, behind⟩ := writable
    rw [Statement.heightAll] at fits
    obtain ⟨r, spells⟩ := exists_spells tab s 0 here (by omega)
    obtain ⟨d, trees, tokens⟩ := ih behind (by omega)
    refine ⟨.stmt r (.blank (word .newline "\n") d), ?_, ?_⟩
    · simp [Derivation.trees, spells.tree, trees]
    · have first := spells.tokens _ (endsLine_feed (ss.flatMap fun s => s.source 0 ++ ['\n']))
      rw [levelsAt, bareTokens_feed tab (flush_program ss), tokens] at first
      rw [List.flatMap_cons, List.append_assoc, List.singleton_append, first, Derivation.tokens,
        Derivation.tokens, List.map_append]
      rfl

end

/-- Every program that can be written is read back from its text, apart from the places of its
tokens, and no line of the text overflows. Margins are measured in 64 bits: only a body nested 2^62
deep would stand behind more blanks than these count, and neither its text nor its tree has room in
memory. -/
theorem ofSource_source (tab : UInt64) {p : Program} (writable : p.Writable)
    (shallow : 4 * p.height < UInt64.size) :
    (∃ q, Program.ofSource tab p.source = .ok q ∧ q.bare = p.bare) ∧
      ¬ OverflowsIn tab p.source := by
  obtain ⟨d, trees, tokens⟩ := exists_spells_program tab writable shallow
  have same : (tokenize tab p.source).map Token.bare = d.tokens.map Token.bare := by
    rw [← tokens, tokenize, Program.source, String.toList_ofList]
    rfl
  obtain ⟨q, read, bare⟩ := ofTokens_of_bare same
  refine ⟨⟨q, read, bare.trans ?_⟩, Program.not_overflowsIn_source writable shallow tab⟩
  rw [Program.bare, Program.bare, Program.relocate, Program.relocate, Statement.relocateAll_eq_map,
    Statement.relocateAll_eq_map]
  exact congrArg Program.mk trees

/-- Every kind of statement and clause, and words that stand beside phrases. -/
def nestedProgram : Program :=
  let leaf (k : Kind) (text : String) : Expr := .literal (k.bare text)
  let plot (value : Expr) : Statement := .assign ⟨0, 0⟩ (Kind.constant.bare "acre") value
  ⟨[.conditional ⟨0, 0⟩
    (.binary (leaf .word "but") ((Kind.operator .minus).bare "-") (leaf .number "1.5"))
    [.countedLoop ⟨0, 0⟩ 2 (Kind.binding.bare "i") [plot (.binary (leaf .word "not")
      ((Kind.operator .plus).bare "+") (leaf .word "particularly"))]]
    (.elseIf (leaf .binding "b")
      [.whileLoop ⟨0, 0⟩ (leaf .word "europe") [plot (.array [leaf .number "1", leaf .word "x"])]]
      (.otherwise [plot (leaf .constant "acre")]))]⟩

theorem ofSource_source_nested :
    nestedProgram.source =
      "sweet but - 1.5 \x7b\n" ++
      "    lolsiess £i \x7b\n" ++
      "        I would love to own a plot of land in the 1800s called $acre and lease it to " ++
        "not + particularly owners\n" ++
      "    \x7d\n" ++
      "\x7d\n" ++
      "sweet but stout £b \x7b\n" ++
      "    (europe) yarp' \x7b\n" ++
      "        I would love to own a plot of land in the 1800s called $acre and lease it to " ++
        "1, x owners\n" ++
      "    \x7d\n" ++
      "\x7d\n" ++
      "stout \x7b\n" ++
      "    I would love to own a plot of land in the 1800s called $acre and lease it to " ++
        "$acre owners\n" ++
      "\x7d\n" ∧
    nestedProgram.Writable ∧ 4 * nestedProgram.height < UInt64.size ∧
    ∃ q, Program.ofSource 4 nestedProgram.source = .ok q ∧ q.bare = nestedProgram.bare := by
  have writable : nestedProgram.Writable := by decide +kernel
  have shallow : 4 * nestedProgram.height < UInt64.size := by decide +kernel
  exact ⟨by decide +kernel, writable, shallow, (ofSource_source 4 writable shallow).1⟩

end PhraseLang
