import PhraseLang.Proofs.Grammar.Completeness

/-! Where statements and closing braces stand in a derivation.
Each is listed with the tokens in front of it and the `Indent`s of the blocks around it. The tokens
alone tell the same: of the `Indent`s in front, exactly those of the blocks around have no `Dedent`
yet. -/
namespace PhraseLang.Grammar

/-- A statement, or the brace that closes the block of an `Indent`; `blocks` are the `Indent`s of
the blocks around, innermost first. -/
inductive Landmark where
  | statement (front : List Token) (s : Stmt) (blocks : List Token)
  | closing (front : List Token) (brace indent : Token) (blocks : List Token)

mutual

def Stmt.landmarks (front blocks : List Token) : Stmt → List Landmark
  | .assign first name becomes value last =>
    [.statement front (.assign first name becomes value last) blocks]
  | .conditional first condition body clauses =>
    .statement front (.conditional first condition body clauses) blocks ::
      (body.landmarks (front ++ first.val :: condition.tokens) blocks ++
        clauses.landmarks (front ++ first.val :: (condition.tokens ++ body.tokens)) blocks)
  | .whileLoop first condition close suffix body =>
    .statement front (.whileLoop first condition close suffix body) blocks ::
      body.landmarks (front ++ first.val :: (condition.tokens ++ [close.val, suffix.val])) blocks
  | .countedLoop first count counted binding body =>
    .statement front (.countedLoop first count counted binding body) blocks ::
      body.landmarks (front ++ [first.val, binding.val]) blocks

def Block.landmarks (front blocks : List Token) : Block → List Landmark
  | .braces opening lineBreak indent body dedent closing =>
    body.landmarks (front ++ [opening.val, lineBreak.val, indent.val]) (indent.val :: blocks) ++
      [.closing (front ++ opening.val :: lineBreak.val :: indent.val ::
        (body.tokens ++ [dedent.val])) closing.val indent.val blocks]

def Body.landmarks (front blocks : List Token) : Body → List Landmark
  | .nil => []
  | .blank lineBreak rest => rest.landmarks (front ++ [lineBreak.val]) blocks
  | .stmt s rest => s.landmarks front blocks ++ rest.landmarks (front ++ s.tokens) blocks

def Clauses.landmarks (front blocks : List Token) : Clauses → List Landmark
  | .nothing => []
  | .otherwise breaks first body => body.landmarks (front ++ (words breaks ++ [first.val])) blocks
  | .elseIf breaks first condition body rest =>
    body.landmarks (front ++ (words breaks ++ first.val :: condition.tokens)) blocks ++
      rest.landmarks (front ++ (words breaks ++ first.val :: (condition.tokens ++ body.tokens)))
        blocks

end

/-- The statements and closing braces of a program behind some tokens; no block is around. -/
def Derivation.landmarks (front : List Token) : Derivation → List Landmark
  | .nil => []
  | .blank lineBreak rest => rest.landmarks (front ++ [lineBreak.val])
  | .block b rest => b.landmarks front [] ++ rest.landmarks (front ++ b.tokens)
  | .stmt s rest => s.landmarks front [] ++ rest.landmarks (front ++ s.tokens)

mutual

/-- A statement and those in its bodies, in the order of the source. -/
def nested : Statement → List Statement
  | .assign span name value => [.assign span name value]
  | .conditional span condition body rest =>
    .conditional span condition body rest :: (nestedAll body ++ nestedClauses rest)
  | .whileLoop span condition body => .whileLoop span condition body :: nestedAll body
  | .countedLoop span count binding body =>
    .countedLoop span count binding body :: nestedAll body

def nestedAll : List Statement → List Statement
  | [] => []
  | s :: rest => nested s ++ nestedAll rest

def nestedClauses : Alternative → List Statement
  | .nothing => []
  | .otherwise body => nestedAll body
  | .elseIf _ body rest => nestedAll body ++ nestedClauses rest

end

def Landmark.tree? : Landmark → Option Statement
  | .statement _ s _ => some s.tree
  | .closing .. => none

mutual

theorem Stmt.filterMap_landmarks : ∀ (s : Stmt) (front blocks : List Token),
    (s.landmarks front blocks).filterMap Landmark.tree? = nested s.tree
  | .assign .., _, _ => rfl
  | .conditional first condition body clauses, front, blocks => by
    simp [Stmt.landmarks, Landmark.tree?, Stmt.tree, nested, body.filterMap_landmarks,
      clauses.filterMap_landmarks]
  | .whileLoop first condition close suffix body, front, blocks => by
    simp [Stmt.landmarks, Landmark.tree?, Stmt.tree, nested, body.filterMap_landmarks]
  | .countedLoop first count counted binding body, front, blocks => by
    simp [Stmt.landmarks, Landmark.tree?, Stmt.tree, nested, body.filterMap_landmarks]

theorem Block.filterMap_landmarks : ∀ (b : Block) (front blocks : List Token),
    (b.landmarks front blocks).filterMap Landmark.tree? = nestedAll b.trees
  | .braces _ _ _ body _ _, front, blocks => by
    simp [Block.landmarks, Landmark.tree?, Block.trees, body.filterMap_landmarks]

theorem Body.filterMap_landmarks : ∀ (b : Body) (front blocks : List Token),
    (b.landmarks front blocks).filterMap Landmark.tree? = nestedAll b.trees
  | .nil, _, _ => rfl
  | .blank _ rest, _, _ => rest.filterMap_landmarks _ _
  | .stmt s rest, front, blocks => by
    simp [Body.landmarks, Body.trees, nestedAll, s.filterMap_landmarks, rest.filterMap_landmarks]

theorem Clauses.filterMap_landmarks : ∀ (c : Clauses) (front blocks : List Token),
    (c.landmarks front blocks).filterMap Landmark.tree? = nestedClauses c.tree
  | .nothing, _, _ => rfl
  | .otherwise _ _ body, _, _ => body.filterMap_landmarks _ _
  | .elseIf breaks first condition body rest, front, blocks => by
    simp [Clauses.landmarks, Clauses.tree, nestedClauses, body.filterMap_landmarks,
      rest.filterMap_landmarks]

end

theorem nestedAll_append (a b : List Statement) :
    nestedAll (a ++ b) = nestedAll a ++ nestedAll b := by
  induction a with
  | nil => rfl
  | cons s a ih => simp [nestedAll, ih]

/-- No statement of a program is missing from its landmarks, and none is listed twice. -/
theorem Derivation.filterMap_landmarks : ∀ (d : Derivation) (front : List Token),
    (d.landmarks front).filterMap Landmark.tree? = nestedAll d.trees
  | .nil, _ => rfl
  | .blank _ rest, _ => rest.filterMap_landmarks _
  | .block b rest, front => by
    simp [Derivation.landmarks, Derivation.trees, b.filterMap_landmarks, nestedAll_append,
      rest.filterMap_landmarks]
  | .stmt s rest, front => by
    simp [Derivation.landmarks, Derivation.trees, nestedAll, s.filterMap_landmarks,
      rest.filterMap_landmarks]

/-- The `Indent`s that have no `Dedent` behind a token, given those in front of it. -/
def opens (indents : List Token) (t : Token) : List Token :=
  match t.kind with
  | .indent => t :: indents
  | .dedent => indents.tail
  | _ => indents

def openIndents (tokens : List Token) : List Token := tokens.foldl opens []

def Neutral (tokens : List Token) : Prop := ∀ indents, tokens.foldl opens indents = indents

theorem Neutral.append {a b : List Token} (first : Neutral a) (second : Neutral b) :
    Neutral (a ++ b) := by
  intro indents
  rw [List.foldl_append, first, second]

theorem neutral_of_kind {tokens : List Token}
    (plain : ∀ t ∈ tokens, t.kind ≠ .indent ∧ t.kind ≠ .dedent) : Neutral tokens := by
  intro indents
  induction tokens with
  | nil => rfl
  | cons t tokens ih =>
    have here := plain t List.mem_cons_self
    have same : opens indents t = indents := by
      obtain ⟨kind, text, span⟩ := t
      cases kind with
      | indent => exact absurd rfl here.1
      | dedent => exact absurd rfl here.2
      | _ => rfl
    rw [List.foldl_cons, same]
    exact ih fun u hu => plain u (List.mem_cons_of_mem t hu)

theorem Word.neutral {kinds : List Kind} (ws : List (Word kinds)) (noIndent : .indent ∉ kinds)
    (noDedent : .dedent ∉ kinds) : Neutral (words ws) := by
  refine neutral_of_kind fun t ht => ?_
  obtain ⟨w, _, rfl⟩ := List.mem_map.mp ht
  exact ⟨kind_ne w.property noIndent, kind_ne w.property noDedent⟩

theorem Neutral.cons {kinds : List Kind} {ts : List Token} (w : Word kinds) (neutral : Neutral ts)
    (noIndent : .indent ∉ kinds := by decide) (noDedent : .dedent ∉ kinds := by decide) :
    Neutral (w.val :: ts) :=
  (Word.neutral [w] noIndent noDedent).append neutral

theorem breaks_neutral (breaks : List (Word [.newline])) : Neutral (words breaks) :=
  Word.neutral breaks (by decide) (by decide)

theorem neutral_nil : Neutral [] := fun _ => rfl

theorem Chain.neutral (c : Chain) : Neutral c.tokens :=
  neutral_of_kind fun _ ht => ⟨Chain.kind_ne ht rfl rfl, Chain.kind_ne ht rfl rfl⟩

theorem Value.neutral (v : Value) : Neutral v.tokens :=
  neutral_of_kind fun _ ht =>
    ⟨Value.kind_ne ht rfl rfl (by decide), Value.kind_ne ht rfl rfl (by decide)⟩

theorem opens_indent (indent : Word [.indent]) (indents : List Token) :
    opens indents indent.val = indent.val :: indents := by
  rw [opens, indent.kind_eq]

theorem opens_dedent (dedent : Word [.dedent]) (indents : List Token) :
    opens indents dedent.val = indents.tail := by
  rw [opens, dedent.kind_eq]

mutual

theorem Stmt.neutral : ∀ s : Stmt, Neutral s.tokens
  | .assign first name becomes value last =>
    .cons first (.cons name (.cons becomes (value.neutral.append (.cons last neutral_nil))))
  | .conditional first condition body clauses =>
    .cons first ((condition.neutral.append body.neutral).append clauses.neutral)
  | .whileLoop first condition close suffix body =>
    .cons first (condition.neutral.append (.cons close (.cons suffix body.neutral)))
  | .countedLoop first _ _ binding body => .cons first (.cons binding body.neutral)

theorem Block.neutral : ∀ b : Block, Neutral b.tokens
  | .braces opening lineBreak indent body dedent closing => by
    have inner : Neutral (indent.val :: (body.tokens ++ [dedent.val])) := by
      intro indents
      rw [List.foldl_cons, opens_indent, List.foldl_append, body.neutral, List.foldl_cons,
        opens_dedent]
      rfl
    have brace : Neutral [closing.val] := .cons closing neutral_nil
    have whole := Neutral.cons opening (.cons lineBreak (inner.append brace))
    simpa [Block.tokens] using whole

theorem Body.neutral : ∀ b : Body, Neutral b.tokens
  | .nil => neutral_nil
  | .blank lineBreak rest => .cons lineBreak rest.neutral
  | .stmt s rest => s.neutral.append rest.neutral

theorem Clauses.neutral : ∀ c : Clauses, Neutral c.tokens
  | .nothing => neutral_nil
  | .otherwise breaks first body =>
    (breaks_neutral breaks).append (.cons first body.neutral)
  | .elseIf breaks first condition body rest =>
    (breaks_neutral breaks).append
      (.cons first ((condition.neutral.append body.neutral).append rest.neutral))

end

theorem openIndents_append {front ts : List Token} (neutral : Neutral ts) :
    openIndents (front ++ ts) = openIndents front := by
  rw [openIndents, List.foldl_append, neutral]
  rfl

theorem openIndents_concat (front : List Token) (t : Token) :
    openIndents (front ++ [t]) = opens (openIndents front) t := by
  rw [openIndents, List.foldl_append]
  rfl

/-- What the tokens around a landmark are. A closing brace stands behind the one `Dedent` of its
block, whose `Indent` is still open in front of that. -/
def Landmark.Fits (whole : List Token) : Landmark → Prop
  | .statement front s blocks =>
    openIndents front = blocks ∧ ∃ behind, whole = front ++ s.tokens ++ behind
  | .closing front brace indent blocks =>
    brace.kind = .punctuation .rightCurly ∧ openIndents front = blocks ∧
      (∃ behind, whole = front ++ brace :: behind) ∧
      ∃ inner dedent, front = inner ++ [dedent] ∧ dedent.kind = .dedent ∧
        openIndents inner = indent :: blocks ∧ ∀ t ∈ inner.getLast?, t.kind ≠ .dedent

theorem getLast?_kind_append {a b : List Token} {k : Kind}
    (first : ∀ t ∈ a.getLast?, t.kind ≠ k) (second : ∀ t ∈ b.getLast?, t.kind ≠ k) :
    ∀ t ∈ (a ++ b).getLast?, t.kind ≠ k := by
  intro t ht
  rw [List.getLast?_append] at ht
  cases last : b.getLast? with
  | none =>
    rw [last] at ht
    exact first t ht
  | some u =>
    rw [last] at ht
    exact second t (last ▸ ht)

theorem getLast?_kind_of_ne_nil {a b : List Token} {k : Kind} (nonempty : b ≠ [])
    (last : ∀ t ∈ b.getLast?, t.kind ≠ k) : ∀ t ∈ (a ++ b).getLast?, t.kind ≠ k := by
  intro t ht
  obtain ⟨u, isLast⟩ := Option.isSome_iff_exists.mp (List.getLast?_isSome.mpr nonempty)
  rw [List.getLast?_append, isLast] at ht
  exact last t (isLast ▸ ht)

theorem Block.getLast?_tokens (b : Block) : ∀ t ∈ b.tokens.getLast?, t.kind ≠ .dedent := by
  cases b with
  | braces opening lineBreak indent body dedent closing =>
    intro t ht
    have last : (Block.braces opening lineBreak indent body dedent closing).tokens.getLast? =
        some closing.val := by simp [Block.tokens, List.getLast?_cons]
    rw [last] at ht
    obtain rfl := Option.mem_some.mp ht
    exact kind_ne closing.property (by decide)

theorem getLast?_append_block (front : List Token) (b : Block) :
    ∀ t ∈ (front ++ b.tokens).getLast?, t.kind ≠ .dedent :=
  getLast?_kind_of_ne_nil b.tokens_ne_nil b.getLast?_tokens

theorem Clauses.getLast?_append : ∀ (front : List Token) (b : Block) (c : Clauses),
    ∀ t ∈ (front ++ b.tokens ++ c.tokens).getLast?, t.kind ≠ .dedent
  | front, b, .nothing => by
    rw [Clauses.tokens, List.append_nil]
    exact getLast?_append_block front b
  | front, b, .otherwise breaks first body => by
    have last := getLast?_append_block (front ++ b.tokens ++ (words breaks ++ [first.val])) body
    simpa [Clauses.tokens] using last
  | front, b, .elseIf breaks first condition body rest => by
    have last := Clauses.getLast?_append
      (front ++ b.tokens ++ (words breaks ++ first.val :: condition.tokens)) body rest
    simpa [Clauses.tokens] using last

theorem Stmt.getLast?_tokens (s : Stmt) : ∀ t ∈ s.tokens.getLast?, t.kind ≠ .dedent := by
  cases s with
  | assign first name becomes value last =>
    intro t ht
    have isLast : (Stmt.assign first name becomes value last).tokens.getLast? = some last.val := by
      simp [Stmt.tokens, List.getLast?_cons]
    rw [isLast] at ht
    obtain rfl := Option.mem_some.mp ht
    exact kind_ne last.property (by decide)
  | conditional first condition body clauses =>
    simpa [Stmt.tokens] using clauses.getLast?_append (first.val :: condition.tokens) body
  | whileLoop first condition close suffix body =>
    simpa [Stmt.tokens] using
      getLast?_append_block (first.val :: (condition.tokens ++ [close.val, suffix.val])) body
  | countedLoop first count counted binding body =>
    exact getLast?_append_block [first.val, binding.val] body

theorem Body.getLast?_tokens : ∀ b : Body, ∀ t ∈ b.tokens.getLast?, t.kind ≠ .dedent
  | .nil => by simp [Body.tokens]
  | .blank lineBreak rest => by
    have only : ∀ t ∈ [lineBreak.val].getLast?, t.kind ≠ .dedent := by
      intro t ht
      obtain rfl := Option.mem_some.mp ht
      exact kind_ne lineBreak.property (by decide)
    exact getLast?_kind_append only rest.getLast?_tokens
  | .stmt s rest => getLast?_kind_append s.getLast?_tokens rest.getLast?_tokens

mutual

theorem Stmt.landmarks_fit {whole : List Token} :
    ∀ (s : Stmt) {front : List Token} (behind : List Token) {blocks : List Token},
      whole = front ++ s.tokens ++ behind → openIndents front = blocks →
        ∀ m ∈ s.landmarks front blocks, m.Fits whole
  | .assign first name becomes value last, front, behind, blocks, here, opened => by
    intro m hm
    obtain rfl := List.mem_singleton.mp hm
    exact ⟨opened, behind, here⟩
  | .conditional first condition body clauses, front, behind, blocks, here, opened => by
    have guard : Neutral (first.val :: condition.tokens) := .cons first condition.neutral
    have guarded : Neutral (first.val :: (condition.tokens ++ body.tokens)) :=
      .cons first (condition.neutral.append body.neutral)
    intro m hm
    rcases List.mem_cons.mp hm with rfl | hm
    · exact ⟨opened, behind, here⟩
    · rcases List.mem_append.mp hm with hm | hm
      · exact body.landmarks_fit (clauses.tokens ++ behind) (by simp [here, Stmt.tokens])
          ((openIndents_append guard).trans opened) m hm
      · exact clauses.landmarks_fit behind (by simp [here, Stmt.tokens])
          ((openIndents_append guarded).trans opened) m hm
  | .whileLoop first condition close suffix body, front, behind, blocks, here, opened => by
    have guard : Neutral (first.val :: (condition.tokens ++ [close.val, suffix.val])) :=
      .cons first (condition.neutral.append (.cons close (.cons suffix neutral_nil)))
    intro m hm
    rcases List.mem_cons.mp hm with rfl | hm
    · exact ⟨opened, behind, here⟩
    · exact body.landmarks_fit behind (by simp [here, Stmt.tokens])
        ((openIndents_append guard).trans opened) m hm
  | .countedLoop first count counted binding body, front, behind, blocks, here, opened => by
    have head : Neutral [first.val, binding.val] := .cons first (.cons binding neutral_nil)
    intro m hm
    rcases List.mem_cons.mp hm with rfl | hm
    · exact ⟨opened, behind, here⟩
    · exact body.landmarks_fit behind (by simp [here, Stmt.tokens])
        ((openIndents_append head).trans opened) m hm

theorem Block.landmarks_fit {whole : List Token} :
    ∀ (b : Block) {front : List Token} (behind : List Token) {blocks : List Token},
      whole = front ++ b.tokens ++ behind → openIndents front = blocks →
        ∀ m ∈ b.landmarks front blocks, m.Fits whole
  | .braces opening lineBreak indent body dedent closing, front, behind, blocks, here, opened => by
    have start : Neutral [opening.val, lineBreak.val] :=
      .cons opening (.cons lineBreak neutral_nil)
    have inside : openIndents (front ++ [opening.val, lineBreak.val, indent.val]) =
        indent.val :: blocks := by
      have deeper := openIndents_concat (front ++ [opening.val, lineBreak.val]) indent.val
      rw [openIndents_append start, opened, opens_indent] at deeper
      simpa using deeper
    intro m hm
    rcases List.mem_append.mp hm with hm | hm
    · exact body.landmarks_fit (dedent.val :: closing.val :: behind)
        (by simp [here, Block.tokens]) inside m hm
    · obtain rfl := List.mem_singleton.mp hm
      -- Behind the body the `Indent` of this block is the innermost again.
      have inner : openIndents (front ++ [opening.val, lineBreak.val, indent.val] ++ body.tokens) =
          indent.val :: blocks := (openIndents_append body.neutral).trans inside
      have regroup : front ++ opening.val :: lineBreak.val :: indent.val ::
          (body.tokens ++ [dedent.val]) =
          front ++ [opening.val, lineBreak.val, indent.val] ++ body.tokens ++ [dedent.val] := by
        simp
      refine ⟨closing.kind_eq, ?_, ⟨behind, by simp [here, Block.tokens]⟩, _, dedent.val, regroup,
        dedent.kind_eq, inner, ?_⟩
      · rw [regroup, openIndents_concat, inner, opens_dedent]
        rfl
      · refine getLast?_kind_append (getLast?_kind_of_ne_nil nofun ?_) body.getLast?_tokens
        intro t ht
        obtain rfl := Option.mem_some.mp ht
        exact kind_ne indent.property (by decide)

theorem Body.landmarks_fit {whole : List Token} :
    ∀ (b : Body) {front : List Token} (behind : List Token) {blocks : List Token},
      whole = front ++ b.tokens ++ behind → openIndents front = blocks →
        ∀ m ∈ b.landmarks front blocks, m.Fits whole
  | .nil, _, _, _, _, _ => by simp [Body.landmarks]
  | .blank lineBreak rest, front, behind, blocks, here, opened => by
    have one : Neutral [lineBreak.val] := .cons lineBreak neutral_nil
    exact rest.landmarks_fit behind (by simp [here, Body.tokens])
      ((openIndents_append one).trans opened)
  | .stmt s rest, front, behind, blocks, here, opened => by
    intro m hm
    rcases List.mem_append.mp hm with hm | hm
    · exact s.landmarks_fit (rest.tokens ++ behind) (by simp [here, Body.tokens]) opened m hm
    · exact rest.landmarks_fit behind (by simp [here, Body.tokens])
        ((openIndents_append s.neutral).trans opened) m hm

theorem Clauses.landmarks_fit {whole : List Token} :
    ∀ (c : Clauses) {front : List Token} (behind : List Token) {blocks : List Token},
      whole = front ++ c.tokens ++ behind → openIndents front = blocks →
        ∀ m ∈ c.landmarks front blocks, m.Fits whole
  | .nothing, _, _, _, _, _ => by simp [Clauses.landmarks]
  | .otherwise breaks first body, front, behind, blocks, here, opened => by
    have head : Neutral (words breaks ++ [first.val]) :=
      (breaks_neutral breaks).append (.cons first neutral_nil)
    exact body.landmarks_fit behind (by simp [here, Clauses.tokens])
      ((openIndents_append head).trans opened)
  | .elseIf breaks first condition body rest, front, behind, blocks, here, opened => by
    have guard : Neutral (words breaks ++ first.val :: condition.tokens) :=
      (breaks_neutral breaks).append (.cons first condition.neutral)
    have guarded : Neutral (words breaks ++ first.val :: (condition.tokens ++ body.tokens)) :=
      (breaks_neutral breaks).append (.cons first (condition.neutral.append body.neutral))
    intro m hm
    rcases List.mem_append.mp hm with hm | hm
    · exact body.landmarks_fit (rest.tokens ++ behind) (by simp [here, Clauses.tokens])
        ((openIndents_append guard).trans opened) m hm
    · exact rest.landmarks_fit behind (by simp [here, Clauses.tokens])
        ((openIndents_append guarded).trans opened) m hm

end

theorem Derivation.landmarks_fit {whole : List Token} : ∀ (d : Derivation) {front : List Token},
    whole = front ++ d.tokens → openIndents front = [] →
      ∀ m ∈ d.landmarks front, m.Fits whole
  | .nil, _, _, _ => by simp [Derivation.landmarks]
  | .blank lineBreak rest, front, here, opened => by
    have one : Neutral [lineBreak.val] := .cons lineBreak neutral_nil
    exact rest.landmarks_fit (by simp [here, Derivation.tokens])
      ((openIndents_append one).trans opened)
  | .block b rest, front, here, opened => by
    intro m hm
    rcases List.mem_append.mp hm with hm | hm
    · exact b.landmarks_fit rest.tokens (by simp [here, Derivation.tokens]) opened m hm
    · exact rest.landmarks_fit (by simp [here, Derivation.tokens])
        ((openIndents_append b.neutral).trans opened) m hm
  | .stmt s rest, front, here, opened => by
    intro m hm
    rcases List.mem_append.mp hm with hm | hm
    · exact s.landmarks_fit rest.tokens (by simp [here, Derivation.tokens]) opened m hm
    · exact rest.landmarks_fit (by simp [here, Derivation.tokens])
        ((openIndents_append s.neutral).trans opened) m hm

end PhraseLang.Grammar
