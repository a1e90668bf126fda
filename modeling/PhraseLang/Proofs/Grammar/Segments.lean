import PhraseLang.Proofs.Grammar.Completeness

/-! The parts of statements as rows of their tokens.
Names, expressions and the statements of bodies are rows of tokens one behind the other, and all of
them stand between the first and the last token of their statement. -/
namespace PhraseLang

/-- The kind of the first token of a statement. -/
def Statement.firstKind : Statement → Kind
  | .assign .. => .keyword .define
  | .conditional .. => .keyword .ifThen
  | .whileLoop .. => .punctuation .leftParen
  | .countedLoop .. => .keyword .countedLoop

def Statement.lastKind : Statement → Kind
  | .assign .. => .keyword .endOfAssign
  | _ => .punctuation .rightCurly

namespace Grammar

def Body.segments : Body → List (List Token)
  | .nil => []
  | .blank _ rest => rest.segments
  | .stmt s rest => s.tokens :: rest.segments

def Block.segments : Block → List (List Token)
  | .braces _ _ _ body _ _ => body.segments

def Clauses.segments : Clauses → List (List Token)
  | .nothing => []
  | .otherwise _ _ body => body.segments
  | .elseIf _ _ condition body rest => condition.tokens :: (body.segments ++ rest.segments)

def Stmt.segments : Stmt → List (List Token)
  | .assign _ name _ value _ => [[name.val], value.tokens]
  | .conditional _ condition body clauses =>
    condition.tokens :: (body.segments ++ clauses.segments)
  | .whileLoop _ condition _ _ body => condition.tokens :: body.segments
  | .countedLoop _ _ _ binding body => [binding.val] :: body.segments

def Derivation.segments : Derivation → List (List Token)
  | .nil => []
  | .blank _ rest => rest.segments
  | .block b rest => b.segments ++ rest.segments
  | .stmt s rest => s.tokens :: rest.segments

theorem Stmt.span_tree (s : Stmt) : s.tree.span = spanOf s.tokens := by
  cases s <;> rfl

theorem Body.map_span (b : Body) : b.trees.map Statement.span = b.segments.map spanOf := by
  cases b with
  | nil => rfl
  | blank _ rest => exact rest.map_span
  | stmt s rest => simp [Body.trees, Body.segments, s.span_tree, rest.map_span]

theorem Block.map_span (b : Block) : b.trees.map Statement.span = b.segments.map spanOf := by
  cases b with
  | braces _ _ _ body => exact body.map_span

theorem Derivation.map_span (d : Derivation) :
    d.trees.map Statement.span = d.segments.map spanOf := by
  induction d with
  | nil => rfl
  | blank _ d ih => exact ih
  | block b d ih => simp [Derivation.trees, Derivation.segments, b.map_span, ih]
  | stmt s d ih => simp [Derivation.trees, Derivation.segments, s.span_tree, ih]

theorem Body.segments_sublist (b : Body) : b.segments.flatten.Sublist b.tokens := by
  cases b with
  | nil => exact List.Sublist.refl _
  | blank lineBreak rest => exact rest.segments_sublist.cons lineBreak.val
  | stmt s rest => exact (List.Sublist.refl s.tokens).append rest.segments_sublist

theorem Block.exists_edges (b : Block) :
    ∃ inner last, b.tokens = inner ++ [last] ∧ b.segments.flatten.Sublist inner ∧
      last.kind = .punctuation .rightCurly := by
  cases b with
  | braces opening lineBreak indent body dedent closing =>
    refine ⟨[opening.val, lineBreak.val, indent.val] ++ (body.tokens ++ [dedent.val]), closing.val,
      by simp [Block.tokens], ?_, closing.kind_eq⟩
    exact (body.segments_sublist.trans (List.sublist_append_left _ _)).trans
      (List.sublist_append_right _ _)

theorem Block.segments_sublist (b : Block) : b.segments.flatten.Sublist b.tokens := by
  obtain ⟨inner, last, same, inside, -⟩ := b.exists_edges
  rw [same]
  exact inside.trans (List.sublist_append_left _ _)

theorem Clauses.exists_edges (b : Block) (c : Clauses) :
    ∃ inner last, b.tokens ++ c.tokens = inner ++ [last] ∧
      (b.segments ++ c.segments).flatten.Sublist inner ∧
      last.kind = .punctuation .rightCurly := by
  cases c with
  | nothing =>
    rw [Clauses.tokens, Clauses.segments, List.append_nil, List.append_nil]
    exact b.exists_edges
  | otherwise breaks first body =>
    obtain ⟨inner, last, same, inside, kind⟩ := body.exists_edges
    refine ⟨b.tokens ++ (words breaks ++ first.val :: inner), last,
      by simp [Clauses.tokens, same], ?_, kind⟩
    rw [Clauses.segments, List.flatten_append]
    exact b.segments_sublist.append
      ((inside.cons first.val).trans (List.sublist_append_right _ _))
  | elseIf breaks first condition body rest =>
    obtain ⟨inner, last, same, inside, kind⟩ := Clauses.exists_edges body rest
    refine ⟨b.tokens ++ (words breaks ++ first.val :: (condition.tokens ++ inner)), last,
      by simp [Clauses.tokens, same], ?_, kind⟩
    rw [Clauses.segments, List.flatten_append, List.flatten_cons]
    exact b.segments_sublist.append
      ((((List.Sublist.refl condition.tokens).append inside).cons first.val).trans
        (List.sublist_append_right _ _))

/-- The parts of a statement stand between its first and its last token. -/
theorem Stmt.exists_edges (s : Stmt) :
    ∃ first inner last, s.tokens = first :: (inner ++ [last]) ∧
      s.segments.flatten.Sublist inner ∧ first.kind = s.tree.firstKind ∧
      last.kind = s.tree.lastKind := by
  cases s with
  | assign first name becomes value last =>
    refine ⟨first.val, name.val :: becomes.val :: value.tokens, last.val, by simp [Stmt.tokens], ?_,
      first.kind_eq, last.kind_eq⟩
    simp [Stmt.segments]
  | conditional first condition body clauses =>
    obtain ⟨inner, last, same, inside, kind⟩ := Clauses.exists_edges body clauses
    refine ⟨first.val, condition.tokens ++ inner, last, by simp [Stmt.tokens, same], ?_,
      first.kind_eq, kind⟩
    exact (List.Sublist.refl condition.tokens).append inside
  | whileLoop first condition close suffix body =>
    obtain ⟨inner, last, same, inside, kind⟩ := body.exists_edges
    refine ⟨first.val, condition.tokens ++ close.val :: suffix.val :: inner, last,
      by simp [Stmt.tokens, same], ?_, first.kind_eq, kind⟩
    exact (List.Sublist.refl condition.tokens).append ((inside.cons suffix.val).cons close.val)
  | countedLoop first count counted binding body =>
    obtain ⟨inner, last, same, inside, kind⟩ := body.exists_edges
    exact ⟨first.val, binding.val :: inner, last, by simp [Stmt.tokens, same],
      inside.cons_cons binding.val, first.kind_eq, kind⟩

theorem Derivation.segments_sublist (d : Derivation) : d.segments.flatten.Sublist d.tokens := by
  induction d with
  | nil => exact List.Sublist.refl _
  | blank lineBreak d ih => exact ih.cons lineBreak.val
  | block b d ih =>
    rw [Derivation.segments, List.flatten_append]
    exact b.segments_sublist.append ih
  | stmt s d ih => exact (List.Sublist.refl s.tokens).append ih

/-- A row that begins with a token of its own, not with a change of layout. -/
def IsPart (row : List Token) : Prop := ∃ t ts, row = t :: ts ∧ t.kind.isLayout = false

theorem IsPart.ne_nil {row : List Token} (part : IsPart row) : row ≠ [] := by
  obtain ⟨t, ts, rfl, -⟩ := part
  exact List.cons_ne_nil t ts

theorem isLayout_of_isLiteral {k : Kind} (literal : k.isLiteral = true) : k.isLayout = false := by
  cases k <;> first | rfl | cases literal

theorem Chain.isPart (c : Chain) : IsPart c.tokens := by
  obtain ⟨t, steps, same, literal, -⟩ := c.exists_steps
  exact ⟨t, _, same, isLayout_of_isLiteral literal⟩

theorem Value.isPart (v : Value) : IsPart v.tokens := by
  cases v with
  | one c => exact c.isPart
  | many first rest more =>
    obtain ⟨t, ts, same, plain⟩ := first.isPart
    exact ⟨t, ts ++ rest.flatMap fun p => p.1.val :: p.2.tokens, by simp [Value.tokens, same],
      plain⟩

theorem Stmt.isPart (s : Stmt) : IsPart s.tokens := by
  obtain ⟨t, ts, same, starts⟩ := s.exists_first
  exact ⟨t, ts, same, isLayout_statementStarts _ starts⟩

theorem isPart_word {kinds : List Kind} (w : Word kinds)
    (plain : ∀ k ∈ kinds, k.isLayout = false) : IsPart [w.val] :=
  ⟨w.val, [], rfl, plain w.val.kind w.property⟩

theorem Body.isPart_segments (b : Body) : ∀ row ∈ b.segments, IsPart row := by
  cases b with
  | nil => exact fun _ h => absurd h List.not_mem_nil
  | blank _ rest => exact rest.isPart_segments
  | stmt s rest => exact List.forall_mem_cons.mpr ⟨s.isPart, rest.isPart_segments⟩

theorem Block.isPart_segments (b : Block) : ∀ row ∈ b.segments, IsPart row := by
  cases b with
  | braces _ _ _ body => exact body.isPart_segments

theorem Clauses.isPart_segments (c : Clauses) : ∀ row ∈ c.segments, IsPart row := by
  cases c with
  | nothing => exact fun _ h => absurd h List.not_mem_nil
  | otherwise _ _ body => exact body.isPart_segments
  | elseIf _ _ condition body rest =>
    exact List.forall_mem_cons.mpr ⟨condition.isPart,
      List.forall_mem_append.mpr ⟨body.isPart_segments, rest.isPart_segments⟩⟩

theorem Stmt.isPart_segments (s : Stmt) : ∀ row ∈ s.segments, IsPart row := by
  cases s with
  | assign first name becomes value last =>
    exact List.forall_mem_cons.mpr ⟨isPart_word name (by decide),
      List.forall_mem_singleton.mpr value.isPart⟩
  | conditional first condition body clauses =>
    exact List.forall_mem_cons.mpr ⟨condition.isPart,
      List.forall_mem_append.mpr ⟨body.isPart_segments, clauses.isPart_segments⟩⟩
  | whileLoop first condition close suffix body =>
    exact List.forall_mem_cons.mpr ⟨condition.isPart, body.isPart_segments⟩
  | countedLoop first count counted binding body =>
    exact List.forall_mem_cons.mpr ⟨isPart_word binding (by decide), body.isPart_segments⟩

theorem Derivation.isPart_segments (d : Derivation) : ∀ row ∈ d.segments, IsPart row := by
  induction d with
  | nil => exact fun _ h => absurd h List.not_mem_nil
  | blank _ d ih => exact ih
  | block b d ih => exact List.forall_mem_append.mpr ⟨b.isPart_segments, ih⟩
  | stmt s d ih => exact List.forall_mem_cons.mpr ⟨s.isPart, ih⟩

end Grammar

end PhraseLang
