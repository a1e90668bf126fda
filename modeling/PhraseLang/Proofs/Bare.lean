import PhraseLang.Proofs.Relocation

/-! Programs without their places.
Taking every offset to 0 leaves of a token its kind and its text. These alone decide what a row of
tokens is read as: a derivation of one row is carried over to any row of the same kinds and
texts. -/
namespace PhraseLang

def Token.bare (t : Token) : Token := t.relocate fun _ => 0

def Expr.bare (e : Expr) : Expr := e.relocate fun _ => 0

def Statement.bare (s : Statement) : Statement := s.relocate fun _ => 0

def Statement.bareAll (ss : List Statement) : List Statement :=
  Statement.relocateAll (fun _ => 0) ss

def Alternative.bare (a : Alternative) : Alternative := a.relocate fun _ => 0

def Program.bare (p : Program) : Program := p.relocate fun _ => 0

section
variable (span : Span) (name : Token) (e : Expr) (count : UInt64) (body : List Statement)
  (rest : Alternative)

@[simp] theorem Statement.bare_assign :
    (assign span name e).bare = assign ⟨0, 0⟩ name.bare e.bare := rfl

@[simp] theorem Statement.bare_conditional :
    (conditional span e body rest).bare =
      conditional ⟨0, 0⟩ e.bare (bareAll body) rest.bare := rfl

@[simp] theorem Statement.bare_whileLoop :
    (whileLoop span e body).bare = whileLoop ⟨0, 0⟩ e.bare (bareAll body) := rfl

@[simp] theorem Statement.bare_countedLoop :
    (countedLoop span count name body).bare =
      countedLoop ⟨0, 0⟩ count name.bare (bareAll body) := rfl

@[simp] theorem Statement.bareAll_cons (s : Statement) :
    bareAll (s :: body) = s.bare :: bareAll body := rfl

@[simp] theorem Alternative.bare_otherwise :
    (otherwise body).bare = otherwise (Statement.bareAll body) := rfl

@[simp] theorem Alternative.bare_elseIf :
    (elseIf e body rest).bare = elseIf e.bare (Statement.bareAll body) rest.bare := rfl

end

namespace Grammar
variable {f : Nat → Nat} {ts rest : List Token}

theorem exists_word {kinds : List Kind} (w : Word kinds)
    (same : ts.map (Token.relocate f) = w.val :: rest) :
    ∃ (v : Word kinds) (us : List Token), ts = v.val :: us ∧ v.relocate f = w ∧
      us.map (Token.relocate f) = rest := by
  obtain ⟨t, us, rfl, here, behind⟩ := List.map_eq_cons_iff.mp same
  have allowed : t.kind ∈ kinds := by
    have kind := w.property
    rw [← here] at kind
    exact kind
  exact ⟨⟨t, allowed⟩, us, rfl, Subtype.ext here, behind⟩

theorem exists_words {kinds : List Kind} (ws : List (Word kinds))
    (same : ts.map (Token.relocate f) = words ws) :
    ∃ vs : List (Word kinds), words vs = ts ∧ vs.map (Word.relocate f) = ws := by
  induction ws generalizing ts with
  | nil => exact ⟨[], (List.map_eq_nil_iff.mp same).symm, rfl⟩
  | cons w ws ih =>
    obtain ⟨v, us, rfl, rfl, behind⟩ := exists_word w same
    obtain ⟨vs, rfl, rfl⟩ := ih behind
    exact ⟨v :: vs, rfl, rfl⟩

theorem exists_expr : ∀ {e : Expr} {ts : List Token}, e.Grouped →
    ts.map (Token.relocate f) = e.tokens → ∃ d : Expr, d.tokens = ts ∧ d.relocate f = e
  | .literal t, _, _, same => by
    obtain ⟨u, us, rfl, rfl, none⟩ := List.map_eq_cons_iff.mp same
    obtain rfl := List.map_eq_nil_iff.mp none
    exact ⟨.literal u, rfl, rfl⟩
  | .binary left op right, _, ⟨_, groupedLeft, groupedRight, _, _⟩, same => by
    obtain ⟨a, b, rfl, sameLeft, behind⟩ := List.map_eq_append_iff.mp same
    obtain ⟨u, c, rfl, rfl, sameRight⟩ := List.map_eq_cons_iff.mp behind
    obtain ⟨l, rfl, rfl⟩ := exists_expr groupedLeft sameLeft
    obtain ⟨r, rfl, rfl⟩ := exists_expr groupedRight sameRight
    exact ⟨.binary l u r, rfl, rfl⟩

theorem exists_chain (c : Chain) (same : ts.map (Token.relocate f) = c.tokens) :
    ∃ d : Chain, d.tokens = ts ∧ d.relocate f = c := by
  obtain ⟨tree, grouped⟩ := c
  obtain ⟨e, rfl, rfl⟩ := exists_expr grouped same
  exact ⟨⟨e, Expr.grouped_relocate.mp grouped⟩, rfl, rfl⟩

theorem exists_tail (elements : Tail) (same : ts.map (Token.relocate f) = elements.tokens) :
    ∃ more : Tail, more.tokens = ts ∧
      more.map (fun p => (p.1.relocate f, p.2.relocate f)) = elements := by
  induction elements generalizing ts with
  | nil => exact ⟨[], (List.map_eq_nil_iff.mp same).symm, rfl⟩
  | cons p elements ih =>
    obtain ⟨comma, c⟩ := p
    obtain ⟨a, b, rfl, here, behind⟩ := List.map_eq_append_iff.mp same
    obtain ⟨comma, us, rfl, rfl, inside⟩ := exists_word comma here
    obtain ⟨c, rfl, rfl⟩ := exists_chain c inside
    obtain ⟨more, rfl, rfl⟩ := ih behind
    exact ⟨(comma, c) :: more, rfl, rfl⟩

theorem exists_value (v : Value) (same : ts.map (Token.relocate f) = v.tokens) :
    ∃ u : Value, u.tokens = ts ∧ u.relocate f = v := by
  cases v with
  | one c =>
    obtain ⟨d, rfl, rfl⟩ := exists_chain c same
    exact ⟨.one d, rfl, rfl⟩
  | many first elements more =>
    obtain ⟨a, b, rfl, here, behind⟩ := List.map_eq_append_iff.mp same
    obtain ⟨first, rfl, rfl⟩ := exists_chain first here
    obtain ⟨elements, rfl, rfl⟩ := exists_tail elements behind
    exact ⟨.many first elements (by simpa using more), rfl, rfl⟩

mutual

theorem exists_stmt : ∀ (s : Stmt) {ts : List Token}, ts.map (Token.relocate f) = s.tokens →
    ∃ r : Stmt, r.tokens = ts ∧ r.relocate f = s
  | .assign first name becomes value last, _, same => by
    obtain ⟨first, _, rfl, rfl, same₁⟩ := exists_word first same
    obtain ⟨name, _, rfl, rfl, same₂⟩ := exists_word name same₁
    obtain ⟨becomes, _, rfl, rfl, same₃⟩ := exists_word becomes same₂
    obtain ⟨_, _, rfl, here, same₄⟩ := List.map_eq_append_iff.mp same₃
    obtain ⟨value, rfl, rfl⟩ := exists_value value here
    obtain ⟨last, _, rfl, rfl, same₅⟩ := exists_word last same₄
    obtain rfl := List.map_eq_nil_iff.mp same₅
    exact ⟨.assign first name becomes value last, rfl, rfl⟩
  | .conditional first condition body clauses, _, same => by
    obtain ⟨first, _, rfl, rfl, same₁⟩ := exists_word first same
    obtain ⟨_, _, rfl, guarded, behind⟩ := List.map_eq_append_iff.mp same₁
    obtain ⟨_, _, rfl, here, inside⟩ := List.map_eq_append_iff.mp guarded
    obtain ⟨condition, rfl, rfl⟩ := exists_chain condition here
    obtain ⟨body, rfl, rfl⟩ := exists_block body inside
    obtain ⟨clauses, rfl, rfl⟩ := exists_clauses clauses behind
    exact ⟨.conditional first condition body clauses, rfl, rfl⟩
  | .whileLoop first condition close suffix body, _, same => by
    obtain ⟨first, _, rfl, rfl, same₁⟩ := exists_word first same
    obtain ⟨_, _, rfl, here, same₂⟩ := List.map_eq_append_iff.mp same₁
    obtain ⟨condition, rfl, rfl⟩ := exists_chain condition here
    obtain ⟨close, _, rfl, rfl, same₃⟩ := exists_word close same₂
    obtain ⟨suffix, _, rfl, rfl, inside⟩ := exists_word suffix same₃
    obtain ⟨body, rfl, rfl⟩ := exists_block body inside
    exact ⟨.whileLoop first condition close suffix body, rfl, rfl⟩
  | .countedLoop first count counted binding body, _, same => by
    obtain ⟨first, _, rfl, rfl, same₁⟩ := exists_word first same
    obtain ⟨binding, _, rfl, rfl, inside⟩ := exists_word binding same₁
    obtain ⟨body, rfl, rfl⟩ := exists_block body inside
    exact ⟨.countedLoop first count counted binding body, rfl, rfl⟩

theorem exists_block : ∀ (b : Block) {ts : List Token}, ts.map (Token.relocate f) = b.tokens →
    ∃ c : Block, c.tokens = ts ∧ c.relocate f = b
  | .braces opening lineBreak indent body dedent closing, _, same => by
    obtain ⟨opening, _, rfl, rfl, same₁⟩ := exists_word opening same
    obtain ⟨lineBreak, _, rfl, rfl, same₂⟩ := exists_word lineBreak same₁
    obtain ⟨indent, _, rfl, rfl, same₃⟩ := exists_word indent same₂
    obtain ⟨_, _, rfl, here, same₄⟩ := List.map_eq_append_iff.mp same₃
    obtain ⟨body, rfl, rfl⟩ := exists_body body here
    obtain ⟨dedent, _, rfl, rfl, same₅⟩ := exists_word dedent same₄
    obtain ⟨closing, _, rfl, rfl, same₆⟩ := exists_word closing same₅
    obtain rfl := List.map_eq_nil_iff.mp same₆
    exact ⟨.braces opening lineBreak indent body dedent closing, rfl, rfl⟩

theorem exists_body : ∀ (b : Body) {ts : List Token}, ts.map (Token.relocate f) = b.tokens →
    ∃ c : Body, c.tokens = ts ∧ c.relocate f = b
  | .nil, _, same => ⟨.nil, (List.map_eq_nil_iff.mp same).symm, rfl⟩
  | .blank lineBreak rest, _, same => by
    obtain ⟨lineBreak, _, rfl, rfl, behind⟩ := exists_word lineBreak same
    obtain ⟨rest, rfl, rfl⟩ := exists_body rest behind
    exact ⟨.blank lineBreak rest, rfl, rfl⟩
  | .stmt s rest, _, same => by
    obtain ⟨_, _, rfl, here, behind⟩ := List.map_eq_append_iff.mp same
    obtain ⟨s, rfl, rfl⟩ := exists_stmt s here
    obtain ⟨rest, rfl, rfl⟩ := exists_body rest behind
    exact ⟨.stmt s rest, rfl, rfl⟩

theorem exists_clauses : ∀ (c : Clauses) {ts : List Token},
    ts.map (Token.relocate f) = c.tokens → ∃ d : Clauses, d.tokens = ts ∧ d.relocate f = c
  | .nothing, _, same => ⟨.nothing, (List.map_eq_nil_iff.mp same).symm, rfl⟩
  | .otherwise breaks first body, _, same => by
    obtain ⟨_, _, rfl, here, same₁⟩ := List.map_eq_append_iff.mp same
    obtain ⟨breaks, rfl, rfl⟩ := exists_words breaks here
    obtain ⟨first, _, rfl, rfl, inside⟩ := exists_word first same₁
    obtain ⟨body, rfl, rfl⟩ := exists_block body inside
    exact ⟨.otherwise breaks first body, rfl, rfl⟩
  | .elseIf breaks first condition body rest, _, same => by
    obtain ⟨_, _, rfl, before, same₁⟩ := List.map_eq_append_iff.mp same
    obtain ⟨breaks, rfl, rfl⟩ := exists_words breaks before
    obtain ⟨first, _, rfl, rfl, same₂⟩ := exists_word first same₁
    obtain ⟨_, _, rfl, guarded, behind⟩ := List.map_eq_append_iff.mp same₂
    obtain ⟨_, _, rfl, here, inside⟩ := List.map_eq_append_iff.mp guarded
    obtain ⟨condition, rfl, rfl⟩ := exists_chain condition here
    obtain ⟨body, rfl, rfl⟩ := exists_block body inside
    obtain ⟨rest, rfl, rfl⟩ := exists_clauses rest behind
    exact ⟨.elseIf breaks first condition body rest, rfl, rfl⟩

end

theorem exists_derivation (d : Derivation) (same : ts.map (Token.relocate f) = d.tokens) :
    ∃ e : Derivation, e.tokens = ts ∧ e.relocate f = d := by
  induction d generalizing ts with
  | nil => exact ⟨.nil, (List.map_eq_nil_iff.mp same).symm, rfl⟩
  | blank lineBreak d ih =>
    obtain ⟨lineBreak, _, rfl, rfl, behind⟩ := exists_word lineBreak same
    obtain ⟨e, rfl, rfl⟩ := ih behind
    exact ⟨.blank lineBreak e, rfl, rfl⟩
  | block b d ih =>
    obtain ⟨_, _, rfl, here, behind⟩ := List.map_eq_append_iff.mp same
    obtain ⟨b, rfl, rfl⟩ := exists_block b here
    obtain ⟨e, rfl, rfl⟩ := ih behind
    exact ⟨.block b e, rfl, rfl⟩
  | stmt s d ih =>
    obtain ⟨_, _, rfl, here, behind⟩ := List.map_eq_append_iff.mp same
    obtain ⟨s, rfl, rfl⟩ := exists_stmt s here
    obtain ⟨e, rfl, rfl⟩ := ih behind
    exact ⟨.stmt s e, rfl, rfl⟩

/-- Rows of the same kinds and texts are read as the same program, apart from its places. -/
theorem ofTokens_of_bare {d : Derivation} (same : ts.map Token.bare = d.tokens.map Token.bare) :
    ∃ q, Program.ofTokens ts = .ok q ∧ q.bare = d.program.bare := by
  have bare : ts.map (Token.relocate fun _ => 0) = (d.relocate fun _ => 0).tokens := by
    rw [d.tokens_relocate]
    exact same
  obtain ⟨e, rfl, moved⟩ := exists_derivation _ bare
  refine ⟨e.program, ofTokens_complete e, ?_⟩
  rw [Program.bare, Program.bare, ← e.program_relocate, ← d.program_relocate, moved]

end Grammar

end PhraseLang
