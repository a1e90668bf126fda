import PhraseLang.Proofs.Grammar.Failure
import PhraseLang.Proofs.Grammar.Propagation
import PhraseLang.Proofs.Grammar.Segments
import PhraseLang.Proofs.Scan

/-! One more line break.
A line break of a program may be followed by another one wherever it stands: between statements, in
a body, and in front of a clause. Only behind an opening brace it may not, since the indentation of
the body is due there. -/
namespace PhraseLang.Grammar
open Reader

/-- The last token of the row is an opening brace. -/
def EndsOpen (ts : List Token) : Prop := ∃ t ∈ ts.getLast?, t.kind = .punctuation .leftCurly

theorem endsOpen_append {x front : List Token} (shut : ¬ EndsOpen x) :
    EndsOpen (x ++ front) ↔ EndsOpen front := by
  rw [EndsOpen, EndsOpen, List.getLast?_append]
  cases last : front.getLast? with
  | none => simpa [EndsOpen] using shut
  | some t => rfl

theorem not_endsOpen_of_last {x : List Token} {t : Token}
    (notOpen : t.kind ≠ .punctuation .leftCurly) : ¬ EndsOpen (x ++ [t]) := by
  simpa [EndsOpen] using notOpen

theorem Stmt.not_endsOpen (s : Stmt) : ¬ EndsOpen s.tokens := by
  obtain ⟨first, inner, last, same, -, -, isLast⟩ := s.exists_edges
  rw [same, ← List.cons_append]
  refine not_endsOpen_of_last ?_
  rw [isLast]
  cases s <;> simp [Stmt.tree, Statement.lastKind]

theorem Block.not_endsOpen (b : Block) : ¬ EndsOpen b.tokens := by
  obtain ⟨inner, last, same, -, isLast⟩ := b.exists_edges
  rw [same]
  exact not_endsOpen_of_last (by rw [isLast]; decide)

theorem Body.not_endsOpen (b : Body) : ¬ EndsOpen b.tokens := by
  cases b with
  | nil => simp [EndsOpen, Body.tokens]
  | blank lineBreak rest =>
    have shut : ¬ EndsOpen ([] ++ [lineBreak.val]) :=
      not_endsOpen_of_last (kind_ne lineBreak.property (by decide))
    exact fun isOpen => rest.not_endsOpen ((endsOpen_append shut).mp isOpen)
  | stmt s rest =>
    exact fun isOpen => rest.not_endsOpen ((endsOpen_append s.not_endsOpen).mp isOpen)

/-- What comes of the line break `extra` behind a line break `feed` of the row: the row with it is
kept, but behind an opening brace it fails, and so does any row with the same front. -/
def Widens (feed extra : Word [.newline]) (ts : List Token) (kept fails : List Token → Prop) :
    Prop :=
  ∀ front behind, ts = front ++ feed.val :: behind →
    (¬ EndsOpen front → kept (front ++ feed.val :: extra.val :: behind)) ∧
    (EndsOpen front → ∀ rest, fails (front ++ feed.val :: extra.val :: rest))

/-- No line break and no opening brace. -/
def Plain (ts : List Token) : Prop :=
  ∀ t ∈ ts, t.kind ≠ .newline ∧ t.kind ≠ .punctuation .leftCurly

theorem Plain.not_endsOpen {ts : List Token} (plain : Plain ts) : ¬ EndsOpen ts := by
  rintro ⟨t, last, isOpen⟩
  exact (plain t (List.mem_of_getLast? last)).2 isOpen

theorem Plain.append {x y : List Token} (first : Plain x) (second : Plain y) : Plain (x ++ y) :=
  List.forall_mem_append.mpr ⟨first, second⟩

theorem plain_word {kinds : List Kind} (w : Word kinds)
    (others : .newline ∉ kinds ∧ .punctuation .leftCurly ∉ kinds) : Plain [w.val] :=
  List.forall_mem_singleton.mpr ⟨kind_ne w.property others.1, kind_ne w.property others.2⟩

theorem Chain.plain (c : Chain) : Plain c.tokens :=
  fun _ ht => ⟨Chain.kind_ne ht rfl rfl, Chain.kind_ne ht rfl rfl⟩

theorem Value.plain (v : Value) : Plain v.tokens :=
  fun _ ht => ⟨Value.kind_ne ht rfl rfl (by decide), Value.kind_ne ht rfl rfl (by decide)⟩

section
variable {feed extra : Word [.newline]} {x y : List Token} {kept keptX keptY : List Token → Prop}
  {fails failsX failsY : List Token → Prop}

theorem widens_plain (plain : Plain x) : Widens feed extra x kept fails := by
  rintro front behind rfl
  exact absurd feed.kind_eq (plain feed.val (by simp)).1

theorem Widens.append (first : Widens feed extra x keptX failsX)
    (second : Widens feed extra y keptY failsY) (shut : ¬ EndsOpen x)
    (keepsX : ∀ ts, keptX ts → kept (ts ++ y)) (keepsY : ∀ ts, keptY ts → kept (x ++ ts))
    (stopsX : ∀ ts, failsX ts → fails ts) (stopsY : ∀ ts, failsY ts → fails (x ++ ts)) :
    Widens feed extra (x ++ y) kept fails := by
  intro front behind cut
  rcases Layout.append_eq_split cut with ⟨b, rfl, rfl⟩ | ⟨f, rfl, rfl⟩
  · obtain ⟨keeps, stops⟩ := first front b rfl
    constructor
    · intro notOpen
      have whole := keepsX _ (keeps notOpen)
      rwa [List.append_assoc] at whole
    · exact fun isOpen rest => stopsX _ (stops isOpen rest)
  · obtain ⟨keeps, stops⟩ := second f behind rfl
    rw [endsOpen_append shut]
    constructor
    · intro notOpen
      rw [List.append_assoc]
      exact keepsY _ (keeps notOpen)
    · intro isOpen rest
      rw [List.append_assoc]
      exact stopsY _ (stops isOpen rest)

theorem Widens.prepend (second : Widens feed extra y keptY failsY) (plain : Plain x)
    (keeps : ∀ ts, keptY ts → kept (x ++ ts)) (stops : ∀ ts, failsY ts → fails (x ++ ts)) :
    Widens feed extra (x ++ y) kept fails :=
  (widens_plain plain).append second plain.not_endsOpen (fun _ (never : False) => never.elim) keeps
    (fun _ (never : False) => never.elim) stops

end

/-- The refusal of a line break where an indentation is due. -/
abbrev refusal (extra : Word [.newline]) : ParseError := .unexpectedToken extra.val [.indent]

def Stmt.Widens (feed extra : Word [.newline]) (s : Stmt) : Prop :=
  Grammar.Widens feed extra s.tokens (fun ts => ∃ s' : Stmt, s'.tokens = ts ∧ s'.tree = s.tree)
    (StatementFails (refusal extra))

def Block.Widens (feed extra : Word [.newline]) (b : Block) : Prop :=
  Grammar.Widens feed extra b.tokens (fun ts => ∃ b' : Block, b'.tokens = ts ∧ b'.trees = b.trees)
    (BlockFails (refusal extra))

def Body.Widens (feed extra : Word [.newline]) (b : Body) : Prop :=
  Grammar.Widens feed extra b.tokens (fun ts => ∃ b' : Body, b'.tokens = ts ∧ b'.trees = b.trees)
    (BodyFails (refusal extra))

def Clauses.Widens (feed extra : Word [.newline]) (c : Clauses) : Prop :=
  Grammar.Widens feed extra c.tokens (fun ts => ∃ c' : Clauses, c'.tokens = ts ∧ c'.tree = c.tree)
    (ClausesFail (refusal extra))

section
variable {feed extra : Word [.newline]}

theorem spanOf_insert {front behind : List Token} (t u : Token) (before : front ≠ [])
    (after : behind ≠ []) :
    spanOf (front ++ t :: u :: behind) = spanOf (front ++ t :: behind) := by
  obtain ⟨first, front, rfl⟩ := List.exists_cons_of_ne_nil before
  rw [List.cons_append, List.cons_append, spanOf_cons, spanOf_cons, ← List.cons_append,
    ← List.cons_append, endOffset_append _ (List.cons_ne_nil _ _),
    endOffset_append _ (List.cons_ne_nil _ _), endOffset_cons _ (List.cons_ne_nil _ _),
    endOffset_cons _ after, endOffset_cons _ after]

/-- A line break stands neither first nor last in a statement, so the span is the same. -/
theorem Stmt.spanOf_widened {s : Stmt} {front behind : List Token}
    (cut : s.tokens = front ++ feed.val :: behind) :
    spanOf (front ++ feed.val :: extra.val :: behind) = spanOf s.tokens := by
  obtain ⟨first, inner, last, same, -, isFirst, isLast⟩ := s.exists_edges
  have notFirst : s.tree.firstKind ≠ .newline := by
    cases s <;> simp [Stmt.tree, Statement.firstKind]
  have notLast : s.tree.lastKind ≠ .newline := by
    cases s <;> simp [Stmt.tree, Statement.lastKind]
  rw [cut]
  rw [same] at cut
  refine spanOf_insert _ _ ?_ ?_
  · rintro rfl
    obtain ⟨rfl, -⟩ := List.cons.inj cut
    exact notFirst (isFirst.symm.trans feed.kind_eq)
  · rintro rfl
    have cut : (first :: inner) ++ [last] = front ++ [feed.val] := cut
    obtain ⟨rfl, -⟩ := List.cons.inj (List.append_inj' cut rfl).2
    exact notLast (isLast.symm.trans feed.kind_eq)

/-- The span is in the tree of a statement, so the tree is kept only because the span is. -/
theorem Stmt.widens_of_span {s : Stmt} (widens : Grammar.Widens feed extra s.tokens
    (fun ts => spanOf ts = spanOf s.tokens → ∃ s' : Stmt, s'.tokens = ts ∧ s'.tree = s.tree)
    (StatementFails (refusal extra))) : s.Widens feed extra := by
  intro front behind cut
  obtain ⟨keeps, stops⟩ := widens front behind cut
  exact ⟨fun notOpen => keeps notOpen (s.spanOf_widened cut), stops⟩

theorem widens_assign (first : Word [.keyword .define]) (name : Word [.constant, .binding])
    (becomes : Word [.keyword .assign]) (value : Value) (last : Word [.keyword .endOfAssign]) :
    (Stmt.assign first name becomes value last).Widens feed extra :=
  widens_plain <| (plain_word first (by decide)).append <| (plain_word name (by decide)).append <|
    (plain_word becomes (by decide)).append <| value.plain.append (plain_word last (by decide))

theorem widens_branches {b : Block} {c : Clauses} (hb : b.Widens feed extra)
    (hc : c.Widens feed extra) :
    Grammar.Widens feed extra (b.tokens ++ c.tokens)
      (fun ts => ∃ (b' : Block) (c' : Clauses), b'.tokens ++ c'.tokens = ts ∧
        b'.trees = b.trees ∧ c'.tree = c.tree)
      (BranchesFail (refusal extra)) := by
  refine hb.append hc b.not_endsOpen ?_ ?_ (fun ts => .here) (fun ts => .later b)
  · rintro ts ⟨b', rfl, trees⟩
    exact ⟨b', c, rfl, trees, rfl⟩
  · rintro ts ⟨c', rfl, tree⟩
    exact ⟨b, c', rfl, rfl, tree⟩

theorem widens_conditional {b : Block} {c : Clauses} (hb : b.Widens feed extra)
    (hc : c.Widens feed extra) (first : Word [.keyword .ifThen]) (condition : Chain) :
    (Stmt.conditional first condition b c).Widens feed extra := by
  have regroup (b : Block) (c : Clauses) : (Stmt.conditional first condition b c).tokens =
      ([first.val] ++ condition.tokens) ++ (b.tokens ++ c.tokens) := by simp [Stmt.tokens]
  refine Stmt.widens_of_span ?_
  rw [regroup]
  refine (widens_branches hb hc).prepend ((plain_word first (by decide)).append condition.plain)
    ?_ ?_
  · rintro ts ⟨b', c', rfl, trees, tree⟩ span
    refine ⟨.conditional first condition b' c', regroup b' c', ?_⟩
    rw [Stmt.tree, Stmt.tree, regroup, regroup, span, trees, tree]
  · exact fun ts fails => fails.conditional first condition

theorem widens_whileLoop {b : Block} (h : b.Widens feed extra)
    (first : Word [.punctuation .leftParen]) (condition : Chain)
    (close : Word [.punctuation .rightParen]) (suffix : Word [.keyword .whileLoop]) :
    (Stmt.whileLoop first condition close suffix b).Widens feed extra := by
  have regroup (ts : List Token) :
      first.val :: (condition.tokens ++ close.val :: suffix.val :: ts) =
        ([first.val] ++ condition.tokens ++ [close.val] ++ [suffix.val]) ++ ts := by simp
  refine Stmt.widens_of_span ?_
  rw [Stmt.tokens, regroup]
  refine h.prepend ((((plain_word first (by decide)).append condition.plain).append
    (plain_word close (by decide))).append (plain_word suffix (by decide))) ?_ ?_
  · rintro ts ⟨b', rfl, trees⟩ span
    refine ⟨.whileLoop first condition close suffix b', regroup b'.tokens, ?_⟩
    rw [Stmt.tree, Stmt.tree, Stmt.tokens, Stmt.tokens, regroup, regroup, span, trees]
  · intro ts fails
    exact regroup ts ▸ fails.whileLoop first condition close suffix

theorem widens_countedLoop {b : Block} (h : b.Widens feed extra)
    (first : Word [.keyword .countedLoop]) (count : UInt64)
    (counted : Text.readUInt64? first.val.text = some count) (binding : Word [.binding]) :
    (Stmt.countedLoop first count counted binding b).Widens feed extra := by
  refine Stmt.widens_of_span ?_
  refine h.prepend ((plain_word first (by decide)).append (plain_word binding (by decide))) ?_ ?_
  · rintro ts ⟨b', rfl, trees⟩ span
    refine ⟨.countedLoop first count counted binding b', rfl, ?_⟩
    rw [Stmt.tree, Stmt.tree, trees]
    exact congrArg (Statement.countedLoop · count binding.val b.trees) span
  · exact fun ts fails => fails.countedLoop first counted binding

theorem widens_lineBreak (lineBreak : Word [.newline]) :
    Widens feed extra [lineBreak.val] (· = [lineBreak.val, extra.val]) fun _ => False := by
  intro front behind cut
  cases front with
  | nil =>
    obtain ⟨same, rfl⟩ := List.cons.inj cut
    refine ⟨fun _ => by rw [same]; rfl, ?_⟩
    rintro ⟨t, last, -⟩
    cases last
  | cons t front =>
    obtain ⟨-, empty⟩ := List.cons.inj cut
    simp at empty

theorem not_endsOpen_lineBreak (lineBreak : Word [.newline]) : ¬ EndsOpen [lineBreak.val] :=
  not_endsOpen_of_last (x := []) (kind_ne lineBreak.property (by decide))

/-- Behind an opening brace, the indentation is due right behind the first line break. -/
theorem widens_opening (opening : Word [.punctuation .leftCurly]) (lineBreak : Word [.newline])
    (indent : Word [.indent]) :
    Widens feed extra [opening.val, lineBreak.val, indent.val] (fun _ => False)
      (BlockFails (refusal extra)) := by
  intro front behind cut
  cases front with
  | nil =>
    have notBreak : opening.val.kind ≠ .newline := kind_ne opening.property (by decide)
    exact absurd feed.kind_eq ((List.cons.inj cut).1 ▸ notBreak)
  | cons t front =>
    obtain ⟨rfl, tail⟩ := List.cons.inj cut
    cases front with
    | nil =>
      refine ⟨fun shut => shut ⟨opening.val, rfl, opening.kind_eq⟩, fun _ rest => ?_⟩
      exact blockFails_of_break opening feed (kind_ne extra.property (by decide)) rest
    | cons u front =>
      obtain ⟨-, last⟩ := List.cons.inj tail
      have isIndent : feed.val ∈ [indent.val] := by simp [last]
      have notBreak : indent.val.kind ≠ .newline := kind_ne indent.property (by decide)
      exact absurd feed.kind_eq (List.mem_singleton.mp isIndent ▸ notBreak)

theorem widens_braces {inner : Body} (h : inner.Widens feed extra)
    (opening : Word [.punctuation .leftCurly]) (lineBreak : Word [.newline])
    (indent : Word [.indent]) (dedent : Word [.dedent])
    (closing : Word [.punctuation .rightCurly]) :
    (Block.braces opening lineBreak indent inner dedent closing).Widens feed extra := by
  have ends : Plain [dedent.val, closing.val] :=
    (plain_word dedent (by decide)).append (plain_word closing (by decide))
  have inside : Widens feed extra (inner.tokens ++ [dedent.val, closing.val])
      (fun ts => ∃ inner' : Body, inner'.tokens ++ [dedent.val, closing.val] = ts ∧
        inner'.trees = inner.trees) (BodyFails (refusal extra)) := by
    refine h.append (widens_plain ends) inner.not_endsOpen ?_ (fun _ (never : False) => never.elim)
      (fun _ => id) (fun _ (never : False) => never.elim)
    rintro ts ⟨inner', rfl, trees⟩
    exact ⟨inner', rfl, trees⟩
  have shut : ¬ EndsOpen ([opening.val, lineBreak.val] ++ [indent.val]) :=
    not_endsOpen_of_last (kind_ne indent.property (by decide))
  refine (widens_opening opening lineBreak indent).append inside shut (fun _ => False.elim) ?_
    (fun _ => id) (fun ts fails => fails.braces opening lineBreak indent)
  rintro ts ⟨inner', rfl, trees⟩
  exact ⟨.braces opening lineBreak indent inner' dedent closing, rfl, trees⟩

theorem widens_breaks (breaks : List (Word [.newline])) :
    Widens feed extra (words breaks)
      (fun ts => ∃ breaks' : List (Word [.newline]), words breaks' = ts) fun _ => False := by
  induction breaks with
  | nil => exact widens_plain (List.forall_mem_nil _)
  | cons w breaks ih =>
    refine (widens_lineBreak w).append ih (not_endsOpen_lineBreak w) ?_ ?_ (fun _ => id)
      (fun _ => id)
    · rintro ts rfl
      exact ⟨w :: extra :: breaks, rfl⟩
    · rintro ts ⟨breaks', rfl⟩
      exact ⟨w :: breaks', rfl⟩

theorem not_endsOpen_breaks (breaks : List (Word [.newline])) : ¬ EndsOpen (words breaks) := by
  rintro ⟨t, last, isOpen⟩
  obtain ⟨w, -, rfl⟩ := List.mem_map.mp (List.mem_of_getLast? last)
  exact kind_ne w.property (by decide) isOpen

theorem widens_otherwise {b : Block} (h : b.Widens feed extra) (breaks : List (Word [.newline]))
    (first : Word [.keyword .otherwise]) :
    (Clauses.otherwise breaks first b).Widens feed extra := by
  have behind : Widens feed extra ([first.val] ++ b.tokens)
      (fun ts => ∃ b' : Block, first.val :: b'.tokens = ts ∧ b'.trees = b.trees)
      (fun ts => ∃ row, first.val :: row = ts ∧ BlockFails (refusal extra) row) := by
    refine h.prepend (plain_word first (by decide)) ?_ fun ts fails => ⟨ts, rfl, fails⟩
    rintro ts ⟨b', rfl, trees⟩
    exact ⟨b', rfl, trees⟩
  refine (widens_breaks breaks).append behind (not_endsOpen_breaks breaks) ?_ ?_
    (fun _ => False.elim) ?_
  · rintro ts ⟨breaks', rfl⟩
    exact ⟨.otherwise breaks' first b, rfl, rfl⟩
  · rintro ts ⟨b', rfl, trees⟩
    exact ⟨.otherwise breaks first b', rfl, by rw [Clauses.tree, Clauses.tree, trees]⟩
  · rintro ts ⟨row, rfl, fails⟩
    exact fails.otherwise breaks first

theorem widens_elseIf {b : Block} {c : Clauses} (hb : b.Widens feed extra)
    (hc : c.Widens feed extra) (breaks : List (Word [.newline])) (first : Word [.keyword .elseIf])
    (condition : Chain) : (Clauses.elseIf breaks first condition b c).Widens feed extra := by
  have regroup (breaks : List (Word [.newline])) (b : Block) (c : Clauses) :
      (Clauses.elseIf breaks first condition b c).tokens =
        words breaks ++ (([first.val] ++ condition.tokens) ++ (b.tokens ++ c.tokens)) := by
    simp [Clauses.tokens]
  have behind : Widens feed extra (([first.val] ++ condition.tokens) ++ (b.tokens ++ c.tokens))
      (fun ts => ∃ (b' : Block) (c' : Clauses),
        ([first.val] ++ condition.tokens) ++ (b'.tokens ++ c'.tokens) = ts ∧
          b'.trees = b.trees ∧ c'.tree = c.tree)
      (fun ts => ∃ row, first.val :: (condition.tokens ++ row) = ts ∧
        BranchesFail (refusal extra) row) := by
    refine (widens_branches hb hc).prepend ((plain_word first (by decide)).append condition.plain)
      ?_ fun ts fails => ⟨ts, rfl, fails⟩
    rintro ts ⟨b', c', rfl, trees, tree⟩
    exact ⟨b', c', rfl, trees, tree⟩
  rw [Clauses.Widens, regroup]
  refine (widens_breaks breaks).append behind (not_endsOpen_breaks breaks) ?_ ?_
    (fun _ => False.elim) ?_
  · rintro ts ⟨breaks', rfl⟩
    exact ⟨.elseIf breaks' first condition b c, regroup breaks' b c, rfl⟩
  · rintro ts ⟨b', c', rfl, trees, tree⟩
    exact ⟨.elseIf breaks first condition b' c', regroup breaks b' c',
      by rw [Clauses.tree, Clauses.tree, trees, tree]⟩
  · rintro ts ⟨row, rfl, fails⟩
    exact fails.elseIf breaks first condition

theorem widens_blank {b : Body} (h : b.Widens feed extra) (lineBreak : Word [.newline]) :
    (Body.blank lineBreak b).Widens feed extra := by
  refine (widens_lineBreak lineBreak).append h (not_endsOpen_lineBreak lineBreak) ?_ ?_
    (fun _ => False.elim) (fun ts fails => fails.blank lineBreak)
  · rintro ts rfl
    exact ⟨.blank lineBreak (.blank extra b), rfl, rfl⟩
  · rintro ts ⟨b', rfl, trees⟩
    exact ⟨.blank lineBreak b', rfl, trees⟩

theorem widens_stmt {s : Stmt} {b : Body} (hs : s.Widens feed extra) (hb : b.Widens feed extra) :
    (Body.stmt s b).Widens feed extra := by
  refine hs.append hb s.not_endsOpen ?_ ?_ (fun ts fails => fails.body)
    (fun ts fails => fails.stmt s)
  · rintro ts ⟨s', rfl, tree⟩
    exact ⟨.stmt s' b, rfl, by rw [Body.trees, Body.trees, tree]⟩
  · rintro ts ⟨b', rfl, trees⟩
    exact ⟨.stmt s b', rfl, by rw [Body.trees, Body.trees, trees]⟩

mutual

theorem Stmt.widens : ∀ s : Stmt, s.Widens feed extra
  | .assign first name becomes value last => widens_assign first name becomes value last
  | .conditional first condition body clauses =>
    widens_conditional body.widens clauses.widens first condition
  | .whileLoop first condition close suffix body =>
    widens_whileLoop body.widens first condition close suffix
  | .countedLoop first count counted binding body =>
    widens_countedLoop body.widens first count counted binding

theorem Block.widens : ∀ b : Block, b.Widens feed extra
  | .braces opening lineBreak indent body dedent closing =>
    widens_braces body.widens opening lineBreak indent dedent closing

theorem Body.widens : ∀ b : Body, b.Widens feed extra
  | .nil => widens_plain (List.forall_mem_nil _)
  | .blank lineBreak rest => widens_blank rest.widens lineBreak
  | .stmt s rest => widens_stmt s.widens rest.widens

theorem Clauses.widens : ∀ c : Clauses, c.Widens feed extra
  | .nothing => widens_plain (List.forall_mem_nil _)
  | .otherwise breaks first body => widens_otherwise body.widens breaks first
  | .elseIf breaks first condition body rest =>
    widens_elseIf body.widens rest.widens breaks first condition

end

theorem Derivation.widens (d : Derivation) :
    Widens feed extra d.tokens (fun ts => ∃ d' : Derivation, d'.tokens = ts ∧ d'.trees = d.trees)
      (ProgramFails (refusal extra)) := by
  induction d with
  | nil => exact widens_plain (List.forall_mem_nil _)
  | blank lineBreak d ih =>
    refine (widens_lineBreak lineBreak).append ih (not_endsOpen_lineBreak lineBreak) ?_ ?_
      (fun _ => False.elim) (fun ts fails => fails.blank lineBreak)
    · rintro ts rfl
      exact ⟨.blank lineBreak (.blank extra d), rfl, rfl⟩
    · rintro ts ⟨d', rfl, trees⟩
      exact ⟨.blank lineBreak d', rfl, trees⟩
  | block b d ih =>
    refine b.widens.append ih b.not_endsOpen ?_ ?_ (fun ts fails => fails.program)
      (fun ts fails => fails.block b)
    · rintro ts ⟨b', rfl, trees⟩
      exact ⟨.block b' d, rfl, by rw [Derivation.trees, Derivation.trees, trees]⟩
    · rintro ts ⟨d', rfl, trees⟩
      exact ⟨.block b d', rfl, by rw [Derivation.trees, Derivation.trees, trees]⟩
  | stmt s d ih =>
    refine s.widens.append ih s.not_endsOpen ?_ ?_ (fun ts fails => fails.program)
      (fun ts fails => fails.stmt s)
    · rintro ts ⟨s', rfl, tree⟩
      exact ⟨.stmt s' d, rfl, by rw [Derivation.trees, Derivation.trees, tree]⟩
    · rintro ts ⟨d', rfl, trees⟩
      exact ⟨.stmt s d', rfl, by rw [Derivation.trees, Derivation.trees, trees]⟩

end

/-- One more line break behind a line break of a program leaves the program as it is, spans
included. Behind the line break of an opening brace it is refused, for the indentation that is due
there. -/
theorem ofTokens_extra_break {front behind : List Token} {feed extra : Token} {p : Program}
    (isFeed : feed.kind = .newline) (isExtra : extra.kind = .newline)
    (accepted : Program.ofTokens (front ++ feed :: behind) = .ok p) :
    (¬ EndsOpen front → Program.ofTokens (front ++ feed :: extra :: behind) = .ok p) ∧
    (EndsOpen front → Program.ofTokens (front ++ feed :: extra :: behind) =
      .error (.unexpectedToken extra [.indent])) := by
  obtain ⟨d, cut, rfl⟩ := ofTokens_sound accepted
  have widens : Widens ⟨feed, List.mem_singleton.mpr isFeed⟩ ⟨extra, List.mem_singleton.mpr isExtra⟩
      d.tokens _ _ := d.widens
  obtain ⟨keeps, stops⟩ := widens front behind cut
  constructor
  · intro shut
    obtain ⟨d', same, trees⟩ := keeps shut
    rw [← same, ofTokens_complete, Derivation.program, trees]
    rfl
  · intro opened
    exact ofTokens_eq_error_iff.mpr ((stops opened behind).fails _ _ (Nat.le_refl _))

/-- A conditional with two empty blocks. The line break in front of its second clause may be
doubled, the one behind its first brace may not. -/
theorem ofTokens_extra_break_conditional :
    let feed (n : Nat) : Token := ⟨.newline, "\n", ⟨n, n + 1⟩⟩
    let header : List Token := [⟨.keyword .ifThen, "sweet", ⟨0, 5⟩⟩, ⟨.constant, "a", ⟨6, 8⟩⟩,
      ⟨.punctuation .leftCurly, "\x7b", ⟨9, 10⟩⟩]
    let inside (n : Nat) : List Token := [⟨.indent, "", ⟨n, n + 1⟩⟩, ⟨.dedent, "", ⟨n + 2, n + 2⟩⟩,
      ⟨.punctuation .rightCurly, "\x7d", ⟨n + 2, n + 3⟩⟩]
    let clause : List Token := [⟨.keyword .otherwise, "stout", ⟨15, 20⟩⟩,
      ⟨.punctuation .leftCurly, "\x7b", ⟨21, 22⟩⟩, feed 22] ++ inside 23
    ∃ p, Program.ofTokens (header ++ feed 10 :: (inside 11 ++ feed 14 :: clause)) = .ok p ∧
      Program.ofTokens ((header ++ feed 10 :: inside 11) ++ feed 14 :: feed 15 :: clause) = .ok p ∧
      Program.ofTokens (header ++ feed 10 :: feed 11 :: (inside 11 ++ feed 14 :: clause)) =
        .error (.unexpectedToken (feed 11) [.indent]) := by
  intro feed header inside clause
  obtain ⟨p, read⟩ : ∃ p, Program.ofTokens
      (header ++ feed 10 :: (inside 11 ++ feed 14 :: clause)) = .ok p := ⟨_, rfl⟩
  have between : Program.ofTokens ((header ++ feed 10 :: inside 11) ++ feed 14 :: clause) = .ok p :=
    read
  refine ⟨p, read, (ofTokens_extra_break rfl rfl between).1 ?_,
    (ofTokens_extra_break rfl rfl read).2 ⟨_, rfl, rfl⟩⟩
  exact not_endsOpen_of_last (x := header ++ [feed 10, ⟨.indent, "", ⟨11, 12⟩⟩,
    ⟨.dedent, "", ⟨13, 13⟩⟩]) (by decide)

end PhraseLang.Grammar
