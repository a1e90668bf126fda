import Mathlib.Data.List.Basic
import Mathlib.Data.List.Induction
import PhraseLang.Proofs.Excerpt
import PhraseLang.Proofs.Tiling

/-! Spans inside spans.
The tokens of a source stand one behind the other, so the span of a row of them goes from its first
token to its last, and rows behind each other have spans behind each other. The span of a statement,
of an expression or of a part of either is the span of a row of tokens. -/
namespace PhraseLang
open Text Layout Grammar

/-- Tokens one behind the other. -/
structure Ordered (ts : List Token) : Prop where
  each : ∀ t ∈ ts, t.span.start ≤ t.span.stop
  follow : ts.Pairwise fun a b => a.span.stop ≤ b.span.start

theorem endOffset_concat (ts : List Token) (t : Token) : endOffset (ts ++ [t]) = t.span.stop := by
  simp [endOffset]

namespace Ordered
variable {ts us a mid b : List Token} {t : Token}

theorem sublist (ordered : Ordered ts) (within : us.Sublist ts) : Ordered us :=
  ⟨fun t ht => ordered.each t (within.subset ht), ordered.follow.sublist within⟩

theorem start_le (ordered : Ordered ts) (ht : t ∈ ts) : (spanOf ts).start ≤ t.span.start := by
  cases ts with
  | nil => cases ht
  | cons u ts =>
    rcases List.mem_cons.mp ht with rfl | ht
    · exact Nat.le_refl _
    · have first := ordered.each u List.mem_cons_self
      exact Nat.le_trans first (List.rel_of_pairwise_cons ordered.follow ht)

theorem le_stop (ordered : Ordered ts) (ht : t ∈ ts) : t.span.stop ≤ (spanOf ts).stop := by
  rcases List.eq_nil_or_concat' ts with rfl | ⟨front, last, rfl⟩
  · cases ht
  · have stop : (spanOf (front ++ [last])).stop = last.span.stop := endOffset_concat front last
    rw [stop]
    rcases List.mem_append.mp ht with ht | ht
    · have before := (List.pairwise_append.mp ordered.follow).2.2 t ht last (by simp)
      exact Nat.le_trans before (ordered.each last (by simp))
    · obtain rfl := List.mem_singleton.mp ht
      exact Nat.le_refl _

theorem exists_stop (nonempty : ts ≠ []) : ∃ t ∈ ts, (spanOf ts).stop = t.span.stop := by
  rcases List.eq_nil_or_concat' ts with rfl | ⟨front, last, rfl⟩
  · exact absurd rfl nonempty
  · exact ⟨last, by simp, endOffset_concat front last⟩

theorem exists_start (nonempty : ts ≠ []) : ∃ t ∈ ts, (spanOf ts).start = t.span.start := by
  obtain ⟨t, ts, rfl⟩ := List.exists_cons_of_ne_nil nonempty
  exact ⟨t, List.mem_cons_self, rfl⟩

/-- Rows of tokens behind each other have spans behind each other. -/
theorem stop_le_start (ordered : Ordered (a ++ b)) (some_a : a ≠ []) (some_b : b ≠ []) :
    (spanOf a).stop ≤ (spanOf b).start := by
  obtain ⟨t, ht, stop⟩ := exists_stop some_a
  obtain ⟨u, hu, start⟩ := exists_start some_b
  rw [stop, start]
  exact (List.pairwise_append.mp ordered.follow).2.2 t ht u hu

theorem start_le_stop (ordered : Ordered ts) (nonempty : ts ≠ []) :
    (spanOf ts).start ≤ (spanOf ts).stop := by
  obtain ⟨t, ht, start⟩ := exists_start nonempty
  rw [start]
  exact Nat.le_trans (ordered.each t ht) (ordered.le_stop ht)

theorem rows_pairwise {rows : List (List Token)} (ordered : Ordered rows.flatten)
    (nonempty : ∀ row ∈ rows, row ≠ []) :
    (rows.map spanOf).Pairwise fun x y => x.stop ≤ y.start := by
  induction rows with
  | nil => exact .nil
  | cons row rows ih =>
    have tail := ih (ordered.sublist (List.sublist_append_right row _))
      fun r hr => nonempty r (List.mem_cons_of_mem row hr)
    refine List.pairwise_cons.mpr ⟨fun span hspan => ?_, tail⟩
    obtain ⟨r, hr, rfl⟩ := List.mem_map.mp hspan
    have both : Ordered (row ++ r) :=
      ordered.sublist ((List.Sublist.refl row).append (List.sublist_flatten_of_mem hr))
    exact both.stop_le_start (nonempty row List.mem_cons_self)
      (nonempty r (List.mem_cons_of_mem row hr))

theorem row_between {first last : Token} {rows : List (List Token)} {row : List Token}
    (ordered : Ordered (first :: (rows.flatten ++ [last]))) (hrow : row ∈ rows)
    (nonempty : row ≠ []) :
    first.span.stop ≤ (spanOf row).start ∧ (spanOf row).stop ≤ last.span.start := by
  have inFlat : row.Sublist rows.flatten := List.sublist_flatten_of_mem hrow
  have before : Ordered ([first] ++ row) :=
    ordered.sublist ((inFlat.trans (List.sublist_append_left _ _)).cons_cons first)
  have behind : Ordered (row ++ [last]) :=
    ordered.sublist ((inFlat.append (List.Sublist.refl [last])).cons first)
  exact ⟨before.stop_le_start (List.cons_ne_nil _ _) nonempty,
    behind.stop_le_start nonempty (List.cons_ne_nil _ _)⟩

/-- Merging the spans at both ends of a row covers the tokens between them. -/
theorem merge_spanOf (ordered : Ordered (a ++ mid ++ b)) (some_a : a ≠ []) (some_b : b ≠ []) :
    (spanOf a).merge (spanOf b) = spanOf (a ++ mid ++ b) := by
  have ends : Ordered (a ++ b) :=
    ordered.sublist ((List.sublist_append_left a mid).append (List.Sublist.refl b))
  have gap := ends.stop_le_start some_a some_b
  have left := (ends.sublist (List.sublist_append_left a b)).start_le_stop some_a
  have right := (ends.sublist (List.sublist_append_right a b)).start_le_stop some_b
  have start : (spanOf (a ++ mid ++ b)).start = (spanOf a).start := by
    obtain ⟨t, a, rfl⟩ := List.exists_cons_of_ne_nil some_a
    rfl
  have stop : (spanOf (a ++ mid ++ b)).stop = (spanOf b).stop := endOffset_append _ some_b
  generalize spanOf (a ++ mid ++ b) = whole at start stop ⊢
  obtain ⟨first, last⟩ := whole
  obtain rfl : first = _ := start
  obtain rfl : last = _ := stop
  simp only [Span.merge, Span.mk.injEq]
  omega

end Ordered

theorem Tiled.ordered {source front g rest : List Char} {out : List Token}
    (tiled : Tiled source out front g rest) : Ordered out := by
  have cuts := tiled.cuts
  have before := fun a t b same => (tiled.between a t b same).1
  refine ⟨fun t ht => (cuts t ht).ordered, ?_⟩
  clear tiled
  induction out using List.reverseRec with
  | nil => exact .nil
  | append_singleton out t ih =>
    have follow := ih (fun u hu => cuts u (List.mem_append_left _ hu)) fun a u b same =>
      before a u (b ++ [t]) (by simp [same])
    have ordered : Ordered out := ⟨fun u hu => (cuts u (List.mem_append_left _ hu)).ordered, follow⟩
    have last := before out t [] rfl
    refine List.pairwise_append.mpr ⟨follow, List.pairwise_singleton _ t, fun u hu v hv => ?_⟩
    obtain rfl := List.mem_singleton.mp hv
    exact Nat.le_trans (ordered.le_stop hu) last

namespace Expr

theorem tokens_ne_nil_of_grouped {e : Expr} (grouped : e.Grouped) : e.tokens ≠ [] := by
  obtain ⟨t, steps, same, -⟩ := exists_steps grouped
  simp [same]

theorem span_of_grouped {e : Expr} (grouped : e.Grouped) (ordered : Ordered e.tokens) :
    e.span = spanOf e.tokens := by
  match e, grouped with
  | .literal t, _ => rfl
  | .binary left op right, ⟨_, groupedLeft, groupedRight, _, _⟩ =>
    have whole : (binary left op right).tokens = left.tokens ++ [op] ++ right.tokens := by
      simp [tokens]
    rw [whole] at ordered ⊢
    have spanLeft := span_of_grouped groupedLeft
      (ordered.sublist ((List.sublist_append_left _ _).trans (List.sublist_append_left _ _)))
    have spanRight := span_of_grouped groupedRight
      (ordered.sublist (List.sublist_append_right _ _))
    rw [span, spanLeft, spanRight]
    exact ordered.merge_spanOf (tokens_ne_nil_of_grouped groupedLeft)
      (tokens_ne_nil_of_grouped groupedRight)

theorem lastSpan_concat (otherwise : Span) (es : List Expr) (e : Expr) :
    span.lastSpan otherwise (es ++ [e]) = e.span := by
  induction es generalizing otherwise with
  | nil => rfl
  | cons d es ih => exact ih d.span

end Expr

namespace Grammar

theorem Chain.tokens_ne_nil (c : Chain) : c.tokens ≠ [] := Expr.tokens_ne_nil_of_grouped c.grouped

theorem Value.span_tree (v : Value) (ordered : Ordered v.tokens) :
    v.tree.span = spanOf v.tokens := by
  cases v with
  | one c => exact Expr.span_of_grouped c.grouped ordered
  | many first rest more =>
    rcases List.eq_nil_or_concat' rest with rfl | ⟨front, last, rfl⟩
    · exact absurd rfl more
    · have whole : (Value.many first (front ++ [last]) more).tokens = first.tokens ++
          ((front.flatMap fun p => p.1.val :: p.2.tokens) ++ [last.1.val]) ++ last.2.tokens := by
        simp [Value.tokens]
      rw [whole] at ordered ⊢
      have spanFirst := Expr.span_of_grouped first.grouped
        (ordered.sublist ((List.sublist_append_left _ _).trans (List.sublist_append_left _ _)))
      have spanLast := Expr.span_of_grouped last.2.grouped
        (ordered.sublist (List.sublist_append_right _ _))
      rw [Value.tree, Expr.span, List.map_append, List.map_singleton, Expr.lastSpan_concat,
        spanFirst, spanLast]
      exact ordered.merge_spanOf first.tokens_ne_nil last.2.tokens_ne_nil

end Grammar

/-- The spans of the conditions and statements of clauses, in the order of the source. -/
def Alternative.parts : Alternative → List Span
  | .nothing => []
  | .otherwise body => body.map Statement.span
  | .elseIf condition body rest => condition.span :: (body.map Statement.span ++ rest.parts)

/-- The spans of what a statement is made of, in the order of the source. -/
def Statement.parts : Statement → List Span
  | .assign _ name value => [name.span, value.span]
  | .conditional _ condition body rest =>
    condition.span :: (body.map Statement.span ++ rest.parts)
  | .whileLoop _ condition body => condition.span :: body.map Statement.span
  | .countedLoop _ _ binding body => binding.span :: body.map Statement.span

namespace Grammar

theorem Chain.span_tree (c : Chain) (ordered : Ordered c.tokens) : c.tree.span = spanOf c.tokens :=
  Expr.span_of_grouped c.grouped ordered

theorem Clauses.parts_tree (c : Clauses) (ordered : Ordered c.segments.flatten) :
    c.tree.parts = c.segments.map spanOf := by
  match c with
  | .nothing => rfl
  | .otherwise _ _ body => exact body.map_span
  | .elseIf _ _ condition body rest =>
    rw [Clauses.segments, List.flatten_cons, List.flatten_append] at ordered
    have here := condition.span_tree (ordered.sublist (List.sublist_append_left _ _))
    have behind := rest.parts_tree
      (ordered.sublist ((List.sublist_append_right _ _).trans (List.sublist_append_right _ _)))
    simp [Clauses.tree, Alternative.parts, Clauses.segments, here, behind, body.map_span]

/-- The parts of a statement have the spans of its rows of tokens. -/
theorem Stmt.parts_tree (s : Stmt) (ordered : Ordered s.segments.flatten) :
    s.tree.parts = s.segments.map spanOf := by
  cases s with
  | assign first name becomes value last =>
    have here := value.span_tree (ordered.sublist (by simp [Stmt.segments]))
    simp [Stmt.tree, Statement.parts, Stmt.segments, here, spanOf, endOffset]
  | conditional first condition body clauses =>
    rw [Stmt.segments, List.flatten_cons, List.flatten_append] at ordered
    have here := condition.span_tree (ordered.sublist (List.sublist_append_left _ _))
    have behind := clauses.parts_tree
      (ordered.sublist ((List.sublist_append_right _ _).trans (List.sublist_append_right _ _)))
    simp [Stmt.tree, Statement.parts, Stmt.segments, here, behind, body.map_span]
  | whileLoop first condition close suffix body =>
    have here := condition.span_tree (ordered.sublist (List.sublist_append_left _ _))
    simp [Stmt.tree, Statement.parts, Stmt.segments, here, body.map_span]
  | countedLoop first count counted binding body =>
    simp [Stmt.tree, Statement.parts, Stmt.segments, body.map_span, spanOf, endOffset]

end Grammar

/-- An expression and all the expressions in it. -/
def Expr.all : Expr → List Expr
  | .literal token => [.literal token]
  | .binary left op right => .binary left op right :: (left.all ++ right.all)
  | .array elements => .array elements :: allIn elements
where
  allIn : List Expr → List Expr
    | [] => []
    | e :: rest => e.all ++ allIn rest

def Alternative.conditions : Alternative → List Expr
  | .nothing | .otherwise _ => []
  | .elseIf condition _ rest => condition :: rest.conditions

/-- The value or the conditions of a statement, without those in its bodies. -/
def Statement.expressions : Statement → List Expr
  | .assign _ _ value => [value]
  | .conditional _ condition _ rest => condition :: rest.conditions
  | .whileLoop _ condition _ => [condition]
  | .countedLoop .. => []

/-- The tokens of an expression, with the commas between them if it is an array, and its span from
the start of the first to the end of the last. -/
structure Covers (e : Expr) (run : List Token) : Prop where
  own : run.filter (·.kind != Run.comma) = e.tokens
  ends : ∃ first last, run.head? = some first ∧ e.tokens.head? = some first ∧
    run.getLast? = some last ∧ e.tokens.getLast? = some last ∧
    e.span = ⟨first.span.start, last.span.stop⟩
  inside : ∀ t ∈ run, e.span.start ≤ t.span.start ∧ t.span.stop ≤ e.span.stop

theorem covers_of_span {e : Expr} {run : List Token} (ordered : Ordered run)
    (own : run.filter (·.kind != Run.comma) = e.tokens) (span : e.span = spanOf run)
    (head : ∃ t ts, run = t :: ts ∧ t.kind ≠ Run.comma)
    (last : ∃ ts t, run = ts ++ [t] ∧ t.kind ≠ Run.comma) : Covers e run := by
  refine ⟨own, ?_, fun t ht => ⟨span ▸ ordered.start_le ht, span ▸ ordered.le_stop ht⟩⟩
  obtain ⟨t, ts, isHead, plainHead⟩ := head
  obtain ⟨us, u, isLast, plainLast⟩ := last
  have start : (spanOf run).start = t.span.start := by rw [isHead]; rfl
  have stop : (spanOf run).stop = u.span.stop := by rw [isLast]; exact endOffset_concat us u
  refine ⟨t, u, by rw [isHead]; rfl, ?_, by simp [isLast], ?_, by rw [span, ← start, ← stop]⟩
  · rw [← own, isHead, List.filter_cons_of_pos (by simpa using plainHead)]
    rfl
  · rw [← own, isLast, List.filter_append, List.filter_cons_of_pos (by simpa using plainLast)]
    simp

namespace Grammar

theorem Chain.ne_comma (c : Chain) {t : Token} (ht : t ∈ c.tokens) : t.kind ≠ Run.comma :=
  Chain.kind_ne ht rfl rfl

theorem Chain.exists_first (c : Chain) :
    ∃ t ts, c.tokens = t :: ts ∧ t.kind ≠ Run.comma := by
  obtain ⟨t, ts, same⟩ := List.exists_cons_of_ne_nil c.tokens_ne_nil
  exact ⟨t, ts, same, c.ne_comma (by simp [same])⟩

theorem Chain.exists_last (c : Chain) :
    ∃ ts t, c.tokens = ts ++ [t] ∧ t.kind ≠ Run.comma := by
  rcases List.eq_nil_or_concat' c.tokens with none | ⟨ts, t, same⟩
  · exact absurd none c.tokens_ne_nil
  · exact ⟨ts, t, same, c.ne_comma (by simp [same])⟩

theorem Chain.filter_tokens (c : Chain) : c.tokens.filter (·.kind != Run.comma) = c.tree.tokens :=
  List.filter_eq_self.mpr fun t ht => by simpa using c.ne_comma ht

theorem Tail.filter_tokens (rest : Tail) :
    rest.tokens.filter (·.kind != Run.comma) = Expr.tokens.tokensOfAll rest.trees := by
  induction rest with
  | nil => rfl
  | cons p rest ih =>
    have isComma : ¬ (p.1.val.kind != Run.comma) = true := by simp [p.1.kind_eq]
    rw [Tail.tokens] at ih ⊢
    rw [List.flatMap_cons, List.cons_append, List.filter_cons, if_neg isComma, List.filter_append,
      p.2.filter_tokens, ih]
    rfl

end Grammar

theorem Grammar.Chain.covers (c : Chain) (ordered : Ordered c.tokens) : Covers c.tree c.tokens :=
  covers_of_span ordered c.filter_tokens (c.span_tree ordered) c.exists_first c.exists_last

theorem Expr.covers_all {e : Expr} (grouped : e.Grouped) (ordered : Ordered e.tokens) :
    ∀ f ∈ e.all, ∃ run, run <:+: e.tokens ∧ Covers f run := by
  have whole : Covers e e.tokens := Chain.covers ⟨e, grouped⟩ ordered
  match e, grouped with
  | .literal t, _ =>
    intro f hf
    obtain rfl := List.mem_singleton.mp hf
    exact ⟨_, List.infix_rfl, whole⟩
  | .binary left op right, ⟨_, groupedLeft, groupedRight, _, _⟩ =>
    have inLeft : left.tokens <:+: (binary left op right).tokens :=
      (List.prefix_append _ _).isInfix
    have inRight : right.tokens <:+: (binary left op right).tokens :=
      ((List.suffix_cons _ _).trans (List.suffix_append _ _)).isInfix
    intro f hf
    rcases List.mem_cons.mp hf with rfl | hf
    · exact ⟨_, List.infix_rfl, whole⟩
    · rcases List.mem_append.mp hf with hf | hf
      · obtain ⟨run, inside, covers⟩ :=
          covers_all groupedLeft (ordered.sublist inLeft.sublist) f hf
        exact ⟨run, inside.trans inLeft, covers⟩
      · obtain ⟨run, inside, covers⟩ :=
          covers_all groupedRight (ordered.sublist inRight.sublist) f hf
        exact ⟨run, inside.trans inRight, covers⟩

namespace Grammar

/-- Commas apart, a value holds the tokens of its tree. -/
theorem Value.covers (v : Value) (ordered : Ordered v.tokens) : Covers v.tree v.tokens := by
  refine covers_of_span ordered ?_ (v.span_tree ordered) ?_ ?_
  · cases v with
    | one c => exact c.filter_tokens
    | many first rest more =>
      have tail := Tail.filter_tokens rest
      rw [Value.tokens, List.filter_append, first.filter_tokens]
      exact congrArg _ tail
  · cases v with
    | one c => exact c.exists_first
    | many first rest more =>
      obtain ⟨t, ts, same, plain⟩ := first.exists_first
      exact ⟨t, ts ++ Tail.tokens rest, by simp [Value.tokens, same, Tail.tokens], plain⟩
  · cases v with
    | one c => exact c.exists_last
    | many first rest more =>
      rcases List.eq_nil_or_concat' rest with rfl | ⟨front, p, rfl⟩
      · exact absurd rfl more
      · obtain ⟨ts, t, same, plain⟩ := p.2.exists_last
        refine ⟨first.tokens ++ (Tail.tokens front ++ p.1.val :: ts), t, ?_, plain⟩
        simp [Value.tokens, Tail.tokens, same]

theorem Value.covers_all (v : Value) (ordered : Ordered v.tokens) :
    ∀ f ∈ v.tree.all, ∃ run, run <:+: v.tokens ∧ Covers f run := by
  have whole := v.covers ordered
  cases v with
  | one c => exact Expr.covers_all c.grouped ordered
  | many first rest more =>
    have inFirst : first.tokens <:+: (Value.many first rest more).tokens :=
      (List.prefix_append _ _).isInfix
    have inRest : Tail.tokens rest <:+: (Value.many first rest more).tokens :=
      (List.suffix_append _ _).isInfix
    -- Each element behind a comma stands in the tail by itself.
    have tail : ∀ rest : Tail, Ordered rest.tokens → ∀ f ∈ Expr.all.allIn rest.trees,
        ∃ run, run <:+: rest.tokens ∧ Covers f run := by
      intro rest ordered
      induction rest with
      | nil => exact fun f hf => absurd hf List.not_mem_nil
      | cons p rest ih =>
        have here : p.2.tokens <:+: Tail.tokens (p :: rest) := ⟨[p.1.val], Tail.tokens rest, rfl⟩
        have behind : Tail.tokens rest <:+: Tail.tokens (p :: rest) :=
          (List.suffix_append (p.1.val :: p.2.tokens) _).isInfix
        intro f hf
        rcases List.mem_append.mp hf with hf | hf
        · obtain ⟨run, inside, covers⟩ :=
            Expr.covers_all p.2.grouped (ordered.sublist here.sublist) f hf
          exact ⟨run, inside.trans here, covers⟩
        · obtain ⟨run, inside, covers⟩ := ih (ordered.sublist behind.sublist) f hf
          exact ⟨run, inside.trans behind, covers⟩
    intro f hf
    rcases List.mem_cons.mp hf with rfl | hf
    · exact ⟨_, List.infix_rfl, whole⟩
    · rcases List.mem_append.mp hf with hf | hf
      · obtain ⟨run, inside, covers⟩ :=
          Expr.covers_all first.grouped (ordered.sublist inFirst.sublist) f hf
        exact ⟨run, inside.trans inFirst, covers⟩
      · obtain ⟨run, inside, covers⟩ := tail rest (ordered.sublist inRest.sublist) f hf
        exact ⟨run, inside.trans inRest, covers⟩

theorem Clauses.exists_value (c : Clauses) {e : Expr} (he : e ∈ c.tree.conditions) :
    ∃ v : Value, v.tree = e ∧ v.tokens <:+: c.tokens := by
  match c with
  | .nothing | .otherwise _ _ _ => cases he
  | .elseIf breaks first condition body rest =>
    rcases List.mem_cons.mp he with rfl | he
    · exact ⟨.one condition, rfl, words breaks ++ [first.val], body.tokens ++ rest.tokens,
        by simp [Clauses.tokens, Value.tokens]⟩
    · obtain ⟨v, same, inside⟩ := rest.exists_value he
      have behind : rest.tokens <:+: (Clauses.elseIf breaks first condition body rest).tokens :=
        ⟨words breaks ++ first.val :: (condition.tokens ++ body.tokens), [],
          by simp [Clauses.tokens]⟩
      exact ⟨v, same, inside.trans behind⟩

theorem Stmt.exists_value (s : Stmt) {e : Expr} (he : e ∈ s.tree.expressions) :
    ∃ v : Value, v.tree = e ∧ v.tokens <:+: s.tokens := by
  cases s with
  | assign first name becomes value last =>
    obtain rfl := List.mem_singleton.mp he
    exact ⟨value, rfl, [first.val, name.val, becomes.val], [last.val], by simp [Stmt.tokens]⟩
  | conditional first condition body clauses =>
    rcases List.mem_cons.mp he with rfl | he
    · exact ⟨.one condition, rfl, [first.val], body.tokens ++ clauses.tokens,
        by simp [Stmt.tokens, Value.tokens]⟩
    · obtain ⟨v, same, inside⟩ := clauses.exists_value he
      have behind : clauses.tokens <:+: (Stmt.conditional first condition body clauses).tokens :=
        ⟨first.val :: (condition.tokens ++ body.tokens), [], by simp [Stmt.tokens]⟩
      exact ⟨v, same, inside.trans behind⟩
  | whileLoop first condition close suffix body =>
    obtain rfl := List.mem_singleton.mp he
    exact ⟨.one condition, rfl, [first.val], close.val :: suffix.val :: body.tokens,
      by simp [Stmt.tokens, Value.tokens]⟩
  | countedLoop => cases he

/-- Every statement of a derivation, however deep, is a row of its tokens. -/
theorem Derivation.exists_stmt (d : Derivation) {s : Statement} (hs : s ∈ nestedAll d.trees) :
    ∃ r : Stmt, r.tree = s ∧ r.tokens <:+: d.tokens := by
  rw [← d.filterMap_landmarks []] at hs
  obtain ⟨m, hm, isTree⟩ := List.mem_filterMap.mp hs
  have whole : d.tokens = [] ++ d.tokens := rfl
  have fits := d.landmarks_fit whole rfl m hm
  cases m with
  | statement front r blocks =>
    obtain ⟨-, behind, whole⟩ := fits
    exact ⟨r, Option.some.inj isTree, front, behind, whole.symm⟩
  | closing => cases isTree

end Grammar

/-- What stands in the source for a token whose kind leaves no choice; of a counted loop, the phrase
alone. -/
def Kind.spelling : Kind → List Char
  | .keyword k => k.letters
  | .operator o => [o.symbol]
  | .punctuation p => [p.symbol]
  | _ => []

theorem Lexeme.spelling_prefix (c : Char) (cs : List Char) :
    (atStart c cs).kind.spelling <+: (atStart c cs).text := by
  have form := form_atStart c cs
  generalize atStart c cs = x at form
  cases form with
  | punctuation isSymbol =>
    rw [Punctuation.ofChar?_eq_some_iff.mp isSymbol]
    exact List.prefix_rfl
  | operator _ isSymbol =>
    rw [Operator.ofChar?_eq_some_iff.mp isSymbol]
    exact List.prefix_rfl
  | keyword => exact List.prefix_append _ _
  | @name s => cases s <;> exact List.nil_prefix
  | _ => exact List.nil_prefix

theorem Lexeme.text_of_end {c : Char} {cs : List Char} (ends : isStatementEnd (atStart c cs).kind) :
    (atStart c cs).text = (atStart c cs).kind.spelling := by
  have form := form_atStart c cs
  generalize atStart c cs = x at form ends ⊢
  cases form with
  | punctuation isSymbol =>
    rw [Punctuation.ofChar?_eq_some_iff.mp isSymbol]
    rfl
  | operator => rcases ends with ends | ends <;> cases ends
  | @keyword k =>
    rcases ends with ends | ends
    · obtain rfl : k = .endOfAssign := Kind.keyword.inj ends
      exact List.append_nil _
    · cases ends
  | @name s => cases s <;> rcases ends with ends | ends <;> cases ends
  | _ => rcases ends with ends | ends <;> cases ends

section
variable {tab : UInt64} {source : String} {t : Token}

theorem exists_lexeme (ht : t ∈ tokenize tab source) (plain : t.kind.isLayout = false) :
    ∃ c cs, t.kind = (Lexeme.atStart c cs).kind ∧
      slice source.toList t.span.start t.span.stop = (Lexeme.atStart c cs).text := by
  obtain ⟨front, behind, same⟩ := List.append_of_mem ht
  obtain ⟨s, c, cs, rest, located⟩ := exists_located same plain
  exact ⟨c, cs, by rw [located.token], located.slice_eq⟩

theorem spelling_prefix_slice (ht : t ∈ tokenize tab source) (plain : t.kind.isLayout = false) :
    t.kind.spelling <+: slice source.toList t.span.start t.span.stop := by
  obtain ⟨c, cs, kind, cut⟩ := exists_lexeme ht plain
  rw [kind, cut]
  exact Lexeme.spelling_prefix c cs

theorem slice_of_end (ht : t ∈ tokenize tab source) (ends : isStatementEnd t.kind) :
    slice source.toList t.span.start t.span.stop = t.kind.spelling := by
  have plain : t.kind.isLayout = false := by
    rcases ends with ends | ends <;> rw [ends] <;> rfl
  obtain ⟨c, cs, kind, cut⟩ := exists_lexeme ht plain
  rw [kind] at ends ⊢
  rw [cut]
  exact Lexeme.text_of_end ends

end

/-- How the span of a statement lies in its source, and the spans of its parts in it. -/
structure Enclosed (source : List Char) (s : Statement) : Prop where
  nonempty : s.span.start < s.span.stop
  inside : s.span.stop ≤ byteLength source
  begins : s.firstKind.spelling <+: slice source s.span.start s.span.stop
  ends : s.lastKind.spelling <:+ slice source s.span.start s.span.stop
  parts : ∀ part ∈ s.parts,
    s.span.start < part.start ∧ part.start < part.stop ∧ part.stop < s.span.stop
  inOrder : s.parts.Pairwise fun a b => a.stop ≤ b.start

theorem isLayout_edges (s : Statement) :
    s.firstKind.isLayout = false ∧ s.lastKind.isLayout = false := by
  cases s <;> exact ⟨rfl, rfl⟩

theorem Cuts.start_lt_stop {source : List Char} {t : Token} (cuts : Cuts source t)
    (plain : t.kind.isLayout = false) : t.span.start < t.span.stop := by
  refine cuts.nonempty fun isDedent => ?_
  rw [isDedent] at plain
  cases plain

theorem spanOf_wide {source : List Char} {row : List Token} (part : IsPart row)
    (ordered : Ordered row) (cuts : ∀ t ∈ row, Cuts source t) :
    (spanOf row).start < (spanOf row).stop := by
  obtain ⟨t, ts, rfl, plain⟩ := part
  have wide := (cuts t List.mem_cons_self).start_lt_stop plain
  have start : (spanOf (t :: ts)).start = t.span.start := rfl
  have stop := ordered.le_stop List.mem_cons_self
  omega

theorem Grammar.Stmt.span_edges {r : Stmt} {first last : Token} {inner : List Token}
    (same : r.tokens = first :: (inner ++ [last])) (ordered : Ordered r.tokens) :
    r.tree.span.start = first.span.start ∧ r.tree.span.stop = last.span.stop ∧
      first.span.stop ≤ r.tree.span.stop ∧ r.tree.span.start ≤ last.span.start := by
  have hfirst : first ∈ r.tokens := by simp [same]
  have hlast : last ∈ r.tokens := by simp [same]
  have stop : endOffset r.tokens = last.span.stop := by
    rw [same]
    exact endOffset_concat (first :: inner) last
  rw [r.span_tree]
  exact ⟨by rw [same]; rfl, stop, ordered.le_stop hfirst, ordered.start_le hlast⟩

theorem enclosed_of_row {tab : UInt64} {source : String} {r : Stmt}
    (within : r.tokens <:+: tokenize tab source) : Enclosed source.toList r.tree := by
  obtain ⟨front, g, tiled⟩ := exists_tiled tab source
  have ordered : Ordered r.tokens := tiled.ordered.sublist within.sublist
  have cuts : ∀ t ∈ r.tokens, Cuts source.toList t := fun t ht => tiled.cuts t (within.subset ht)
  obtain ⟨first, inner, last, same, inside, firstKind, lastKind⟩ := r.exists_edges
  have plain := isLayout_edges r.tree
  have hfirst : first ∈ r.tokens := by simp [same]
  have hlast : last ∈ r.tokens := by simp [same]
  have wide_first := (cuts first hfirst).start_lt_stop (firstKind ▸ plain.1)
  have wide_last := (cuts last hlast).start_lt_stop (lastKind ▸ plain.2)
  obtain ⟨start, stop, first_le, le_last⟩ := r.span_edges same ordered
  have rows : Ordered (first :: (r.segments.flatten ++ [last])) := by
    refine ordered.sublist ?_
    rw [same]
    exact (inside.append (List.Sublist.refl [last])).cons_cons first
  have between : Ordered r.segments.flatten :=
    rows.sublist ((List.sublist_append_left _ _).cons first)
  have parts := r.isPart_segments
  have nonempty : ∀ row ∈ r.segments, row ≠ [] := fun row hrow => (parts row hrow).ne_nil
  refine ⟨by omega, stop ▸ (cuts last hlast).inside, ?_, ?_, ?_, ?_⟩
  · have here := spelling_prefix_slice (within.subset hfirst) (firstKind ▸ plain.1)
    rw [firstKind, ← start] at here
    exact here.trans (slice_front _ _ first_le)
  · have here := slice_of_end (within.subset hlast) (lastKind ▸ isStatementEnd_lastKind r.tree)
    rw [lastKind, ← stop] at here
    rw [← here]
    exact slice_back _ _ le_last
  · intro part hpart
    rw [r.parts_tree between] at hpart
    obtain ⟨row, hrow, rfl⟩ := List.mem_map.mp hpart
    have inFlat := List.sublist_flatten_of_mem hrow
    have inTokens : row ⊆ r.tokens := fun t ht => by
      rw [same]
      exact List.mem_cons_of_mem _
        (List.mem_append_left _ (inside.subset (inFlat.subset ht)))
    have wide := spanOf_wide (parts row hrow) (between.sublist inFlat)
      fun t ht => cuts t (inTokens ht)
    have apart := rows.row_between hrow (nonempty row hrow)
    omega
  · rw [r.parts_tree between]
    exact between.rows_pairwise nonempty

/-- In a source that is read, the statements at the top level stand one behind the other, each
statement encloses its parts in their order, and each expression covers its tokens. -/
theorem ofSource_enclosed {tab : UInt64} {source : String} {p : Program}
    (accepted : Program.ofSource tab source = .ok p) :
    (p.statements.Pairwise fun a b => a.span.stop ≤ b.span.start) ∧
    ∀ s ∈ nestedAll p.statements, Enclosed source.toList s ∧
      ∀ e ∈ s.expressions, ∀ f ∈ e.all, ∃ run, run <:+: tokenize tab source ∧ Covers f run := by
  obtain ⟨d, same, rfl⟩ := ofTokens_sound accepted
  obtain ⟨front, g, tiled⟩ := exists_tiled tab source
  have ordered := tiled.ordered
  rw [← same] at ordered
  refine ⟨?_, fun s hs => ?_⟩
  · have rows := (ordered.sublist d.segments_sublist).rows_pairwise fun row hrow =>
      (d.isPart_segments row hrow).ne_nil
    rw [← d.map_span] at rows
    exact List.pairwise_map.mp rows
  · obtain ⟨r, rfl, within⟩ := d.exists_stmt hs
    refine ⟨enclosed_of_row (same ▸ within), fun e he f hf => ?_⟩
    obtain ⟨v, rfl, inside⟩ := r.exists_value he
    have inTokens := inside.trans within
    obtain ⟨run, here, covers⟩ := v.covers_all (ordered.sublist inTokens.sublist) f hf
    exact ⟨run, same ▸ here.trans inTokens, covers⟩

def choiceSource : String :=
  "sweet $a + 2 * b \x7b\n" ++
  " I would love to own a plot of land in the 1800s called £b and lease it to 7, c - 1 owners\n" ++
  "\x7d sweet but stout x \x7b\n ($n) yarp' \x7b\n  lolsie £i \x7b\n" ++
  "   I would love to own a plot of land in the 1800s called $x and lease it to £i owners\n" ++
  "  \x7d\n \x7d\n\x7d"

theorem ofSource_enclosed_choice :
    ∃ p, Program.ofSource 4 choiceSource = .ok p ∧
      (p.statements.Pairwise fun a b => a.span.stop ≤ b.span.start) ∧
      ∀ s ∈ nestedAll p.statements, Enclosed choiceSource.toList s ∧
        ∀ e ∈ s.expressions, ∀ f ∈ e.all,
          ∃ run, run <:+: tokenize 4 choiceSource ∧ Covers f run := by
  have isRead : (Program.ofSource 4 choiceSource).toOption.isSome = true := by decide +kernel
  cases accepted : Program.ofSource 4 choiceSource with
  | error e => rw [accepted] at isRead; cases isRead
  | ok p => exact ⟨p, rfl, ofSource_enclosed accepted⟩

end PhraseLang
