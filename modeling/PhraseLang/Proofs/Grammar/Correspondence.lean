import Mathlib.Data.List.Forall2
import PhraseLang.Proofs.Grammar.Acceptance

/-! What the reading of tokens depends on.
The reader looks at the kinds of tokens, and at the texts of those that count a loop. Two rows that
agree in these are read alike: the trees, or the errors, are the same but for the tokens in them,
and these correspond. The proof is for any relation of tokens that keeps what the reader looks at:
each reader takes related rows to related results. -/
namespace PhraseLang

/-- Tokens that the reader does not tell apart. -/
structure Token.Alike (a b : Token) : Prop where
  kind_eq : a.kind = b.kind
  text_eq : a.kind = .keyword .countedLoop → a.text = b.text

/-- The tokens at one index of two rows. -/
def SameIndex (ts us : List Token) (a b : Token) : Prop :=
  ∃ i : Nat, ts[i]? = some a ∧ us[i]? = some b

/-- Two spans from the starts of related tokens to the ends of related tokens. -/
inductive Span.Related (R : Token → Token → Prop) : Span → Span → Prop where
  | mk {first first' last last' : Token} : R first first' → R last last' →
      Related R ⟨first.span.start, last.span.stop⟩ ⟨first'.span.start, last'.span.stop⟩

/-- Expressions of one shape, with related tokens in the same places. -/
inductive Expr.Related (R : Token → Token → Prop) : Expr → Expr → Prop where
  | literal {t t' : Token} : R t t' → Related R (.literal t) (.literal t')
  | binary {left left' right right' : Expr} {op op' : Token} : Related R left left' → R op op' →
      Related R right right' → Related R (.binary left op right) (.binary left' op' right')
  | array {es es' : List Expr} : List.Forall₂ (Related R) es es' →
      Related R (.array es) (.array es')

mutual

inductive Statement.Related (R : Token → Token → Prop) : Statement → Statement → Prop where
  | assign {span span' : Span} {name name' : Token} {value value' : Expr} :
      span.Related R span' → R name name' → value.Related R value' →
      Statement.Related R (.assign span name value) (.assign span' name' value')
  | conditional {span span' : Span} {condition condition' : Expr} {body body' : List Statement}
      {rest rest' : Alternative} :
      span.Related R span' → condition.Related R condition' → Statement.AllRelated R body body' →
      Alternative.Related R rest rest' →
      Statement.Related R (.conditional span condition body rest)
        (.conditional span' condition' body' rest')
  | whileLoop {span span' : Span} {condition condition' : Expr} {body body' : List Statement} :
      span.Related R span' → condition.Related R condition' → Statement.AllRelated R body body' →
      Statement.Related R (.whileLoop span condition body) (.whileLoop span' condition' body')
  | countedLoop {span span' : Span} {binding binding' : Token} {body body' : List Statement}
      (count : UInt64) :
      span.Related R span' → R binding binding' → Statement.AllRelated R body body' →
      Statement.Related R (.countedLoop span count binding body)
        (.countedLoop span' count binding' body')

inductive Statement.AllRelated (R : Token → Token → Prop) :
    List Statement → List Statement → Prop where
  | nil : Statement.AllRelated R [] []
  | cons {s s' : Statement} {rest rest' : List Statement} : Statement.Related R s s' →
      Statement.AllRelated R rest rest' → Statement.AllRelated R (s :: rest) (s' :: rest')

inductive Alternative.Related (R : Token → Token → Prop) : Alternative → Alternative → Prop where
  | nothing : Alternative.Related R .nothing .nothing
  | otherwise {body body' : List Statement} : Statement.AllRelated R body body' →
      Alternative.Related R (.otherwise body) (.otherwise body')
  | elseIf {condition condition' : Expr} {body body' : List Statement} {rest rest' : Alternative} :
      condition.Related R condition' → Statement.AllRelated R body body' →
      Alternative.Related R rest rest' →
      Alternative.Related R (.elseIf condition body rest) (.elseIf condition' body' rest')

end

/-- The two ends of the tokens, or where related tokens begin. -/
inductive EndsAlike (R : Token → Token → Prop) (eof eof' : Nat) : Nat → Nat → Prop where
  | ofTokens : EndsAlike R eof eof' eof eof'
  | ofRun {stop stop' : Token} : R stop stop' →
      EndsAlike R eof eof' stop.span.start stop'.span.start

/-- Errors of one form about the same kinds, that found related tokens or an end. -/
inductive ParseError.Related (R : Token → Token → Prop) (eof eof' : Nat) :
    ParseError → ParseError → Prop where
  | unexpectedToken {found found' : Token} (expected : List Kind) : R found found' →
      Related R eof eof' (.unexpectedToken found expected) (.unexpectedToken found' expected)
  | unexpectedEnd {stop stop' : Nat} (expected : List Kind) : EndsAlike R eof eof' stop stop' →
      Related R eof eof' (.unexpectedEnd expected stop) (.unexpectedEnd expected stop')
  | notAnOperand {found found' : Token} : R found found' →
      Related R eof eof' (.notAnOperand found) (.notAnOperand found')
  | notAStatement {found found' : Token} : R found found' →
      Related R eof eof' (.notAStatement found) (.notAStatement found')
  | badCount {found found' : Token} : R found found' →
      Related R eof eof' (.badCount found) (.badCount found')

namespace Grammar
open Reader Run

/-- Two results that are both there and related, or both related errors. -/
inductive Both (R : Token → Token → Prop) (eof eof' : Nat) {α : Type} (V : α → α → Prop) :
    Except ParseError α → Except ParseError α → Prop where
  | ok {a a' : α} : V a a' → Both R eof eof' V (.ok a) (.ok a')
  | error {e e' : ParseError} : e.Related R eof eof' e' → Both R eof eof' V (.error e) (.error e')

/-- What was read is related, and so are the rows behind it. -/
def Behind (R : Token → Token → Prop) {α : Type} (V : α → α → Prop) (p p' : α × List Token) :
    Prop :=
  V p.1 p'.1 ∧ List.Forall₂ R p.2 p'.2

section
variable {R : Token → Token → Prop} {eof eof' : Nat} {α β : Type} {V : α → α → Prop}
  {W : β → β → Prop}

theorem Both.bind {x y : Except ParseError α} {f g : α → Except ParseError β}
    (first : Both R eof eof' V x y)
    (next : ∀ a a', V a a' → Both R eof eof' W (f a) (g a')) :
    Both R eof eof' W (x >>= f) (y >>= g) := by
  cases first with
  | ok related => exact next _ _ related
  | error related => exact .error related

theorem Both.map {x y : Except ParseError α} {f g : α → β} (first : Both R eof eof' V x y)
    (next : ∀ a a', V a a' → W (f a) (g a')) : Both R eof eof' W (x.map f) (y.map g) := by
  cases first with
  | ok related => exact .ok (next _ _ related)
  | error related => exact .error related

/-- The readings behind related readings are of related rows. -/
theorem Both.read {x y : Except ParseError (α × List Token)}
    {f g : α × List Token → Except ParseError β} (first : Both R eof eof' (Behind R V) x y)
    (next : ∀ a a' ts us, V a a' → List.Forall₂ R ts us →
      Both R eof eof' W (f (a, ts)) (g (a', us))) :
    Both R eof eof' W (x >>= f) (y >>= g) :=
  first.bind fun p p' related => next p.1 p'.1 p.2 p'.2 related.1 related.2

end

section
variable {R : Token → Token → Prop} (alike : ∀ a b, R a b → a.Alike b)
include alike

theorem related_extend {op op' operand operand' : Token} (hop : R op op')
    (hoperand : R operand operand') (e e' : Expr) (related : e.Related R e') :
    (e.extend op operand).Related R (e'.extend op' operand') := by
  match e with
  | .literal t =>
    cases related with
    | literal h => exact .binary (.literal h) hop (.literal hoperand)
  | .array es =>
    cases related with
    | array h => exact .binary (.array h) hop (.literal hoperand)
  | .binary left top right =>
    cases related with
    | binary hleft htop hright =>
      have strengths (t t' : Token) (h : R t t') : Expr.strength t = Expr.strength t' := by
        rw [Expr.strength, Expr.strength, (alike t t' h).kind_eq]
      unfold Expr.extend
      rw [strengths _ _ htop, strengths _ _ hop]
      split
      · exact .binary hleft htop (related_extend hop hoperand right _ hright)
      · exact .binary (.binary hleft htop hright) hop (.literal hoperand)

variable {ts us : List Token} {eof eof' : Nat}

theorem elements_alike {isArray : Bool} {stop stop' : Nat} {current current' : Expr}
    (ends : EndsAlike R eof eof' stop stop') (related : current.Related R current')
    (rows : List.Forall₂ R ts us) :
    Both R eof eof' (List.Forall₂ (Expr.Related R)) (elements isArray stop current ts)
      (elements isArray stop' current' us) := by
  fun_induction elements isArray stop current ts generalizing current' us with
  | case1 =>
    cases rows with
    | nil => exact .ok (.cons related .nil)
  | case2 current separator allowed =>
    cases rows with
    | cons h rows =>
      cases rows with
      | nil =>
        rw [(alike _ _ h).kind_eq] at allowed
        rw [elements, if_pos allowed]
        exact .error (.unexpectedEnd operandKinds ends)
  | case3 current separator allowed operand rest literal isComma ih =>
    cases rows with
    | cons h rows =>
      cases rows with
      | cons h' rows =>
        rw [(alike _ _ h).kind_eq] at allowed isComma
        rw [(alike _ _ h').kind_eq] at literal
        rw [elements, if_pos allowed]
        simp only [literal, isComma, if_true]
        exact (ih (.literal h') rows).map fun _ _ others => .cons related others
  | case4 current separator allowed operand rest literal notComma ih =>
    cases rows with
    | cons h rows =>
      cases rows with
      | cons h' rows =>
        rw [(alike _ _ h).kind_eq] at allowed notComma
        rw [(alike _ _ h').kind_eq] at literal
        rw [elements, if_pos allowed]
        simp only [literal, if_neg notComma, if_true]
        exact ih (related_extend alike h h' _ _ related) rows
  | case5 current separator allowed operand rest notLiteral =>
    cases rows with
    | cons h rows =>
      cases rows with
      | cons h' rows =>
        rw [(alike _ _ h).kind_eq] at allowed
        rw [(alike _ _ h').kind_eq] at notLiteral
        rw [elements, if_pos allowed]
        simp only [if_neg notLiteral]
        exact .error (.notAnOperand h')
  | case6 current separator rest notAllowed =>
    cases rows with
    | cons h rows =>
      rw [(alike _ _ h).kind_eq] at notAllowed
      unfold elements
      rw [if_neg notAllowed]
      exact .error (.unexpectedToken _ h)

theorem rows_while (test : Kind → Bool) (rows : List.Forall₂ R ts us) :
    List.Forall₂ R (ts.takeWhile fun t => test t.kind) (us.takeWhile fun t => test t.kind) ∧
      List.Forall₂ R (ts.dropWhile fun t => test t.kind) (us.dropWhile fun t => test t.kind) := by
  induction rows with
  | nil => exact ⟨.nil, .nil⟩
  | cons h rows ih =>
    simp only [List.takeWhile_cons, List.dropWhile_cons, (alike _ _ h).kind_eq]
    split
    · exact ⟨.cons h ih.1, ih.2⟩
    · exact ⟨.nil, .cons h rows⟩

theorem any_alike (test : Kind → Bool) (rows : List.Forall₂ R ts us) :
    (ts.any fun t => test t.kind) = us.any fun t => test t.kind := by
  induction rows with
  | nil => rfl
  | cons h rows ih => rw [List.any_cons, List.any_cons, (alike _ _ h).kind_eq, ih]

theorem read_alike {arrayAllowed : Bool} {stop stop' : Nat} (ends : EndsAlike R eof eof' stop stop')
    (rows : List.Forall₂ R ts us) :
    Both R eof eof' (Expr.Related R) (Run.read arrayAllowed stop ts)
      (Run.read arrayAllowed stop' us) := by
  have commas := any_alike alike (· == comma) rows
  cases rows with
  | nil => exact .error (.unexpectedEnd operandKinds ends)
  | cons h rows =>
    simp only [Run.read, (alike _ _ h).kind_eq, commas]
    split
    · refine (elements_alike alike ends (.literal h) rows).map fun es es' related => ?_
      cases related with
      | nil => exact .array .nil
      | cons first rest =>
        cases rest with
        | nil => exact first
        | cons second rest => exact .array (.cons first (.cons second rest))
    · exact .error (.notAnOperand h)

theorem expect_alike {kinds : List Kind} (rows : List.Forall₂ R ts us) :
    Both R eof eof' (Behind R R) (expect eof kinds ts) (expect eof' kinds us) := by
  cases rows with
  | nil => exact .error (.unexpectedEnd kinds .ofTokens)
  | cons h rows =>
    rw [expect, expect, (alike _ _ h).kind_eq]
    split
    · exact .ok ⟨h, rows⟩
    · exact .error (.unexpectedToken kinds h)

theorem through_alike {stop : Kind} (rows : List.Forall₂ R ts us) :
    Both R eof eof' (Behind R fun p p' => List.Forall₂ R p.1 p'.1 ∧ R p.2 p'.2)
      (through eof stop ts) (through eof' stop us) := by
  obtain ⟨run, behind⟩ := rows_while alike (· != stop) rows
  unfold through
  generalize ts.dropWhile (fun t => t.kind != stop) = left at behind
  generalize us.dropWhile (fun t => t.kind != stop) = left' at behind
  cases behind with
  | nil => exact .error (.unexpectedEnd [stop] .ofTokens)
  | cons h rows => exact .ok ⟨⟨run, h⟩, rows⟩

theorem assignment_alike {first first' : Token} (isFirst : R first first')
    (rows : List.Forall₂ R ts us) :
    Both R eof eof' (Behind R (Statement.Related R)) (assignment eof first ts)
      (assignment eof' first' us) := by
  refine (expect_alike alike rows).read fun name name' ts us isName rows => ?_
  refine (expect_alike alike rows).read fun _ _ ts us _ rows => ?_
  refine (through_alike alike rows).read fun p p' ts us isRun rows => ?_
  obtain ⟨isRun, isLast⟩ := isRun
  refine (read_alike alike (.ofRun isLast) isRun).bind fun value value' isValue => ?_
  exact .ok ⟨.assign (.mk isFirst isLast) isName isValue, rows⟩

end

section
variable {R : Token → Token → Prop} (alike : ∀ a b, R a b → a.Alike b)
include alike

theorem closing?_alike (depth : Nat) {ts us : List Token} (rows : List.Forall₂ R ts us) :
    Option.Rel (fun p p' => List.Forall₂ R p.1 p'.1 ∧ R p.2.1 p'.2.1 ∧ List.Forall₂ R p.2.2 p'.2.2)
      (closing? depth ts) (closing? depth us) := by
  induction rows generalizing depth with
  | nil => exact .none
  | @cons t u ts us h rows ih =>
    have inside (deeper : Nat) : Option.Rel
        (fun p p' => List.Forall₂ R p.1 p'.1 ∧ R p.2.1 p'.2.1 ∧ List.Forall₂ R p.2.2 p'.2.2)
        ((closing? deeper ts).map fun p => (t :: p.1, p.2.1, p.2.2))
        ((closing? deeper us).map fun p => (u :: p.1, p.2.1, p.2.2)) := by
      have later := ih deeper
      generalize closing? deeper ts = found at later
      generalize closing? deeper us = found' at later
      cases later with
      | none => exact .none
      | some related => exact .some ⟨.cons h related.1, related.2⟩
    unfold closing?
    simp only [(alike _ _ h).kind_eq]
    split
    · exact inside (depth + 1)
    · split
      · cases depth with
        | zero => exact .some ⟨.nil, h, rows⟩
        | succ outer => exact inside outer
      · exact inside depth

end

/-- Where related tokens end. -/
def StopsAlike (R : Token → Token → Prop) (stop stop' : Nat) : Prop :=
  ∃ t t', R t t' ∧ stop = t.span.stop ∧ stop' = t'.span.stop

theorem StopsAlike.span {R : Token → Token → Prop} {stop stop' : Nat} {first first' : Token}
    (stops : StopsAlike R stop stop') (isFirst : R first first') :
    Span.Related R ⟨first.span.start, stop⟩ ⟨first'.span.start, stop'⟩ := by
  obtain ⟨last, last', isLast, rfl, rfl⟩ := stops
  exact .mk isFirst isLast

section
variable {R : Token → Token → Prop} (alike : ∀ a b, R a b → a.Alike b)
  {eof eof' : Nat} {read read' : Reader (List Statement)}
  (bodies : ∀ ts us, List.Forall₂ R ts us →
    Both R eof eof' (Behind R (Statement.AllRelated R)) (read ts) (read' us))
  {ts us : List Token}
include alike bodies

theorem block_alike (rows : List.Forall₂ R ts us) :
    Both R eof eof' (Behind R fun p p' => Statement.AllRelated R p.1 p'.1 ∧ StopsAlike R p.2 p'.2)
      (block eof read ts) (block eof' read' us) := by
  refine (expect_alike alike rows).read fun _ _ ts us _ rows => ?_
  refine (expect_alike alike rows).read fun _ _ ts us _ rows => ?_
  refine (expect_alike alike rows).read fun _ _ ts us _ rows => ?_
  refine (bodies ts us rows).read fun statements statements' ts us inside rows => ?_
  refine (expect_alike alike rows).read fun brace brace' ts us isBrace rows => ?_
  exact .ok ⟨⟨inside, brace, brace', isBrace, rfl, rfl⟩, rows⟩

theorem guarded_alike (rows : List.Forall₂ R ts us) :
    Both R eof eof'
      (Behind R fun p p' => p.1.Related R p'.1 ∧ Statement.AllRelated R p.2.1 p'.2.1 ∧
        StopsAlike R p.2.2 p'.2.2)
      (guarded eof read ts) (guarded eof' read' us) := by
  refine (through_alike alike rows).read fun p p' ts us isRun rows => ?_
  obtain ⟨isRun, isBrace⟩ := isRun
  refine (read_alike alike (.ofRun isBrace) isRun).bind fun condition condition' isCondition => ?_
  refine (block_alike alike bodies (.cons isBrace rows)).read fun q q' ts us inside rows => ?_
  exact .ok ⟨⟨isCondition, inside⟩, rows⟩

theorem alternative_alike {n stop stop' : Nat} (stops : StopsAlike R stop stop')
    (rows : List.Forall₂ R ts us) :
    Both R eof eof' (Behind R fun p p' => p.1.Related R p'.1 ∧ StopsAlike R p.2 p'.2)
      (alternative eof read n stop ts) (alternative eof' read' n stop' us) := by
  induction n generalizing stop stop' ts us with
  | zero => exact .ok ⟨⟨.nothing, stops⟩, rows⟩
  | succ n ih =>
    have behind := (rows_while alike (· == .newline) rows).2
    unfold alternative
    generalize ts.dropWhile (fun t => t.kind == .newline) = left at behind
    generalize us.dropWhile (fun t => t.kind == .newline) = left' at behind
    cases behind with
    | nil => exact .ok ⟨⟨.nothing, stops⟩, rows⟩
    | cons h later =>
      simp only [(alike _ _ h).kind_eq]
      split
      · refine (guarded_alike alike bodies later).read fun p p' ts us inside rows => ?_
        obtain ⟨isCondition, isBody, stops⟩ := inside
        refine (ih stops rows).read fun q q' ts us more rows => ?_
        exact .ok ⟨⟨.elseIf isCondition isBody more.1, more.2⟩, rows⟩
      · split
        · refine (block_alike alike bodies later).read fun p p' ts us inside rows => ?_
          exact .ok ⟨⟨.otherwise inside.1, inside.2⟩, rows⟩
        · exact .ok ⟨⟨.nothing, stops⟩, rows⟩

theorem conditional_alike {n : Nat} {first first' : Token} (isFirst : R first first')
    (rows : List.Forall₂ R ts us) :
    Both R eof eof' (Behind R (Statement.Related R)) (conditional eof read n first ts)
      (conditional eof' read' n first' us) := by
  refine (guarded_alike alike bodies rows).read fun p p' ts us inside rows => ?_
  obtain ⟨isCondition, isBody, stops⟩ := inside
  refine (alternative_alike alike bodies stops rows).read fun q q' ts us more rows => ?_
  exact .ok ⟨.conditional (more.2.span isFirst) isCondition isBody more.1, rows⟩

theorem whileLoop_alike {first first' : Token} (isFirst : R first first')
    (rows : List.Forall₂ R ts us) :
    Both R eof eof' (Behind R (Statement.Related R)) (whileLoop eof read first ts)
      (whileLoop eof' read' first' us) := by
  have refused : Both R eof eof' (Behind R (Statement.Related R))
      (.error (.notAStatement first)) (.error (.notAStatement first')) :=
    .error (.notAStatement isFirst)
  have found := closing?_alike alike 0 rows
  unfold whileLoop
  generalize closing? 0 ts = header at found
  generalize closing? 0 us = header' at found
  cases found with
  | none => exact refused
  | @some p p' related =>
    obtain ⟨run, close, rest⟩ := p
    obtain ⟨run', close', rest'⟩ := p'
    obtain ⟨isRun, isClose, behind⟩ := related
    cases behind with
    | nil => exact refused
    | cons h later =>
      simp only [(alike _ _ h).kind_eq]
      split
      · refine (read_alike alike (.ofRun isClose) isRun).bind fun condition condition' value => ?_
        refine (block_alike alike bodies later).read fun q q' ts us inside rows => ?_
        exact .ok ⟨.whileLoop (inside.2.span isFirst) value inside.1, rows⟩
      · exact refused

theorem countedLoop_alike {first first' : Token} (isFirst : R first first')
    (isCount : first.kind = .keyword .countedLoop) (rows : List.Forall₂ R ts us) :
    Both R eof eof' (Behind R (Statement.Related R)) (countedLoop eof read first ts)
      (countedLoop eof' read' first' us) := by
  unfold countedLoop
  rw [(alike _ _ isFirst).text_eq isCount]
  split
  · exact .error (.badCount isFirst)
  · rename_i count _
    refine (expect_alike alike rows).read fun binding binding' ts us isBinding rows => ?_
    refine (block_alike alike bodies rows).read fun q q' ts us inside rows => ?_
    exact .ok ⟨.countedLoop count (inside.2.span isFirst) isBinding inside.1, rows⟩

theorem statement_alike {n : Nat} (rows : List.Forall₂ R ts us) :
    Both R eof eof' (Behind R (Statement.Related R)) (statement eof read n ts)
      (statement eof' read' n us) := by
  cases rows with
  | nil => exact .error (.unexpectedEnd statementStarts .ofTokens)
  | @cons t u ts us h rows =>
    rw [statement, statement, ← (alike _ _ h).kind_eq]
    split
    · exact countedLoop_alike alike bodies h ‹_› rows
    · exact conditional_alike alike bodies h rows
    · exact whileLoop_alike alike bodies h rows
    · exact assignment_alike alike h rows
    · exact .error (.notAStatement h)

end

theorem allRelated_append {R : Token → Token → Prop} {a a' b b' : List Statement}
    (first : Statement.AllRelated R a a') (second : Statement.AllRelated R b b') :
    Statement.AllRelated R (a ++ b) (a' ++ b') := by
  induction a generalizing a' with
  | nil =>
    cases first with
    | nil => exact second
  | cons s a ih =>
    cases first with
    | cons h rest => exact .cons h (ih rest)

section
variable {R : Token → Token → Prop} (alike : ∀ a b, R a b → a.Alike b) (eof eof' : Nat)
include alike

theorem body_alike (n : Nat) : ∀ ts us, List.Forall₂ R ts us →
    Both R eof eof' (Behind R (Statement.AllRelated R)) (body eof n ts) (body eof' n us) := by
  induction n with
  | zero => exact fun _ _ _ => .error (.unexpectedEnd [.dedent] .ofTokens)
  | succ n ih =>
    intro ts us rows
    cases rows with
    | nil => exact .error (.unexpectedEnd [.dedent] .ofTokens)
    | @cons t u ts us h rows =>
      rw [body, body, ← (alike _ _ h).kind_eq]
      split
      · exact .ok ⟨.nil, rows⟩
      · exact ih ts us rows
      · refine (statement_alike alike ih (.cons h rows)).read fun s s' ts us isFirst rows => ?_
        refine (ih ts us rows).read fun others others' ts us isRest rows => ?_
        exact .ok ⟨.cons isFirst isRest, rows⟩

theorem statements_alike (n : Nat) {ts us : List Token} (rows : List.Forall₂ R ts us) :
    Both R eof eof' (Statement.AllRelated R) (statements eof n ts) (statements eof' n us) := by
  induction n generalizing ts us with
  | zero => exact .ok .nil
  | succ n ih =>
    cases rows with
    | nil => exact .ok .nil
    | @cons t u ts us h rows =>
      have bodies := body_alike alike eof eof' n
      rw [statements, statements, ← (alike _ _ h).kind_eq]
      split
      · exact ih rows
      · refine (block_alike alike bodies (.cons h rows)).read fun p p' ts us inside rows => ?_
        refine (ih rows).bind fun rest rest' related => ?_
        exact .ok (allRelated_append inside.1 related)
      · refine (statement_alike alike bodies (.cons h rows)).read fun s s' ts us isFirst rows => ?_
        refine (ih rows).bind fun rest rest' related => ?_
        exact .ok (.cons isFirst related)

end

section
variable {ts us : List Token} (alike : List.Forall₂ Token.Alike ts us)
include alike

theorem forall₂_sameIndex : List.Forall₂ (SameIndex ts us) ts us := by
  obtain ⟨size, -⟩ := List.forall₂_iff_get.mp alike
  refine List.forall₂_iff_get.mpr ⟨size, fun i h h' => ⟨i, ?_, ?_⟩⟩
  · exact List.getElem?_eq_getElem h
  · exact List.getElem?_eq_getElem h'

theorem alike_of_sameIndex (a b : Token) (same : SameIndex ts us a b) : a.Alike b := by
  obtain ⟨i, here, here'⟩ := same
  obtain ⟨h, rfl⟩ := List.getElem?_eq_some_iff.mp here
  obtain ⟨h', rfl⟩ := List.getElem?_eq_some_iff.mp here'
  exact (List.forall₂_iff_get.mp alike).2 i h h'

end

/-- Two rows of tokens that agree in their kinds, and in the texts that count loops, are read alike.
Either both are programs of one shape, with the tokens of the same indices in the same places and
all literals and operators of the rows in order; or both fail with the same error, which found the
tokens of one index, or an end, in both. -/
theorem ofTokens_alike {ts us : List Token} (alike : List.Forall₂ Token.Alike ts us) :
    (∃ p q, Program.ofTokens ts = .ok p ∧ Program.ofTokens us = .ok q ∧
      Statement.AllRelated (SameIndex ts us) p.statements q.statements ∧
      storedInAll p.statements = stored ts ∧ storedInAll q.statements = stored us) ∨
    ∃ e f, Program.ofTokens ts = .error e ∧ Program.ofTokens us = .error f ∧
      e.Related (SameIndex ts us) (endOffset ts) (endOffset us) f := by
  have both := statements_alike (alike_of_sameIndex alike) (endOffset ts) (endOffset us) ts.length
    (forall₂_sameIndex alike)
  have inOrder {ts : List Token} {p : Program} (read : Program.ofTokens ts = .ok p) :
      storedInAll p.statements = stored ts := by
    obtain ⟨d, rfl, rfl⟩ := ofTokens_sound read
    exact d.stored_tokens.symm
  have first : Program.ofTokens ts =
      (statements (endOffset ts) ts.length ts).map Program.mk := rfl
  have second : Program.ofTokens us =
      (statements (endOffset us) ts.length us).map Program.mk := by
    rw [Program.ofTokens, alike.length_eq]
  generalize statements (endOffset ts) ts.length ts = x at both first
  generalize statements (endOffset us) ts.length us = y at both second
  cases both with
  | ok related => exact .inl ⟨_, _, first, second, related, inOrder first, inOrder second⟩
  | error related => exact .inr ⟨_, _, first, second, related⟩

/-- A counted loop, and one on other lines with another name. -/
theorem ofTokens_alike_countedLoop :
    let row (name : String) (n : Nat) : List Token :=
      [⟨.keyword .countedLoop, "2", ⟨n, n + 6⟩⟩, ⟨.binding, name, ⟨n + 7, n + 9⟩⟩,
        ⟨.punctuation .leftCurly, "\x7b", ⟨n + 10, n + 11⟩⟩, ⟨.newline, "\n", ⟨n + 11, n + 12⟩⟩,
        ⟨.indent, "", ⟨n + 12, n + 13⟩⟩, ⟨.dedent, "", ⟨0, 0⟩⟩,
        ⟨.punctuation .rightCurly, "\x7d", ⟨n + 14, n + 15⟩⟩]
    List.Forall₂ Token.Alike (row "i" 0) (row "k" 40) ∧
      ∃ p q, Program.ofTokens (row "i" 0) = .ok p ∧ Program.ofTokens (row "k" 40) = .ok q ∧
        Statement.AllRelated (SameIndex (row "i" 0) (row "k" 40)) p.statements q.statements := by
  intro row
  have alike : List.Forall₂ Token.Alike (row "i" 0) (row "k" 40) := by
    repeat' constructor
    all_goals simp
  refine ⟨alike, ?_⟩
  rcases ofTokens_alike alike with ⟨p, q, first, second, related, -⟩ | ⟨e, f, failed, -⟩
  · exact ⟨p, q, first, second, related⟩
  · cases failed

end Grammar

end PhraseLang
