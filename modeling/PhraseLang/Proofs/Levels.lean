import Mathlib.Data.List.TakeWhile
import PhraseLang.Proofs.Lexeme
import PhraseLang.Proofs.Scan

/-! The stack of indentation.
The base level and the open levels above it form a strictly increasing stack, at every point of a
scan and between any two tokens of a source. An `Indent` pushes the width of the blanks that it
covers, a `Dedent` pops; measuring a line does one or the other and never both. -/
namespace PhraseLang.Layout
open Text

def stack (levels : List UInt64) : List UInt64 := 0 :: levels.reverse

def IsStack (widths : List UInt64) : Prop :=
  widths.head? = some 0 ∧ widths.Pairwise (· < ·)

/-- Open levels, innermost first, each wider than the one around it. -/
def Nested (levels : List UInt64) : Prop :=
  levels.Pairwise (· > ·) ∧ ∀ w ∈ levels, 0 < w

theorem Nested.isStack {levels : List UInt64} (nested : Nested levels) :
    IsStack (stack levels) := by
  refine ⟨rfl, List.pairwise_cons.mpr ⟨?_, List.pairwise_reverse.mpr nested.1⟩⟩
  exact fun w hw => nested.2 w (List.mem_reverse.mp hw)

theorem nested_nil : Nested [] := ⟨.nil, by simp⟩

theorem Nested.tail {levels : List UInt64} (nested : Nested levels) : Nested levels.tail :=
  ⟨nested.1.sublist (List.tail_sublist levels), fun w hw => nested.2 w (List.mem_of_mem_tail hw)⟩

theorem Nested.lt_of_top {levels : List UInt64} {w : UInt64} (nested : Nested levels)
    (wider : top levels < w) : ∀ v ∈ levels, v < w := by
  cases levels with
  | nil => simp
  | cons u levels =>
    intro v hv
    have wider : u < w := wider
    rcases List.mem_cons.mp hv with rfl | hv
    · exact wider
    · exact UInt64.lt_trans (List.rel_of_pairwise_cons nested.1 hv) wider

theorem Nested.cons {levels : List UInt64} {w : UInt64} (nested : Nested levels)
    (wider : top levels < w) : Nested (w :: levels) := by
  refine ⟨List.pairwise_cons.mpr ⟨nested.lt_of_top wider, nested.1⟩, ?_⟩
  intro v hv
  rcases List.mem_cons.mp hv with rfl | hv
  · exact UInt64.lt_of_le_of_lt UInt64.zero_le wider
  · exact nested.2 v hv

theorem Nested.dropWhile_eq_filter {levels : List UInt64} (nested : Nested levels) (w : UInt64) :
    levels.dropWhile (w < ·) = levels.filter (· ≤ w) := by
  induction levels with
  | nil => rfl
  | cons u levels ih =>
    by_cases wider : w < u
    · have above : ¬ u ≤ w := UInt64.not_le.mpr wider
      simp [wider, above, ih nested.tail]
    · have below : u ≤ w := UInt64.not_lt.mp wider
      have all : ∀ v ∈ levels, v ≤ w := fun v hv =>
        UInt64.le_trans (UInt64.le_of_lt (List.rel_of_pairwise_cons nested.1 hv)) below
      have kept : levels.filter (· ≤ w) = levels :=
        List.filter_eq_self.mpr fun v hv => decide_eq_true (all v hv)
      simp [wider, below, kept]

theorem getLast?_stack (levels : List UInt64) : (stack levels).getLast? = some (top levels) := by
  cases levels with
  | nil => rfl
  | cons w levels => simp [stack, top, List.getLast?_cons]

theorem filter_stack (levels : List UInt64) (w : UInt64) :
    (stack levels).filter (· ≤ w) = stack (levels.filter (· ≤ w)) := by
  simp [stack]

def indentWidth (tab : UInt64) (source : List Char) (t : Token) : UInt64 :=
  width tab (slice source t.span.start t.span.stop)

/-- The open levels behind a token, given those in front of it. -/
def levelsAfter (tab : UInt64) (source : List Char) (levels : List UInt64) (t : Token) :
    List UInt64 :=
  match t.kind with
  | .indent => indentWidth tab source t :: levels
  | .dedent => levels.tail
  | _ => levels

def openLevels (tab : UInt64) (source : List Char) (tokens : List Token) : List UInt64 :=
  tokens.foldl (levelsAfter tab source) []

/-- Every `Indent` is wider than the level around it, and every `Dedent` closes a level. -/
def Steps (tab : UInt64) (source : List Char) : List UInt64 → List Token → Prop
  | _, [] => True
  | levels, t :: ts =>
    (t.kind = .indent → top levels < indentWidth tab source t) ∧
      (t.kind = .dedent → levels ≠ []) ∧ Steps tab source (levelsAfter tab source levels t) ts

def count (k : Kind) (tokens : List Token) : Nat := tokens.countP (·.kind = k)

section
variable {tab : UInt64} {source : List Char} {levels : List UInt64} {ts us : List Token}

theorem levelsAfter_of_not_layout {t : Token} (plain : t.kind.isLayout = false) :
    levelsAfter tab source levels t = levels := by
  obtain ⟨kind, text, span⟩ := t
  cases kind with
  | indent => cases plain
  | dedent => cases plain
  | _ => rfl

theorem Steps.append (first : Steps tab source levels ts)
    (second : Steps tab source (ts.foldl (levelsAfter tab source) levels) us) :
    Steps tab source levels (ts ++ us) := by
  induction ts generalizing levels with
  | nil => exact second
  | cons t ts ih => exact ⟨first.1, first.2.1, ih first.2.2 second⟩

theorem Steps.of_append (steps : Steps tab source levels (ts ++ us)) :
    Steps tab source levels ts := by
  induction ts generalizing levels with
  | nil => trivial
  | cons t ts ih => exact ⟨steps.1, steps.2.1, ih steps.2.2⟩

theorem Nested.levelsAfter {t : Token} (nested : Nested levels)
    (wider : t.kind = .indent → top levels < indentWidth tab source t) :
    Nested (levelsAfter tab source levels t) := by
  obtain ⟨kind, text, span⟩ := t
  cases kind with
  | indent => exact nested.cons (wider rfl)
  | dedent => exact nested.tail
  | _ => exact nested

theorem Steps.nested (steps : Steps tab source levels ts) (nested : Nested levels) :
    Nested (ts.foldl (levelsAfter tab source) levels) := by
  induction ts generalizing levels with
  | nil => exact nested
  | cons t ts ih => exact ih steps.2.2 (nested.levelsAfter steps.1)

/-- One level for every `Indent` that has no `Dedent` yet. -/
theorem Steps.length_add_count (steps : Steps tab source levels ts) :
    (ts.foldl (levelsAfter tab source) levels).length + count .dedent ts =
      levels.length + count .indent ts := by
  induction ts generalizing levels with
  | nil => rfl
  | cons t ts ih =>
    have more := ih steps.2.2
    have closes := steps.2.1
    obtain ⟨kind, text, span⟩ := t
    cases kind with
    | indent => simp [count, Layout.levelsAfter] at more ⊢; omega
    | dedent =>
      have positive := List.length_pos_iff.mpr (closes rfl)
      simp [count, Layout.levelsAfter] at more ⊢
      omega
    | _ => simpa [count, Layout.levelsAfter] using more

theorem steps_closing (tab : UInt64) (source : List Char) (levels : List UInt64)
    (test : UInt64 → Bool) (n : Nat) :
    Steps tab source levels ((levels.takeWhile test).map fun _ => ⟨.dedent, "", .point n⟩) ∧
      ((levels.takeWhile test).map fun _ => (⟨.dedent, "", .point n⟩ : Token)).foldl
        (levelsAfter tab source) levels = levels.dropWhile test := by
  induction levels with
  | nil => exact ⟨trivial, rfl⟩
  | cons w levels ih =>
    cases picked : test w with
    | false => simp [picked, Steps]
    | true =>
      rw [List.takeWhile_cons_of_pos picked, List.dropWhile_cons_of_pos picked]
      exact ⟨⟨by simp, by simp, ih.1⟩, ih.2⟩

end

theorem top_dropWhile_le (levels : List UInt64) (w : UInt64) :
    top (levels.dropWhile (w < ·)) ≤ w := by
  induction levels with
  | nil => exact UInt64.zero_le
  | cons u levels ih =>
    by_cases wider : w < u
    · rwa [List.dropWhile_cons_of_pos (by simpa using wider)]
    · rw [List.dropWhile_cons_of_neg (by simpa using wider)]
      exact UInt64.not_lt.mp wider

theorem lt_top_of_takeWhile {levels : List UInt64} {w : UInt64}
    (closes : levels.takeWhile (w < ·) ≠ []) : w < top levels := by
  cases levels with
  | nil => exact absurd rfl closes
  | cons u levels =>
    by_cases wider : w < u
    · exact wider
    · rw [List.takeWhile_cons_of_neg (by simpa using wider)] at closes
      exact absurd rfl closes

/-- What measuring a line of width `w` does to the stack, and the kinds of the tokens it emits. -/
structure Measured (w : UInt64) (old new : List UInt64) (layout : List Token) : Prop where
  wider : (∃ t ∈ old.getLast?, t < w) → new = old ++ [w] ∧ layout.map Token.kind = [.indent]
  narrower : (∃ t ∈ old.getLast?, ¬ t < w) → new = old.filter (· ≤ w) ∧
    layout.map Token.kind = List.replicate (old.length - new.length) .dedent

namespace LineStep
variable {tab : UInt64} {s : State} {indentation : List Char} {behind : List Piece}
  {layout : List Token} {levels : List UInt64}

theorem of_blank (line : LineStep tab s indentation behind layout levels)
    (blank : isBlankLine behind = true) : layout = [] ∧ levels = s.levels := by
  cases line with
  | blank => exact ⟨rfl, rfl⟩
  | deeper notBlank => rw [blank] at notBlank; cases notBlank
  | closing notBlank => rw [blank] at notBlank; cases notBlank

theorem measured (line : LineStep tab s indentation behind layout levels)
    (notBlank : isBlankLine behind = false) (nested : Nested s.levels) :
    Measured (width tab indentation) (stack s.levels) (stack levels) layout := by
  cases line with
  | blank blank => rw [notBlank] at blank; cases blank
  | deeper _ wider =>
    refine ⟨fun _ => ⟨by simp [stack], rfl⟩, ?_⟩
    rintro ⟨t, ht, narrow⟩
    rw [getLast?_stack] at ht
    obtain rfl := Option.mem_some.mp ht
    exact absurd wider narrow
  | closing _ narrow =>
    refine ⟨?_, fun _ => ⟨?_, ?_⟩⟩
    · rintro ⟨t, ht, wider⟩
      rw [getLast?_stack] at ht
      obtain rfl := Option.mem_some.mp ht
      exact absurd wider narrow
    · rw [filter_stack, nested.dropWhile_eq_filter]
    · have size := congrArg List.length (List.takeWhile_append_dropWhile
        (p := (width tab indentation < ·)) (l := s.levels))
      rw [List.length_append] at size
      have removed : (stack s.levels).length -
          (stack (s.levels.dropWhile (width tab indentation < ·))).length =
          (s.levels.takeWhile (width tab indentation < ·)).length := by
        simp only [stack, List.length_cons, List.length_reverse]
        omega
      rw [removed, List.map_map]
      exact List.map_const'

theorem kinds (line : LineStep tab s indentation behind layout levels) :
    (∃ t, layout = [t] ∧ t.kind = .indent) ∨ ∀ t ∈ layout, t.kind = .dedent := by
  cases line with
  | blank => exact .inr (by simp)
  | deeper => exact .inl ⟨_, rfl, rfl⟩
  | closing =>
    refine .inr fun t ht => ?_
    obtain ⟨_, _, rfl⟩ := List.mem_map.mp ht
    rfl

theorem isLayout_of_mem (line : LineStep tab s indentation behind layout levels) {t : Token}
    (ht : t ∈ layout) : t.kind.isLayout = true := by
  rcases line.kinds with ⟨u, rfl, isIndent⟩ | dedents
  · rw [List.mem_singleton.mp ht, isIndent]
    rfl
  · rw [dedents t ht]
    rfl

/-- A token of a measured line is the `Indent` alone, or one `Dedent` among others. -/
theorem kinds_at {a b : List Token} {t : Token}
    (line : LineStep tab s indentation behind (a ++ t :: b) levels) :
    a = [] ∧ b = [] ∧ t.kind = .indent ∨ ∀ d ∈ a ++ t :: b, d.kind = .dedent := by
  rcases line.kinds with ⟨u, single, isIndent⟩ | dedents
  · cases a with
    | nil =>
      obtain ⟨rfl, rfl⟩ := List.cons.inj single
      exact .inl ⟨rfl, rfl, isIndent⟩
    | cons x a => simp at single
  · exact .inr dedents

/-- A measured line that changes nothing is as wide as the innermost level. -/
theorem width_of_nil (line : LineStep tab s indentation behind layout levels)
    (notBlank : isBlankLine behind = false) (quiet : layout = []) :
    width tab indentation = top levels := by
  cases line with
  | blank blank => rw [notBlank] at blank; cases blank
  | deeper => cases quiet
  | closing _ narrow =>
    have kept := List.map_eq_nil_iff.mp quiet
    cases opened : s.levels with
    | nil =>
      rw [opened] at narrow
      exact UInt64.le_antisymm (UInt64.not_lt.mp narrow) UInt64.zero_le
    | cons u outer =>
      rw [opened] at narrow kept
      have within : ¬ width tab indentation < u := by
        intro closes
        rw [List.takeWhile_cons_of_pos (by simpa using closes)] at kept
        cases kept
      rw [List.dropWhile_cons_of_neg (by simpa using within)]
      exact UInt64.le_antisymm (UInt64.not_lt.mp narrow) (UInt64.not_lt.mp within)

theorem of_indent {t : Token} (line : LineStep tab s indentation behind [t] levels)
    (isIndent : t.kind = .indent) : width tab indentation = top levels := by
  generalize one : [t] = layout at line
  cases line with
  | blank => cases one
  | deeper => rfl
  | closing =>
    obtain ⟨w, _, rfl⟩ := List.mem_map.mp (one ▸ List.mem_singleton.mpr rfl)
    cases isIndent

/-- A line that closes levels lies between what is open before and what stays open. -/
theorem of_dedent (line : LineStep tab s indentation behind layout levels) {t : Token}
    (ht : t ∈ layout) (isDedent : t.kind = .dedent) :
    width tab indentation < top s.levels ∧ top levels ≤ width tab indentation := by
  cases line with
  | blank => cases ht
  | deeper =>
    obtain rfl := List.mem_singleton.mp ht
    cases isDedent
  | closing =>
    obtain ⟨w, closed, _⟩ := List.mem_map.mp ht
    exact ⟨lt_top_of_takeWhile (List.ne_nil_of_mem closed), top_dropWhile_le _ _⟩

end LineStep

namespace Scan
variable {tab : UInt64} {source text : List Char} {out : List Token} {s : State}

theorem slice_indentation {blanks rest : List Char}
    (scan : Scan tab source out s ('\n' :: blanks ++ rest)) :
    slice source (s.offset + 1) (s.offset + 1 + byteLength blanks) = blanks := by
  obtain ⟨front, same, size⟩ := scan.offset
  have whole : source = (front ++ ['\n']) ++ blanks ++ rest := by simp [same]
  have start : byteLength (front ++ ['\n']) = s.offset + 1 := by
    rw [byteLength_append, size]
    rfl
  rw [← start, whole, slice_append]

theorem dropBytes_feed {cs : List Char} (scan : Scan tab source out s ('\n' :: cs)) :
    dropBytes (s.offset + 1) source = cs := by
  obtain ⟨front, whole, size⟩ := scan.offset
  have same : source = (front ++ ['\n']) ++ cs := by simp [whole]
  have stop : byteLength (front ++ ['\n']) = s.offset + 1 := by
    rw [byteLength_append, size]
    rfl
  rw [← stop, same, dropBytes_byteLength_append]

theorem steps_tokens {c : Char} {cs rest : List Char} (scan : Scan tab source out s (c :: cs))
    (cut : c :: cs = (Piece.atStart c cs).source ++ rest) :
    Steps tab source s.levels (s.tokens tab (pieces rest) (Piece.atStart c cs)) ∧
      (s.tokens tab (pieces rest) (Piece.atStart c cs)).foldl (levelsAfter tab source) s.levels =
        (s.next tab (pieces rest) (Piece.atStart c cs)).levels := by
  have form := Piece.form_atStart c cs
  rw [cut] at scan
  generalize Piece.atStart c cs = p at form scan
  cases form with
  | newline =>
    have cutOut := scan.slice_indentation
    generalize cs.takeWhile Piece.isIndentation = blanks at scan cutOut
    obtain ⟨layout, same, line⟩ := lineStep tab s blanks (pieces rest)
    rw [same]
    generalize (s.next tab (pieces rest) (.newline blanks)).levels = levels at line
    cases line with
    | blank => exact ⟨⟨nofun, nofun, trivial⟩, rfl⟩
    | deeper _ wider =>
      have pushed : indentWidth tab source ⟨.indent, "",
          ⟨s.offset + 1, s.offset + 1 + byteLength blanks⟩⟩ = width tab blanks := by
        rw [indentWidth, cutOut]
      have shown : levelsAfter tab source s.levels ⟨.indent, "",
          ⟨s.offset + 1, s.offset + 1 + byteLength blanks⟩⟩ = width tab blanks :: s.levels :=
        congrArg (· :: s.levels) pushed
      exact ⟨⟨nofun, nofun, fun _ => by rwa [pushed], nofun, trivial⟩, shown⟩
    | closing =>
      have closed := steps_closing tab source s.levels (width tab blanks < ·)
        (s.offset + 1 + byteLength blanks)
      exact ⟨⟨nofun, nofun, closed.1⟩, closed.2⟩
  | blank => exact ⟨trivial, rfl⟩
  | comment => exact ⟨trivial, rfl⟩
  | lexeme =>
    have plain := Lexeme.isLayout_atStart c cs
    generalize Lexeme.atStart c cs = x at plain
    have same : levelsAfter tab source s.levels
        ⟨x.kind, x.value, ⟨s.offset, s.offset + byteLength x.text⟩⟩ = s.levels :=
      levelsAfter_of_not_layout plain
    refine ⟨⟨?_, ?_, trivial⟩, same⟩
    · intro isIndent
      have isIndent : x.kind = .indent := isIndent
      rw [isIndent] at plain
      cases plain
    · intro isDedent
      have isDedent : x.kind = .dedent := isDedent
      rw [isDedent] at plain
      cases plain

theorem levels (scan : Scan tab source out s text) :
    Steps tab source [] out ∧ openLevels tab source out = s.levels := by
  induction scan with
  | start => exact ⟨trivial, rfl⟩
  | @step out s c cs rest scan cut ih =>
    obtain ⟨steps, same⟩ := ih
    obtain ⟨more, after⟩ := scan.steps_tokens cut
    rw [openLevels] at same
    refine ⟨steps.append (same ▸ more), ?_⟩
    rw [openLevels, List.foldl_append, same, after]

theorem nested (scan : Scan tab source out s text) : Nested s.levels := by
  rw [← scan.levels.2]
  exact scan.levels.1.nested nested_nil

end Scan

theorem steps_tokenize (tab : UInt64) (source : String) :
    Steps tab source.toList [] (tokenize tab source) ∧
      openLevels tab source.toList (tokenize tab source) = [] := by
  obtain ⟨out, s, scan, same⟩ := exists_scan tab source
  obtain ⟨steps, opened⟩ := scan.levels
  have closed := steps_closing tab source.toList s.levels (fun _ => true) s.offset
  rw [openLevels] at opened
  rw [same, openLevels, List.foldl_append, opened]
  have all : s.levels.takeWhile (fun _ => true) = s.levels :=
    List.takeWhile_eq_self_iff.mpr fun _ _ => rfl
  have none : s.levels.dropWhile (fun _ => true) = [] :=
    List.dropWhile_eq_nil_iff.mpr fun _ _ => rfl
  rw [all, none] at closed
  exact ⟨steps.append (opened ▸ closed.1), closed.2⟩

/-- The stack is a stack between any two tokens, and holds what is open there. -/
theorem stack_between {tab : UInt64} {source : String} {front : List Token}
    (front_le : front <+: tokenize tab source) :
    IsStack (stack (openLevels tab source.toList front)) ∧
      (openLevels tab source.toList front).length + count .dedent front = count .indent front := by
  obtain ⟨behind, same⟩ := front_le
  have whole : Steps tab source.toList [] (front ++ behind) := same ▸ (steps_tokenize tab source).1
  have steps := whole.of_append
  refine ⟨(steps.nested nested_nil).isStack, ?_⟩
  have size := steps.length_add_count
  rw [List.length_nil, Nat.zero_add] at size
  exact size

structure Line (tab : UInt64) (source : List Char) (out : List Token) (s : State) (cs : List Char)
    (layout : List Token) (s' : State) : Prop where
  here : Scan tab source out s ('\n' :: cs)
  next : Scan tab source (out ++ s.feed :: layout) s' (cs.dropWhile Piece.isIndentation)
  step : LineStep tab s (cs.takeWhile Piece.isIndentation)
    (pieces (cs.dropWhile Piece.isIndentation)) layout s'.levels

theorem Scan.line {tab : UInt64} {source cs : List Char} {out : List Token} {s : State}
    (scan : Scan tab source out s ('\n' :: cs)) :
    ∃ layout, s.tokens tab (pieces (cs.dropWhile Piece.isIndentation)) (Piece.atStart '\n' cs) =
        s.feed :: layout ∧
      Line tab source out s cs layout (s.next tab (pieces (cs.dropWhile Piece.isIndentation))
        (Piece.atStart '\n' cs)) := by
  obtain ⟨layout, emitted, step⟩ := lineStep tab s (cs.takeWhile Piece.isIndentation)
    (pieces (cs.dropWhile Piece.isIndentation))
  have atFeed : Piece.atStart '\n' cs = .newline (cs.takeWhile Piece.isIndentation) := rfl
  have cut : '\n' :: cs = (Piece.atStart '\n' cs).source ++ cs.dropWhile Piece.isIndentation :=
    congrArg ('\n' :: ·) List.takeWhile_append_dropWhile.symm
  have next := scan.step cut
  rw [atFeed, emitted] at next
  rw [atFeed]
  exact ⟨layout, emitted, scan, next, step⟩

/-- Where a `Newline`, an `Indent` or a `Dedent` comes from: a line feed, the measuring of the line
behind one, or the closing of the levels at the end. -/
inductive Origin (tab : UInt64) (source : List Char) (front : List Token) (t : Token)
    (behind : List Token) : Prop where
  | feed {s s' : State} {cs : List Char} {layout : List Token} :
      Line tab source front s cs layout s' → t = s.feed →
      behind = layout ++ place tab s' (pieces (cs.dropWhile Piece.isIndentation)) →
      Origin tab source front t behind
  | measured {out a b : List Token} {s s' : State} {cs : List Char} :
      Line tab source out s cs (a ++ t :: b) s' → front = out ++ s.feed :: a →
      behind = b ++ place tab s' (pieces (cs.dropWhile Piece.isIndentation)) →
      Origin tab source front t behind
  | closing : t.kind = .dedent → (∀ d ∈ behind, d.kind = .dedent) →
      Origin tab source front t behind

theorem origin {tab : UInt64} {source : String} {front behind : List Token} {t : Token}
    (same : tokenize tab source = front ++ t :: behind) (isLayout : t.kind.isLayout = true) :
    Origin tab source.toList front t behind := by
  rcases Scan.start.locate same with
    ⟨out, s, c, cs, rest, a, b, scan, cut, here, before, after⟩ | ⟨out, s, a, scan, here, before⟩
  · rw [List.nil_append] at before
    subst before
    have form := Piece.form_atStart c cs
    generalize found : Piece.atStart c cs = p at form
    cases form with
    | newline isFeed =>
      subst isFeed
      obtain rfl := dropWhile_of_cut (List.cons.inj cut).2
      obtain ⟨layout, emitted, line⟩ := scan.line
      rw [emitted] at here
      cases a with
      | nil =>
        obtain ⟨rfl, rfl⟩ := List.cons.inj here
        rw [List.append_nil]
        exact .feed line rfl after
      | cons n a =>
        obtain ⟨rfl, inLayout⟩ := List.cons.inj here
        rw [inLayout] at line
        exact .measured line rfl after
    | blank => simp [found, State.tokens] at here
    | comment => simp [found, State.tokens] at here
    | lexeme =>
      have plain := Lexeme.isLayout_atStart c cs
      rw [found] at here
      generalize Lexeme.atStart c cs = x at plain here
      have only : t ∈ s.tokens tab (pieces rest) (.lexeme x) := by simp [here]
      rw [State.tokens, List.mem_singleton] at only
      rw [only, plain] at isLayout
      cases isLayout
  · have dedents : ∀ d ∈ s.closing, d.kind = .dedent := by simp [State.closing]
    exact .closing (dedents t (by simp [here])) fun d hd => dedents d (by simp [here, hd])

/-- A `Newline` stands for a line feed, and the line behind it is what follows. -/
theorem exists_line_of_newline {tab : UInt64} {source : String} {front behind : List Token}
    {n : Token} (same : tokenize tab source = front ++ n :: behind)
    (isNewline : n.kind = .newline) :
    ∃ s s' cs layout, Line tab source.toList front s cs layout s' ∧ n = s.feed ∧
      behind = layout ++ place tab s' (pieces (cs.dropWhile Piece.isIndentation)) := by
  cases origin same (isNewline ▸ rfl) with
  | @feed s s' cs layout line isFeed after => exact ⟨s, s', cs, layout, line, isFeed, after⟩
  | measured line =>
    rcases line.step.kinds_at with ⟨_, _, isIndent⟩ | dedents
    · rw [isNewline] at isIndent
      cases isIndent
    · rw [dedents n (by simp)] at isNewline
      cases isNewline
  | closing isDedent =>
    rw [isNewline] at isDedent
    cases isDedent

/-- Where an `Indent` or a `Dedent` stands: behind a `Newline`, behind other tokens of the same
line, or in the run that closes the list. -/
structure Placed (front : List Token) (t : Token) (behind : List Token) : Prop where
  indent : t.kind = .indent → ∃ f n, front = f ++ [n] ∧ n.kind = .newline
  dedent : t.kind = .dedent → (∃ f n run, front = f ++ n :: run ∧ n.kind = .newline ∧
    ∀ d ∈ run, d.kind = .dedent) ∨ ∀ d ∈ behind, d.kind = .dedent

theorem placed_tokenize {tab : UInt64} {source : String} {front behind : List Token} {t : Token}
    (same : tokenize tab source = front ++ t :: behind) : Placed front t behind := by
  constructor
  · intro isIndent
    cases origin same (isIndent ▸ rfl) with
    | feed _ isFeed =>
      subst isFeed
      cases isIndent
    | @measured out a b s s' cs line before =>
      rcases line.step.kinds_at with ⟨rfl, _⟩ | dedents
      · exact ⟨out, s.feed, before, rfl⟩
      · rw [dedents t (by simp)] at isIndent
        cases isIndent
    | closing isDedent =>
      rw [isDedent] at isIndent
      cases isIndent
  · intro isDedent
    cases origin same (isDedent ▸ rfl) with
    | feed _ isFeed =>
      subst isFeed
      cases isDedent
    | @measured out a b s s' cs line before =>
      rcases line.step.kinds_at with ⟨_, _, isIndent⟩ | dedents
      · rw [isDedent] at isIndent
        cases isIndent
      · exact .inl ⟨out, s.feed, a, before, rfl, fun d hd => dedents d (by simp [hd])⟩
    | closing _ dedents => exact .inr dedents

/-- The stack of indentation over a whole scan, and what it means for the tokens. -/
theorem layout_invariant (tab : UInt64) (source : String) :
    (∀ out s text, Scan tab source.toList out s text →
      tokenize tab source = out ++ place tab s (pieces text) ∧
      openLevels tab source.toList out = s.levels ∧ IsStack (stack s.levels) ∧
      (stack s.levels).length + count .dedent out = count .indent out + 1) ∧
    (∀ out s cs, Scan tab source.toList out s ('\n' :: cs) →
      ∃ layout s', Scan tab source.toList (out ++ s.feed :: layout) s'
          (cs.dropWhile Piece.isIndentation) ∧
        if isBlankLine (pieces (cs.dropWhile Piece.isIndentation)) then
          layout = [] ∧ stack s'.levels = stack s.levels
        else Measured (width tab (cs.takeWhile Piece.isIndentation)) (stack s.levels)
          (stack s'.levels) layout) ∧
    (∀ front, front <+: tokenize tab source →
      IsStack (stack (openLevels tab source.toList front)) ∧
      (openLevels tab source.toList front).length + count .dedent front = count .indent front ∧
      count .dedent front ≤ count .indent front) ∧
    count .dedent (tokenize tab source) = count .indent (tokenize tab source) ∧
    ∀ front t behind, tokenize tab source = front ++ t :: behind →
      Placed front t behind := by
  refine ⟨?_, ?_, ?_, ?_, fun _ _ _ => placed_tokenize⟩
  · intro out s text scan
    refine ⟨scan.place_eq, scan.levels.2, scan.nested.isStack, ?_⟩
    have size := scan.levels.1.length_add_count
    rw [← openLevels, scan.levels.2] at size
    simp only [stack, List.length_cons, List.length_reverse, List.length_nil] at size ⊢
    omega
  · intro out s cs scan
    obtain ⟨layout, -, line⟩ := scan.line
    refine ⟨layout, _, line.next, ?_⟩
    split
    · rename_i blank
      obtain ⟨none, unchanged⟩ := line.step.of_blank blank
      exact ⟨none, congrArg stack unchanged⟩
    · rename_i notBlank
      exact line.step.measured (Bool.eq_false_iff.mpr notBlank) scan.nested
  · intro front front_le
    obtain ⟨isStack, size⟩ := stack_between front_le
    exact ⟨isStack, size, by omega⟩
  · have size := (stack_between (List.prefix_refl (tokenize tab source))).2
    rwa [(steps_tokenize tab source).2, List.length_nil, Nat.zero_add] at size

end PhraseLang.Layout
