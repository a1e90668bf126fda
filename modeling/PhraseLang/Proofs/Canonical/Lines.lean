import PhraseLang.Proofs.Canonical.Lexemes
import PhraseLang.Proofs.Concatenation
import PhraseLang.Proofs.Width

/-! The expressions and the lines of a written program.
An expression is read back in front of a separator. A line with its margin opens a level, stays on
one or closes one; the width of a margin is exact as long as it fits 64 bits. -/
namespace PhraseLang
open Text Layout Grammar

theorem follows_operator (o : Operator) (rest : List Char) :
    Follows (' ' :: o.symbol :: ' ' :: rest) :=
  ⟨[' ', o.symbol, ' '], by cases o <;> decide, rest, rfl⟩

theorem follows_comma (rest : List Char) : Follows (',' :: rest) :=
  ⟨[','], by decide, rest, rfl⟩

theorem follows_closing (rest : List Char) : Follows (Punctuation.rightParen.symbol :: rest) :=
  ⟨[')'], by decide, rest, rfl⟩

theorem follows_braces (depth : Nat) (lines rest : List Char) :
    Follows (' ' :: (braces depth lines ++ rest)) :=
  ⟨[' ', '{'], by decide, _, rfl⟩

theorem follows_end (rest : List Char) : Follows (' ' :: (Keyword.endOfAssign.letters ++ rest)) :=
  ⟨' ' :: Keyword.endOfAssign.letters, by decide, rest, rfl⟩

theorem Token.Writable.operator {t : Token} {o : Operator} (writable : t.Writable)
    (kind : t.kind = .operator o) : t.text.toList = [o.symbol] ∧
      t.bare = (Kind.operator o).bare o.symbol.toString := by
  obtain ⟨_, text, span⟩ := t
  obtain rfl : _ = Kind.operator o := kind
  obtain rfl : text = o.symbol.toString := writable
  exact ⟨by simp, rfl⟩

namespace Expr

theorem Writable.left {l r : Expr} {op : Token} (writable : (binary l op r).Writable) :
    l.Writable :=
  ⟨writable.grouped.2.1, fun t ht => writable.tokens t (List.mem_append_left _ ht)⟩

theorem Writable.right {l r : Expr} {op : Token} (writable : (binary l op r).Writable) :
    r.Writable :=
  ⟨writable.grouped.2.2.1, fun t ht =>
    writable.tokens t (List.mem_append_right _ (List.mem_cons_of_mem _ ht))⟩

theorem Writable.exists_operator {l r : Expr} {op : Token} (writable : (binary l op r).Writable) :
    ∃ o, op.text.toList = [o.symbol] ∧ op.bare = (Kind.operator o).bare o.symbol.toString := by
  obtain ⟨o, kind⟩ := writable.grouped.1
  have allowed : op.Writable := writable.tokens op (List.mem_append_right _ List.mem_cons_self)
  exact ⟨o, allowed.operator kind⟩

/-- A written expression begins with its first literal. -/
theorem Writable.exists_front {e : Expr} (writable : e.Writable) :
    ∃ t : Token, t.Writable ∧ t.kind.isLiteral = true ∧ ∀ rest, Follows rest →
      ∃ more, e.source ++ rest = (literalText t).toList ++ more ∧ Follows more := by
  match e, writable with
  | .literal t, writable =>
    exact ⟨t, writable.tokens t List.mem_cons_self, writable.grouped,
      fun rest follows => ⟨rest, rfl, follows⟩⟩
  | .binary l op r, writable =>
    obtain ⟨t, allowed, literal, front⟩ := exists_front writable.left
    obtain ⟨o, text, -⟩ := writable.exists_operator
    refine ⟨t, allowed, literal, fun rest _ => ?_⟩
    obtain ⟨more, same, follows⟩ := front _ (follows_operator o (r.source ++ rest))
    refine ⟨more, ?_, follows⟩
    simpa [source, text] using same
  | .array _, writable => exact absurd writable.grouped id

theorem bareTokens_source {tab : UInt64} {levels : List UInt64} {e : Expr} (writable : e.Writable)
    {rest : List Char} (follows : Follows rest) :
    bareTokens tab levels (e.source ++ rest) =
      e.tokens.map Token.bare ++ bareTokens tab levels rest := by
  match e, writable with
  | .literal t, writable =>
    exact bareTokens_literal (writable.tokens t List.mem_cons_self) writable.grouped follows
  | .binary l op r, writable =>
    obtain ⟨o, text, bare⟩ := writable.exists_operator
    have cut : (binary l op r).source ++ rest =
        l.source ++ ' ' :: o.symbol :: ' ' :: (r.source ++ rest) := by simp [source, text]
    rw [cut, bareTokens_source writable.left (follows_operator o _), bareTokens_blank,
      bareTokens_operator, bareTokens_blank, bareTokens_source writable.right follows, ← bare]
    simp [tokens]
  | .array _, writable => exact absurd writable.grouped id

end Expr

namespace Grammar

/-- A word of its own for a derivation, at no place. -/
def word (k : Kind) (text : String) : Word [k] := ⟨k.bare text, List.mem_singleton.mpr rfl⟩

theorem bare_word (k : Kind) (text : String) : (word k text).val.bare = k.bare text := rfl

def phraseWord (k : Keyword) : Word [.keyword k] := word (.keyword k) k.phrase

theorem bare_phraseWord (k : Keyword) :
    (phraseWord k).val.bare = (Kind.keyword k).bare k.phrase := rfl

end Grammar

section
variable (tab : UInt64) (levels : List UInt64)

theorem exists_tail_source {es : List Expr} (writable : ∀ e ∈ es, e.Writable) :
    ∃ tail : Tail, tail.trees = es ∧ ∀ rest, Follows rest →
      Follows (Expr.source.sourceBehind es ++ rest) ∧
      bareTokens tab levels (Expr.source.sourceBehind es ++ rest) =
        tail.tokens.map Token.bare ++ bareTokens tab levels rest := by
  induction es with
  | nil => exact ⟨[], rfl, fun rest follows => ⟨follows, rfl⟩⟩
  | cons e es ih =>
    obtain ⟨tail, rfl, read⟩ := ih fun d hd => writable d (List.mem_cons_of_mem e hd)
    have here := writable e List.mem_cons_self
    refine ⟨(word Run.comma ",", ⟨e, here.grouped⟩) :: tail, rfl, fun rest follows => ?_⟩
    obtain ⟨behind, more⟩ := read rest follows
    have cut : Expr.source.sourceBehind (e :: tail.trees) ++ rest =
        Punctuation.comma.symbol :: ' ' :: (e.source ++
          (Expr.source.sourceBehind tail.trees ++ rest)) := by
      simp [Expr.source.sourceBehind, Punctuation.symbol]
    rw [cut]
    refine ⟨follows_comma _, ?_⟩
    rw [bareTokens_punctuation, bareTokens_blank, e.bareTokens_source here behind, more]
    simp [Tail.tokens, Chain.tokens, bare_word]
    rfl

/-- What is assigned is read back in front of a separator. -/
theorem exists_value_source {e : Expr} (writable : e.WritableValue) :
    ∃ v : Value, v.tree = e ∧ ∀ rest, Follows rest →
      bareTokens tab levels (e.source ++ rest) =
        v.tokens.map Token.bare ++ bareTokens tab levels rest := by
  cases e with
  | literal t =>
    have writable : (Expr.literal t).Writable := writable
    exact ⟨.one ⟨_, writable.grouped⟩, rfl, fun _ => Expr.bareTokens_source writable⟩
  | binary l op r =>
    have writable : (Expr.binary l op r).Writable := writable
    exact ⟨.one ⟨_, writable.grouped⟩, rfl, fun _ => Expr.bareTokens_source writable⟩
  | array elements =>
    obtain ⟨several, all⟩ := writable
    cases elements with
    | nil => cases several
    | cons first es =>
      have here := all first List.mem_cons_self
      obtain ⟨tail, rfl, read⟩ := exists_tail_source tab levels fun d hd =>
        all d (List.mem_cons_of_mem first hd)
      have more : tail ≠ [] := by
        rintro rfl
        exact absurd several (by simp [Tail.trees])
      refine ⟨.many ⟨first, here.grouped⟩ tail more, rfl, fun rest follows => ?_⟩
      obtain ⟨behind, same⟩ := read rest follows
      rw [Expr.source, List.append_assoc, first.bareTokens_source here behind, same]
      simp [Value.tokens, Chain.tokens, Tail.tokens]

end

/-- The levels that are open at some depth of nesting. -/
def levelsAt : Nat → List UInt64
  | 0 => []
  | depth + 1 => (4 * (depth + 1)).toUInt64 :: levelsAt depth

theorem width_blanks (tab : UInt64) {n : Nat} (fits : n < UInt64.size) :
    width tab (List.replicate n ' ') = n.toUInt64 := by
  have isRow : IsRow (List.replicate n ' ') :=
    isRow_iff.mpr fun c hc => List.eq_of_mem_replicate hc ▸ rfl
  apply UInt64.toNat.inj
  rw [toNat_width_of_lt isRow (by rwa [extent_spaces]), extent_spaces, Nat.toUInt64_eq,
    UInt64.toNat_ofNat_of_lt' fits]

theorem toUInt64_lt {m n : Nat} (less : m < n) (fits : n < UInt64.size) :
    m.toUInt64 < n.toUInt64 := by
  have size : UInt64.size = 2 ^ 64 := rfl
  rw [UInt64.lt_iff_toNat_lt]
  simp only [Nat.toUInt64_eq, UInt64.toNat_ofNat']
  omega

theorem top_levelsAt (depth : Nat) : top (levelsAt depth) = (4 * depth).toUInt64 := by
  cases depth <;> rfl

theorem takeWhile_levelsAt (depth : Nat) :
    (levelsAt depth).takeWhile ((4 * depth).toUInt64 < ·) = [] ∧
      (levelsAt depth).dropWhile ((4 * depth).toUInt64 < ·) = levelsAt depth := by
  cases depth <;> simp [levelsAt]

theorem Statement.starts (s : Statement) (depth : Nat) (rest : List Char) :
    Starts (s.source depth ++ rest) := by
  cases s with
  | assign span name value =>
    rw [Statement.source, List.append_assoc]
    exact starts_keyword .define _
  | conditional span condition body clauses =>
    rw [Statement.source, List.append_assoc]
    exact starts_keyword .ifThen _
  | whileLoop span condition body => exact starts_punctuation .leftParen _
  | countedLoop span count binding body =>
    rw [Statement.source, List.append_assoc]
    exact starts_keyword .countedLoop _

/-- The lines of a program stand at the margin of no depth. -/
theorem flush_program (ss : List Statement) :
    ∀ c ∈ (ss.flatMap fun s => s.source 0 ++ ['\n']).head?, Piece.isIndentation c = false := by
  cases ss with
  | nil => exact fun c first => by cases first
  | cons s ss =>
    rw [List.flatMap_cons, List.append_assoc]
    exact (s.starts 0 _).flush

section
variable {tab : UInt64} {levels : List UInt64} {rest : List Char}

/-- A line that begins with a lexeme is measured by its margin. -/
theorem bareTokens_line {n : Nat} (fits : n < UInt64.size) (starts : Starts rest) :
    bareTokens tab levels ('\n' :: (List.replicate n ' ' ++ rest)) =
      Kind.newline.bare "\n" ::
        ((if top levels < n.toUInt64 then [Kind.indent.bare ""]
          else (levels.takeWhile (n.toUInt64 < ·)).map fun _ => Kind.dedent.bare "") ++
        bareTokens tab (Layout.measure n.toUInt64 levels) rest) := by
  obtain ⟨c, cs, rfl, -⟩ := starts.head
  have blanks : ∀ d ∈ List.replicate n ' ', Piece.isIndentation d = true := by
    intro d hd
    rw [List.eq_of_mem_replicate hd]
    rfl
  have here : Piece.atStart '\n' (List.replicate n ' ' ++ c :: cs) =
      .newline (List.replicate n ' ') :=
    congrArg Piece.newline (takeWhile_stop blanks starts.flush)
  obtain ⟨behind, cut⟩ := exists_cut c cs
  have measured : isBlankLine (pieces (c :: cs)) = false := by
    rw [pieces_of_cut cut, starts.atStart]
    rfl
  rw [bareTokens_of_cut (by rw [here]; rfl), here]
  simp only [State.tokens, State.next, measured, width_blanks tab fits, Bool.false_eq_true, if_false,
    List.map_cons, List.cons_append]
  refine congrArg₂ List.cons rfl (congrArg (· ++ _) ?_)
  split <;> simp [Token.bare, Token.relocate, Span.relocate, Kind.bare]

theorem bareTokens_deeper {depth : Nat} (fits : 4 * (depth + 1) < UInt64.size)
    (starts : Starts rest) :
    bareTokens tab (levelsAt depth) ('\n' :: (margin (depth + 1) ++ rest)) =
      Kind.newline.bare "\n" :: Kind.indent.bare "" ::
        bareTokens tab (levelsAt (depth + 1)) rest := by
  have wider : top (levelsAt depth) < (4 * (depth + 1)).toUInt64 := by
    rw [top_levelsAt]
    exact toUInt64_lt (by omega) fits
  rw [margin, bareTokens_line fits starts, if_pos wider, Layout.measure, if_pos wider]
  rfl

theorem bareTokens_level {depth : Nat} (fits : 4 * depth < UInt64.size) (starts : Starts rest) :
    bareTokens tab (levelsAt depth) ('\n' :: (margin depth ++ rest)) =
      Kind.newline.bare "\n" :: bareTokens tab (levelsAt depth) rest := by
  have same : ¬ top (levelsAt depth) < (4 * depth).toUInt64 := by
    rw [top_levelsAt]
    exact UInt64.lt_irrefl _
  obtain ⟨none, kept⟩ := takeWhile_levelsAt depth
  rw [margin, bareTokens_line fits starts, if_neg same, Layout.measure, if_neg same, none, kept]
  rfl

theorem bareTokens_closing {depth : Nat} (fits : 4 * (depth + 1) < UInt64.size)
    (starts : Starts rest) :
    bareTokens tab (levelsAt (depth + 1)) ('\n' :: (margin depth ++ rest)) =
      Kind.newline.bare "\n" :: Kind.dedent.bare "" :: bareTokens tab (levelsAt depth) rest := by
  have narrower : (4 * depth).toUInt64 < (4 * (depth + 1)).toUInt64 :=
    toUInt64_lt (by omega) fits
  have notWider : ¬ top (levelsAt (depth + 1)) < (4 * depth).toUInt64 := by
    rw [top_levelsAt]
    exact UInt64.lt_asymm narrower
  obtain ⟨none, kept⟩ := takeWhile_levelsAt depth
  rw [margin, bareTokens_line (by omega) starts, if_neg notWider, Layout.measure, if_neg notWider, levelsAt,
    List.takeWhile_cons_of_pos (by simpa using narrower),
    List.dropWhile_cons_of_pos (by simpa using narrower), none, kept]
  rfl

end

end PhraseLang
