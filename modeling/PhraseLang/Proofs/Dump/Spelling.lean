import PhraseLang.Proofs.Dump.Lines
import PhraseLang.Proofs.Reserved

/-! What the lines of a program are spelled with.
The lexer gives every name, literal and operator a text of its kind, and the bare words of a program
are no phrases. So every line in the dump of a program can be written and read back. -/
namespace PhraseLang
open Text Layout Grammar

theorem isFraction_fraction (text : List Char) : IsFraction (Lexeme.fraction text) := by
  rcases Lexeme.fraction_cases text with ⟨none, -⟩ | ⟨part, -, nonempty, some⟩
  · rw [none]
    trivial
  · rw [some]
    exact ⟨rfl, nonempty, fun d hd => List.mem_takeWhile_imp hd⟩

/-- A numeral is digits, and behind a point more digits. -/
theorem isNumeral_numeral {c : Char} {cs : List Char} (digit : c.isDigit = true) :
    IsNumeral (String.ofList (Lexeme.numeral (c :: cs))) := by
  have digits : ∀ d ∈ (c :: cs).takeWhile Char.isDigit, d.isDigit = true :=
    fun d hd => List.mem_takeWhile_imp hd
  have behind := isFraction_fraction ((c :: cs).dropWhile Char.isDigit)
  have stop : ∀ d ∈ (Lexeme.fraction ((c :: cs).dropWhile Char.isDigit)).head?,
      d.isDigit = false := by
    rcases Lexeme.fraction_cases ((c :: cs).dropWhile Char.isDigit) with ⟨none, -⟩ | ⟨_, -, -, some⟩
    · rw [none]
      exact fun d first => absurd first (by simp)
    · rw [some]
      exact head_stop rfl _
  rw [IsNumeral, String.toList_ofList, Lexeme.numeral_eq, takeWhile_stop digits stop,
    dropWhile_stop digits stop]
  exact ⟨by simp [digit], behind⟩

/-- The names, numbers and operators of a source are spelled as such. -/
theorem Lexeme.writable_atStart {c : Char} {cs : List Char} (span : Span)
    (keeps : isStored (atStart c cs).kind = true) (notWord : (atStart c cs).kind ≠ .word) :
    (⟨(atStart c cs).kind, (atStart c cs).value, span⟩ : Token).Writable := by
  have form := form_atStart c cs
  generalize atStart c cs = x at form keeps notWord ⊢
  cases form with
  | @operator o _ isOperator =>
    rw [Operator.ofChar?_eq_some_iff.mp isOperator]
    rfl
  | @name s _ _ _ nonempty =>
    have isName : IsName (String.ofList (cs.takeWhile Char.isAlpha)) := by
      rw [IsName, String.toList_ofList]
      exact ⟨nonempty, fun d hd => List.mem_takeWhile_imp hd⟩
    cases s <;> exact isName
  | word => exact absurd rfl notWord
  | number _ _ _ _ digit => exact isNumeral_numeral digit
  | _ => cases keeps

/-- Every name, literal and operator of a row is spelled as such. -/
def Spelled (ts : List Token) : Prop := ∀ t ∈ ts, isStored t.kind = true → t.Writable

theorem Spelled.part {ts us : List Token} (spelled : Spelled us) (part : ts ⊆ us) : Spelled ts :=
  fun t ht => spelled t (part ht)

namespace Grammar

theorem Derivation.spelled {tab : UInt64} {source : String} {d : Derivation}
    (same : d.tokens = tokenize tab source) : Spelled d.tokens := by
  intro t ht keeps
  by_cases word : t.kind = .word
  · have plain := d.isPlainWord same ht word
    rwa [Token.Writable, word]
  · obtain ⟨front, behind, cut⟩ := List.append_of_mem (same ▸ ht)
    have noLayout : t.kind.isLayout = false := by
      cases kind : t.kind <;> first | rfl | (rw [kind] at keeps; cases keeps)
    obtain ⟨s, c, cs, rest, located⟩ := exists_located cut noLayout
    rw [located.token] at keeps word ⊢
    exact Lexeme.writable_atStart _ keeps word

theorem Chain.writable (c : Chain) (spelled : Spelled c.tokens) : c.tree.Writable := by
  refine ⟨c.grouped, fun t ht => spelled t ht ?_⟩
  rcases Chain.kind_of_mem ht with literal | ⟨o, operator⟩
  · rw [isStored, literal, Bool.true_or]
  · rw [isStored, operator]
    rfl

theorem Value.writable (v : Value) (spelled : Spelled v.tokens) : v.tree.WritableValue := by
  cases v with
  | one c => exact (c.writable spelled).value
  | many first rest more =>
    have each : ∀ c ∈ first :: rest.map Prod.snd, c.tree.Writable := by
      intro c hc
      apply c.writable
      apply spelled.part
      intro t ht
      rcases List.mem_cons.mp hc with rfl | hc
      · exact List.mem_append_left _ ht
      · obtain ⟨p, hp, rfl⟩ := List.mem_map.mp hc
        exact List.mem_append_right _
          (List.mem_flatMap.mpr ⟨p, hp, List.mem_cons_of_mem _ ht⟩)
    refine ⟨?_, fun e he => ?_⟩
    · have some := List.length_pos_iff.mpr more
      simp only [List.length_cons, List.length_map]
      omega
    · rcases List.mem_cons.mp he with rfl | he
      · exact each first List.mem_cons_self
      · obtain ⟨p, hp, rfl⟩ := List.mem_map.mp he
        exact each p.2 (List.mem_cons_of_mem _ (List.mem_map_of_mem hp))

/-- The heads of all lines can be written. -/
def WritableLines (ls : List DumpLine) : Prop := ∀ l ∈ ls, l.header.Writable

theorem WritableLines.append {ks ls : List DumpLine} (first : WritableLines ks)
    (second : WritableLines ls) : WritableLines (ks ++ ls) := by
  intro l hl
  exact (List.mem_append.mp hl).elim (first l) (second l)

theorem WritableLines.cons {depth : Nat} {h : DumpHeader} {ls : List DumpLine} (here : h.Writable)
    (behind : WritableLines ls) : WritableLines (⟨depth, h⟩ :: ls) :=
  List.forall_mem_cons.mpr ⟨here, behind⟩

mutual

theorem Stmt.writable_lines (depth : Nat) : ∀ s : Stmt, Spelled s.tokens →
    WritableLines (s.tree.lines depth)
  | .assign first name becomes value last, spelled => by
    have kind : name.val.kind = .constant ∨ name.val.kind = .binding := by
      simpa using name.property
    have keeps : isStored name.val.kind = true := by
      rcases kind with kind | kind <;> rw [kind] <;> rfl
    have isName := spelled name.val (by simp [Stmt.tokens]) keeps
    have written := value.writable (spelled.part fun t ht => by simp [Stmt.tokens, ht])
    exact WritableLines.cons ⟨kind, isName, written⟩ nofun
  | .conditional first condition body clauses, spelled => by
    have here := condition.writable (spelled.part fun t ht => by simp [Stmt.tokens, ht])
    have inner := body.writable_lines (depth + 1)
      (spelled.part fun t ht => by simp [Stmt.tokens, ht])
    have behind := clauses.writable_lines depth
      (spelled.part fun t ht => by simp [Stmt.tokens, ht])
    exact WritableLines.cons here (inner.append behind)
  | .whileLoop first condition close suffix body, spelled => by
    have here := condition.writable (spelled.part fun t ht => by simp [Stmt.tokens, ht])
    have inner := body.writable_lines (depth + 1)
      (spelled.part fun t ht => by simp [Stmt.tokens, ht])
    exact WritableLines.cons here inner
  | .countedLoop first count _ binding body, spelled => by
    have kind : binding.val.kind = .binding := List.mem_singleton.mp binding.property
    have isName := spelled binding.val (by simp [Stmt.tokens]) (by rw [kind]; rfl)
    have inner := body.writable_lines (depth + 1)
      (spelled.part fun t ht => by simp [Stmt.tokens, ht])
    exact WritableLines.cons ⟨kind, isName⟩ inner

theorem Block.writable_lines (depth : Nat) : ∀ b : Block, Spelled b.tokens →
    WritableLines (Statement.linesAll depth b.trees)
  | .braces opening lineBreak indent body dedent closing, spelled =>
    body.writable_lines depth (spelled.part fun t ht => by simp [Block.tokens, ht])

theorem Body.writable_lines (depth : Nat) : ∀ b : Body, Spelled b.tokens →
    WritableLines (Statement.linesAll depth b.trees)
  | .nil, _ => nofun
  | .blank lineBreak rest, spelled =>
    rest.writable_lines depth (spelled.part fun t ht => by simp [Body.tokens, ht])
  | .stmt s rest, spelled => by
    have here := s.writable_lines depth (spelled.part fun t ht => by simp [Body.tokens, ht])
    have behind := rest.writable_lines depth (spelled.part fun t ht => by simp [Body.tokens, ht])
    exact here.append behind

theorem Clauses.writable_lines (depth : Nat) : ∀ c : Clauses, Spelled c.tokens →
    WritableLines (c.tree.lines depth)
  | .nothing, _ => nofun
  | .otherwise breaks first body, spelled => by
    have inner := body.writable_lines (depth + 1)
      (spelled.part fun t ht => by simp [Clauses.tokens, ht])
    exact WritableLines.cons trivial inner
  | .elseIf breaks first condition body rest, spelled => by
    have here := condition.writable (spelled.part fun t ht => by simp [Clauses.tokens, ht])
    have inner := body.writable_lines (depth + 1)
      (spelled.part fun t ht => by simp [Clauses.tokens, ht])
    have behind := rest.writable_lines depth
      (spelled.part fun t ht => by simp [Clauses.tokens, ht])
    exact WritableLines.cons here (inner.append behind)

end

theorem linesAll_append (depth : Nat) (a b : List Statement) :
    Statement.linesAll depth (a ++ b) =
      Statement.linesAll depth a ++ Statement.linesAll depth b := by
  induction a with
  | nil => rfl
  | cons s a ih => simp [Statement.linesAll, ih]

theorem Derivation.writable_lines : ∀ d : Derivation, Spelled d.tokens →
    WritableLines (Statement.linesAll 0 d.trees)
  | .nil, _ => nofun
  | .blank lineBreak rest, spelled =>
    rest.writable_lines (spelled.part fun t ht => by simp [Derivation.tokens, ht])
  | .block b rest, spelled => by
    have here := b.writable_lines 0 (spelled.part fun t ht => by simp [Derivation.tokens, ht])
    have behind := rest.writable_lines (spelled.part fun t ht => by simp [Derivation.tokens, ht])
    rw [Derivation.trees, linesAll_append]
    exact here.append behind
  | .stmt s rest, spelled => by
    have here := s.writable_lines 0 (spelled.part fun t ht => by simp [Derivation.tokens, ht])
    have behind := rest.writable_lines (spelled.part fun t ht => by simp [Derivation.tokens, ht])
    exact here.append behind

end Grammar

/-- Every line in the dump of a program that is read can be written. -/
theorem writable_lines_of_accepted {tab : UInt64} {source : String} {p : Program}
    (accepted : Program.ofSource tab source = .ok p) :
    WritableLines (Statement.linesAll 0 p.statements) := by
  obtain ⟨d, same, rfl⟩ := ofTokens_sound accepted
  exact d.writable_lines (d.spelled same)

end PhraseLang
