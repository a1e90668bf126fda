import PhraseLang.Program.Dump
import PhraseLang.Proofs.Dump.Expression
import PhraseLang.Text.Decimal

/-! Dumps cut into lines.
A dump is a row of lines, each of them with a depth and the head of a statement or of a clause. The
margin shows the depth, the word behind it the kind of head, and no two of these words begin alike.
So the characters of a dump decide its lines, up to the places of the tokens in them. -/
namespace PhraseLang
open Text

/-- What a line of a dump shows: the head of a statement or of a clause. -/
inductive DumpHeader where
  | assign (name : Token) (value : Expr)
  | conditional (condition : Expr)
  | whileLoop (condition : Expr)
  | countedLoop (count : UInt64) (binding : Token)
  | otherwise
  | elseIf (condition : Expr)

namespace DumpHeader

def bare : DumpHeader → DumpHeader
  | .assign name value => .assign name.bare value.bare
  | .conditional condition => .conditional condition.bare
  | .whileLoop condition => .whileLoop condition.bare
  | .countedLoop count binding => .countedLoop count binding.bare
  | .otherwise => .otherwise
  | .elseIf condition => .elseIf condition.bare

/-- The beginning of a line, from which alone it can be told what the line shows. -/
def word : DumpHeader → String
  | .assign .. => "assign "
  | .conditional _ => "if "
  | .whileLoop _ => "while "
  | .countedLoop .. => "repeat "
  | .otherwise => "else\n"
  | .elseIf _ => "else-if "

/-- The rest of a line, with the line feed at its end if the word does not hold it. -/
def detail : DumpHeader → List Char
  | .assign name value => (Expr.literalText name).toList ++ ' ' :: (value.text.toList ++ ['\n'])
  | .conditional condition | .whileLoop condition | .elseIf condition =>
    condition.text.toList ++ ['\n']
  | .countedLoop count binding =>
    (toString count.toNat).toList ++
      ' ' :: Sigil.pound.symbol :: (binding.text.toList ++ ['\n'])
  | .otherwise => []

/-- The names and the expressions of a line can be written. -/
def Writable : DumpHeader → Prop
  | .assign name value =>
    (name.kind = .constant ∨ name.kind = .binding) ∧ name.Writable ∧ value.WritableValue
  | .conditional condition | .whileLoop condition | .elseIf condition => condition.Writable
  | .countedLoop _ binding => binding.kind = .binding ∧ binding.Writable
  | .otherwise => True

def words : List String := ["assign ", "if ", "while ", "repeat ", "else\n", "else-if "]

theorem word_mem_words (h : DumpHeader) : h.word ∈ words := by
  cases h <;> simp [word, words]

/-- The margin ends where the word begins. -/
theorem exists_head (h : DumpHeader) : ∃ c cs, h.word.toList = c :: cs ∧ (c == ' ') = false := by
  have table : ∀ word ∈ words, word.toList.head?.any (!· == ' ') = true := by
    decide +kernel
  have head := table h.word h.word_mem_words
  cases shown : h.word.toList with
  | nil =>
    rw [shown] at head
    cases head
  | cons c cs =>
    rw [shown] at head
    exact ⟨c, cs, rfl, (Bool.not_eq_true' _).mp head⟩

theorem word_append_inj {h k : DumpHeader} {rest rest' : List Char}
    (same : h.word.toList ++ rest = k.word.toList ++ rest') : h.word = k.word ∧ rest = rest' := by
  have apart : ∀ a ∈ words, ∀ b ∈ words, a.toList <+: b.toList → a = b := by decide +kernel
  have here : h.word.toList <+: k.word.toList ++ rest' := ⟨rest, same⟩
  have words_eq : h.word = k.word := by
    rcases List.prefix_or_prefix_of_prefix here (List.prefix_append _ _) with le | ge
    · exact apart _ h.word_mem_words _ k.word_mem_words le
    · exact (apart _ k.word_mem_words _ h.word_mem_words ge).symm
  rw [words_eq] at same
  exact ⟨words_eq, List.append_cancel_left same⟩

theorem condition_append_inj {c d : Expr} (writable : c.Writable) (writable' : d.Writable)
    {rest rest' : List Char}
    (same : c.text.toList ++ ['\n'] ++ rest = d.text.toList ++ ['\n'] ++ rest') :
    c.bare = d.bare ∧ rest = rest' := by
  rw [List.append_assoc, List.append_assoc] at same
  obtain ⟨bare, behind⟩ :=
    Expr.text_append_inj writable writable' (head_stop rfl _) (head_stop rfl _) same
  exact ⟨bare, (List.cons.inj behind).2⟩

theorem assign_append_inj {name name' : Token} {value value' : Expr}
    (writable : (assign name value).Writable) (writable' : (assign name' value').Writable)
    {rest rest' : List Char}
    (same : (assign name value).detail ++ rest = (assign name' value').detail ++ rest') :
    name.bare = name'.bare ∧ value.bare = value'.bare ∧ rest = rest' := by
  have isLiteral : ∀ {t : Token}, t.kind = .constant ∨ t.kind = .binding →
      t.kind.isLiteral = true := by
    rintro t (kind | kind) <;> rw [kind] <;> rfl
  obtain ⟨kind, wName, wValue⟩ := writable
  obtain ⟨kind', wName', wValue'⟩ := writable'
  simp only [detail, List.append_assoc, List.cons_append] at same
  obtain ⟨names, behind⟩ := Token.literal_append_inj wName wName' (isLiteral kind)
    (isLiteral kind') (head_stop rfl _) (head_stop rfl _) same
  obtain ⟨values, final⟩ := Expr.value_append_inj wValue wValue' (head_stop rfl _)
    (head_stop rfl _) (List.cons.inj behind).2
  exact ⟨names, values, (List.cons.inj final).2⟩

theorem countedLoop_append_inj {count count' : UInt64} {binding binding' : Token}
    (writable : (countedLoop count binding).Writable)
    (writable' : (countedLoop count' binding').Writable) {rest rest' : List Char}
    (same : (countedLoop count binding).detail ++ rest =
      (countedLoop count' binding').detail ++ rest') :
    count = count' ∧ binding.bare = binding'.bare ∧ rest = rest' := by
  obtain ⟨kind, wBinding⟩ := writable
  obtain ⟨kind', wBinding'⟩ := writable'
  simp only [detail, List.append_assoc, List.cons_append] at same
  have numerals : (toString count.toNat).toList = (toString count'.toNat).toList := by
    have taken := congrArg (List.takeWhile Char.isDigit) same
    rwa [takeWhile_stop (fun _ => isDigit_of_mem_toString) (head_stop rfl _),
      takeWhile_stop (fun _ => isDigit_of_mem_toString) (head_stop rfl _)] at taken
  have counts : count = count' := by
    have read := readUInt64?_toString count
    rw [String.toList_inj.mp numerals, readUInt64?_toString] at read
    exact (Option.some.inj read).symm
  rw [numerals] at same
  have shown : (Expr.literalText binding).toList = Sigil.pound.symbol :: binding.text.toList := by
    rw [Token.toList_literalText, kind]
    rfl
  have shown' : (Expr.literalText binding').toList =
      Sigil.pound.symbol :: binding'.text.toList := by
    rw [Token.toList_literalText, kind']
    rfl
  have names : (Expr.literalText binding).toList ++ '\n' :: rest =
      (Expr.literalText binding').toList ++ '\n' :: rest' := by
    rw [shown, shown']
    exact (List.cons.inj (List.append_cancel_left same)).2
  obtain ⟨bindings, behind⟩ := Token.literal_append_inj wBinding wBinding' (by rw [kind]; rfl)
    (by rw [kind']; rfl) (head_stop rfl _) (head_stop rfl _) names
  exact ⟨counts, bindings, (List.cons.inj behind).2⟩

/-- A line without its margin is read back, up to places. -/
theorem append_inj {h k : DumpHeader} (writable : h.Writable) (writable' : k.Writable)
    {rest rest' : List Char}
    (same : h.word.toList ++ h.detail ++ rest = k.word.toList ++ k.detail ++ rest') :
    h.bare = k.bare ∧ rest = rest' := by
  rw [List.append_assoc, List.append_assoc] at same
  obtain ⟨heads, details⟩ := word_append_inj same
  cases h with
  | assign name value =>
    cases k with
    | assign name' value' =>
      obtain ⟨names, values, behind⟩ := assign_append_inj writable writable' details
      exact ⟨by rw [bare, names, values]; rfl, behind⟩
    | _ => simp [word] at heads
  | conditional condition =>
    cases k with
    | conditional condition' =>
      obtain ⟨conditions, behind⟩ := condition_append_inj writable writable' details
      exact ⟨congrArg conditional conditions, behind⟩
    | _ => simp [word] at heads
  | whileLoop condition =>
    cases k with
    | whileLoop condition' =>
      obtain ⟨conditions, behind⟩ := condition_append_inj writable writable' details
      exact ⟨congrArg whileLoop conditions, behind⟩
    | _ => simp [word] at heads
  | countedLoop count binding =>
    cases k with
    | countedLoop count' binding' =>
      obtain ⟨counts, bindings, behind⟩ := countedLoop_append_inj writable writable' details
      exact ⟨by rw [bare, counts, bindings]; rfl, behind⟩
    | _ => simp [word] at heads
  | otherwise =>
    cases k with
    | otherwise => exact ⟨rfl, details⟩
    | _ => simp [word] at heads
  | elseIf condition =>
    cases k with
    | elseIf condition' =>
      obtain ⟨conditions, behind⟩ := condition_append_inj writable writable' details
      exact ⟨congrArg elseIf conditions, behind⟩
    | _ => simp [word] at heads

end DumpHeader

/-- A line of a dump: how deep it stands, and what it shows. -/
structure DumpLine where
  depth : Nat
  header : DumpHeader

namespace DumpLine

def chars (l : DumpLine) : List Char :=
  List.replicate (2 * l.depth) ' ' ++ (l.header.word.toList ++ l.header.detail)

def bare (l : DumpLine) : DumpLine := ⟨l.depth, l.header.bare⟩

theorem chars_ne_nil (l : DumpLine) : l.chars ≠ [] := by
  obtain ⟨c, cs, shown, -⟩ := l.header.exists_head
  simp [chars, shown]

theorem head_word (h : DumpHeader) (rest : List Char) :
    ∀ c ∈ (h.word.toList ++ rest).head?, (c == ' ') = false := by
  obtain ⟨c, cs, shown, noBlank⟩ := h.exists_head
  rw [shown]
  exact head_stop (p := (· == ' ')) noBlank _

theorem chars_append_inj {k l : DumpLine} (writable : k.header.Writable)
    (writable' : l.header.Writable) {rest rest' : List Char}
    (same : k.chars ++ rest = l.chars ++ rest') : k.bare = l.bare ∧ rest = rest' := by
  obtain ⟨depth, header⟩ := k
  obtain ⟨depth', header'⟩ := l
  simp only [chars, List.append_assoc] at same
  have spaces : ∀ n, ∀ c ∈ List.replicate n ' ', (c == ' ') = true := by
    intro n c hc
    rw [List.eq_of_mem_replicate hc]
    rfl
  have margins : List.replicate (2 * depth) ' ' = List.replicate (2 * depth') ' ' := by
    have taken := congrArg (List.takeWhile (· == ' ')) same
    rwa [takeWhile_stop (spaces _) (head_word header _),
      takeWhile_stop (spaces _) (head_word header' _)] at taken
  have depths : depth = depth' := by
    have sizes := congrArg List.length margins
    simp only [List.length_replicate] at sizes
    omega
  rw [margins] at same
  have shown := List.append_cancel_left same
  rw [← List.append_assoc, ← List.append_assoc] at shown
  obtain ⟨headers, behind⟩ := DumpHeader.append_inj writable writable' shown
  exact ⟨by rw [bare, bare, depths, headers], behind⟩

/-- The characters of some lines decide the lines. -/
theorem flatMap_chars_inj {ks ls : List DumpLine} (writable : ∀ k ∈ ks, k.header.Writable)
    (writable' : ∀ l ∈ ls, l.header.Writable)
    (same : ks.flatMap chars = ls.flatMap chars) : ks.map bare = ls.map bare := by
  induction ks generalizing ls with
  | nil =>
    cases ls with
    | nil => rfl
    | cons l ls =>
      have none := (List.append_eq_nil_iff.mp same.symm).1
      exact absurd none l.chars_ne_nil
  | cons k ks ih =>
    cases ls with
    | nil =>
      have none := (List.append_eq_nil_iff.mp same).1
      exact absurd none k.chars_ne_nil
    | cons l ls =>
      obtain ⟨here, later⟩ := List.forall_mem_cons.mp writable
      obtain ⟨here', later'⟩ := List.forall_mem_cons.mp writable'
      rw [List.flatMap_cons, List.flatMap_cons] at same
      obtain ⟨first, behind⟩ := chars_append_inj here here' same
      rw [List.map_cons, List.map_cons, first, ih later later' behind]

end DumpLine

mutual

/-- The lines of a statement. -/
def Statement.lines (depth : Nat) : Statement → List DumpLine
  | .assign _ name value => [⟨depth, .assign name value⟩]
  | .conditional _ condition body rest =>
    ⟨depth, .conditional condition⟩ ::
      (Statement.linesAll (depth + 1) body ++ rest.lines depth)
  | .whileLoop _ condition body =>
    ⟨depth, .whileLoop condition⟩ :: Statement.linesAll (depth + 1) body
  | .countedLoop _ count binding body =>
    ⟨depth, .countedLoop count binding⟩ :: Statement.linesAll (depth + 1) body

def Statement.linesAll (depth : Nat) : List Statement → List DumpLine
  | [] => []
  | s :: rest => s.lines depth ++ Statement.linesAll depth rest

def Alternative.lines (depth : Nat) : Alternative → List DumpLine
  | .nothing => []
  | .otherwise body => ⟨depth, .otherwise⟩ :: Statement.linesAll (depth + 1) body
  | .elseIf condition body rest =>
    ⟨depth, .elseIf condition⟩ :: (Statement.linesAll (depth + 1) body ++ rest.lines depth)

end

theorem toList_dumpLine (depth : Nat) (text : String) :
    (dumpLine depth text).toList = List.replicate (2 * depth) ' ' ++ (text.toList ++ ['\n']) := by
  simp [dumpLine]

mutual

theorem Statement.toList_dump (depth : Nat) : ∀ s : Statement,
    (s.dump depth).toList = (s.lines depth).flatMap DumpLine.chars
  | .assign _ name value => by
    rw [Statement.dump, Statement.lines, toList_dumpLine]
    simp [DumpLine.chars, DumpHeader.word, DumpHeader.detail]
  | .conditional _ condition body rest => by
    rw [Statement.dump, Statement.lines, String.toList_append, String.toList_append,
      toList_dumpLine, Statement.toList_dumpAll (depth + 1) body, rest.toList_dump depth]
    simp [DumpLine.chars, DumpHeader.word, DumpHeader.detail]
  | .whileLoop _ condition body => by
    rw [Statement.dump, Statement.lines, String.toList_append, toList_dumpLine,
      Statement.toList_dumpAll (depth + 1) body]
    simp [DumpLine.chars, DumpHeader.word, DumpHeader.detail]
  | .countedLoop _ count binding body => by
    rw [Statement.dump, Statement.lines, String.toList_append, toList_dumpLine,
      Statement.toList_dumpAll (depth + 1) body]
    simp [DumpLine.chars, DumpHeader.word, DumpHeader.detail]

theorem Statement.toList_dumpAll (depth : Nat) : ∀ ss : List Statement,
    (Statement.dumpAll depth ss).toList = (Statement.linesAll depth ss).flatMap DumpLine.chars
  | [] => rfl
  | s :: rest => by
    rw [Statement.dumpAll, Statement.linesAll, String.toList_append, s.toList_dump depth,
      Statement.toList_dumpAll depth rest, List.flatMap_append]

theorem Alternative.toList_dump (depth : Nat) : ∀ a : Alternative,
    (a.dump depth).toList = (a.lines depth).flatMap DumpLine.chars
  | .nothing => rfl
  | .otherwise body => by
    rw [Alternative.dump, Alternative.lines, String.toList_append, toList_dumpLine,
      Statement.toList_dumpAll (depth + 1) body]
    simp [DumpLine.chars, DumpHeader.word, DumpHeader.detail]
  | .elseIf condition body rest => by
    rw [Alternative.dump, Alternative.lines, String.toList_append, String.toList_append,
      toList_dumpLine, Statement.toList_dumpAll (depth + 1) body, rest.toList_dump depth]
    simp [DumpLine.chars, DumpHeader.word, DumpHeader.detail]

end

end PhraseLang
