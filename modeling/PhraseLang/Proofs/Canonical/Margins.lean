import PhraseLang.Proofs.Canonical.Lines

/-! The margins of a written program.
A line feed in its text has a margin behind it, and the margin something that is no blank. So no
line overflows as long as the deepest margin fits 64 bits. -/
namespace PhraseLang
open Text Layout

/-- Behind every line feed come spaces, no more than fit 64 bits. -/
def Indented (text : List Char) : Prop :=
  ∀ front rest, text = front ++ '\n' :: rest →
    ∃ n < UInt64.size, rest.takeWhile Piece.isIndentation = List.replicate n ' '

theorem Indented.not_overflowsIn {source : String} (indented : Indented source.toList)
    (tab : UInt64) : ¬ OverflowsIn tab source := by
  rintro ⟨row, inSource, overflows⟩
  obtain ⟨front, rest, cut, rfl⟩ := exists_feed_of_mem_indentations inSource
  obtain ⟨n, fits, spaces⟩ := indented front rest cut
  rw [spaces] at overflows
  exact not_overflows_of_lt (by rwa [extent_spaces]) overflows

namespace Indented
variable {part rest : List Char}

theorem nil : Indented [] := by
  intro front rest cut
  simp at cut

theorem append (plain : '\n' ∉ part) (indented : Indented rest) : Indented (part ++ rest) := by
  intro front behind cut
  rcases append_eq_split cut with ⟨b, inPart, -⟩ | ⟨f, -, inRest⟩
  · exact absurd (by simp [inPart]) plain
  · exact indented f behind inRest

theorem cons {c : Char} (plain : c ≠ '\n') (indented : Indented rest) : Indented (c :: rest) := by
  have single : '\n' ∉ [c] := by simpa using plain.symm
  exact append single indented

theorem line {depth : Nat} (fits : 4 * depth < UInt64.size)
    (flush : ∀ c ∈ rest.head?, Piece.isIndentation c = false) (indented : Indented rest) :
    Indented ('\n' :: (margin depth ++ rest)) := by
  have blanks : ∀ c ∈ margin depth, Piece.isIndentation c = true := by
    intro c hc
    rw [List.eq_of_mem_replicate hc]
    rfl
  have plain : '\n' ∉ margin depth := fun inside => by cases blanks _ inside
  intro front behind cut
  cases front with
  | nil =>
    obtain rfl := (List.cons.inj cut).2
    exact ⟨4 * depth, fits, takeWhile_stop blanks flush⟩
  | cons c front => exact append plain indented front behind (List.cons.inj cut).2

end Indented

theorem IsName.feed_not_mem {text : String} (isName : IsName text) : '\n' ∉ text.toList := by
  intro inside
  cases isName.2 _ inside

theorem IsNumeral.feed_not_mem {text : String} (isNumeral : IsNumeral text) :
    '\n' ∉ text.toList := by
  rw [← List.takeWhile_append_dropWhile (p := Char.isDigit) (l := text.toList), List.mem_append]
  rintro (inside | inside)
  · exact Lexeme.feed_not_mem_takeWhile rfl _ inside
  · have fraction := isNumeral.2
    generalize text.toList.dropWhile Char.isDigit = behind at fraction inside
    cases behind with
    | nil => cases inside
    | cons c digits =>
      obtain ⟨rfl, -, all⟩ := fraction
      rcases List.mem_cons.mp inside with isPoint | inside
      · cases isPoint
      · cases all _ inside

theorem Token.Writable.feed_not_mem {t : Token} (writable : t.Writable) :
    '\n' ∉ t.text.toList := by
  obtain ⟨kind, text, span⟩ := t
  cases kind with
  | number => exact IsNumeral.feed_not_mem writable
  | word => exact IsName.feed_not_mem writable.1
  | constant | binding => exact IsName.feed_not_mem writable
  | operator o =>
    have isSymbol : text = o.symbol.toString := writable
    have plain : '\n' ∉ o.symbol.toString.toList := by cases o <;> decide
    exact isSymbol ▸ plain
  | _ => exact absurd writable id

namespace Expr

theorem feed_not_mem_literalText {t : Token} (plain : '\n' ∉ t.text.toList) :
    '\n' ∉ (literalText t).toList := by
  unfold literalText
  split
  · rename_i sigil _
    cases sigil <;> simp [Sigil.symbol, plain]
  · exact plain

theorem Writable.feed_not_mem {e : Expr} (writable : e.Writable) : '\n' ∉ e.source := by
  match e, writable with
  | .literal t, writable =>
    exact feed_not_mem_literalText (writable.tokens t List.mem_cons_self).feed_not_mem
  | .binary l op r, writable =>
    have left := writable.left.feed_not_mem
    have right := writable.right.feed_not_mem
    have operator := (writable.tokens op (List.mem_append_right _ List.mem_cons_self)).feed_not_mem
    simp [source, left, right, operator]
  | .array _, writable => exact absurd writable.grouped id

theorem feed_not_mem_sourceBehind {es : List Expr} (writable : ∀ e ∈ es, e.Writable) :
    '\n' ∉ source.sourceBehind es := by
  induction es with
  | nil => exact List.not_mem_nil
  | cons e es ih =>
    have here := (writable e List.mem_cons_self).feed_not_mem
    have behind := ih fun d hd => writable d (List.mem_cons_of_mem e hd)
    simp [source.sourceBehind, here, behind]

theorem WritableValue.feed_not_mem {e : Expr} (writable : e.WritableValue) : '\n' ∉ e.source := by
  cases e with
  | literal t => exact Writable.feed_not_mem writable
  | binary l op r => exact Writable.feed_not_mem writable
  | array elements =>
    cases elements with
    | nil => exact List.not_mem_nil
    | cons first es =>
      obtain ⟨-, all⟩ := writable
      rw [source, List.mem_append, not_or]
      exact ⟨(all first List.mem_cons_self).feed_not_mem,
        feed_not_mem_sourceBehind fun e he => all e (List.mem_cons_of_mem first he)⟩

end Expr

theorem indented_braces {depth : Nat} (fits : 4 * depth < UInt64.size) {lines rest : List Char}
    (indented : ∀ rest, Indented rest → Indented (lines ++ rest)) (more : Indented rest) :
    Indented (braces depth lines ++ rest) := by
  have cut : braces depth lines ++ rest =
      '{' :: (lines ++ '\n' :: (margin depth ++ Punctuation.rightCurly.symbol :: rest)) := by
    simp [braces, Punctuation.symbol]
  rw [cut]
  have last := starts_punctuation .rightCurly rest
  exact .cons (by decide) (indented _ (.line fits last.flush (.cons (by decide) more)))

mutual

/-- The margins in the text of a statement are no deeper than the bodies nested in it. -/
theorem Statement.indented : ∀ (s : Statement) (depth : Nat), s.Writable →
    4 * (depth + s.height) < UInt64.size → ∀ rest, Indented rest →
      Indented (s.source depth ++ rest)
  | .assign _ name value, _, ⟨_, isName, writable⟩, _, rest, more => by
    have named := Expr.feed_not_mem_literalText isName.feed_not_mem
    refine .append ?_ more
    simp [Statement.source, Lexeme.feed_not_mem_letters, named, writable.feed_not_mem]
  | .conditional span condition body clauses, depth, ⟨allowed, _, all, others⟩, fits, rest,
      more => by
    rw [Statement.height] at fits
    have behind := clauses.indented depth others (by omega) rest more
    have block := Statement.indented_block body depth all (by omega) _ behind
    have header : '\n' ∉ Keyword.ifThen.letters ++ ' ' :: (condition.source ++ [' ']) := by
      simp [Lexeme.feed_not_mem_letters, allowed.feed_not_mem]
    have cut : (Statement.conditional span condition body clauses).source depth ++ rest =
        (Keyword.ifThen.letters ++ ' ' :: (condition.source ++ [' '])) ++
          (braces depth (Statement.linesSource (depth + 1) body) ++
            (clauses.source depth ++ rest)) := by
      simp [Statement.source]
    rw [cut]
    exact .append header block
  | .whileLoop span condition body, depth, ⟨allowed, _, all⟩, fits, rest, more => by
    have block := Statement.indented_block body depth all fits rest more
    have header : '\n' ∉ '(' :: (condition.source ++
        ')' :: ' ' :: (Keyword.whileLoop.letters ++ [' '])) := by
      simp [Lexeme.feed_not_mem_letters, allowed.feed_not_mem]
    have cut : (Statement.whileLoop span condition body).source depth ++ rest =
        ('(' :: (condition.source ++ ')' :: ' ' :: (Keyword.whileLoop.letters ++ [' ']))) ++
          (braces depth (Statement.linesSource (depth + 1) body) ++ rest) := by
      simp [Statement.source]
    rw [cut]
    exact .append header block
  | .countedLoop span count binding body, depth, ⟨_, isName, _, all⟩, fits, rest, more => by
    have named := Expr.feed_not_mem_literalText isName.feed_not_mem
    have block := Statement.indented_block body depth all fits rest more
    have marks : '\n' ∉ List.replicate count.toNat Keyword.repeatMark := by
      intro inside
      cases List.eq_of_mem_replicate inside
    have header : '\n' ∉ Keyword.countedLoop.letters ++
        (List.replicate count.toNat Keyword.repeatMark ++
          ' ' :: ((Expr.literalText binding).toList ++ [' '])) := by
      simp only [List.mem_append, List.mem_cons, not_or]
      simp [Lexeme.feed_not_mem_letters, named, marks]
    have cut : (Statement.countedLoop span count binding body).source depth ++ rest =
        (Keyword.countedLoop.letters ++ (List.replicate count.toNat Keyword.repeatMark ++
          ' ' :: ((Expr.literalText binding).toList ++ [' ']))) ++
          (braces depth (Statement.linesSource (depth + 1) body) ++ rest) := by
      simp [Statement.source]
    rw [cut]
    exact .append header block

theorem Statement.indented_block : ∀ (body : List Statement) (depth : Nat),
    Statement.WritableAll body → 4 * (depth + (Statement.heightAll body + 1)) < UInt64.size →
      ∀ rest, Indented rest →
        Indented (braces depth (Statement.linesSource (depth + 1) body) ++ rest)
  | body, depth, all, fits, _, more =>
    indented_braces (by omega) (Statement.indented_lines body (depth + 1) all (by omega)) more

theorem Statement.indented_lines : ∀ (ss : List Statement) (depth : Nat),
    Statement.WritableAll ss → 4 * (depth + Statement.heightAll ss) < UInt64.size →
      ∀ rest, Indented rest → Indented (Statement.linesSource depth ss ++ rest)
  | [], _, _, _, _, more => more
  | s :: ss, depth, ⟨here, behind⟩, fits, rest, more => by
    rw [Statement.heightAll] at fits
    have others := Statement.indented_lines ss depth behind (by omega) rest more
    have line := s.indented depth here (by omega) _ others
    have cut : Statement.linesSource depth (s :: ss) ++ rest =
        '\n' :: (margin depth ++ (s.source depth ++ (Statement.linesSource depth ss ++ rest))) := by
      simp [Statement.linesSource]
    rw [cut]
    exact .line (by omega) (s.starts depth _).flush line

theorem Alternative.indented : ∀ (a : Alternative) (depth : Nat), a.Writable →
    4 * (depth + a.height) < UInt64.size → ∀ rest, Indented rest →
      Indented (a.source depth ++ rest)
  | .nothing, _, _, _, _, more => more
  | .otherwise body, depth, ⟨_, all⟩, fits, rest, more => by
    have block := Statement.indented_block body depth all fits rest more
    have header : '\n' ∉ Keyword.otherwise.letters ++ [' '] := by decide
    have cut : (Alternative.otherwise body).source depth ++ rest =
        '\n' :: (margin depth ++ (Keyword.otherwise.letters ++ [' '] ++
          (braces depth (Statement.linesSource (depth + 1) body) ++ rest))) := by
      simp [Alternative.source]
    have starts : Starts (Keyword.otherwise.letters ++ [' '] ++
        (braces depth (Statement.linesSource (depth + 1) body) ++ rest)) := by
      rw [List.append_assoc]
      exact starts_keyword .otherwise _
    rw [cut]
    exact .line (by omega) starts.flush (.append header block)
  | .elseIf condition body clauses, depth, ⟨allowed, _, all, others⟩, fits, rest, more => by
    rw [Alternative.height] at fits
    have behind := clauses.indented depth others (by omega) rest more
    have block := Statement.indented_block body depth all (by omega) _ behind
    have header : '\n' ∉ Keyword.elseIf.letters ++ ' ' :: (condition.source ++ [' ']) := by
      simp [Lexeme.feed_not_mem_letters, allowed.feed_not_mem]
    have cut : (Alternative.elseIf condition body clauses).source depth ++ rest =
        '\n' :: (margin depth ++ (Keyword.elseIf.letters ++ ' ' :: (condition.source ++ [' ']) ++
          (braces depth (Statement.linesSource (depth + 1) body) ++
            (clauses.source depth ++ rest)))) := by
      simp [Alternative.source]
    have starts : Starts (Keyword.elseIf.letters ++ ' ' :: (condition.source ++ [' ']) ++
        (braces depth (Statement.linesSource (depth + 1) body) ++
          (clauses.source depth ++ rest))) := by
      rw [List.append_assoc]
      exact starts_keyword .elseIf _
    rw [cut]
    exact .line (by omega) starts.flush (.append header block)

end

theorem indented_program {ss : List Statement} (writable : Statement.WritableAll ss)
    (fits : 4 * Statement.heightAll ss < UInt64.size) :
    Indented (ss.flatMap fun s => s.source 0 ++ ['\n']) := by
  induction ss with
  | nil => exact .nil
  | cons s ss ih =>
    obtain ⟨here, behind⟩ := writable
    rw [Statement.heightAll] at fits
    have others := ih behind (by omega)
    have feed : Indented ('\n' :: (margin 0 ++ ss.flatMap fun s => s.source 0 ++ ['\n'])) :=
      .line (by decide) (flush_program ss) others
    rw [List.flatMap_cons, List.append_assoc]
    exact s.indented 0 here (by omega) _ feed

/-- The text of a program that can be written overflows nowhere. -/
theorem Program.not_overflowsIn_source {p : Program} (writable : p.Writable)
    (shallow : 4 * p.height < UInt64.size) (tab : UInt64) : ¬ OverflowsIn tab p.source := by
  have indented : Indented p.source.toList := by
    rw [Program.source, String.toList_ofList]
    exact indented_program writable shallow
  exact indented.not_overflowsIn tab

end PhraseLang
