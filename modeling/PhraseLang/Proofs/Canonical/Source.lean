import PhraseLang.Program.Basic
import PhraseLang.Proofs.Grouping

/-! Programs written out.
Each header of a statement or clause has a line of its own; a brace ends it, the body stands four
blanks further in, and the closing brace is alone on a line as far in as the header. One blank
stands between words and operators. `Writable` says which programs the text of every part allows. -/
namespace PhraseLang

def margin (depth : Nat) : List Char := List.replicate (4 * depth) ' '

def Expr.source : Expr → List Char
  | .literal token => (literalText token).toList
  | .binary left op right => left.source ++ ' ' :: (op.text.toList ++ ' ' :: right.source)
  | .array [] => []
  | .array (first :: rest) => first.source ++ sourceBehind rest
where
  sourceBehind : List Expr → List Char
    | [] => []
    | e :: rest => ',' :: ' ' :: (e.source ++ sourceBehind rest)

/-- A block at the end of a header, around the lines of its body. -/
def braces (depth : Nat) (lines : List Char) : List Char :=
  '{' :: (lines ++ '\n' :: (margin depth ++ ['}']))

mutual

/-- A statement from its first token to its last, the lines behind the first with their margins. -/
def Statement.source (depth : Nat) : Statement → List Char
  | .assign _ name value =>
    Keyword.define.letters ++ ' ' :: ((Expr.literalText name).toList ++ ' ' ::
      (Keyword.assign.letters ++ ' ' :: (value.source ++ ' ' :: Keyword.endOfAssign.letters)))
  | .conditional _ condition body rest =>
    Keyword.ifThen.letters ++ ' ' :: (condition.source ++ ' ' ::
      (braces depth (Statement.linesSource (depth + 1) body) ++ rest.source depth))
  | .whileLoop _ condition body =>
    '(' :: (condition.source ++ ')' :: ' ' :: (Keyword.whileLoop.letters ++ ' ' ::
      braces depth (Statement.linesSource (depth + 1) body)))
  | .countedLoop _ count binding body =>
    Keyword.countedLoop.letters ++ (List.replicate count.toNat Keyword.repeatMark ++ ' ' ::
      ((Expr.literalText binding).toList ++ ' ' ::
        braces depth (Statement.linesSource (depth + 1) body)))

/-- Statements with a line break and a margin in front of each. -/
def Statement.linesSource (depth : Nat) : List Statement → List Char
  | [] => []
  | s :: rest => '\n' :: (margin depth ++ (s.source depth ++ Statement.linesSource depth rest))

def Alternative.source (depth : Nat) : Alternative → List Char
  | .nothing => []
  | .otherwise body =>
    '\n' :: (margin depth ++ (Keyword.otherwise.letters ++ ' ' ::
      braces depth (Statement.linesSource (depth + 1) body)))
  | .elseIf condition body rest =>
    '\n' :: (margin depth ++ (Keyword.elseIf.letters ++ ' ' :: (condition.source ++ ' ' ::
      (braces depth (Statement.linesSource (depth + 1) body) ++ rest.source depth))))

end

def Program.source (p : Program) : String :=
  String.ofList (p.statements.flatMap fun s => s.source 0 ++ ['\n'])

def IsName (text : String) : Prop := text.toList ≠ [] ∧ ∀ c ∈ text.toList, c.isAlpha = true

/-- Nothing, or a point and digits. -/
def IsFraction : List Char → Prop
  | [] => True
  | c :: digits => c = '.' ∧ digits ≠ [] ∧ ∀ d ∈ digits, d.isDigit = true

/-- Digits, and behind a point more digits. -/
def IsNumeral (text : String) : Prop :=
  text.toList.takeWhile Char.isDigit ≠ [] ∧ IsFraction (text.toList.dropWhile Char.isDigit)

/-- Letters that are no phrase, and do not begin with the one that takes repeat marks. -/
def IsPlainWord (text : String) : Prop :=
  IsName text ∧ (∀ k : Keyword, k.phrase ≠ text) ∧ ¬ Keyword.countedLoop.letters <+: text.toList

def Token.Writable (t : Token) : Prop :=
  match t.kind with
  | .number => IsNumeral t.text
  | .word => IsPlainWord t.text
  | .constant | .binding => IsName t.text
  | .operator o => t.text = o.symbol.toString
  | _ => False

/-- Literals and operators that can be written, grouped as the reader groups them. -/
structure Expr.Writable (e : Expr) : Prop where
  grouped : e.Grouped
  tokens : ∀ t ∈ e.tokens, t.Writable

/-- A value may be an array, of two or more expressions that are none. -/
def Expr.WritableValue : Expr → Prop
  | .array elements => 2 ≤ elements.length ∧ ∀ e ∈ elements, e.Writable
  | e => e.Writable

mutual

def Statement.Writable : Statement → Prop
  | .assign _ name value =>
    (name.kind = .constant ∨ name.kind = .binding) ∧ IsName name.text ∧ value.WritableValue
  | .conditional _ condition body rest =>
    condition.Writable ∧ body ≠ [] ∧ Statement.WritableAll body ∧ rest.Writable
  | .whileLoop _ condition body => condition.Writable ∧ body ≠ [] ∧ Statement.WritableAll body
  | .countedLoop _ _ binding body =>
    binding.kind = .binding ∧ IsName binding.text ∧ body ≠ [] ∧ Statement.WritableAll body

def Statement.WritableAll : List Statement → Prop
  | [] => True
  | s :: rest => s.Writable ∧ Statement.WritableAll rest

def Alternative.Writable : Alternative → Prop
  | .nothing => True
  | .otherwise body => body ≠ [] ∧ Statement.WritableAll body
  | .elseIf condition body rest =>
    condition.Writable ∧ body ≠ [] ∧ Statement.WritableAll body ∧ rest.Writable

end

def Program.Writable (p : Program) : Prop := Statement.WritableAll p.statements

instance (text : String) : Decidable (IsName text) :=
  have : Decidable (∀ c ∈ text.toList, c.isAlpha = true) := List.decidableBAll _ _
  inferInstanceAs (Decidable (_ ∧ _))

instance : ∀ text : List Char, Decidable (IsFraction text)
  | [] => isTrue trivial
  | _ :: digits =>
    have : Decidable (∀ d ∈ digits, d.isDigit = true) := List.decidableBAll _ _
    inferInstanceAs (Decidable (_ ∧ _ ∧ _))

instance (text : String) : Decidable (IsNumeral text) := inferInstanceAs (Decidable (_ ∧ _))

instance (text : String) : Decidable (IsPlainWord text) :=
  decidable_of_iff
    (IsName text ∧ (∀ k ∈ Keyword.all, k.phrase ≠ text) ∧
      ¬ Keyword.countedLoop.letters <+: text.toList)
    (by simp only [IsPlainWord, Keyword.mem_all, true_implies])

instance : ∀ t : Token, Decidable t.Writable
  | ⟨.number, text, _⟩ => inferInstanceAs (Decidable (IsNumeral text))
  | ⟨.word, text, _⟩ => inferInstanceAs (Decidable (IsPlainWord text))
  | ⟨.constant, text, _⟩ | ⟨.binding, text, _⟩ => inferInstanceAs (Decidable (IsName text))
  | ⟨.operator o, text, _⟩ => inferInstanceAs (Decidable (text = o.symbol.toString))
  | ⟨.keyword _, _, _⟩ | ⟨.punctuation _, _, _⟩ | ⟨.newline, _, _⟩ | ⟨.indent, _, _⟩
  | ⟨.dedent, _, _⟩ | ⟨.unknown, _, _⟩ => isFalse id

theorem Kind.isSome_operator? {k : Kind} : k.operator?.isSome = true ↔ ∃ o, k = .operator o := by
  cases k <;> simp [operator?]

instance Expr.decidableGrouped : ∀ e : Expr, Decidable e.Grouped
  | .literal token => inferInstanceAs (Decidable (token.kind.isLiteral = true))
  | .binary left op right =>
    have := left.decidableGrouped
    have := right.decidableGrouped
    decidable_of_iff (op.kind.operator?.isSome = true ∧ left.Grouped ∧ right.Grouped ∧
      (∀ o ∈ left.operator?, strength op ≤ o.precedence) ∧
      (∀ o ∈ right.operator?, strength op < o.precedence)) (and_congr_left' Kind.isSome_operator?)
  | .array _ => isFalse id

instance (e : Expr) : Decidable e.Writable :=
  decidable_of_iff (e.Grouped ∧ ∀ t ∈ e.tokens, t.Writable)
    ⟨fun ⟨grouped, tokens⟩ => ⟨grouped, tokens⟩, fun ⟨grouped, tokens⟩ => ⟨grouped, tokens⟩⟩

instance : ∀ e : Expr, Decidable e.WritableValue
  | .array _ => inferInstanceAs (Decidable (_ ∧ _))
  | .literal token => inferInstanceAs (Decidable (Expr.literal token).Writable)
  | .binary left op right => inferInstanceAs (Decidable (Expr.binary left op right).Writable)

mutual

def Statement.decidableWritable : ∀ s : Statement, Decidable s.Writable
  | .assign .. => inferInstanceAs (Decidable (_ ∧ _ ∧ _))
  | .conditional _ _ body rest =>
    have := Statement.decidableWritableAll body
    have := rest.decidableWritable
    inferInstanceAs (Decidable (_ ∧ _ ∧ _ ∧ _))
  | .whileLoop _ _ body =>
    have := Statement.decidableWritableAll body
    inferInstanceAs (Decidable (_ ∧ _ ∧ _))
  | .countedLoop _ _ _ body =>
    have := Statement.decidableWritableAll body
    inferInstanceAs (Decidable (_ ∧ _ ∧ _ ∧ _))

def Statement.decidableWritableAll : ∀ ss : List Statement, Decidable (Statement.WritableAll ss)
  | [] => isTrue trivial
  | s :: rest =>
    have := s.decidableWritable
    have := Statement.decidableWritableAll rest
    inferInstanceAs (Decidable (_ ∧ _))

def Alternative.decidableWritable : ∀ a : Alternative, Decidable a.Writable
  | .nothing => isTrue trivial
  | .otherwise body =>
    have := Statement.decidableWritableAll body
    inferInstanceAs (Decidable (_ ∧ _))
  | .elseIf _ body rest =>
    have := Statement.decidableWritableAll body
    have := rest.decidableWritable
    inferInstanceAs (Decidable (_ ∧ _ ∧ _ ∧ _))

end

instance (p : Program) : Decidable p.Writable := Statement.decidableWritableAll p.statements

mutual

/-- How many bodies are nested in a statement. -/
def Statement.height : Statement → Nat
  | .assign .. => 0
  | .conditional _ _ body rest => max (Statement.heightAll body + 1) rest.height
  | .whileLoop _ _ body | .countedLoop _ _ _ body => Statement.heightAll body + 1

def Statement.heightAll : List Statement → Nat
  | [] => 0
  | s :: rest => max s.height (Statement.heightAll rest)

def Alternative.height : Alternative → Nat
  | .nothing => 0
  | .otherwise body => Statement.heightAll body + 1
  | .elseIf _ body rest => max (Statement.heightAll body + 1) rest.height

end

def Program.height (p : Program) : Nat := Statement.heightAll p.statements

end PhraseLang
