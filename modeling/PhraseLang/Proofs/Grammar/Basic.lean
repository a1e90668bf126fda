import PhraseLang.Program.Reading
import PhraseLang.Proofs.Grouping

/-! The grammar of programs, as a type of derivations.
A derivation holds every token it accounts for, each of a kind that its place allows, so it cannot
be ill-formed. `tokens` writes it out again, `program` is the tree it stands for. No reader is used
in these definitions. -/
namespace PhraseLang.Grammar

abbrev Word (kinds : List Kind) := { t : Token // t.kind ∈ kinds }

/-- An expression: a literal, or operators with literals between them, grouped by strength. -/
structure Chain where
  tree : Expr
  grouped : tree.Grouped

def Chain.tokens (c : Chain) : List Token := c.tree.tokens

/-- What is assigned: an expression, or two or more of them between commas. -/
inductive Value where
  | one (e : Chain)
  | many (first : Chain) (rest : List (Word [Run.comma] × Chain)) (more : rest ≠ [])

def Value.tokens : Value → List Token
  | .one e => e.tokens
  | .many first rest _ => first.tokens ++ rest.flatMap fun p => p.1.val :: p.2.tokens

def Value.tree : Value → Expr
  | .one e => e.tree
  | .many first rest _ => .array (first.tree :: rest.map fun p => p.2.tree)

mutual

inductive Stmt where
  | assign (first : Word [.keyword .define]) (name : Word [.constant, .binding])
      (becomes : Word [.keyword .assign]) (value : Value) (last : Word [.keyword .endOfAssign])
  | conditional (first : Word [.keyword .ifThen]) (condition : Chain) (body : Block)
      (clauses : Clauses)
  | whileLoop (first : Word [.punctuation .leftParen]) (condition : Chain)
      (close : Word [.punctuation .rightParen]) (suffix : Word [.keyword .whileLoop])
      (body : Block)
  | countedLoop (first : Word [.keyword .countedLoop]) (count : UInt64)
      (counted : Text.readUInt64? first.val.text = some count) (binding : Word [.binding])
      (body : Block)

inductive Block where
  | braces (opening : Word [.punctuation .leftCurly]) (lineBreak : Word [.newline])
      (indent : Word [.indent]) (body : Body) (dedent : Word [.dedent])
      (closing : Word [.punctuation .rightCurly])

inductive Body where
  | nil
  | blank (lineBreak : Word [.newline]) (rest : Body)
  | stmt (s : Stmt) (rest : Body)

inductive Clauses where
  | nothing
  | otherwise (breaks : List (Word [.newline])) (first : Word [.keyword .otherwise]) (body : Block)
  | elseIf (breaks : List (Word [.newline])) (first : Word [.keyword .elseIf]) (condition : Chain)
      (body : Block) (rest : Clauses)

end

/-- A whole program: statements, blocks of their own, and blank lines. -/
inductive Derivation where
  | nil
  | blank (lineBreak : Word [.newline]) (rest : Derivation)
  | block (b : Block) (rest : Derivation)
  | stmt (s : Stmt) (rest : Derivation)

def words {kinds : List Kind} (ws : List (Word kinds)) : List Token := ws.map Subtype.val

mutual

def Stmt.tokens : Stmt → List Token
  | .assign first name becomes value last =>
    first.val :: name.val :: becomes.val :: (value.tokens ++ [last.val])
  | .conditional first condition body clauses =>
    first.val :: (condition.tokens ++ body.tokens ++ clauses.tokens)
  | .whileLoop first condition close suffix body =>
    first.val :: (condition.tokens ++ close.val :: suffix.val :: body.tokens)
  | .countedLoop first _ _ binding body => first.val :: binding.val :: body.tokens

def Block.tokens : Block → List Token
  | .braces opening lineBreak indent body dedent closing =>
    opening.val :: lineBreak.val :: indent.val :: (body.tokens ++ [dedent.val, closing.val])

def Body.tokens : Body → List Token
  | .nil => []
  | .blank lineBreak rest => lineBreak.val :: rest.tokens
  | .stmt s rest => s.tokens ++ rest.tokens

def Clauses.tokens : Clauses → List Token
  | .nothing => []
  | .otherwise breaks first body => words breaks ++ first.val :: body.tokens
  | .elseIf breaks first condition body rest =>
    words breaks ++ first.val :: (condition.tokens ++ body.tokens ++ rest.tokens)

end

def Derivation.tokens : Derivation → List Token
  | .nil => []
  | .blank lineBreak rest => lineBreak.val :: rest.tokens
  | .block b rest => b.tokens ++ rest.tokens
  | .stmt s rest => s.tokens ++ rest.tokens

/-- From the start of the first of some tokens to the end of the last. -/
def spanOf (tokens : List Token) : Span :=
  ⟨(tokens.head?.map fun t => t.span.start).getD 0, endOffset tokens⟩

theorem endOffset_append (a : List Token) {b : List Token} (h : b ≠ []) :
    endOffset (a ++ b) = endOffset b := by
  rw [endOffset, endOffset, List.getLast?_append]
  cases last : b.getLast? with
  | none => exact absurd (List.getLast?_eq_none_iff.mp last) h
  | some t => rfl

theorem endOffset_cons (t : Token) {b : List Token} (h : b ≠ []) :
    endOffset (t :: b) = endOffset b := endOffset_append [t] h

theorem spanOf_cons (t : Token) (ts : List Token) :
    spanOf (t :: ts) = ⟨t.span.start, endOffset (t :: ts)⟩ := rfl

theorem Block.tokens_ne_nil (b : Block) : b.tokens ≠ [] := by
  cases b
  simp [Block.tokens]

theorem Stmt.tokens_ne_nil (s : Stmt) : s.tokens ≠ [] := by
  cases s <;> simp [Stmt.tokens]

mutual

def Stmt.tree : Stmt → Statement
  | .assign first name becomes value last =>
    .assign (spanOf (Stmt.assign first name becomes value last).tokens) name.val value.tree
  | .conditional first condition body clauses =>
    .conditional (spanOf (Stmt.conditional first condition body clauses).tokens) condition.tree
      body.trees clauses.tree
  | .whileLoop first condition close suffix body =>
    .whileLoop (spanOf (Stmt.whileLoop first condition close suffix body).tokens) condition.tree
      body.trees
  | .countedLoop first count counted binding body =>
    .countedLoop (spanOf (Stmt.countedLoop first count counted binding body).tokens) count
      binding.val body.trees

def Block.trees : Block → List Statement
  | .braces _ _ _ body _ _ => body.trees

def Body.trees : Body → List Statement
  | .nil => []
  | .blank _ rest => rest.trees
  | .stmt s rest => s.tree :: rest.trees

def Clauses.tree : Clauses → Alternative
  | .nothing => .nothing
  | .otherwise _ _ body => .otherwise body.trees
  | .elseIf _ _ condition body rest => .elseIf condition.tree body.trees rest.tree

end

/-- A block that stands alone contributes its statements in place. -/
def Derivation.trees : Derivation → List Statement
  | .nil => []
  | .blank _ rest => rest.trees
  | .block b rest => b.trees ++ rest.trees
  | .stmt s rest => s.tree :: rest.trees

def Derivation.program (d : Derivation) : Program := ⟨d.trees⟩

end PhraseLang.Grammar
