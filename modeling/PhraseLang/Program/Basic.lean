import PhraseLang.Expr

/-! Programs: statements in order, the bodies of conditionals and loops nested in them. -/
namespace PhraseLang

mutual

/-- A statement with the span from its first token to its last. -/
inductive Statement where
  | assign (span : Span) (name : Token) (value : Expr)
  | conditional (span : Span) (condition : Expr) (body : List Statement) (rest : Alternative)
  | whileLoop (span : Span) (condition : Expr) (body : List Statement)
  | countedLoop (span : Span) (count : UInt64) (binding : Token) (body : List Statement)

inductive Alternative where
  | nothing
  | otherwise (body : List Statement)
  | elseIf (condition : Expr) (body : List Statement) (rest : Alternative)

end

structure Program where
  statements : List Statement

def Statement.span : Statement → Span
  | .assign span .. | .conditional span .. | .whileLoop span .. | .countedLoop span .. => span

end PhraseLang
