import PhraseLang.Program.Basic

/-! The dump of a program: one line for each statement and each clause, the lines of a body indented
by two more spaces. -/
namespace PhraseLang

def dumpLine (depth : Nat) (text : String) : String :=
  String.ofList (List.replicate (2 * depth) ' ') ++ text ++ "\n"

mutual

def Statement.dump (depth : Nat) : Statement → String
  | .assign _ name value => dumpLine depth ("assign " ++ Expr.literalText name ++ " " ++ value.text)
  | .conditional _ condition body rest =>
    dumpLine depth ("if " ++ condition.text) ++ Statement.dumpAll (depth + 1) body ++
      rest.dump depth
  | .whileLoop _ condition body =>
    dumpLine depth ("while " ++ condition.text) ++ Statement.dumpAll (depth + 1) body
  | .countedLoop _ count binding body =>
    dumpLine depth
        ("repeat " ++ toString count.toNat ++ " " ++ Sigil.pound.symbol.toString ++ binding.text) ++
      Statement.dumpAll (depth + 1) body

def Statement.dumpAll (depth : Nat) : List Statement → String
  | [] => ""
  | s :: rest => s.dump depth ++ Statement.dumpAll depth rest

def Alternative.dump (depth : Nat) : Alternative → String
  | .nothing => ""
  | .otherwise body => dumpLine depth "else" ++ Statement.dumpAll (depth + 1) body
  | .elseIf condition body rest =>
    dumpLine depth ("else-if " ++ condition.text) ++ Statement.dumpAll (depth + 1) body ++
      rest.dump depth

end

def Program.dump (p : Program) : String := Statement.dumpAll 0 p.statements

end PhraseLang
