import PhraseLang.Layout
import PhraseLang.Program.Basic
import PhraseLang.Run
import PhraseLang.Text.Decimal

/-! Programs read from tokens.
Each reader takes the tokens that are left and returns what it read with the tokens behind it; the
first error ends the reading. `eof` is where the tokens end in the source. Bodies nest, and a reader
of statements is given the reader of the bodies in them; the nesting is bounded by the number of
tokens, since every body stands behind at least one token of its statement. -/
namespace PhraseLang

abbrev Reader (α : Type) := List Token → Except ParseError (α × List Token)

namespace Reader

def expect (eof : Nat) (kinds : List Kind) : Reader Token
  | [] => .error (.unexpectedEnd kinds eof)
  | t :: rest => if t.kind ∈ kinds then .ok (t, rest) else .error (.unexpectedToken t kinds)

/-- The tokens before the first one of kind `stop`, and that one. -/
def through (eof : Nat) (stop : Kind) : Reader (List Token × Token) := fun ts =>
  match ts.dropWhile fun t => t.kind != stop with
  | [] => .error (.unexpectedEnd [stop] eof)
  | t :: rest => .ok ((ts.takeWhile fun t => t.kind != stop, t), rest)

/-- A block: a brace, a line break and an indented body, and a brace back at the outer level.
Returns where the closing brace ends. -/
def block (eof : Nat) (body : Reader (List Statement)) :
    Reader (List Statement × Nat) := fun ts => do
  let (_, ts) ← expect eof [.punctuation .leftCurly] ts
  let (_, ts) ← expect eof [.newline] ts
  let (_, ts) ← expect eof [.indent] ts
  let (statements, ts) ← body ts
  let (brace, ts) ← expect eof [.punctuation .rightCurly] ts
  return ((statements, brace.span.stop), ts)

/-- A condition up to the brace that opens its block, and the block. -/
def guarded (eof : Nat) (body : Reader (List Statement)) :
    Reader (Expr × List Statement × Nat) := fun ts => do
  let ((run, brace), ts) ← through eof (.punctuation .leftCurly) ts
  let condition ← Run.read false brace.span.start run
  let ((statements, stop), ts) ← block eof body (brace :: ts)
  return ((condition, statements, stop), ts)

def assignment (eof : Nat) (first : Token) : Reader Statement := fun ts => do
  let (name, ts) ← expect eof [.constant, .binding] ts
  let (_, ts) ← expect eof [.keyword .assign] ts
  let ((run, last), ts) ← through eof (.keyword .endOfAssign) ts
  let value ← Run.read true last.span.start run
  return (.assign ⟨first.span.start, last.span.stop⟩ name value, ts)

/-- The clauses behind a conditional's first block, which ends at `stop`, at most `n` of them. Line
breaks before a clause belong to it; where no clause follows, they are left. Returns where the last
block ends. -/
def alternative (eof : Nat) (body : Reader (List Statement)) :
    Nat → Nat → Reader (Alternative × Nat)
  | 0, stop, ts => .ok ((.nothing, stop), ts)
  | n + 1, stop, ts =>
    match ts.dropWhile fun t => t.kind == .newline with
    | [] => .ok ((.nothing, stop), ts)
    | t :: rest =>
      if t.kind = .keyword .elseIf then do
        let ((condition, statements, stop), rest) ← guarded eof body rest
        let ((clauses, stop), rest) ← alternative eof body n stop rest
        return ((.elseIf condition statements clauses, stop), rest)
      else if t.kind = .keyword .otherwise then do
        let ((statements, stop), rest) ← block eof body rest
        return ((.otherwise statements, stop), rest)
      else .ok ((.nothing, stop), ts)

def conditional (eof : Nat) (body : Reader (List Statement)) (n : Nat) (first : Token) :
    Reader Statement := fun ts => do
  let ((condition, statements, stop), ts) ← guarded eof body ts
  let ((clauses, stop), ts) ← alternative eof body n stop ts
  return (.conditional ⟨first.span.start, stop⟩ condition statements clauses, ts)

/-- The tokens up to the parenthesis that closes the one before them, that parenthesis, and the
tokens behind it; `depth` more parentheses are open. -/
def closing? : Nat → List Token → Option (List Token × Token × List Token)
  | _, [] => none
  | depth, t :: ts =>
    let inside (deeper : Nat) :=
      (closing? deeper ts).map fun (run, close, rest) => (t :: run, close, rest)
    if t.kind = .punctuation .leftParen then inside (depth + 1)
    else if t.kind = .punctuation .rightParen then
      match depth with
      | 0 => some ([], t, ts)
      | outer + 1 => inside outer
    else inside depth

/-- A while loop behind its opening parenthesis. It is one only if the loop's phrase stands right
behind the parenthesis that closes the condition. -/
def whileLoop (eof : Nat) (body : Reader (List Statement)) (first : Token) :
    Reader Statement := fun ts =>
  match closing? 0 ts with
  | some (run, close, suffix :: ts) =>
    if suffix.kind = .keyword .whileLoop then do
      let condition ← Run.read false close.span.start run
      let ((statements, stop), ts) ← block eof body ts
      return (.whileLoop ⟨first.span.start, stop⟩ condition statements, ts)
    else .error (.notAStatement first)
  | _ => .error (.notAStatement first)

/-- A counted loop behind its first token, whose text is the count. -/
def countedLoop (eof : Nat) (body : Reader (List Statement)) (first : Token) :
    Reader Statement := fun ts =>
  match Text.readUInt64? first.text with
  | none => .error (.badCount first)
  | some count => do
    let (binding, ts) ← expect eof [.binding] ts
    let ((statements, stop), ts) ← block eof body ts
    return (.countedLoop ⟨first.span.start, stop⟩ count binding statements, ts)

def statementStarts : List Kind :=
  [.keyword .define, .keyword .ifThen, .keyword .countedLoop, .punctuation .leftParen]

def statement (eof : Nat) (body : Reader (List Statement)) (n : Nat) : Reader Statement
  | [] => .error (.unexpectedEnd statementStarts eof)
  | t :: ts =>
    match t.kind with
    | .keyword .countedLoop => countedLoop eof body t ts
    | .keyword .ifThen => conditional eof body n t ts
    | .punctuation .leftParen => whileLoop eof body t ts
    | .keyword .define => assignment eof t ts
    | _ => .error (.notAStatement t)

/-- The statements of a body through the end of its indentation, from at most `n` tokens. -/
def body (eof : Nat) : Nat → Reader (List Statement)
  | 0, _ | _ + 1, [] => .error (.unexpectedEnd [.dedent] eof)
  | n + 1, t :: ts =>
    match t.kind with
    | .dedent => .ok ([], ts)
    | .newline => body eof n ts
    | _ => do
      let (s, ts) ← statement eof (body eof n) n (t :: ts)
      let (rest, ts) ← body eof n ts
      return (s :: rest, ts)

/-- The statements of at most `n` tokens. A block that stands alone contributes its statements. -/
def statements (eof : Nat) : Nat → List Token → Except ParseError (List Statement)
  | 0, _ | _ + 1, [] => .ok []
  | n + 1, t :: ts =>
    match t.kind with
    | .newline => statements eof n ts
    | .punctuation .leftCurly => do
      let ((inner, _), ts) ← block eof (body eof n) (t :: ts)
      let rest ← statements eof n ts
      return inner ++ rest
    | _ => do
      let (s, ts) ← statement eof (body eof n) n (t :: ts)
      let rest ← statements eof n ts
      return s :: rest

end Reader

def endOffset (tokens : List Token) : Nat := (tokens.getLast?.map fun t => t.span.stop).getD 0

def Program.ofTokens (tokens : List Token) : Except ParseError Program :=
  (Reader.statements (endOffset tokens) tokens.length tokens).map Program.mk

/-- The program of a source whose lines all have a width, or the first error. -/
def Program.ofSource (tab : UInt64) (source : String) : Except ParseError Program :=
  Program.ofTokens (tokenize tab source)

/-- What reading a source comes to, or none where the width of a line overflows. -/
def Program.ofSource? (tab : UInt64) (source : String) : Option (Except ParseError Program) :=
  (tokenize? tab source).map Program.ofTokens

end PhraseLang
