import PhraseLang.Proofs.Grammar.Acceptance

/-! Rows of tokens that fail inside.
Where a part of a program fails to be read, the whole fails with the same error: what stands in
front of the part is read first, and what stands behind it is not seen. -/
namespace PhraseLang.Grammar
open Reader

/-- Reading a statement from the front of the row fails with `e`. The first token is kept here, since
the readers around the statement choose by it. -/
structure StatementFails (e : ParseError) (ts : List Token) : Prop where
  starts : ∃ t rest, ts = t :: rest ∧ t.kind ∈ statementStarts
  fails : ∀ eof n, ts.length ≤ n + 1 → statement eof (body eof n) n ts = .error e

structure BlockFails (e : ParseError) (ts : List Token) : Prop where
  opens : ∃ (opening : Word [.punctuation .leftCurly]) (rest : List Token), ts = opening.val :: rest
  fails : ∀ eof n, ts.length ≤ n + 1 → block eof (body eof n) ts = .error e

/-- In front of the row a conditional may end, which looks for a clause first. -/
structure BodyFails (e : ParseError) (ts : List Token) : Prop where
  noClause : NoClause ts
  fails : ∀ eof n, ts.length ≤ n → body eof n ts = .error e

def ClausesFail (e : ParseError) (ts : List Token) : Prop :=
  ∀ eof n m stop, ts.length ≤ n → ts.length ≤ m →
    alternative eof (body eof n) m stop ts = .error e

/-- Behind a condition, its block fails or the clauses behind that. -/
inductive BranchesFail (e : ParseError) : List Token → Prop where
  | here {ts : List Token} : BlockFails e ts → BranchesFail e ts
  | later (b : Block) {ts : List Token} : ClausesFail e ts → BranchesFail e (b.tokens ++ ts)

structure ProgramFails (e : ParseError) (ts : List Token) : Prop where
  noClause : NoClause ts
  fails : ∀ eof n, ts.length ≤ n → statements eof n ts = .error e

section
variable {e : ParseError} {ts : List Token}

theorem blockFails_of_break (opening : Word [.punctuation .leftCurly]) (lineBreak : Word [.newline])
    {t : Token} (notIndent : t.kind ≠ .indent) (rest : List Token) :
    BlockFails (.unexpectedToken t [.indent]) (opening.val :: lineBreak.val :: t :: rest) where
  opens := ⟨opening, _, rfl⟩
  fails eof n _ := by
    have refused : expect eof [.indent] (t :: rest) = .error (.unexpectedToken t [.indent]) :=
      if_neg (by simpa using notIndent)
    simp only [block, expect_word, ok_bind, refused, error_bind]

theorem BodyFails.braces (fails : BodyFails e ts) (opening : Word [.punctuation .leftCurly])
    (lineBreak : Word [.newline]) (indent : Word [.indent]) :
    BlockFails e (opening.val :: lineBreak.val :: indent.val :: ts) where
  opens := ⟨opening, _, rfl⟩
  fails eof n bound := by
    simp only [List.length_cons] at bound
    have inside := fails.fails eof n (by omega)
    simp only [block, expect_word, ok_bind, inside, error_bind]

theorem BlockFails.guarded (fails : BlockFails e ts) (condition : Chain) (eof n : Nat)
    (bound : ts.length ≤ n + 1) :
    Reader.guarded eof (body eof n) (condition.tokens ++ ts) = .error e := by
  have inside := fails.fails eof n bound
  obtain ⟨opening, rest, rfl⟩ := fails.opens
  have free : ∀ t ∈ condition.tokens, t.kind ≠ .punctuation .leftCurly :=
    fun t ht => Chain.kind_ne ht rfl rfl
  simp only [Reader.guarded, through_run rest free opening.kind_eq, ok_bind, read_chain, inside,
    error_bind]

theorem BranchesFail.conditional (fails : BranchesFail e ts) (first : Word [.keyword .ifThen])
    (condition : Chain) : StatementFails e (first.val :: (condition.tokens ++ ts)) where
  starts := ⟨first.val, _, rfl, by rw [first.kind_eq]; decide⟩
  fails eof n bound := by
    simp only [List.length_cons, List.length_append] at bound
    simp only [statement, first.kind_eq, Reader.conditional]
    cases fails with
    | here fails =>
      rw [fails.guarded condition eof n (by omega), error_bind]
    | @later b ts fails =>
      rw [List.length_append] at bound
      have head : b.Reads eof := b.reads
      have read := reads_guarded head condition n ts (by rw [List.length_append]; omega)
      have behind := fails eof n n (endOffset b.tokens) (by omega) (by omega)
      rw [← List.append_assoc]
      simp only [read, ok_bind, behind, error_bind]

theorem BlockFails.otherwise (fails : BlockFails e ts) (breaks : List (Word [.newline]))
    (first : Word [.keyword .otherwise]) : ClausesFail e (words breaks ++ first.val :: ts) := by
  intro eof n m stop bound enough
  have notBreak : first.val.kind ≠ .newline := kind_ne first.property (by decide)
  have notElseIf : first.val.kind ≠ .keyword .elseIf := kind_ne first.property (by decide)
  simp only [List.length_append, List.length_cons] at bound enough
  cases m with
  | zero => omega
  | succ m =>
    simp only [alternative, dropWhile_breaks breaks ts notBreak, if_neg notElseIf,
      if_pos first.kind_eq, fails.fails eof n (by omega), error_bind]

theorem BranchesFail.elseIf (fails : BranchesFail e ts) (breaks : List (Word [.newline]))
    (first : Word [.keyword .elseIf]) (condition : Chain) :
    ClausesFail e (words breaks ++ first.val :: (condition.tokens ++ ts)) := by
  intro eof n m stop bound enough
  have notBreak : first.val.kind ≠ .newline := kind_ne first.property (by decide)
  simp only [List.length_append, List.length_cons] at bound enough
  cases m with
  | zero => omega
  | succ m =>
    simp only [alternative, dropWhile_breaks breaks _ notBreak, if_pos first.kind_eq]
    cases fails with
    | here fails =>
      rw [fails.guarded condition eof n (by omega), error_bind]
    | @later b ts fails =>
      rw [List.length_append] at bound enough
      have head : b.Reads eof := b.reads
      have read := reads_guarded head condition n ts (by rw [List.length_append]; omega)
      have behind := fails eof n m (endOffset b.tokens) (by omega) (by omega)
      rw [← List.append_assoc]
      simp only [read, ok_bind, behind, error_bind]

theorem BlockFails.whileLoop (fails : BlockFails e ts) (first : Word [.punctuation .leftParen])
    (condition : Chain) (close : Word [.punctuation .rightParen])
    (suffix : Word [.keyword .whileLoop]) :
    StatementFails e (first.val :: (condition.tokens ++ close.val :: suffix.val :: ts)) where
  starts := ⟨first.val, _, rfl, by rw [first.kind_eq]; decide⟩
  fails eof n bound := by
    have free : ∀ t ∈ condition.tokens,
        t.kind ≠ .punctuation .leftParen ∧ t.kind ≠ .punctuation .rightParen :=
      fun t ht => ⟨Chain.kind_ne ht rfl rfl, Chain.kind_ne ht rfl rfl⟩
    simp only [List.length_cons, List.length_append] at bound
    simp only [statement, first.kind_eq, Reader.whileLoop, closing?_run _ free close.kind_eq,
      if_pos suffix.kind_eq, read_chain, ok_bind, fails.fails eof n (by omega), error_bind]

theorem BlockFails.countedLoop (fails : BlockFails e ts) (first : Word [.keyword .countedLoop])
    {count : UInt64} (counted : Text.readUInt64? first.val.text = some count)
    (binding : Word [.binding]) : StatementFails e (first.val :: binding.val :: ts) where
  starts := ⟨first.val, _, rfl, by rw [first.kind_eq]; decide⟩
  fails eof n bound := by
    simp only [List.length_cons] at bound
    simp only [statement, first.kind_eq, Reader.countedLoop, counted, expect_word, ok_bind,
      fails.fails eof n (by omega), error_bind]

theorem StatementFails.noClause (fails : StatementFails e ts) : NoClause ts := by
  obtain ⟨t, rest, rfl, starts⟩ := fails.starts
  exact noClause_of_kind (kind_ne starts (by decide)) (kind_ne starts (by decide))
    (kind_ne starts (by decide))

theorem BodyFails.blank (fails : BodyFails e ts) (lineBreak : Word [.newline]) :
    BodyFails e (lineBreak.val :: ts) where
  noClause := noClause_cons (kind_ne lineBreak.property (by decide))
    (kind_ne lineBreak.property (by decide)) fails.noClause
  fails eof n bound := by
    cases n with
    | zero => cases bound
    | succ n =>
      simp only [body, lineBreak.kind_eq]
      exact fails.fails eof n (Nat.le_of_succ_le_succ bound)

theorem StatementFails.body (fails : StatementFails e ts) : BodyFails e ts where
  noClause := fails.noClause
  fails eof n bound := by
    obtain ⟨t, rest, rfl, starts⟩ := fails.starts
    cases n with
    | zero => cases bound
    | succ n => rw [body_of_start starts, fails.fails eof n bound, error_bind]

theorem BodyFails.stmt (fails : BodyFails e ts) (s : Stmt) : BodyFails e (s.tokens ++ ts) where
  noClause := s.noClause ts
  fails eof n bound := by
    have head : s.Reads eof := s.reads
    obtain ⟨t, rest, same, starts⟩ := s.exists_first
    cases n with
    | zero => simp [same] at bound
    | succ n =>
      have head := head n ts bound fails.noClause
      rw [same, List.cons_append] at bound head ⊢
      simp only [List.length_cons, List.length_append] at bound
      simp only [body_of_start starts, head, ok_bind, fails.fails eof n (by omega), error_bind]

theorem ProgramFails.blank (fails : ProgramFails e ts) (lineBreak : Word [.newline]) :
    ProgramFails e (lineBreak.val :: ts) where
  noClause := noClause_cons (kind_ne lineBreak.property (by decide))
    (kind_ne lineBreak.property (by decide)) fails.noClause
  fails eof n bound := by
    cases n with
    | zero => cases bound
    | succ n =>
      simp only [statements, lineBreak.kind_eq]
      exact fails.fails eof n (Nat.le_of_succ_le_succ bound)

theorem noClause_of_opening (opening : Word [.punctuation .leftCurly]) (rest : List Token) :
    NoClause (opening.val :: rest) :=
  noClause_of_kind (kind_ne opening.property (by decide)) (kind_ne opening.property (by decide))
    (kind_ne opening.property (by decide))

theorem BlockFails.program (fails : BlockFails e ts) : ProgramFails e ts := by
  obtain ⟨opening, rest, rfl⟩ := fails.opens
  refine ⟨noClause_of_opening opening rest, fun eof n bound => ?_⟩
  cases n with
  | zero => cases bound
  | succ n => simp only [statements, opening.kind_eq, fails.fails eof n bound, error_bind]

theorem ProgramFails.block (fails : ProgramFails e ts) (b : Block) :
    ProgramFails e (b.tokens ++ ts) := by
  cases b with
  | braces opening lineBreak indent inner dedent closing =>
    refine ⟨noClause_of_opening opening _, fun eof n bound => ?_⟩
    have reads : (Block.braces opening lineBreak indent inner dedent closing).Reads eof :=
      Block.reads _
    cases n with
    | zero => simp [Block.tokens] at bound
    | succ n =>
      have head := reads n ts bound
      rw [Block.tokens, List.cons_append] at bound head ⊢
      simp only [List.length_cons, List.length_append] at bound
      simp only [statements, opening.kind_eq, head, ok_bind, fails.fails eof n (by omega),
        error_bind]

theorem StatementFails.program (fails : StatementFails e ts) : ProgramFails e ts where
  noClause := fails.noClause
  fails eof n bound := by
    obtain ⟨t, rest, rfl, starts⟩ := fails.starts
    cases n with
    | zero => cases bound
    | succ n => rw [statements_of_start starts, fails.fails eof n bound, error_bind]

theorem ProgramFails.stmt (fails : ProgramFails e ts) (s : Stmt) :
    ProgramFails e (s.tokens ++ ts) where
  noClause := s.noClause ts
  fails eof n bound := by
    have head : s.Reads eof := s.reads
    obtain ⟨t, rest, same, starts⟩ := s.exists_first
    cases n with
    | zero => simp [same] at bound
    | succ n =>
      have head := head n ts bound fails.noClause
      rw [same, List.cons_append] at bound head ⊢
      simp only [List.length_cons, List.length_append] at bound
      simp only [statements_of_start starts, head, ok_bind, fails.fails eof n (by omega),
        error_bind]

end

end PhraseLang.Grammar
