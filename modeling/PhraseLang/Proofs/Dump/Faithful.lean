import PhraseLang.Proofs.Dump.Spelling

/-! Trees read back from the lines of their dump.
The lines of a body are deeper than the line in front of them and end where a line is not. A clause
belongs to the conditional of its own depth. So the lines decide the tree, also where a body is
empty. -/
namespace PhraseLang

def DumpHeader.isClause : DumpHeader → Bool
  | .otherwise | .elseIf _ => true
  | _ => false

theorem DumpHeader.isClause_bare (h : DumpHeader) : h.bare.isClause = h.isClause := by
  cases h <;> rfl

/-- Lines that begin with none of a body at this depth. -/
def EndsBody (depth : Nat) (rest : List DumpLine) : Prop := ∀ l ∈ rest.head?, l.depth < depth

/-- Lines that begin with none of a statement at this depth, neither its body nor its clauses. -/
def EndsStatement (depth : Nat) (rest : List DumpLine) : Prop :=
  ∀ l ∈ rest.head?, l.depth < depth ∨ l.depth = depth ∧ l.header.isClause = false

def bareLines (ls : List DumpLine) : List DumpLine := ls.map DumpLine.bare

section
variable {depth : Nat} {rest rest' : List DumpLine}

theorem EndsStatement.body (ends : EndsStatement depth rest) : EndsBody (depth + 1) rest := by
  intro l first
  rcases ends l first with less | ⟨same, -⟩ <;> omega

theorem Statement.exists_first (s : Statement) (depth : Nat) :
    ∃ h tail, s.lines depth = ⟨depth, h⟩ :: tail ∧ h.isClause = false := by
  cases s <;> exact ⟨_, _, by rw [Statement.lines], rfl⟩

theorem endsStatement_linesAll (ends : EndsBody depth rest) (ss : List Statement) :
    EndsStatement depth (bareLines (Statement.linesAll depth ss) ++ rest) := by
  cases ss with
  | nil => exact fun l first => .inl (ends l first)
  | cons s ss =>
    obtain ⟨h, tail, lines, noClause⟩ := s.exists_first depth
    intro l first
    rw [Statement.linesAll, lines] at first
    obtain rfl := Option.some.inj first
    exact .inr ⟨rfl, by rw [← noClause]; exact h.isClause_bare⟩

theorem Alternative.endsBody (ends : EndsStatement depth rest) (a : Alternative) :
    EndsBody (depth + 1) (bareLines (a.lines depth) ++ rest) := by
  cases a with
  | nothing => exact ends.body
  | otherwise body =>
    intro l first
    rw [Alternative.lines] at first
    obtain rfl := Option.some.inj first
    exact Nat.lt_succ_self depth
  | elseIf condition body others =>
    intro l first
    rw [Alternative.lines] at first
    obtain rfl := Option.some.inj first
    exact Nat.lt_succ_self depth

theorem Statement.first_ne_rest (s : Statement) {ss : List Statement} (ends : EndsBody depth rest) :
    bareLines [] ++ rest ≠ bareLines (Statement.linesAll depth (s :: ss)) ++ rest' := by
  obtain ⟨h, tail, lines, -⟩ := s.exists_first depth
  intro same
  rw [Statement.linesAll, lines] at same
  have first := ends ⟨depth, h.bare⟩ (congrArg List.head? same)
  exact absurd first (Nat.lt_irrefl depth)

theorem EndsStatement.ne_clause (ends : EndsStatement depth rest) {h : DumpHeader}
    {ls : List DumpLine} (clause : h.isClause = true) :
    bareLines [] ++ rest ≠ bareLines (⟨depth, h⟩ :: ls) ++ rest' := by
  intro same
  rcases ends ⟨depth, h.bare⟩ (congrArg List.head? same) with less | ⟨-, noClause⟩
  · exact absurd less (Nat.lt_irrefl depth)
  · rw [← h.isClause_bare, noClause] at clause
    cases clause

theorem cons_lines_inj {h k : DumpHeader} {ls ms : List DumpLine}
    (same : bareLines (⟨depth, h⟩ :: ls) ++ rest = bareLines (⟨depth, k⟩ :: ms) ++ rest') :
    h.bare = k.bare ∧ bareLines ls ++ rest = bareLines ms ++ rest' := by
  obtain ⟨first, behind⟩ := List.cons.inj same
  exact ⟨(DumpLine.mk.inj first).2, behind⟩

theorem bareLines_append (ks ls : List DumpLine) :
    bareLines (ks ++ ls) ++ rest = bareLines ks ++ (bareLines ls ++ rest) := by
  rw [bareLines, List.map_append, List.append_assoc]
  rfl

end

mutual

/-- The lines of a statement decide it, in front of what is no part of it. -/
theorem Statement.lines_append_inj : ∀ (s t : Statement) {depth : Nat} {rest rest' : List DumpLine},
    EndsStatement depth rest → EndsStatement depth rest' →
      bareLines (s.lines depth) ++ rest = bareLines (t.lines depth) ++ rest' →
        s.bare = t.bare ∧ rest = rest'
  | .assign _ name value, t, depth, _, _, _, _, same => by
    rw [Statement.lines] at same
    cases t with
    | assign _ name' value' =>
      obtain ⟨header, behind⟩ := cons_lines_inj same
      obtain ⟨names, values⟩ := DumpHeader.assign.inj header
      exact ⟨by simp [names, values], behind⟩
    | _ => cases (cons_lines_inj same).1
  | .conditional _ condition body clauses, t, depth, _, _, ends, ends', same => by
    rw [Statement.lines] at same
    cases t with
    | conditional _ condition' body' clauses' =>
      obtain ⟨header, behind⟩ := cons_lines_inj same
      rw [bareLines_append, bareLines_append] at behind
      obtain ⟨bodies, later⟩ := Statement.linesAll_append_inj body body' (clauses.endsBody ends)
        (clauses'.endsBody ends') behind
      obtain ⟨others, final⟩ := clauses.lines_append_inj clauses' ends ends' later
      exact ⟨by simp [DumpHeader.conditional.inj header, bodies, others], final⟩
    | _ => cases (cons_lines_inj same).1
  | .whileLoop _ condition body, t, depth, _, _, ends, ends', same => by
    rw [Statement.lines] at same
    cases t with
    | whileLoop _ condition' body' =>
      obtain ⟨header, behind⟩ := cons_lines_inj same
      obtain ⟨bodies, final⟩ := Statement.linesAll_append_inj body body' ends.body ends'.body behind
      exact ⟨by simp [DumpHeader.whileLoop.inj header, bodies], final⟩
    | _ => cases (cons_lines_inj same).1
  | .countedLoop _ count binding body, t, depth, _, _, ends, ends', same => by
    rw [Statement.lines] at same
    cases t with
    | countedLoop _ count' binding' body' =>
      obtain ⟨header, behind⟩ := cons_lines_inj same
      obtain ⟨counts, bindings⟩ := DumpHeader.countedLoop.inj header
      obtain ⟨bodies, final⟩ := Statement.linesAll_append_inj body body' ends.body ends'.body behind
      exact ⟨by simp [counts, bindings, bodies], final⟩
    | _ => cases (cons_lines_inj same).1

theorem Statement.linesAll_append_inj : ∀ (ss ts : List Statement) {depth : Nat}
    {rest rest' : List DumpLine}, EndsBody depth rest → EndsBody depth rest' →
      bareLines (Statement.linesAll depth ss) ++ rest =
        bareLines (Statement.linesAll depth ts) ++ rest' →
        Statement.bareAll ss = Statement.bareAll ts ∧ rest = rest'
  | [], [], _, _, _, _, _, same => ⟨rfl, same⟩
  | [], t :: ts, _, _, _, ends, _, same => absurd same (t.first_ne_rest ends)
  | s :: ss, [], _, _, _, _, ends', same => absurd same.symm (s.first_ne_rest ends')
  | s :: ss, t :: ts, depth, _, _, ends, ends', same => by
    rw [Statement.linesAll, Statement.linesAll, bareLines_append, bareLines_append] at same
    obtain ⟨first, later⟩ := s.lines_append_inj t (endsStatement_linesAll ends ss)
      (endsStatement_linesAll ends' ts) same
    obtain ⟨others, final⟩ := Statement.linesAll_append_inj ss ts ends ends' later
    exact ⟨by simp [first, others], final⟩

theorem Alternative.lines_append_inj : ∀ (a b : Alternative) {depth : Nat}
    {rest rest' : List DumpLine}, EndsStatement depth rest → EndsStatement depth rest' →
      bareLines (a.lines depth) ++ rest = bareLines (b.lines depth) ++ rest' →
        a.bare = b.bare ∧ rest = rest'
  | .nothing, b, depth, _, _, ends, _, same => by
    cases b with
    | nothing => exact ⟨rfl, same⟩
    | _ => exact absurd same (ends.ne_clause rfl)
  | .otherwise body, b, depth, _, _, ends, ends', same => by
    cases b with
    | nothing => exact absurd same.symm (ends'.ne_clause rfl)
    | otherwise body' =>
      obtain ⟨-, behind⟩ := cons_lines_inj same
      obtain ⟨bodies, final⟩ := Statement.linesAll_append_inj body body' ends.body ends'.body behind
      exact ⟨by simp [bodies], final⟩
    | elseIf => cases (cons_lines_inj same).1
  | .elseIf condition body clauses, b, depth, _, _, ends, ends', same => by
    cases b with
    | nothing => exact absurd same.symm (ends'.ne_clause rfl)
    | otherwise => cases (cons_lines_inj same).1
    | elseIf condition' body' clauses' =>
      obtain ⟨header, behind⟩ := cons_lines_inj same
      rw [bareLines_append, bareLines_append] at behind
      obtain ⟨bodies, later⟩ := Statement.linesAll_append_inj body body' (clauses.endsBody ends)
        (clauses'.endsBody ends') behind
      obtain ⟨others, final⟩ := clauses.lines_append_inj clauses' ends ends' later
      exact ⟨by simp [DumpHeader.elseIf.inj header, bodies, others], final⟩

end

/-- Two programs that are read from sources and have one dump are equal up to their places. -/
theorem ofSource_dump_injective {tab tab' : UInt64} {first second : String} {p q : Program}
    (accepted : Program.ofSource tab first = .ok p)
    (accepted' : Program.ofSource tab' second = .ok q) (same : p.dump = q.dump) :
    p.bare = q.bare := by
  have chars : (Statement.linesAll 0 p.statements).flatMap DumpLine.chars =
      (Statement.linesAll 0 q.statements).flatMap DumpLine.chars := by
    rw [← Statement.toList_dumpAll, ← Statement.toList_dumpAll]
    exact congrArg String.toList same
  have lines := DumpLine.flatMap_chars_inj (writable_lines_of_accepted accepted)
    (writable_lines_of_accepted accepted') chars
  have ends : EndsBody 0 [] := nofun
  have whole : bareLines (Statement.linesAll 0 p.statements) ++ [] =
      bareLines (Statement.linesAll 0 q.statements) ++ [] := congrArg (· ++ []) lines
  obtain ⟨trees, -⟩ := Statement.linesAll_append_inj _ _ ends ends whole
  exact congrArg Program.mk trees

def narrowSource : String :=
  "sweet $a \x7b\n I would love to own a plot of land in the 1800s called £b and lease it to" ++
  " 7, c - 1 owners\n\x7d stout \x7b\n asia -> <- asia asia -> <- asia\n\x7d"

def wideSource : String :=
  "\nsweet $a\x7b\n\tI would love to own a plot of land in the 1800s called £b and lease it to" ++
  " 7,c-1 owners\n\x7d\nstout\x7b\n\tasia -> <- asia asia -> <- asia\n\x7d\n"

def sharedDump : String := "if $a\n  assign £b [7, (- c 1)]\nelse\n"

theorem exists_of_dump {x : Except ParseError Program} {text : String}
    (shown : x.toOption.map Program.dump = some text) : ∃ p, x = .ok p ∧ p.dump = text := by
  cases x with
  | error e => cases shown
  | ok p => exact ⟨p, rfl, Option.some.inj shown⟩

theorem ofSource_dump_injective_spacing :
    ∃ p q, Program.ofSource 4 narrowSource = .ok p ∧ Program.ofSource 8 wideSource = .ok q ∧
      p.dump = sharedDump ∧ q.dump = sharedDump ∧ p.bare = q.bare := by
  have shown : (Program.ofSource 4 narrowSource).toOption.map Program.dump = some sharedDump := by
    decide +kernel
  have shown' : (Program.ofSource 8 wideSource).toOption.map Program.dump = some sharedDump := by
    decide +kernel
  obtain ⟨p, first, dump⟩ := exists_of_dump shown
  obtain ⟨q, second, dump'⟩ := exists_of_dump shown'
  have same : p.dump = q.dump := dump.trans dump'.symm
  exact ⟨p, q, first, second, dump, dump', ofSource_dump_injective first second same⟩

end PhraseLang
