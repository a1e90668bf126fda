import Mathlib.Data.List.Pairwise
import PhraseLang.Proofs.Enclosure
import PhraseLang.Proofs.LongestPhrase
import PhraseLang.Proofs.Placement

/-! Repetition counts, from the source to the tree.
The lexer counts the marks behind the phrase of a counted loop and hands on the numeral of their
number, and the reader of tokens reads the numeral back. The marks are in the source, so there are
too few of them for a numeral that is refused. -/
namespace PhraseLang
open Text Layout Grammar

/-- The span of a token is the phrase of a counted loop with all of its `n` marks, and its text is
the numeral of `n`. -/
structure Counts (source : List Char) (t : Token) (n : Nat) : Prop where
  marks : ∃ front rest, source =
      front ++ (Keyword.countedLoop.letters ++ List.replicate n Keyword.repeatMark) ++ rest ∧
    t.span.start = byteLength front ∧
    t.span.stop = byteLength front +
      byteLength (Keyword.countedLoop.letters ++ List.replicate n Keyword.repeatMark) ∧
    ∀ c ∈ rest.head?, c ≠ Keyword.repeatMark
  text : t.text = toString n

section
variable {tab : UInt64} {source : String} {t u : Token} {n : Nat}

theorem exists_counts (ht : t ∈ tokenize tab source)
    (isLoop : t.kind = .keyword .countedLoop) : ∃ n, Counts source.toList t n := by
  obtain ⟨front, behind, same⟩ := List.append_of_mem ht
  obtain ⟨s, c, cs, rest, located⟩ := exists_located same (by rw [isLoop]; rfl)
  have kind : (Lexeme.atStart c cs).kind = .keyword .countedLoop := by rw [← isLoop, located.token]
  obtain ⟨-, n, marks, -, ends⟩ := located.takes isLoop
  obtain ⟨before, whole, span⟩ := located.exists_before
  have value : (Lexeme.atStart c cs).value = toString n := by
    rw [Lexeme.value, kind, marks, List.length_append, Nat.add_sub_cancel_left,
      List.length_replicate]
  rw [marks] at whole span
  refine ⟨n, ⟨before, rest, whole, ?_, ?_, ends rfl⟩, ?_⟩
  · rw [span]
  · rw [span]
  · rw [located.token, value]

theorem byteLength_replicate (n : Nat) (c : Char) : n ≤ byteLength (List.replicate n c) := by
  induction n with
  | zero => exact Nat.zero_le _
  | succ n ih =>
    have positive := c.utf8Size_pos
    simp only [List.replicate_succ, byteLength_cons]
    omega

/-- The marks of a counted loop are in its source. -/
theorem Counts.le_byteLength {source : List Char} (counts : Counts source t n) :
    n ≤ byteLength source := by
  obtain ⟨front, rest, rfl, -⟩ := counts.marks
  have run := byteLength_replicate n Keyword.repeatMark
  simp only [byteLength_append]
  omega

theorem readUInt64?_of_lt (fits : n < UInt64.size) :
    readUInt64? (toString n) = some (UInt64.ofNat n) := by
  have back : (UInt64.ofNat n).toNat = n := UInt64.toNat_ofNat_of_lt' fits
  have read := readUInt64?_toString (UInt64.ofNat n)
  rwa [back] at read

/-- The numeral of a counted loop is read back as the number of its marks. -/
theorem Counts.read {source : List Char} (counts : Counts source t n)
    (short : byteLength source < UInt64.size) :
    readUInt64? t.text = some (UInt64.ofNat n) ∧ (UInt64.ofNat n).toNat = n := by
  have fits : n < UInt64.size := Nat.lt_of_le_of_lt counts.le_byteLength short
  rw [counts.text]
  exact ⟨readUInt64?_of_lt fits, UInt64.toNat_ofNat_of_lt' fits⟩

/-- No two tokens of a source that are lexemes begin in one place. -/
theorem eq_of_start_eq (ht : t ∈ tokenize tab source) (hu : u ∈ tokenize tab source)
    (plain : t.kind.isLayout = false) (plain' : u.kind.isLayout = false)
    (same : t.span.start = u.span.start) : t = u := by
  obtain ⟨front, g, tiled⟩ := exists_tiled tab source
  let apart (a b : Token) : Prop := a.span.stop ≤ b.span.start ∨ b.span.stop ≤ a.span.start
  have : Std.Symm apart := ⟨fun _ _ => Or.symm⟩
  have follow : (tokenize tab source).Pairwise apart := tiled.ordered.follow.imp Or.inl
  by_contra different
  have wide := (tiled.cuts t ht).start_lt_stop plain
  have wide' := (tiled.cuts u hu).start_lt_stop plain'
  obtain before | behind := follow.forall ht hu different <;> omega

end

/-- A counted loop of the tree counts the marks of the token that it begins with. -/
theorem Grammar.Derivation.exists_counted {d : Derivation} {span : Span} {count : UInt64}
    {binding : Token} {body : List Statement}
    (inside : .countedLoop span count binding body ∈ nestedAll d.trees) :
    ∃ t ∈ d.tokens, t.kind = .keyword .countedLoop ∧ t.span.start = span.start ∧
      readUInt64? t.text = some count := by
  obtain ⟨r, tree, within⟩ := d.exists_stmt inside
  cases r with
  | countedLoop first counted isCount name block =>
    simp only [Stmt.tree, Statement.countedLoop.injEq] at tree
    obtain ⟨rfl, rfl, -⟩ := tree
    exact ⟨first.val, within.subset List.mem_cons_self, first.kind_eq, rfl, isCount⟩
  | _ => cases tree

/-- In a source of less than 2^64 bytes every counted loop counts exactly its marks, and none is
refused for its count. -/
theorem ofSource_counts {tab : UInt64} {source : String}
    (short : byteLength source.toList < UInt64.size) :
    (∀ t, Program.ofSource tab source ≠ .error (.badCount t)) ∧
    (∀ t ∈ tokenize tab source, t.kind = .keyword .countedLoop →
      ∃ n, Counts source.toList t n) ∧
    ∀ p, Program.ofSource tab source = .ok p → ∀ span count binding body,
      .countedLoop span count binding body ∈ nestedAll p.statements →
      ∃ t ∈ tokenize tab source, t.kind = .keyword .countedLoop ∧ t.span.start = span.start ∧
        Counts source.toList t count.toNat ∧
        ∀ u ∈ tokenize tab source, u.kind.isLayout = false → u.span.start = span.start →
          u = t := by
  refine ⟨?_, fun t ht isLoop => exists_counts ht isLoop, ?_⟩
  · intro t failed
    cases ofTokens_fault failed with
    | badCount ht isLoop refused =>
      obtain ⟨n, counts⟩ := exists_counts ht isLoop
      rw [(counts.read short).1] at refused
      cases refused
  · intro p accepted span count binding body inside
    obtain ⟨d, same, rfl⟩ := ofTokens_sound accepted
    obtain ⟨t, ht, isLoop, start, isCount⟩ := d.exists_counted inside
    rw [same] at ht
    obtain ⟨n, counts⟩ := exists_counts ht isLoop
    obtain ⟨read, back⟩ := counts.read short
    rw [isCount, Option.some.injEq] at read
    refine ⟨t, ht, isLoop, start, ?_, ?_⟩
    · rw [read, back]
      exact counts
    · intro u hu plain begins
      exact eq_of_start_eq hu ht plain (by rw [isLoop]; rfl) (begins.trans start.symm)

def countedSource : String :=
  "lolsiesss £i \x7b\n  lolsie £j \x7b\n" ++
  "    I would love to own a plot of land in the 1800s called £s and lease it to £i owners\n" ++
  "  \x7d\n\x7d"

theorem ofSource_counts_nested :
    ∃ p, Program.ofSource 4 countedSource = .ok p ∧
      byteLength countedSource.toList < UInt64.size ∧
      ∀ span count binding body, .countedLoop span count binding body ∈ nestedAll p.statements →
        ∃ t ∈ tokenize 4 countedSource, t.kind = .keyword .countedLoop ∧
          t.span.start = span.start ∧ Counts countedSource.toList t count.toNat ∧
          ∀ u ∈ tokenize 4 countedSource, u.kind.isLayout = false → u.span.start = span.start →
            u = t := by
  have isRead : (Program.ofSource 4 countedSource).toOption.isSome = true := by decide +kernel
  have short : byteLength countedSource.toList < UInt64.size := by decide +kernel
  obtain ⟨p, accepted⟩ := exists_ok_of_isSome isRead
  exact ⟨p, accepted, short, (ofSource_counts short).2.2 p accepted⟩

end PhraseLang
