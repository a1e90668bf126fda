import PhraseLang.Proofs.Excerpt
import PhraseLang.Proofs.Phrase

/-! Keywords in a source.
Wherever a scan comes to the beginning of a lexeme that is no symbol, a keyword is read exactly if a
phrase stands there, and it is the longest one that does. -/
namespace PhraseLang
open Text Layout

theorem Piece.not_mem_blanks_iff {c : Char} :
    c ∉ [' ', '\t', '\r', '\n'] ↔ c ≠ '\n' ∧ isBlank c = false := by
  simp only [List.mem_cons, List.not_mem_nil, or_false, not_or, isBlank, isIndentation,
    Bool.or_eq_false_iff, beq_eq_false_iff_ne]
  constructor
  · rintro ⟨noSpace, noTab, noReturn, noFeed⟩
    exact ⟨noFeed, ⟨noSpace, noTab⟩, noReturn⟩
  · rintro ⟨noFeed, ⟨noSpace, noTab⟩, noReturn⟩
    exact ⟨noSpace, noTab, noReturn, noFeed⟩

section
variable {tab : UInt64} {source : List Char} {out : List Token} {s : State} {c : Char}
  {cs : List Char}

/-- Where a lexeme begins, its token is the next one, and the scan goes on behind it. -/
theorem Layout.Scan.exists_next (scan : Scan tab source out s (c :: cs))
    (noBlank : c ∉ [' ', '\t', '\r', '\n'])
    (noComment : ∀ mark ∈ Comment.marks, ¬ mark <+: c :: cs) :
    ∃ t rest s' behind, Located tab source out t s c cs rest ∧
      place tab ⟨0, []⟩ (pieces source) = out ++ t :: behind ∧
      Scan tab source (out ++ [t]) s' rest := by
  obtain ⟨noFeed, noSpace⟩ := Piece.not_mem_blanks_iff.mp noBlank
  have piece : Piece.atStart c cs = .lexeme (Lexeme.atStart c cs) := by
    rw [Piece.atStart, if_neg noFeed, if_neg (Bool.eq_false_iff.mp noSpace),
      Comment.atStart?_of_miss noComment]
  obtain ⟨rest, cut⟩ := exists_cut c cs
  rw [piece] at cut
  have located : Located tab source out _ s c cs rest := ⟨scan, cut, piece, rfl⟩
  obtain ⟨s', next⟩ := located.next
  have whole := next.place_eq
  rw [List.append_assoc] at whole
  exact ⟨_, rest, s', _, located, whole, next⟩

theorem Lexeme.keyword_iff_stands (noSymbol : NoSymbol c) :
    (∃ k, (atStart c cs).kind = .keyword k) ↔ ∃ k : Keyword, k.Stands (c :: cs) := by
  constructor
  · rintro ⟨k, isKeyword⟩
    exact ⟨k, (Keyword.longest_of_atStart? (keyword_of_kind isKeyword).1).1⟩
  · rintro ⟨j, stands⟩
    cases found : Keyword.atStart? (c :: cs) with
    | none => exact absurd stands (Keyword.atStart?_eq_none_iff.mp found j)
    | some k =>
      refine ⟨k, ?_⟩
      rw [atStart, noSymbol.1, noSymbol.2, found]
      rfl

theorem Layout.Located.takes {front : List Token} {t : Token} {rest : List Char} {k : Keyword}
    (located : Located tab source front t s c cs rest) (isKeyword : t.kind = .keyword k) :
    (k.Stands (c :: cs) ∧ ∀ j : Keyword, j.Stands (c :: cs) → j ≠ k →
      j.letters.length < k.letters.length) ∧ k.Takes (Lexeme.atStart c cs).text rest := by
  have kind : (Lexeme.atStart c cs).kind = .keyword k := by rw [← isKeyword, located.token]
  obtain ⟨found, here⟩ := Lexeme.keyword_of_kind kind
  have longest := Keyword.longest_of_atStart? found
  have cut := located.cut
  rw [here] at cut ⊢
  exact ⟨longest, Keyword.takes_ofKeyword longest.1.phrase cut⟩

end

/-- Where the next lexeme begins with no symbol, a keyword is read exactly if a phrase stands there,
and then the longest one, without what is behind it. So no keyword but the counted loop's has a
letter, a digit or an underscore right behind it. -/
theorem keyword_longest (tab : UInt64) (source : String) :
    (∀ out s c cs, Scan tab source.toList out s (c :: cs) → c ∉ [' ', '\t', '\r', '\n'] →
      (∀ p : Punctuation, c ≠ p.symbol) → (∀ o : Operator, c ≠ o.symbol) →
      (∀ mark ∈ Comment.marks, ¬ mark <+: c :: cs) →
      ∃ t cut rest s' behind, tokenize tab source = out ++ t :: behind ∧ c :: cs = cut ++ rest ∧
        t.span = ⟨s.offset, s.offset + byteLength cut⟩ ∧
        Scan tab source.toList (out ++ [t]) s' rest ∧
        ((∃ k, t.kind = .keyword k) ↔ ∃ k : Keyword, k.Stands (c :: cs)) ∧
        ∀ k, t.kind = .keyword k → k.Stands (c :: cs) ∧
          (∀ j : Keyword, j.Stands (c :: cs) → j ≠ k → j.letters.length < k.letters.length) ∧
          k.Takes cut rest) ∧
    ∀ t ∈ tokenize tab source, ∀ k, t.kind = .keyword k → k ≠ .countedLoop →
      ∀ c ∈ (dropBytes t.span.stop source.toList).head?,
        c.isAlpha = false ∧ c.isDigit = false ∧ c ≠ '_' := by
  constructor
  · intro out s c cs scan noBlank noPunctuation noOperator noComment
    obtain ⟨t, rest, s', behind, located, same, next⟩ := scan.exists_next noBlank noComment
    refine ⟨t, (Lexeme.atStart c cs).text, rest, s', behind, same, located.cut, ?_, next, ?_, ?_⟩
    · rw [located.token]
    · rw [located.token]
      exact Lexeme.keyword_iff_stands (Lexeme.noSymbol_iff.mpr ⟨noPunctuation, noOperator⟩)
    · intro k isKeyword
      obtain ⟨⟨stands, longest⟩, takes⟩ := located.takes isKeyword
      exact ⟨stands, longest, takes⟩
  · intro t ht k isKeyword notLoop
    obtain ⟨front, behind, same⟩ := List.append_of_mem ht
    obtain ⟨s, c, cs, rest, located⟩ := exists_located same (by rw [isKeyword]; rfl)
    obtain ⟨⟨stands, -⟩, n, cut, noMarks, -⟩ := located.takes isKeyword
    have ends := stands.ends.resolve_left notLoop
    rw [noMarks notLoop, List.replicate_zero, List.append_nil] at cut
    have behind : (c :: cs).drop k.letters.length = rest := by
      rw [← cut, located.cut]
      exact List.drop_left
    rwa [located.dropBytes_eq, ← behind]

/-- The longer phrase goes on with a letter, so the shorter one is read. -/
theorem keyword_longest_fallback :
    Keyword.elseIf.letters <+: "sweet but stouts".toList ∧
    ∃ t behind, tokenize 4 "sweet but stouts" = t :: behind ∧ t.kind = .keyword .ifThen ∧
      t.span = ⟨0, 5⟩ ∧
      ∀ c ∈ (dropBytes 5 "sweet but stouts".toList).head?,
        c.isAlpha = false ∧ c.isDigit = false ∧ c ≠ '_' := by
  have stands : Keyword.ifThen.Stands "sweet but stouts".toList := by
    refine ⟨by decide, .inr fun c first => ?_⟩
    obtain rfl : ' ' = c := Option.some.inj first
    decide
  obtain ⟨atPlace, behindAny⟩ := keyword_longest 4 "sweet but stouts"
  obtain ⟨t, cut, rest, s', behind, same, whole, span, -, reads, isLongest⟩ :=
    atPlace [] ⟨0, []⟩ 's' "weet but stouts".toList .start (by decide)
      (by intro p; cases p <;> decide) (by intro o; cases o <;> decide) (by decide)
  obtain ⟨k, isKeyword⟩ := reads.mpr ⟨.ifThen, stands⟩
  obtain ⟨here, longest, n, isCut, noMarks, -⟩ := isLongest k isKeyword
  have fronts : ∀ k ∈ Keyword.all, k.letters <+: "sweet but stouts".toList →
      k = .ifThen ∨ k = .elseIf := by decide
  obtain rfl : k = .ifThen := by
    rcases fronts k (Keyword.mem_all k) here.phrase with isIf | rfl
    · exact isIf
    · rcases here.ends with isLoop | ends
      · cases isLoop
      · cases (ends 's' (by decide)).1
  have size : t.span = ⟨0, 5⟩ := by
    rw [span, isCut, noMarks (by decide)]
    rfl
  refine ⟨by decide, t, behind, same, isKeyword, size, ?_⟩
  have ends := behindAny t (by rw [same]; exact List.mem_cons_self) .ifThen isKeyword (by decide)
  rwa [size] at ends

end PhraseLang
