import PhraseLang.Proofs.Cut

/-! The phrase that is read where several stand.
A phrase stands at a place if the text goes on with it and nothing behind it makes a longer word of
it. Of the phrases that stand there the longest is read, so a longer one that is refused for what
follows it gives way to the next shorter one; no two that stand at one place are equally long. -/
namespace PhraseLang.Keyword

/-- The text begins with the phrase as a word of its own. Behind the phrase that counts repeats
anything may follow. -/
structure Stands (k : Keyword) (text : List Char) : Prop where
  phrase : k.letters <+: text
  ends : k = .countedLoop ∨ ∀ c ∈ (text.drop k.letters.length).head?,
    c.isAlpha = false ∧ c.isDigit = false ∧ c ≠ '_'

theorem continuesWord_eq_false_iff {c : Char} :
    continuesWord c = false ↔ c.isAlpha = false ∧ c.isDigit = false ∧ c ≠ '_' := by
  rw [continuesWord, Char.isAlphanum, Bool.or_eq_false_iff, Bool.or_eq_false_iff, and_assoc,
    beq_eq_false_iff_ne]

theorem takesTrailer_iff {k : Keyword} : k.takesTrailer = true ↔ k = .countedLoop := by
  cases k <;> decide

theorem endsWell_iff {k : Keyword} {text : List Char} : k.endsWell text = true ↔
    k = .countedLoop ∨ ∀ c ∈ (text.drop k.letters.length).head?,
      c.isAlpha = false ∧ c.isDigit = false ∧ c ≠ '_' := by
  rw [endsWell, Bool.or_eq_true_iff, takesTrailer_iff]
  apply or_congr_right
  cases (text.drop k.letters.length).head? with
  | none => simp
  | some c => simp [← continuesWord_eq_false_iff]

theorem stands_iff {k : Keyword} {text : List Char} :
    k.Stands text ↔ (k.letters.isPrefixOf text && k.endsWell text) = true := by
  rw [Bool.and_eq_true_iff, List.isPrefixOf_iff_prefix, endsWell_iff]
  exact ⟨fun stands => ⟨stands.phrase, stands.ends⟩, fun stands => ⟨stands.1, stands.2⟩⟩

theorem eq_of_letters_le (j k : Keyword) (within : j.letters <+: k.letters) :
    j = k ∨ j = .ifThen ∧ k = .elseIf := by
  have table : ∀ j ∈ all, ∀ k ∈ all, j.letters <+: k.letters →
      j = k ∨ j = .ifThen ∧ k = .elseIf := by decide +kernel
  exact table j (mem_all j) k (mem_all k) within

/-- No two phrases are equally long fronts of one text. -/
theorem Stands.eq_of_length {j k : Keyword} {text : List Char} (stands : j.Stands text)
    (stands' : k.Stands text) (size : j.letters.length = k.letters.length) : j = k := by
  have within : j.letters <+: k.letters :=
    List.prefix_of_prefix_length_le stands.phrase stands'.phrase (Nat.le_of_eq size)
  obtain same | ⟨rfl, rfl⟩ := eq_of_letters_le j k within
  · exact same
  · cases size

/-- Where a phrase is read, every other one that stands there is shorter. -/
theorem longest_of_atStart? {text : List Char} {k : Keyword} (found : atStart? text = some k) :
    k.Stands text ∧ ∀ j : Keyword, j.Stands text → j ≠ k → j.letters.length < k.letters.length := by
  rw [atStart?_eq_find?] at found
  obtain ⟨hit, before, behind, same, misses⟩ := List.find?_eq_some_iff_append.mp found
  have stands : k.Stands text := stands_iff.mpr hit
  refine ⟨stands, fun j other different => ?_⟩
  have listed : j ∈ longestFirst := longestFirst_perm_all.mem_iff.mpr (mem_all j)
  rw [same] at listed
  rcases List.mem_append.mp listed with early | listed
  · have missed := misses j early
    rw [stands_iff.mp other] at missed
    cases missed
  rcases List.mem_cons.mp listed with rfl | late
  · exact absurd rfl different
  have order := longestFirst_pairwise
  rw [same] at order
  have later := List.rel_of_pairwise_cons (List.pairwise_append.mp order).2.1 late
  have unlike : j.letters.length ≠ k.letters.length :=
    fun size => different (other.eq_of_length stands size)
  omega

theorem atStart?_eq_none_iff {text : List Char} :
    atStart? text = none ↔ ∀ k : Keyword, ¬ k.Stands text := by
  rw [atStart?_eq_find?, List.find?_eq_none]
  constructor
  · intro none k stands
    exact none k (longestFirst_perm_all.mem_iff.mpr (mem_all k)) (stands_iff.mp stands)
  · intro none k _ stands
    exact none k (stands_iff.mpr stands)

/-- A phrase, and behind the one that counts repeats all of its marks. -/
def Takes (k : Keyword) (cut rest : List Char) : Prop :=
  ∃ n, cut = k.letters ++ List.replicate n repeatMark ∧ (k ≠ .countedLoop → n = 0) ∧
    (k = .countedLoop → ∀ c ∈ rest.head?, c ≠ repeatMark)

theorem takes_ofKeyword {k : Keyword} {text rest : List Char} (phrase : k.letters <+: text)
    (cut : text = (Lexeme.ofKeyword k text).text ++ rest) :
    k.Takes (Lexeme.ofKeyword k text).text rest := by
  obtain ⟨tail, rfl⟩ := phrase
  by_cases isLoop : k = .countedLoop
  · subst isLoop
    have read : (Lexeme.ofKeyword .countedLoop (countedLoop.letters ++ tail)).text =
        countedLoop.letters ++ tail.takeWhile (· == repeatMark) := by
      rw [Lexeme.ofKeyword, List.drop_left]
      rfl
    rw [read] at cut ⊢
    rw [List.append_assoc] at cut
    have stop := head_of_cut (List.append_cancel_left cut)
    have marks : ∀ c ∈ tail.takeWhile (· == repeatMark), c = repeatMark :=
      fun c hc => eq_of_beq (List.all_eq_true.mp List.all_takeWhile c hc)
    refine ⟨_, congrArg _ (List.eq_replicate_of_mem marks), absurd rfl, ?_⟩
    rintro - c first rfl
    cases stop repeatMark first
  · have noTrailer : k.takesTrailer = false :=
      Bool.eq_false_iff.mpr fun takes => isLoop (takesTrailer_iff.mp takes)
    refine ⟨0, ?_, fun _ => rfl, fun h => absurd h isLoop⟩
    simp [Lexeme.ofKeyword, noTrailer]

end PhraseLang.Keyword
