import PhraseLang.Proofs.Canonical.Lexemes
import PhraseLang.Proofs.Excerpt

/-! Reserved words.
A phrase with a digit or an underscore behind it is no phrase, and the lexer takes its letters for
a bare word. The token behind such a word is a number or an unknown character. In a program a bare
word always has a token of another kind behind it, so no word of a program is a phrase. -/
namespace PhraseLang
open Text Layout Grammar

/-- The kinds that may stand behind an operand of a program. -/
def Kind.separates : Kind → Bool
  | .operator _ | .keyword .endOfAssign => true
  | .punctuation .comma | .punctuation .rightParen | .punctuation .leftCurly => true
  | _ => false

/-- Every bare word of a row has a separator behind it. -/
def Separated : List Token → Prop
  | [] => True
  | t :: rest => (t.kind = .word → ∃ u ∈ rest.head?, u.kind.separates = true) ∧ Separated rest

namespace Separated
variable {a b ts : List Token} {t : Token}

theorem cons (notWord : t.kind ≠ .word) (behind : Separated ts) : Separated (t :: ts) :=
  ⟨fun word => absurd word notWord, behind⟩

theorem append (first : Separated a) (second : Separated b) : Separated (a ++ b) := by
  induction a with
  | nil => exact second
  | cons t a ih =>
    obtain ⟨next, rest⟩ := first
    refine ⟨fun word => ?_, ih rest⟩
    obtain ⟨u, head, separates⟩ := next word
    cases a with
    | nil => cases head
    | cons v a => exact ⟨u, head, separates⟩

theorem next {front behind : List Token} (separated : Separated (front ++ t :: behind))
    (word : t.kind = .word) : ∃ u ∈ behind.head?, u.kind.separates = true := by
  induction front with
  | nil => exact separated.1 word
  | cons _ front ih => exact ih separated.2

theorem consWord {kinds : List Kind} (w : Word kinds) (noWord : .word ∉ kinds)
    (behind : Separated ts) : Separated (w.val :: ts) := by
  apply behind.cons
  intro word
  exact noWord (word ▸ w.property)

theorem breaks (ws : List (Word [.newline])) (behind : Separated ts) :
    Separated (words ws ++ ts) := by
  induction ws with
  | nil => exact behind
  | cons w ws ih => exact ih.consWord w (by simp)

end Separated

namespace Grammar
open PhraseLang.Expr

section
variable {rest : List Token} (ends : ∃ u ∈ rest.head?, u.kind.separates = true)
  (behind : Separated rest)
include ends behind

theorem separated_steps (steps : List (Token × Token)) (all : ∀ p ∈ steps, IsStep p) (t : Token) :
    Separated (t :: (flatten steps ++ rest)) := by
  induction steps generalizing t with
  | nil => exact ⟨fun _ => ends, behind⟩
  | cons p steps ih =>
    obtain ⟨o, operator⟩ := (all p List.mem_cons_self).1
    have tail := ih (fun q hq => all q (List.mem_cons_of_mem p hq)) p.2
    have notWord : p.1.kind ≠ .word := by simp [operator]
    exact ⟨fun _ => ⟨p.1, rfl, by rw [operator]; rfl⟩, tail.cons notWord⟩

theorem Chain.separated (c : Chain) : Separated (c.tokens ++ rest) := by
  obtain ⟨t, steps, same, -, all, -⟩ := c.exists_steps
  rw [same]
  exact separated_steps ends behind steps all t

theorem Tail.separated (tail : Tail) (c : Chain) :
    Separated (c.tokens ++ (tail.tokens ++ rest)) := by
  induction tail generalizing c with
  | nil => exact c.separated ends behind
  | cons p tail ih =>
    have isComma : p.1.val.kind = Run.comma := List.mem_singleton.mp p.1.property
    have more := (ih p.2).consWord p.1 (by simp [Run.comma])
    have cut : Tail.tokens (p :: tail) ++ rest =
        p.1.val :: (p.2.tokens ++ (Tail.tokens tail ++ rest)) := by simp [Tail.tokens]
    rw [cut]
    exact c.separated ⟨p.1.val, rfl, by rw [isComma]; rfl⟩ more

theorem Value.separated (v : Value) : Separated (v.tokens ++ rest) := by
  cases v with
  | one c => exact c.separated ends behind
  | many first tail more =>
    rw [Value.tokens, List.append_assoc]
    exact Tail.separated ends behind tail first

end

theorem Block.separates_head (b : Block) (ts : List Token) :
    ∃ u ∈ (b.tokens ++ ts).head?, u.kind.separates = true := by
  cases b with
  | braces opening =>
    have kind : opening.val.kind = .punctuation .leftCurly := List.mem_singleton.mp opening.property
    exact ⟨opening.val, rfl, by rw [kind]; rfl⟩

mutual

/-- Every bare word of a statement has a separator behind it. -/
theorem Stmt.separated : ∀ s : Stmt, Separated s.tokens
  | .assign first name becomes value last => by
    have kind : last.val.kind = .keyword .endOfAssign := List.mem_singleton.mp last.property
    have nothing : Separated [] := trivial
    have ends := nothing.consWord last (by simp)
    have run := value.separated ⟨last.val, rfl, by rw [kind]; rfl⟩ ends
    exact ((run.consWord becomes (by simp)).consWord name (by simp)).consWord first (by simp)
  | .conditional first condition body clauses => by
    have block := body.separated.append clauses.separated
    have run := condition.separated (body.separates_head _) block
    rw [← List.append_assoc] at run
    exact run.consWord first (by simp)
  | .whileLoop first condition close suffix body => by
    have kind : close.val.kind = .punctuation .rightParen := List.mem_singleton.mp close.property
    have block := (body.separated.consWord suffix (by simp)).consWord close (by simp)
    have run := condition.separated ⟨close.val, rfl, by rw [kind]; rfl⟩ block
    exact run.consWord first (by simp)
  | .countedLoop first _ _ binding body =>
    (body.separated.consWord binding (by simp)).consWord first (by simp)

theorem Block.separated : ∀ b : Block, Separated b.tokens
  | .braces opening lineBreak indent body dedent closing => by
    have nothing : Separated [] := trivial
    have ends := (nothing.consWord closing (by simp)).consWord dedent (by simp)
    have inner := body.separated.append ends
    exact ((inner.consWord indent (by simp)).consWord lineBreak (by simp)).consWord opening
      (by simp)

theorem Body.separated : ∀ b : Body, Separated b.tokens
  | .nil => trivial
  | .blank lineBreak rest => rest.separated.consWord lineBreak (by simp)
  | .stmt s rest => s.separated.append rest.separated

theorem Clauses.separated : ∀ c : Clauses, Separated c.tokens
  | .nothing => trivial
  | .otherwise breaks first body => (body.separated.consWord first (by simp)).breaks breaks
  | .elseIf breaks first condition body rest => by
    have block := body.separated.append rest.separated
    have run := condition.separated (body.separates_head _) block
    rw [← List.append_assoc] at run
    exact (run.consWord first (by simp)).breaks breaks

end

theorem Derivation.separated : ∀ d : Derivation, Separated d.tokens
  | .nil => trivial
  | .blank lineBreak rest => rest.separated.consWord lineBreak (by simp)
  | .block b rest => b.separated.append rest.separated
  | .stmt s rest => s.separated.append rest.separated

end Grammar

/-- Digits and the underscore go on with a word, but are no letters. -/
structure Glues (c : Char) : Prop where
  continues : Keyword.continuesWord c = true
  noLetter : c.isAlpha = false

theorem Glues.cases {c : Char} (glues : Glues c) : c.isDigit = true ∨ c = '_' := by
  have continues := glues.continues
  rw [Keyword.continuesWord, Char.isAlphanum, glues.noLetter, Bool.false_or] at continues
  rcases Bool.or_eq_true_iff.mp continues with digit | score
  · exact .inl digit
  · exact .inr (eq_of_beq score)

/-- What begins with such a character is a number or unknown. -/
theorem Glues.atStart {c : Char} (glues : Glues c) (cs : List Char) :
    Piece.atStart c cs = .lexeme (Lexeme.atStart c cs) ∧
      (Lexeme.atStart c cs).kind.separates = false := by
  have noKeyword : Keyword.atStart? (c :: cs) = none := Keyword.atStart?_of_head glues.noLetter
  have noComment : Comment.atStart? (c :: cs) = none := by
    have noLetter := glues.noLetter
    refine Comment.atStart?_of_head ?_ ?_ <;> rintro rfl <;> cases noLetter
  obtain digit | rfl := glues.cases
  · have plain := isPlain_of_alphanum (c := c) (by simp [Char.isAlphanum, digit])
    constructor
    · rw [Piece.atStart, if_neg plain.noFeed, if_neg (by simp [plain.noBlank]), noComment]
    · simp only [Lexeme.atStart, plain.noPunctuation, plain.noOperator, noKeyword, plain.noSigil,
        glues.noLetter, digit, Bool.false_eq_true, if_false, if_true]
      rfl
  · constructor
    · rw [Piece.atStart, if_neg (by decide), if_neg (by decide), noComment]
    · simp only [Lexeme.atStart, noKeyword]
      rfl

namespace Keyword

/-- A phrase that is not read where it stands has a letter, a digit or an underscore behind it. -/
theorem continues_of_refused {k : Keyword} {rest : List Char}
    (refused : atStart? (k.letters ++ rest) = none) :
    k.takesTrailer = false ∧ ∃ c ∈ rest.head?, continuesWord c = true := by
  have listed : k ∈ longestFirst := longestFirst_perm_all.mem_iff.mpr (mem_all k)
  rw [atStart?_eq_find?] at refused
  have fails := List.find?_eq_none.mp refused k listed
  rw [List.isPrefixOf_iff_prefix.mpr (List.prefix_append _ _), Bool.true_and, endsWell,
    List.drop_left] at fails
  cases trailer : k.takesTrailer with
  | true => simp [trailer] at fails
  | false =>
    cases first : rest.head? with
    | none => simp [trailer, first] at fails
    | some c => exact ⟨rfl, c, rfl, by simpa [trailer, first] using fails⟩

/-- Letters that are not read as a phrase are none, unless what is behind them goes on with them. -/
theorem isPlainWord_of_refused {text : String} {rest : List Char} (name : IsName text)
    (stop : ∀ c ∈ rest.head?, c.isAlpha = false)
    (refused : atStart? (text.toList ++ rest) = none) :
    IsPlainWord text ∨ ∃ c ∈ rest.head?, Glues c := by
  have noLoop : ¬ countedLoop.letters <+: text.toList := by
    rintro ⟨tail, longer⟩
    rw [← longer, List.append_assoc] at refused
    cases (continues_of_refused refused).1
  by_cases phrase : ∃ k : Keyword, k.phrase = text
  · obtain ⟨k, rfl⟩ := phrase
    obtain ⟨-, c, first, continues⟩ := continues_of_refused (k := k) refused
    exact .inr ⟨c, first, continues, stop c first⟩
  · exact .inl ⟨name, not_exists.mp phrase, noLoop⟩

/-- A phrase that is one word is refused in front of a digit or an underscore. -/
theorem atStart?_glued {k : Keyword} {c : Char} {cs : List Char}
    (letters : k.letters.all Char.isAlpha = true) (noTrailer : k.takesTrailer = false)
    (glues : Glues c) : atStart? (k.letters ++ c :: cs) = none := by
  rw [atStart?_eq_find?]
  refine List.find?_eq_none.mpr fun j _ stands => ?_
  obtain ⟨here, ends⟩ := Bool.and_eq_true_iff.mp stands
  have here := List.isPrefixOf_iff_prefix.mp here
  have noBlank : k ≠ .elseIf := by
    rintro rfl
    revert letters
    decide
  have refused : k.endsWell (k.letters ++ c :: cs) = false := by
    rw [endsWell, List.drop_left, noTrailer]
    simp [glues.continues]
  rcases List.prefix_or_prefix_of_prefix here (List.prefix_append _ _) with le | ge
  · rcases eq_of_letters_le j k le with rfl | ⟨-, rfl⟩
    · rw [refused] at ends
      cases ends
    · exact noBlank rfl
  · rcases eq_of_letters_le k j ge with rfl | ⟨rfl, rfl⟩
    · rw [refused] at ends
      cases ends
    · -- The longer phrase goes on with a blank.
      have longer : elseIf.letters = ifThen.letters ++ ' ' :: "but stout".toList := by decide
      rw [longer, List.prefix_append_right_inj, List.cons_prefix_cons] at here
      have continues := glues.continues
      rw [← here.1] at continues
      cases continues

end Keyword

theorem Lexeme.word_of_kind {c : Char} {cs : List Char} (word : (atStart c cs).kind = .word) :
    atStart c cs = ⟨.word, (c :: cs).takeWhile Char.isAlpha⟩ ∧
      Keyword.atStart? (c :: cs) = none ∧ c.isAlpha = true := by
  have form := form_atStart c cs
  generalize atStart c cs = x at form word ⊢
  cases form with
  | word _ noKeyword _ letter => exact ⟨rfl, noKeyword, letter⟩
  | @name s => cases s <;> cases word
  | _ => cases word

/-- Behind a lexeme stand the tokens of the text behind it. -/
theorem Layout.Located.behind_eq {tab : UInt64} {source : List Char} {front behind : List Token}
    {t : Token} {s : State} {c : Char} {cs rest : List Char}
    (located : Located tab source front t s c cs rest)
    (same : place tab ⟨0, []⟩ (pieces source) = front ++ t :: behind) :
    ∃ s', behind = place tab s' (pieces rest) := by
  obtain ⟨s', scan⟩ := located.next
  have whole := scan.place_eq
  rw [same, List.append_assoc] at whole
  exact ⟨s', (List.cons.inj (List.append_cancel_left whole)).2⟩

/-- A bare word of a source is no phrase, if the token behind it is one that separates. -/
theorem isPlainWord_of_separated {tab : UInt64} {source : String} {front behind : List Token}
    {t : Token} (same : tokenize tab source = front ++ t :: behind) (word : t.kind = .word)
    (next : ∃ u ∈ behind.head?, u.kind.separates = true) : IsPlainWord t.text := by
  obtain ⟨s, c, cs, rest, located⟩ := exists_located same (by rw [word]; rfl)
  obtain ⟨s', tail⟩ := located.behind_eq same
  have kind : (Lexeme.atStart c cs).kind = .word := by rw [← word, located.token]
  obtain ⟨here, noKeyword, letter⟩ := Lexeme.word_of_kind kind
  have text : t.text.toList = (c :: cs).takeWhile Char.isAlpha := by
    rw [located.token, here]
    exact String.toList_ofList
  have cut : c :: cs = t.text.toList ++ rest := by
    rw [text]
    have cut := located.cut
    rwa [here] at cut
  have name : IsName t.text := by
    constructor
    · rw [text]
      simp [letter]
    · intro d hd
      exact List.mem_takeWhile_imp (text ▸ hd)
  have stop : ∀ d ∈ rest.head?, d.isAlpha = false := head_of_cut (text ▸ cut)
  rw [cut] at noKeyword
  rcases Keyword.isPlainWord_of_refused name stop noKeyword with plain | ⟨d, first, glues⟩
  · exact plain
  · -- The token behind the word would be the lexeme that goes on with it.
    obtain ⟨u, head, separates⟩ := next
    obtain ⟨ds, rfl⟩ : ∃ ds, rest = d :: ds := by
      cases rest with
      | nil => cases first
      | cons e ds => exact ⟨ds, by rw [Option.some.inj first]⟩
    obtain ⟨piece, apart⟩ := glues.atStart ds
    obtain ⟨more, cutBehind⟩ := exists_cut d ds
    rw [tail, place_of_cut cutBehind, piece] at head
    obtain rfl := Option.some.inj head
    rw [apart] at separates
    cases separates

/-- The bare words of a program are words that can be written. -/
theorem Grammar.Derivation.isPlainWord {tab : UInt64} {source : String} {d : Derivation}
    (same : d.tokens = tokenize tab source) {t : Token} (ht : t ∈ d.tokens)
    (word : t.kind = .word) : IsPlainWord t.text := by
  obtain ⟨front, behind, cut⟩ := List.append_of_mem ht
  have separated := d.separated
  rw [cut] at separated
  exact isPlainWord_of_separated (same.symm.trans cut) word (separated.next word)

/-- The lexer takes a phrase of one word, in front of a digit or an underscore, for a bare word. -/
theorem tokenize_glued {tab : UInt64} {k : Keyword} {c : Char} {cs : List Char}
    (letters : k.letters.all Char.isAlpha = true) (noTrailer : k.takesTrailer = false)
    (glues : Glues c) :
    ∃ behind, tokenize tab (String.ofList (k.letters ++ c :: cs)) =
      ⟨.word, k.phrase, ⟨0, byteLength k.letters⟩⟩ :: behind := by
  have starts := starts_keyword k (c :: cs)
  have refused : Keyword.atStart? (k.letters ++ c :: cs) = none :=
    Keyword.atStart?_glued letters noTrailer glues
  have taken := takeWhile_stop (List.all_eq_true.mp letters) (head_stop glues.noLetter cs)
  obtain ⟨e, es, phrase, letter⟩ := k.exists_head
  have plain := isPlain_of_alphanum (c := e) (by simp [Char.isAlphanum, letter])
  rw [tokenize, String.toList_ofList]
  rw [phrase] at starts refused taken ⊢
  rw [List.cons_append] at starts refused taken ⊢
  have here : Lexeme.atStart e (es ++ c :: cs) = ⟨.word, e :: es⟩ := by
    simp only [Lexeme.atStart, plain.noPunctuation, plain.noOperator, refused, plain.noSigil,
      letter, if_true, taken]
  have piece := starts.atStart
  rw [here] at piece
  have cut : e :: (es ++ c :: cs) = (Piece.lexeme ⟨.word, e :: es⟩).source ++ c :: cs := rfl
  rw [pieces_of_atStart piece cut, place]
  refine ⟨_, congrArg (· :: _) ?_⟩
  have value : (⟨.word, e :: es⟩ : Lexeme).value = k.phrase := by
    rw [← phrase]
    exact String.ofList_toList
  rw [value, Nat.zero_add]

/-- No bare word of a program is a phrase or begins with the one that takes repeat marks, although
the lexer makes bare words of phrases. -/
theorem ofSource_reserved :
    (∀ {tab : UInt64} {source : String} {p : Program}, Program.ofSource tab source = .ok p →
      ∀ t ∈ storedInAll p.statements, t.kind = .word →
        (∀ k : Keyword, k.phrase ≠ t.text) ∧ ¬ Keyword.countedLoop.letters <+: t.text.toList) ∧
    ∀ k : Keyword, k.letters.all Char.isAlpha = true → k.takesTrailer = false →
      ∀ c, Glues c → ∀ tab cs, ∃ behind,
        tokenize tab (String.ofList (k.letters ++ c :: cs)) =
          ⟨.word, k.phrase, ⟨0, byteLength k.letters⟩⟩ :: behind := by
  constructor
  · intro tab source p accepted t inside word
    obtain ⟨d, same, rfl⟩ := ofTokens_sound accepted
    have inside : t ∈ stored d.tokens := by rwa [d.stored_tokens]
    have ht : t ∈ d.tokens := (List.mem_filter.mp inside).1
    obtain ⟨-, noPhrase, noLoop⟩ := d.isPlainWord same ht word
    exact ⟨noPhrase, noLoop⟩
  · intro k letters noTrailer c glues tab cs
    exact tokenize_glued letters noTrailer glues

def wordySource : String :=
  "sweet contexts \x7b\n" ++
  " I would love to own a plot of land in the 1800s called £a and lease it to sweets, lolsi" ++
  " owners\n\x7d"

theorem ofSource_reserved_wordy :
    (∃ p, Program.ofSource 4 wordySource = .ok p ∧
      ∀ t ∈ storedInAll p.statements, t.kind = .word →
        (∀ k : Keyword, k.phrase ≠ t.text) ∧ ¬ Keyword.countedLoop.letters <+: t.text.toList) ∧
    ∃ behind, tokenize 4 "sweet1" = ⟨.word, "sweet", ⟨0, 5⟩⟩ :: behind := by
  have isRead : (Program.ofSource 4 wordySource).toOption.isSome = true := by decide +kernel
  constructor
  · obtain ⟨p, accepted⟩ := exists_ok_of_isSome isRead
    exact ⟨p, accepted, ofSource_reserved.1 accepted⟩
  · exact ofSource_reserved.2 .ifThen (by decide) rfl '1' ⟨rfl, rfl⟩ 4 []

end PhraseLang
