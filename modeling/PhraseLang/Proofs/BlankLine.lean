import PhraseLang.Proofs.Comment
import PhraseLang.Proofs.Lexeme
import PhraseLang.Proofs.Scan

/-! Lines that are not measured.
The test behind a line feed looks through one block comment at most. If every carriage return ends a
line, it passes over exactly the lines of blanks and comments with no second block comment, and
these emit no token up to the next line feed. -/
namespace PhraseLang
open Layout

def CrLf (text : List Char) : Prop := ∀ a b, text = a ++ '\r' :: b → b.head? = some '\n'

theorem CrLf.of_append {front text : List Char} (crlf : CrLf (front ++ text)) : CrLf text := by
  intro a b same
  exact crlf (front ++ a) b (by rw [same, List.append_assoc])

def Piece.isFeed : Piece → Bool
  | .newline _ => true
  | _ => false

def Piece.isBlock : Piece → Bool
  | .comment (.block _) | .comment (.unclosed _) => true
  | _ => false

/-- The pieces up to the next line feed that is a piece of its own. -/
def lineOf (ps : List Piece) : List Piece := ps.takeWhile (!·.isFeed)

/-- The line is made of blanks and comments, with at most `n` block comments. -/
structure HoldsComments (n : Nat) (ps : List Piece) : Prop where
  silent : ∀ p ∈ lineOf ps, p.isSilent = true
  blocks : (lineOf ps).countP Piece.isBlock ≤ n

/-- No token but an `Indent` or a `Dedent` comes before the next `Newline` or the end. -/
def HoldsNothing (tokens : List Token) : Prop :=
  ∀ t ∈ tokens.takeWhile (·.kind ≠ .newline), t.kind = .indent ∨ t.kind = .dedent

section
variable {p : Piece} {ps : List Piece} {n : Nat}

theorem lineOf_cons (within : p.isFeed = false) : lineOf (p :: ps) = p :: lineOf ps :=
  List.takeWhile_cons_of_pos (by rw [within]; rfl)

theorem holdsComments_nil : HoldsComments n [] :=
  ⟨fun _ hp => absurd hp List.not_mem_nil, Nat.zero_le n⟩

theorem holdsComments_newline {indentation : List Char} :
    HoldsComments n (.newline indentation :: ps) :=
  ⟨fun _ hp => absurd hp List.not_mem_nil, Nat.zero_le n⟩

theorem not_holdsComments_lexeme {x : Lexeme} : ¬ HoldsComments n (.lexeme x :: ps) := by
  intro holds
  have silent := holds.silent (.lexeme x) (by rw [lineOf_cons rfl]; exact List.mem_cons_self)
  cases silent

/-- A piece without tokens that is no block comment changes nothing. -/
theorem holdsComments_cons (silent : p.isSilent = true) (noBlock : p.isBlock = false) :
    HoldsComments n (p :: ps) ↔ HoldsComments n ps := by
  have within : p.isFeed = false := by
    cases p with
    | newline => cases silent
    | _ => rfl
  have count : (lineOf (p :: ps)).countP Piece.isBlock = (lineOf ps).countP Piece.isBlock := by
    rw [lineOf_cons within, List.countP_cons_of_neg (by simp [noBlock])]
  constructor
  · rintro ⟨all, blocks⟩
    rw [lineOf_cons within] at all
    exact ⟨fun q hq => all q (List.mem_cons_of_mem p hq), count ▸ blocks⟩
  · rintro ⟨all, blocks⟩
    refine ⟨?_, count ▸ blocks⟩
    rw [lineOf_cons within]
    exact List.forall_mem_cons.mpr ⟨silent, all⟩

theorem holdsComments_block (isBlock : p.isBlock = true) :
    HoldsComments (n + 1) (p :: ps) ↔ HoldsComments n ps := by
  have kind : p.isFeed = false ∧ p.isSilent = true := by
    cases p with
    | comment => exact ⟨rfl, rfl⟩
    | _ => cases isBlock
  have count : (lineOf (p :: ps)).countP Piece.isBlock =
      (lineOf ps).countP Piece.isBlock + 1 := by
    rw [lineOf_cons kind.1, List.countP_cons_of_pos isBlock]
  constructor
  · rintro ⟨all, blocks⟩
    rw [lineOf_cons kind.1] at all
    exact ⟨fun q hq => all q (List.mem_cons_of_mem p hq), by omega⟩
  · rintro ⟨all, blocks⟩
    refine ⟨?_, by omega⟩
    rw [lineOf_cons kind.1]
    exact List.forall_mem_cons.mpr ⟨kind.2, all⟩

theorem not_holdsComments_block (isBlock : p.isBlock = true) : ¬ HoldsComments 0 (p :: ps) := by
  intro holds
  have within : p.isFeed = false := by
    cases p with
    | newline => cases isBlock
    | _ => rfl
  have blocks := holds.blocks
  rw [lineOf_cons within, List.countP_cons_of_pos isBlock] at blocks
  omega

end

section
variable {n : Nat}

/-- At a line feed and at the end of the source nothing is left of the line. -/
theorem holdsComments_of_head {text : List Char} (feed : ∀ c ∈ text.head?, c = '\n') :
    HoldsComments n (pieces text) := by
  cases text with
  | nil =>
    rw [pieces]
    exact holdsComments_nil
  | cons c cs =>
    obtain rfl := feed c rfl
    rw [pieces_cons]
    exact holdsComments_newline

theorem holdsComments_return {cs : List Char} (crlf : CrLf ('\r' :: cs)) :
    HoldsComments n (.blank '\r' :: pieces cs) := by
  have feed := crlf [] cs rfl
  rw [holdsComments_cons rfl rfl]
  apply holdsComments_of_head
  intro c first
  rw [feed] at first
  exact (Option.some.inj first).symm

theorem isReturn_of_blank {c : Char} (blank : Piece.isBlank c = true)
    (noIndentation : Piece.isIndentation c = false) : c = '\r' := by
  simpa [Piece.isBlank, noIndentation] using blank

/-- A line is at its end behind some spaces and tabs exactly if line comments and blanks are all
that is left of it. -/
theorem lineEnds_iff {text : List Char} (crlf : CrLf text) :
    lineEnds ((pieces text).dropWhile isSpacing) = true ↔ HoldsComments 0 (pieces text) := by
  induction text using pieces_induction with
  | nil =>
    rw [pieces]
    exact iff_of_true rfl holdsComments_nil
  | piece c cs rest cut ih =>
    have later := ih (CrLf.of_append (cut ▸ crlf))
    rw [pieces_of_cut cut]
    have form := Piece.form_atStart c cs
    generalize Piece.atStart c cs = p at form cut
    cases form with
    | newline => exact iff_of_true rfl holdsComments_newline
    | lexeme => exact iff_of_false Bool.false_ne_true not_holdsComments_lexeme
    | blank isBlank =>
      obtain rfl : cs = rest := (List.cons.inj cut).2
      by_cases spacing : isSpacing (.blank c) = true
      · rw [List.dropWhile_cons_of_pos spacing, holdsComments_cons rfl rfl]
        exact later
      · obtain rfl := isReturn_of_blank isBlank (Bool.eq_false_iff.mpr spacing)
        exact iff_of_true rfl (holdsComments_return crlf)
    | @comment e _ _ found =>
      have whole := Comment.whole_of_atStart? found cut
      cases whole with
      | line _ _ feed =>
        rw [holdsComments_cons rfl rfl]
        exact iff_of_true rfl (holdsComments_of_head feed)
      | block => exact iff_of_false Bool.false_ne_true (not_holdsComments_block rfl)
      | unclosed => exact iff_of_false Bool.false_ne_true (not_holdsComments_block rfl)

/-- Behind its indentation a line is passed over exactly if it is made of blanks and comments with
no second block comment. -/
theorem isBlankLine_iff {text : List Char} (crlf : CrLf text)
    (flush : ∀ c ∈ text.head?, Piece.isIndentation c = false) :
    isBlankLine (pieces text) = true ↔ HoldsComments 1 (pieces text) := by
  cases text with
  | nil =>
    rw [pieces]
    exact iff_of_true rfl holdsComments_nil
  | cons c cs =>
    obtain ⟨rest, cut⟩ := exists_cut c cs
    have behind : CrLf rest := CrLf.of_append (cut ▸ crlf)
    rw [pieces_of_cut cut]
    have form := Piece.form_atStart c cs
    generalize Piece.atStart c cs = p at form cut
    cases form with
    | newline => exact iff_of_true rfl holdsComments_newline
    | lexeme => exact iff_of_false Bool.false_ne_true not_holdsComments_lexeme
    | blank isBlank =>
      obtain rfl : cs = rest := (List.cons.inj cut).2
      obtain rfl := isReturn_of_blank isBlank (flush c rfl)
      exact iff_of_true rfl (holdsComments_return crlf)
    | @comment e _ _ found =>
      have whole := Comment.whole_of_atStart? found cut
      cases whole with
      | line _ _ feed =>
        rw [holdsComments_cons rfl rfl]
        exact iff_of_true rfl (holdsComments_of_head feed)
      | block =>
        rw [holdsComments_block rfl]
        exact lineEnds_iff behind
      | unclosed =>
        rw [holdsComments_block rfl, pieces]
        exact iff_of_true rfl holdsComments_nil

end

theorem HoldsNothing.isLayout_head {t : Token} {ts : List Token} (holds : HoldsNothing (t :: ts)) :
    t.kind.isLayout = true := by
  by_cases feed : t.kind = .newline
  · rw [feed]
    rfl
  · rcases holds t (by simp [feed]) with kind | kind <;> rw [kind] <;> rfl

/-- No lexeme is emitted up to the next line feed exactly if all of the line is blanks and
comments. -/
theorem holdsNothing_place {tab : UInt64} (s : State) (text : List Char) :
    HoldsNothing (place tab s (pieces text)) ↔ ∀ p ∈ lineOf (pieces text), p.isSilent = true := by
  induction text using pieces_induction generalizing s with
  | nil =>
    rw [pieces, place_nil]
    refine iff_of_true (fun t ht => ?_) fun p hp => absurd hp List.not_mem_nil
    obtain ⟨w, _, rfl⟩ := List.mem_map.mp ((List.takeWhile_sublist _).subset ht)
    exact .inr rfl
  | piece c cs rest cut later =>
    rw [place_of_cut cut, pieces_of_cut cut]
    have form := Piece.form_atStart c cs
    generalize Piece.atStart c cs = p at form cut
    cases form with
    | newline =>
      obtain ⟨line, emitted, -⟩ := lineStep tab s (cs.takeWhile Piece.isIndentation) (pieces rest)
      rw [emitted]
      exact iff_of_true (fun t ht => absurd ht List.not_mem_nil)
        fun p hp => absurd hp List.not_mem_nil
    | lexeme =>
      have plain := Lexeme.isLayout_atStart c cs
      generalize Lexeme.atStart c cs = x at plain
      refine iff_of_false (fun holds => ?_) fun silent => ?_
      · have notFeed : x.kind ≠ .newline := by
          intro kind
          rw [kind] at plain
          cases plain
        have emitted : (⟨x.kind, x.value, ⟨s.offset, s.offset + Text.byteLength x.text⟩⟩ : Token) ∈
            (s.tokens tab (pieces rest) (.lexeme x) ++
              place tab (s.next tab (pieces rest) (.lexeme x)) (pieces rest)).takeWhile
                (·.kind ≠ .newline) := by
          simp [State.tokens, notFeed]
        have isLayout : x.kind.isLayout = true := by
          rcases holds _ emitted with isIndent | isDedent
          · exact congrArg Kind.isLayout isIndent
          · exact congrArg Kind.isLayout isDedent
        rw [plain] at isLayout
        cases isLayout
      · cases silent (.lexeme x) (by rw [lineOf_cons rfl]; exact List.mem_cons_self)
    | blank =>
      rw [lineOf_cons rfl, List.forall_mem_cons]
      exact (later _).trans (and_iff_right rfl).symm
    | comment =>
      rw [lineOf_cons rfl, List.forall_mem_cons]
      exact (later _).trans (and_iff_right rfl).symm

end PhraseLang
