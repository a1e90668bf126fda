import Mathlib.Data.List.TakeWhile
import PhraseLang.Proofs.Scan

/-! Some pieces placed in front of others.
What pieces emit, and the state behind them, depend on the pieces that follow only where a line is
judged to be blank: not if a line break follows, and not if the pieces end with a lexeme. Placing
pieces further on in a source moves their tokens and changes nothing else. -/
namespace PhraseLang.Layout
open Text

/-- The tokens of some pieces, given the pieces that follow them. -/
def State.emits (tab : UInt64) (behind : List Piece) (s : State) : List Piece → List Token
  | [] => []
  | p :: ps => s.tokens tab (ps ++ behind) p ++ (s.next tab (ps ++ behind) p).emits tab behind ps

def State.after (tab : UInt64) (behind : List Piece) (s : State) : List Piece → State
  | [] => s
  | p :: ps => (s.next tab (ps ++ behind) p).after tab behind ps

section
variable {tab : UInt64} {s : State} {ps behind : List Piece}

theorem place_append (tab : UInt64) (s : State) (ps behind : List Piece) :
    place tab s (ps ++ behind) =
      s.emits tab behind ps ++ place tab (s.after tab behind ps) behind := by
  induction ps generalizing s with
  | nil => rfl
  | cons p ps ih => simp [place, State.emits, State.after, ih]

theorem offset_after (tab : UInt64) (s : State) (ps behind : List Piece) :
    (s.after tab behind ps).offset = s.offset + byteLength (ps.flatMap Piece.source) := by
  induction ps generalizing s with
  | nil => rfl
  | cons p ps ih => simp [State.after, ih, State.next, Nat.add_assoc]

theorem Scan.exists_pieces {source text : List Char} {out : List Token}
    (scan : Scan tab source out s text) : ∃ ps, pieces source = ps ++ pieces text ∧
      out = State.emits tab (pieces text) ⟨0, []⟩ ps ∧
      s = State.after tab (pieces text) ⟨0, []⟩ ps := by
  have extend : ∀ (ps : List Piece) (p : Piece) (behind : List Piece) (s : State),
      s.emits tab behind (ps ++ [p]) = s.emits tab (p :: behind) ps ++
          (s.after tab (p :: behind) ps).tokens tab behind p ∧
        s.after tab behind (ps ++ [p]) =
          (s.after tab (p :: behind) ps).next tab behind p := by
    intro ps p behind
    induction ps with
    | nil => exact fun s => ⟨List.append_nil _, rfl⟩
    | cons q ps ih =>
      intro s
      obtain ⟨emits, after⟩ := ih (s.next tab (ps ++ p :: behind) q)
      simp [State.emits, State.after, emits, after]
  induction scan with
  | start => exact ⟨[], rfl, rfl, rfl⟩
  | @step out s c cs rest _ cut ih =>
    obtain ⟨ps, whole, emits, after⟩ := ih
    rw [pieces_of_cut cut] at whole emits after
    obtain ⟨more, next⟩ := extend ps (Piece.atStart c cs) (pieces rest) ⟨0, []⟩
    rw [← emits, ← after] at more
    rw [← after] at next
    exact ⟨ps ++ [Piece.atStart c cs], by simp [whole], more.symm, next.symm⟩

/-- What follows the pieces is out of sight for them. -/
def Sealed (ps behind : List Piece) : Prop :=
  (∃ indentation rest, behind = .newline indentation :: rest) ∨
    ∃ x, ps.getLast? = some (.lexeme x)

theorem lineEnds_append (nonempty : ps ≠ []) (behind : List Piece) :
    lineEnds (ps ++ behind) = lineEnds ps := by
  obtain ⟨p, ps, rfl⟩ := List.exists_cons_of_ne_nil nonempty
  cases p with
  | newline | lexeme => rfl
  | blank c =>
    by_cases isReturn : c = '\r'
    · subst isReturn
      rfl
    · simp [lineEnds, isReturn]
  | comment e => cases e <;> rfl

theorem lineEnds_cons (p : Piece) (ps : List Piece) : lineEnds (p :: ps) = lineEnds [p] :=
  lineEnds_append (List.cons_ne_nil p []) ps

theorem isBlankLine_append (sealed_ : Sealed ps behind) :
    isBlankLine (ps ++ behind) = isBlankLine ps := by
  cases ps with
  | nil =>
    rcases sealed_ with ⟨indentation, rest, rfl⟩ | ⟨x, last⟩
    · rfl
    · cases last
  | cons p ps =>
    have plain := lineEnds_append (List.cons_ne_nil p ps) behind
    rw [List.cons_append] at plain
    cases p with
    | newline | lexeme | blank => exact plain
    | comment e =>
      cases e with
      | line => exact plain
      | unclosed => rfl
      | block body =>
        change lineEnds ((ps ++ behind).dropWhile isSpacing) = lineEnds (ps.dropWhile isSpacing)
        rw [List.dropWhile_append]
        split
        · rename_i none
          have none : ps.dropWhile isSpacing = [] := List.isEmpty_iff.mp none
          rw [none]
          rcases sealed_ with ⟨indentation, rest, rfl⟩ | ⟨x, last⟩
          · rfl
          · -- The lexeme at the end of the pieces is no spacing.
            cases ps with
            | nil => cases last
            | cons q ps =>
              rw [List.getLast?_cons_cons] at last
              have spacing := List.dropWhile_eq_nil_iff.mp none _ (List.mem_of_getLast? last)
              cases spacing
        · rename_i some
          exact lineEnds_append (fun none => some (List.isEmpty_iff.mpr none)) behind

theorem Sealed.tail {p : Piece} (sealed_ : Sealed (p :: ps) behind) (more : ps ≠ []) :
    Sealed ps behind := by
  rcases sealed_ with feed | ⟨x, last⟩
  · exact .inl feed
  · obtain ⟨q, ps, rfl⟩ := List.exists_cons_of_ne_nil more
    exact .inr ⟨x, by rwa [List.getLast?_cons_cons] at last⟩

/-- What follows a piece counts only behind a line feed, and there only if its line is blank. -/
theorem step_congr {p : Piece} {more : List Piece}
    (same : ∀ i, p = .newline i → isBlankLine behind = isBlankLine more) :
    s.tokens tab behind p = s.tokens tab more p ∧ s.next tab behind p = s.next tab more p := by
  cases p with
  | newline i => simp only [State.tokens, State.next, same i rfl, and_self]
  | blank | comment | lexeme => exact ⟨rfl, rfl⟩

theorem step_of_sealed (tab : UInt64) (s : State) {p : Piece} (sealed_ : Sealed (p :: ps) behind) :
    s.tokens tab (ps ++ behind) p = s.tokens tab ps p ∧
      s.next tab (ps ++ behind) p = s.next tab ps p := by
  refine step_congr fun i isNewline => isBlankLine_append ?_
  subst isNewline
  rcases sealed_ with feed | ⟨x, last⟩
  · exact .inl feed
  · cases ps with
    | nil => cases last
    | cons q ps => exact .inr ⟨x, by rwa [List.getLast?_cons_cons] at last⟩

/-- Pieces out of sight of what follows emit what they emit alone. -/
theorem emits_of_sealed (tab : UInt64) (s : State) (sealed_ : Sealed ps behind) :
    s.emits tab behind ps = s.emits tab [] ps ∧ s.after tab behind ps = s.after tab [] ps := by
  induction ps generalizing s with
  | nil => exact ⟨rfl, rfl⟩
  | cons p ps ih =>
    obtain ⟨tokens, next⟩ := step_of_sealed tab s sealed_
    rw [State.emits, State.emits, State.after, State.after, tokens, next, List.append_nil]
    by_cases more : ps = []
    · subst more
      exact ⟨rfl, rfl⟩
    · obtain ⟨emits, after⟩ := ih (s.next tab ps p) (sealed_.tail more)
      rw [emits, after]
      exact ⟨rfl, rfl⟩

theorem tokens_shift (n : Nat) (p : Piece) :
    (⟨s.offset + n, s.levels⟩ : State).tokens tab behind p =
      (s.tokens tab behind p).map (Token.shift n) := by
  cases p with
  | newline indentation =>
    have start : s.offset + n + 1 = s.offset + 1 + n := Nat.add_right_comm _ _ _
    have stop (k : Nat) : s.offset + 1 + n + k = s.offset + 1 + k + n := Nat.add_right_comm _ _ _
    simp only [State.tokens, start, stop, List.map_cons]
    refine congrArg _ ?_
    split
    · rfl
    · split
      · rfl
      · rw [List.map_map]
        rfl
  | lexeme x => simp [State.tokens, Token.shift, Span.shift, Nat.add_right_comm]
  | _ => rfl

theorem place_shift (tab : UInt64) (s : State) (ps : List Piece) (n : Nat) :
    place tab ⟨s.offset + n, s.levels⟩ ps = (place tab s ps).map (Token.shift n) := by
  induction ps generalizing s with
  | nil => simp [place, Token.shift, Span.shift, Span.point]
  | cons p ps ih =>
    have next : (⟨s.offset + n, s.levels⟩ : State).next tab ps p =
        ⟨(s.next tab ps p).offset + n, (s.next tab ps p).levels⟩ := by
      simp [State.next, Nat.add_right_comm]
    rw [place, place, tokens_shift, next, ih, List.map_append]

end

end PhraseLang.Layout
