import PhraseLang.Program.Reading
import PhraseLang.Proofs.Comment
import PhraseLang.Proofs.Lexeme
import PhraseLang.Proofs.Scan

/-! Tokens and gaps tile a source.
The spans of the tokens are disjoint and in order, each cuts its token out of the source, and what
lies between them are blanks and whole comments. Offsets count bytes; every end of a span is a
boundary between two characters. -/
namespace PhraseLang
open Text Layout

/-- Blanks and whole comments, given the text behind them. -/
inductive Gap : List Char → List Char → Prop where
  | nil {rest : List Char} : Gap [] rest
  | blank {c : Char} {cs rest : List Char} : Piece.isBlank c = true → Gap cs rest →
      Gap (c :: cs) rest
  | comment {e : Comment.Extent} {cs rest : List Char} : Comment.Whole e (cs ++ rest) →
      Gap cs rest → Gap (e.text ++ cs) rest

theorem Gap.append {a b rest : List Char} (first : Gap a (b ++ rest)) (second : Gap b rest) :
    Gap (a ++ b) rest := by
  generalize h : b ++ rest = behind at first
  induction first with
  | nil => exact second
  | blank isBlank _ ih => exact .blank isBlank (ih h)
  | @comment e cs behind whole _ ih =>
    subst h
    rw [List.append_assoc]
    exact .comment (by rwa [List.append_assoc]) (ih rfl)

theorem Gap.blanks {g rest : List Char} (all : ∀ c ∈ g, Piece.isBlank c = true) : Gap g rest := by
  induction g with
  | nil => exact .nil
  | cons c g ih =>
    exact .blank (all c List.mem_cons_self) (ih fun d hd => all d (List.mem_cons_of_mem c hd))

def GapBetween (source : List Char) (start stop : Nat) : Prop :=
  Gap (slice source start stop) (dropBytes stop source)

def IsBoundary (source : List Char) (offset : Nat) : Prop :=
  ∃ front rest, source = front ++ rest ∧ byteLength front = offset

/-- The stretch is all of the blanks that open a line. -/
def OpensLine (source : List Char) (start stop : Nat) : Prop :=
  ∃ front blanks rest, source = front ++ '\n' :: blanks ++ rest ∧
    start = byteLength (front ++ ['\n']) ∧ stop = start + byteLength blanks ∧
    (∀ c ∈ blanks, Piece.isIndentation c = true) ∧ ∀ c ∈ rest.head?, Piece.isIndentation c = false

/-- What a token with this stretch of source has for its text. -/
def Shows (cut : List Char) (t : Token) : Prop :=
  match t.kind with
  | .keyword .countedLoop =>
    ∃ n, cut = Keyword.countedLoop.letters ++ List.replicate n Keyword.repeatMark ∧
      t.text = toString n
  | .constant => cut = Sigil.dollar.symbol :: t.text.toList
  | .binding => cut = Sigil.pound.symbol :: t.text.toList
  | .indent => t.text = ""
  | .dedent => t.text = "" ∧ cut = []
  | _ => cut = t.text.toList

theorem shows_lexeme (c : Char) (cs : List Char) (span : Span) :
    Shows (Lexeme.atStart c cs).text
      ⟨(Lexeme.atStart c cs).kind, (Lexeme.atStart c cs).value, span⟩ := by
  by_cases isLoop : (Lexeme.atStart c cs).kind = .keyword .countedLoop
  · obtain ⟨n, cut, text⟩ := Lexeme.text_countedLoop isLoop
    rw [isLoop]
    exact ⟨n, cut, text⟩
  · have plain := Lexeme.isLayout_atStart c cs
    have text := Lexeme.text_atStart isLoop
    generalize (Lexeme.atStart c cs).kind = kind at isLoop plain text ⊢
    cases kind with
    | indent => cases plain
    | dedent => cases plain
    | keyword k =>
      cases k with
      | countedLoop => exact absurd rfl isLoop
      | _ => exact text
    | _ => exact text

/-- A token whose span cuts it out of the source. -/
structure Cuts (source : List Char) (t : Token) : Prop where
  ordered : t.span.start ≤ t.span.stop
  inside : t.span.stop ≤ byteLength source
  startBoundary : IsBoundary source t.span.start
  stopBoundary : IsBoundary source t.span.stop
  nonempty : t.kind ≠ .dedent → t.span.start < t.span.stop
  shows : Shows (slice source t.span.start t.span.stop) t
  indent : t.kind = .indent → OpensLine source t.span.start t.span.stop

/-- A source as far as it is tiled: the tokens, the text through the last of them, the gap behind
it, and the text that is left. -/
inductive Tiled (source : List Char) : List Token → List Char → List Char → List Char → Prop where
  | start : Tiled source [] [] [] source
  | gap {out : List Token} {front g h rest : List Char} :
      Tiled source out front g (h ++ rest) → Gap h rest → Tiled source out front (g ++ h) rest
  | token {out : List Token} {front g cut rest : List Char} {t : Token} :
      Tiled source out front g (cut ++ rest) →
      t.span = ⟨byteLength (front ++ g), byteLength (front ++ g) + byteLength cut⟩ →
      (t.kind ≠ .dedent → cut ≠ []) → Shows cut t →
      (t.kind = .indent → OpensLine source t.span.start t.span.stop) →
      Tiled source (out ++ [t]) (front ++ g ++ cut) [] rest

namespace Tiled
variable {source front g rest : List Char} {out : List Token}

theorem source_eq (h : Tiled source out front g rest) : source = front ++ g ++ rest := by
  induction h with
  | start => rfl
  | gap _ _ ih => simpa using ih
  | token _ _ _ _ _ ih => simpa using ih

theorem gap_behind (h : Tiled source out front g rest) : Gap g rest := by
  induction h with
  | start => exact .nil
  | gap _ more ih => exact ih.append more
  | token => exact .nil

theorem endOffset_eq (h : Tiled source out front g rest) : endOffset out = byteLength front := by
  induction h with
  | start => rfl
  | gap _ _ ih => exact ih
  | @token out front g cut rest t _ span _ _ _ _ =>
    simp [endOffset, span, Nat.add_assoc]

theorem cuts (h : Tiled source out front g rest) : ∀ t ∈ out, Cuts source t := by
  induction h with
  | start => simp
  | gap _ _ ih => exact ih
  | @token out front g cut rest t before span nonempty shows indent ih =>
    intro u hu
    rcases List.mem_append.mp hu with hu | hu
    · exact ih u hu
    · obtain rfl := List.mem_singleton.mp hu
      have whole : source = front ++ g ++ cut ++ rest := by
        rw [before.source_eq, List.append_assoc _ cut]
      have size := congrArg byteLength whole
      rw [byteLength_append, byteLength_append _ cut] at size
      have start : u.span.start = byteLength (front ++ g) := by rw [span]
      have stop : u.span.stop = byteLength (front ++ g) + byteLength cut := by rw [span]
      refine ⟨by omega, by omega, ⟨front ++ g, cut ++ rest, before.source_eq, start.symm⟩,
        ⟨front ++ g ++ cut, rest, whole, by rw [byteLength_append, stop]⟩, ?_, ?_, indent⟩
      · intro notDedent
        have positive : byteLength cut ≠ 0 := fun h => nonempty notDedent (byteLength_eq_zero.mp h)
        omega
      · rw [start, stop, whole, slice_append]
        exact shows

theorem between (h : Tiled source out front g rest) : ∀ a t b, out = a ++ t :: b →
    endOffset a ≤ t.span.start ∧ GapBetween source (endOffset a) t.span.start := by
  induction h with
  | start => simp
  | gap _ _ ih => exact ih
  | @token out front g cut rest t before span nonempty shows indent ih =>
    intro a u b same
    rcases append_eq_split same with ⟨d, inside, _⟩ | ⟨d, rfl, last⟩
    · exact ih a u d inside
    · cases d with
      | cons x d => simp at last
      | nil =>
        obtain rfl := (List.cons.inj last).1
        have start : t.span.start = byteLength front + byteLength g := by
          rw [span, byteLength_append]
        rw [List.append_nil, before.endOffset_eq, start, GapBetween, before.source_eq, slice_append,
          ← byteLength_append, dropBytes_byteLength_append]
        exact ⟨byteLength_append front g ▸ Nat.le_add_right _ _, before.gap_behind⟩

theorem gap_last (h : Tiled source out front g []) :
    GapBetween source (endOffset out) (byteLength source) := by
  have whole : source = front ++ g ++ [] := h.source_eq
  have size := congrArg byteLength whole
  rw [List.append_nil, byteLength_append] at size
  rw [GapBetween, h.endOffset_eq, size, whole, slice_append, ← byteLength_append,
    dropBytes_byteLength_append]
  exact h.gap_behind

theorem dedents {α : Type} (levels : List α) {n : Nat} (h : Tiled source out front g rest)
    (size : byteLength (front ++ g) = n) :
    ∃ front' g', Tiled source (out ++ levels.map fun _ => ⟨.dedent, "", .point n⟩) front' g'
      rest := by
  induction levels generalizing out front g with
  | nil => exact ⟨front, g, by simpa using h⟩
  | cons l levels ih =>
    have one : Tiled source (out ++ [⟨.dedent, "", .point n⟩]) (front ++ g ++ []) [] rest :=
      .token h (by simp [Span.point, ← size]) (by simp) ⟨rfl, rfl⟩ (by simp)
    obtain ⟨front', g', more⟩ := ih one (by simpa using size)
    exact ⟨front', g', by simpa using more⟩

theorem newline {tab : UInt64} {s : State} {cs : List Char} {behind : List Piece}
    (h : Tiled source out front g ('\n' :: cs)) (size : byteLength (front ++ g) = s.offset)
    (cut : cs = cs.takeWhile Piece.isIndentation ++ rest) :
    ∃ front' g', Tiled source
      (out ++ s.tokens tab behind (.newline (cs.takeWhile Piece.isIndentation))) front' g'
      rest := by
  have all : ∀ c ∈ cs.takeWhile Piece.isIndentation, Piece.isIndentation c = true :=
    fun c hc => List.all_eq_true.mp List.all_takeWhile c hc
  have noMore : ∀ c ∈ rest.head?, Piece.isIndentation c = false := head_of_cut cut
  generalize cs.takeWhile Piece.isIndentation = blanks at cut all
  subst cut
  have feed : Tiled source (out ++ [s.feed]) (front ++ g ++ ['\n']) [] (blanks ++ rest) :=
    .token h (by rw [size]; rfl) (by simp) (by simp [Shows, State.feed]) (by simp [State.feed])
  have offset : byteLength (front ++ g ++ ['\n']) = s.offset + 1 := by
    rw [byteLength_append, size]
    rfl
  have skipped := feed.gap (Gap.blanks fun c hc => by rw [Piece.isBlank, all c hc, Bool.true_or])
  obtain ⟨layout, same, line⟩ := lineStep tab s blanks behind
  rw [same, ← List.singleton_append, ← List.append_assoc]
  generalize (s.next tab behind (.newline blanks)).levels = levels at line
  cases line with
  | blank => exact ⟨_, _, by simpa using skipped⟩
  | deeper _ wider =>
    have nonempty : blanks ≠ [] := by
      rintro rfl
      exact absurd wider (UInt64.not_lt.mpr UInt64.zero_le)
    refine ⟨front ++ g ++ ['\n'] ++ [] ++ blanks, [],
      .token feed ?_ (fun _ => nonempty) rfl fun _ => ?_⟩
    · rw [List.append_nil, offset]
    · refine ⟨front ++ g, blanks, rest, ?_, offset.symm, rfl, all, noMore⟩
      rw [h.source_eq]
      simp
  | closing =>
    refine dedents (s.levels.takeWhile (width tab blanks < ·)) skipped ?_
    rw [byteLength_append, offset, List.nil_append]

theorem lexeme {c : Char} {cs : List Char} {s : State} {tab : UInt64} {behind : List Piece}
    (h : Tiled source out front g (c :: cs)) (size : byteLength (front ++ g) = s.offset)
    (cut : c :: cs = (Lexeme.atStart c cs).text ++ rest) :
    ∃ front' g', Tiled source
      (out ++ s.tokens tab behind (.lexeme (Lexeme.atStart c cs))) front' g' rest := by
  have plain := Lexeme.isLayout_atStart c cs
  have shows : Shows (Lexeme.atStart c cs).text ⟨(Lexeme.atStart c cs).kind,
      (Lexeme.atStart c cs).value, ⟨s.offset, s.offset + byteLength (Lexeme.atStart c cs).text⟩⟩ :=
    shows_lexeme c cs _
  rw [cut] at h
  refine ⟨_, _, .token h ?_ (fun _ => Lexeme.atStart_ne_nil c cs) shows ?_⟩
  · rw [size]
  · intro isIndent
    have isIndent : (Lexeme.atStart c cs).kind = .indent := isIndent
    rw [isIndent] at plain
    cases plain

theorem step {tab : UInt64} {s : State} {c : Char} {cs : List Char}
    (h : Tiled source out front g (c :: cs)) (size : byteLength (front ++ g) = s.offset)
    (cut : c :: cs = (Piece.atStart c cs).source ++ rest) :
    ∃ front' g', Tiled source (out ++ s.tokens tab (pieces rest) (Piece.atStart c cs)) front' g'
      rest := by
  have form := Piece.form_atStart c cs
  generalize Piece.atStart c cs = p at form cut ⊢
  cases form with
  | newline isFeed =>
    subst isFeed
    exact newline h size (List.cons.inj cut).2
  | blank isBlank =>
    have more : Tiled source out front (g ++ [c]) cs := h.gap (.blank isBlank .nil)
    obtain rfl : cs = rest := (List.cons.inj cut).2
    exact ⟨_, _, by simpa [State.tokens] using more⟩
  | @comment e _ _ found =>
    -- Whether the comment is whole is a matter of the text behind it alone.
    have whole := Comment.whole_of_atStart? found cut
    have cut : c :: cs = e.text ++ rest := cut
    rw [cut] at h
    have gap : Gap (e.text ++ []) rest := .comment whole .nil
    have more := h.gap (List.append_nil e.text ▸ gap)
    exact ⟨_, _, by simpa [State.tokens] using more⟩
  | lexeme => exact lexeme h size cut

end Tiled

theorem tiled_of_scan {tab : UInt64} {source text : List Char} {out : List Token} {s : State}
    (scan : Scan tab source out s text) : ∃ front g, Tiled source out front g text := by
  induction scan with
  | start => exact ⟨[], [], .start⟩
  | @step out s c cs rest scan cut ih =>
    obtain ⟨front, g, tiled⟩ := ih
    obtain ⟨before, same, size⟩ := scan.offset
    have here : before = front ++ g := List.append_cancel_right (same.symm.trans tiled.source_eq)
    exact tiled.step (here ▸ size) cut

theorem exists_tiled (tab : UInt64) (source : String) :
    ∃ front g, Tiled source.toList (tokenize tab source) front g [] := by
  obtain ⟨out, s, scan, same⟩ := exists_scan tab source
  obtain ⟨front, g, tiled⟩ := tiled_of_scan scan
  obtain ⟨read, whole, size⟩ := scan.offset
  have here : read = front ++ g := List.append_cancel_right (whole.symm.trans tiled.source_eq)
  obtain ⟨front', g', closed⟩ := tiled.dedents s.levels (here ▸ size)
  refine ⟨front', g', ?_⟩
  rw [same]
  exact closed

theorem span_stop_le {tokens front behind : List Token} {t u : Token}
    (ordered : ∀ front t behind, tokens = front ++ t :: behind → endOffset front ≤ t.span.start)
    (same : tokens = front ++ t :: u :: behind) : t.span.stop ≤ u.span.start := by
  have before := ordered (front ++ [t]) u behind (by simpa using same)
  simpa [endOffset] using before

theorem Cuts.literalText {source : List Char} {t : Token} (cuts : Cuts source t)
    (literal : t.kind.isLiteral = true) :
    (Expr.literalText t).toList = slice source t.span.start t.span.stop := by
  have shows := cuts.shows
  obtain ⟨kind, text, span⟩ := t
  cases kind with
  | word => exact shows.symm
  | number => exact shows.symm
  | constant => simpa [Expr.literalText, Kind.sigil?, Shows] using shows.symm
  | binding => simpa [Expr.literalText, Kind.sigil?, Shows] using shows.symm
  | _ => cases literal

/-- The tokens of a source tile it: each is cut out of it by its span, in order, and in front of
each, and behind the last, lie blanks and whole comments only. -/
theorem tokenize_tiles (tab : UInt64) (source : String) :
    (∀ t ∈ tokenize tab source, Cuts source.toList t) ∧
    (∀ front t behind, tokenize tab source = front ++ t :: behind →
      endOffset front ≤ t.span.start ∧ GapBetween source.toList (endOffset front) t.span.start) ∧
    (∀ front t u behind, tokenize tab source = front ++ t :: u :: behind →
      t.span.stop ≤ u.span.start) ∧
    GapBetween source.toList (endOffset (tokenize tab source)) (byteLength source.toList) ∧
    ∀ t ∈ tokenize tab source, t.kind.isLiteral = true →
      (Expr.literalText t).toList = slice source.toList t.span.start t.span.stop := by
  obtain ⟨front, g, final⟩ := exists_tiled tab source
  have cuts := final.cuts
  exact ⟨cuts, final.between, fun _ _ _ _ =>
    span_stop_le fun a t b h => (final.between a t b h).1, final.gap_last,
    fun t ht => (cuts t ht).literalText⟩

end PhraseLang
