import Mathlib.Data.List.Nodup
import PhraseLang.Listing
import PhraseLang.Proofs.Cut
import PhraseLang.Proofs.Position
import PhraseLang.Proofs.Quoted
import PhraseLang.Proofs.Unplaced

/-! Listings read back.
A listing has one line for each token, whatever the texts of the tokens are. All operators share one
name, and layout is listed without its text; for the tokens of a source that loses nothing, since
the text of an operator says which one it is, and the kind of layout says its text. -/
namespace PhraseLang
open Text Layout

namespace Kind

theorem isAlpha_name (k : Kind) : k.name.toList.all Char.isAlpha = true := by
  cases k with
  | keyword k => cases k <;> decide
  | punctuation p => cases p <;> decide
  | operator o => cases o <;> decide
  | _ => decide

theorem isAlpha_of_mem_name {k : Kind} {c : Char} (hc : c ∈ k.name.toList) : c.isAlpha = true :=
  List.all_eq_true.mp k.isAlpha_name c hc

/-- A kind as far as its name tells it. -/
def named : Kind → Kind
  | .operator _ => .operator .plus
  | k => k

/-- One kind for each name. -/
def nameable : List Kind :=
  Keyword.all.map .keyword ++ Punctuation.all.map .punctuation ++
    [.operator .plus, .word, .number, .constant, .binding, .newline, .indent, .dedent, .unknown]

theorem named_mem_nameable (k : Kind) : k.named ∈ nameable := by
  cases k with
  | keyword k => cases k <;> decide
  | punctuation p => cases p <;> decide
  | operator o => cases o <;> decide
  | _ => decide

theorem name_named (k : Kind) : k.named.name = k.name := by cases k <;> rfl

theorem nodup_names : (nameable.map name).Nodup := by decide +kernel

theorem named_eq_of_name_eq {k l : Kind} (same : k.name = l.name) : k.named = l.named := by
  refine List.inj_on_of_nodup_map nodup_names k.named_mem_nameable l.named_mem_nameable ?_
  rw [name_named, name_named, same]

theorem eq_or_operators {k l : Kind} (same : k.named = l.named) :
    k = l ∨ ∃ o p, k = .operator o ∧ l = .operator p := by
  cases k <;> cases l <;> simp_all [named]

/-- The text that every token of a source with this kind has. -/
def onlyText? : Kind → Option String
  | .operator o => some (String.singleton o.symbol)
  | .newline => some "\n"
  | .indent | .dedent => some ""
  | _ => none

end Kind

theorem Operator.symbol_inj {o p : Operator} (same : o.symbol = p.symbol) : o = p := by
  cases o <;> cases p <;> first | rfl | cases same

namespace Token

/-- The kind says the text where it can. -/
def IsTyped (t : Token) : Prop := ∀ text ∈ t.kind.onlyText?, t.text = text

/-- What is shown of a token behind the name of its kind. -/
def shownText (t : Token) : List Char :=
  if t.kind.isLayout then [] else ' ' :: (quoted t.text).toList

/-- What the line of a token shows. -/
def entry (source : List Char) (places : Bool) (t : Token) : String :=
  (if places then t.place source else "") ++ t.display

end Token

theorem feed_not_mem_toString (n : Nat) : '\n' ∉ (toString n).toList := by
  intro inside
  cases isDigit_of_mem_toString inside

theorem Kind.feed_not_mem_name (k : Kind) : '\n' ∉ k.name.toList := by
  intro inside
  cases isAlpha_of_mem_name inside

namespace Token

theorem feed_not_mem_place (source : List Char) (t : Token) : '\n' ∉ (t.place source).toList := by
  simp only [place, String.toList_append, List.mem_append, not_or]
  refine ⟨⟨⟨feed_not_mem_toString _, by decide⟩, feed_not_mem_toString _⟩, by decide⟩

theorem feed_not_mem_display (t : Token) : '\n' ∉ t.display.toList := by
  unfold display
  split
  · exact t.kind.feed_not_mem_name
  · simp only [String.toList_append, List.mem_append, not_or]
    exact ⟨⟨t.kind.feed_not_mem_name, by decide⟩, feed_not_mem_quoted t.text⟩

theorem feed_not_mem_entry (source : List Char) (places : Bool) (t : Token) :
    '\n' ∉ (t.entry source places).toList := by
  rw [entry, String.toList_append, List.mem_append, not_or]
  refine ⟨?_, t.feed_not_mem_display⟩
  split
  · exact t.feed_not_mem_place source
  · exact List.not_mem_nil

theorem entry_false (source : List Char) (t : Token) : t.entry source false = t.display := by
  simp [entry]

end Token

theorem toList_tokenListing (source : String) (tokens : List Token) (places : Bool) :
    (tokenListing source tokens places).toList =
      ended (tokens.map fun t => (t.entry source.toList places).toList) := by
  rw [tokenListing, String.toList_join, ended, List.flatMap_map, List.flatMap_map]
  congr 1
  funext t
  rw [Token.line, String.toList_append]
  rfl

/-- A listing has one line for each token, and nothing behind the last line feed. -/
theorem lines_tokenListing (source : String) (tokens : List Token) (places : Bool) :
    lines (tokenListing source tokens places).toList =
      tokens.map (fun t => (t.entry source.toList places).toList) ++ [[]] := by
  have free : ∀ l ∈ tokens.map fun t => (t.entry source.toList places).toList, '\n' ∉ l := by
    intro l hl
    obtain ⟨t, -, rfl⟩ := List.mem_map.mp hl
    exact t.feed_not_mem_entry source.toList places
  have cut := lines_ended free []
  rwa [List.append_nil, ← toList_tokenListing] at cut

/-- What the line of a keyword shows. -/
def Keyword.entry (k : Keyword) : String :=
  column 12 k.name ++ " " ++ column 8 k.category.label ++ " " ++ column 9 k.stability.label ++ " " ++
    k.phrase

theorem feed_not_mem_column {width : Nat} {text : String} (free : '\n' ∉ text.toList) :
    '\n' ∉ (column width text).toList := by
  rw [column, String.toList_append, String.toList_ofList, List.mem_append, not_or]
  refine ⟨free, fun inside => ?_⟩
  cases List.eq_of_mem_replicate inside

theorem Keyword.feed_not_mem_entry (k : Keyword) : '\n' ∉ k.entry.toList := by
  have name : '\n' ∉ k.name.toList := (Kind.keyword k).feed_not_mem_name
  have category : '\n' ∉ k.category.label.toList := by cases k.category <;> decide
  have stability : '\n' ∉ k.stability.label.toList := by cases k.stability <;> decide
  have phrase : '\n' ∉ k.phrase.toList := Lexeme.feed_not_mem_letters k
  simp [entry, feed_not_mem_column, name, category, stability, phrase]

theorem toList_keywordListing :
    keywordListing.toList = ended (Keyword.longestFirst.map fun k => k.entry.toList) := by
  rw [keywordListing, String.toList_join, ended, List.flatMap_map, List.flatMap_map]
  congr 1
  funext k
  rw [String.toList_append]
  rfl

/-- The list of the keywords has a line for each of them, the longest phrase first. -/
theorem lines_keywordListing : lines keywordListing.toList =
    Keyword.longestFirst.map (fun k => k.entry.toList) ++ [[]] := by
  have free : ∀ l ∈ Keyword.longestFirst.map fun k => k.entry.toList, '\n' ∉ l := by
    intro l hl
    obtain ⟨k, -, rfl⟩ := List.mem_map.mp hl
    exact k.feed_not_mem_entry
  have cut := lines_ended free []
  rwa [List.append_nil, ← toList_keywordListing] at cut

namespace Token
variable {t u : Token}

theorem toList_display (t : Token) : t.display.toList = t.kind.name.toList ++ t.shownText := by
  unfold display shownText
  split
  · simp
  · simp only [String.toList_append, List.append_assoc]
    rfl

theorem head_shownText (t : Token) : ∀ c ∈ t.shownText.head?, c.isAlpha = false := by
  intro c first
  unfold shownText at first
  split at first
  · cases first
  · obtain rfl := Option.mem_some.mp first
    rfl

theorem shown_of_display_eq (same : t.display = u.display) :
    t.kind.named = u.kind.named ∧ t.shownText = u.shownText := by
  have chars := congrArg String.toList same
  rw [toList_display, toList_display] at chars
  have names : t.kind.name.toList = u.kind.name.toList := by
    have taken := congrArg (List.takeWhile Char.isAlpha) chars
    rwa [takeWhile_stop (fun _ => Kind.isAlpha_of_mem_name) t.head_shownText,
      takeWhile_stop (fun _ => Kind.isAlpha_of_mem_name) u.head_shownText] at taken
  rw [names] at chars
  exact ⟨Kind.named_eq_of_name_eq (String.toList_inj.mp names), List.append_cancel_left chars⟩

theorem text_eq_of_shownText_eq (notLayout : t.kind.isLayout = false)
    (kinds : t.kind.isLayout = u.kind.isLayout) (same : t.shownText = u.shownText) :
    t.text = u.text := by
  rw [shownText, shownText, ← kinds, notLayout] at same
  exact quoted_inj (String.toList_inj.mp (List.cons.inj same).2)

theorem IsTyped.eq_of_kind (typed : t.IsTyped) (typed' : u.IsTyped) (same : t.kind = u.kind)
    (layout : t.kind.isLayout = true) : t.text = u.text := by
  have only : ∃ text, t.kind.onlyText? = some text := by
    generalize t.kind = k at layout
    cases k with
    | newline | indent | dedent => exact ⟨_, rfl⟩
    | _ => cases layout
  obtain ⟨text, only⟩ := only
  rw [typed text only, typed' text (same ▸ only)]

theorem IsTyped.bare_eq_of_display_eq (typed : t.IsTyped) (typed' : u.IsTyped)
    (same : t.display = u.display) : t.bare = u.bare := by
  obtain ⟨names, texts⟩ := shown_of_display_eq same
  rcases Kind.eq_or_operators names with kinds | ⟨o, p, isOperator, isOperator'⟩
  · have text : t.text = u.text := by
      cases layout : t.kind.isLayout with
      | true => exact typed.eq_of_kind typed' kinds layout
      | false => exact text_eq_of_shownText_eq layout (by rw [kinds]) texts
    rw [bare_eq, bare_eq, kinds, text]
  · have text : t.text = u.text :=
      text_eq_of_shownText_eq (by rw [isOperator]; rfl) (by rw [isOperator, isOperator']; rfl) texts
    have symbol : t.text = String.singleton o.symbol := typed _ (by rw [isOperator]; rfl)
    have symbol' : u.text = String.singleton p.symbol := typed' _ (by rw [isOperator']; rfl)
    have symbols : String.singleton o.symbol = String.singleton p.symbol := by
      rw [← symbol, ← symbol', text]
    obtain rfl := Operator.symbol_inj (String.singleton_inj.mp symbols)
    rw [bare_eq, bare_eq, isOperator, isOperator', text]

end Token

/-- The tokens that a list of lines shows. -/
theorem map_bare_of_map_display {ts us : List Token} (typed : ∀ t ∈ ts, t.IsTyped)
    (typed' : ∀ t ∈ us, t.IsTyped) (same : ts.map Token.display = us.map Token.display) :
    ts.map Token.bare = us.map Token.bare := by
  induction ts generalizing us with
  | nil =>
    obtain rfl := List.map_eq_nil_iff.mp same.symm
    rfl
  | cons t ts ih =>
    obtain ⟨u, us, rfl, here, behind⟩ := List.map_eq_cons_iff.mp same.symm
    obtain ⟨typedHere, typedBehind⟩ := List.forall_mem_cons.mp typed
    obtain ⟨typedHere', typedBehind'⟩ := List.forall_mem_cons.mp typed'
    rw [List.map_cons, List.map_cons, typedHere.bare_eq_of_display_eq typedHere' here.symm,
      ih typedBehind typedBehind' behind.symm]

namespace Layout
variable {tab : UInt64} {s : State} {t : Token}

theorem isTyped_layout {behind : List Piece} {indentation : List Char}
    (ht : t ∈ s.tokens tab behind (.newline indentation)) : t.IsTyped := by
  obtain ⟨layout, same, line⟩ := lineStep tab s indentation behind
  rw [same] at ht
  intro text only
  rcases List.mem_cons.mp ht with rfl | ht
  · exact Option.some.inj only
  · generalize (s.next tab behind (.newline indentation)).levels = levels at line
    cases line with
    | blank => exact absurd ht List.not_mem_nil
    | deeper =>
      obtain rfl := List.mem_singleton.mp ht
      exact Option.some.inj only
    | closing =>
      obtain ⟨_, -, rfl⟩ := List.mem_map.mp ht
      exact Option.some.inj only

theorem isTyped_lexeme {c : Char} {cs : List Char} {behind : List Piece}
    (ht : t ∈ s.tokens tab behind (.lexeme (Lexeme.atStart c cs))) : t.IsTyped := by
  obtain rfl := List.mem_singleton.mp ht
  intro text only
  have form := Lexeme.form_atStart c cs
  generalize Lexeme.atStart c cs = x at form only
  cases form with
  | operator _ isSymbol =>
    rw [Operator.ofChar?_eq_some_iff.mp isSymbol]
    exact Option.some.inj only
  | @name s => cases s <;> cases only
  | _ => cases only

theorem isTyped_of_mem_place {text : List Char} (ht : t ∈ place tab s (pieces text)) :
    t.IsTyped := by
  induction text using pieces_induction generalizing s with
  | nil =>
    rw [pieces] at ht
    obtain ⟨_, -, rfl⟩ := List.mem_map.mp ht
    exact fun text only => Option.some.inj only
  | piece c cs rest cut ih =>
    rw [place_of_cut cut] at ht
    rcases List.mem_append.mp ht with here | behind
    · have form := Piece.form_atStart c cs
      generalize Piece.atStart c cs = p at form here
      cases form with
      | newline => exact isTyped_layout here
      | blank | comment => exact absurd here List.not_mem_nil
      | lexeme => exact isTyped_lexeme here
    · exact ih behind

end Layout

theorem map_display_of_listing_eq {first second : String} {ts us : List Token}
    (same : tokenListing first ts false = tokenListing second us false) :
    ts.map Token.display = us.map Token.display := by
  have rows := congrArg (fun text : String => lines text.toList) same
  simp only [lines_tokenListing, Token.entry_false, List.append_left_inj] at rows
  have texts : (ts.map Token.display).map String.toList =
      (us.map Token.display).map String.toList := by
    rw [List.map_map, List.map_map]
    exact rows
  exact List.map_injective_iff.mpr (fun _ _ => String.toList_injective) texts

theorem listing_eq_of_map_bare {first second : String} {ts us : List Token}
    (same : ts.map Token.bare = us.map Token.bare) :
    tokenListing first ts false = tokenListing second us false := by
  have displays : ts.map Token.display = us.map Token.display := by
    have shown := congrArg (List.map Token.display) same
    rwa [List.map_map, List.map_map] at shown
  have rows := congrArg (List.map String.toList) displays
  rw [List.map_map, List.map_map] at rows
  refine String.toList_inj.mp ?_
  simp only [toList_tokenListing, Token.entry_false]
  exact congrArg ended rows

/-- A listing shows its tokens line by line. Without the places, the kinds and the texts of the
tokens of a source are told by it, and nothing else is. -/
theorem tokenListing_faithful (source : String) (tokens : List Token) (places : Bool) :
    lines (tokenListing source tokens places).toList =
      tokens.map (fun t => (t.entry source.toList places).toList) ++ [[]] ∧
    ∀ (tab tab' : UInt64) (first second : String),
      tokenListing first (tokenize tab first) false =
          tokenListing second (tokenize tab' second) false ↔
        (tokenize tab first).map Token.bare = (tokenize tab' second).map Token.bare := by
  refine ⟨lines_tokenListing source tokens places, fun tab tab' first second => ⟨?_, ?_⟩⟩
  · intro same
    exact map_bare_of_map_display (fun _ => isTyped_of_mem_place) (fun _ => isTyped_of_mem_place)
      (map_display_of_listing_eq same)
  · exact listing_eq_of_map_bare

end PhraseLang
