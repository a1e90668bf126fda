import PhraseLang.Proofs.Canonical.Lexemes

/-! Expressions read back from their written form.
A literal goes on as long as letters, digits, points and sigils do, and its first character tells
its kind. Operations and arrays have their brackets around them. So the written form, with whatever
stands behind it in sight, decides the expression up to its places. -/
namespace PhraseLang
open Text

/-- The characters that literals are made of. -/
def isLiteralChar (c : Char) : Bool :=
  c.isAlpha || c.isDigit || c == '.' || (Sigil.ofChar? c).isSome

/-- A text that no literal in front of it goes on with. -/
def StopsLiteral (rest : List Char) : Prop := ∀ c ∈ rest.head?, isLiteralChar c = false

/-- The kind of literal that begins with a character. -/
def literalKind (c : Char) : Kind :=
  if c.isAlpha then .word
  else if c.isDigit then .number
  else if c = Sigil.dollar.symbol then .constant
  else .binding

namespace Token

theorem bare_eq_of_text {t u : Token} (kind : t.kind = u.kind) (text : t.text = u.text) :
    t.bare = u.bare := by
  rw [t.bare_eq, u.bare_eq, kind, text]

variable {t u : Token}

theorem toList_literalText (t : Token) :
    (Expr.literalText t).toList = Lexeme.sigil t.kind ++ t.text.toList := by
  rw [Expr.literalText, Lexeme.sigil]
  cases t.kind.sigil? <;> simp

/-- A literal begins with a character that tells its kind, and all of its characters are those of
literals. -/
theorem exists_head_literal (writable : t.Writable) (literal : t.kind.isLiteral = true) :
    (∃ c cs, (Expr.literalText t).toList = c :: cs ∧ literalKind c = t.kind) ∧
      ∀ c ∈ (Expr.literalText t).toList, isLiteralChar c = true := by
  obtain ⟨kind, text, span⟩ := t
  rw [toList_literalText]
  cases kind with
  | word =>
    obtain ⟨⟨nonempty, letters⟩, -⟩ : IsPlainWord text := writable
    obtain ⟨c, cs, isText⟩ := List.exists_cons_of_ne_nil nonempty
    have letter : c.isAlpha = true := letters c (by simp [isText])
    refine ⟨⟨c, cs, isText, by simp [literalKind, letter]⟩, fun d hd => ?_⟩
    simp [isLiteralChar, letters d hd]
  | number =>
    have numeral : IsNumeral text := writable
    obtain ⟨c, whole, part, isText, digits, isFraction⟩ := numeral.exists_parts
    have digit := digits c List.mem_cons_self
    refine ⟨⟨c, whole ++ part, isText, ?_⟩, fun d hd => ?_⟩
    · simp [literalKind, isAlpha_of_isDigit digit, digit]
    · have hd : d ∈ text.toList := hd
      rw [isText, ← List.cons_append] at hd
      rcases List.mem_append.mp hd with hd | hd
      · simp [isLiteralChar, digits d hd]
      · cases part with
        | nil => cases hd
        | cons point fraction =>
          obtain ⟨rfl, -, behind⟩ := isFraction
          rcases List.mem_cons.mp hd with rfl | hd
          · rfl
          · simp [isLiteralChar, behind d hd]
  | constant | binding =>
    obtain ⟨-, letters⟩ : IsName text := writable
    refine ⟨⟨_, text.toList, rfl, rfl⟩, fun d hd => ?_⟩
    rcases List.mem_cons.mp hd with rfl | hd
    · rfl
    · simp [isLiteralChar, letters d hd]
  | _ => cases literal

/-- A literal with whatever does not go on with it is read back. -/
theorem literal_append_inj (writable : t.Writable) (writable' : u.Writable)
    (literal : t.kind.isLiteral = true) (literal' : u.kind.isLiteral = true)
    {rest rest' : List Char} (stops : StopsLiteral rest) (stops' : StopsLiteral rest')
    (same : (Expr.literalText t).toList ++ rest = (Expr.literalText u).toList ++ rest') :
    t.bare = u.bare ∧ rest = rest' := by
  obtain ⟨⟨c, cs, shown, kind⟩, all⟩ := exists_head_literal writable literal
  obtain ⟨⟨d, ds, shown', kind'⟩, all'⟩ := exists_head_literal writable' literal'
  have texts : (Expr.literalText t).toList = (Expr.literalText u).toList := by
    have taken := congrArg (List.takeWhile isLiteralChar) same
    rwa [takeWhile_stop all stops, takeWhile_stop all' stops'] at taken
  rw [texts] at same
  have heads : c = d := by
    rw [texts, shown'] at shown
    exact (List.cons.inj shown).1.symm
  have kinds : t.kind = u.kind := by rw [← kind, ← kind', heads]
  rw [toList_literalText, toList_literalText, kinds] at texts
  have bare := bare_eq_of_text kinds (String.toList_inj.mp (List.append_cancel_left texts))
  exact ⟨bare, List.append_cancel_left same⟩

end Token

namespace Expr

theorem toList_text_binary (left right : Expr) (op : Token) :
    (binary left op right).text.toList = '(' :: (op.text.toList ++ ' ' ::
      (left.text.toList ++ ' ' :: (right.text.toList ++ [')']))) := by
  simp [text]

/-- The operator and the operands of an operation that can be written. -/
structure WritableParts (left : Expr) (op : Token) (right : Expr) : Prop where
  operator : ∃ o, op.kind = .operator o ∧ op.text.toList = [o.symbol]
  left : left.Writable
  right : right.Writable

theorem Writable.parts {left right : Expr} {op : Token}
    (writable : (binary left op right).Writable) : WritableParts left op right := by
  obtain ⟨⟨⟨o, isOperator⟩, groupedLeft, groupedRight, -, -⟩, tokens⟩ := writable
  have inside : ∀ t ∈ left.tokens ++ op :: right.tokens, t.Writable := tokens
  have text : op.text = o.symbol.toString := by
    have here := inside op (by simp)
    rwa [Token.Writable, isOperator] at here
  refine ⟨⟨o, isOperator, by simp [text]⟩, ⟨groupedLeft, fun t ht => ?_⟩,
    ⟨groupedRight, fun t ht => ?_⟩⟩
  · exact inside t (List.mem_append_left _ ht)
  · exact inside t (List.mem_append_right _ (List.mem_cons_of_mem op ht))

theorem Writable.literal {t : Token} (writable : (literal t).Writable) :
    t.Writable ∧ t.kind.isLiteral = true :=
  ⟨writable.tokens t (List.mem_singleton.mpr rfl), writable.grouped⟩

/-- An operation begins with a parenthesis, and no literal does. -/
theorem Writable.literal_ne_binary {t op : Token} {left right : Expr} {rest rest' : List Char}
    (writable : (Expr.literal t).Writable) :
    (Expr.literal t).text.toList ++ rest ≠ (binary left op right).text.toList ++ rest' := by
  intro same
  obtain ⟨here, literal⟩ := writable.literal
  obtain ⟨⟨c, cs, shown, -⟩, all⟩ := Token.exists_head_literal here literal
  have isChar := all c (by simp [shown])
  rw [text, shown, toList_text_binary] at same
  rw [(List.cons.inj same).1] at isChar
  cases isChar

/-- The written form of an expression that is no array decides it, whatever stands behind. -/
theorem text_append_inj : ∀ {d e : Expr}, d.Writable → e.Writable →
    ∀ {rest rest' : List Char}, StopsLiteral rest → StopsLiteral rest' →
      d.text.toList ++ rest = e.text.toList ++ rest' → d.bare = e.bare ∧ rest = rest'
  | .literal t, .literal u, writable, writable', _, _, stops, stops', same => by
    obtain ⟨here, literal⟩ := writable.literal
    obtain ⟨here', literal'⟩ := writable'.literal
    obtain ⟨bare, behind⟩ := Token.literal_append_inj here here' literal literal' stops stops' same
    exact ⟨congrArg Expr.literal bare, behind⟩
  | .literal _, .binary .., writable, _, _, _, _, _, same =>
    absurd same writable.literal_ne_binary
  | .binary .., .literal _, _, writable', _, _, _, _, same =>
    absurd same.symm writable'.literal_ne_binary
  | .binary left op right, .binary left' op' right', writable, writable', _, _, _, _, same => by
    obtain ⟨⟨o, kind, symbol⟩, wLeft, wRight⟩ := writable.parts
    obtain ⟨⟨o', kind', symbol'⟩, wLeft', wRight'⟩ := writable'.parts
    rw [toList_text_binary, toList_text_binary, symbol, symbol'] at same
    simp only [List.cons_append, List.append_assoc, List.cons.injEq, true_and, List.nil_append]
      at same
    obtain ⟨sameSymbol, operands⟩ := same
    have sameOperator : o = o' := by
      have found := Operator.ofChar?_eq_some_iff.mpr sameSymbol
      rw [Operator.ofChar?_eq_some_iff.mpr rfl] at found
      exact Option.some.inj found
    have ops : op.bare = op'.bare := by
      apply Token.bare_eq_of_text
      · rw [kind, kind', sameOperator]
      · exact String.toList_inj.mp (by rw [symbol, symbol', sameOperator])
    obtain ⟨lefts, behindLeft⟩ :=
      text_append_inj wLeft wLeft' (head_stop rfl _) (head_stop rfl _) operands
    obtain ⟨rights, behindRight⟩ :=
      text_append_inj wRight wRight' (head_stop rfl _) (head_stop rfl _)
        (List.cons.inj behindLeft).2
    have whole : (binary left op right).bare = binary left.bare op.bare right.bare := rfl
    rw [whole, lefts, ops, rights]
    exact ⟨rfl, (List.cons.inj behindRight).2⟩
  | .array _, _, writable, _, _, _, _, _, _ => absurd writable.grouped id
  | _, .array _, _, writable', _, _, _, _, _ => absurd writable'.grouped id

theorem toList_restText_cons (e : Expr) (es : List Expr) :
    (text.restText (e :: es)).toList =
      ',' :: ' ' :: (e.text.toList ++ (text.restText es).toList) := by
  simp [text.restText]

theorem stopsLiteral_restText (es : List Expr) (rest : List Char) :
    StopsLiteral ((text.restText es).toList ++ ']' :: rest) := by
  cases es with
  | nil => exact head_stop rfl rest
  | cons e es =>
    rw [toList_restText_cons]
    exact head_stop rfl _

/-- The elements of an array behind the first are decided by their part of the written form. -/
theorem restText_append_inj {ds es : List Expr} (writable : ∀ e ∈ ds, e.Writable)
    (writable' : ∀ e ∈ es, e.Writable) {rest rest' : List Char}
    (same : (text.restText ds).toList ++ ']' :: rest =
      (text.restText es).toList ++ ']' :: rest') :
    ds.map bare = es.map bare ∧ rest = rest' := by
  induction ds generalizing es with
  | nil =>
    cases es with
    | nil => exact ⟨rfl, (List.cons.inj same).2⟩
    | cons e es =>
      rw [toList_restText_cons] at same
      cases (List.cons.inj same).1
  | cons d ds ih =>
    cases es with
    | nil =>
      rw [toList_restText_cons] at same
      cases (List.cons.inj same).1
    | cons e es =>
      obtain ⟨here, later⟩ := List.forall_mem_cons.mp writable
      obtain ⟨here', later'⟩ := List.forall_mem_cons.mp writable'
      rw [toList_restText_cons, toList_restText_cons] at same
      simp only [List.cons_append, List.append_assoc, List.cons.injEq, true_and] at same
      obtain ⟨first, behind⟩ := text_append_inj here here' (stopsLiteral_restText ds rest)
        (stopsLiteral_restText es rest') same
      obtain ⟨others, final⟩ := ih later later' behind
      exact ⟨by rw [List.map_cons, List.map_cons, first, others], final⟩

theorem toList_text_array (e : Expr) (es : List Expr) :
    (array (e :: es)).text.toList =
      '[' :: (e.text.toList ++ ((text.restText es).toList ++ [']'])) := by
  simp [text]

theorem bare_array (es : List Expr) : (array es).bare = array (es.map bare) := by
  rw [bare, relocate, relocateAll_eq_map]
  rfl

/-- No bracket opens the written form of an expression that is no array. -/
theorem Writable.ne_bracket {e : Expr} (writable : e.Writable) {rest rest' : List Char} :
    e.text.toList ++ rest ≠ '[' :: rest' := by
  intro same
  cases e with
  | literal t =>
    obtain ⟨here, literal⟩ := writable.literal
    obtain ⟨⟨c, cs, shown, -⟩, all⟩ := Token.exists_head_literal here literal
    have isChar := all c (by simp [shown])
    rw [text, shown] at same
    rw [(List.cons.inj same).1] at isChar
    cases isChar
  | binary left op right =>
    rw [toList_text_binary] at same
    cases (List.cons.inj same).1
  | array => exact writable.grouped

theorem Writable.value {e : Expr} (writable : e.Writable) : e.WritableValue := by
  cases e with
  | array => exact absurd writable.grouped id
  | _ => exact writable

theorem WritableValue.cases {e : Expr} (writable : e.WritableValue) :
    e.Writable ∨ ∃ first rest, e = .array (first :: rest) ∧ ∀ f ∈ first :: rest, f.Writable := by
  cases e with
  | array elements =>
    obtain ⟨size, all⟩ := writable
    cases elements with
    | nil => cases size
    | cons first rest => exact .inr ⟨first, rest, rfl, all⟩
  | _ => exact .inl writable

/-- The written form of what is assigned decides it. -/
theorem value_append_inj {d e : Expr} (writable : d.WritableValue) (writable' : e.WritableValue)
    {rest rest' : List Char} (stops : StopsLiteral rest) (stops' : StopsLiteral rest')
    (same : d.text.toList ++ rest = e.text.toList ++ rest') : d.bare = e.bare ∧ rest = rest' := by
  rcases writable.cases with single | ⟨first, others, rfl, all⟩
  · rcases writable'.cases with single' | ⟨first', others', rfl, -⟩
    · exact text_append_inj single single' stops stops' same
    · rw [toList_text_array] at same
      exact absurd same single.ne_bracket
  · rcases writable'.cases with single' | ⟨first', others', rfl, all'⟩
    · rw [toList_text_array] at same
      exact absurd same.symm single'.ne_bracket
    · obtain ⟨here, later⟩ := List.forall_mem_cons.mp all
      obtain ⟨here', later'⟩ := List.forall_mem_cons.mp all'
      rw [toList_text_array, toList_text_array] at same
      simp only [List.cons_append, List.append_assoc, List.cons.injEq, true_and,
        List.nil_append] at same
      obtain ⟨firsts, behind⟩ := text_append_inj here here' (stopsLiteral_restText others rest)
        (stopsLiteral_restText others' rest') same
      obtain ⟨more, final⟩ := restText_append_inj later later' behind
      rw [bare_array, bare_array, List.map_cons, List.map_cons, firsts, more]
      exact ⟨rfl, final⟩

end Expr

end PhraseLang
