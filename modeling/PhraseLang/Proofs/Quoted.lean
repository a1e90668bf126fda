import PhraseLang.Text.Quoted

/-! Quoted texts read back.
An escape tells where it ends and which character it stands for, so no two texts have one quoted
form. No line feed stands in a quoted text as it is. Which characters are escaped by their number
plays no part in that. -/
namespace PhraseLang.Text

/-- The digits of a number are below its base. -/
theorem exists_digit_of_mem_toDigits {b n : Nat} (base : 1 < b) {c : Char}
    (hc : c ∈ Nat.toDigits b n) : ∃ d < b, c = d.digitChar := by
  by_cases small : n < b
  · rw [Nat.toDigits_of_lt_base small, List.mem_singleton] at hc
    exact ⟨n, small, hc⟩
  · have large : b ≤ n := Nat.le_of_not_lt small
    have smaller : n / b < n := Nat.div_lt_self (by omega) base
    rw [Nat.toDigits_of_base_le base large] at hc
    rcases List.mem_append.mp hc with hc | hc
    · exact exists_digit_of_mem_toDigits base hc
    · exact ⟨n % b, Nat.mod_lt n (by omega), List.mem_singleton.mp hc⟩
termination_by n

def hexDigit (c : Char) : Nat :=
  if c.isDigit then c.toNat - '0'.toNat else c.toNat - 'a'.toNat + 10

def hexValue (cs : List Char) : Nat := cs.foldl (fun n c => 16 * n + hexDigit c) 0

theorem hexDigit_digitChar : ∀ d < 16, hexDigit d.digitChar = d := by decide

theorem digitChar_ne : ∀ d < 16, d.digitChar ≠ '}' ∧ d.digitChar ≠ '\n' := by decide

theorem hexValue_toDigits (n : Nat) : hexValue (Nat.toDigits 16 n) = n := by
  by_cases small : n < 16
  · rw [Nat.toDigits_of_lt_base small, hexValue, List.foldl_cons, hexDigit_digitChar n small]
    simp
  · have large : 16 ≤ n := Nat.le_of_not_lt small
    have smaller : n / 16 < n := Nat.div_lt_self (by omega) (by decide)
    have front := hexValue_toDigits (n / 16)
    rw [hexValue] at front
    rw [Nat.toDigits_of_base_le (by decide) large, hexValue, List.foldl_append, front,
      List.foldl_cons, List.foldl_nil, hexDigit_digitChar _ (Nat.mod_lt n (by decide))]
    exact Nat.div_add_mod n 16
termination_by n

/-- The character that a letter behind a backslash stands for. -/
def named : Char → Char
  | '0' => '\x00'
  | 't' => '\t'
  | 'n' => '\n'
  | 'r' => '\r'
  | c => c

/-- The character in front of an escaped text, and what is behind it. -/
def readEscaped : List Char → Option (Char × List Char)
  | [] => none
  | '\\' :: 'u' :: '{' :: cs =>
    some (Char.ofNat (hexValue (cs.takeWhile (· ≠ '}'))), (cs.dropWhile (· ≠ '}')).tail)
  | '\\' :: c :: cs => some (named c, cs)
  | c :: cs => some (c, cs)

/-- The escapes of a character. -/
inductive Escape (c : Char) : List Char → Prop where
  | bare : c ≠ '\\' → c ≠ '"' → c ≠ '\n' → Escape c [c]
  | named {x : Char} : named x = c → x ≠ 'u' → x ≠ '\n' → Escape c ['\\', x]
  | numbered : Escape c (['\\', 'u', '{'] ++ Nat.toDigits 16 c.toNat ++ ['}'])

theorem escape_escape (c : Char) : Escape c (escape c) := by
  unfold escape
  split
  · exact .named (x := '0') rfl (by decide) (by decide)
  · exact .named (x := 't') rfl (by decide) (by decide)
  · exact .named (x := 'n') rfl (by decide) (by decide)
  · exact .named (x := 'r') rfl (by decide) (by decide)
  · exact .named (x := '"') rfl (by decide) (by decide)
  · exact .named (x := '\\') rfl (by decide) (by decide)
  · rename_i noFeed _ noQuote noBackslash
    split
    · exact .numbered
    · exact .bare noBackslash noQuote noFeed

section
variable {c : Char} {cs : List Char}

theorem Escape.feed_not_mem (escape : Escape c cs) : '\n' ∉ cs := by
  intro inside
  cases escape with
  | bare _ _ noFeed => exact noFeed (List.mem_singleton.mp inside).symm
  | named _ _ noFeed =>
    rcases List.mem_cons.mp inside with same | inside
    · cases same
    · exact noFeed (List.mem_singleton.mp inside).symm
  | numbered =>
    rcases List.mem_append.mp inside with inside | inside
    · rcases List.mem_append.mp inside with inside | inside
      · simp at inside
      · obtain ⟨d, small, same⟩ := exists_digit_of_mem_toDigits (by decide) inside
        exact (digitChar_ne d small).2 same.symm
    · simp at inside

theorem Escape.exists_head (escape : Escape c cs) : ∃ x tail, cs = x :: tail ∧ x ≠ '"' := by
  cases escape with
  | bare _ noQuote _ => exact ⟨_, _, rfl, noQuote⟩
  | named | numbered => exact ⟨_, _, rfl, by decide⟩

/-- A number between braces ends at the first closing brace. -/
theorem readEscaped_number (n : Nat) (rest : List Char) :
    readEscaped ('\\' :: 'u' :: '{' :: (Nat.toDigits 16 n ++ '}' :: rest)) =
      some (Char.ofNat n, rest) := by
  have digits : ∀ d ∈ Nat.toDigits 16 n, (decide (d ≠ '}')) = true := by
    intro d hd
    obtain ⟨k, small, rfl⟩ := exists_digit_of_mem_toDigits (by decide) hd
    exact decide_eq_true (digitChar_ne k small).1
  have number : (Nat.toDigits 16 n ++ '}' :: rest).takeWhile (· ≠ '}') = Nat.toDigits 16 n := by
    rw [List.takeWhile_append_of_pos digits]
    simp
  have behind : (Nat.toDigits 16 n ++ '}' :: rest).dropWhile (· ≠ '}') = '}' :: rest := by
    rw [List.dropWhile_append_of_pos digits]
    simp
  rw [readEscaped, number, behind, hexValue_toDigits]
  rfl

theorem readEscaped_named {x : Char} (noNumber : x ≠ 'u') (rest : List Char) :
    readEscaped ('\\' :: x :: rest) = some (named x, rest) := by
  rw [readEscaped]
  rintro _ rfl
  exact absurd rfl noNumber

theorem readEscaped_bare (noBackslash : c ≠ '\\') (rest : List Char) :
    readEscaped (c :: rest) = some (c, rest) := by
  rw [readEscaped]
  · exact fun _ same => absurd same noBackslash
  · exact fun _ _ same => absurd same noBackslash

theorem Escape.readEscaped (escape : Escape c cs) (rest : List Char) :
    readEscaped (cs ++ rest) = some (c, rest) := by
  cases escape with
  | bare noBackslash _ _ => exact readEscaped_bare noBackslash rest
  | named isNamed noNumber _ => exact isNamed ▸ readEscaped_named noNumber rest
  | numbered =>
    have number := readEscaped_number c.toNat rest
    rw [Char.ofNat_toNat] at number
    simpa using number

end

/-- Two escaped texts with a quote behind each are the same only if the texts are. -/
theorem eq_of_escaped {s t x y : List Char}
    (same : s.flatMap escape ++ '"' :: x = t.flatMap escape ++ '"' :: y) : s = t := by
  induction s generalizing t with
  | nil =>
    cases t with
    | nil => rfl
    | cons d t =>
      obtain ⟨h, tail, begins, noQuote⟩ := (escape_escape d).exists_head
      rw [List.flatMap_cons, begins] at same
      exact absurd (List.cons.inj same).1.symm noQuote
  | cons c s ih =>
    cases t with
    | nil =>
      obtain ⟨h, tail, begins, noQuote⟩ := (escape_escape c).exists_head
      rw [List.flatMap_cons, begins] at same
      exact absurd (List.cons.inj same).1 noQuote
    | cons d t =>
      rw [List.flatMap_cons, List.flatMap_cons, List.append_assoc, List.append_assoc] at same
      have read := (escape_escape c).readEscaped (s.flatMap escape ++ '"' :: x)
      rw [same, (escape_escape d).readEscaped] at read
      obtain ⟨rfl, behind⟩ := Prod.mk.inj (Option.some.inj read)
      rw [ih behind.symm]

theorem quoted_inj {s t : String} (same : quoted s = quoted t) : s = t := by
  have inside := (List.cons.inj (String.ofList_injective same)).2
  exact String.toList_inj.mp (eq_of_escaped inside)

theorem feed_not_mem_quoted (s : String) : '\n' ∉ (quoted s).toList := by
  rw [quoted, String.toList_ofList]
  intro inside
  rcases List.mem_append.mp inside with inside | inside
  · rcases List.mem_cons.mp inside with same | inside
    · cases same
    · obtain ⟨c, _, inside⟩ := List.mem_flatMap.mp inside
      exact (escape_escape c).feed_not_mem inside
  · simp at inside

end PhraseLang.Text
