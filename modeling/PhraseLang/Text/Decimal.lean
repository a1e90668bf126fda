/-! Unsigned decimal numerals of 64 bits.
A numeral is an optional plus sign and at least one digit; leading zeros are allowed, and a value
of 2^64 or more is refused. -/
namespace PhraseLang.Text

/-- The value of a row of digits, the most significant one first. -/
def digitsValue (cs : List Char) : Nat := cs.foldl (fun n c => 10 * n + (c.toNat - '0'.toNat)) 0

def unsigned : List Char → List Char
  | '+' :: cs => cs
  | cs => cs

def readUInt64? (text : String) : Option UInt64 :=
  let digits := unsigned text.toList
  if digits ≠ [] ∧ digits.all Char.isDigit ∧ digitsValue digits < UInt64.size then
    some (digitsValue digits).toUInt64
  else none

theorem isDigit_of_mem_toString {n : Nat} {c : Char} (hc : c ∈ (toString n).toList) :
    c.isDigit = true := by
  rw [Nat.toString_eq_repr, Nat.toList_repr] at hc
  exact Nat.isDigit_of_mem_toDigits (by decide) (by decide) hc

/-- A number of 64 bits is read back from its numeral. -/
theorem readUInt64?_toString (count : UInt64) :
    readUInt64? (toString count.toNat) = some count := by
  have digits : ∀ c ∈ Nat.toDigits 10 count.toNat, c.isDigit = true :=
    fun c hc => Nat.isDigit_of_mem_toDigits (by decide) (by decide) hc
  have value : digitsValue (Nat.toDigits 10 count.toNat) = count.toNat :=
    Nat.ofDigitChars_ten_toDigits
  have bare : unsigned (Nat.toDigits 10 count.toNat) = Nat.toDigits 10 count.toNat := by
    unfold unsigned
    split
    · rename_i rest isSigned
      have digit := digits '+' (by rw [isSigned]; exact List.mem_cons_self)
      cases digit
    · rfl
  have allDigits : (Nat.toDigits 10 count.toNat).all Char.isDigit = true :=
    List.all_eq_true.mpr digits
  have below : count.toNat < UInt64.size := UInt64.toNat_lt_size count
  rw [readUInt64?, Nat.toString_eq_repr, Nat.toList_repr]
  simp only [bare, value]
  rw [if_pos ⟨Nat.toDigits_ne_nil, allDigits, below⟩]
  simp

end PhraseLang.Text
