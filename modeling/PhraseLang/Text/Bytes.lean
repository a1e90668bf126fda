/-! Texts measured in bytes of UTF-8.
A text is a list of characters; an offset counts bytes. `takeBytes` and `dropBytes` cut a text at
the last character boundary that is not above the offset, so a cut never splits a character. -/
namespace PhraseLang.Text

def byteLength (cs : List Char) : Nat := cs.foldr (fun c n => c.utf8Size + n) 0

/-- The longest front part of at most `n` bytes. -/
def takeBytes : Nat → List Char → List Char
  | _, [] => []
  | n, c :: cs => if c.utf8Size ≤ n then c :: takeBytes (n - c.utf8Size) cs else []

def dropBytes : Nat → List Char → List Char
  | _, [] => []
  | n, c :: cs => if c.utf8Size ≤ n then dropBytes (n - c.utf8Size) cs else c :: cs

@[simp] theorem byteLength_nil : byteLength [] = 0 := rfl

@[simp] theorem byteLength_cons (c : Char) (cs : List Char) :
    byteLength (c :: cs) = c.utf8Size + byteLength cs := rfl

@[simp] theorem byteLength_append (a b : List Char) :
    byteLength (a ++ b) = byteLength a + byteLength b := by
  induction a with
  | nil => simp
  | cons c a ih => simp [ih, Nat.add_assoc]

theorem byteLength_eq_zero {cs : List Char} : byteLength cs = 0 ↔ cs = [] := by
  cases cs with
  | nil => simp
  | cons c cs =>
    have := c.utf8Size_pos
    simp
    omega

theorem takeBytes_append_dropBytes (n : Nat) (cs : List Char) :
    takeBytes n cs ++ dropBytes n cs = cs := by
  induction cs generalizing n with
  | nil => rfl
  | cons c cs ih => by_cases h : c.utf8Size ≤ n <;> simp [takeBytes, dropBytes, h, ih]

theorem byteLength_takeBytes_le (n : Nat) (cs : List Char) : byteLength (takeBytes n cs) ≤ n := by
  induction cs generalizing n with
  | nil => simp [takeBytes]
  | cons c cs ih =>
    by_cases h : c.utf8Size ≤ n
    · have := ih (n - c.utf8Size)
      simp only [takeBytes, h, if_true, byteLength_cons]
      omega
    · simp [takeBytes, h]

theorem takeBytes_byteLength_append (a b : List Char) : takeBytes (byteLength a) (a ++ b) = a := by
  induction a with
  | nil =>
    cases b with
    | nil => rfl
    | cons c b =>
      have := c.utf8Size_pos
      simp [takeBytes]
      omega
  | cons c a ih => simp [takeBytes, ih]

theorem dropBytes_byteLength_append (a b : List Char) : dropBytes (byteLength a) (a ++ b) = b := by
  have h := takeBytes_append_dropBytes (byteLength a) (a ++ b)
  rw [takeBytes_byteLength_append] at h
  exact List.append_cancel_left h

/-- The characters that a span covers, both ends taken down to character boundaries. -/
def slice (cs : List Char) (start stop : Nat) : List Char := dropBytes start (takeBytes stop cs)

theorem slice_append (a b c : List Char) :
    slice (a ++ b ++ c) (byteLength a) (byteLength a + byteLength b) = b := by
  rw [slice, ← byteLength_append, takeBytes_byteLength_append, dropBytes_byteLength_append]

theorem takeBytes_front {m n : Nat} (h : m ≤ n) (cs : List Char) :
    takeBytes m cs <+: takeBytes n cs := by
  induction cs generalizing m n with
  | nil => exact List.prefix_rfl
  | cons c cs ih =>
    rw [takeBytes, takeBytes]
    split
    · rw [if_pos (by omega)]
      exact List.cons_prefix_cons.mpr ⟨rfl, ih (by omega)⟩
    · exact List.nil_prefix

theorem dropBytes_front (n : Nat) {a b : List Char} (h : a <+: b) :
    dropBytes n a <+: dropBytes n b := by
  induction a generalizing b n with
  | nil => exact List.nil_prefix
  | cons c a ih =>
    obtain ⟨rest, rfl⟩ := h
    rw [List.cons_append, dropBytes, dropBytes]
    split
    · exact ih _ (List.prefix_append a rest)
    · exact List.prefix_append (c :: a) rest

theorem dropBytes_back {m n : Nat} (h : m ≤ n) (cs : List Char) :
    dropBytes n cs <:+ dropBytes m cs := by
  induction cs generalizing m n with
  | nil => exact List.suffix_rfl
  | cons c cs ih =>
    by_cases fits : c.utf8Size ≤ m
    · rw [dropBytes, dropBytes, if_pos fits, if_pos (by omega)]
      exact ih (by omega)
    · have whole : dropBytes m (c :: cs) = c :: cs := by rw [dropBytes, if_neg fits]
      rw [whole]
      exact ⟨_, takeBytes_append_dropBytes n (c :: cs)⟩

/-- A span that stops earlier cuts out a front part, one that starts later the rest. -/
theorem slice_front (cs : List Char) (start : Nat) {m n : Nat} (h : m ≤ n) :
    slice cs start m <+: slice cs start n := dropBytes_front start (takeBytes_front h cs)

theorem slice_back (cs : List Char) (stop : Nat) {m n : Nat} (h : m ≤ n) :
    slice cs n stop <:+ slice cs m stop := dropBytes_back h (takeBytes stop cs)

end PhraseLang.Text
