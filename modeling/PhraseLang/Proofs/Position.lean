import Mathlib.Algebra.GroupWithZero.Nat
import Mathlib.Data.List.Induction
import Mathlib.Order.Bounds.Basic
import PhraseLang.Proofs.Tiling
import PhraseLang.Text.Position

/-! Positions in a text.
A line and a column stand for one place between two characters: the lines above with their line
feeds, and the characters in front on the line, fill the text up to there. A later place has a later
position. The same position is found on byte offsets, by searching for the line feeds on both sides,
and no cut on that way is out of order, outside of the text or inside a character. -/
namespace PhraseLang.Text

/-- The last place between two characters that is not above an offset. -/
def settled (source : List Char) (offset : Nat) : Nat := byteLength (takeBytes offset source)

/-- The lines of a text are what its line feeds separate. -/
def lines (source : List Char) : List (List Char) := source.splitOn '\n'

/-- What a position says about the place it stands for. -/
structure Position.Tells (source : List Char) (p : Position) (place : Nat) : Prop where
  line_pos : 0 < p.line
  column_pos : 0 < p.column
  text : (lines source)[p.line - 1]? = some p.text.toList
  column_le : p.column - 1 ≤ p.text.toList.length
  place : (((lines source).take (p.line - 1)).map byteLength).sum + (p.line - 1) +
    byteLength (p.text.toList.take (p.column - 1)) = place

/-- Further up, or further left on the same line. -/
def Position.Before (p q : Position) : Prop :=
  p.line < q.line ∨ p.line = q.line ∧ p.column < q.column

def isBoundary (source : List Char) (offset : Nat) : Bool := settled source offset == offset

/-- Steps back to the next place between two characters; none if that were in front of the text. -/
def stepBack? (source : List Char) : Nat → Option Nat
  | 0 => if isBoundary source 0 then some 0 else none
  | n + 1 => if isBoundary source (n + 1) then some (n + 1) else stepBack? source n

/-- The characters between two offsets; none if the offsets are out of order, outside of the text or
inside a character. -/
def cut? (source : List Char) (start stop : Nat) : Option (List Char) :=
  if start ≤ stop ∧ isBoundary source start ∧ isBoundary source stop then
    some (slice source start stop)
  else none

/-- Where the first line feed of a text begins. -/
def firstFeed? : List Char → Option Nat
  | [] => none
  | c :: cs => if c = '\n' then some 0 else (firstFeed? cs).map (c.utf8Size + ·)

/-- Where the last line feed of a text begins. -/
def lastFeed? : List Char → Option Nat
  | [] => none
  | c :: cs =>
    match lastFeed? cs with
    | some i => some (c.utf8Size + i)
    | none => if c = '\n' then some 0 else none

/-- The position of an offset, found on byte offsets with every cut checked. -/
def locate? (source : List Char) (offset : Nat) : Option Position := do
  let here ← stepBack? source (min offset (byteLength source))
  let before ← cut? source 0 here
  let behind ← cut? source here (byteLength source)
  let start := (lastFeed? before).elim 0 (· + 1)
  let stop := (firstFeed? behind).elim (byteLength source) (here + ·)
  let above ← cut? source 0 start
  let left ← cut? source start here
  let text ← cut? source start stop
  return ⟨above.count '\n' + 1, left.length + 1, String.ofList text⟩

section
variable {source : List Char} {m n : Nat}

theorem settled_append (a b : List Char) : settled (a ++ b) (byteLength a) = byteLength a := by
  rw [settled, takeBytes_byteLength_append]

theorem byteLength_le_of_prefix {a b : List Char} (h : a <+: b) : byteLength a ≤ byteLength b := by
  obtain ⟨rest, rfl⟩ := h
  rw [byteLength_append]
  exact Nat.le_add_right _ _

theorem settled_mono (source : List Char) (h : m ≤ n) : settled source m ≤ settled source n :=
  byteLength_le_of_prefix (takeBytes_front h source)

theorem settled_le (source : List Char) (n : Nat) : settled source n ≤ n :=
  byteLength_takeBytes_le n source

theorem isBoundary_settled (source : List Char) (n : Nat) : IsBoundary source (settled source n) :=
  ⟨takeBytes n source, dropBytes n source, (takeBytes_append_dropBytes n source).symm, rfl⟩

theorem settled_eq_iff : settled source n = n ↔ IsBoundary source n := by
  constructor
  · intro same
    exact same ▸ isBoundary_settled source n
  · rintro ⟨front, rest, rfl, rfl⟩
    exact settled_append front rest

theorem settled_isGreatest (source : List Char) (n : Nat) :
    IsGreatest {b | IsBoundary source b ∧ b ≤ min n (byteLength source)} (settled source n) := by
  refine ⟨⟨isBoundary_settled source n, Nat.le_min.mpr ⟨settled_le source n, ?_⟩⟩, ?_⟩
  · exact byteLength_le_of_prefix ⟨_, takeBytes_append_dropBytes n source⟩
  · rintro b ⟨boundary, below⟩
    rw [← settled_eq_iff.mpr boundary]
    exact settled_mono source (Nat.le_min.mp below).1

theorem settled_min (source : List Char) (n : Nat) :
    settled source (min n (byteLength source)) = settled source n := by
  have same : {b | IsBoundary source b ∧ b ≤ min (min n (byteLength source)) (byteLength source)} =
      {b | IsBoundary source b ∧ b ≤ min n (byteLength source)} := by
    rw [Nat.min_assoc, Nat.min_self]
  have first := settled_isGreatest source (min n (byteLength source))
  rw [same] at first
  exact first.unique (settled_isGreatest source n)

/-- What stands in front of an offset is decided by the place it stands for. -/
theorem takeBytes_settled (source : List Char) (n : Nat) :
    takeBytes (settled source n) source = takeBytes n source := by
  have cut := takeBytes_byteLength_append (takeBytes n source) (dropBytes n source)
  rwa [takeBytes_append_dropBytes] at cut

theorem dropBytes_settled (source : List Char) (n : Nat) :
    dropBytes (settled source n) source = dropBytes n source := by
  have cut := dropBytes_byteLength_append (takeBytes n source) (dropBytes n source)
  rwa [takeBytes_append_dropBytes] at cut

end

section
variable {cs : List Char}

theorem feed_not_mem_lastLine (cs : List Char) : '\n' ∉ lastLine cs := by
  intro inside
  simpa using List.all_eq_true.mp List.all_takeWhile _ (List.mem_reverse.mp inside)

theorem feed_not_mem_firstLine (cs : List Char) : '\n' ∉ firstLine cs := by
  intro inside
  simpa using List.all_eq_true.mp List.all_takeWhile _ inside

theorem lastLine_concat (cs : List Char) (c : Char) :
    lastLine (cs ++ [c]) = if c = '\n' then [] else lastLine cs ++ [c] := by
  by_cases feed : c = '\n' <;> simp [lastLine, feed]

/-- Lines with a line feed behind each. -/
def ended (ls : List (List Char)) : List Char := ls.flatMap (· ++ ['\n'])

theorem ended_concat (ls : List (List Char)) (l : List Char) :
    ended (ls ++ [l]) = ended ls ++ (l ++ ['\n']) := by
  simp [ended]

theorem exists_above (before : List Char) :
    ∃ above : List (List Char),
      (∀ l ∈ above, '\n' ∉ l) ∧ before = ended above ++ lastLine before := by
  induction before using List.reverseRecOn with
  | nil => exact ⟨[], by simp, rfl⟩
  | append_singleton cs c ih =>
    obtain ⟨above, free, same⟩ := ih
    rw [lastLine_concat]
    by_cases feed : c = '\n'
    · refine ⟨above ++ [lastLine cs], ?_, ?_⟩
      · intro l hl
        rcases List.mem_append.mp hl with hl | hl
        · exact free l hl
        · exact List.mem_singleton.mp hl ▸ feed_not_mem_lastLine cs
      · rw [if_pos feed, List.append_nil, ended_concat, ← List.append_assoc, ← same, feed]
    · refine ⟨above, free, ?_⟩
      rw [if_neg feed, ← List.append_assoc, ← same]

theorem lines_ended {ls : List (List Char)} (free : ∀ l ∈ ls, '\n' ∉ l) (rest : List Char) :
    lines (ended ls ++ rest) = ls ++ lines rest := by
  induction ls with
  | nil => rfl
  | cons l ls ih =>
    obtain ⟨here, later⟩ := List.forall_mem_cons.mp free
    have cut : ended (l :: ls) ++ rest = l ++ '\n' :: (ended ls ++ rest) := by simp [ended]
    rw [cut, lines, List.splitOn_append_cons_self_of_not_mem here, List.cons_append]
    exact congrArg (l :: ·) (ih later)

theorem count_ended {ls : List (List Char)} (free : ∀ l ∈ ls, '\n' ∉ l) :
    (ended ls).count '\n' = ls.length := by
  induction ls with
  | nil => rfl
  | cons l ls ih =>
    obtain ⟨here, later⟩ := List.forall_mem_cons.mp free
    have cut : ended (l :: ls) = l ++ '\n' :: ended ls := by simp [ended]
    rw [cut, List.count_append, List.count_eq_zero.mpr here, List.count_cons_self, ih later]
    simp

theorem byteLength_ended (ls : List (List Char)) :
    byteLength (ended ls) = (ls.map byteLength).sum + ls.length := by
  have feed : byteLength ['\n'] = 1 := rfl
  induction ls with
  | nil => rfl
  | cons l ls ih =>
    have cut : ended (l :: ls) = l ++ ['\n'] ++ ended ls := rfl
    rw [cut, byteLength_append, byteLength_append, ih, feed, List.map_cons, List.sum_cons,
      List.length_cons]
    omega

theorem exists_below (behind : List Char) :
    ∃ below, behind = firstLine behind ++ below ∧ ∀ c ∈ below.head?, c = '\n' := by
  refine ⟨_, List.takeWhile_append_dropWhile.symm, fun c first => ?_⟩
  simpa using head_dropWhile _ behind c first

theorem lines_line {l below : List Char} (free : '\n' ∉ l) (feed : ∀ c ∈ below.head?, c = '\n') :
    ∃ more, lines (l ++ below) = l :: more := by
  cases below with
  | nil =>
    rw [List.append_nil]
    exact ⟨[], List.splitOn_eq_singleton free⟩
  | cons c cs =>
    obtain rfl := feed c rfl
    exact ⟨lines cs, List.splitOn_append_cons_self_of_not_mem free cs⟩

/-- A text around a place: the lines above, the two parts of its line, and what is behind. -/
structure Around (source : List Char) (offset : Nat) where
  above : List (List Char)
  left : List Char
  right : List Char
  below : List Char
  free : ∀ l ∈ above, '\n' ∉ l
  line : '\n' ∉ left ++ right
  feed : ∀ c ∈ below.head?, c = '\n'
  before : takeBytes offset source = ended above ++ left
  behind : dropBytes offset source = right ++ below
  isLeft : lastLine (takeBytes offset source) = left
  isRight : firstLine (dropBytes offset source) = right

theorem exists_around (source : List Char) (offset : Nat) : Nonempty (Around source offset) := by
  obtain ⟨above, free, before⟩ := exists_above (takeBytes offset source)
  obtain ⟨below, behind, feed⟩ := exists_below (dropBytes offset source)
  refine ⟨⟨above, _, _, below, free, ?_, feed, before, behind, rfl, rfl⟩⟩
  intro inside
  rcases List.mem_append.mp inside with inside | inside
  · exact feed_not_mem_lastLine _ inside
  · exact feed_not_mem_firstLine _ inside

namespace Around
variable {source : List Char} {offset : Nat} (a : Around source offset)
include a

theorem source_eq : source = ended a.above ++ (a.left ++ a.right) ++ a.below := by
  have cut := takeBytes_append_dropBytes offset source
  rw [a.before, a.behind] at cut
  simp [← cut]

theorem settled_eq : settled source offset = byteLength (ended a.above) + byteLength a.left := by
  rw [settled, a.before, byteLength_append]

theorem exists_lines : ∃ more, lines source = a.above ++ (a.left ++ a.right) :: more := by
  obtain ⟨more, rest⟩ := lines_line a.line a.feed
  refine ⟨more, ?_⟩
  rw [← rest, ← lines_ended a.free, ← List.append_assoc, ← a.source_eq]

theorem count_before : (takeBytes offset source).count '\n' = a.above.length := by
  have none : a.left.count '\n' = 0 :=
    List.count_eq_zero.mpr fun inside => a.line (List.mem_append_left _ inside)
  rw [a.before, List.count_append, count_ended a.free, none, Nat.add_zero]

end Around

end

theorem position_eq (source : String) (offset : Nat) (a : Around source.toList offset) :
    position source offset =
      ⟨a.above.length + 1, a.left.length + 1, String.ofList (a.left ++ a.right)⟩ := by
  rw [position, lineColumn_eq, lineAround, a.count_before, a.isLeft, a.isRight]

theorem position_tells (source : String) (offset : Nat) :
    (position source offset).Tells source.toList (settled source.toList offset) := by
  obtain ⟨a⟩ := exists_around source.toList offset
  obtain ⟨more, whole⟩ := a.exists_lines
  rw [position_eq source offset a]
  refine ⟨Nat.succ_pos _, Nat.succ_pos _, ?_, ?_, ?_⟩
  · simp [whole]
  · simp
  · simp [whole, a.settled_eq, byteLength_ended]

section
variable {source : String} {m n : Nat}

theorem before_advance (place : Nat × Nat) (c : Char) :
    place.1 < (advance place c).1 ∨
      place.1 = (advance place c).1 ∧ place.2 < (advance place c).2 := by
  unfold advance
  split
  · exact .inl (Nat.lt_succ_self _)
  · exact .inr ⟨rfl, Nat.lt_succ_self _⟩

/-- Every character leads to a later place. -/
theorem before_foldl (place : Nat × Nat) (c : Char) (cs : List Char) :
    place.1 < ((c :: cs).foldl advance place).1 ∨
      place.1 = ((c :: cs).foldl advance place).1 ∧
        place.2 < ((c :: cs).foldl advance place).2 := by
  have first := before_advance place c
  rw [List.foldl_cons]
  cases cs with
  | nil => exact first
  | cons d cs =>
    have later := before_foldl (advance place c) d cs
    omega

theorem before_of_settled_lt (h : settled source.toList m < settled source.toList n) :
    (position source m).Before (position source n) := by
  have ordered : m ≤ n := by
    by_contra after
    exact Nat.not_le_of_lt h (settled_mono _ (Nat.le_of_not_le after))
  obtain ⟨rest, longer⟩ := takeBytes_front ordered source.toList
  cases rest with
  | nil =>
    rw [List.append_nil] at longer
    rw [settled, settled, longer] at h
    exact absurd h (Nat.lt_irrefl _)
  | cons c cs =>
    have later := before_foldl (lineColumn source.toList m) c cs
    rw [lineColumn, ← List.foldl_append, longer] at later
    exact later

theorem position_settled (source : String) (n : Nat) :
    position source (settled source.toList n) = position source n := by
  simp only [position, lineColumn, lineAround, takeBytes_settled, dropBytes_settled]

theorem Position.Before.asymm {p q : Position} (h : p.Before q) : ¬ q.Before p := by
  unfold Before at h ⊢
  omega

theorem Position.Before.ne {p q : Position} (h : p.Before q) : p ≠ q := by
  rintro rfl
  exact h.asymm h

theorem position_before_iff :
    (position source m).Before (position source n) ↔
      settled source.toList m < settled source.toList n := by
  refine ⟨fun before => ?_, before_of_settled_lt⟩
  rcases Nat.lt_trichotomy (settled source.toList m) (settled source.toList n) with h | h | h
  · exact h
  · rw [← position_settled source m, h, position_settled] at before
    exact absurd rfl before.ne
  · exact absurd (before_of_settled_lt h) before.asymm

theorem position_eq_iff :
    position source m = position source n ↔ settled source.toList m = settled source.toList n := by
  constructor
  · intro same
    by_contra different
    rcases Nat.lt_or_gt_of_ne different with h | h
    · exact (before_of_settled_lt h).ne same
    · exact (before_of_settled_lt h).ne same.symm
  · intro same
    rw [← position_settled source m, same, position_settled]

theorem position_grows (h : m ≤ n) :
    position source m = position source n ∨ (position source m).Before (position source n) := by
  rcases Nat.lt_or_eq_of_le (settled_mono source.toList h) with less | same
  · exact .inr (position_before_iff.mpr less)
  · exact .inl (position_eq_iff.mpr same)

end

section
variable {source : List Char}

theorem stepBack?_eq (source : List Char) (n : Nat) :
    stepBack? source n = some (settled source n) := by
  induction n with
  | zero =>
    have here : settled source 0 = 0 := Nat.le_zero.mp (settled_le source 0)
    simp [stepBack?, isBoundary, here]
  | succ n ih =>
    by_cases here : settled source (n + 1) = n + 1
    · simp [stepBack?, isBoundary, here]
    · -- No boundary lies between the two offsets, so they stand for the same place.
      have below : settled source (n + 1) ≤ n := by
        have bound := settled_le source (n + 1)
        omega
      have back := settled_mono source below
      rw [settled_eq_iff.mpr (isBoundary_settled source (n + 1))] at back
      have same := Nat.le_antisymm back (settled_mono source (Nat.le_succ n))
      rw [stepBack?, isBoundary, beq_false_of_ne here, ih, same]
      rfl

theorem cut?_eq {a b c : List Char} {start stop : Nat} (whole : source = a ++ b ++ c)
    (isStart : start = byteLength a) (isStop : stop = start + byteLength b) :
    cut? source start stop = some b := by
  subst isStop isStart whole
  have atStart : settled (a ++ b ++ c) (byteLength a) = byteLength a := by
    rw [List.append_assoc, settled_append]
  have atStop := settled_append (a ++ b) c
  rw [byteLength_append] at atStop
  rw [cut?, if_pos ⟨Nat.le_add_right _ _, beq_iff_eq.mpr atStart, beq_iff_eq.mpr atStop⟩,
    slice_append]

theorem firstFeed?_eq (cs : List Char) :
    (firstFeed? cs).getD (byteLength cs) = byteLength (firstLine cs) := by
  induction cs with
  | nil => rfl
  | cons c cs ih =>
    by_cases feed : c = '\n'
    · simp [firstFeed?, firstLine, feed]
    · have line : firstLine (c :: cs) = c :: firstLine cs := by simp [firstLine, feed]
      rw [firstFeed?, if_neg feed, line, byteLength_cons, byteLength_cons, ← ih]
      cases firstFeed? cs <;> rfl

theorem lastFeed?_concat (cs : List Char) (c : Char) :
    lastFeed? (cs ++ [c]) = if c = '\n' then some (byteLength cs) else lastFeed? cs := by
  induction cs with
  | nil => rfl
  | cons d cs ih =>
    rw [List.cons_append, lastFeed?, ih, lastFeed?]
    by_cases feed : c = '\n' <;> simp [feed]

theorem lastFeed?_eq (cs : List Char) :
    (lastFeed? cs).elim 0 (· + 1) + byteLength (lastLine cs) = byteLength cs := by
  induction cs using List.reverseRecOn with
  | nil => rfl
  | append_singleton cs c ih =>
    rw [lastFeed?_concat, lastLine_concat, byteLength_append]
    by_cases feed : c = '\n'
    · rw [if_pos feed, if_pos feed, feed]
      rfl
    · rw [if_neg feed, if_neg feed, byteLength_append, ← ih, Nat.add_assoc]

namespace Around
variable {offset : Nat} (a : Around source offset)
include a

theorem start_eq :
    (lastFeed? (ended a.above ++ a.left)).elim 0 (· + 1) = byteLength (ended a.above) := by
  have found := lastFeed?_eq (takeBytes offset source)
  rwa [a.isLeft, a.before, byteLength_append, Nat.add_right_cancel_iff] at found

theorem stop_eq :
    (firstFeed? (a.right ++ a.below)).elim (byteLength source)
        (byteLength (ended a.above) + byteLength a.left + ·) =
      byteLength (ended a.above) + byteLength (a.left ++ a.right) := by
  have found := firstFeed?_eq (dropBytes offset source)
  rw [a.isRight, a.behind] at found
  have size := congrArg byteLength a.source_eq
  simp only [byteLength_append] at size found ⊢
  cases feedAt : firstFeed? (a.right ++ a.below) with
  | none =>
    rw [feedAt] at found
    simp only [Option.getD_none, Option.elim_none] at found ⊢
    omega
  | some i =>
    rw [feedAt] at found
    simp only [Option.getD_some, Option.elim_some] at found ⊢
    omega

end Around

end

/-- No step of the search on byte offsets fails, and it finds the position. -/
theorem locate?_eq (source : String) (offset : Nat) :
    locate? source.toList offset = some (position source offset) := by
  obtain ⟨a⟩ := exists_around source.toList offset
  have whole := a.source_eq
  have here := stepBack?_eq source.toList (min offset (byteLength source.toList))
  rw [settled_min, a.settled_eq] at here
  have before : cut? source.toList 0 (byteLength (ended a.above) + byteLength a.left) =
      some (ended a.above ++ a.left) :=
    cut?_eq (a := []) (c := a.right ++ a.below) (by simp [whole]) rfl (by simp)
  have behind : cut? source.toList (byteLength (ended a.above) + byteLength a.left)
      (byteLength source.toList) = some (a.right ++ a.below) :=
    cut?_eq (a := ended a.above ++ a.left) (c := []) (by simp [whole]) (by simp)
      (by simp [whole, Nat.add_assoc])
  have above : cut? source.toList 0 (byteLength (ended a.above)) = some (ended a.above) :=
    cut?_eq (a := []) (c := a.left ++ a.right ++ a.below) (by simp [whole]) rfl (by simp)
  have left : cut? source.toList (byteLength (ended a.above))
      (byteLength (ended a.above) + byteLength a.left) = some a.left :=
    cut?_eq (c := a.right ++ a.below) (by simp [whole]) rfl rfl
  have line : cut? source.toList (byteLength (ended a.above))
      (byteLength (ended a.above) + byteLength (a.left ++ a.right)) = some (a.left ++ a.right) :=
    cut?_eq whole rfl rfl
  simp only [locate?, here, before, behind, a.start_eq, a.stop_eq, above, left, line,
    Option.bind_eq_bind, Option.bind_some, count_ended a.free, position_eq source offset a]
  rfl

/-- The position of an offset is exact. It tells the last place between two characters that is not
above the offset, two offsets have one position only if they stand for one place, and later places
come later. Its computation on byte offsets never cuts where it may not. -/
theorem position_exact (source : String) (m n : Nat) :
    IsGreatest {b | IsBoundary source.toList b ∧ b ≤ min m (byteLength source.toList)}
      (settled source.toList m) ∧
    (position source m).Tells source.toList (settled source.toList m) ∧
    (position source m = position source n ↔
      settled source.toList m = settled source.toList n) ∧
    ((position source m).Before (position source n) ↔
      settled source.toList m < settled source.toList n) ∧
    (position source m = position source (m + n) ∨
      (position source m).Before (position source (m + n))) ∧
    locate? source.toList m = some (position source m) :=
  ⟨settled_isGreatest source.toList m, position_tells source m, position_eq_iff,
    position_before_iff, position_grows (Nat.le_add_right m n), locate?_eq source m⟩

end PhraseLang.Text
