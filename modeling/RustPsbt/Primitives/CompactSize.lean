import RustPsbt.Primitives.Bytes

/-!
# Compact sizes

The variable-length numbers that delimit keys and values: one byte, or a marker
byte and two, four or eight little-endian bytes, always in the shortest form.

Main results:

- Theorem `readCompactSize_eq_some`: reading takes exactly the shortest form.
- Theorem `compactSize_append_inj`: no form is a prefix of another.
-/

namespace RustPsbt

/-- The compact size of a number below `2 ^ 64`. -/
def compactSize (n : Nat) : Bytes :=
  if n < 0xfd then [UInt8.ofNat n]
  else if n < 2 ^ 16 then 0xfd :: leBytes 2 n
  else if n < 2 ^ 32 then 0xfe :: leBytes 4 n
  else 0xff :: leBytes 8 n

/-- The largest length and the largest count that decoders take by default. -/
def compactSizeLimit : Nat := 4000000

/-- Read `w` little-endian bytes of a number that has no shorter form. -/
def readWide (w least : Nat) (b : Bytes) : Option (Nat × Bytes) :=
  if w ≤ b.length ∧ least ≤ leNat (b.take w) then some (leNat (b.take w), b.drop w)
  else none

/-- Read a compact size off the front of a stream. -/
def readCompactSize : Bytes → Option (Nat × Bytes)
  | [] => none
  | tag :: b =>
      if tag = 0xfd then readWide 2 0xfd b
      else if tag = 0xfe then readWide 4 (2 ^ 16) b
      else if tag = 0xff then readWide 8 (2 ^ 32) b
      else some (tag.toNat, b)

/-- `VarInt::size`. -/
def varIntSize (n : Nat) : Nat :=
  if n < 0xfd then 1
  else if n < 2 ^ 16 then 3
  else if n < 2 ^ 32 then 5
  else 9

/-- The length of the compact size that starts with the byte `tag`. -/
def compactSizeWidth (tag : UInt8) : Nat :=
  if tag = 0xfd then 3
  else if tag = 0xfe then 5
  else if tag = 0xff then 9
  else 1

@[simp]
theorem length_compactSize (n : Nat) : (compactSize n).length = varIntSize n := by
  unfold compactSize varIntSize
  split_ifs <;> simp

theorem compactSize_ne_nil (n : Nat) : compactSize n ≠ [] := by
  unfold compactSize
  split_ifs <;> simp

theorem length_compactSize_le (n : Nat) : (compactSize n).length ≤ 9 := by
  rw [length_compactSize]
  unfold varIntSize
  split_ifs <;> omega

/-- The first byte of a compact size tells its length. -/
theorem compactSize_eq_cons (n : Nat) :
    ∃ tag b, compactSize n = tag :: b ∧ compactSizeWidth tag = (compactSize n).length := by
  unfold compactSize
  split_ifs with h1 h2 h3
  · refine ⟨UInt8.ofNat n, [], rfl, ?_⟩
    have hne : ∀ m : UInt8, 0xfd ≤ m.toNat → UInt8.ofNat n ≠ m := by
      intro m hm heq
      rw [← heq, UInt8.toNat_ofNat'] at hm
      omega
    unfold compactSizeWidth
    rw [if_neg (hne 0xfd (by decide)), if_neg (hne 0xfe (by decide)),
      if_neg (hne 0xff (by decide))]
    rfl
  · exact ⟨0xfd, leBytes 2 n, rfl, by simp [compactSizeWidth]⟩
  · refine ⟨0xfe, leBytes 4 n, rfl, ?_⟩
    rw [compactSizeWidth, if_neg (by decide), if_pos rfl]
    simp
  · refine ⟨0xff, leBytes 8 n, rfl, ?_⟩
    rw [compactSizeWidth, if_neg (by decide), if_neg (by decide), if_pos rfl]
    simp

/-- Reading wide bytes takes the bytes of the number. -/
theorem readWide_leBytes {w least n : Nat} (hleast : least ≤ n) (hn : n < 256 ^ w)
    (r : Bytes) : readWide w least (leBytes w n ++ r) = some (n, r) := by
  have htake : (leBytes w n ++ r).take w = leBytes w n := by
    rw [List.take_append_of_le_length (by simp)]
    exact List.take_of_length_le (by simp)
  have hdrop : (leBytes w n ++ r).drop w = r := by
    rw [List.drop_append_of_le_length (by simp)]
    simp
  unfold readWide
  simp [htake, hdrop, leNat_leBytes hn, hleast]

/-- What reading wide bytes takes are the bytes of the number. -/
theorem eq_of_readWide {w least n : Nat} {b r : Bytes}
    (h : readWide w least b = some (n, r)) :
    b = leBytes w n ++ r ∧ least ≤ n ∧ n < 256 ^ w := by
  unfold readWide at h
  split at h
  · rename_i hcond
    rcases hcond with ⟨hlen, hleast⟩
    cases h
    have htake : (b.take w).length = w := by simp [hlen]
    have hlt := leNat_lt (b.take w)
    rw [htake] at hlt
    refine ⟨?_, hleast, hlt⟩
    rw [leBytes_leNat htake, List.take_append_drop]
  · cases h

/-- A compact size is read back from its bytes. -/
theorem readCompactSize_compactSize {n : Nat} (hn : n < 2 ^ 64) (r : Bytes) :
    readCompactSize (compactSize n ++ r) = some (n, r) := by
  unfold compactSize
  split_ifs with h1 h2 h3
  · have hnat : (UInt8.ofNat n).toNat = n := by
      rw [UInt8.toNat_ofNat']
      omega
    have hne : ∀ m : UInt8, 0xfd ≤ m.toNat → UInt8.ofNat n ≠ m := by
      intro m hm heq
      rw [← heq, hnat] at hm
      omega
    have h1 := hne 0xfd (by decide)
    have h2 := hne 0xfe (by decide)
    have h3 := hne 0xff (by decide)
    simp [readCompactSize, h1, h2, h3, hnat]
  · have hleast : 0xfd ≤ n := by omega
    have hlt : n < 256 ^ 2 := by omega
    rw [List.cons_append, readCompactSize, if_pos rfl]
    exact readWide_leBytes hleast hlt r
  · have hleast : 2 ^ 16 ≤ n := by omega
    have hlt : n < 256 ^ 4 := by omega
    rw [List.cons_append, readCompactSize, if_neg (by decide), if_pos rfl]
    exact readWide_leBytes hleast hlt r
  · have hleast : 2 ^ 32 ≤ n := by omega
    have hlt : n < 256 ^ 8 := by omega
    rw [List.cons_append, readCompactSize, if_neg (by decide), if_neg (by decide), if_pos rfl]
    exact readWide_leBytes hleast hlt r

/-- Reading takes exactly the shortest form. -/
theorem readCompactSize_eq_some {b r : Bytes} {n : Nat} :
    readCompactSize b = some (n, r) ↔ b = compactSize n ++ r ∧ n < 2 ^ 64 := by
  constructor
  · intro h
    cases b with
    | nil => cases h
    | cons tag b =>
        simp only [readCompactSize] at h
        split_ifs at h with h1 h2 h3
        · rcases eq_of_readWide h with ⟨rfl, hleast, hlt⟩
          have hcs : compactSize n = 0xfd :: leBytes 2 n := by
            unfold compactSize
            rw [if_neg (by omega), if_pos (by omega)]
          rw [hcs, h1]
          exact ⟨rfl, by omega⟩
        · rcases eq_of_readWide h with ⟨rfl, hleast, hlt⟩
          have hcs : compactSize n = 0xfe :: leBytes 4 n := by
            unfold compactSize
            rw [if_neg (by omega), if_neg (by omega), if_pos (by omega)]
          rw [hcs, h2]
          exact ⟨rfl, by omega⟩
        · rcases eq_of_readWide h with ⟨rfl, hleast, hlt⟩
          have hcs : compactSize n = 0xff :: leBytes 8 n := by
            unfold compactSize
            rw [if_neg (by omega), if_neg (by omega), if_neg (by omega)]
          rw [hcs, h3]
          exact ⟨rfl, by omega⟩
        · cases h
          have hne : ∀ m : UInt8, tag ≠ m → tag.toNat ≠ m.toNat := by
            intro m hm heq
            exact hm (UInt8.toNat_inj.mp heq)
          have h1' := hne 0xfd h1
          have h2' := hne 0xfe h2
          have h3' := hne 0xff h3
          have hlt := tag.toNat_lt
          have hsmall : tag.toNat < 0xfd := by
            simp at h1' h2' h3'
            omega
          refine ⟨?_, by omega⟩
          unfold compactSize
          rw [if_pos hsmall]
          simp
  · rintro ⟨rfl, hn⟩
    exact readCompactSize_compactSize hn r

/-- No compact size is a prefix of another. -/
theorem compactSize_append_inj {n m : Nat} {a b : Bytes} (hn : n < 2 ^ 64)
    (hm : m < 2 ^ 64) (h : compactSize n ++ a = compactSize m ++ b) : n = m ∧ a = b := by
  have hread := readCompactSize_compactSize hn a
  rw [h, readCompactSize_compactSize hm b] at hread
  cases hread
  exact ⟨rfl, rfl⟩

/-- Only the compact size of zero starts with a zero byte. -/
theorem compactSize_eq_zero_cons {n : Nat} {a b : Bytes} (hn : n < 2 ^ 64)
    (h : compactSize n ++ a = 0 :: b) : n = 0 := by
  have hread := readCompactSize_compactSize hn a
  rw [h] at hread
  have hzero : readCompactSize (0 :: b) = some (0, b) := by
    simp [readCompactSize]
  rw [hzero] at hread
  cases hread
  rfl

theorem compactSizeLimit_lt : compactSizeLimit < 2 ^ 64 := by
  decide

end RustPsbt
