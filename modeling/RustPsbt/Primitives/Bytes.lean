import RustPsbt.Library.OrderedMap

/-!
# Bytes and little-endian numbers

Byte strings are lists; a fixed-size array carries its length as a field.

Main results:

- Theorem `leNat_leBytes`: a number is read back from its little-endian bytes.
- Theorem `leBytes_leNat`: bytes are written back from their number.
-/

namespace RustPsbt

/-- `Vec<u8>` and `&[u8]`. -/
abbrev Bytes :=
  List UInt8

/-- `[u8; N]`. -/
structure U8Array (n : Nat) where
  bytes : Bytes
  length_eq : bytes.length = n
deriving DecidableEq

namespace U8Array

variable {n : Nat}

@[ext]
theorem ext {a b : U8Array n} (h : a.bytes = b.bytes) : a = b := by
  cases a
  cases b
  cases h
  rfl

@[simp]
theorem length_bytes (a : U8Array n) : a.bytes.length = n :=
  a.length_eq

instance : OrdKey (U8Array n) :=
  OrdKey.ofInjective U8Array.bytes fun _ _ => ext

-- The sizes of map keys: a map operation then carries the name of an order, not a proof.
instance trans_20 : Std.TransOrd (U8Array 20) :=
  OrdKey.trans

instance trans_32 : Std.TransOrd (U8Array 32) :=
  OrdKey.trans

/-- `<[u8; N]>::try_from(slice)`. -/
def ofSlice (n : Nat) (b : Bytes) : Option (U8Array n) :=
  if h : b.length = n then some ⟨b, h⟩ else none

@[simp]
theorem ofSlice_bytes (a : U8Array n) : ofSlice n a.bytes = some a := by
  simp [ofSlice]

theorem ofSlice_eq_some {b : Bytes} {a : U8Array n} :
    ofSlice n b = some a ↔ b = a.bytes := by
  constructor
  · intro h
    unfold ofSlice at h
    split at h
    · rw [← Option.some_inj.mp h]
    · cases h
  · rintro rfl
    exact ofSlice_bytes a

/-- Any array of zeros. -/
def zero (n : Nat) : U8Array n :=
  ⟨List.replicate n 0, by simp⟩

end U8Array

/-! ## Bytes in a row -/

/-- There are no more items than bytes of items. -/
theorem length_le_length_flatMap {α : Type} {f : α → Bytes} (hf : ∀ a, 0 < (f a).length)
    (l : List α) : l.length ≤ (l.flatMap f).length := by
  induction l with
  | nil => simp
  | cons a l ih =>
      have ha := hf a
      simp only [List.length_cons, List.flatMap_cons, List.length_append]
      omega

/-- The bytes of one item are among the bytes of all. -/
theorem length_le_length_flatMap_of_mem {α : Type} {f : α → Bytes} {a : α} {l : List α}
    (ha : a ∈ l) : (f a).length ≤ (l.flatMap f).length := by
  rcases List.append_of_mem ha with ⟨before, after, rfl⟩
  simp only [List.flatMap_append, List.flatMap_cons, List.length_append]
  omega

theorem U8Array.length_flatMap_bytes {n : Nat} (arrays : List (U8Array n)) :
    (arrays.flatMap U8Array.bytes).length = n * arrays.length := by
  induction arrays with
  | nil => rfl
  | cons array arrays ih =>
      simp only [List.flatMap_cons, List.length_append, ih, length_bytes, List.length_cons,
        Nat.mul_succ]
      omega

/-! ## Little-endian -/

/-- The `w` lowest bytes of `n`, lowest first. -/
def leBytes : Nat → Nat → Bytes
  | 0, _ => []
  | w + 1, n => UInt8.ofNat n :: leBytes w (n / 256)

/-- The number whose bytes, lowest first, are `b`. -/
def leNat : Bytes → Nat
  | [] => 0
  | byte :: b => byte.toNat + 256 * leNat b

@[simp]
theorem length_leBytes (w n : Nat) : (leBytes w n).length = w := by
  induction w generalizing n with
  | zero => rfl
  | succ w ih => simp [leBytes, ih]

/-- A number that fits is read back from its bytes. -/
theorem leNat_leBytes {w n : Nat} (hn : n < 256 ^ w) : leNat (leBytes w n) = n := by
  induction w generalizing n with
  | zero =>
      simp only [pow_zero, Nat.lt_one_iff] at hn
      rw [hn]
      rfl
  | succ w ih =>
      have hdiv : n / 256 < 256 ^ w := by
        rw [Nat.div_lt_iff_lt_mul (by decide), ← pow_succ]
        exact hn
      simp only [leBytes, leNat, ih hdiv, UInt8.toNat_ofNat']
      omega

theorem leNat_lt (b : Bytes) : leNat b < 256 ^ b.length := by
  induction b with
  | nil => simp [leNat]
  | cons byte b ih =>
      have hbyte : byte.toNat < 256 := byte.toNat_lt
      simp only [leNat, List.length_cons, pow_succ]
      omega

/-- Bytes are written back from their number. -/
theorem leBytes_leNat {w : Nat} {b : Bytes} (hb : b.length = w) :
    leBytes w (leNat b) = b := by
  subst hb
  induction b with
  | nil => rfl
  | cons byte b ih =>
      have hbyte : byte.toNat < 256 := byte.toNat_lt
      have hdiv : (byte.toNat + 256 * leNat b) / 256 = leNat b := by omega
      have hlow : UInt8.ofNat (byte.toNat + 256 * leNat b) = byte := by
        apply UInt8.toNat_inj.mp
        rw [UInt8.toNat_ofNat']
        omega
      simp only [List.length_cons, leNat, leBytes, hdiv, hlow, ih]

/-- `u32::to_le_bytes`. -/
def u32ToLeBytes (n : UInt32) : U8Array 4 :=
  ⟨leBytes 4 n.toNat, length_leBytes 4 _⟩

/-- `u32::from_le_bytes`. -/
def u32FromLeBytes (b : U8Array 4) : UInt32 :=
  UInt32.ofNat (leNat b.bytes)

@[simp]
theorem u32FromLeBytes_toLeBytes (n : UInt32) : u32FromLeBytes (u32ToLeBytes n) = n := by
  have hn : n.toNat < 256 ^ 4 := n.toNat_lt
  simp [u32FromLeBytes, u32ToLeBytes, leNat_leBytes hn]

@[simp]
theorem u32ToLeBytes_fromLeBytes (b : U8Array 4) : u32ToLeBytes (u32FromLeBytes b) = b := by
  have hlt : leNat b.bytes < 2 ^ 32 := by
    have := leNat_lt b.bytes
    rwa [b.length_eq] at this
  apply U8Array.ext
  simp only [u32FromLeBytes, u32ToLeBytes, UInt32.toNat_ofNat', Nat.mod_eq_of_lt hlt]
  exact leBytes_leNat b.length_eq

end RustPsbt
