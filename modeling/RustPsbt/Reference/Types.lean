import RustPsbt.Primitives.Bitcoin

/-!
# Reference types

Concrete stand-ins for the types of other crates, on which the model computes.
A key or signature is its serialization, of which only the shape is checked; a
txid is a polynomial digest of the serialized transaction.
-/

namespace RustPsbt
namespace Reference

/-- Byte strings of one shape. -/
structure Shaped (shape : Bytes → Bool) where
  bytes : Bytes
  shaped : shape bytes = true
deriving DecidableEq

instance (shape : Bytes → Bool) : OrdKey (Shaped shape) :=
  OrdKey.ofInjective Shaped.bytes fun a b h => by
    cases a
    cases b
    cases h
    rfl

/-- Read a byte string of the shape. -/
def Shaped.ofBytes (shape : Bytes → Bool) (b : Bytes) : Option (Shaped shape) :=
  if h : shape b = true then some ⟨b, h⟩ else none

theorem Shaped.ofBytes_eq_some {shape : Bytes → Bool} {b : Bytes} {s : Shaped shape} :
    Shaped.ofBytes shape b = some s ↔ b = s.bytes := by
  unfold Shaped.ofBytes
  constructor
  · intro h
    split at h
    · cases h
      rfl
    · cases h
  · rintro rfl
    simp [s.shaped]

/-- A compressed key has 33 bytes and an even or odd tag. -/
def isCompressed (b : Bytes) : Bool :=
  b.length == 33 && (b.head? == some 2 || b.head? == some 3)

/-- An uncompressed key has 65 bytes and its own tag. -/
def isUncompressed (b : Bytes) : Bool :=
  b.length == 65 && b.head? == some 4

theorem isPublicKey_even (x : U8Array 32) :
    (isCompressed (2 :: x.bytes) || isUncompressed (2 :: x.bytes)) = true := by
  simp [isCompressed, x.length_eq]

theorem isPublicKey_odd (x : U8Array 32) :
    (isCompressed (3 :: x.bytes) || isUncompressed (3 :: x.bytes)) = true := by
  simp [isCompressed, x.length_eq]

/-- An uncompressed key in its compressed form, the parity of its second coordinate in the
tag. -/
def compressed (b : Bytes) : Bytes :=
  if isUncompressed b then
    (if (b.getLast?.getD 0) % 2 = 0 then 2 else 3) :: (b.drop 1).take 32
  else b

/-- A leaf version is even and not the annex prefix. -/
def isLeafVersion (b : Bytes) : Bool :=
  match b with
  | [v] => v % 2 == 0 && v != 0x50
  | _ => false

/-- An ECDSA signature ends in a sighash byte. -/
def isEcdsaSignature (b : Bytes) : Bool :=
  b.length != 0 && b.length ≤ 73

/-- The sighash bytes of taproot signatures of 65 bytes. -/
def taprootSighashBytes : List UInt8 :=
  [0x01, 0x02, 0x03, 0x81, 0x82, 0x83]

/-- A taproot signature has 64 bytes and possibly the byte of a sighash type. -/
def isTaprootSignature (b : Bytes) : Bool :=
  b.length == 64 ||
    (b.length == 65 && taprootSighashBytes.any fun sighash => b.getLast? == some sighash)

/-- A sighash byte of zero is taken for the default type, which has none. -/
def withoutDefaultSighash (b : Bytes) : Bytes :=
  if b.length = 65 ∧ b.getLast? = some 0 then b.take 64 else b

/-- A leaf of a tap tree: its depth, its version and its script. -/
structure Leaf where
  depth : UInt8
  version : Shaped isLeafVersion
  script : ScriptBuf
deriving DecidableEq

/-- The depths of open branches after a leaf is added; complete siblings merge. -/
def addDepth (d : Nat) : List Nat → Option (List Nat)
  | [] => if d ≤ 128 then some [d] else none
  | e :: open_ =>
      if d < e then none
      else if d = e then
        match d with
        | 0 => none
        | d + 1 => addDepth d open_
      else if d ≤ 128 then some (d :: e :: open_) else none

/-- Leaves in depth-first order make a whole tree. -/
def isTree (leaves : List Leaf) : Bool :=
  leaves.foldlM (fun depths leaf => addDepth leaf.depth.toNat depths) [] == some [0]

/-- A tap tree is its leaves. -/
structure Tree where
  leaves : List Leaf
  whole : isTree leaves = true
deriving DecidableEq

/-- The reference types. -/
@[reducible]
def types : BitcoinTypes where
  PublicKey := Shaped fun b => isCompressed b || isUncompressed b
  XOnlyPublicKey := U8Array 32
  CompressedPublicKey := Shaped isCompressed
  Xpub := U8Array 78
  EcdsaSignature := Shaped isEcdsaSignature
  TaprootSignature := Shaped isTaprootSignature
  LeafVersion := Shaped isLeafVersion
  TapTree := Tree
  Amount := UInt64
  compressedToBytes k := ⟨k.bytes, by
    have h := k.shaped
    simp only [isCompressed, Bool.and_eq_true, beq_iff_eq] at h
    exact h.1⟩

end Reference

section

attribute [local instance] Reference.types

namespace Reference

/-- The shortest compact size of a number. -/
def compactSize (n : Nat) : Bytes :=
  if n < 0xfd then [UInt8.ofNat n]
  else if n < 2 ^ 16 then 0xfd :: leBytes 2 n
  else if n < 2 ^ 32 then 0xfe :: leBytes 4 n
  else 0xff :: leBytes 8 n

/-- A transaction input without its witness. -/
def txInBytes (i : TxIn) : Bytes :=
  i.previousOutput.txid.bytes ++ leBytes 4 i.previousOutput.vout.toNat ++
    compactSize i.scriptSig.length ++ i.scriptSig ++ leBytes 4 i.sequence.toNat

/-- A transaction output. -/
def txOutBytes (o : TxOut) : Bytes :=
  leBytes 8 (UInt64.toNat o.value) ++ compactSize o.scriptPubkey.length ++ o.scriptPubkey

/-- A transaction without witnesses. -/
def strippedTxBytes (tx : Transaction) : Bytes :=
  leBytes 4 tx.version.toBitVec.toNat ++
    compactSize tx.input.length ++ tx.input.flatMap txInBytes ++
    compactSize tx.output.length ++ tx.output.flatMap txOutBytes ++
    leBytes 4 tx.lockTime.toConsensusU32.toNat

/-- A 32-byte polynomial digest. -/
def digest (b : Bytes) : U8Array 32 :=
  ⟨leBytes 32 (b.foldl (fun acc byte => (acc * 257 + byte.toNat + 1) % 2 ^ 256) 0),
    length_leBytes _ _⟩

/-- The reference txid. -/
@[reducible]
def txidHash : TxidHash where
  computeTxid tx := digest (strippedTxBytes tx)

end Reference

end

end RustPsbt
