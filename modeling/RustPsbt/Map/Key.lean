import RustPsbt.Primitives.Bitcoin

/-!
# Keys and small values of the maps

The raw key of a key-value pair, the proprietary key inside a `0xFC` key, and
the small types the three maps share.
-/

namespace RustPsbt

/-- A raw key: its `keytype` and its `keydata`. -/
structure Key where
  typeValue : UInt64
  key : Bytes
deriving DecidableEq

instance : OrdKey Key :=
  OrdKey.ofInjective (fun k => (k.typeValue, k.key)) fun a b h => by
    cases a
    cases b
    cases h
    rfl

/-- A proprietary key: the identifier, the subtype and the rest of the key data. -/
structure ProprietaryKey where
  pfx : Bytes
  subtype : UInt64
  key : Bytes
deriving DecidableEq

instance : OrdKey ProprietaryKey :=
  OrdKey.ofInjective (fun k => (k.pfx, k.subtype, k.key)) fun a b h => by
    cases a
    cases b
    cases h
    rfl

/-- The PSBT version; `Version::try_from` builds no other. -/
inductive Version where
  /-- `Version::ZERO`. -/
  | zero
  /-- `Version::TWO`. -/
  | two
deriving DecidableEq

namespace Version

/-- `Version::to_u32`. -/
def toU32 : Version → UInt32
  | zero => 0
  | two => 2

/-- `Version::try_from`. -/
def tryFrom (n : UInt32) : Option Version :=
  if n = 0 then some zero
  else if n = 2 then some two
  else none

@[simp]
theorem tryFrom_toU32 (v : Version) : tryFrom v.toU32 = some v := by
  cases v <;> rfl

end Version

/-- A bitfield of transaction modification flags. -/
structure TxModifiableFlags where
  bits : UInt8
deriving DecidableEq

/-- `TxModifiableFlags::new`: all flags cleared. -/
def TxModifiableFlags.new : TxModifiableFlags :=
  ⟨0⟩

/-- An input or output count. The source's `Count` wraps a `usize`, whose bound is not met: a
decoded count is at most the compact-size limit, and the Constructor adds one to a count only
together with an input or output that it puts in memory. (Only a count of `usize::MAX` that a
caller writes into the public field by hand would overflow.) -/
abbrev Count := Nat

/-- The index of a spent output. -/
abbrev Vout := UInt32

/-- A sighash type of an input. -/
structure PsbtSighashType where
  inner : UInt32
deriving DecidableEq

/-- A 64-byte DLEQ proof. -/
abbrev DleqProof := U8Array 64

/-- The value of a required height lock time: a height that is not zero. -/
structure RequiredHeightLockTime where
  height : Height
  ne_zero : height.value ≠ 0
deriving DecidableEq

namespace RequiredHeightLockTime

/-- `RequiredHeightLockTime::to_height` on optional values, as in `Option::map`. -/
theorem height_injective : Function.Injective RequiredHeightLockTime.height := by
  rintro ⟨a, ha⟩ ⟨b, hb⟩ hab
  cases hab
  rfl

instance : LinearOrder RequiredHeightLockTime :=
  LinearOrder.lift' RequiredHeightLockTime.height height_injective

end RequiredHeightLockTime

section

variable [BitcoinTypes]

/-- A silent payment address: scan key and spend key. -/
structure SpV0Info where
  scanKey : CompressedPublicKey
  spendKey : CompressedPublicKey
deriving DecidableEq

/-- A taproot leaf script with its version. -/
abbrev TapLeafScript := ScriptBuf × LeafVersion

/-- `TaprootMerkleBranch`: at most 128 hashes. -/
structure TaprootMerkleBranch where
  hashes : List TapNodeHash
  length_le : hashes.length ≤ 128
deriving DecidableEq

/-- `bitcoin::taproot::ControlBlock`. -/
structure ControlBlock where
  leafVersion : LeafVersion
  outputKeyParity : Bool
  internalKey : XOnlyPublicKey
  merkleBranch : TaprootMerkleBranch
deriving DecidableEq

instance : OrdKey ControlBlock :=
  OrdKey.ofInjective
    (fun c => (c.leafVersion, c.outputKeyParity.toUInt8, c.internalKey, c.merkleBranch.hashes))
    fun a b h => by
      obtain ⟨va, pa, ka, ⟨ba, hba⟩⟩ := a
      obtain ⟨vb, pb, kb, ⟨bb, hbb⟩⟩ := b
      simp only [Prod.mk.injEq] at h
      obtain ⟨rfl, hp, rfl, rfl⟩ := h
      cases pa <;> cases pb <;> first | rfl | cases hp

instance ControlBlock.trans : Std.TransOrd ControlBlock :=
  OrdKey.trans

/-- Taproot key origins: leaf hashes and the key source. -/
abbrev TapKeyOrigin := List TapLeafHash × KeySource

end

end RustPsbt
