import RustPsbt.LockTime
import RustPsbt.Primitives.RelativeLockTime

/-!
# The satisfier of an input

What `miniscript` may ask of an input while it looks for a satisfaction.

Main results:

- Theorems `Input.checkAfter_iff` and `Input.checkOlder_iff`: the timelocks an input
  claims to satisfy.
-/

namespace RustPsbt

/-- A hash preimage as `miniscript` expects it. -/
abbrev Preimage32 := U8Array 32

/-- The keys of other crates as `miniscript` reads them. -/
class KeyHashes [BitcoinTypes] where
  /-- `PublicKey::pubkey_hash`, also `to_pubkeyhash(SigType::Ecdsa)`. -/
  pubkeyHash : PublicKey → U8Array 20
  /-- `to_pubkeyhash(SigType::Schnorr)`. -/
  xOnlyPubkeyHash : XOnlyPublicKey → U8Array 20

export KeyHashes (pubkeyHash xOnlyPubkeyHash)

/-- `miniscript::ToPublicKey`. -/
class ToPublicKey [BitcoinTypes] (Pk : Type) where
  /-- `to_public_key`. -/
  toPublicKey : Pk → PublicKey
  /-- `to_x_only_pubkey`. -/
  toXOnlyPubkey : Pk → XOnlyPublicKey

export ToPublicKey (toPublicKey toXOnlyPubkey)

variable [BitcoinTypes]

/-- The methods of `miniscript::Satisfier` that the source implements. -/
structure Satisfier (Pk : Type) where
  lookupTapKeySpendSig : Pk → Option TaprootSignature
  lookupTapLeafScriptSig : Pk → TapLeafHash → Option TaprootSignature
  lookupRawPkhPk : U8Array 20 → Option PublicKey
  lookupTapControlBlockMap : Option (BTreeMap ControlBlock TapLeafScript)
  lookupRawPkhTapLeafScriptSig :
    U8Array 20 × TapLeafHash → Option (XOnlyPublicKey × TaprootSignature)
  lookupEcdsaSig : Pk → Option EcdsaSignature
  lookupRawPkhEcdsaSig : U8Array 20 → Option (PublicKey × EcdsaSignature)
  checkAfter : LockTime → Bool
  checkOlder : RelativeLockTime → Bool
  lookupHash160 : U8Array 20 → Option Preimage32
  lookupSha256 : U8Array 32 → Option Preimage32
  lookupHash256 : U8Array 32 → Option Preimage32
  lookupRipemd160 : U8Array 20 → Option Preimage32

namespace Input

/-! ## Timelocks -/

/-- `InputSatisfier::check_after`. -/
def checkAfter (self : Input) (n : LockTime) : Bool :=
  match n with
  | .blocks height =>
      match self.minHeight with
      | some lockTime => height ≤ lockTime.height
      | none => false
  | .seconds time =>
      match self.minTime with
      | some lockTime => time ≤ lockTime
      | none => false

/-- `InputSatisfier::check_older`. -/
def checkOlder (self : Input) (n : RelativeLockTime) : Bool :=
  match self.sequence with
  | some seq =>
      match RelativeLockTime.fromSequence seq with
      | .error _ => false
      | .ok lockTime => n.isImpliedBy lockTime
  | none => false

/-- `Input::lock_time`. -/
def lockTime (self : Input) : LockTime :=
  match self.minHeight, self.minTime with
  -- both are set: the height is used
  | some height, some _ => .blocks height.height
  | some height, none => .blocks height.height
  | none, some time => .seconds time
  | none, none => .zero

/-- An input claims an absolute timelock up to its requirement of that unit. -/
theorem checkAfter_iff {self : Input} {n : LockTime} :
    self.checkAfter n ↔
      (∃ h, self.minHeight = some h ∧ n.isImpliedBy (.blocks h.height)) ∨
        ∃ t, self.minTime = some t ∧ n.isImpliedBy (.seconds t) := by
  unfold checkAfter
  cases n with
  | blocks height => cases hh : self.minHeight <;> simp [LockTime.isImpliedBy]
  | seconds time => cases ht : self.minTime <;> simp [LockTime.isImpliedBy]

/-- An input claims the relative timelocks that its sequence reaches. -/
theorem checkOlder_iff {self : Input} {n : RelativeLockTime} :
    self.checkOlder n ↔ ∃ seq, self.sequence = some seq ∧ seq.Reaches n := by
  unfold checkOlder
  cases hs : self.sequence with
  | none => simp
  | some seq =>
      simp only [Option.some.injEq, exists_eq_left']
      cases hlock : RelativeLockTime.fromSequence seq with
      | error e =>
          have hnot : ¬seq.Reaches n := by
            intro h
            obtain ⟨lock, hok⟩ := Sequence.fromSequence_isOk.mpr h.1
            rw [hlock] at hok
            cases hok
          simp [hnot]
      | ok lock => exact Sequence.isImpliedBy_fromSequence_iff hlock

/-! ## Lookups -/

omit [BitcoinTypes] in
/-- `try_vec_as_preimage32`. -/
def tryVecAsPreimage32 (vec : Bytes) : Option Preimage32 :=
  U8Array.ofSlice 32 vec

variable [KeyHashes] {Pk : Type} [ToPublicKey Pk]

/-- `InputSatisfier`. -/
def satisfier (self : Input) : Satisfier Pk where
  lookupTapKeySpendSig pk :=
    match self.tapInternalKey with
    | some key => if toXOnlyPubkey pk = key then self.tapKeySig else none
    | none => none
  lookupTapLeafScriptSig pk lh := self.tapScriptSigs[(toXOnlyPubkey pk, lh)]?
  lookupRawPkhPk pkh :=
    (self.bip32Derivations.toList.find? fun entry => pubkeyHash entry.1 = pkh).map fun entry =>
      entry.1
  lookupTapControlBlockMap := some self.tapScripts
  lookupRawPkhTapLeafScriptSig pkh :=
    (self.tapScriptSigs.toList.find? fun entry =>
      xOnlyPubkeyHash entry.1.1 = pkh.1 ∧ entry.1.2 = pkh.2).map fun entry =>
        (entry.1.1, entry.2)
  lookupEcdsaSig pk := self.partialSigs[toPublicKey pk]?
  lookupRawPkhEcdsaSig pkh :=
    self.partialSigs.toList.find? fun entry => pubkeyHash entry.1 = pkh
  checkAfter := self.checkAfter
  checkOlder := self.checkOlder
  lookupHash160 h := self.hash160Preimages[h]?.bind tryVecAsPreimage32
  lookupSha256 h := self.sha256Preimages[h]?.bind tryVecAsPreimage32
  lookupHash256 h := self.hash256Preimages[h]?.bind tryVecAsPreimage32
  lookupRipemd160 h := self.ripemd160Preimages[h]?.bind tryVecAsPreimage32

end Input

end RustPsbt
