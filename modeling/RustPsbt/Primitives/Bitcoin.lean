import RustPsbt.Primitives.Bytes

/-!
# Bitcoin types

The types the PSBT maps are made of.  Keys, signatures, trees and amounts come
from other crates and stay abstract (`BitcoinTypes`); what the source takes
apart itself (lock times, transactions, key sources) is concrete.
-/

namespace RustPsbt

/-! ## Types of other crates -/

/-- The types of other crates that a PSBT stores without looking inside. -/
class BitcoinTypes where
  /-- `bitcoin::PublicKey`, compressed or not. -/
  PublicKey : Type
  /-- `bitcoin::key::XOnlyPublicKey`. -/
  XOnlyPublicKey : Type
  /-- `bitcoin::CompressedPublicKey`. -/
  CompressedPublicKey : Type
  /-- `bitcoin::bip32::Xpub`. -/
  Xpub : Type
  /-- `bitcoin::ecdsa::Signature`. -/
  EcdsaSignature : Type
  /-- `bitcoin::taproot::Signature`. -/
  TaprootSignature : Type
  /-- `bitcoin::taproot::LeafVersion`. -/
  LeafVersion : Type
  /-- `bitcoin::taproot::TapTree`. -/
  TapTree : Type
  /-- `bitcoin::Amount`. -/
  Amount : Type
  [publicKey : OrdKey PublicKey]
  [xOnlyPublicKey : OrdKey XOnlyPublicKey]
  [compressedPublicKey : OrdKey CompressedPublicKey]
  [xpub : OrdKey Xpub]
  [leafVersion : OrdKey LeafVersion]
  [ecdsaSignature : DecidableEq EcdsaSignature]
  [taprootSignature : DecidableEq TaprootSignature]
  [tapTree : DecidableEq TapTree]
  [amount : DecidableEq Amount]
  /-- `CompressedPublicKey::to_bytes`. -/
  compressedToBytes : CompressedPublicKey → U8Array 33

attribute [reducible, instance] BitcoinTypes.publicKey BitcoinTypes.xOnlyPublicKey
  BitcoinTypes.compressedPublicKey BitcoinTypes.xpub BitcoinTypes.leafVersion
  BitcoinTypes.ecdsaSignature BitcoinTypes.taprootSignature BitcoinTypes.tapTree
  BitcoinTypes.amount

-- The orders of the key types by name, as those of arrays.
instance BitcoinTypes.trans_publicKey [BitcoinTypes] : Std.TransOrd BitcoinTypes.PublicKey :=
  OrdKey.trans

instance BitcoinTypes.trans_xOnlyPublicKey [BitcoinTypes] :
    Std.TransOrd BitcoinTypes.XOnlyPublicKey :=
  OrdKey.trans

instance BitcoinTypes.trans_compressedPublicKey [BitcoinTypes] :
    Std.TransOrd BitcoinTypes.CompressedPublicKey :=
  OrdKey.trans

instance BitcoinTypes.trans_xpub [BitcoinTypes] : Std.TransOrd BitcoinTypes.Xpub :=
  OrdKey.trans

export BitcoinTypes (PublicKey XOnlyPublicKey CompressedPublicKey Xpub EcdsaSignature
  TaprootSignature LeafVersion TapTree Amount compressedToBytes)

/-- `bitcoin::Txid`. -/
abbrev Txid := U8Array 32

/-- `bitcoin::taproot::TapLeafHash`. -/
abbrev TapLeafHash := U8Array 32

instance trans_tapScriptSigKey [BitcoinTypes] : Std.TransOrd (XOnlyPublicKey × TapLeafHash) :=
  OrdKey.trans

/-- `bitcoin::taproot::TapNodeHash`. -/
abbrev TapNodeHash := U8Array 32

/-- `bitcoin::ScriptBuf`. -/
abbrev ScriptBuf := Bytes

/-- `bitcoin::Witness`: the elements of a witness stack. -/
abbrev Witness := List Bytes

/-- `bitcoin::Sequence`. -/
abbrev Sequence := UInt32

/-- `Sequence::ZERO`. -/
def Sequence.zero : Sequence := 0

/-- `Sequence::MAX`. -/
def Sequence.max : Sequence := 0xffffffff

/-- `bitcoin::transaction::Version`. -/
abbrev TxVersion := Int32

/-- `bitcoin::bip32::Fingerprint`. -/
abbrev Fingerprint := U8Array 4

/-- `bitcoin::bip32::ChildNumber`, by its `u32` value. -/
abbrev ChildNumber := UInt32

/-- `bitcoin::bip32::DerivationPath`. -/
abbrev DerivationPath := List ChildNumber

/-- `bitcoin::bip32::KeySource`. -/
abbrev KeySource := Fingerprint × DerivationPath

/-! ## Lock times -/

/-- Lock times below this value are block heights, the others are times. -/
def lockTimeThreshold : UInt32 := 500000000

/-- `absolute::Height`. -/
structure Height where
  value : UInt32
  value_lt : value < lockTimeThreshold
deriving DecidableEq

/-- `absolute::Time`. -/
structure Time where
  value : UInt32
  threshold_le : lockTimeThreshold ≤ value
deriving DecidableEq

theorem Height.toNat_injective : Function.Injective fun h : Height => h.value.toNat := by
  rintro ⟨a, ha⟩ ⟨b, hb⟩ hab
  cases UInt32.toNat_inj.mp hab
  rfl

theorem Time.toNat_injective : Function.Injective fun t : Time => t.value.toNat := by
  rintro ⟨a, ha⟩ ⟨b, hb⟩ hab
  cases UInt32.toNat_inj.mp hab
  rfl

instance : LinearOrder Height :=
  LinearOrder.lift' (fun h => h.value.toNat) Height.toNat_injective

instance : LinearOrder Time :=
  LinearOrder.lift' (fun t => t.value.toNat) Time.toNat_injective

/-- `absolute::LockTime`. -/
inductive LockTime where
  | blocks (height : Height)
  | seconds (time : Time)
deriving DecidableEq

namespace LockTime

/-- `LockTime::ZERO`. -/
def zero : LockTime :=
  .blocks ⟨0, by decide⟩

/-- `LockTime::from_consensus`. -/
def fromConsensus (n : UInt32) : LockTime :=
  if h : n < lockTimeThreshold then .blocks ⟨n, h⟩
  else .seconds ⟨n, by simpa using h⟩

/-- `LockTime::to_consensus_u32`. -/
def toConsensusU32 : LockTime → UInt32
  | .blocks height => height.value
  | .seconds time => time.value

@[simp]
theorem fromConsensus_toConsensusU32 (l : LockTime) :
    fromConsensus l.toConsensusU32 = l := by
  cases l with
  | blocks height => simp [fromConsensus, toConsensusU32, height.value_lt]
  | seconds time =>
      have hnot : ¬time.value < lockTimeThreshold := by
        simpa using time.threshold_le
      simp [fromConsensus, toConsensusU32, hnot]

@[simp]
theorem toConsensusU32_fromConsensus (n : UInt32) :
    (fromConsensus n).toConsensusU32 = n := by
  unfold fromConsensus
  split <;> rfl

end LockTime

/-! ## Transactions -/

section Transactions

variable [BitcoinTypes]

/-- `bitcoin::OutPoint`. -/
structure OutPoint where
  txid : Txid
  vout : UInt32
deriving DecidableEq

/-- `bitcoin::TxIn`. -/
structure TxIn where
  previousOutput : OutPoint
  scriptSig : ScriptBuf
  sequence : Sequence
  witness : Witness
deriving DecidableEq

/-- `bitcoin::TxOut`. -/
structure TxOut where
  value : Amount
  scriptPubkey : ScriptBuf
deriving DecidableEq

/-- `bitcoin::Transaction`. -/
structure Transaction where
  version : TxVersion
  lockTime : LockTime
  input : List TxIn
  output : List TxOut
deriving DecidableEq

end Transactions

/-- The transaction hash of `bitcoin`. -/
class TxidHash [BitcoinTypes] where
  /-- `Transaction::compute_txid`. -/
  computeTxid : Transaction → Txid

export TxidHash (computeTxid)

/-- No two of the transactions have the same txid. -/
def TxidInjectiveOn [BitcoinTypes] [TxidHash] (txs : Set Transaction) : Prop :=
  Set.InjOn computeTxid txs

end RustPsbt
