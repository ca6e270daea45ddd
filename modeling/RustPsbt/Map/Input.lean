import RustPsbt.Map.Key

/-!
# The input map

One input of a PSBT, its lock time requirements, and how the Combiner merges
two of them.

Main results:

- Theorem `Input.combine_eq_ok`: two inputs combine exactly when they spend the
  same output.
-/

namespace RustPsbt

variable [BitcoinTypes]

/-- The key-value map of one input. -/
structure Input where
  previousTxid : Txid
  spentOutputIndex : Vout
  sequence : Option Sequence
  minTime : Option Time
  minHeight : Option RequiredHeightLockTime
  nonWitnessUtxo : Option Transaction
  witnessUtxo : Option TxOut
  partialSigs : BTreeMap PublicKey EcdsaSignature
  sighashType : Option PsbtSighashType
  redeemScript : Option ScriptBuf
  witnessScript : Option ScriptBuf
  bip32Derivations : BTreeMap PublicKey KeySource
  finalScriptSig : Option ScriptBuf
  finalScriptWitness : Option Witness
  ripemd160Preimages : BTreeMap (U8Array 20) Bytes
  sha256Preimages : BTreeMap (U8Array 32) Bytes
  hash160Preimages : BTreeMap (U8Array 20) Bytes
  hash256Preimages : BTreeMap (U8Array 32) Bytes
  tapKeySig : Option TaprootSignature
  tapScriptSigs : BTreeMap (XOnlyPublicKey × TapLeafHash) TaprootSignature
  tapScripts : BTreeMap ControlBlock TapLeafScript
  tapKeyOrigins : BTreeMap XOnlyPublicKey TapKeyOrigin
  tapInternalKey : Option XOnlyPublicKey
  tapMerkleRoot : Option TapNodeHash
  spEcdhShares : BTreeMap CompressedPublicKey CompressedPublicKey
  spDleqProofs : BTreeMap CompressedPublicKey DleqProof
  proprietaries : BTreeMap ProprietaryKey Bytes
  unknowns : BTreeMap Key Bytes
deriving DecidableEq

namespace Input

/-- `Input::new`. -/
def new (previousOutput : OutPoint) : Input where
  previousTxid := previousOutput.txid
  spentOutputIndex := previousOutput.vout
  sequence := none
  minTime := none
  minHeight := none
  nonWitnessUtxo := none
  witnessUtxo := none
  partialSigs := {}
  sighashType := none
  redeemScript := none
  witnessScript := none
  bip32Derivations := {}
  finalScriptSig := none
  finalScriptWitness := none
  ripemd160Preimages := {}
  sha256Preimages := {}
  hash160Preimages := {}
  hash256Preimages := {}
  tapKeySig := none
  tapScriptSigs := {}
  tapScripts := {}
  tapKeyOrigins := {}
  tapInternalKey := none
  tapMerkleRoot := none
  spEcdhShares := {}
  spDleqProofs := {}
  proprietaries := {}
  unknowns := {}

/-! ## Lock time requirements -/

/-- `Input::has_lock_time`. -/
def hasLockTime (self : Input) : Bool :=
  self.minTime.isSome || self.minHeight.isSome

/-- `Input::requires_time_based_lock_time`. -/
def requiresTimeBasedLockTime (self : Input) : Bool :=
  self.minTime.isSome && self.minHeight.isNone

/-- `Input::requires_height_based_lock_time`. -/
def requiresHeightBasedLockTime (self : Input) : Bool :=
  self.minHeight.isSome && self.minTime.isNone

/-- `Input::is_satisfied_with_height_based_lock_time`. -/
def isSatisfiedWithHeightBasedLockTime (self : Input) : Bool :=
  self.requiresHeightBasedLockTime
    || self.minTime.isSome && self.minHeight.isSome
    || self.minTime.isNone && self.minHeight.isNone

/-! ## Transaction input -/

/-- `Input::out_point`. -/
def outPoint (self : Input) : OutPoint where
  txid := self.previousTxid
  vout := self.spentOutputIndex

/-- `Input::unsigned_tx_in`. -/
def unsignedTxIn (self : Input) : TxIn where
  previousOutput := self.outPoint
  scriptSig := []
  sequence := self.sequence.getD .max
  witness := []

/-! ## Combining -/

/-- `input::CombineError`. -/
inductive CombineError where
  | previousTxidMismatch (this that : Txid)
  | spentOutputIndexMismatch (this that : Vout)

/-- The merge of all fields; the identifying fields are those of `self`. -/
def merge (self other : Input) : Input :=
  { self with
    sequence := self.sequence.or other.sequence
    minTime := self.minTime.or other.minTime
    minHeight := self.minHeight.or other.minHeight
    nonWitnessUtxo := self.nonWitnessUtxo.or other.nonWitnessUtxo
    witnessUtxo := self.witnessUtxo.or other.witnessUtxo
    partialSigs := self.partialSigs.extend other.partialSigs
    sighashType := self.sighashType.or other.sighashType
    redeemScript := self.redeemScript.or other.redeemScript
    witnessScript := self.witnessScript.or other.witnessScript
    bip32Derivations := self.bip32Derivations.extend other.bip32Derivations
    finalScriptSig := self.finalScriptSig.or other.finalScriptSig
    finalScriptWitness := self.finalScriptWitness.or other.finalScriptWitness
    ripemd160Preimages := self.ripemd160Preimages.extend other.ripemd160Preimages
    sha256Preimages := self.sha256Preimages.extend other.sha256Preimages
    hash160Preimages := self.hash160Preimages.extend other.hash160Preimages
    hash256Preimages := self.hash256Preimages.extend other.hash256Preimages
    tapKeySig := self.tapKeySig.or other.tapKeySig
    tapScriptSigs := self.tapScriptSigs.extend other.tapScriptSigs
    tapScripts := self.tapScripts.extend other.tapScripts
    tapKeyOrigins := self.tapKeyOrigins.extend other.tapKeyOrigins
    tapInternalKey := self.tapInternalKey.or other.tapInternalKey
    tapMerkleRoot := self.tapMerkleRoot.or other.tapMerkleRoot
    spEcdhShares := self.spEcdhShares.extend other.spEcdhShares
    spDleqProofs := self.spDleqProofs.extend other.spDleqProofs
    proprietaries := self.proprietaries.extend other.proprietaries
    unknowns := self.unknowns.extend other.unknowns }

/-- `Input::combine`. -/
def combine (self other : Input) : Result CombineError Input :=
  if self.previousTxid ≠ other.previousTxid then
    .err (.previousTxidMismatch self.previousTxid other.previousTxid)
  else if self.spentOutputIndex ≠ other.spentOutputIndex then
    .err (.spentOutputIndexMismatch self.spentOutputIndex other.spentOutputIndex)
  else
    .ok (self.merge other)

/-- Two inputs combine exactly when they spend the same output. -/
theorem combine_eq_ok {self other c : Input} :
    self.combine other = .ok c ↔ self.outPoint = other.outPoint ∧ c = self.merge other := by
  unfold combine outPoint
  by_cases htxid : self.previousTxid = other.previousTxid
  · by_cases hvout : self.spentOutputIndex = other.spentOutputIndex
    · simp [htxid, hvout, eq_comm]
    · simp [htxid, hvout]
  · simp [htxid]

/-- Combining two inputs returns. -/
theorem returns_combine (self other : Input) : (self.combine other).Returns := by
  unfold combine
  split
  · trivial
  · split <;> trivial

end Input

end RustPsbt
