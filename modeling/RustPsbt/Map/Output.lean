import RustPsbt.Map.Key

/-!
# The output map

One output of a PSBT, the transaction output that identifies it, and how the
Combiner merges two of them.

Main results:

- Theorem `Output.combine_eq_ok`: two outputs combine exactly when their amounts
  and raw scripts are equal.
-/

namespace RustPsbt

variable [BitcoinTypes]

/-- The key-value map of one output. -/
structure Output where
  amount : Amount
  scriptPubkey : ScriptBuf
  redeemScript : Option ScriptBuf
  witnessScript : Option ScriptBuf
  bip32Derivations : BTreeMap PublicKey KeySource
  tapInternalKey : Option XOnlyPublicKey
  tapTree : Option TapTree
  tapKeyOrigins : BTreeMap XOnlyPublicKey TapKeyOrigin
  spV0Info : Option SpV0Info
  spV0Label : Option UInt32
  proprietaries : BTreeMap ProprietaryKey Bytes
  unknowns : BTreeMap Key Bytes
deriving DecidableEq

namespace Output

/-- `Output::new`. -/
def new (utxo : TxOut) : Output where
  amount := utxo.value
  scriptPubkey := utxo.scriptPubkey
  redeemScript := none
  witnessScript := none
  bip32Derivations := {}
  tapInternalKey := none
  tapTree := none
  tapKeyOrigins := {}
  spV0Info := none
  spV0Label := none
  proprietaries := {}
  unknowns := {}

/-- `Output::tx_out`. -/
def txOut (self : Output) : TxOut where
  value := self.amount
  scriptPubkey := self.scriptPubkey

/-- `output::ValidationError`. -/
inductive ValidationError where
  | spLabelWithoutInfo
deriving DecidableEq

/-- `Output::validate`. -/
def validate (self : Output) : Result ValidationError Unit :=
  if self.spV0Label.isSome && self.spV0Info.isNone then
    .err .spLabelWithoutInfo
  else
    .ok ()

/-- The script that stands for a silent payment address in a PSBT id. -/
def spIdScript (info : SpV0Info) : ScriptBuf :=
  0 :: ((compressedToBytes info.scanKey).bytes ++ (compressedToBytes info.spendKey).bytes)

/-- `Output::id_tx_out`. -/
def idTxOut (self : Output) : TxOut :=
  match self.spV0Info with
  | some info => { value := self.amount, scriptPubkey := spIdScript info }
  | none => self.txOut

/-! ## Combining -/

/-- `output::CombineError`. -/
inductive CombineError where
  | amountMismatch (this that : Amount)
  | scriptPubkeyMismatch (this that : ScriptBuf)

/-- The merge of all fields; the identifying fields are those of `self`. -/
def merge (self other : Output) : Output :=
  { self with
    redeemScript := self.redeemScript.or other.redeemScript
    witnessScript := self.witnessScript.or other.witnessScript
    bip32Derivations := self.bip32Derivations.extend other.bip32Derivations
    tapInternalKey := self.tapInternalKey.or other.tapInternalKey
    tapTree := self.tapTree.or other.tapTree
    tapKeyOrigins := self.tapKeyOrigins.extend other.tapKeyOrigins
    spV0Info := self.spV0Info.or other.spV0Info
    spV0Label := self.spV0Label.or other.spV0Label
    proprietaries := self.proprietaries.extend other.proprietaries
    unknowns := self.unknowns.extend other.unknowns }

/-- `Output::combine`. -/
def combine (self other : Output) : Result CombineError Output :=
  if self.amount ≠ other.amount then
    .err (.amountMismatch self.amount other.amount)
  else if self.scriptPubkey ≠ other.scriptPubkey then
    .err (.scriptPubkeyMismatch self.scriptPubkey other.scriptPubkey)
  else
    .ok (self.merge other)

/-- Two outputs combine exactly when their amounts and raw scripts are equal. -/
theorem combine_eq_ok {self other c : Output} :
    self.combine other = .ok c ↔ self.txOut = other.txOut ∧ c = self.merge other := by
  unfold combine txOut
  by_cases hamount : self.amount = other.amount
  · by_cases hscript : self.scriptPubkey = other.scriptPubkey
    · simp [hamount, hscript, eq_comm]
    · simp [hamount, hscript]
  · simp [hamount]

/-- Combining two outputs returns. -/
theorem returns_combine (self other : Output) : (self.combine other).Returns := by
  unfold combine
  split
  · trivial
  · split <;> trivial

end Output

end RustPsbt
