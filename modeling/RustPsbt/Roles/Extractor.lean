import RustPsbt.Roles.Finalizer

/-!
# The Extractor

An Extractor builds the network transaction of a finalized PSBT.

Main results:

- Theorem `Extractor.extractTxUncheckedFeeRate_spec`: the extracted transaction is
  the unsigned one with signature data.
- Theorem `Extractor.internalExtractTxWithFeeRateLimit_spec`: a fee limit withholds
  transactions and changes none.
-/

namespace RustPsbt

/-- Amounts and weights as `bitcoin` computes them. -/
class Weights [BitcoinTypes] where
  /-- `Amount::to_sat`. -/
  toSat : Amount → UInt64
  /-- `Transaction::weight`, in weight units. -/
  weight : Transaction → UInt64

export Weights (toSat weight)

/-- `bitcoin::FeeRate`, in satoshis per 1000 weight units. -/
abbrev FeeRate := UInt64

/-- `u64::checked_add`. -/
def checkedAdd64 (a b : UInt64) : Option UInt64 :=
  if a.toNat + b.toNat < 2 ^ 64 then some (a + b) else none

/-- `u64::saturating_mul`. -/
def saturatingMul64 (a b : UInt64) : UInt64 :=
  if a.toNat * b.toNat < 2 ^ 64 then a * b else 0xffffffffffffffff

variable [BitcoinTypes]

/-- `FeeError`. -/
inductive FeeError where
  | fundingUtxo (e : FundingUtxoError)
  | inputOverflow
  | outputOverflow
  | negative

/-- `ExtractError`. -/
inductive ExtractError where
  | psbtNotFinalized
  | determineLockTime (e : DetermineLockTimeError)
  | silentPaymentOutputScriptNotComputed (index : Nat)

/-- `ExtractTxError`. -/
inductive ExtractTxError where
  | unfinalized
  | determineLockTime (e : DetermineLockTimeError)
  | silentPaymentOutputScriptNotComputed (index : Nat)

/-- `ExtractTxFeeRateError`. -/
inductive ExtractTxFeeRateError where
  | fee (e : FeeError)
  | feeTooHigh (fee max : FeeRate)
  | extractTx (e : ExtractTxError)

/-! ## Parts of the transaction -/

/-- `Input::signed_tx_in`. -/
def Input.signedTxIn {ε : Type} (self : Input) : Result ε TxIn :=
  -- `debug_assert!(self.is_finalized())`
  if !self.isFinalized then
    .panicked
  else
    .ok {
      previousOutput := self.outPoint
      scriptSig := self.finalScriptSig.getD []
      sequence := self.sequence.getD .max
      witness := self.finalScriptWitness.getD [] }

/-- The transaction input without its script signature and witness. -/
def TxIn.erase (self : TxIn) : TxIn :=
  { self with scriptSig := [], witness := [] }

/-- The transaction without its script signatures and witnesses. -/
def Transaction.erase (self : Transaction) : Transaction :=
  { self with input := self.input.map TxIn.erase }

/-- The silent payment output has no script yet. -/
def Output.uncomputed (self : Output) : Bool :=
  self.spV0Info.isSome && self.scriptPubkey.isEmpty

/-- `uncomputed_silent_payment_output`. -/
def uncomputedSilentPaymentOutput (psbt : Psbt) : Option Nat :=
  psbt.outputs.findIdx? Output.uncomputed

/-- Erasing the signature data of an input gives its unsigned form. -/
theorem Input.signedTxIn_spec {ε : Type} {i : Input} {txIn : TxIn}
    (h : (i.signedTxIn : Result ε TxIn) = .ok txIn) : txIn.erase = i.unsignedTxIn := by
  unfold signedTxIn at h
  split at h
  · cases h
  · cases h
    rfl

/-- No output is left without its script exactly if the search finds none. -/
theorem uncomputedSilentPaymentOutput_eq_none {psbt : Psbt} :
    uncomputedSilentPaymentOutput psbt = none ↔ ∀ o ∈ psbt.outputs, o.uncomputed = false :=
  List.findIdx?_eq_none_iff

/-! ## The fee -/

namespace Psbt

variable [TxidHash] [Weights]

/-- `Psbt::fee`. -/
def fee (self : Psbt) : Result FeeError UInt64 := do
  let inputValue ← self.inputs.foldlM (fun inputValue input => do
    let utxo ← input.fundingUtxo.mapErr .fundingUtxo
    Result.okOr .inputOverflow (checkedAdd64 inputValue (toSat utxo.value))) 0
  let outputValue ← self.outputs.foldlM (fun outputValue output =>
    Result.okOr .outputOverflow (checkedAdd64 outputValue (toSat output.amount))) 0
  -- `checked_sub`
  if inputValue < outputValue then .err .negative else .ok (inputValue - outputValue)

end Psbt

/-! ## The Extractor -/

/-- `Extractor`. -/
structure Extractor where
  psbt : Psbt

namespace Extractor

/-- `Extractor::DEFAULT_MAX_FEE_RATE`: 25 000 satoshis per virtual byte. -/
def DEFAULT_MAX_FEE_RATE : FeeRate := 25000 * 250

/-- `Extractor::new`. -/
def new (psbt : Psbt) : Result ExtractError Extractor :=
  if psbt.inputs.any fun input => !input.isFinalized then
    .err .psbtNotFinalized
  else do
    let _ ← psbt.determineLockTime.mapErr .determineLockTime
    match uncomputedSilentPaymentOutput psbt with
    | some index => .err (.silentPaymentOutputScriptNotComputed index)
    | none => .ok { psbt := psbt }

/-- `Extractor::internal_extract_tx`. -/
def internalExtractTx (self : Extractor) : Result ExtractTxError Transaction :=
  if !self.psbt.isFinalized then
    .err .unfinalized
  else do
    let lockTime ← self.psbt.determineLockTime.mapErr .determineLockTime
    match uncomputedSilentPaymentOutput self.psbt with
    | some index => .err (.silentPaymentOutputScriptNotComputed index)
    | none => do
        let input ← self.psbt.inputs.mapM Input.signedTxIn
        .ok {
          version := self.psbt.global.txVersion
          lockTime := lockTime
          input := input
          output := self.psbt.outputs.map Output.txOut }

/-- `Extractor::extract_tx_unchecked_fee_rate`. -/
def extractTxUncheckedFeeRate (self : Extractor) : Result ExtractTxError Transaction :=
  self.internalExtractTx

/-- `Extractor::internal_extract_tx_with_fee_rate_limit`. -/
def internalExtractTxWithFeeRateLimit [TxidHash] [Weights] (self : Extractor)
    (maxFeeRate : FeeRate) : Result ExtractTxFeeRateError Transaction := do
  let fee ← self.psbt.fee.mapErr .fee
  let tx ← self.internalExtractTx.mapErr .extractTx
  -- a division by zero panics
  if weight tx = 0 then
    .panicked
  else
    let feeRate := saturatingMul64 fee 1000 / weight tx
    if feeRate > maxFeeRate then .err (.feeTooHigh feeRate maxFeeRate) else .ok tx

/-- `Extractor::extract_tx_with_fee_rate_limit`. -/
def extractTxWithFeeRateLimit [TxidHash] [Weights] (self : Extractor) (maxFeeRate : FeeRate) :
    Result ExtractTxFeeRateError Transaction :=
  self.internalExtractTxWithFeeRateLimit maxFeeRate

/-- `Extractor::extract_tx`. -/
def extractTx [TxidHash] [Weights] (self : Extractor) :
    Result ExtractTxFeeRateError Transaction :=
  self.internalExtractTxWithFeeRateLimit DEFAULT_MAX_FEE_RATE

/-- The extractor accepts a finalized PSBT with a lock time and all its scripts. -/
theorem new_eq_ok {psbt : Psbt} {extractor : Extractor} :
    new psbt = .ok extractor ↔
      extractor.psbt = psbt ∧ psbt.isFinalized ∧ (∃ l, psbt.determineLockTime = .ok l) ∧
        ∀ o ∈ psbt.outputs, o.uncomputed = false := by
  rw [← uncomputedSilentPaymentOutput_eq_none]
  have hfinal : (psbt.inputs.any fun input => !input.isFinalized) = !psbt.isFinalized := by
    simp [Psbt.isFinalized, List.any_eq_not_all_not]
  unfold new
  rw [hfinal]
  cases psbt.isFinalized with
  | false => simp
  | true =>
      simp only [Bool.not_true, Bool.false_eq_true, if_false, true_and]
      rcases psbt.determineLockTime_spec with ⟨-, hlock⟩ | ⟨-, l, -, hlock⟩
      · simp [hlock]
      · cases uncomputedSilentPaymentOutput psbt with
        | some index => simp [hlock]
        | none =>
            obtain ⟨psbt'⟩ := extractor
            simp [hlock, eq_comm]

/-- The inputs of a finalized PSBT have signed forms, and these erase to the
unsigned ones. -/
theorem exists_signedTxIns {ε : Type} {psbt : Psbt} (h : psbt.isFinalized) :
    ∃ input : List TxIn, psbt.inputs.mapM Input.signedTxIn = (.ok input : Result ε _) ∧
      input.map TxIn.erase = psbt.inputs.map Input.unsignedTxIn := by
  have hall : ∀ i ∈ psbt.inputs, i.isFinalized := List.all_eq_true.mp h
  generalize psbt.inputs = inputs at hall ⊢
  induction inputs with
  | nil => exact ⟨[], rfl, rfl⟩
  | cons i inputs ih =>
      rw [List.forall_mem_cons] at hall
      obtain ⟨input, hinput, hmap⟩ := ih hall.2
      obtain ⟨txIn, htxIn⟩ : ∃ txIn, (i.signedTxIn : Result ε TxIn) = .ok txIn := by
        simp [Input.signedTxIn, hall.1]
      refine ⟨txIn :: input, ?_, ?_⟩
      · rw [List.mapM_cons, htxIn, hinput]
        rfl
      · rw [List.map_cons, List.map_cons, Input.signedTxIn_spec htxIn, hmap]

/-- The extracted transaction erases to the unsigned one. -/
theorem extractTxUncheckedFeeRate_spec {psbt : Psbt} {extractor : Extractor}
    {unsigned : Transaction} (hnew : new psbt = .ok extractor)
    (hunsigned : psbt.unsignedTx = .ok unsigned) :
    ∃ tx, extractor.extractTxUncheckedFeeRate = .ok tx ∧ tx.erase = unsigned := by
  obtain ⟨hpsbt, hfinal, -, hcomputed⟩ := new_eq_ok.mp hnew
  obtain ⟨l, hl, rfl⟩ := Psbt.unsignedTx_eq_ok.mp hunsigned
  obtain ⟨input, hinput, herase⟩ := exists_signedTxIns (ε := ExtractTxError) hfinal
  have hnone := uncomputedSilentPaymentOutput_eq_none.mpr hcomputed
  refine ⟨{ psbt.unsignedTxAt l with input := input }, ?_, ?_⟩
  · unfold extractTxUncheckedFeeRate internalExtractTx
    simp only [hpsbt, hfinal, hl, hnone, hinput, Bool.not_true, Bool.false_eq_true, if_false,
      Result.mapErr_ok, Result.ok_bind]
    rfl
  · simp [Transaction.erase, Psbt.unsignedTxAt, herase]

/-- A fee limit withholds transactions and changes none. -/
theorem internalExtractTxWithFeeRateLimit_spec [TxidHash] [Weights] {extractor : Extractor}
    {maxFeeRate : FeeRate} {tx : Transaction}
    (h : extractor.internalExtractTxWithFeeRateLimit maxFeeRate = .ok tx) :
    extractor.extractTxUncheckedFeeRate = .ok tx := by
  obtain ⟨fee, -, hrest⟩ := Result.bind_eq_ok.mp h
  obtain ⟨tx', htx', hlimit⟩ := Result.bind_eq_ok.mp hrest
  split at hlimit
  · cases hlimit
  · dsimp only at hlimit
    split at hlimit
    · cases hlimit
    · cases hlimit
      exact Result.mapErr_eq_ok.mp htx'

end Extractor

end RustPsbt
