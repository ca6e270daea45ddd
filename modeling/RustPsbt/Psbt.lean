import RustPsbt.Map.Global
import RustPsbt.Map.Input
import RustPsbt.Map.Output

/-!
# PSBTs

A PSBT, its lock time, its unique id and the Combiner, as the source computes them.  The
modules that follow say what comes out.
-/

namespace RustPsbt

variable [BitcoinTypes]

/-- A partially signed transaction. -/
structure Psbt where
  global : Global
  inputs : List Input
  outputs : List Output
deriving DecidableEq

/-- `DetermineLockTimeError`: inputs require both kinds of lock time. -/
inductive DetermineLockTimeError where
  | conflict
deriving DecidableEq

/-- `psbt::CombineError`. -/
inductive CombineError where
  | global (e : Global.CombineError)
  | input (e : Input.CombineError)
  | output (e : Output.CombineError)
  | lockTime (e : DetermineLockTimeError)

/-- Shares and proofs are both present or both absent. -/
def SpPaired {α β : Type} (shares : BTreeMap CompressedPublicKey α)
    (proofs : BTreeMap CompressedPublicKey β) : Prop :=
  shares.isEmpty = proofs.isEmpty

namespace Psbt

/-- The cross-field rules of a version 2 PSBT. -/
structure Consistent [TxidHash] (self : Psbt) : Prop where
  version : self.global.version = .two
  inputCount : self.global.inputCount = self.inputs.length
  outputCount : self.global.outputCount = self.outputs.length
  nonWitnessUtxo : ∀ i ∈ self.inputs, ∀ tx, i.nonWitnessUtxo = some tx →
    computeTxid tx = i.previousTxid
  globalSp : SpPaired self.global.spEcdhShares self.global.spDleqProofs
  inputSp : ∀ i ∈ self.inputs, SpPaired i.spEcdhShares i.spDleqProofs
  validOutputs : ∀ o ∈ self.outputs, o.validate = .ok ()

/-- `Option::expect`. -/
def expect {ε α : Type} : Option α → Result ε α
  | some a => .ok a
  | none => .panicked

omit [BitcoinTypes] in
/-- A value is expected of a call exactly if it returned the value. -/
theorem expect_toOption_eq_ok {ε ε' α : Type} {r : Result ε α} {a : α} :
    (expect r.toOption : Result ε' α) = .ok a ↔ r = .ok a := by
  cases r <;> simp [expect]

/-- `Psbt::determine_lock_time`. -/
def determineLockTime (self : Psbt) : Result DetermineLockTimeError LockTime :=
  let requireTimeBasedLockTime := self.inputs.any Input.requiresTimeBasedLockTime
  let requireHeightBasedLockTime := self.inputs.any Input.requiresHeightBasedLockTime
  if requireTimeBasedLockTime && requireHeightBasedLockTime then
    .err .conflict
  else
    let haveLockTime := self.inputs.any Input.hasLockTime
    if haveLockTime then
      let allInputsSatisfiedWithHeightBasedLockTime :=
        self.inputs.all Input.isSatisfiedWithHeightBasedLockTime
      if allInputsSatisfiedWithHeightBasedLockTime then do
        let height ← expect (← expect (self.inputs.map Input.minHeight).max?)
        .ok (.blocks height.height)
      else do
        let time ← expect (← expect (self.inputs.map Input.minTime).max?)
        .ok (.seconds time)
    else
      .ok (self.global.fallbackLockTime.getD .zero)

/-- `Psbt::unsigned_tx`. -/
def unsignedTx (self : Psbt) : Result DetermineLockTimeError Transaction := do
  let lockTime ← self.determineLockTime
  .ok {
    version := self.global.txVersion
    lockTime := lockTime
    input := self.inputs.map Input.unsignedTxIn
    output := self.outputs.map Output.txOut }

/-- The transaction whose txid is the id of a PSBT: sequences are zero, and a
silent payment output is identified by its address. -/
def idTx (self : Psbt) : Result DetermineLockTimeError Transaction := do
  let tx ← self.unsignedTx
  .ok { tx with
    input := tx.input.map fun input => { input with sequence := .zero }
    output := self.outputs.map Output.idTxOut }

/-- `Psbt::id`. -/
def id [TxidHash] (self : Psbt) : Result DetermineLockTimeError Txid := do
  let tx ← self.idTx
  .ok (computeTxid tx)

/-- The `for` loops of `Psbt::combine_with`: the maps are combined in pairs, the
rest of `self` stays and the rest of `other` is dropped. -/
def combineZip {ε α : Type} (combine : α → α → Result ε α) :
    List α → List α → Result ε (List α)
  | a :: self, b :: other => do
      let c ← combine a b
      let rest ← combineZip combine self other
      .ok (c :: rest)
  | self, [] => .ok self
  | [], _ :: _ => .ok []

/-- `Psbt::combine_with`. -/
def combineWith (self other : Psbt) : Result CombineError Psbt := do
  let global ← (self.global.combine other.global).mapErr .global
  let inputs ← (combineZip Input.combine self.inputs other.inputs).mapErr .input
  let outputs ← (combineZip Output.combine self.outputs other.outputs).mapErr .output
  let combined : Psbt := { global := global, inputs := inputs, outputs := outputs }
  let _ ← combined.determineLockTime.mapErr .lockTime
  .ok combined

end Psbt

/-- `combine`. -/
def combine (this that : Psbt) : Result CombineError Psbt :=
  this.combineWith that

end RustPsbt
