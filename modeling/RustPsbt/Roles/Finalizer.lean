import RustPsbt.Roles.Descriptor
import RustPsbt.Roles.Signer

/-!
# The Finalizer

A Finalizer turns the signatures of every input into final scripts and lets the
interpreter of `miniscript` check the result.

Main results:

- Theorem `Finalizer.finalize_spec`: finalizing sets final scripts, clears signing
  material and keeps everything else.
- Theorem `Finalizer.returns_finalize`: no `expect` or assertion of it is reached.
-/

namespace RustPsbt

/-- The script interpreter of `miniscript`. -/
class ScriptInterpreter [BitcoinTypes] where
  /-- `interpreter::Error`. -/
  InterpreterError : Type
  /-- `Interpreter`. -/
  Interpreter : Type
  /-- `Interpreter::from_txdata`. -/
  fromTxdata : ScriptBuf → ScriptBuf → Witness → Sequence → LockTime →
    Except InterpreterError Interpreter
  /-- `Interpreter::iter`: the verdicts on the constraints, in turn. -/
  iter : Interpreter → Transaction → Nat → List TxOut → List (Except InterpreterError Unit)

export ScriptInterpreter (InterpreterError)

variable [BitcoinTypes] [TxidHash]

/-! ## Final scripts -/

/-- `FinalScripts`. -/
inductive FinalScripts where
  | segwit (witness : Witness)
  | wrapped (scriptSig : ScriptBuf) (witness : Witness)
  | legacy (scriptSig : ScriptBuf)

/-- The final script signature, if the input needs one. -/
def FinalScripts.scriptSig : FinalScripts → Option ScriptBuf
  | segwit _ => none
  | wrapped scriptSig _ => some scriptSig
  | legacy scriptSig => some scriptSig

/-- The final witness, if the input needs one. -/
def FinalScripts.witness : FinalScripts → Option Witness
  | segwit witness => some witness
  | wrapped _ witness => some witness
  | legacy _ => none

namespace Input

omit [TxidHash] in
/-- `Input::is_finalized`. -/
def isFinalized (self : Input) : Bool :=
  self.finalScriptSig.isSome || self.finalScriptWitness.isSome

/-- `Input::has_funding_utxo`. -/
def hasFundingUtxo (self : Input) : Bool :=
  self.fundingUtxo.toOption.isSome

/-- `Input::finalize`. -/
def finalize {ε : Type} (self : Input) (scripts : FinalScripts) : Result ε Input :=
  -- `debug_assert!(self.has_funding_utxo())`
  if !self.hasFundingUtxo then
    .panicked
  else
    .ok {
      previousTxid := self.previousTxid
      spentOutputIndex := self.spentOutputIndex
      nonWitnessUtxo := self.nonWitnessUtxo
      witnessUtxo := self.witnessUtxo
      finalScriptSig := scripts.scriptSig
      finalScriptWitness := scripts.witness
      -- these determine the unsigned transaction
      sequence := self.sequence
      minTime := self.minTime
      minHeight := self.minHeight
      partialSigs := {}
      sighashType := none
      redeemScript := none
      witnessScript := none
      bip32Derivations := {}
      ripemd160Preimages := {}
      sha256Preimages := {}
      hash160Preimages := {}
      hash256Preimages := {}
      tapKeySig := none
      tapScriptSigs := {}
      tapScripts := {}
      tapKeyOrigins := {}
      tapInternalKey := none
      tapMerkleRoot := none
      spEcdhShares := self.spEcdhShares
      spDleqProofs := self.spDleqProofs
      proprietaries := self.proprietaries
      unknowns := self.unknowns }

omit [TxidHash] in
/-- The part of an input that finalizing keeps. -/
def kept (self : Input) : Input :=
  { new self.outPoint with
    sequence := self.sequence
    minTime := self.minTime
    minHeight := self.minHeight
    nonWitnessUtxo := self.nonWitnessUtxo
    witnessUtxo := self.witnessUtxo
    spEcdhShares := self.spEcdhShares
    spDleqProofs := self.spDleqProofs
    proprietaries := self.proprietaries
    unknowns := self.unknowns }

omit [TxidHash] in
/-- The right input is finalized and keeps what finalizing keeps of the left one. -/
structure FinalizedFrom (i j : Input) : Prop where
  isFinalized : j.isFinalized
  kept : j.kept = i.kept

theorem finalize_spec {ε : Type} {i j : Input} {scripts : FinalScripts}
    (h : (i.finalize scripts : Result ε Input) = .ok j) : FinalizedFrom i j := by
  unfold finalize at h
  split at h
  · cases h
  · cases h
    refine ⟨?_, rfl⟩
    cases scripts <;> rfl

/-- The assertion of `finalize` holds for funded inputs. -/
theorem returns_finalize {ε : Type} {i : Input} {utxo : TxOut} (scripts : FinalScripts)
    (h : i.fundingUtxo = .ok utxo) : (i.finalize scripts : Result ε Input).Returns := by
  simp [finalize, hasFundingUtxo, h]

namespace FinalizedFrom

variable {i j : Input}

omit [TxidHash] in
theorem txFields_eq (h : FinalizedFrom i j) : j.txFields = i.txFields :=
  (congrArg txFields h.kept : j.kept.txFields = i.kept.txFields)

/-- A finalized input is funded by the same output. -/
theorem fundingUtxo_eq (h : FinalizedFrom i j) : j.fundingUtxo = i.fundingUtxo :=
  (congrArg fundingUtxo h.kept : j.kept.fundingUtxo = i.kept.fundingUtxo)

end FinalizedFrom

end Input

/-! ## The interpreter check -/

/-- `PartialSigsSighashTypeError`. -/
inductive PartialSigsSighashTypeError where
  | nonStandardInputSighashType (inputIndex : Nat) (error : NonStandardSighashTypeError)
  | nonStandardPartialSigsSighashType (inputIndex : Nat) (error : NonStandardSighashTypeError)
  | wrongSighashFlag (inputIndex : Nat) (got required : EcdsaSighashType)
      (pubkey : PublicKey)

/-- `InterpreterCheckInputError`. -/
inductive InterpreterCheckInputError [ScriptInterpreter] where
  | constructor (inputIndex : Nat) (error : InterpreterError)
  | satisfaction (inputIndex : Nat) (error : InterpreterError)

/-- `InterpreterCheckError`. -/
inductive InterpreterCheckError [ScriptInterpreter] where
  | determineLockTime (e : DetermineLockTimeError)
  | interpreterCheckInput (e : InterpreterCheckInputError)

namespace Psbt

omit [TxidHash] in
/-- `Psbt::is_finalized`. -/
def isFinalized (self : Psbt) : Bool :=
  self.inputs.all Input.isFinalized

omit [TxidHash] in
/-- One round of the inner loop of `check_partial_sigs_sighash_type`. -/
def checkPartialSig [SignatureTypes] (inputIndex : Nat) (required : EcdsaSighashType)
    (entry : PublicKey × EcdsaSignature) : Result PartialSigsSighashTypeError PUnit := do
  let flag ←
    (Result.ofExcept (EcdsaSighashType.fromStandard (ecdsaSighashType entry.2).toU32)).mapErr
      (.nonStandardPartialSigsSighashType inputIndex)
  if required ≠ flag then
    .err (.wrongSighashFlag inputIndex flag required entry.1)
  else
    .ok ⟨⟩

omit [TxidHash] in
/-- `Psbt::check_partial_sigs_sighash_type`. -/
def checkPartialSigsSighashType [SignatureTypes] (self : Psbt) :
    Result PartialSigsSighashTypeError PUnit :=
  forM self.inputs.zipIdx fun (input, inputIndex) => do
    let required ←
      match input.sighashType with
      | some psbtHashTy =>
          (Result.ofExcept psbtHashTy.ecdsaHashTy).mapErr
            (.nonStandardInputSighashType inputIndex)
      | none => .ok .all
    forM input.partialSigs.toList (checkPartialSig inputIndex required)

variable [ScriptInterpreter]

/-- `Psbt::interpreter_check_input`. -/
def interpreterCheckInput (unsignedTx : Transaction) (index : Nat) (input : Input)
    (utxos : List TxOut) (witness : Witness) (scriptSig : ScriptBuf) :
    Result InterpreterCheckInputError PUnit := do
  let utxo ← expect input.fundingUtxo.toOption
  let spk := utxo.scriptPubkey
  let cltv := input.lockTime
  let csv := input.sequence.getD .max
  let interpreter ←
    (Result.ofExcept (ScriptInterpreter.fromTxdata spk scriptSig witness csv cltv)).mapErr
      (.constructor index)
  let iter := ScriptInterpreter.iter interpreter unsignedTx index utxos
  -- the first error is returned
  forM iter fun satisfied => (Result.ofExcept satisfied).mapErr (.satisfaction index)

/-- `Psbt::interpreter_check`. -/
def interpreterCheck (self : Psbt) : Result InterpreterCheckError PUnit :=
  -- `debug_assert!(self.is_finalized())`
  if !self.isFinalized then
    .panicked
  else do
    let unsignedTx ← self.unsignedTx.mapErr .determineLockTime
    let utxos ← self.inputs.mapM fun input => expect input.fundingUtxo.toOption
    forM self.inputs.zipIdx fun (input, index) =>
      (interpreterCheckInput unsignedTx index input utxos
        (input.finalScriptWitness.getD []) (input.finalScriptSig.getD [])).mapErr
          .interpreterCheckInput

/-- The interpreter check returns for finalized PSBTs whose inputs are funded. -/
theorem returns_interpreterCheck {self : Psbt} (hfinal : self.isFinalized)
    (hfunded : ∀ i ∈ self.inputs, ∃ utxo, i.fundingUtxo = .ok utxo) :
    self.interpreterCheck.Returns := by
  unfold interpreterCheck
  simp only [hfinal, Bool.not_true, Bool.false_eq_true, if_false]
  have hexpect : ∀ {ε : Type}, ∀ i ∈ self.inputs,
      (expect i.fundingUtxo.toOption : Result ε TxOut).Returns := by
    intro ε i hi
    obtain ⟨utxo, hutxo⟩ := hfunded i hi
    rw [hutxo]
    trivial
  apply Result.Returns.bind
  · rw [Result.returns_mapErr, unsignedTx]
    exact self.returns_determineLockTime.bind fun _ _ => trivial
  · intro unsignedTx _
    refine (Result.returns_mapM hexpect).bind fun utxos _ => ?_
    apply Result.returns_forM
    rintro ⟨i, index⟩ hi
    rw [Result.returns_mapErr]
    have hmem : i ∈ self.inputs := (List.mem_zipIdx' hi).2 ▸ List.getElem_mem _
    refine (hexpect i hmem).bind fun utxo _ => ?_
    apply Result.Returns.bind
    · rw [Result.returns_mapErr]
      exact Result.returns_ofExcept _
    · intro interpreter _
      apply Result.returns_forM
      intro satisfied _
      rw [Result.returns_mapErr]
      exact Result.returns_ofExcept satisfied

/-- The right PSBT is the left one with all inputs finalized. -/
structure FinalizedFrom (p q : Psbt) : Prop where
  global : q.global = p.global
  inputs : List.Forall₂ Input.FinalizedFrom p.inputs q.inputs
  outputs : q.outputs = p.outputs

end Psbt

/-! ## The Finalizer -/

namespace Finalizer

/-- `finalizer::Error`. -/
inductive Error where
  | fundingUtxo (e : FundingUtxoError)
  | determineLockTime (e : DetermineLockTimeError)
  | partialSigsSighashType (e : PartialSigsSighashTypeError)

/-- The checks of `Finalizer::new`. -/
def check [SignatureTypes] (psbt : Psbt) : Result Error PUnit := do
  forM psbt.inputs fun input => do
    let _ ← input.fundingUtxo.mapErr .fundingUtxo
    .ok ⟨⟩
  let _ ← psbt.determineLockTime.mapErr .determineLockTime
  psbt.checkPartialSigsSighashType.mapErr .partialSigsSighashType

end Finalizer

/-- `Finalizer`: a PSBT that passed the checks. -/
structure Finalizer [SignatureTypes] where
  psbt : Psbt
  checked : Finalizer.check psbt = .ok ⟨⟩

variable [Miniscript] [ScriptInterpreter]

/-- `FinalizeInputError`. -/
inductive FinalizeInputError where
  | final (e : InputError)

/-- `FinalizeError`. -/
inductive FinalizeError where
  | finalizeInput (inputIndex : Nat) (error : FinalizeInputError)
  | interpreterCheck (e : InterpreterCheckError)

namespace Finalizer

variable [SignatureTypes] [KeyHashes] [ScriptHashes]

/-- `Finalizer::new`. -/
def new (psbt : Psbt) : Result Error Finalizer :=
  match h : check psbt with
  | .ok ⟨⟩ => .ok { psbt := psbt, checked := h }
  | .error e => .error e

/-- The witness and the script signature that `miniscript` finds for an input. -/
def satisfaction (self : Finalizer) (input : Input) (allowMall : Bool) :
    Result InputError (List Bytes × ScriptBuf) := do
  let utxo ← Psbt.expect input.fundingUtxo.toOption
  let spk := utxo.scriptPubkey
  if ScriptBuf.isP2tr spk then do
    let wit ← constructTapWitness spk input allowMall
    .ok (wit, [])
  else do
    let desc ← getDescriptor self.psbt.inputs input
    if !allowMall then
      ofMiniscript (Miniscript.getSatisfaction desc input.satisfier)
    else
      ofMiniscript (Miniscript.getSatisfactionMall desc input.satisfier)

/-- `Finalizer::final_script_sig_and_witness`. -/
def finalScriptSigAndWitness (self : Finalizer) (input : Input) (allowMall : Bool) :
    Result InputError FinalScripts := do
  let (witness, scriptSig) ← self.satisfaction input allowMall
  let outputType ← input.outputType.mapErr fun _ => .unknownOutputType
  .ok (match outputType with
    | .wpkh | .wsh | .tr => .segwit witness
    | .shWpkh | .shWsh => .wrapped scriptSig witness
    | .bare | .sh => .legacy scriptSig)

/-- `Finalizer::finalize_input`. -/
def finalizeInput (self : Finalizer) (input : Input) : Result FinalizeInputError Input := do
  let allowMall := true
  let fields ← (self.finalScriptSigAndWitness input allowMall).mapErr .final
  input.finalize fields

/-- One round of the loop of `Finalizer::finalize`. -/
def finalizeRound (self : Finalizer) (entry : Input × Nat) : Result FinalizeError Input :=
  let (input, inputIndex) := entry
  -- already-finalized inputs are passed through unchanged
  if input.isFinalized then
    .ok input
  else
    (self.finalizeInput input).mapErr (.finalizeInput inputIndex)

/-- `Finalizer::finalize`. -/
def finalize (self : Finalizer) : Result FinalizeError Psbt := do
  let inputs ← self.psbt.inputs.zipIdx.mapM self.finalizeRound
  let finalized : Psbt :=
    { global := self.psbt.global, inputs := inputs, outputs := self.psbt.outputs }
  finalized.interpreterCheck.mapErr .interpreterCheck
  .ok finalized

omit [Miniscript] [ScriptInterpreter] [KeyHashes] [ScriptHashes] in
/-- A finalizer is made exactly of the PSBTs that pass the checks. -/
theorem new_eq_ok {psbt : Psbt} {finalizer : Finalizer} :
    new psbt = .ok finalizer ↔ finalizer.psbt = psbt := by
  unfold new
  constructor
  · intro h
    split at h
    · cases h
      rfl
    · cases h
  · rintro rfl
    split
    · rfl
    · rename_i e h
      rw [finalizer.checked] at h
      cases h

omit [Miniscript] [ScriptInterpreter] [KeyHashes] [ScriptHashes] in
/-- Every input of a finalizer is funded. -/
theorem funded (self : Finalizer) {i : Input} (hi : i ∈ self.psbt.inputs) :
    ∃ utxo, i.fundingUtxo = .ok utxo := by
  obtain ⟨_, hloop, -⟩ := Result.bind_eq_ok.mp self.checked
  obtain ⟨utxo, hutxo, -⟩ := Result.bind_eq_ok.mp (Result.forM_eq_ok.mp hloop i hi)
  exact ⟨utxo, Result.mapErr_eq_ok.mp hutxo⟩

/-- A round passes a finalized input through or finalizes the input. -/
theorem finalizeRound_spec {self : Finalizer} {entry : Input × Nat} {j : Input}
    (h : self.finalizeRound entry = .ok j) : Input.FinalizedFrom entry.1 j := by
  unfold finalizeRound at h
  dsimp only at h
  split at h
  · rename_i hfinal
    cases h
    exact ⟨hfinal, rfl⟩
  · obtain ⟨fields, -, hfinalize⟩ := Result.bind_eq_ok.mp (Result.mapErr_eq_ok.mp h)
    exact Input.finalize_spec hfinalize

/-- The rounds finalize every input. -/
theorem finalizeRounds_spec {self : Finalizer} {inputs : List Input}
    (h : self.psbt.inputs.zipIdx.mapM self.finalizeRound = .ok inputs) :
    List.Forall₂ Input.FinalizedFrom self.psbt.inputs inputs := by
  have hrounds := (Result.mapM_eq_ok.mp h).imp fun entry j => finalizeRound_spec
  rw [← List.zipIdx_map_fst 0 self.psbt.inputs, List.forall₂_map_left_iff]
  exact hrounds

/-- Finalizing finalizes every input and changes nothing else. -/
theorem finalize_spec {self : Finalizer} {f : Psbt} (h : self.finalize = .ok f) :
    Psbt.FinalizedFrom self.psbt f := by
  obtain ⟨inputs, hinputs, hrest⟩ := Result.bind_eq_ok.mp h
  obtain ⟨_, -, hok⟩ := Result.bind_eq_ok.mp hrest
  cases hok
  exact ⟨rfl, finalizeRounds_spec hinputs, rfl⟩

omit [ScriptInterpreter] in
/-- A funded input is satisfied or reported not to be. -/
theorem returns_satisfaction (self : Finalizer) {input : Input} {utxo : TxOut}
    (allowMall : Bool) (h : input.fundingUtxo = .ok utxo) :
    (self.satisfaction input allowMall).Returns := by
  unfold satisfaction
  rw [h]
  dsimp only [Except.toOption, Psbt.expect, Result.ok_bind]
  split
  · rename_i hp2tr
    exact (returns_constructTapWitness input allowMall hp2tr).bind fun _ _ => trivial
  · refine (returns_getDescriptor self.psbt.inputs h).bind fun desc _ => ?_
    split <;> exact returns_ofMiniscript _

omit [ScriptInterpreter] in
/-- The final scripts of a funded input are found or reported missing. -/
theorem returns_finalScriptSigAndWitness (self : Finalizer) {input : Input} {utxo : TxOut}
    (allowMall : Bool) (h : input.fundingUtxo = .ok utxo) :
    (self.finalScriptSigAndWitness input allowMall).Returns := by
  refine (self.returns_satisfaction allowMall h).bind fun satisfied _ => ?_
  apply Result.Returns.bind
  · rw [Result.returns_mapErr]
    exact input.returns_outputType
  · intro outputType _
    trivial

/-- Finalizing returns: no `expect` or assertion is reached. -/
theorem returns_finalize (self : Finalizer) : self.finalize.Returns := by
  apply Result.Returns.bind
  · apply Result.returns_mapM
    rintro ⟨input, inputIndex⟩ hmem
    have hi : input ∈ self.psbt.inputs := (List.mem_zipIdx' hmem).2 ▸ List.getElem_mem _
    obtain ⟨utxo, hutxo⟩ := self.funded hi
    unfold finalizeRound
    dsimp only
    split
    · trivial
    · rw [Result.returns_mapErr]
      apply Result.Returns.bind
      · rw [Result.returns_mapErr]
        exact self.returns_finalScriptSigAndWitness true hutxo
      · intro fields _
        exact Input.returns_finalize fields hutxo
  · intro inputs hinputs
    have hfinal := finalizeRounds_spec hinputs
    refine Result.Returns.bind ?_ fun _ _ => trivial
    rw [Result.returns_mapErr]
    apply Psbt.returns_interpreterCheck
    · refine List.all_eq_true.mpr fun j hj => ?_
      obtain ⟨i, -, hij⟩ := Result.exists_of_mem_right hfinal hj
      exact hij.isFinalized
    · intro j hj
      obtain ⟨i, hi, hij⟩ := Result.exists_of_mem_right hfinal hj
      rw [hij.fundingUtxo_eq]
      exact self.funded hi

end Finalizer

end RustPsbt
