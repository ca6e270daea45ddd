import RustPsbt.Map.Funding
import RustPsbt.Reference.Signing

/-!
# Signable inputs

An input becomes signable after its data are checked: structurally, or strictly
against everything that its creator could have invented.

Main results:

- Theorem `SignableInput.checkData_spec`: what the structural checks establish.
- Theorem `SignableInput.verify_authentic`: what the strict checks establish.
-/

namespace RustPsbt

section Generic

variable [BitcoinTypes] [TxidHash]

/-- `SignableInput`; that it belongs to one session is left to the type system. -/
structure SignableInput where
  index : Nat
  outputType : OutputType
  prevout : TxOut
  scriptCode : ScriptBuf
  sighashTy : PsbtSighashType
deriving DecidableEq

namespace Input

/-! ## Sighash types and script codes -/

omit [TxidHash] in
/-- `Input::ecdsa_hash_ty`. -/
def ecdsaHashTy (self : Input) : Except NonStandardSighashTypeError EcdsaSighashType :=
  match self.sighashType with
  | some sighashType => sighashType.ecdsaHashTy
  | none => .ok .all

omit [TxidHash] in
/-- `Input::taproot_hash_ty`. -/
def taprootHashTy (self : Input) : Except InvalidSighashTypeError TapSighashType :=
  match self.sighashType with
  | some sighashType => sighashType.taprootHashTy
  | none => .ok .default

omit [TxidHash] in
/-- The sighash type that `check_data` chooses for new signatures. -/
def sighashTyFor (self : Input) (outputType : OutputType) : PsbtSighashType :=
  match self.sighashType, outputType with
  | none, .tr => .ofTaproot .default
  | none, _ => .ALL
  | some ty, _ => ty

omit [TxidHash] in
/-- The script code that `check_data` looks up. -/
def scriptCodeFor (self : Input) (outputType : OutputType) (prevout : TxOut) :
    Result SignError ScriptBuf :=
  match outputType with
  | .bare | .wpkh => .ok prevout.scriptPubkey
  | .sh | .shWpkh => Result.okOr .missingRedeemScript self.redeemScript
  | .wsh | .shWsh => Result.okOr .missingWitnessScript self.witnessScript
  | .tr => .ok []

omit [TxidHash] in
/-- The check of the declared sighash type in `check_data`. -/
def checkHashTy (self : Input) (outputType : OutputType) : Result SignError PUnit :=
  match outputType with
  | .tr => do
      let _ ← (Result.ofExcept self.taprootHashTy).mapErr fun _ => .invalidSighashType
      .ok ⟨⟩
  | _ => do
      let _ ← (Result.ofExcept self.ecdsaHashTy).mapErr fun _ => .invalidSighashType
      .ok ⟨⟩

end Input

/-- The sighash type is one of the output type's algorithm. -/
def PsbtSighashType.ValidFor (self : PsbtSighashType) (outputType : OutputType) : Prop :=
  match outputType.signingAlgorithm with
  | .schnorr => ∃ ty, self.taprootHashTy = .ok ty
  | .ecdsa => ∃ ty, self.ecdsaHashTy = .ok ty

omit [TxidHash] in
/-- A sighash type that passes the check is valid for the output type. -/
theorem Input.checkHashTy_spec {i : Input} {outputType : OutputType}
    (h : i.checkHashTy outputType = .ok ⟨⟩) :
    (i.sighashTyFor outputType).ValidFor outputType := by
  unfold checkHashTy at h
  unfold sighashTyFor PsbtSighashType.ValidFor OutputType.signingAlgorithm
  cases hty : i.sighashType with
  | none =>
      cases outputType with
      | tr => exact ⟨.default, PsbtSighashType.taprootHashTy_ofTaproot .default⟩
      | _ => exact ⟨.all, rfl⟩
  | some ty =>
      unfold taprootHashTy ecdsaHashTy at h
      rw [hty] at h
      cases outputType with
      | tr =>
          obtain ⟨t, ht, -⟩ := Result.bind_eq_ok.mp h
          exact ⟨t, Result.ofExcept_eq_ok.mp (Result.mapErr_eq_ok.mp ht)⟩
      | _ =>
          obtain ⟨t, ht, -⟩ := Result.bind_eq_ok.mp h
          exact ⟨t, Result.ofExcept_eq_ok.mp (Result.mapErr_eq_ok.mp ht)⟩

omit [TxidHash] in
theorem Input.returns_checkHashTy (i : Input) (outputType : OutputType) :
    (i.checkHashTy outputType).Returns := by
  unfold checkHashTy
  split
  all_goals
    refine Result.Returns.bind ?_ fun _ _ => trivial
    rw [Result.returns_mapErr]
    exact Result.returns_ofExcept _

omit [TxidHash] in
theorem Input.returns_scriptCodeFor (i : Input) (outputType : OutputType) (prevout : TxOut) :
    (i.scriptCodeFor outputType prevout).Returns := by
  unfold scriptCodeFor
  split
  · trivial
  · trivial
  · exact Result.returns_okOr _ _
  · exact Result.returns_okOr _ _
  · exact Result.returns_okOr _ _
  · exact Result.returns_okOr _ _
  · trivial

/-! ## Structural checks -/

namespace SignableInput

/-- `SignableInput::check_data`. -/
def checkData (psbt : Psbt) (index : Nat) : Result SignError SignableInput := do
  let input ← (psbt.checkedInput index).mapErr .indexOutOfBounds
  let prevout ← input.fundingUtxo.mapErr .fundingUtxo
  let outputType ← input.outputType.mapErr fun _ => .unknownOutputType
  -- a witness utxo cannot back a legacy signature
  if input.witnessUtxo.isSome ∧ outputType = .bare then
    .err .nonWitnessSig
  else
    let sighashTy := input.sighashTyFor outputType
    if sighashTy.isSingle ∧ index ≥ psbt.outputs.length then
      .err .sighashSingleMissingOutput
    else do
      let scriptCode ← input.scriptCodeFor outputType prevout
      input.checkHashTy outputType
      .ok {
        index := index
        outputType := outputType
        prevout := prevout
        scriptCode := scriptCode
        sighashTy := sighashTy }

/-- `SignableInput::assume_checked`. -/
def assumeChecked (psbt : Psbt) (index : Nat) : Result SignError SignableInput :=
  checkData psbt index

/-- What the structural checks establish about the input `i`. -/
structure Checked (psbt : Psbt) (index : Nat) (i : Input) (s : SignableInput) : Prop where
  index_eq : s.index = index
  checkedInput : psbt.checkedInput index = .ok i
  fundingUtxo : i.fundingUtxo = .ok s.prevout
  outputType : i.outputTypeFromSpk s.prevout.scriptPubkey = .ok s.outputType
  witness : s.outputType = .bare → i.witnessUtxo = none
  sighashTy : s.sighashTy = i.sighashTyFor s.outputType
  validFor : s.sighashTy.ValidFor s.outputType
  single : s.sighashTy.isSingle → index < psbt.outputs.length
  scriptCode : i.scriptCodeFor s.outputType s.prevout = .ok s.scriptCode

/-- Structural checks that pass establish what they are for. -/
theorem checkData_spec {psbt : Psbt} {index : Nat} {s : SignableInput}
    (h : checkData psbt index = .ok s) : ∃ i, Checked psbt index i s := by
  obtain ⟨i, hi, h⟩ := Result.bind_eq_ok.mp h
  obtain ⟨prevout, hprevout, h⟩ := Result.bind_eq_ok.mp h
  obtain ⟨outputType, htype, h⟩ := Result.bind_eq_ok.mp h
  have hi := Result.mapErr_eq_ok.mp hi
  have hprevout := Result.mapErr_eq_ok.mp hprevout
  have htype := Result.mapErr_eq_ok.mp htype
  -- `output_type` looks the same funding output up again
  unfold Input.outputType at htype
  rw [hprevout, Result.mapErr_ok, Result.ok_bind] at htype
  split at h
  · cases h
  · rename_i hwitness
    dsimp only at h
    split at h
    · cases h
    · rename_i hsingle
      obtain ⟨scriptCode, hcode, h⟩ := Result.bind_eq_ok.mp h
      obtain ⟨⟨⟩, hhash, h⟩ := Result.bind_eq_ok.mp h
      cases h
      refine ⟨i, rfl, hi, hprevout, htype, ?_, rfl, Input.checkHashTy_spec hhash, ?_, hcode⟩
      · intro hbare
        cases hutxo : i.witnessUtxo with
        | none => rfl
        | some utxo => exact absurd ⟨by simp [hutxo], hbare⟩ hwitness
      · intro hs
        exact not_le.mp fun hle => hsingle ⟨hs, hle⟩

/-- The structural checks return. -/
theorem returns_checkData (psbt : Psbt) (index : Nat) : (checkData psbt index).Returns := by
  apply Result.Returns.bind
  · rw [Result.returns_mapErr]
    exact psbt.returns_checkedInput index
  · intro i _
    apply Result.Returns.bind
    · rw [Result.returns_mapErr]
      exact i.returns_fundingUtxo
    · intro prevout _
      apply Result.Returns.bind
      · rw [Result.returns_mapErr]
        exact i.returns_outputType
      · intro outputType _
        dsimp only
        split
        · trivial
        · split
          · trivial
          · refine (i.returns_scriptCodeFor outputType prevout).bind fun _ _ => ?_
            exact (i.returns_checkHashTy outputType).bind fun _ _ => trivial

end SignableInput

/-! ## Strict checks -/

namespace Input

variable [ScriptHashes]

omit [TxidHash] in
/-- The check of `verify` on the redeem script. -/
def checkRedeemScript (self : Input) (spk : ScriptBuf) : Result SignError PUnit :=
  match self.redeemScript with
  | some redeemScript =>
      if ScriptBuf.newP2sh (scriptHash redeemScript) ≠ spk then .err .redeemScriptMismatch
      else .ok ⟨⟩
  | none => .ok ⟨⟩

omit [TxidHash] in
/-- The check of `verify` on the witness script. -/
def checkWitnessScript (self : Input) (outputType : OutputType) (spk : ScriptBuf) :
    Result SignError PUnit :=
  match self.witnessScript with
  | some witnessScript =>
      match outputType with
      | .wsh =>
          if ScriptBuf.newP2wsh (wscriptHash witnessScript) ≠ spk then
            .err .witnessScriptMismatchWsh
          else
            .ok ⟨⟩
      | .shWsh =>
          match self.redeemScript with
          | some redeemScript =>
              if ScriptBuf.newP2wsh (wscriptHash witnessScript) ≠ redeemScript ∨
                  ScriptBuf.newP2sh (scriptHash redeemScript) ≠ spk then
                .err .witnessScriptMismatchShWsh
              else
                .ok ⟨⟩
          | none => .ok ⟨⟩
      | _ => .ok ⟨⟩
  | none => .ok ⟨⟩

omit [TxidHash] in
/-- The check of `verify` on the internal key. -/
def checkInternalKey (self : Input) (outputType : OutputType) (spk : ScriptBuf) :
    Result SignError PUnit :=
  if outputType = .tr then
    match self.tapInternalKey with
    | some internalKey =>
        if ScriptBuf.newP2tr internalKey self.tapMerkleRoot ≠ spk then
          .err .taprootInternalKeyMismatch
        else
          .ok ⟨⟩
    | none => .ok ⟨⟩
  else
    .ok ⟨⟩

omit [TxidHash] [ScriptHashes] in
/-- `has_mismatch`: some signature of the input has another sighash type. -/
def hasMismatch [SignatureTypes] (self : Input) (sighashTy : PsbtSighashType) : Bool :=
  (self.tapKeySig.any fun sig =>
      PsbtSighashType.ofTaproot (taprootSighashType sig) ≠ sighashTy) ||
    (self.tapScriptSigs.values.any fun sig =>
      PsbtSighashType.ofTaproot (taprootSighashType sig) ≠ sighashTy) ||
    self.partialSigs.values.any fun sig =>
      PsbtSighashType.ofEcdsa (ecdsaSighashType sig) ≠ sighashTy

variable {i : Input} {outputType : OutputType} {spk : ScriptBuf}

omit [TxidHash] in
theorem checkRedeemScript_eq_ok :
    i.checkRedeemScript spk = .ok ⟨⟩ ↔
      ∀ r, i.redeemScript = some r → ScriptBuf.newP2sh (scriptHash r) = spk := by
  unfold checkRedeemScript
  cases i.redeemScript with
  | none => simp
  | some r => simp [eq_comm]

omit [TxidHash] in
theorem checkWitnessScript_spec (h : i.checkWitnessScript outputType spk = .ok ⟨⟩)
    {w : ScriptBuf} (hw : i.witnessScript = some w) :
    (outputType = .wsh → ScriptBuf.newP2wsh (wscriptHash w) = spk) ∧
      (outputType = .shWsh → ∀ r, i.redeemScript = some r →
        ScriptBuf.newP2wsh (wscriptHash w) = r ∧ ScriptBuf.newP2sh (scriptHash r) = spk) := by
  unfold checkWitnessScript at h
  rw [hw] at h
  dsimp only at h
  constructor
  · rintro rfl
    by_contra hne
    simp [hne] at h
  · rintro rfl r hr
    rw [hr] at h
    by_contra hne
    rw [not_and_or] at hne
    simp [hne] at h

omit [TxidHash] in
theorem checkInternalKey_spec (h : i.checkInternalKey .tr spk = .ok ⟨⟩)
    {key : XOnlyPublicKey} (hkey : i.tapInternalKey = some key) :
    ScriptBuf.newP2tr key i.tapMerkleRoot = spk := by
  unfold checkInternalKey at h
  rw [if_pos rfl, hkey] at h
  by_contra hne
  simp [hne] at h

omit [TxidHash] [ScriptHashes] in
/-- Without a mismatch every signature has the sighash type. -/
theorem hasMismatch_eq_false [SignatureTypes] {sighashTy : PsbtSighashType} :
    i.hasMismatch sighashTy = false ↔
      (∀ sig, i.tapKeySig = some sig →
        PsbtSighashType.ofTaproot (taprootSighashType sig) = sighashTy) ∧
      (∀ sig ∈ i.tapScriptSigs.values,
        PsbtSighashType.ofTaproot (taprootSighashType sig) = sighashTy) ∧
      ∀ sig ∈ i.partialSigs.values,
        PsbtSighashType.ofEcdsa (ecdsaSighashType sig) = sighashTy := by
  unfold hasMismatch
  cases i.tapKeySig <;> simp [and_assoc]

omit [TxidHash] in
theorem returns_checkRedeemScript (i : Input) (spk : ScriptBuf) :
    (i.checkRedeemScript spk).Returns := by
  unfold checkRedeemScript
  split
  · split <;> trivial
  · trivial

omit [TxidHash] in
theorem returns_checkWitnessScript (i : Input) (outputType : OutputType) (spk : ScriptBuf) :
    (i.checkWitnessScript outputType spk).Returns := by
  unfold checkWitnessScript
  split
  · split
    · split <;> trivial
    · split
      · split <;> trivial
      · trivial
    · trivial
  · trivial

omit [TxidHash] in
theorem returns_checkInternalKey (i : Input) (outputType : OutputType) (spk : ScriptBuf) :
    (i.checkInternalKey outputType spk).Returns := by
  unfold checkInternalKey
  split
  · split
    · split <;> trivial
    · trivial
  · trivial

end Input

namespace SignableInput

variable [ScriptHashes] [SignatureTypes]

/-- `SignableInput::verify`. -/
def verify (psbt : Psbt) (index : Nat) : Result SignError SignableInput := do
  let input ← checkData psbt index
  let psbtInput ← (psbt.checkedInput index).mapErr .indexOutOfBounds
  let _ ← psbtInput.fundingUtxoUntrusted.mapErr .fundingUtxo
  let spk := input.prevout.scriptPubkey
  psbtInput.checkRedeemScript spk
  psbtInput.checkWitnessScript input.outputType spk
  psbtInput.checkInternalKey input.outputType spk
  if psbtInput.hasMismatch input.sighashTy then .err .sighashMismatch else .ok input

/-- The output script commits to the script code, by way of the input's scripts. -/
def Commits (i : Input) (s : SignableInput) : Prop :=
  let spk := s.prevout.scriptPubkey
  match s.outputType with
  | .bare | .wpkh => s.scriptCode = spk
  | .sh | .shWpkh =>
      i.redeemScript = some s.scriptCode ∧ ScriptBuf.newP2sh (scriptHash s.scriptCode) = spk
  | .wsh =>
      i.witnessScript = some s.scriptCode ∧
        ScriptBuf.newP2wsh (wscriptHash s.scriptCode) = spk
  | .shWsh =>
      i.witnessScript = some s.scriptCode ∧ ∃ redeem, i.redeemScript = some redeem ∧
        ScriptBuf.newP2wsh (wscriptHash s.scriptCode) = redeem ∧
          ScriptBuf.newP2sh (scriptHash redeem) = spk
  | .tr => s.scriptCode = []

/-- The signable input is what its PSBT and the spent output commit to. -/
structure Authentic (psbt : Psbt) (index : Nat) (i : Input) (s : SignableInput) : Prop where
  input : psbt.inputs[index]? = some i
  index_eq : s.index = index
  index_lt : index < psbt.inputs.length ∧ index < psbt.global.inputCount
  /-- A whole funding transaction is the one spent, and the output is its output. -/
  nonWitnessUtxo : ∀ tx, i.nonWitnessUtxo = some tx →
    computeTxid tx = i.previousTxid ∧ tx.output[i.spentOutputIndex.toNat]? = some s.prevout ∧
      ∀ utxo, i.witnessUtxo = some utxo → utxo = s.prevout
  /-- Without it the output is taken from the input, and commits to its amount. -/
  witnessUtxo : i.nonWitnessUtxo = none →
    i.witnessUtxo = some s.prevout ∧ ScriptBuf.isP2tr s.prevout.scriptPubkey
  outputType : i.outputTypeFromSpk s.prevout.scriptPubkey = .ok s.outputType
  commits : Commits i s
  validFor : s.sighashTy.ValidFor s.outputType
  single : (∃ ty, s.sighashTy.ecdsaHashTy = .ok ty ∧ ty.isSingle) ∨
    (∃ ty, s.sighashTy.taprootHashTy = .ok ty ∧ ty.isSingle) → index < psbt.outputs.length
  tapKeySig : ∀ sig, i.tapKeySig = some sig →
    PsbtSighashType.ofTaproot (taprootSighashType sig) = s.sighashTy
  tapScriptSigs : ∀ sig ∈ i.tapScriptSigs.values,
    PsbtSighashType.ofTaproot (taprootSighashType sig) = s.sighashTy
  partialSigs : ∀ sig ∈ i.partialSigs.values,
    PsbtSighashType.ofEcdsa (ecdsaSighashType sig) = s.sighashTy
  internalKey : ScriptBuf.isP2tr s.prevout.scriptPubkey → ∀ key, i.tapInternalKey = some key →
    ScriptBuf.newP2tr key i.tapMerkleRoot = s.prevout.scriptPubkey

omit [SignatureTypes] in
/-- The scripts that pass the checks commit to the script code. -/
theorem Checked.commits {psbt : Psbt} {index : Nat} {i : Input} {s : SignableInput}
    (h : Checked psbt index i s)
    (hredeem : i.checkRedeemScript s.prevout.scriptPubkey = .ok ⟨⟩)
    (hwitness : i.checkWitnessScript s.outputType s.prevout.scriptPubkey = .ok ⟨⟩) :
    Commits i s := by
  have hcode := h.scriptCode
  have hpattern := h.outputType
  unfold Input.scriptCodeFor at hcode
  unfold Commits
  cases htype : s.outputType with
  | bare =>
      rw [htype] at hcode
      exact (Except.ok.inj hcode).symm
  | wpkh =>
      rw [htype] at hcode
      exact (Except.ok.inj hcode).symm
  | sh =>
      rw [htype] at hcode
      have hr := Result.okOr_eq_ok.mp hcode
      exact ⟨hr, Input.checkRedeemScript_eq_ok.mp hredeem _ hr⟩
  | shWpkh =>
      rw [htype] at hcode
      have hr := Result.okOr_eq_ok.mp hcode
      exact ⟨hr, Input.checkRedeemScript_eq_ok.mp hredeem _ hr⟩
  | wsh =>
      rw [htype] at hcode
      have hw := Result.okOr_eq_ok.mp hcode
      exact ⟨hw, (Input.checkWitnessScript_spec hwitness hw).1 htype⟩
  | shWsh =>
      rw [htype] at hcode hpattern
      have hw := Result.okOr_eq_ok.mp hcode
      -- the output type itself needs a redeem script
      obtain ⟨-, redeem, hr, -⟩ := Input.outputTypeFromSpk_spec hpattern
      exact ⟨hw, redeem, hr, (Input.checkWitnessScript_spec hwitness hw).2 htype redeem hr⟩
  | tr =>
      rw [htype] at hcode
      exact (Except.ok.inj hcode).symm

omit [ScriptHashes] [SignatureTypes] in
/-- The structural check covers every `SIGHASH_SINGLE` of either algorithm. -/
theorem Checked.single_lt {psbt : Psbt} {index : Nat} {i : Input} {s : SignableInput}
    (h : Checked psbt index i s)
    (hsingle : (∃ ty, s.sighashTy.ecdsaHashTy = .ok ty ∧ ty.isSingle) ∨
      ∃ ty, s.sighashTy.taprootHashTy = .ok ty ∧ ty.isSingle) :
    index < psbt.outputs.length := by
  apply h.single
  rcases hsingle with ⟨ty, hty, hs⟩ | ⟨ty, hty, hs⟩
  · simpa [PsbtSighashType.isSingle, hty] using hs
  · rw [PsbtSighashType.isSingle_iff_taproot hty]
    exact hs

/-- The strict checks include the structural ones. -/
theorem checkData_of_verify {psbt : Psbt} {index : Nat} {s : SignableInput}
    (h : verify psbt index = .ok s) : checkData psbt index = .ok s := by
  obtain ⟨input, hdata, h⟩ := Result.bind_eq_ok.mp h
  obtain ⟨i, -, h⟩ := Result.bind_eq_ok.mp h
  obtain ⟨utxo, -, h⟩ := Result.bind_eq_ok.mp h
  obtain ⟨⟨⟩, -, h⟩ := Result.bind_eq_ok.mp h
  obtain ⟨⟨⟩, -, h⟩ := Result.bind_eq_ok.mp h
  obtain ⟨⟨⟩, -, h⟩ := Result.bind_eq_ok.mp h
  split at h
  · cases h
  · cases h
    exact hdata

/-- An input that passes the strict checks is authentic. -/
theorem verify_authentic {psbt : Psbt} {index : Nat} {s : SignableInput}
    (h : verify psbt index = .ok s) : ∃ i, Authentic psbt index i s := by
  obtain ⟨input, hdata, h⟩ := Result.bind_eq_ok.mp h
  obtain ⟨i, hchecked⟩ := checkData_spec hdata
  rw [hchecked.checkedInput, Result.mapErr_ok, Result.ok_bind] at h
  obtain ⟨utxo, hutxo, h⟩ := Result.bind_eq_ok.mp h
  obtain ⟨⟨⟩, hredeem, h⟩ := Result.bind_eq_ok.mp h
  obtain ⟨⟨⟩, hwitness, h⟩ := Result.bind_eq_ok.mp h
  obtain ⟨⟨⟩, hkey, h⟩ := Result.bind_eq_ok.mp h
  split at h
  · cases h
  · rename_i hmismatch
    cases h
    obtain ⟨hfunded, huntrusted⟩ :=
      Input.fundingUtxoUntrusted_eq_ok.mp (Result.mapErr_eq_ok.mp hutxo)
    -- the strict look-up finds the same output
    have hsame : utxo = s.prevout := by
      have hlookup := Input.fundingUtxo_eq_ok.mpr hfunded
      exact Except.ok.inj (hlookup.symm.trans hchecked.fundingUtxo)
    subst hsame
    obtain ⟨hcount, hget⟩ := Psbt.checkedInput_eq_ok.mp hchecked.checkedInput
    obtain ⟨hkeySig, hscriptSigs, hpartialSigs⟩ :=
      Input.hasMismatch_eq_false.mp (Bool.eq_false_iff.mpr hmismatch)
    refine ⟨i, hget, hchecked.index_eq, ⟨(List.getElem?_eq_some_iff.mp hget).1, hcount⟩,
      hfunded.nonWitness, fun hnone => ⟨hfunded.witness hnone, huntrusted hnone⟩,
      hchecked.outputType, hchecked.commits hredeem hwitness, hchecked.validFor,
      hchecked.single_lt, hkeySig, hscriptSigs, hpartialSigs, ?_⟩
    intro hp2tr key hinternal
    have htype : s.outputType = .tr := by
      have hspk : i.outputTypeFromSpk s.prevout.scriptPubkey = .ok .tr :=
        Input.outputTypeFromSpk_of_isP2tr hp2tr
      exact Except.ok.inj (hchecked.outputType.symm.trans hspk)
    rw [htype] at hkey
    exact Input.checkInternalKey_spec hkey hinternal

/-- The strict checks return. -/
theorem returns_verify (psbt : Psbt) (index : Nat) : (verify psbt index).Returns := by
  refine (returns_checkData psbt index).bind fun input _ => ?_
  apply Result.Returns.bind
  · rw [Result.returns_mapErr]
    exact psbt.returns_checkedInput index
  · intro i _
    apply Result.Returns.bind
    · rw [Result.returns_mapErr]
      exact i.returns_fundingUtxoUntrusted
    · intro utxo _
      refine (i.returns_checkRedeemScript _).bind fun _ _ => ?_
      refine (i.returns_checkWitnessScript _ _).bind fun _ _ => ?_
      refine (i.returns_checkInternalKey _ _).bind fun _ _ => ?_
      split <;> trivial

end SignableInput

end Generic

namespace SignableInput

attribute [local instance] Reference.types Reference.txidHash Reference.scriptHashes
  Reference.signatureTypes

theorem verify_authentic_shWsh :
    ∃ i, Authentic Reference.shWshUnsigned 0 i {
      index := 0
      outputType := .shWsh
      prevout := {
        value := (2000 : UInt64)
        scriptPubkey := ScriptBuf.newP2sh (Reference.digest20 Reference.redeemScript) }
      scriptCode := Reference.witnessScript
      sighashTy := .ALL } :=
  verify_authentic (Result.toOption_eq_some.mp (by decide +kernel))

end SignableInput

end RustPsbt
