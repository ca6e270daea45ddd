import RustPsbt.Roles.Session

/-!
# Legacy signatures and witness outputs

A signature without a witness must not rest on a witness utxo.  The guard for this sits
in `check_data`, the legacy branch in `ecdsa_sighash`, and only one of the two output
types of that branch is guarded.

Main results:

- Theorem `SigningSession.ecdsaSighash_of_isSegwit`: segwit inputs do not take the legacy
  branch.
- Theorem `SignableInput.noLegacyOverWitness_iff`: no legacy input with a witness utxo is
  signable, unless it is a plain pay-to-script-hash input.
-/

namespace RustPsbt

/-- The output types whose signatures go into a witness. -/
def OutputType.isSegwit : OutputType → Bool
  | .wpkh | .wsh | .shWpkh | .shWsh | .tr => true
  | .bare | .sh => false

section Generic

variable [BitcoinTypes]

/-! ## The legacy branch -/

/-- The sighash of a segwit input does not depend on the legacy algorithm. -/
theorem SigningSession.ecdsaSighash_of_isSegwit (engine : SighashEngine)
    (legacy : Transaction → Nat → ScriptBuf → UInt32 → Except engine.SighashError Message)
    (session : SigningSession) {input : SignableInput} (h : input.outputType.isSegwit) :
    @ecdsaSighash _ { engine with legacySignatureHash := legacy } session input =
      @ecdsaSighash _ engine session input := by
  unfold ecdsaSighash
  cases htype : input.outputType with
  | bare =>
      rw [htype] at h
      cases h
  | sh =>
      rw [htype] at h
      cases h
  | wpkh => rfl
  | wsh => rfl
  | shWpkh => rfl
  | shWsh => rfl
  | tr => rfl

/-- The sighash of any other input is the legacy one. -/
theorem SigningSession.ecdsaSighash_of_not_isSegwit [SighashEngine] (session : SigningSession)
    {input : SignableInput} (h : input.outputType.isSegwit = false) :
    session.ecdsaSighash input = (do
      let ecdsaTy ← Psbt.expect input.sighashTy.ecdsaHashTy.toOption
      let sighash ← Psbt.expect (SighashEngine.legacySignatureHash session.cache input.index
        input.scriptCode ecdsaTy.toU32).toOption
      .ok (sighash, ecdsaTy)) := by
  unfold ecdsaSighash
  cases htype : input.outputType with
  | bare => rfl
  | sh => rfl
  | _ =>
      rw [htype] at h
      cases h

/-! ## Plain pay-to-script-hash inputs -/

namespace Input

/-- The redeem script is there, and it is no witness program of version 0. -/
def HasLegacyRedeemScript (i : Input) : Prop :=
  ∃ redeem, i.redeemScript = some redeem ∧
    ScriptBuf.isP2wpkh redeem = false ∧ ScriptBuf.isP2wsh redeem = false

/-- A pay-to-script-hash output with a legacy redeem script is a plain one. -/
theorem outputTypeFromSpk_of_hasLegacyRedeemScript {i : Input} {spk : ScriptBuf}
    (hsh : ScriptBuf.isP2sh spk) (h : i.HasLegacyRedeemScript) :
    i.outputTypeFromSpk spk = .ok .sh := by
  obtain ⟨redeem, hredeem, hwpkh, hwsh⟩ := h
  have hprogram := ScriptBuf.isWitnessProgram_of_isP2sh hsh
  obtain ⟨hnotWpkh, hnotWsh, -⟩ := ScriptBuf.isP2w_eq_false hprogram
  simp [outputTypeFromSpk, redeemScriptIs, hsh, hnotWpkh, hnotWsh, hredeem, hwpkh, hwsh]

/-- The redeem script of a plain pay-to-script-hash input is a legacy one, if there is
one. -/
theorem hasLegacyRedeemScript_of_outputTypeFromSpk {i : Input} {spk : ScriptBuf}
    {redeem : ScriptBuf} (h : i.outputTypeFromSpk spk = .ok .sh)
    (hredeem : i.redeemScript = some redeem) : i.HasLegacyRedeemScript := by
  refine ⟨redeem, hredeem, ?_, ?_⟩
  all_goals
    unfold outputTypeFromSpk redeemScriptIs at h
    rw [hredeem] at h
    split_ifs at h <;> simp_all

end Input

namespace SignableInput

variable [TxidHash]

/-- The input passes the checks of `check_data` as a plain pay-to-script-hash input, and
has a witness utxo. -/
structure LegacyOverWitness (psbt : Psbt) (index : Nat) (i : Input) (prevout : TxOut) :
    Prop where
  checkedInput : psbt.checkedInput index = .ok i
  fundedBy : i.FundedBy prevout
  isP2sh : ScriptBuf.isP2sh prevout.scriptPubkey
  redeemScript : i.HasLegacyRedeemScript
  witnessUtxo : i.witnessUtxo.isSome
  hashTy : ∃ ty, i.ecdsaHashTy = .ok ty
  single : (i.sighashTyFor .sh).isSingle → index < psbt.outputs.length

/-- The checks pass on such an input. -/
theorem LegacyOverWitness.exists_checkData {psbt : Psbt} {index : Nat} {i : Input}
    {prevout : TxOut} (h : LegacyOverWitness psbt index i prevout) :
    ∃ s, checkData psbt index = .ok s ∧ s.outputType = .sh := by
  obtain ⟨redeem, hredeem, -⟩ := h.redeemScript
  obtain ⟨ty, hty⟩ := h.hashTy
  have hfunding := Input.fundingUtxo_eq_ok.mpr h.fundedBy
  have htype : i.outputType = .ok .sh := by
    unfold Input.outputType
    rw [hfunding]
    exact Input.outputTypeFromSpk_of_hasLegacyRedeemScript h.isP2sh h.redeemScript
  have hsingle : ¬((i.sighashTyFor .sh).isSingle ∧ index ≥ psbt.outputs.length) :=
    fun hs => absurd (h.single hs.1) (not_lt.mpr hs.2)
  have hcode : i.scriptCodeFor .sh prevout = .ok redeem := by
    simp [Input.scriptCodeFor, hredeem]
  have hhash : i.checkHashTy .sh = .ok ⟨⟩ := by
    simp [Input.checkHashTy, hty, Result.ofExcept]
  refine ⟨⟨index, .sh, prevout, redeem, i.sighashTyFor .sh⟩, ?_, rfl⟩
  unfold checkData
  simp [h.checkedInput, hfunding, htype, hsingle, hcode, hhash]

/-- A plain pay-to-script-hash input that passes the checks is such an input, if it has a
witness utxo. -/
theorem Checked.legacyOverWitness {psbt : Psbt} {index : Nat} {i : Input} {s : SignableInput}
    (h : Checked psbt index i s) (htype : s.outputType = .sh) (hutxo : i.witnessUtxo.isSome) :
    LegacyOverWitness psbt index i s.prevout := by
  have hspk := h.outputType
  have hcode := h.scriptCode
  have hvalid := h.validFor
  have hsingle := h.single
  rw [h.sighashTy, htype] at hvalid hsingle
  rw [htype] at hspk hcode
  have hredeem : i.redeemScript = some s.scriptCode := Result.okOr_eq_ok.mp hcode
  refine ⟨h.checkedInput, Input.fundingUtxo_eq_ok.mp h.fundingUtxo,
    Input.outputTypeFromSpk_spec hspk,
    Input.hasLegacyRedeemScript_of_outputTypeFromSpk hspk hredeem, hutxo, ?_, hsingle⟩
  obtain ⟨ty, hty⟩ := hvalid
  unfold Input.ecdsaHashTy
  unfold Input.sighashTyFor at hty
  cases hdeclared : i.sighashType with
  | none => exact ⟨.all, rfl⟩
  | some declared =>
      rw [hdeclared] at hty
      exact ⟨ty, hty⟩

variable [ScriptHashes] [SignatureTypes]

/-- An input that is signable over a witness utxo is a segwit one. -/
def NoLegacyOverWitness (psbt : Psbt) (index : Nat) : Prop :=
  ∀ (i : Input) (s : SignableInput), psbt.inputs[index]? = some i → i.witnessUtxo.isSome →
    verify psbt index = .ok s ∨ assumeChecked psbt index = .ok s → s.outputType.isSegwit

/-- No legacy input is signable over a witness utxo, unless it is a plain
pay-to-script-hash input. -/
theorem noLegacyOverWitness_iff (psbt : Psbt) (index : Nat) :
    NoLegacyOverWitness psbt index ↔ ¬∃ i prevout, LegacyOverWitness psbt index i prevout := by
  constructor
  · intro h ⟨i, prevout, hlegacy⟩
    obtain ⟨s, hs, htype⟩ := hlegacy.exists_checkData
    have hget := (Psbt.checkedInput_eq_ok.mp hlegacy.checkedInput).2
    have hsegwit := h i s hget hlegacy.witnessUtxo (Or.inr hs)
    rw [htype] at hsegwit
    cases hsegwit
  · intro h i s hget hutxo hsign
    have hdata : checkData psbt index = .ok s := hsign.elim checkData_of_verify id
    obtain ⟨j, hchecked⟩ := checkData_spec hdata
    have hj := (Psbt.checkedInput_eq_ok.mp hchecked.checkedInput).2
    obtain rfl : i = j := Option.some_inj.mp (hget.symm.trans hj)
    cases htype : s.outputType with
    | bare =>
        rw [hchecked.witness htype] at hutxo
        cases hutxo
    | sh => exact absurd ⟨i, s.prevout, hchecked.legacyOverWitness htype hutxo⟩ h
    | _ => rfl

end SignableInput

end Generic

/-! ## A reference input -/

section

attribute [local instance] Reference.types Reference.txidHash Reference.scriptHashes
  Reference.signatureTypes

open Reference

/-- The output that commits to the redeem script `OP_1`. -/
def shPrevout : TxOut where
  value := (2000 : UInt64)
  scriptPubkey := ScriptBuf.newP2sh (digest20 [0x51])

/-- The transaction that has this output only. -/
def shFunding : Transaction where
  version := 2
  lockTime := .zero
  input := []
  output := [shPrevout]

/-- A plain pay-to-script-hash input with its funding transaction and a witness utxo. -/
def shWitnessInput : Input :=
  { Input.new { txid := txidHash.computeTxid shFunding, vout := 0 } with
    nonWitnessUtxo := some shFunding
    witnessUtxo := some shPrevout
    redeemScript := some [0x51] }

/-- The strict checks pass on a legacy input with a witness utxo. -/
theorem SignableInput.not_noLegacyOverWitness :
    ¬∀ (psbt : Psbt) (index : Nat), NoLegacyOverWitness psbt index := by
  intro h
  have hverify : verify (psbt [shWitnessInput] [output [0x51]]) 0 =
      .ok ⟨0, .sh, shPrevout, [0x51], .ALL⟩ := Result.toOption_eq_some.mp (by decide +kernel)
  have hsegwit := h (psbt [shWitnessInput] [output [0x51]]) 0 shWitnessInput _ rfl rfl
    (Or.inl hverify)
  cases hsegwit

end

end RustPsbt
