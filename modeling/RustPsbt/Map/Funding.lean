import RustPsbt.Map.Input
import RustPsbt.Primitives.Script
import RustPsbt.Map.SighashType
import RustPsbt.Roles.Checked

/-!
# Funding outputs and output types

Which output an input spends, as far as the PSBT tells, and of which type it is.

Main results:

- Theorem `Input.fundingUtxo_eq_ok`: what a funding output is checked against.
- Theorem `Input.outputTypeFromSpk_spec`: the output types by script patterns.
-/

namespace RustPsbt

/-- `SigningAlgorithm`. -/
inductive SigningAlgorithm where
  | ecdsa
  | schnorr
deriving DecidableEq

/-- `OutputType`. -/
inductive OutputType where
  | bare
  | wpkh
  | wsh
  | shWpkh
  | shWsh
  | sh
  | tr
deriving DecidableEq

/-- `OutputType::signing_algorithm`. -/
def OutputType.signingAlgorithm : OutputType → SigningAlgorithm
  | .bare | .wpkh | .wsh | .shWpkh | .shWsh | .sh => .ecdsa
  | .tr => .schnorr

variable [BitcoinTypes] [TxidHash]

namespace Input

/-! ## Funding outputs -/

/-- `Input::funding_utxo`. -/
def fundingUtxo (self : Input) : Result FundingUtxoError TxOut :=
  match self.witnessUtxo, self.nonWitnessUtxo with
  | witnessUtxo, some tx =>
      if computeTxid tx ≠ self.previousTxid then
        .err .mismatchingTxid
      else
        let vout := self.spentOutputIndex.toNat
        match witnessUtxo with
        | some utxo => do
            let txout ← Result.okOr (.outOfBounds vout tx.output.length) tx.output[vout]?
            if txout ≠ utxo then .err .mismatchingUtxos else .ok utxo
        | none => Result.okOr (.outOfBounds vout tx.output.length) tx.output[vout]?
  | some utxo, none => .ok utxo
  | none, none => .err .missingUtxo

/-- `Input::funding_utxo_untrusted`. -/
def fundingUtxoUntrusted (self : Input) : Result FundingUtxoError TxOut :=
  match self.witnessUtxo, self.nonWitnessUtxo with
  | some utxo, none =>
      if !ScriptBuf.isP2tr utxo.scriptPubkey then .err .unverifiableUtxo
      else self.fundingUtxo
  | _, _ => self.fundingUtxo

/-- The output is the one the input spends according to its utxo fields. -/
structure FundedBy (i : Input) (utxo : TxOut) : Prop where
  nonWitness : ∀ tx, i.nonWitnessUtxo = some tx →
    computeTxid tx = i.previousTxid ∧ tx.output[i.spentOutputIndex.toNat]? = some utxo ∧
      ∀ w, i.witnessUtxo = some w → w = utxo
  witness : i.nonWitnessUtxo = none → i.witnessUtxo = some utxo

/-- A funding output is found exactly if the utxo fields agree on it. -/
theorem fundingUtxo_eq_ok {self : Input} {utxo : TxOut} :
    self.fundingUtxo = .ok utxo ↔ self.FundedBy utxo := by
  unfold fundingUtxo
  cases hnon : self.nonWitnessUtxo with
  | none =>
      cases hwit : self.witnessUtxo with
      | none =>
          constructor
          · intro h
            cases h
          · intro h
            have hw := h.witness hnon
            rw [hwit] at hw
            cases hw
      | some w =>
          constructor
          · intro h
            cases h
            exact ⟨by simp [hnon], fun _ => hwit⟩
          · intro h
            have hw := h.witness hnon
            rw [hwit] at hw
            cases hw
            rfl
  | some tx =>
      by_cases htxid : computeTxid tx = self.previousTxid
      · have hfund : self.FundedBy utxo ↔
            tx.output[self.spentOutputIndex.toNat]? = some utxo ∧
              ∀ w, self.witnessUtxo = some w → w = utxo := by
          constructor
          · intro h
            exact (h.nonWitness tx hnon).2
          · intro h
            refine ⟨fun tx' htx' => ?_, fun hnone => by rw [hnon] at hnone; cases hnone⟩
            rw [hnon] at htx'
            cases htx'
            exact ⟨htxid, h⟩
        rw [hfund]
        cases hwit : self.witnessUtxo with
        | none => simp [htxid]
        | some w =>
            cases hout : tx.output[self.spentOutputIndex.toNat]? with
            | none => simp [htxid, hout, Result.okOr]
            | some txout =>
                by_cases heq : txout = w
                · subst heq
                  simp [htxid, hout, Result.okOr]
                · have hnot : ¬(txout = utxo ∧ w = utxo) := fun h => heq (h.1.trans h.2.symm)
                  simpa [htxid, hout, heq, Result.okOr] using hnot
      · have hnot : ¬self.FundedBy utxo := fun h => htxid (h.nonWitness tx hnon).1
        simp [htxid, hnot]

/-- Looking up the funding output returns. -/
theorem returns_fundingUtxo (self : Input) : self.fundingUtxo.Returns := by
  unfold fundingUtxo
  split
  · split
    · trivial
    · dsimp only
      split
      · apply Result.Returns.bind (Result.returns_okOr _ _)
        intro txout _
        split <;> trivial
      · exact Result.returns_okOr _ _
  · trivial
  · trivial

/-- So does looking it up without trust in its creator. -/
theorem returns_fundingUtxoUntrusted (self : Input) :
    self.fundingUtxoUntrusted.Returns := by
  unfold fundingUtxoUntrusted
  split
  · split
    · trivial
    · exact self.returns_fundingUtxo
  · exact self.returns_fundingUtxo

/-- An untrusted funding output is a funding output, and pay-to-taproot unless the
whole funding transaction is there. -/
theorem fundingUtxoUntrusted_eq_ok {self : Input} {utxo : TxOut} :
    self.fundingUtxoUntrusted = .ok utxo ↔
      self.FundedBy utxo ∧
        (self.nonWitnessUtxo = none → ScriptBuf.isP2tr utxo.scriptPubkey) := by
  rw [← fundingUtxo_eq_ok]
  unfold fundingUtxoUntrusted
  cases hnon : self.nonWitnessUtxo with
  | some tx => cases self.witnessUtxo <;> simp
  | none =>
      cases hwit : self.witnessUtxo with
      | none => simp [fundingUtxo, hwit, hnon]
      | some w =>
          cases hp2tr : ScriptBuf.isP2tr w.scriptPubkey with
          | false =>
              simp only [fundingUtxo, hwit, hnon, hp2tr]
              constructor
              · intro h
                cases h
              · rintro ⟨h, himp⟩
                cases h
                simp [hp2tr] at himp
          | true =>
              simp only [fundingUtxo, hwit, hnon, hp2tr]
              constructor
              · intro h
                cases h
                exact ⟨rfl, fun _ => hp2tr⟩
              · rintro ⟨h, -⟩
                exact h

/-! ## Output types -/

omit [TxidHash] in
/-- The redeem script exists and passes the test. -/
def redeemScriptIs (self : Input) (test : ScriptBuf → Bool) : Bool :=
  (self.redeemScript.map test).getD false

/-- `Input::output_type_from_spk`. -/
def outputTypeFromSpk (self : Input) (spk : ScriptBuf) : Result SignError OutputType :=
  if !(ScriptBuf.isWitnessProgram spk || ScriptBuf.isP2sh spk) then .ok .bare
  else if ScriptBuf.isP2wpkh spk then .ok .wpkh
  else if ScriptBuf.isP2wsh spk then .ok .wsh
  else if ScriptBuf.isP2sh spk then
    if self.redeemScriptIs ScriptBuf.isP2wpkh then .ok .shWpkh
    else if self.redeemScriptIs ScriptBuf.isP2wsh then .ok .shWsh
    else .ok .sh
  else if ScriptBuf.isP2tr spk then .ok .tr
  else .err .unknownOutputType

/-- `Input::output_type`. -/
def outputType (self : Input) : Result SignError OutputType := do
  let utxo ← self.fundingUtxo.mapErr .fundingUtxo
  self.outputTypeFromSpk utxo.scriptPubkey

/-- `Input::output_type_untrusted`. -/
def outputTypeUntrusted (self : Input) : Result SignError OutputType := do
  let utxo ← self.fundingUtxoUntrusted.mapErr .fundingUtxo
  self.outputTypeFromSpk utxo.scriptPubkey

/-- `Input::signing_algorithm`. -/
def signingAlgorithm (self : Input) : Result SignError SigningAlgorithm := do
  let outputType ← self.outputType
  .ok outputType.signingAlgorithm

omit [TxidHash] in
/-- Classifying a script returns. -/
theorem returns_outputTypeFromSpk (self : Input) (spk : ScriptBuf) :
    (self.outputTypeFromSpk spk).Returns := by
  unfold outputTypeFromSpk
  split_ifs <;> trivial

/-- Determining the output type returns. -/
theorem returns_outputType (self : Input) : self.outputType.Returns := by
  apply Result.Returns.bind
  · rw [Result.returns_mapErr]
    exact self.returns_fundingUtxo
  · intro utxo _
    exact self.returns_outputTypeFromSpk utxo.scriptPubkey

omit [TxidHash] in
/-- What the script and the redeem script of each output type look like. -/
theorem outputTypeFromSpk_spec {self : Input} {spk : ScriptBuf} {ty : OutputType}
    (h : self.outputTypeFromSpk spk = .ok ty) :
    match ty with
    | .bare => ScriptBuf.isWitnessProgram spk = false ∧ ScriptBuf.isP2sh spk = false
    | .wpkh => ScriptBuf.isP2wpkh spk
    | .wsh => ScriptBuf.isP2wsh spk
    | .shWpkh => ScriptBuf.isP2sh spk ∧
        ∃ r, self.redeemScript = some r ∧ ScriptBuf.isP2wpkh r
    | .shWsh => ScriptBuf.isP2sh spk ∧ ∃ r, self.redeemScript = some r ∧ ScriptBuf.isP2wsh r
    | .sh => ScriptBuf.isP2sh spk
    | .tr => ScriptBuf.isP2tr spk := by
  unfold outputTypeFromSpk redeemScriptIs at h
  split_ifs at h
  all_goals
    cases h
    dsimp only
  · rename_i hpat
    simpa using hpat
  · assumption
  · assumption
  · rename_i hsh hredeem
    cases hr : self.redeemScript with
    | none => simp [hr] at hredeem
    | some r => exact ⟨hsh, r, rfl, by simpa [hr] using hredeem⟩
  · rename_i hsh _ hredeem
    cases hr : self.redeemScript with
    | none => simp [hr] at hredeem
    | some r => exact ⟨hsh, r, rfl, by simpa [hr] using hredeem⟩
  · rename_i hsh _ _
    exact hsh
  · assumption

omit [TxidHash] in
/-- Pay-to-taproot outputs are of taproot type. -/
theorem outputTypeFromSpk_of_isP2tr {self : Input} {spk : ScriptBuf}
    (h : ScriptBuf.isP2tr spk) : self.outputTypeFromSpk spk = .ok .tr := by
  obtain ⟨hwpkh, hwsh, hsh⟩ := ScriptBuf.isP2tr_disjoint h
  have hprogram := ScriptBuf.isWitnessProgram_of_isP2tr h
  simp [outputTypeFromSpk, hwpkh, hwsh, hsh, hprogram, h]

end Input

end RustPsbt
