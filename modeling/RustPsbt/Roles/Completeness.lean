import RustPsbt.Reference.Keys
import RustPsbt.Roles.Session

/-!
# Complete sets of signable inputs

A complete set of signable inputs is meant to cover the transaction, so that signing
it cannot fail.  It is built by counting up to the input count of the global map,
which need not be the number of inputs.

Main results:

- Theorem `SigningSession.infallible_iff`: sets cover the transaction and are signed
  without a panic exactly if the input count reaches the number of inputs.
-/

namespace RustPsbt

section Generic

variable [BitcoinTypes] [TxidHash] [ScriptHashes] [SignatureTypes] [SighashEngine] [Secp]

namespace SigningSession

omit [ScriptHashes] [SignatureTypes] [SighashEngine] [Secp] in
/-- The set covers the cached transaction: it has one signable input and one prevout
for every transaction input, in order. -/
structure Covers (session : SigningSession) (all : AllSignableInputs) : Prop where
  length_prevouts : all.prevouts.length = session.cache.input.length
  length_inputs : all.inputs.length = session.cache.input.length
  entry : ∀ k txIn, session.cache.input[k]? = some txIn →
    ∃ (i : Input) (s : SignableInput) (prevout : TxOut), session.psbt.inputs[k]? = some i ∧ i.unsignedTxIn = txIn ∧
      all.inputs[k]? = some s ∧ s.index = k ∧
      all.prevouts[k]? = some prevout ∧ i.fundingUtxo = .ok prevout

omit [ScriptHashes] [SignatureTypes] in
/-- The set covers the transaction and no signature over it panics. -/
structure Infallible (session : SigningSession) (all : AllSignableInputs) : Prop where
  covers : session.Covers all
  returns : ∀ k : GetKey, (session.getAll all k).Returns

/-- The session returned the set, strictly checked or not. -/
def Returned (self : SigningSession) (all : AllSignableInputs) : Prop :=
  self.signableInputs = .ok all ∨ self.assumeCheckedInputs = .ok all

/-- The session returned the standalone input, strictly checked or not. -/
def ReturnedOne (self : SigningSession) (s : SignableInput) : Prop :=
  ∃ index, self.signableInput index = .ok s ∨ self.assumeCheckedInput index = .ok s

section

variable {self : SigningSession} {all : AllSignableInputs}

omit [SighashEngine] [Secp] in
/-- Every signable input of a set passed the structural checks. -/
theorem Returned.inputs (h : self.Returned all) :
    List.Forall₂ (fun k s => SignableInput.checkData self.psbt k = .ok s)
      (List.range self.psbt.global.inputCount) all.inputs := by
  rcases h with h | h
  · exact (AllSignableInputs.new_spec h).1.imp fun k s => SignableInput.checkData_of_verify
  · exact (AllSignableInputs.new_spec h).1

omit [SighashEngine] [Secp] in
/-- Every prevout of a set is the funding output of its input. -/
theorem Returned.prevouts (h : self.Returned all) :
    List.Forall₂ (fun k o => ∃ i, self.psbt.checkedInput k = .ok i ∧ i.fundingUtxo = .ok o)
      (List.range self.psbt.global.inputCount) all.prevouts := by
  rcases h with h | h
  · exact (AllSignableInputs.new_spec h).2
  · exact (AllSignableInputs.new_spec h).2

omit [SighashEngine] [Secp] in
/-- Counted inputs exist, or there is no set. -/
theorem Returned.inputCount_le (h : self.Returned all) :
    self.psbt.global.inputCount ≤ self.psbt.inputs.length := by
  by_contra hlt
  have hcount : self.psbt.inputs.length < self.psbt.global.inputCount := not_le.mp hlt
  have hmem : self.psbt.inputs.length ∈ List.range self.psbt.global.inputCount :=
    List.mem_range.mpr hcount
  obtain ⟨o, -, i, hi, -⟩ := Result.exists_of_mem_left h.prevouts hmem
  have hget := (Psbt.checkedInput_eq_ok.mp hi).2
  simp at hget

omit [SighashEngine] [Secp] in
/-- A set covers the transaction exactly if all inputs are counted. -/
theorem Returned.covers_iff (h : self.Returned all) :
    self.Covers all ↔ self.psbt.inputs.length ≤ self.psbt.global.inputCount := by
  have hinputs := h.inputs
  have hprevouts := h.prevouts
  have hlength : all.prevouts.length = self.psbt.global.inputCount := by
    rw [← hprevouts.length_eq, List.length_range]
  have hlength' : all.inputs.length = self.psbt.global.inputCount := by
    rw [← hinputs.length_eq, List.length_range]
  constructor
  · intro hcovers
    rw [← hlength, hcovers.length_prevouts, self.length_cache_input]
  · intro hle
    have hcount : self.psbt.global.inputCount = self.cache.input.length := by
      rw [self.length_cache_input]
      exact le_antisymm h.inputCount_le hle
    refine ⟨hlength.trans hcount, hlength'.trans hcount, ?_⟩
    intro k txIn htxIn
    have hk : k < self.psbt.global.inputCount := by
      rw [hcount]
      exact (List.getElem?_eq_some_iff.mp htxIn).1
    have hrange : k < (List.range self.psbt.global.inputCount).length := by simpa using hk
    have hs := hinputs.get hrange (hlength'.symm ▸ hk)
    have ho := hprevouts.get hrange (hlength.symm ▸ hk)
    simp only [List.get_eq_getElem, List.getElem_range] at hs ho
    obtain ⟨i, hi, hfund⟩ := ho
    have hget := (Psbt.checkedInput_eq_ok.mp hi).2
    obtain ⟨i', hchecked⟩ := SignableInput.checkData_spec hs
    refine ⟨i, _, _, hget, ?_, List.getElem?_eq_getElem _, hchecked.index_eq,
      List.getElem?_eq_getElem _, hfund⟩
    obtain ⟨l, -, hcache⟩ := Psbt.unsignedTx_eq_ok.mp self.unsignedTx_eq
    rw [hcache] at htxIn
    simpa [Psbt.unsignedTxAt, hget] using htxIn

/-- A set that covers the transaction is signed without a panic. -/
theorem Returned.returns_getAll (hengine : SighashEngine.Documented) (h : self.Returned all)
    (hcovers : self.Covers all) (k : GetKey) : (self.getAll all k).Returns := by
  apply Result.returns_mapM
  intro s hs
  obtain ⟨index, -, hdata⟩ := Result.exists_of_mem_right h.inputs hs
  obtain ⟨i, hchecked⟩ := SignableInput.checkData_spec hdata
  have hindex := hchecked.index_eq
  subst hindex
  exact returns_inputSigs hengine hchecked (fun _ => .inr hcovers.length_prevouts) k

omit [TxidHash] [ScriptHashes] [SignatureTypes] [SighashEngine] [Secp] in
/-- Standalone taproot inputs commit to their own prevout only. -/
theorem rejectAllPrevouts_eq_ok {s s' : SignableInput} (h : rejectAllPrevouts s = .ok s') :
    s' = s ∧ (s.outputType = .tr → s.sighashTy.isAnyoneCanPay) := by
  unfold rejectAllPrevouts at h
  split at h
  · cases h
  · rename_i hnot
    cases h
    exact ⟨rfl, by simpa using hnot⟩

/-- A standalone input is signed without a panic. -/
theorem ReturnedOne.returns_getInputSigs (hengine : SighashEngine.Documented)
    {s : SignableInput} (h : self.ReturnedOne s) (k : GetKey) :
    (self.getInputSigs s k).Returns := by
  obtain ⟨index, h⟩ := h
  have hdata : ∃ s', SignableInput.checkData self.psbt index = .ok s' ∧
      rejectAllPrevouts s' = .ok s := by
    rcases h with h | h
    · obtain ⟨s', hs', hreject⟩ := Result.bind_eq_ok.mp h
      exact ⟨s', SignableInput.checkData_of_verify hs', hreject⟩
    · obtain ⟨s', hs', hreject⟩ := Result.bind_eq_ok.mp h
      exact ⟨s', hs', hreject⟩
  obtain ⟨s', hdata, hreject⟩ := hdata
  obtain ⟨rfl, hacp⟩ := rejectAllPrevouts_eq_ok hreject
  obtain ⟨i, hchecked⟩ := SignableInput.checkData_spec hdata
  have hindex := hchecked.index_eq
  subst hindex
  exact returns_inputSigs hengine hchecked (fun htype => .inl (hacp htype)) k

end

/-- A returned set covers the transaction and is signed without a panic exactly if the
input count reaches the number of inputs; a standalone input is always signed without a
panic. -/
theorem infallible_iff (hengine : SighashEngine.Documented) {psbt : Psbt} {signer : Signer}
    (hnew : Signer.new psbt = .ok signer) :
    (∀ all, signer.session.Returned all →
      (signer.session.Infallible all ↔ psbt.inputs.length ≤ psbt.global.inputCount)) ∧
    ∀ s, signer.session.ReturnedOne s →
      ∀ k : GetKey, (signer.session.getInputSigs s k).Returns := by
  have hpsbt : signer.session.psbt = psbt := Signer.new_eq_ok.mp hnew
  rw [← hpsbt]
  refine ⟨fun all hall => ⟨fun h => hall.covers_iff.mp h.covers, fun h => ?_⟩,
    fun s hs k => hs.returns_getInputSigs hengine k⟩
  have hcovers := hall.covers_iff.mpr h
  exact ⟨hcovers, fun k => hall.returns_getAll hengine hcovers k⟩

end SigningSession

end Generic

namespace SigningSession

attribute [local instance] Reference.types Reference.txidHash Reference.scriptHashes
  Reference.signatureTypes Reference.sighashEngine Reference.secp Reference.bip32

open Reference

theorem infallible_iff_shWsh :
    (∀ all, shWshSigner.session.Returned all →
      (shWshSigner.session.Infallible all ↔
        shWshUnsigned.inputs.length ≤ shWshUnsigned.global.inputCount)) ∧
    ∀ s, shWshSigner.session.ReturnedOne s →
      ∀ k : GetKey, (shWshSigner.session.getInputSigs s k).Returns :=
  infallible_iff documented_sighashEngine (Signer.new_eq_ok.mpr rfl)

/-- The key provider that holds the key of the taproot inputs. -/
def trKeys : GetKey :=
  ⟨GetKeyError, xonlyMapGetKey (({} : BTreeMap XOnlyPublicKey RefKey).insert trKey trSecret)⟩

/-- The complete set of a PSBT that counts one of its two inputs has one prevout, and
signing it panics. -/
theorem uncounted_panics :
    ∃ (signer : Signer) (all : AllSignableInputs),
      Signer.new trUncounted = .ok signer ∧ signer.session.signableInputs = .ok all ∧
        ¬signer.session.Covers all ∧ signer.session.getAll all trKeys = .panicked := by
  obtain ⟨all, hall⟩ : ∃ all, trUncountedSigner.session.signableInputs.toOption = some all :=
    Option.isSome_iff_exists.mp (by decide +kernel)
  have hlength : (trUncountedSigner.session.signableInputs.toOption.map fun all =>
      all.prevouts.length) = some 1 := by decide +kernel
  have hpanic : (trUncountedSigner.session.signableInputs.toOption.map fun all =>
      trUncountedSigner.session.getAll all trKeys) = some .panicked := by decide +kernel
  rw [hall, Option.map_some, Option.some.injEq] at hlength hpanic
  refine ⟨trUncountedSigner, all, Signer.new_eq_ok.mpr rfl, Result.toOption_eq_some.mp hall,
    ?_, hpanic⟩
  intro hcovers
  have htwo : all.prevouts.length = 2 := hcovers.length_prevouts
  omega

end SigningSession

end RustPsbt
