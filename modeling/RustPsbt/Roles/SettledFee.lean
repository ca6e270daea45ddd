import Mathlib.Logic.Relation
import RustPsbt.Combine.Extraction
import RustPsbt.Reference.Miniscript
import RustPsbt.Roles.FeeRate
import RustPsbt.Roles.HandOff

/-!
# The fee that is paid

Once every input has its funding output, the fee of a PSBT is known.  After that the PSBT is
combined with copies that may say anything, signed, sent and finalized.  Copies add funding
data where there is none, which can contradict what is there.

Main results:

- Theorem `Psbt.KeepsFunds.of_run`: what is there of the funding data stays.
- Theorem `Psbt.fee_settled`: the fee stays or can no longer be told, and every transaction
  that is extracted pays it.
-/

namespace RustPsbt

section Generic

variable [BitcoinTypes]

/-! ## Funding data -/

/-- The right input spends the same output, and keeps the funding data of the left one. -/
structure Input.KeepsUtxos (i j : Input) : Prop where
  outPoint : j.outPoint = i.outPoint
  witnessUtxo : ∀ utxo, i.witnessUtxo = some utxo → j.witnessUtxo = some utxo
  nonWitnessUtxo : ∀ tx, i.nonWitnessUtxo = some tx → j.nonWitnessUtxo = some tx

/-- The right PSBT keeps the funding data of the inputs and the amounts of the outputs. -/
structure Psbt.KeepsFunds (p q : Psbt) : Prop where
  inputs : List.Forall₂ Input.KeepsUtxos p.inputs q.inputs
  amounts : q.outputs.map (·.amount) = p.outputs.map (·.amount)

namespace Input

theorem KeepsUtxos.refl (i : Input) : KeepsUtxos i i where
  outPoint := rfl
  witnessUtxo _ h := h
  nonWitnessUtxo _ h := h

theorem KeepsUtxos.trans {i j k : Input} (hij : KeepsUtxos i j) (hjk : KeepsUtxos j k) :
    KeepsUtxos i k where
  outPoint := hjk.outPoint.trans hij.outPoint
  witnessUtxo utxo h := hjk.witnessUtxo utxo (hij.witnessUtxo utxo h)
  nonWitnessUtxo tx h := hjk.nonWitnessUtxo tx (hij.nonWitnessUtxo tx h)

/-- Inputs with the same funding fields keep the funding data. -/
theorem KeepsUtxos.of_eq {i j : Input} (houtPoint : j.outPoint = i.outPoint)
    (hwitness : j.witnessUtxo = i.witnessUtxo) (hnon : j.nonWitnessUtxo = i.nonWitnessUtxo) :
    KeepsUtxos i j where
  outPoint := houtPoint
  witnessUtxo _ h := hwitness.trans h
  nonWitnessUtxo _ h := hnon.trans h

/-- A merge fills in funding data only where there is none. -/
theorem keepsUtxos_merge (i j : Input) : KeepsUtxos i (i.merge j) where
  outPoint := rfl
  witnessUtxo utxo h := by simp [merge, h]
  nonWitnessUtxo tx h := by simp [merge, h]

theorem SameButSigs.keepsUtxos {i j : Input} (h : SameButSigs i j) : KeepsUtxos i j := by
  rw [h]
  exact .of_eq rfl rfl rfl

theorem FinalizedFrom.keepsUtxos {i j : Input} (h : FinalizedFrom i j) : KeepsUtxos i j where
  outPoint := (congrArg outPoint h.kept : j.kept.outPoint = i.kept.outPoint)
  witnessUtxo _ hutxo :=
    (congrArg Input.witnessUtxo h.kept : j.kept.witnessUtxo = i.kept.witnessUtxo).trans hutxo
  nonWitnessUtxo _ htx :=
    (congrArg Input.nonWitnessUtxo h.kept :
      j.kept.nonWitnessUtxo = i.kept.nonWitnessUtxo).trans htx

theorem keepsUtxos_of_demote {i j : Input} (h : i.demote = j.demote) : KeepsUtxos i j :=
  .of_eq (Input.eq_of_demote (f := outPoint) (fun _ => rfl) h.symm)
    (Input.eq_of_demote (f := Input.witnessUtxo) (fun _ => rfl) h.symm)
    (Input.eq_of_demote (f := Input.nonWitnessUtxo) (fun _ => rfl) h.symm)

variable [TxidHash]

/-- Only an input without funding data misses it. -/
theorem fundingUtxo_ne_missing {i : Input} (h : i.witnessUtxo.isSome ∨ i.nonWitnessUtxo.isSome) :
    i.fundingUtxo ≠ .err .missingUtxo := by
  unfold fundingUtxo
  cases hnon : i.nonWitnessUtxo with
  | none =>
      cases hwit : i.witnessUtxo with
      | none => simp [hnon, hwit] at h
      | some w => simp
  | some tx =>
      by_cases htxid : computeTxid tx = i.previousTxid
      · cases i.witnessUtxo with
        | none => cases hout : tx.output[i.spentOutputIndex.toNat]? <;> simp [htxid, hout, Result.okOr]
        | some w =>
            cases hout : tx.output[i.spentOutputIndex.toNat]? with
            | none => simp [htxid, hout, Result.okOr]
            | some txout => by_cases heq : txout = w <;> simp [htxid, hout, heq, Result.okOr]
      · simp [htxid]

namespace KeepsUtxos

variable {i j : Input} {utxo : TxOut}

/-- An input that still has a funding output has the one that it had. -/
theorem eq_of_fundedBy (h : KeepsUtxos i j) (hi : i.FundedBy utxo) {utxo' : TxOut}
    (hj : j.FundedBy utxo') : utxo' = utxo := by
  cases hnon : i.nonWitnessUtxo with
  | some tx =>
      have hout := (hi.nonWitness tx hnon).2.1
      have hout' := (hj.nonWitness tx (h.nonWitnessUtxo tx hnon)).2.1
      have hvout : j.spentOutputIndex = i.spentOutputIndex := congrArg OutPoint.vout h.outPoint
      rw [hvout, hout] at hout'
      exact (Option.some.inj hout').symm
  | none =>
      have hw := h.witnessUtxo utxo (hi.witness hnon)
      cases hnon' : j.nonWitnessUtxo with
      | some tx => exact ((hj.nonWitness tx hnon').2.2 utxo hw).symm
      | none => exact Option.some.inj ((hj.witness hnon').symm.trans hw)

/-- The funding output stays, or the funding data has become contradictory. -/
theorem fundingUtxo_cases (h : KeepsUtxos i j) (hi : i.fundingUtxo = .ok utxo) :
    j.fundingUtxo = .ok utxo ∨ ∃ e, j.fundingUtxo = .err e ∧ e ≠ .missingUtxo := by
  have hfunded := fundingUtxo_eq_ok.mp hi
  have hdata : j.witnessUtxo.isSome ∨ j.nonWitnessUtxo.isSome := by
    cases hnon : i.nonWitnessUtxo with
    | some tx => exact .inr (by simp [h.nonWitnessUtxo tx hnon])
    | none => exact .inl (by simp [h.witnessUtxo utxo (hfunded.witness hnon)])
  have hne := fundingUtxo_ne_missing hdata
  have hreturns := j.returns_fundingUtxo
  cases hj : j.fundingUtxo with
  | ok utxo' =>
      left
      rw [h.eq_of_fundedBy hfunded (fundingUtxo_eq_ok.mp hj)]
  | error fault =>
      right
      rw [hj] at hne hreturns
      cases fault with
      | error e => exact ⟨e, rfl, fun he => hne (he ▸ rfl)⟩
      | panic => exact absurd hreturns (by simp [Result.Returns])
      | diverge => exact absurd hreturns (by simp [Result.Returns])

end KeepsUtxos

end Input

/-! ## Steps -/

namespace Psbt

theorem KeepsFunds.refl (p : Psbt) : KeepsFunds p p where
  inputs := List.forall₂_same.mpr fun i _ => .refl i
  amounts := rfl

theorem KeepsFunds.trans {p q r : Psbt} (hpq : KeepsFunds p q) (hqr : KeepsFunds q r) :
    KeepsFunds p r where
  inputs := by
    have hlen : p.inputs.length = r.inputs.length :=
      hpq.inputs.length_eq.trans hqr.inputs.length_eq
    refine List.forall₂_iff_get.mpr ⟨hlen, fun i hp hr => ?_⟩
    have hq : i < q.inputs.length := hpq.inputs.length_eq ▸ hp
    exact (hpq.inputs.get hp hq).trans (hqr.inputs.get hq hr)
  amounts := hqr.amounts.trans hpq.amounts

/-- The left operand of a combination keeps its funding data. -/
theorem keepsFunds_combineWith {p other q : Psbt} (h : p.combineWith other = .ok q) :
    KeepsFunds p q := by
  obtain ⟨xpubs, -, -, -, -, -, rfl⟩ := combineWith_eq_ok.mp h
  constructor
  · change List.Forall₂ Input.KeepsUtxos p.inputs (p.mergedInputs other)
    unfold mergedInputs
    generalize p.inputs = inputs
    generalize other.inputs = others
    induction inputs generalizing others with
    | nil => cases others <;> exact .nil
    | cons i inputs ih =>
        cases others with
        | nil => exact List.forall₂_same.mpr fun j _ => .refl j
        | cons j others => exact .cons (i.keepsUtxos_merge j) (ih others)
  · exact map_zipMerge_eq_iff.mpr fun _ _ _ _ _ => rfl

theorem SameButSigs.keepsFunds {p q : Psbt} (h : SameButSigs p q) : KeepsFunds p q where
  inputs := h.inputs.imp fun _ _ => Input.SameButSigs.keepsUtxos
  amounts := by rw [h.outputs]

theorem FinalizedFrom.keepsFunds {p q : Psbt} (h : FinalizedFrom p q) : KeepsFunds p q where
  inputs := h.inputs.imp fun _ _ => Input.FinalizedFrom.keepsUtxos
  amounts := by rw [h.outputs]

/-- What version 0 carries alike has the same funding data. -/
theorem SameInV0.keepsFunds {p q : Psbt} (h : SameInV0 p q) : KeepsFunds p q where
  inputs := by
    have hcarried : List.Forall₂ (fun i j => i.demote = j.demote) p.inputs q.inputs := by
      rw [← List.forall₂_map_right_iff, ← List.forall₂_map_left_iff, List.forall₂_eq_eq_eq]
      exact h.inputs.symm
    exact hcarried.imp fun _ _ => Input.keepsUtxos_of_demote
  amounts := by rw [h.outputs]

variable [TxidHash] [BitcoinCodecs]

/-- What is sent arrives with its funding data. -/
theorem keepsFunds_sent [LawfulCodecs] {p q : Psbt} (h : Sent p q) : KeepsFunds p q := by
  cases h with
  | two hwell hfits hread =>
      rw [deserialize_serialize_of_fits hwell hfits] at hread
      cases hread
      exact .refl p
  | @zero v0 back hfrom hwell hcarried hread =>
      obtain ⟨l, hl, heq⟩ := Result.bind_eq_ok.mp hfrom
      cases heq
      exact ((Sent.zero hfrom hwell hcarried hread).sameInV0 hl).keepsFunds

variable [ScriptHashes] [KeyHashes] [SignatureTypes] [Miniscript] [ScriptInterpreter]

/-- What happens to a PSBT after its funding outputs are known. -/
inductive Handled : Psbt → Psbt → Prop where
  /-- Another PSBT is combined into it, whatever that one says. -/
  | combined {p other q} (h : p.combineWith other = .ok q) : Handled p q
  /-- Signatures of any origin are applied. -/
  | signed {p q} {signer : Signer} {sigs : List InputSigs} (hnew : Signer.new p = .ok signer)
      (happly : signer.apply sigs = .ok q) : Handled p q
  | finalized {p q} {finalizer : Finalizer} (hnew : Finalizer.new p = .ok finalizer)
      (hfinalize : finalizer.finalize = .ok q) : Handled p q
  | sent {p q} (h : Sent p q) : Handled p q

variable [LawfulCodecs]

/-- A step keeps the funding data. -/
theorem Handled.keepsFunds {p q : Psbt} (h : Handled p q) : KeepsFunds p q := by
  cases h with
  | combined h => exact keepsFunds_combineWith h
  | signed hnew happly =>
      rw [← Signer.new_eq_ok.mp hnew]
      exact (Signer.apply_spec happly).keepsFunds
  | finalized hnew hfinalize =>
      rw [← Finalizer.new_eq_ok.mp hnew]
      exact (Finalizer.finalize_spec hfinalize).keepsFunds
  | sent h => exact keepsFunds_sent h

/-- A run keeps the funding data. -/
theorem KeepsFunds.of_run {p q : Psbt} (h : Relation.ReflTransGen Handled p q) :
    KeepsFunds p q := by
  induction h with
  | refl => exact .refl p
  | tail _ hstep ih => exact ih.trans hstep.keepsFunds

end Psbt

/-! ## The fee -/

namespace Psbt

variable [TxidHash] [Weights] {p q : Psbt}

/-- The sum over inputs that keep their funding data stays, or the data of one of them has
become contradictory. -/
theorem foldlM_inputValue_cases {inputs inputs' : List Input}
    (h : List.Forall₂ Input.KeepsUtxos inputs inputs') {a v : UInt64}
    (hv : (inputs.foldlM (fun inputValue input => do
      let utxo ← input.fundingUtxo.mapErr FeeError.fundingUtxo
      Result.okOr .inputOverflow (checkedAdd64 inputValue (toSat utxo.value))) a) = .ok v) :
    (inputs'.foldlM (fun inputValue input => do
        let utxo ← input.fundingUtxo.mapErr FeeError.fundingUtxo
        Result.okOr .inputOverflow (checkedAdd64 inputValue (toSat utxo.value))) a) = .ok v ∨
      ∃ e, (inputs'.foldlM (fun inputValue input => do
        let utxo ← input.fundingUtxo.mapErr FeeError.fundingUtxo
        Result.okOr .inputOverflow (checkedAdd64 inputValue (toSat utxo.value))) a) =
          .err (.fundingUtxo e) ∧ e ≠ .missingUtxo := by
  induction h generalizing a with
  | nil => exact .inl hv
  | cons hij _ ih =>
      rw [List.foldlM_cons] at hv
      obtain ⟨b, hb, hrest⟩ := Result.bind_eq_ok.mp hv
      obtain ⟨utxo, hutxo, hadd⟩ := Result.bind_eq_ok.mp hb
      rw [List.foldlM_cons]
      rcases hij.fundingUtxo_cases (Result.mapErr_eq_ok.mp hutxo) with hj | ⟨e, hj, hne⟩
      · rw [hj, Result.mapErr_ok, Result.ok_bind, hadd, Result.ok_bind]
        exact ih hrest
      · right
        rw [hj, Result.mapErr_err, Result.error_bind]
        exact ⟨e, rfl, hne⟩

omit [TxidHash] in
/-- The outputs are worth the same. -/
theorem KeepsFunds.outputValue_eq (h : KeepsFunds p q) :
    outputValue q.outputs = outputValue p.outputs := by
  have hvalue : ∀ outputs : List Output, outputValue outputs =
      ((outputs.map (·.amount)).map fun amount => (toSat amount).toNat).sum := by
    intro outputs
    rw [List.map_map]
    rfl
  rw [hvalue, h.amounts, ← hvalue]

/-- A fee that was known stays, or the funding data has become contradictory. -/
theorem KeepsFunds.fee_cases (h : KeepsFunds p q) {sats : UInt64} (hfee : p.fee = .ok sats) :
    q.fee = .ok sats ∨ ∃ e, q.fee = .err (.fundingUtxo e) ∧ e ≠ .missingUtxo := by
  obtain ⟨ins, hins, hrest⟩ := Result.bind_eq_ok.mp hfee
  obtain ⟨outs, houts, hsub⟩ := Result.bind_eq_ok.mp hrest
  have houts' := foldlM_outputValue_eq_ok.mp houts
  rw [← h.outputValue_eq] at houts'
  unfold fee
  rcases foldlM_inputValue_cases h.inputs hins with hins' | ⟨e, he, hne⟩
  · left
    rw [hins', Result.ok_bind, foldlM_outputValue_eq_ok.mpr houts', Result.ok_bind]
    exact hsub
  · right
    rw [he, Result.error_bind]
    exact ⟨e, rfl, hne⟩

omit [Weights] in
/-- The funding outputs that are still there are those that were known. -/
theorem KeepsFunds.fundedBy (h : KeepsFunds p q) {utxos : List TxOut}
    (hp : List.Forall₂ Input.FundedBy p.inputs utxos)
    (hq : ∀ j ∈ q.inputs, ∃ utxo, j.fundingUtxo = .ok utxo) :
    List.Forall₂ Input.FundedBy q.inputs utxos := by
  have hinputs := h.inputs
  generalize p.inputs = inputs at hp hinputs
  generalize q.inputs = inputs' at hq hinputs
  induction hinputs generalizing utxos with
  | nil => exact hp
  | cons hij _ ih =>
      cases hp with
      | cons hi hrest =>
          obtain ⟨utxo', hj⟩ := hq _ List.mem_cons_self
          have hj' := Input.fundingUtxo_eq_ok.mp hj
          rw [hij.eq_of_fundedBy hi hj'] at hj'
          exact .cons hj' (ih hrest fun j hmem => hq j (List.mem_cons_of_mem _ hmem))

/-- A fee that can still be told is the one that was known. -/
theorem KeepsFunds.fee_eq (h : KeepsFunds p q) {sats : UInt64} (hfee : p.fee = .ok sats)
    (hfunded : ∀ j ∈ q.inputs, ∃ utxo, j.fundingUtxo = .ok utxo) : q.fee = .ok sats := by
  obtain ⟨utxos, hpays⟩ := fee_eq_ok.mp hfee
  refine fee_eq_ok.mpr ⟨utxos, h.fundedBy hpays.funded hfunded, hpays.inputs_lt, ?_, ?_, ?_⟩
  · rw [h.outputValue_eq]
    exact hpays.outputs_lt
  · rw [h.outputValue_eq]
    exact hpays.outputs_le
  · rw [h.outputValue_eq]
    exact hpays.fee_eq

omit [TxidHash] [Weights] in
/-- The inputs spend the same outputs. -/
theorem KeepsFunds.outPoints_eq (h : KeepsFunds p q) :
    q.inputs.map Input.outPoint = p.inputs.map Input.outPoint := by
  rw [← List.forall₂_eq_eq_eq, List.forall₂_map_left_iff, List.forall₂_map_right_iff]
  exact h.inputs.flip.imp fun _ _ hij => hij.outPoint

/-- The transaction spends what the inputs spend, is worth what the outputs are worth, and
leaves the fee. -/
structure PaidBy (p : Psbt) (sats : UInt64) (tx : Transaction) : Prop where
  spends : tx.input.map (·.previousOutput) = p.inputs.map Input.outPoint
  pays : tx.output.map (·.value) = p.outputs.map (·.amount)
  fee : ∃ utxos, List.Forall₂ Input.FundedBy p.inputs utxos ∧
    inputValue utxos = (tx.output.map fun txOut => (toSat txOut.value).toNat).sum + sats.toNat

/-- A transaction that is extracted later pays the fee that was known. -/
theorem KeepsFunds.paidBy (h : KeepsFunds p q) {sats : UInt64} (hfee : p.fee = .ok sats)
    {extractor : Extractor} (hnew : Extractor.new q = .ok extractor) {tx : Transaction}
    (htx : extractor.extractTxUncheckedFeeRate = .ok tx) : PaidBy p sats tx := by
  obtain ⟨-, -, ⟨l, hl⟩, -⟩ := Extractor.new_eq_ok.mp hnew
  obtain ⟨tx', htx', herase⟩ :=
    Extractor.extractTxUncheckedFeeRate_spec hnew (unsignedTx_eq_ok.mpr ⟨l, hl, rfl⟩)
  rw [htx] at htx'
  cases htx'
  obtain ⟨utxos, hpays⟩ := fee_eq_ok.mp hfee
  have hspends : tx.input.map (·.previousOutput) = q.inputs.map Input.outPoint := by
    have hinput : tx.erase.input.map (·.previousOutput) = tx.input.map (·.previousOutput) := by
      rw [Transaction.erase, List.map_map]
      rfl
    rw [← hinput, herase, unsignedTxAt, List.map_map]
    rfl
  have hvalues : tx.output.map (·.value) = q.outputs.map (·.amount) := by
    have houtput : tx.output = tx.erase.output := rfl
    rw [houtput, herase, unsignedTxAt, List.map_map]
    rfl
  refine ⟨hspends.trans h.outPoints_eq, hvalues.trans h.amounts, utxos, hpays.funded, ?_⟩
  have hsum : (tx.output.map fun txOut => (toSat txOut.value).toNat).sum =
      outputValue p.outputs := by
    have hcomp : (tx.output.map fun txOut => (toSat txOut.value).toNat) =
        (tx.output.map (·.value)).map fun amount => (toSat amount).toNat := by
      rw [List.map_map]
      rfl
    rw [hcomp, hvalues, ← h.outputValue_eq, outputValue, List.map_map]
    rfl
  have hle := hpays.outputs_le
  have heq := hpays.fee_eq
  omega

variable [ScriptHashes] [KeyHashes] [SignatureTypes] [Miniscript] [ScriptInterpreter]
  [BitcoinCodecs] [LawfulCodecs]

/-- What is left of a fee that was known once. -/
structure FeeSettled (p q : Psbt) (sats : UInt64) : Prop where
  /-- It stays, or contradictory funding data has been added. -/
  fee : q.fee = .ok sats ∨ ∃ e, q.fee = .err (.fundingUtxo e) ∧ e ≠ .missingUtxo
  finalizer : ∀ finalizer, Finalizer.new q = .ok finalizer → q.fee = .ok sats
  extracts : ∀ extractor tx, Extractor.new q = .ok extractor →
    extractor.extractTxUncheckedFeeRate = .ok tx → PaidBy p sats tx
  limited : ∀ extractor limit tx, Extractor.new q = .ok extractor →
    extractor.extractTxWithFeeRateLimit limit = .ok tx → q.fee = .ok sats ∧ PaidBy p sats tx

/-- Whatever happens to a PSBT with a known fee, the fee stays or can no longer be told; the
Finalizer and a fee rate limit insist on it, and every extracted transaction pays it. -/
theorem fee_settled (hrun : Relation.ReflTransGen Handled p q) {sats : UInt64}
    (hfee : p.fee = .ok sats) : FeeSettled p q sats := by
  have hkeeps := KeepsFunds.of_run hrun
  refine ⟨hkeeps.fee_cases hfee, fun finalizer hnew => ?_,
    fun extractor tx hnew htx => hkeeps.paidBy hfee hnew htx, fun extractor limit tx hnew htx => ?_⟩
  · have hpsbt : finalizer.psbt = q := Finalizer.new_eq_ok.mp hnew
    exact hkeeps.fee_eq hfee fun j hj => finalizer.funded (hpsbt ▸ hj)
  · have hunchecked := Extractor.internalExtractTxWithFeeRateLimit_spec htx
    refine ⟨?_, hkeeps.paidBy hfee hnew hunchecked⟩
    obtain ⟨sats', hsats', -⟩ := Result.bind_eq_ok.mp htx
    have hpsbt : extractor.psbt = q := (Extractor.new_eq_ok.mp hnew).1
    rw [hpsbt] at hsats'
    have hok := Result.mapErr_eq_ok.mp hsats'
    rcases hkeeps.fee_cases hfee with hkept | ⟨e, he, -⟩
    · exact hkept
    · rw [he] at hok
      cases hok

end Psbt

end Generic

/-! ## A reference run -/

namespace Psbt

section

attribute [local instance] Reference.types Reference.txidHash Reference.signatureTypes
  Reference.keyHashes Reference.scriptHashes Reference.miniscript Reference.scriptInterpreter
  Reference.weights Reference.codecs Reference.lawfulCodecs

open Reference

/-- The reference PSBT is signed and finalized. -/
theorem fee_settled_wpkh : ∃ sats, wpkhUnsigned.fee = .ok sats ∧
    FeeSettled wpkhUnsigned wpkhFinalized sats := by
  have hsome : wpkhUnsigned.fee.toOption.isSome := by decide +kernel
  obtain ⟨sats, hsats⟩ := Option.isSome_iff_exists.mp hsome
  have hfee := Result.toOption_eq_some.mp hsats
  have happly : wpkhSigner.apply [inputSigs] = .ok wpkhSigned := rfl
  have hfinalize : wpkhFinalizer.finalize = .ok wpkhFinalized :=
    Result.toOption_eq_some.mp (by decide +kernel)
  have hsigned : Handled wpkhUnsigned wpkhSigned := .signed (Signer.new_eq_ok.mpr rfl) happly
  have hfinalized : Handled wpkhSigned wpkhFinalized :=
    .finalized (Finalizer.new_eq_ok.mpr rfl) hfinalize
  exact ⟨sats, hfee, fee_settled (.tail (.single hsigned) hfinalized) hfee⟩

end

end Psbt

end RustPsbt
