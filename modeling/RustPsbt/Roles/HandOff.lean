import RustPsbt.Roles.Cosigners
import RustPsbt.Roles.Extractor
import RustPsbt.Serialization.RoundTripV0

/-!
# Handing off between signers

A PSBT is passed from signer to signer in version 2 or in version 0.  Version 0 drops the
lock time requirements and the modification flags, and resolves the lock time; signers look
at none of these.

Main results:

- Theorem `Signer.sessions_sameInV0`: sessions over PSBTs that version 0 carries alike check
  and sign alike.
- Theorem `Signer.handedOff`: whatever the PSBT is passed on in, the signers write what they
  would have written in one place, as far as version 0 carries it.
-/

namespace RustPsbt

section Generic

variable [BitcoinTypes]

/-! ## What version 0 carries -/

/-- Version 0 carries the same of both PSBTs, and both have a lock time. -/
structure Psbt.SameInV0 (p q : Psbt) : Prop where
  lockTime : ∃ l, p.determineLockTime = .ok l ∧ q.determineLockTime = .ok l
  global : q.global = { p.global with
    fallbackLockTime := q.global.fallbackLockTime
    txModifiableFlags := q.global.txModifiableFlags }
  inputs : q.inputs.map Input.demote = p.inputs.map Input.demote
  outputs : q.outputs = p.outputs

/-- Nothing more is lost when it is carried again. -/
theorem Input.demote_demote (i : Input) : i.demote.demote = i.demote := by
  simp [demote]

/-- What is read off the carried part of an input is the same of both. -/
theorem Input.eq_of_demote {β : Type} {f : Input → β} (hf : ∀ i : Input, f i.demote = f i)
    {i j : Input} (h : j.demote = i.demote) : f j = f i := by
  rw [← hf j, h, hf]

namespace Psbt

/-- The lock time requirements are gone, and the lock time is the fallback. -/
theorem determineLockTime_demote (p : Psbt) (l : LockTime) :
    (p.demote l).determineLockTime = .ok l := by
  have hnone : ∀ i ∈ (p.demote l).inputs, ¬i.HasLock := by
    intro i hi
    obtain ⟨j, -, rfl⟩ := List.mem_map.mp hi
    simp [Input.HasLock, Input.demote]
  have hfallback : (p.demote l).global.fallbackLockTime.getD .zero = l := by
    by_cases hzero : l = .zero
    · simp [demote, hzero]
    · simp [demote, hzero]
  refine determineLockTime_eq_ok.mpr ⟨?_, ?_⟩
  · intro hconflict
    obtain ⟨i, hi, htime⟩ := hconflict.1
    exact hnone i hi htime.hasLock
  · have hrule : (p.demote l).LockTimeIs
        ((p.demote l).global.fallbackLockTime.getD .zero) := .fallback hnone
    rw [hfallback] at hrule
    exact hrule

theorem sameInV0_demote {p : Psbt} {l : LockTime} (h : p.determineLockTime = .ok l) :
    SameInV0 p (p.demote l) where
  lockTime := ⟨l, h, determineLockTime_demote p l⟩
  global := rfl
  inputs := by simp [demote, Input.demote_demote]
  outputs := rfl

namespace SameInV0

variable {p q r : Psbt}

theorem refl {l : LockTime} (h : p.determineLockTime = .ok l) : SameInV0 p p where
  lockTime := ⟨l, h, h⟩
  global := rfl
  inputs := rfl
  outputs := rfl

theorem symm (h : SameInV0 p q) : SameInV0 q p where
  lockTime := by
    obtain ⟨l, hp, hq⟩ := h.lockTime
    exact ⟨l, hq, hp⟩
  global := by rw [h.global]
  inputs := h.inputs.symm
  outputs := h.outputs.symm

theorem trans (hpq : SameInV0 p q) (hqr : SameInV0 q r) : SameInV0 p r where
  lockTime := by
    obtain ⟨l, hp, hq⟩ := hpq.lockTime
    obtain ⟨l', hq', hr⟩ := hqr.lockTime
    rw [hq] at hq'
    cases hq'
    exact ⟨l, hp, hr⟩
  global := by rw [hqr.global, hpq.global]
  inputs := hqr.inputs.trans hpq.inputs
  outputs := hqr.outputs.trans hpq.outputs

/-- What is read off the carried part of the inputs is the same of both. -/
theorem map_inputs {β : Type} (h : SameInV0 p q) {f : Input → β}
    (hf : ∀ i : Input, f i.demote = f i) : q.inputs.map f = p.inputs.map f := by
  have hcarried : ∀ inputs : List Input, inputs.map f = (inputs.map Input.demote).map f := by
    intro inputs
    simp [hf]
  rw [hcarried q.inputs, h.inputs, ← hcarried]

/-- The unsigned transaction is carried. -/
theorem unsignedTx_eq (h : SameInV0 p q) : q.unsignedTx = p.unsignedTx := by
  obtain ⟨l, hp, hq⟩ := h.lockTime
  have hversion : q.global.txVersion = p.global.txVersion := by rw [h.global]
  unfold unsignedTx
  rw [hp, hq, hversion, h.map_inputs (fun _ => rfl), h.outputs]

/-- Both pass the bounds check alike. -/
theorem checkedInput_cases (h : SameInV0 p q) (index : Nat) :
    (∃ e, p.checkedInput index = .err e ∧ q.checkedInput index = .err e) ∨
      ∃ i j, j.demote = i.demote ∧ p.checkedInput index = .ok i ∧
        q.checkedInput index = .ok j := by
  have hinputs : List.Forall₂ (fun i j => j.demote = i.demote) p.inputs q.inputs := by
    have hmap : List.Forall₂ Eq (q.inputs.map Input.demote) (p.inputs.map Input.demote) :=
      List.forall₂_eq_eq_eq ▸ h.inputs
    rw [List.forall₂_map_left_iff, List.forall₂_map_right_iff] at hmap
    exact hmap.flip
  have hcount : q.global.inputCount = p.global.inputCount := by rw [h.global]
  exact Psbt.checkedInput_cases hinputs hcount index

end SameInV0

end Psbt

/-! ## Sessions over what version 0 carries -/

namespace SignableInput

variable [TxidHash] {p q : Psbt}

/-- The structural checks do not look at what version 0 drops. -/
theorem checkData_of_sameInV0 (h : Psbt.SameInV0 p q) (index : Nat) :
    checkData q index = checkData p index := by
  have houtputs : q.outputs = p.outputs := h.outputs
  unfold checkData
  rcases h.checkedInput_cases index with ⟨e, hp, hq⟩ | ⟨i, j, hij, hp, hq⟩
  · rw [hp, hq]
    rfl
  · have hfund : j.fundingUtxo = i.fundingUtxo :=
      Input.eq_of_demote (f := Input.fundingUtxo) (fun _ => rfl) hij
    have htype : j.outputType = i.outputType :=
      Input.eq_of_demote (f := Input.outputType) (fun _ => rfl) hij
    have hutxo : j.witnessUtxo = i.witnessUtxo :=
      Input.eq_of_demote (f := Input.witnessUtxo) (fun _ => rfl) hij
    have hsighash : j.sighashTyFor = i.sighashTyFor :=
      Input.eq_of_demote (f := Input.sighashTyFor) (fun _ => rfl) hij
    have hcode : j.scriptCodeFor = i.scriptCodeFor :=
      Input.eq_of_demote (f := Input.scriptCodeFor) (fun _ => rfl) hij
    have hhash : j.checkHashTy = i.checkHashTy :=
      Input.eq_of_demote (f := Input.checkHashTy) (fun _ => rfl) hij
    rw [hp, hq, houtputs]
    simp only [Result.mapErr_ok, Result.ok_bind, hfund, htype, hutxo, hsighash, hcode, hhash]

/-- The strict checks do not look at it either. -/
theorem verify_of_sameInV0 [ScriptHashes] [SignatureTypes] (h : Psbt.SameInV0 p q)
    (index : Nat) : verify q index = verify p index := by
  unfold verify
  rw [checkData_of_sameInV0 h]
  rcases h.checkedInput_cases index with ⟨e, hp, hq⟩ | ⟨i, j, hij, hp, hq⟩
  · rw [hp, hq]
  · have hfund : j.fundingUtxoUntrusted = i.fundingUtxoUntrusted :=
      Input.eq_of_demote (f := Input.fundingUtxoUntrusted) (fun _ => rfl) hij
    have hredeem : j.checkRedeemScript = i.checkRedeemScript :=
      Input.eq_of_demote (f := Input.checkRedeemScript) (fun _ => rfl) hij
    have hwitness : j.checkWitnessScript = i.checkWitnessScript :=
      Input.eq_of_demote (f := Input.checkWitnessScript) (fun _ => rfl) hij
    have hkey : j.checkInternalKey = i.checkInternalKey :=
      Input.eq_of_demote (f := Input.checkInternalKey) (fun _ => rfl) hij
    have hmismatch : j.hasMismatch = i.hasMismatch :=
      Input.eq_of_demote (f := Input.hasMismatch) (fun _ => rfl) hij
    rw [hp, hq]
    simp only [Result.mapErr_ok, Result.ok_bind, hfund, hredeem, hwitness, hkey, hmismatch]

end SignableInput

/-- The check does not look at what version 0 drops. -/
def ReadsCarried (check : Psbt → Nat → Result SignError SignableInput) : Prop :=
  ∀ p q : Psbt, Psbt.SameInV0 p q → ∀ index, check q index = check p index

theorem readsCarried_assumeChecked [TxidHash] : ReadsCarried SignableInput.assumeChecked :=
  fun _ _ h => SignableInput.checkData_of_sameInV0 h

theorem readsCarried_verify [TxidHash] [ScriptHashes] [SignatureTypes] :
    ReadsCarried SignableInput.verify :=
  fun _ _ h => SignableInput.verify_of_sameInV0 h

/-- All inputs are checked alike. -/
theorem AllSignableInputs.new_of_sameInV0 [TxidHash]
    {check : Psbt → Nat → Result SignError SignableInput} (hcheck : ReadsCarried check)
    {p q : Psbt} (h : Psbt.SameInV0 p q) : new q check = new p check := by
  have hcount : q.global.inputCount = p.global.inputCount := by rw [h.global]
  have hround : (newRound q check : Building → Nat → Result (BTreeMap Nat SignError) Building) =
      newRound p check := by
    funext state index
    unfold newRound
    rw [hcheck p q h index]
    rcases h.checkedInput_cases index with ⟨e, hp, hq⟩ | ⟨i, j, hij, hp, hq⟩
    · rw [hp, hq]
    · have hfund : j.fundingUtxo = i.fundingUtxo :=
        Input.eq_of_demote (f := Input.fundingUtxo) (fun _ => rfl) hij
      rw [hp, hq]
      dsimp only [Except.toOption, Psbt.expect, Result.ok_bind]
      rw [hfund]
  unfold new
  rw [hcount, hround]

namespace SigningSession

variable [SighashEngine] [Secp] {self other : SigningSession}

/-- Signatures do not depend on what version 0 drops. -/
theorem inputSigs_of_sameInV0 (hcache : other.cache = self.cache)
    (h : Psbt.SameInV0 self.psbt other.psbt) (s : SignableInput) (allPrevouts : List TxOut)
    (k : GetKey) : other.inputSigs s allPrevouts k = self.inputSigs s allPrevouts k := by
  unfold inputSigs taprootSignatures ecdsaSignatures
  rcases h.checkedInput_cases s.index with ⟨e, hp, hq⟩ | ⟨i, j, hij, hp, hq⟩
  · rw [hp, hq, ecdsaSighash_of_cache hcache]
    rfl
  · have horigins : j.tapKeyOrigins = i.tapKeyOrigins :=
      Input.eq_of_demote (f := Input.tapKeyOrigins) (fun _ => rfl) hij
    have hderivations : j.bip32Derivations = i.bip32Derivations :=
      Input.eq_of_demote (f := Input.bip32Derivations) (fun _ => rfl) hij
    have hround : other.taprootRound s j allPrevouts k = other.taprootRound s i allPrevouts k :=
      Input.eq_of_demote (f := fun i => other.taprootRound s i allPrevouts k) (fun _ => rfl) hij
    have hrounds : i.tapKeyOrigins.toList.mapM (other.taprootRound s i allPrevouts k) =
        i.tapKeyOrigins.toList.mapM (self.taprootRound s i allPrevouts k) :=
      Result.mapM_congr fun entry hentry =>
        taprootRound_of_sameDue hcache (.refl i)
          (fun _ _ _ _ _ => ⟨Iff.rfl, rfl⟩) allPrevouts hentry
    rw [hp, hq, ecdsaSighash_of_cache hcache]
    dsimp only [Except.toOption, Psbt.expect, Result.ok_bind]
    rw [horigins, hderivations, hround, hrounds]

variable [TxidHash] [ScriptHashes] [SignatureTypes]

omit [ScriptHashes] [SignatureTypes] in
/-- All inputs are signed alike. -/
theorem signAllWith_of_sameInV0 {check : Psbt → Nat → Result SignError SignableInput}
    (hcheck : ReadsCarried check) (hcache : other.cache = self.cache)
    (h : Psbt.SameInV0 self.psbt other.psbt) (keys : GetKey) :
    other.signAllWith check keys = self.signAllWith check keys := by
  have hsigs : other.inputSigs = self.inputSigs := by
    funext s allPrevouts k
    exact inputSigs_of_sameInV0 hcache h s allPrevouts k
  unfold signAllWith getAll
  rw [AllSignableInputs.new_of_sameInV0 hcheck h, hsigs]

omit [TxidHash] [ScriptHashes] [SignatureTypes] in
/-- One input is signed alike. -/
theorem signInputWith_of_sameInV0 {check : Psbt → Nat → Result SignError SignableInput}
    (hcheck : ReadsCarried check) (hcache : other.cache = self.cache)
    (h : Psbt.SameInV0 self.psbt other.psbt) (index : Nat) (keys : GetKey) :
    other.signInputWith check index keys = self.signInputWith check index keys := by
  have hsigs : other.getInputSigs = self.getInputSigs := by
    funext s k
    exact inputSigs_of_sameInV0 hcache h s [] k
  unfold signInputWith
  rw [hcheck self.psbt other.psbt h index, hsigs]

end SigningSession

namespace Signer

variable [TxidHash] [ScriptHashes] [SignatureTypes] [SighashEngine] [Secp]

/-- Sessions that check and sign alike. -/
structure SameSessions (self other : SigningSession) : Prop where
  cache : other.cache = self.cache
  signAll : ∀ keys, other.signAll keys = self.signAll keys
  signAllUnchecked : ∀ keys, other.signAllUnchecked keys = self.signAllUnchecked keys
  signInput : ∀ index keys, other.signInput index keys = self.signInput index keys
  signInputUnchecked : ∀ index keys,
    other.signInputUnchecked index keys = self.signInputUnchecked index keys

omit [TxidHash] [ScriptHashes] [SignatureTypes] [SighashEngine] [Secp] in
theorem exists_new_of_sameInV0 {signer : Signer} {q : Psbt}
    (h : Psbt.SameInV0 signer.psbt q) :
    ∃ other : Signer, new q = .ok other ∧ other.psbt = q ∧ other.cache = signer.cache := by
  have htx : q.unsignedTx = .ok signer.cache := h.unsignedTx_eq.trans signer.unsignedTx_eq
  exact ⟨⟨q, signer.cache, htx⟩, new_eq_ok.mpr rfl, rfl, rfl⟩

/-- Sessions over PSBTs that version 0 carries alike check and sign alike. -/
theorem sessions_sameInV0 {signer other : Signer} (hcache : other.cache = signer.cache)
    (h : Psbt.SameInV0 signer.psbt other.psbt) :
    SameSessions signer.session other.session where
  cache := hcache
  signAll := SigningSession.signAllWith_of_sameInV0 readsCarried_verify hcache h
  signAllUnchecked :=
    SigningSession.signAllWith_of_sameInV0 readsCarried_assumeChecked hcache h
  signInput := SigningSession.signInputWith_of_sameInV0 readsCarried_verify hcache h
  signInputUnchecked :=
    SigningSession.signInputWith_of_sameInV0 readsCarried_assumeChecked hcache h

end Signer

/-! ## Writing signatures -/

namespace Input

/-- Signatures are written beside what version 0 drops. -/
theorem demote_insertSigs (i : Input) (signatures : TypedSigs) :
    (i.insertSigs signatures).demote = i.demote.insertSigs signatures := by
  cases signatures with
  | ecdsa signatures =>
      unfold insertSigs
      induction signatures generalizing i with
      | nil => rfl
      | cons entry signatures ih => exact ih _
  | taproot signatures =>
      unfold insertSigs
      induction signatures generalizing i with
      | nil => rfl
      | cons entry signatures ih =>
          obtain ⟨material, sig⟩ := entry
          cases material with
          | keyPath key => exact ih _
          | scriptPath keyMaterial => exact ih _

theorem demote_insertAllSigs (i : Input) (sigs : List InputSigs) (index : Nat) :
    (i.insertAllSigs sigs index).demote = i.demote.insertAllSigs sigs index := by
  unfold insertAllSigs
  induction sigs generalizing i with
  | nil => rfl
  | cons entry sigs ih =>
      rw [List.foldl_cons, List.foldl_cons, ih]
      by_cases hindex : entry.index = index
      · simp [hindex, demote_insertSigs]
      · simp [hindex]

end Input

namespace Signer

variable [SignatureTypes]

/-- Applying the same entries to PSBTs that version 0 carries alike. -/
theorem apply_of_sameInV0 {signer other : Signer} (h : Psbt.SameInV0 signer.psbt other.psbt)
    {sigs : List InputSigs} {p : Psbt} (happly : signer.apply sigs = .ok p) :
    ∃ q, other.apply sigs = .ok q ∧ Psbt.SameInV0 p q := by
  obtain ⟨hbounds, rfl⟩ := apply_eq_ok.mp happly
  have hlength : other.psbt.inputs.length = signer.psbt.inputs.length := by
    have hmap := congrArg List.length h.inputs
    simpa using hmap
  have hcount : other.psbt.global.inputCount = signer.psbt.global.inputCount := by
    rw [h.global]
  have happly' : other.apply sigs = .ok (applied other.psbt sigs) := by
    refine apply_eq_ok.mpr ⟨fun entry hentry => ?_, rfl⟩
    unfold InBounds
    rw [hlength, hcount]
    exact hbounds entry hentry
  refine ⟨_, happly', ?_, ?_, ?_, h.outputs⟩
  · obtain ⟨l, hl, hl'⟩ := h.lockTime
    have hsame := (apply_spec happly).sameTx.determineLockTime_eq
    have hsame' := (apply_spec happly').sameTx.determineLockTime_eq
    exact ⟨l, hsame.trans hl, hsame'.trans hl'⟩
  · change ({ other.psbt.global with txModifiableFlags := _ } : Global) = _
    rw [h.global]
    rfl
  · apply List.ext_getElem?
    intro index
    have hget := congrArg (fun inputs => inputs[index]?) h.inputs
    simp only [List.getElem?_map] at hget
    simp only [applied, List.getElem?_map, List.getElem?_mapIdx, Option.map_map,
      Function.comp_def, Input.demote_insertAllSigs]
    have hwritten := congrArg (Option.map fun i => i.insertAllSigs sigs index) hget
    simpa [Option.map_map, Function.comp_def] using hwritten

end Signer

/-! ## What the receiver sees -/

section

variable [TxidHash]

omit [TxidHash] in
theorem Psbt.SameInV0.isFinalized_eq {p q : Psbt} (h : SameInV0 p q) :
    q.isFinalized = p.isFinalized := by
  have hmap := h.map_inputs (f := Input.isFinalized) fun _ => rfl
  have hall := congrArg (fun l => l.all fun b => b) hmap
  rw [List.all_map, List.all_map] at hall
  exact hall

/-- The Extractor builds the same transaction. -/
theorem Extractor.of_sameInV0 [Weights] {p q : Psbt} (h : Psbt.SameInV0 p q)
    {extractor : Extractor} (hnew : new p = .ok extractor) :
    ∃ other, new q = .ok other ∧
      other.extractTxUncheckedFeeRate = extractor.extractTxUncheckedFeeRate ∧
      ∀ limit, other.extractTxWithFeeRateLimit limit =
        extractor.extractTxWithFeeRateLimit limit := by
  obtain ⟨rfl, hfinal, -, hcomputed⟩ := new_eq_ok.mp hnew
  obtain ⟨l, hp, hq⟩ := h.lockTime
  have hfinal' : q.isFinalized := h.isFinalized_eq.trans hfinal
  have hnew' : new q = .ok ⟨q⟩ := by
    refine new_eq_ok.mpr ⟨rfl, hfinal', ⟨l, hq⟩, ?_⟩
    rw [h.outputs]
    exact hcomputed
  have hversion : q.global.txVersion = extractor.psbt.global.txVersion := by rw [h.global]
  have hinputs : (q.inputs.mapM Input.signedTxIn : Result ExtractTxError (List TxIn)) =
      extractor.psbt.inputs.mapM Input.signedTxIn := by
    have hloop := congrArg (List.mapM (Input.signedTxIn (ε := ExtractTxError))) h.inputs
    rw [List.mapM_map, List.mapM_map] at hloop
    exact hloop
  have htx : (⟨q⟩ : Extractor).internalExtractTx = extractor.internalExtractTx := by
    have hnone : uncomputedSilentPaymentOutput q =
        uncomputedSilentPaymentOutput extractor.psbt := by
      unfold uncomputedSilentPaymentOutput
      rw [h.outputs]
    unfold internalExtractTx
    dsimp only
    rw [h.isFinalized_eq, hp, hq, hnone, hversion, hinputs, h.outputs]
  have hfee : q.fee = extractor.psbt.fee := by
    have hloop := congrArg (fun inputs => (inputs.foldlM (fun (inputValue : UInt64) input => do
      let utxo ← input.fundingUtxo.mapErr .fundingUtxo
      Result.okOr .inputOverflow (checkedAdd64 inputValue (toSat utxo.value))) 0 :
        Result FeeError UInt64)) h.inputs
    simp only [List.foldlM_map] at hloop
    unfold Psbt.fee
    rw [h.outputs]
    exact congrArg (fun loop : Result FeeError UInt64 => loop >>= _) hloop
  refine ⟨⟨q⟩, hnew', htx, fun limit => ?_⟩
  unfold extractTxWithFeeRateLimit internalExtractTxWithFeeRateLimit
  rw [hfee, htx]

variable [BitcoinCodecs]

omit [TxidHash] in
/-- Version 0 writes the same bytes. -/
theorem PsbtV0.serialize_of_sameInV0 {p q : Psbt} (h : Psbt.SameInV0 p q) :
    ∃ v w, fromPsbt p = .ok v ∧ fromPsbt q = .ok w ∧ w.serialize = v.serialize := by
  obtain ⟨l, hp, hq⟩ := h.lockTime
  refine ⟨⟨p, l⟩, ⟨q, l⟩, ?_, ?_, ?_⟩
  · unfold fromPsbt
    rw [hp, Result.ok_bind]
  · unfold fromPsbt
    rw [hq, Result.ok_bind]
  · have htx : GlobalV0.unsignedTx ⟨q, l⟩ = GlobalV0.unsignedTx ⟨p, l⟩ := by
      unfold GlobalV0.unsignedTx
      dsimp only
      rw [h.global, h.outputs, h.map_inputs (fun _ => rfl)]
    have hglobal : GlobalV0.encode ⟨q, l⟩ = GlobalV0.encode ⟨p, l⟩ := by
      unfold GlobalV0.encode GlobalV0.fields
      rw [htx]
      dsimp only
      rw [h.global]
      rfl
    have hinputs : q.inputs.flatMap InputV0.encode = p.inputs.flatMap InputV0.encode := by
      rw [List.flatMap_def, List.flatMap_def, h.map_inputs (fun _ => rfl)]
    unfold serialize
    rw [hglobal]
    dsimp only
    rw [hinputs, h.outputs]

omit [TxidHash] [BitcoinCodecs] in
/-- What is carried is read back as version 0 carries it. -/
theorem PsbtV0.readBack_of_carried {v0 : PsbtV0} (h : v0.Carried) :
    readBack v0 = v0.psbt.demote v0.lockTime := by
  have houtputs : v0.psbt.outputs.map withoutRedeemScript = v0.psbt.outputs := by
    refine (List.map_congr_left fun o ho => ?_).trans (List.map_id _)
    rw [withoutRedeemScript, ← (h.outputs o ho).2]
    rfl
  rw [readBack, houtputs, Psbt.demote, ← h.version]

/-- The PSBT is written and read, in version 2 or in version 0, which carries it. -/
inductive Sent : Psbt → Psbt → Prop where
  | two {p r : Psbt} (hwell : p.WellFormed) (hfits : p.Fits)
      (hread : Psbt.deserialize p.serialize = .ok r) : Sent p r
  | zero {p : Psbt} {v0 back : PsbtV0} (hfrom : PsbtV0.fromPsbt p = .ok v0)
      (hwell : v0.WellFormed) (hcarried : v0.Carried)
      (hread : PsbtV0.deserialize v0.serialize = .ok back) : Sent p back.intoPsbt

/-- Whatever a PSBT is sent in, version 0 carries what was sent. -/
theorem Sent.sameInV0 [LawfulCodecs] {p r : Psbt} (h : Sent p r) {l : LockTime}
    (hlock : p.determineLockTime = .ok l) : Psbt.SameInV0 p r := by
  cases h with
  | two hwell hfits hread =>
      rw [Psbt.deserialize_serialize_of_fits hwell hfits] at hread
      cases hread
      exact .refl hlock
  | @zero v0 back hfrom hwell hcarried hread =>
      obtain ⟨lockTime, hlock', heq⟩ := Result.bind_eq_ok.mp hfrom
      cases heq
      have hback : back = PsbtV0.ofDecoded (PsbtV0.readBack ⟨p, lockTime⟩) := by
        have hdec := PsbtV0.lawful_format.deserialize_eq_ok.mpr
          (PsbtV0.decodes_serialize hwell hcarried.inputs fun o ho => (hcarried.outputs o ho).1)
        exact Except.ok.inj (hread.symm.trans hdec)
      rw [hback]
      change Psbt.SameInV0 p (PsbtV0.readBack ⟨p, lockTime⟩)
      rw [PsbtV0.readBack_of_carried hcarried]
      exact Psbt.sameInV0_demote hlock'

end

/-! ## Runs -/

namespace Signer

variable [TxidHash] [ScriptHashes] [SignatureTypes] [SighashEngine] [Secp] [BitcoinCodecs]

/-- Signers with the keys sign one after another, and the PSBT is sent in between. -/
inductive Passed (body : SignBody) : List GetKey → Psbt → Psbt → Prop where
  | nil {p} : Passed body [] p p
  | sent {ks p r q} (hsent : Sent p r) (hrest : Passed body ks r q) : Passed body ks p q
  | signed {k ks p r q} (hsigns : SignsWith body p k r) (hrest : Passed body ks r q) :
      Passed body (k :: ks) p q

/-- Nobody behind the signers can tell the PSBTs apart: version 0 writes the same bytes of
both, they have one id, and they are signed and extracted alike. -/
structure Indistinct [Weights] (p q : Psbt) : Prop where
  bytes : ∃ v w, PsbtV0.fromPsbt p = .ok v ∧ PsbtV0.fromPsbt q = .ok w ∧
    w.serialize = v.serialize
  id : q.id = p.id
  sessions : ∀ signer, Signer.new p = .ok signer →
    ∃ other, Signer.new q = .ok other ∧ SameSessions signer.session other.session
  extracts : ∀ extractor, Extractor.new p = .ok extractor → ∃ other, Extractor.new q = .ok other ∧
    other.extractTxUncheckedFeeRate = extractor.extractTxUncheckedFeeRate ∧
      ∀ limit, other.extractTxWithFeeRateLimit limit = extractor.extractTxWithFeeRateLimit limit

theorem indistinct_of_sameInV0 [Weights] {p q : Psbt} (h : Psbt.SameInV0 p q) :
    Indistinct p q where
  bytes := PsbtV0.serialize_of_sameInV0 h
  id := by
    unfold Psbt.id Psbt.idTx
    rw [h.unsignedTx_eq, h.outputs]
  sessions signer hnew := by
    have hpsbt := new_eq_ok.mp hnew
    subst hpsbt
    obtain ⟨other, hother, rfl, hcache⟩ := exists_new_of_sameInV0 h
    exact ⟨other, hother, sessions_sameInV0 hcache h⟩
  extracts _ hnew := Extractor.of_sameInV0 h hnew

omit [ScriptHashes] [BitcoinCodecs] in
/-- One signer signs PSBTs that version 0 carries alike, and these are carried alike again. -/
theorem signsWith_of_sameInV0 {check : Psbt → Nat → Result SignError SignableInput}
    (hcheck : ReadsCarried check) {p p' r : Psbt} {k : GetKey} (h : Psbt.SameInV0 p p')
    (hsigns : SignsWith (bodyWith check) p k r) :
    ∃ r', SignsWith (bodyWith check) p' k r' ∧ Psbt.SameInV0 r r' := by
  obtain ⟨signer, sigs, hnew, hsign, happly⟩ := hsigns
  have hpsbt := new_eq_ok.mp hnew
  subst hpsbt
  obtain ⟨other, hother, rfl, hcache⟩ := exists_new_of_sameInV0 h
  obtain ⟨r', happly', hsame⟩ := apply_of_sameInV0 h happly
  refine ⟨r', ⟨other, sigs, hother, ?_, happly'⟩, hsame⟩
  exact (SigningSession.signAllWith_of_sameInV0 hcheck hcache h k).trans hsign

omit [ScriptHashes] in
/-- The signers of a run could have signed in one place. -/
theorem inTurn_of_passed [LawfulCodecs] {check : Psbt → Nat → Result SignError SignableInput}
    (hcheck : ReadsCarried check) {ks : List GetKey} {p q : Psbt}
    (h : Passed (bodyWith check) ks p q) {p' : Psbt} (hsame : Psbt.SameInV0 p p') :
    ∃ q', InTurn (bodyWith check) ks p' q' ∧ Psbt.SameInV0 q q' := by
  induction h generalizing p' with
  | nil => exact ⟨p', .nil, hsame⟩
  | sent hsent _ ih =>
      obtain ⟨l, hlock, -⟩ := hsame.lockTime
      exact ih ((hsent.sameInV0 hlock).symm.trans hsame)
  | signed hsigns _ ih =>
      obtain ⟨r', hsigns', hsame'⟩ := signsWith_of_sameInV0 hcheck hsame hsigns
      obtain ⟨q', hrest, hq⟩ := ih hsame'
      exact ⟨q', .cons hsigns' hrest, hq⟩

/-- Signers pass a PSBT on, in version 2 or in version 0, and sign it one after another.
The result is indistinct from what they make of it in one place. -/
theorem handedOff [LawfulCodecs] [Weights] {p : Psbt} {l : LockTime}
    (hlock : p.determineLockTime = .ok l) (ks : List GetKey) (q : Psbt) :
    (Passed SigningSession.signAll ks p q →
      ∃ q', InTurn SigningSession.signAll ks p q' ∧ Indistinct q q' ∧ Indistinct q' q) ∧
    (Passed SigningSession.signAllUnchecked ks p q →
      ∃ q', InTurn SigningSession.signAllUnchecked ks p q' ∧ Indistinct q q' ∧
        Indistinct q' q) := by
  constructor
  · intro h
    obtain ⟨q', hturn, hsame⟩ := inTurn_of_passed readsCarried_verify h (.refl hlock)
    exact ⟨q', hturn, indistinct_of_sameInV0 hsame, indistinct_of_sameInV0 hsame.symm⟩
  · intro h
    obtain ⟨q', hturn, hsame⟩ := inTurn_of_passed readsCarried_assumeChecked h (.refl hlock)
    exact ⟨q', hturn, indistinct_of_sameInV0 hsame, indistinct_of_sameInV0 hsame.symm⟩

end Signer

end Generic

/-! ## A reference run -/

namespace Signer

attribute [local instance] Reference.types Reference.txidHash Reference.scriptHashes
  Reference.signatureTypes Reference.sighashEngine plainSecp Reference.codecs
  Reference.lawfulCodecs Reference.weights

/-- The first cosigner signs the PSBT. -/
theorem exists_signsWith_cosigned :
    ∃ r, SignsWith SigningSession.signAll cosigned (cosigner 1) r := by
  have hsome : ((cosignedSigner.session.signAll (cosigner 1)).toOption.bind fun sigs =>
      (cosignedSigner.apply sigs).toOption).isSome := by decide +kernel
  obtain ⟨r, hr⟩ := Option.isSome_iff_exists.mp hsome
  obtain ⟨sigs, hsigs, happly⟩ := Option.bind_eq_some_iff.mp hr
  exact ⟨r, cosignedSigner, sigs, new_eq_ok.mpr rfl, Result.toOption_eq_some.mp hsigs,
    Result.toOption_eq_some.mp happly⟩

/-- The PSBT is sent in version 0, and then signed. -/
theorem handedOff_cosigned : ∃ back q q', Sent cosigned back ∧ back ≠ cosigned ∧
    SignsWith SigningSession.signAll back (cosigner 1) q ∧
      InTurn SigningSession.signAll [cosigner 1] cosigned q' ∧ Indistinct q q' := by
  have hwell : (PsbtV0.Reference.unlocked cosigned).WellFormed := by
    apply PsbtV0.wellFormed_unlocked (by decide +kernel) (by decide +kernel)
      (by decide +kernel) (by decide +kernel)
    unfold GlobalV0.Fits InputV0.Fits OutputV0.Fits InLimit
    decide +kernel
  have hunguarded : ∀ i ∈ (PsbtV0.Reference.unlocked cosigned).psbt.inputs,
      (InputV0.ofInput i).Unguarded := by
    intro i hi
    rcases List.mem_cons.mp hi with rfl | hi
    · exact ⟨rfl, rfl, rfl, rfl, rfl⟩
    · rw [List.mem_singleton.mp hi]
      exact ⟨rfl, rfl, rfl, rfl, rfl⟩
  have hcarried : (PsbtV0.Reference.unlocked cosigned).Carried :=
    ⟨rfl, hunguarded, by decide +kernel⟩
  have hlock : cosigned.determineLockTime = .ok .zero := rfl
  have hread := PsbtV0.lawful_format.deserialize_eq_ok.mpr
    (PsbtV0.decodes_serialize hwell hcarried.inputs fun o ho => (hcarried.outputs o ho).1)
  have hsent : Sent cosigned _ := .zero rfl hwell hcarried hread
  have hsame := hsent.sameInV0 hlock
  obtain ⟨r, hsigns⟩ := exists_signsWith_cosigned
  obtain ⟨q, hsigns', -⟩ := signsWith_of_sameInV0 readsCarried_verify hsame hsigns
  obtain ⟨q', hturn, hindistinct, -⟩ := (handedOff hlock [cosigner 1] q).1
    (.sent hsent (.signed hsigns' .nil))
  refine ⟨_, q, q', hsent, ?_, hsigns', hturn, hindistinct⟩
  decide +kernel

end Signer

end RustPsbt
