import RustPsbt.Roles.Workflow

/-!
# Finalizing twice

A Finalizer passes finalized inputs through, so that a finalized PSBT can be given to a
Finalizer again.  For the other inputs it sets final scripts, keeps what later roles
need and clears the rest.

Main results:

- Theorem `Finalizer.check_of_finalizes`: a finalized PSBT passes the checks of a Finalizer
  if it did before.
- Theorem `Finalizer.finalize_idempotent`: finalizing twice is finalizing once, with the
  exact frame of finalizing.
-/

namespace RustPsbt

section Generic

variable [BitcoinTypes] [TxidHash]

/-! ## The frame of finalizing -/

namespace Input

/-- What finalizing makes of an input: a finalized one is passed through, another keeps
nothing but its `kept` part and gains final scripts. -/
structure Finalizes (i j : Input) : Prop where
  passed : i.isFinalized → j = i
  isFinalized : j.isFinalized
  fresh : ¬i.isFinalized →
    j = { i.kept with
      finalScriptSig := j.finalScriptSig
      finalScriptWitness := j.finalScriptWitness }

omit [TxidHash] in
/-- Finalizing keeps the kept part. -/
theorem Finalizes.finalizedFrom {i j : Input} (h : Finalizes i j) : FinalizedFrom i j where
  isFinalized := h.isFinalized
  kept := by
    by_cases hi : i.isFinalized
    · rw [h.passed hi]
    · rw [h.fresh hi]
      rfl

/-- `Input::finalize` clears what it does not keep. -/
theorem finalize_eq_ok {ε : Type} {i j : Input} {scripts : FinalScripts}
    (h : (i.finalize scripts : Result ε Input) = .ok j) :
    j = { i.kept with
      finalScriptSig := scripts.scriptSig
      finalScriptWitness := scripts.witness } := by
  unfold finalize at h
  split at h
  · cases h
  · cases h
    rfl

end Input

namespace Psbt

/-- What finalizing makes of a PSBT. -/
structure Finalizes (p f : Psbt) : Prop where
  global : f.global = p.global
  inputs : List.Forall₂ Input.Finalizes p.inputs f.inputs
  outputs : f.outputs = p.outputs

namespace Finalizes

variable {p f : Psbt}

omit [TxidHash] in
theorem finalizedFrom (h : Finalizes p f) : FinalizedFrom p f where
  global := h.global
  inputs := h.inputs.imp fun _ _ => Input.Finalizes.finalizedFrom
  outputs := h.outputs

omit [TxidHash] in
/-- Every input of the finalized PSBT comes from the input at its index. -/
theorem exists_getElem?_eq (h : Finalizes p f) {j : Input} {index : Nat}
    (hj : f.inputs[index]? = some j) :
    ∃ i, p.inputs[index]? = some i ∧ Input.Finalizes i j := by
  obtain ⟨hf, rfl⟩ := List.getElem?_eq_some_iff.mp hj
  have hp : index < p.inputs.length := h.inputs.length_eq ▸ hf
  exact ⟨p.inputs[index], List.getElem?_eq_getElem hp, h.inputs.get hp hf⟩

end Finalizes

end Psbt

/-! ## The checks of a Finalizer -/

namespace Finalizer

variable [SignatureTypes]

omit [TxidHash] in
/-- The sighash types still fit: a finalized input has no partial signatures. -/
theorem checkPartialSigsSighashType_of_finalizes {p f : Psbt} (h : Psbt.Finalizes p f)
    (hp : p.checkPartialSigsSighashType = .ok ⟨⟩) : f.checkPartialSigsSighashType = .ok ⟨⟩ := by
  unfold Psbt.checkPartialSigsSighashType at hp ⊢
  rw [Result.forM_eq_ok] at hp ⊢
  rintro ⟨j, index⟩ hj
  obtain ⟨i, hi, hij⟩ := h.exists_getElem?_eq (List.mk_mem_zipIdx_iff_getElem?.mp hj)
  by_cases hfinal : i.isFinalized
  · rw [hij.passed hfinal]
    exact hp (i, index) (List.mk_mem_zipIdx_iff_getElem?.mpr hi)
  · rw [hij.fresh hfinal]
    rfl

/-- A finalized PSBT passes the checks if the PSBT it was made of did. -/
theorem check_of_finalizes {p f : Psbt} (h : Psbt.Finalizes p f) (hp : check p = .ok ⟨⟩) :
    check f = .ok ⟨⟩ := by
  obtain ⟨_, hfunded, hrest⟩ := Result.bind_eq_ok.mp hp
  obtain ⟨l, hl, hsigs⟩ := Result.bind_eq_ok.mp hrest
  have hl' : f.determineLockTime.mapErr Error.determineLockTime = .ok l := by
    rw [h.finalizedFrom.sameTx.determineLockTime_eq]
    exact hl
  have hsigs' : f.checkPartialSigsSighashType.mapErr Error.partialSigsSighashType = .ok ⟨⟩ :=
    Result.mapErr_eq_ok.mpr
      (checkPartialSigsSighashType_of_finalizes h (Result.mapErr_eq_ok.mp hsigs))
  refine Result.bind_eq_ok.mpr ⟨⟨⟩, ?_, Result.bind_eq_ok.mpr ⟨l, hl', hsigs'⟩⟩
  -- the utxos are kept, so every input is still funded
  rw [Result.forM_eq_ok] at hfunded ⊢
  intro j hj
  obtain ⟨i, hi, hij⟩ := Result.exists_of_mem_right h.inputs hj
  rw [hij.finalizedFrom.fundingUtxo_eq]
  exact hfunded i hi

/-! ## Finalizing -/

variable [Miniscript] [ScriptInterpreter] [KeyHashes] [ScriptHashes]

/-- A round passes a finalized input through and clears another one. -/
theorem finalizes_of_finalizeRound {self : Finalizer} {entry : Input × Nat} {j : Input}
    (h : self.finalizeRound entry = .ok j) : Input.Finalizes entry.1 j := by
  refine ⟨fun hfinal => ?_, (finalizeRound_spec h).isFinalized, fun hfresh => ?_⟩
  · unfold finalizeRound at h
    dsimp only at h
    rw [if_pos hfinal] at h
    exact (Except.ok.inj h).symm
  · unfold finalizeRound at h
    dsimp only at h
    rw [if_neg hfresh] at h
    obtain ⟨fields, -, hfinalize⟩ := Result.bind_eq_ok.mp (Result.mapErr_eq_ok.mp h)
    rw [Input.finalize_eq_ok hfinalize]

/-- The frame of finalizing, and the check that has passed. -/
theorem finalizes_of_finalize {self : Finalizer} {f : Psbt} (h : self.finalize = .ok f) :
    Psbt.Finalizes self.psbt f ∧ f.interpreterCheck = .ok ⟨⟩ := by
  obtain ⟨inputs, hinputs, hrest⟩ := Result.bind_eq_ok.mp h
  obtain ⟨_, hcheck, hok⟩ := Result.bind_eq_ok.mp hrest
  cases hok
  refine ⟨⟨rfl, ?_, rfl⟩, Result.mapErr_eq_ok.mp hcheck⟩
  have hrounds := (Result.mapM_eq_ok.mp hinputs).imp fun entry j => finalizes_of_finalizeRound
  rw [← List.zipIdx_map_fst 0 self.psbt.inputs, List.forall₂_map_left_iff]
  exact hrounds

/-- Finalized inputs are passed through, all of them. -/
theorem finalizeRounds_of_isFinalized {self : Finalizer} (h : self.psbt.isFinalized) :
    self.psbt.inputs.zipIdx.mapM self.finalizeRound = .ok self.psbt.inputs := by
  rw [Result.mapM_eq_ok]
  have hround : ∀ entry ∈ self.psbt.inputs.zipIdx,
      self.finalizeRound entry = .ok entry.1 := by
    rintro ⟨i, index⟩ hentry
    have hi : i ∈ self.psbt.inputs := (List.mem_zipIdx' hentry).2 ▸ List.getElem_mem _
    have hfinal : i.isFinalized := List.all_eq_true.mp h i hi
    exact if_pos hfinal
  have hzip : List.Forall₂ (fun entry j => self.finalizeRound entry = .ok j)
      self.psbt.inputs.zipIdx (self.psbt.inputs.zipIdx.map Prod.fst) := by
    rw [List.forall₂_map_right_iff, List.forall₂_same]
    exact hround
  rwa [List.zipIdx_map_fst] at hzip

/-- A Finalizer of a finalized PSBT that passes the interpreter returns it unchanged. -/
theorem finalize_of_isFinalized {self : Finalizer} (h : self.psbt.isFinalized)
    (hcheck : self.psbt.interpreterCheck = .ok ⟨⟩) : self.finalize = .ok self.psbt := by
  unfold finalize
  rw [finalizeRounds_of_isFinalized h, Result.ok_bind]
  exact Result.bind_eq_ok.mpr ⟨⟨⟩, Result.mapErr_eq_ok.mpr hcheck, rfl⟩

/-- An input that cannot be finalized makes finalizing fail. -/
theorem isErr_finalize {self : Finalizer} {i : Input} (hi : i ∈ self.psbt.inputs)
    (hfresh : ¬i.isFinalized) (herr : (self.finalizeInput i).IsErr) : self.finalize.IsErr := by
  rw [self.returns_finalize.isErr_iff]
  rintro ⟨f, hf⟩
  obtain ⟨inputs, hinputs, -⟩ := Result.bind_eq_ok.mp hf
  obtain ⟨index, hindex⟩ := List.getElem?_of_mem hi
  obtain ⟨j, -, hj⟩ := Result.exists_of_mem_left (Result.mapM_eq_ok.mp hinputs)
    (List.mk_mem_zipIdx_iff_getElem?.mpr hindex)
  unfold finalizeRound at hj
  dsimp only at hj
  rw [if_neg hfresh] at hj
  obtain ⟨e, he⟩ := herr
  rw [he] at hj
  cases hj

/-- What a Finalizer does with its PSBT. -/
structure FinalizesOnce (self : Finalizer) (p : Psbt) : Prop where
  /-- The Finalizer keeps the PSBT it was given, whatever `finalize` returns. -/
  psbt : self.psbt = p
  /-- The result is finalized in the frame of `Psbt.Finalizes`. -/
  finalizes : ∀ f, self.finalize = .ok f → Psbt.Finalizes p f
  /-- The result can be finalized again, with itself as the result. -/
  again : ∀ f, self.finalize = .ok f → ∃ again, new f = .ok again ∧ again.finalize = .ok f
  /-- An input that cannot be finalized makes `finalize` fail. -/
  inputFails : ∀ i ∈ p.inputs, ¬i.isFinalized → (self.finalizeInput i).IsErr →
    self.finalize.IsErr
  /-- So does an input that the interpreter rejects. -/
  interpreterFails : ∀ inputs, p.inputs.zipIdx.mapM self.finalizeRound = .ok inputs →
    ({ p with inputs := inputs } : Psbt).interpreterCheck.IsErr → self.finalize.IsErr

/-- Finalizing is idempotent and has an exact frame. -/
theorem finalize_idempotent {p : Psbt} {finalizer : Finalizer} (h : new p = .ok finalizer) :
    finalizer.FinalizesOnce p := by
  obtain rfl := new_eq_ok.mp h
  refine ⟨rfl, fun f hf => (finalizes_of_finalize hf).1, fun f hf => ?_,
    fun i hi => isErr_finalize hi, fun inputs hinputs herr => ?_⟩
  · obtain ⟨hfinalizes, hcheck⟩ := finalizes_of_finalize hf
    let again : Finalizer := ⟨f, check_of_finalizes hfinalizes finalizer.checked⟩
    exact ⟨again, new_eq_ok.mpr rfl,
      finalize_of_isFinalized hfinalizes.finalizedFrom.isFinalized hcheck⟩
  · unfold finalize
    rw [hinputs, Result.ok_bind]
    exact (Result.isErr_mapErr herr).bind

end Finalizer

end Generic

/-! ## Reference runs -/

namespace Finalizer

section

attribute [local instance] Reference.types Reference.txidHash Reference.signatureTypes
  Reference.keyHashes Reference.scriptHashes Reference.miniscript Reference.scriptInterpreter

theorem finalize_idempotent_wpkh :
    Reference.wpkhFinalizer.FinalizesOnce Reference.wpkhSigned ∧
      Reference.wpkhFinalizer.finalize = .ok Reference.wpkhFinalized :=
  ⟨finalize_idempotent (new_eq_ok.mpr rfl), Result.toOption_eq_some.mp (by decide +kernel)⟩

end

end Finalizer

end RustPsbt
