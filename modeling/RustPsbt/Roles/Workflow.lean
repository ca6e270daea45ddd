import RustPsbt.Reference.Miniscript
import RustPsbt.Roles.Extractor

/-!
# From signing to extraction

Signer, Finalizer and Extractor build the transaction anew from the fields of the
PSBT.  Each keeps the fields the transaction is made of.

Main results:

- Theorem `Psbt.extracted_eq_signed`: the transaction that is extracted is the one
  that was signed.
-/

namespace RustPsbt

section Generic

variable [BitcoinTypes]

/-- Signing changes no transaction field. -/
theorem Input.SameButSigs.txFields_eq {i j : Input} (h : SameButSigs i j) :
    j.txFields = i.txFields := by
  rw [h]
  rfl

namespace Psbt

/-- Signing keeps the transaction. -/
theorem SameButSigs.sameTx {p q : Psbt} (h : SameButSigs p q) : SameTx p q where
  txVersion := by rw [h.global]
  fallbackLockTime := by rw [h.global]
  inputs := h.map_inputs fun _ _ => Input.SameButSigs.txFields_eq
  outputs := h.outputs

/-- Finalizing keeps the transaction. -/
theorem FinalizedFrom.sameTx {p q : Psbt} (h : FinalizedFrom p q) : SameTx p q where
  txVersion := by rw [h.global]
  fallbackLockTime := by rw [h.global]
  inputs := by
    have hinputs : List.Forall₂ Input.FinalizedFrom p.inputs q.inputs := h.inputs
    generalize p.inputs = l at hinputs ⊢
    generalize q.inputs = m at hinputs ⊢
    induction hinputs with
    | nil => rfl
    | cons hij _ ih => rw [List.map_cons, List.map_cons, hij.txFields_eq, ih]
  outputs := h.outputs

/-- A finalized copy of a PSBT is finalized. -/
theorem FinalizedFrom.isFinalized {p q : Psbt} (h : FinalizedFrom p q) : q.isFinalized := by
  refine List.all_eq_true.mpr fun j hj => ?_
  obtain ⟨i, -, hij⟩ := Result.exists_of_mem_right h.inputs hj
  exact hij.isFinalized

variable [TxidHash]

/-- What an extractor makes of a finalized PSBT if `cache` was signed. -/
structure Extracts [Weights] (f : Psbt) (cache : Transaction) (extractor : Extractor)
    (tx : Transaction) : Prop where
  new : Extractor.new f = .ok extractor
  unchecked : extractor.extractTxUncheckedFeeRate = .ok tx
  /-- A fee limit, also the default one, gives this transaction or none. -/
  limited : ∀ maxFeeRate tx', extractor.extractTxWithFeeRateLimit maxFeeRate = .ok tx' →
    tx' = tx
  default : ∀ tx', extractor.extractTx = .ok tx' → tx' = tx
  erase : tx.erase = cache

/-- A PSBT, its signed and its finalized copy belong to one transaction. -/
structure OneTransaction [Weights] (p q f : Psbt) (cache : Transaction) : Prop where
  unsignedTx : p.unsignedTx = .ok cache ∧ q.unsignedTx = .ok cache ∧ f.unsignedTx = .ok cache
  id : ∃ txid, p.id = .ok txid ∧ q.id = .ok txid ∧ f.id = .ok txid
  isFinalized : ∀ i ∈ f.inputs, i.isFinalized
  extracts : (∀ o ∈ f.outputs, ¬(o.spV0Info.isSome ∧ o.scriptPubkey = [])) →
    ∃ extractor tx, Extracts f cache extractor tx

variable [SignatureTypes] [KeyHashes] [ScriptHashes] [Miniscript] [ScriptInterpreter] [Weights]

/-- The transaction that is extracted from the signed and finalized PSBT is the one
the signatures commit to. -/
theorem extracted_eq_signed {p q f : Psbt} {signer : Signer} {sigs : List InputSigs}
    {finalizer : Finalizer} (hsigner : Signer.new p = .ok signer)
    (happly : signer.apply sigs = .ok q) (hfinalizer : Finalizer.new q = .ok finalizer)
    (hfinalize : finalizer.finalize = .ok f) : OneTransaction p q f signer.cache := by
  have hp : signer.psbt = p := Signer.new_eq_ok.mp hsigner
  have hq : finalizer.psbt = q := Finalizer.new_eq_ok.mp hfinalizer
  have hcache : p.unsignedTx = .ok signer.cache := hp ▸ signer.unsignedTx_eq
  have hpq : SameTx p q := hp ▸ (Signer.apply_spec happly).sameTx
  have hfinal : FinalizedFrom q f := hq ▸ Finalizer.finalize_spec hfinalize
  have hpf : SameTx p f := hpq.trans hfinal.sameTx
  have hf : f.unsignedTx = .ok signer.cache := hpf.unsignedTx_eq.trans hcache
  refine ⟨⟨hcache, hpq.unsignedTx_eq.trans hcache, hf⟩, ?_, ?_, ?_⟩
  · obtain ⟨txid, htxid⟩ : ∃ txid, p.id = .ok txid := by
      simp [Psbt.id, idTx, hcache]
    exact ⟨txid, htxid, hpq.id_eq.trans htxid, hpf.id_eq.trans htxid⟩
  · exact List.all_eq_true.mp hfinal.isFinalized
  · intro hcomputed
    obtain ⟨l, hl, -⟩ := unsignedTx_eq_ok.mp hf
    have hnew : Extractor.new f = .ok ⟨f⟩ := by
      refine Extractor.new_eq_ok.mpr ⟨rfl, hfinal.isFinalized, ⟨l, hl⟩, fun o ho => ?_⟩
      simpa [Output.uncomputed] using hcomputed o ho
    obtain ⟨tx, htx, herase⟩ := Extractor.extractTxUncheckedFeeRate_spec hnew hf
    refine ⟨⟨f⟩, tx, hnew, htx, ?_, ?_, herase⟩
    · intro maxFeeRate tx' htx'
      have hlimited := Extractor.internalExtractTxWithFeeRateLimit_spec htx'
      exact Except.ok.inj (hlimited.symm.trans htx)
    · intro tx' htx'
      have hdefault := Extractor.internalExtractTxWithFeeRateLimit_spec htx'
      exact Except.ok.inj (hdefault.symm.trans htx)

end Psbt

end Generic

namespace Psbt

section

attribute [local instance] Reference.types Reference.txidHash Reference.signatureTypes
  Reference.keyHashes Reference.scriptHashes Reference.miniscript Reference.scriptInterpreter
  Reference.weights

open Reference

theorem extracted_eq_signed_wpkh :
    OneTransaction wpkhUnsigned wpkhSigned wpkhFinalized wpkhSigner.cache := by
  have happly : wpkhSigner.apply [inputSigs] = .ok wpkhSigned := rfl
  have hfinalize : wpkhFinalizer.finalize = .ok wpkhFinalized :=
    Result.toOption_eq_some.mp (by decide +kernel)
  exact extracted_eq_signed (Signer.new_eq_ok.mpr rfl) happly (Finalizer.new_eq_ok.mpr rfl)
    hfinalize

end

end Psbt

end RustPsbt
