import RustPsbt.Combine.Spec
import RustPsbt.Roles.Refinalize
import RustPsbt.Roles.Updater
import RustPsbt.Serialization.V0
import RustPsbt.Serialization.V2

/-!
# The PSBTs that the roles reach

PSBTs are created, decoded, constructed, updated, signed, combined and finalized, in any
order and any number of times.  The global map counts the inputs and the outputs next to
the lists of them.

Main results:

- Theorem `Psbt.Reachable.countsMatch`: the counts of a PSBT that the roles reach are the
  lengths of its lists.
-/

namespace RustPsbt

section Generic

variable [BitcoinTypes] [BitcoinCodecs] [TxidHash] [SignatureTypes] [KeyHashes] [ScriptHashes]
  [Miniscript] [ScriptInterpreter]

namespace Psbt

/-- The PSBTs that runs of the roles reach; a role may hold any PSBT that is reached. -/
inductive Reachable : Psbt → Prop where
  | creator {c : Creator} (hc : c.Built) : Reachable c.psbt
  | constructorModifiable {c : Creator} (hc : c.Built) :
      Reachable c.constructorModifiable.psbt
  | constructorInputsOnlyModifiable {c : Creator} (hc : c.Built) :
      Reachable c.constructorInputsOnlyModifiable.psbt
  | constructorOutputsOnlyModifiable {c : Creator} (hc : c.Built) :
      Reachable c.constructorOutputsOnlyModifiable.psbt
  | constructor {s s' : Stage} {op : ConstructorOp} (h : Reachable s.psbt)
      (hstep : s.step op = some s') : Reachable s'.psbt
  | updater {T : Mod} {c : Constructor T} {u : Updater} (h : Reachable c.psbt)
      (hu : c.updater = .ok u) : Reachable u.psbt
  | update {u : Updater} (h : Reachable u.psbt) (f : Update) : Reachable (u.update f).psbt
  | apply {s : Signer} {sigs : List InputSigs} {q : Psbt} (h : Reachable s.psbt)
      (hq : s.apply sigs = .ok q) : Reachable q
  | combineWith {p q c : Psbt} (hp : Reachable p) (hq : Reachable q)
      (hc : p.combineWith q = .ok c) : Reachable c
  | finalize {f : Finalizer} {q : Psbt} (h : Reachable f.psbt) (hq : f.finalize = .ok q) :
      Reachable q
  | deserialize {b : Bytes} {p : Psbt} (hp : deserialize b = .ok p) : Reachable p
  | deserializeV0 {b : Bytes} {v0 : PsbtV0} (hv : PsbtV0.deserialize b = .ok v0) :
      Reachable v0.intoPsbt

/-- The counts are the lengths of the lists. -/
structure CountsMatch (p : Psbt) : Prop where
  inputs : p.global.inputCount = p.inputs.length
  outputs : p.global.outputCount = p.outputs.length

omit [BitcoinCodecs] [TxidHash] [SignatureTypes] [KeyHashes] [ScriptHashes] [Miniscript]
  [ScriptInterpreter] in
/-- A change that keeps the counts and the lengths keeps the agreement. -/
theorem CountsMatch.of_eq {p q : Psbt} (h : p.CountsMatch)
    (hin : q.global.inputCount = p.global.inputCount)
    (hout : q.global.outputCount = p.global.outputCount)
    (hinputs : q.inputs.length = p.inputs.length)
    (houtputs : q.outputs.length = p.outputs.length) : q.CountsMatch where
  inputs := by rw [hin, hinputs, h.inputs]
  outputs := by rw [hout, houtputs, h.outputs]

omit [BitcoinCodecs] [TxidHash] [SignatureTypes] [KeyHashes] [ScriptHashes] [Miniscript]
  [ScriptInterpreter] in
/-- A Creator counts nothing and has nothing. -/
theorem CountsMatch.of_built {c : Creator} (h : c.Built) : c.psbt.CountsMatch := by
  induction h with
  | new => exact ⟨rfl, rfl⟩
  | fallbackLockTime _ _ ih => exact ih.of_eq rfl rfl rfl rfl
  | sighashSingle _ ih => exact ih.of_eq rfl rfl rfl rfl
  | inputsModifiable _ ih => exact ih.of_eq rfl rfl rfl rfl
  | outputsModifiable _ ih => exact ih.of_eq rfl rfl rfl rfl
  | transactionVersion _ _ ih => exact ih.of_eq rfl rfl rfl rfl

omit [BitcoinCodecs] [TxidHash] [SignatureTypes] [KeyHashes] [ScriptHashes] [Miniscript]
  [ScriptInterpreter] in
/-- A Constructor counts what it appends. -/
theorem CountsMatch.step {s s' : Stage} {op : ConstructorOp} (h : s.psbt.CountsMatch)
    (hstep : s.step op = some s') : s'.psbt.CountsMatch := by
  have hpsbt := Stage.psbt_step hstep
  cases op with
  | input i =>
      rw [hpsbt]
      exact ⟨by simp [h.inputs], h.outputs⟩
  | output o =>
      rw [hpsbt]
      exact ⟨h.inputs, by simp [h.outputs]⟩
  | noMoreInputs =>
      rw [hpsbt]
      exact h.of_eq rfl rfl rfl rfl
  | noMoreOutputs =>
      rw [hpsbt]
      exact h.of_eq rfl rfl rfl rfl
  | psbt =>
      rw [hpsbt]
      exact h
  | new T =>
      rw [hpsbt]
      exact h

omit [BitcoinCodecs] [TxidHash] [SignatureTypes] [KeyHashes] [ScriptHashes] [Miniscript]
  [ScriptInterpreter] in
/-- The Updater that follows a Constructor has the PSBT with cleared flags. -/
theorem CountsMatch.updater {T : Mod} {c : Constructor T} {u : Updater}
    (h : c.psbt.CountsMatch) (hu : c.updater = .ok u) : u.psbt.CountsMatch := by
  obtain ⟨p, hp, heq⟩ := Result.bind_eq_ok.mp hu
  obtain ⟨-, rfl⟩ := Constructor.release_eq_ok.mp hp
  obtain rfl := Except.ok.inj heq
  exact h.of_eq rfl rfl rfl rfl

omit [BitcoinCodecs] [TxidHash] [SignatureTypes] [KeyHashes] [ScriptHashes] [Miniscript]
  [ScriptInterpreter] in
/-- A combination has the counts and the lengths of the first PSBT, whatever the lengths of the
second are. -/
theorem CountsMatch.combineWith {p q c : Psbt} (h : p.CountsMatch)
    (hc : p.combineWith q = .ok c) : c.CountsMatch := by
  obtain ⟨xpubs, -, -, -, -, -, rfl⟩ := combineWith_eq_ok.mp hc
  exact h.of_eq rfl rfl (length_zipMerge _ _ _) (length_zipMerge _ _ _)

/-- The counts of a PSBT that the roles reach are the lengths of its lists. -/
theorem Reachable.countsMatch [LawfulCodecs] {p : Psbt} (h : Reachable p) : p.CountsMatch := by
  induction h with
  | creator hc => exact .of_built hc
  | constructorModifiable hc => exact (CountsMatch.of_built hc).of_eq rfl rfl rfl rfl
  | constructorInputsOnlyModifiable hc => exact (CountsMatch.of_built hc).of_eq rfl rfl rfl rfl
  | constructorOutputsOnlyModifiable hc => exact (CountsMatch.of_built hc).of_eq rfl rfl rfl rfl
  | constructor _ hstep ih => exact ih.step hstep
  | updater _ hu ih => exact ih.updater hu
  | @update u _ f ih =>
      have hshape := u.sameShape_update f
      exact ih.of_eq hshape.inputCount hshape.outputCount hshape.inputs_length
        hshape.outputs_length
  | apply _ hq ih =>
      have hsame := Signer.apply_spec hq
      refine ih.of_eq ?_ ?_ hsame.inputs.length_eq.symm (congrArg List.length hsame.outputs)
      · rw [hsame.global]
      · rw [hsame.global]
  | combineWith _ _ hc ih _ => exact ih.combineWith hc
  | finalize _ hq ih =>
      have hfrom := Finalizer.finalize_spec hq
      exact ih.of_eq (congrArg Global.inputCount hfrom.global)
        (congrArg Global.outputCount hfrom.global) hfrom.inputs.length_eq.symm
        (congrArg List.length hfrom.outputs)
  | deserialize hp =>
      obtain ⟨hwf, -⟩ := wellFormed_of_deserialize hp
      obtain ⟨-, -, -, hin, hout⟩ := wellFormed_iff.mp hwf
      exact ⟨hin, hout⟩
  | deserializeV0 hv =>
      obtain ⟨hin, hout⟩ := PsbtV0.counts_of_deserialize hv
      exact ⟨hin, hout⟩

end Psbt

end Generic

/-! ## Reference run -/

namespace Psbt

section

attribute [local instance] Reference.types Reference.codecs Reference.lawfulCodecs
  Reference.txidHash Reference.signatureTypes Reference.keyHashes Reference.scriptHashes
  Reference.miniscript Reference.scriptInterpreter

theorem countsMatch_signed : Reference.signed.CountsMatch :=
  Reachable.countsMatch (.deserialize deserialize_signed)

end

end Psbt

end RustPsbt
