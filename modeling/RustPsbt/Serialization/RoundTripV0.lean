import RustPsbt.Serialization.V0
import RustPsbt.Serialization.V2

/-!
# Round trip through version 0

Version 0 carries less than version 2: a PSBT that is written and read in version 0 comes
back demoted.  The map encoders and decoders of version 0 lose more than that.

Main results:

- Theorem `PsbtV0.decodes_serialize`: what is read back from a PSBT without preimages and
  proprietary fields in its inputs and outputs.
- Theorem `PsbtV0.demotes_iff`: which PSBTs come back as version 0 carries them.
-/

namespace RustPsbt

section Generic

variable [BitcoinTypes] [BitcoinCodecs]

/-- What version 0 carries of an input: its sequence is set and its lock time requirements
are dropped. -/
def Input.demote (self : Input) : Input :=
  { self with
    sequence := some (self.sequence.getD .max)
    minTime := none
    minHeight := none }

/-- What version 0 carries of a PSBT with the lock time of its unsigned transaction. -/
def Psbt.demote (self : Psbt) (lockTime : LockTime) : Psbt where
  global :=
    { self.global with
      fallbackLockTime := if lockTime ≠ .zero then some lockTime else none
      txModifiableFlags := .new }
  inputs := self.inputs.map Input.demote
  outputs := self.outputs

namespace PsbtV0

/-- What a round trip takes for granted: the counts, paired silent payment fields, unknown
keys of types that version 0 does not know, and lengths inside the limits. -/
structure WellFormed (v0 : PsbtV0) : Prop where
  inputCount : v0.psbt.global.inputCount = v0.psbt.inputs.length
  outputCount : v0.psbt.global.outputCount = v0.psbt.outputs.length
  globalPaired : v0.psbt.global.spEcdhShares.isEmpty = v0.psbt.global.spDleqProofs.isEmpty
  inputsPaired : ∀ i ∈ v0.psbt.inputs, i.spEcdhShares.isEmpty = i.spDleqProofs.isEmpty
  globalKeys : GlobalV0.UnknownKeys v0.psbt.global.unknowns
  inputKeys : ∀ i ∈ v0.psbt.inputs, (InputV0.ofInput i).UnknownKeys
  outputKeys : ∀ o ∈ v0.psbt.outputs, (OutputV0.ofOutput o).UnknownKeys
  globalFits : GlobalV0.Fits (GlobalV0.fields v0)
  inputFits : ∀ i ∈ v0.psbt.inputs, (InputV0.ofInput i).Fits
  outputFits : ∀ o ∈ v0.psbt.outputs, (OutputV0.ofOutput o).Fits

/-- The maps of version 0 carry the whole PSBT: it is of version 2, no input has a preimage
or a proprietary field, and no output has a redeem script or a proprietary field. -/
structure Carried (v0 : PsbtV0) : Prop where
  version : v0.psbt.global.version = .two
  inputs : ∀ i ∈ v0.psbt.inputs, (InputV0.ofInput i).Unguarded
  outputs : ∀ o ∈ v0.psbt.outputs, o.proprietaries.isEmpty ∧ o.redeemScript = none

/-! ## Reading back -/

/-- An output without its redeem script. -/
def withoutRedeemScript (o : Output) : Output :=
  { o with redeemScript := none }

/-- What is read back: version 2, and no redeem scripts. -/
def readBack (v0 : PsbtV0) : Psbt where
  global := { (v0.psbt.demote v0.lockTime).global with version := .two }
  inputs := (v0.psbt.demote v0.lockTime).inputs
  outputs := v0.psbt.outputs.map withoutRedeemScript

/-- What the decoder of the global map makes of a PSBT. -/
def writtenInfo (v0 : PsbtV0) : V0GlobalInfo :=
  ((GlobalV0.fields v0).intoGlobal (GlobalV0.unsignedTx v0), (GlobalV0.unsignedTx v0).inputs,
    (GlobalV0.unsignedTx v0).outputs)

omit [BitcoinCodecs] in
theorem takeInputs_written (v0 : PsbtV0) :
    takeInputs (writtenInfo v0) (v0.psbt.inputs.map InputV0.ofInput) =
      v0.psbt.inputs.map Input.demote := by
  rw [takeInputs]
  change List.zipWith _ _ (v0.psbt.inputs.map _) = _
  rw [List.zipWith_map, List.zipWith_self]
  rfl

omit [BitcoinCodecs] in
theorem takeOutputs_written (v0 : PsbtV0) :
    takeOutputs (writtenInfo v0)
        ((v0.psbt.outputs.map withoutRedeemScript).map OutputV0.ofOutput) =
      v0.psbt.outputs.map withoutRedeemScript := by
  rw [takeOutputs, List.map_map]
  change List.zipWith _ _ (v0.psbt.outputs.map _) = _
  rw [List.zipWith_map, List.zipWith_self]
  rfl

theorem readBack_eq {v0 : PsbtV0} (h : v0.WellFormed) : readBack v0 =
    ⟨(writtenInfo v0).1, takeInputs (writtenInfo v0) (v0.psbt.inputs.map InputV0.ofInput),
      takeOutputs (writtenInfo v0)
        ((v0.psbt.outputs.map withoutRedeemScript).map OutputV0.ofOutput)⟩ := by
  rw [takeInputs_written, takeOutputs_written]
  simp only [readBack, Psbt.demote, writtenInfo, GlobalV0.Fields.intoGlobal, GlobalV0.fields,
    GlobalV0.unsignedTx, List.length_map, h.inputCount, h.outputCount]
  rfl

section

variable [LawfulCodecs]

/-- Without its redeem script an output is written as with it, and read back. -/
theorem decodes_encode_output {o : Output} (hproprietary : o.proprietaries.isEmpty)
    (hkeys : (OutputV0.ofOutput o).UnknownKeys) (hfits : (OutputV0.ofOutput o).Fits) :
    OutputV0.decoder.Decodes (OutputV0.encode o) (OutputV0.ofOutput (withoutRedeemScript o)) := by
  rw [← OutputV0.encode_withoutRedeemScript]
  refine OutputV0.decodes_encode rfl (OutputV0.admits_iff.mpr ⟨hproprietary, hkeys, ?_⟩)
  rintro ⟨c, k, v⟩ he
  have hlookup := Output.lawful_table.mem_entries.mp he
  apply hfits
  apply Output.lawful_table.mem_entries.mpr
  cases c with
  | redeemScript => cases hlookup
  | _ => exact hlookup

/-- What is read back from a PSBT without preimages and proprietary fields in its inputs and
outputs. -/
theorem decodes_serialize {v0 : PsbtV0} (h : v0.WellFormed)
    (hinputs : ∀ i ∈ v0.psbt.inputs, (InputV0.ofInput i).Unguarded)
    (houtputs : ∀ o ∈ v0.psbt.outputs, o.proprietaries.isEmpty) :
    decoder.Decodes v0.serialize (ofDecoded (readBack v0)) := by
  apply decodes_iff.mpr
  refine ⟨writtenInfo v0, v0.psbt.inputs.map InputV0.ofInput,
    (v0.psbt.outputs.map withoutRedeemScript).map OutputV0.ofOutput, GlobalV0.encode v0,
    v0.psbt.inputs.map InputV0.encode, v0.psbt.outputs.map OutputV0.encode, ?_, ?_, ⟨?_, ?_⟩,
    ⟨?_, ?_⟩, congrArg ofDecoded (readBack_eq h)⟩
  · rw [serialize, List.flatMap_def, List.flatMap_def]
  · exact GlobalV0.decodes_encode h.globalPaired
      (GlobalV0.admits_iff.mpr ⟨h.globalKeys, h.globalFits⟩)
  · simp [writtenInfo, GlobalV0.unsignedTx]
  · rw [List.forall₂_map_left_iff, List.forall₂_map_right_iff, List.forall₂_same]
    intro i hi
    apply InputV0.decodes_encode
    exact InputV0.admits_iff.mpr ⟨hinputs i hi, h.inputKeys i hi, h.inputFits i hi⟩
  · simp [writtenInfo, GlobalV0.unsignedTx]
  · rw [List.forall₂_map_left_iff, List.map_map, List.forall₂_map_right_iff, List.forall₂_same]
    exact fun o ho => decodes_encode_output (houtputs o ho) (h.outputKeys o ho) (h.outputFits o ho)

/-! ## What comes back -/

omit [BitcoinCodecs] [LawfulCodecs] in
/-- Each of the demoted inputs comes from a map that carries all of version 0. -/
theorem mem_inputs_of_takeInputs {info : V0GlobalInfo} {is : List InputV0} {inputs : List Input}
    (heq : takeInputs info is = inputs.map Input.demote) {i : Input} (hi : i ∈ inputs) :
    InputV0.ofInput i ∈ is := by
  have hmem : i.demote ∈ takeInputs info is := heq ▸ List.mem_map_of_mem hi
  rw [takeInputs, ← List.map_uncurry_zip_eq_zipWith] at hmem
  rcases List.mem_map.mp hmem with ⟨⟨v, t⟩, hzip, hdemote⟩
  have hsame : InputV0.ofInput i = v := congrArg InputV0.ofInput hdemote.symm
  rw [hsame]
  exact (List.of_mem_zip hzip).1

omit [BitcoinCodecs] [LawfulCodecs] in
theorem mem_outputs_of_takeOutputs {info : V0GlobalInfo} {os : List OutputV0}
    {outputs : List Output} (heq : takeOutputs info os = outputs) {o : Output}
    (ho : o ∈ outputs) : OutputV0.ofOutput o ∈ os := by
  have hmem : o ∈ takeOutputs info os := heq ▸ ho
  rw [takeOutputs, ← List.map_uncurry_zip_eq_zipWith] at hmem
  rcases List.mem_map.mp hmem with ⟨⟨v, t⟩, hzip, hout⟩
  have hsame : OutputV0.ofOutput o = v := congrArg OutputV0.ofOutput hout.symm
  rw [hsame]
  exact (List.of_mem_zip hzip).1

/-- A PSBT comes back as version 0 carries it exactly when its maps are carried. -/
theorem demotes_iff {p : Psbt} {v0 : PsbtV0} (hfrom : fromPsbt p = .ok v0)
    (h : v0.WellFormed) :
    (∃ back, deserialize v0.serialize = .ok back ∧ back.intoPsbt = p.demote v0.lockTime) ↔
      v0.Carried := by
  have hp : v0.psbt = p := by
    rcases Result.bind_eq_ok.mp hfrom with ⟨lockTime, _, heq⟩
    cases heq
    rfl
  subst hp
  simp only [deserialize, lawful_format.deserialize_eq_ok]
  constructor
  · rintro ⟨back, hdec, hback⟩
    rcases decodes_iff.mp hdec with
      ⟨info, is, os, wg, wi, wo, _, hg, ⟨_, hallIn⟩, ⟨_, hallOut⟩, rfl⟩
    have hinputs : takeInputs info is = v0.psbt.inputs.map Input.demote :=
      congrArg Psbt.inputs hback
    have houtputs : takeOutputs info os = v0.psbt.outputs := congrArg Psbt.outputs hback
    have hunguarded : ∀ i ∈ v0.psbt.inputs, (InputV0.ofInput i).Unguarded := by
      intro i hi
      rcases Result.exists_of_mem_right hallIn (mem_inputs_of_takeInputs hinputs hi) with
        ⟨w, _, hw⟩
      exact (InputV0.admits_iff.mp (InputV0.admits_of_accepts hw)).1
    have hproprietary : ∀ o ∈ v0.psbt.outputs, o.proprietaries.isEmpty := by
      intro o ho
      rcases Result.exists_of_mem_right hallOut (mem_outputs_of_takeOutputs houtputs ho) with
        ⟨w, _, hw⟩
      exact (OutputV0.admits_iff.mp (OutputV0.admits_of_accepts hw)).1
    -- there is one thing that the bytes decode into
    have hread := decodes_serialize h hunguarded hproprietary
    have hpsbt : readBack v0 = v0.psbt.demote v0.lockTime := by
      have hsame := hread.symm.trans hdec
      rw [← hback, ← (Prod.mk.inj (Except.ok.inj hsame)).1]
      rfl
    refine ⟨?_, hunguarded, fun o ho => ⟨hproprietary o ho, ?_⟩⟩
    · exact (congrArg (fun back : Psbt => back.global.version) hpsbt).symm
    · have hmap : v0.psbt.outputs.map withoutRedeemScript = v0.psbt.outputs :=
        congrArg Psbt.outputs hpsbt
      have hid : v0.psbt.outputs.map withoutRedeemScript = v0.psbt.outputs.map id :=
        hmap.trans (List.map_id _).symm
      exact (congrArg Output.redeemScript (List.map_inj_left.mp hid o ho)).symm
  · intro hcarried
    have hread := decodes_serialize h hcarried.inputs fun o ho => (hcarried.outputs o ho).1
    refine ⟨_, hread, ?_⟩
    have houtputs : v0.psbt.outputs.map withoutRedeemScript = v0.psbt.outputs := by
      refine (List.map_congr_left fun o ho => ?_).trans (List.map_id _)
      rw [withoutRedeemScript, ← (hcarried.outputs o ho).2]
      rfl
    change readBack v0 = _
    rw [readBack, houtputs, Psbt.demote, ← hcarried.version]

end

end PsbtV0

end Generic

/-! ## Reference round trips -/

namespace PsbtV0

section

attribute [local instance] Reference.types Reference.codecs Reference.lawfulCodecs
  Reference.txidHash

/-- What version 0 makes of a PSBT without lock time requirements. -/
def Reference.unlocked (p : Psbt) : PsbtV0 where
  psbt := p
  lockTime := .zero

/-- A PSBT without unknown fields is well-formed when the rest is. -/
theorem wellFormed_unlocked {p : Psbt}
    (hcounts : p.global.inputCount = p.inputs.length ∧ p.global.outputCount = p.outputs.length)
    (hglobal : p.global.spEcdhShares.isEmpty = p.global.spDleqProofs.isEmpty ∧
      p.global.unknowns.isEmpty)
    (hinputs : ∀ i ∈ p.inputs, i.spEcdhShares.isEmpty = i.spDleqProofs.isEmpty ∧
      i.unknowns.isEmpty)
    (houtputs : ∀ o ∈ p.outputs, o.unknowns.isEmpty)
    (hfits : GlobalV0.Fits (GlobalV0.fields (Reference.unlocked p)) ∧
      (∀ i ∈ p.inputs, (InputV0.ofInput i).Fits) ∧
        ∀ o ∈ p.outputs, (OutputV0.ofOutput o).Fits) :
    (Reference.unlocked p).WellFormed where
  inputCount := hcounts.1
  outputCount := hcounts.2
  globalPaired := hglobal.1
  inputsPaired i hi := (hinputs i hi).1
  globalKeys key hkey := absurd hkey (BTreeMap.not_mem_of_isEmpty hglobal.2 key)
  inputKeys i hi key hkey := absurd hkey (BTreeMap.not_mem_of_isEmpty (hinputs i hi).2 key)
  outputKeys o ho key hkey := absurd hkey (BTreeMap.not_mem_of_isEmpty (houtputs o ho) key)
  globalFits := hfits.1
  inputFits := hfits.2.1
  outputFits := hfits.2.2

theorem demotes_signed :
    (∃ back, deserialize (Reference.unlocked Reference.signed).serialize = .ok back ∧
      back.intoPsbt = Reference.signed.demote .zero) ↔
        (Reference.unlocked Reference.signed).Carried := by
  apply demotes_iff rfl
  apply wellFormed_unlocked (by decide +kernel) (by decide +kernel) (by decide +kernel)
    (by decide +kernel)
  unfold GlobalV0.Fits InputV0.Fits OutputV0.Fits InLimit
  decide +kernel

/-- A PSBT whose output has a redeem script. -/
def Reference.redeemable : Psbt :=
  Reference.psbt [Reference.input 0] [{ Reference.output [0x51] with redeemScript := some [0x51] }]

/-- A PSBT whose input has a preimage. -/
def Reference.revealing : Psbt :=
  Reference.psbt
    [{ Reference.input 0 with
        sha256Preimages := ({} : BTreeMap _ _).insert (.zero 32) [0x01] }]
    [Reference.output [0x51]]

/-- The redeem script of the output is lost, and the preimage is not read back. -/
theorem not_demotes_redeemable :
    ((Reference.unlocked Reference.redeemable).WellFormed ∧
      fromPsbt Reference.redeemable = .ok (Reference.unlocked Reference.redeemable) ∧
        ¬∃ back, deserialize (Reference.unlocked Reference.redeemable).serialize = .ok back ∧
          back.intoPsbt = Reference.redeemable.demote .zero) ∧
      (Reference.unlocked Reference.revealing).WellFormed ∧
        fromPsbt Reference.revealing = .ok (Reference.unlocked Reference.revealing) ∧
          ¬∃ back, deserialize (Reference.unlocked Reference.revealing).serialize = .ok back := by
  refine ⟨⟨?_, rfl, ?_⟩, ?_, rfl, ?_⟩
  · apply wellFormed_unlocked (by decide +kernel) (by decide +kernel) (by decide +kernel)
      (by decide +kernel)
    unfold GlobalV0.Fits InputV0.Fits OutputV0.Fits InLimit
    decide +kernel
  · rintro ⟨back, hdec, hback⟩
    have hread : (deserialize (Reference.unlocked Reference.redeemable).serialize).toOption.map
        PsbtV0.intoPsbt ≠ some (Reference.redeemable.demote .zero) := by decide +kernel
    rw [hdec, ← hback] at hread
    exact hread rfl
  · apply wellFormed_unlocked (by decide +kernel) (by decide +kernel) (by decide +kernel)
      (by decide +kernel)
    unfold GlobalV0.Fits InputV0.Fits OutputV0.Fits InLimit
    decide +kernel
  · rintro ⟨back, hdec⟩
    have hnone : (deserialize (Reference.unlocked Reference.revealing).serialize).toOption.isNone :=
      by decide +kernel
    rw [hdec] at hnone
    cases hnone

end

end PsbtV0

end RustPsbt
