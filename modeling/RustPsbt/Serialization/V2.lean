import RustPsbt.Reference.Codecs
import RustPsbt.Reference.Psbt
import RustPsbt.Serialization.Format

/-!
# PSBTs of version 2

The decoder and the encoder of a version 2 PSBT.

Main results:

- Theorem `Psbt.deserialize_serialize_of_fits`: a well-formed PSBT inside the limits of the
  decoder is decoded from its serialization.
- Theorem `Psbt.wellFormed_of_deserialize`: every decoded PSBT is well-formed.
- Theorem `Psbt.deserialize_roundTrips`: decoded PSBTs are the ones that round trip.
-/

namespace RustPsbt

section Generic

variable [BitcoinTypes] [BitcoinCodecs] [TxidHash]

namespace Psbt

/-- The parts of `PsbtV2Decoder`. -/
def format : PsbtFormat Global Input Output Psbt where
  globalDecoder := Global.decoder
  inputDecoder := Input.decoder
  outputDecoder := Output.decoder
  inputCount global := global.inputCount
  outputCount global := global.outputCount
  skipsEmpty := false
  global global := global
  takeInputs _ inputs := inputs
  takeOutputs _ outputs := outputs
  atEnd psbt := psbt

/-- `PsbtV2Decoder`. -/
def decoder : PushDecoder UInt8 DeserializeError Psbt :=
  format.decoder

/-- `Psbt::deserialize`. -/
def deserialize (b : Bytes) : Result DeserializeError Psbt :=
  format.deserialize b

/-- `Psbt::serialize`: the bytes of `PsbtV2Encoder`. -/
def serialize (self : Psbt) : Bytes :=
  psbtMagicBytes ++ (self.global.encode ++
    (self.inputs.flatMap Input.encode ++ self.outputs.flatMap Output.encode))

/-! ## Well-formed PSBTs -/

/-- What the decoder of version 2 requires of a PSBT. -/
structure WellFormed (p : Psbt) : Prop where
  consistent : p.Consistent
  globalKeys : p.global.UnknownKeys
  inputKeys : ∀ i ∈ p.inputs, i.UnknownKeys
  outputKeys : ∀ o ∈ p.outputs, o.UnknownKeys

/-- All keys, values and counts are inside the limits of the decoder. -/
structure Fits (p : Psbt) : Prop where
  global : p.global.Fits
  inputs : ∀ i ∈ p.inputs, i.Fits
  outputs : ∀ o ∈ p.outputs, o.Fits

/-- The maps of a well-formed PSBT are well-formed, and as many as it counts. -/
theorem wellFormed_iff {p : Psbt} : p.WellFormed ↔ p.global.WellFormed ∧
    (∀ i ∈ p.inputs, i.WellFormed) ∧ (∀ o ∈ p.outputs, o.WellFormed) ∧
      p.global.inputCount = p.inputs.length ∧ p.global.outputCount = p.outputs.length := by
  constructor
  · rintro ⟨⟨hversion, hin, hout, hutxo, hglobalSp, hinputSp, hvalid⟩, hglobal, hinput, houtput⟩
    refine ⟨⟨hversion, hglobalSp, hglobal⟩, ?_, ?_, hin, hout⟩
    · exact fun i hi => ⟨hutxo i hi, hinputSp i hi, hinput i hi⟩
    · exact fun o ho => ⟨hvalid o ho, houtput o ho⟩
  · rintro ⟨hglobal, hinputs, houtputs, hin, hout⟩
    refine ⟨⟨hglobal.version, hin, hout, ?_, hglobal.spPaired, ?_, ?_⟩, hglobal.unknownKeys,
      fun i hi => (hinputs i hi).unknownKeys, fun o ho => (houtputs o ho).unknownKeys⟩
    · exact fun i hi => (hinputs i hi).nonWitnessUtxo
    · exact fun i hi => (hinputs i hi).spPaired
    · exact fun o ho => (houtputs o ho).valid

/-! ## Round trip -/

section

variable [LawfulCodecs]

theorem lawful_format : format.Lawful where
  global_lawful := Global.lawful_codec.lawful_mapDecoder
  global_strict := MapCodec.Lawful.strict_mapDecoder Global.codec
  input_lawful := Input.lawful_codec.lawful_mapDecoder
  input_strict := MapCodec.Lawful.strict_mapDecoder Input.codec
  output_lawful := Output.lawful_codec.lawful_mapDecoder
  output_strict := MapCodec.Lawful.strict_mapDecoder Output.codec
  takeInputs_nil _ := rfl
  takeOutputs_nil _ := rfl

/-- The decoder takes the maps of the PSBT that it returns. -/
theorem decodes_iff {b : Bytes} {p : Psbt} : decoder.Decodes b p ↔
    ∃ wg wi wo, b = psbtMagicBytes ++ (wg ++ (wi.flatten ++ wo.flatten)) ∧
      Global.decoder.Decodes wg p.global ∧
        (p.inputs.length = p.global.inputCount ∧ List.Forall₂ Input.decoder.Decodes wi p.inputs) ∧
          p.outputs.length = p.global.outputCount ∧
            List.Forall₂ Output.decoder.Decodes wo p.outputs := by
  refine lawful_format.decodes_iff.trans ?_
  constructor
  · rintro ⟨g, inputs, outputs, wg, wi, wo, rfl, hg, hin, hout, rfl⟩
    exact ⟨wg, wi, wo, rfl, hg, hin, hout⟩
  · rintro ⟨wg, wi, wo, rfl, hg, hin, hout⟩
    exact ⟨p.global, p.inputs, p.outputs, wg, wi, wo, rfl, hg, hin, hout, rfl⟩

/-- A well-formed PSBT inside the limits of the decoder is decoded from its serialization. -/
theorem deserialize_serialize_of_fits {p : Psbt} (h : p.WellFormed) (hfits : p.Fits) :
    deserialize p.serialize = .ok p := by
  rcases wellFormed_iff.mp h with ⟨hglobal, hinputs, houtputs, hin, hout⟩
  apply lawful_format.deserialize_eq_ok.mpr
  apply decodes_iff.mpr
  refine ⟨p.global.encode, p.inputs.map Input.encode, p.outputs.map Output.encode, ?_,
    Global.decodes_encode hglobal hfits.global, ⟨hin.symm, ?_⟩, hout.symm, ?_⟩
  · rw [serialize, List.flatMap_def, List.flatMap_def]
  · rw [List.forall₂_map_left_iff, List.forall₂_same]
    exact fun i hi => Input.decodes_encode (hinputs i hi) (hfits.inputs i hi)
  · rw [List.forall₂_map_left_iff, List.forall₂_same]
    exact fun o ho => Output.decodes_encode (houtputs o ho) (hfits.outputs o ho)

/-- Every decoded PSBT is well-formed and inside the limits. -/
theorem wellFormed_of_deserialize {b : Bytes} {p : Psbt} (h : deserialize b = .ok p) :
    p.WellFormed ∧ p.Fits := by
  rcases decodes_iff.mp (lawful_format.deserialize_eq_ok.mp h) with
    ⟨wg, wi, wo, _, hg, ⟨hlenIn, hallIn⟩, hlenOut, hallOut⟩
  have hglobal := Global.wellFormed_of_accepts hg
  have hinputs : ∀ i ∈ p.inputs, i.WellFormed ∧ i.Fits := by
    intro i hi
    rcases Result.exists_of_mem_right hallIn hi with ⟨w, _, hw⟩
    exact Input.wellFormed_of_accepts hw
  have houtputs : ∀ o ∈ p.outputs, o.WellFormed ∧ o.Fits := by
    intro o ho
    rcases Result.exists_of_mem_right hallOut ho with ⟨w, _, hw⟩
    exact Output.wellFormed_of_accepts hw
  constructor
  · apply wellFormed_iff.mpr
    exact ⟨hglobal.1, fun i hi => (hinputs i hi).1, fun o ho => (houtputs o ho).1,
      hlenIn.symm, hlenOut.symm⟩
  · exact ⟨hglobal.2, fun i hi => (hinputs i hi).2, fun o ho => (houtputs o ho).2⟩

/-- Well-formed PSBTs round trip, and every decoded PSBT is one of them. -/
theorem deserialize_roundTrips :
    (∀ p : Psbt, p.WellFormed → p.Fits → deserialize p.serialize = .ok p) ∧
      ∀ (b : Bytes) (p : Psbt), deserialize b = .ok p →
        p.WellFormed ∧ p.Fits ∧ deserialize p.serialize = .ok p := by
  refine ⟨fun p => deserialize_serialize_of_fits, fun b p h => ?_⟩
  obtain ⟨hwf, hfits⟩ := wellFormed_of_deserialize h
  exact ⟨hwf, hfits, deserialize_serialize_of_fits hwf hfits⟩

end

end Psbt

end Generic

/-! ## Reference serializations -/

namespace Psbt

section

attribute [local instance] Reference.types Reference.codecs Reference.lawfulCodecs
  Reference.txidHash

theorem deserialize_unsigned :
    deserialize Reference.unsigned.serialize = .ok Reference.unsigned :=
  Result.toOption_eq_some.mp (by decide +kernel)

theorem deserialize_signed : deserialize Reference.signed.serialize = .ok Reference.signed :=
  Result.toOption_eq_some.mp (by decide +kernel)

theorem deserialize_roundTrips_signed : Reference.signed.WellFormed ∧ Reference.signed.Fits ∧
    deserialize Reference.signed.serialize = .ok Reference.signed :=
  deserialize_roundTrips.2 _ _ deserialize_signed

end

end Psbt

end RustPsbt
