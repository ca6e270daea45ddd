import RustPsbt.Map.V0.Global
import RustPsbt.Map.V0.Input
import RustPsbt.Map.V0.Output
import RustPsbt.Serialization.Format

/-!
# PSBTs of version 0

A PSBT of version 2 is wrapped with the lock time of its unsigned transaction to be written
in version 0, and a PSBT that is read in version 0 is promoted to version 2.

Main results:

- Theorem `PsbtV0.decodes_iff`: what the decoder of version 0 makes of its maps.
- Theorem `PsbtV0.counts_of_deserialize`: a promoted PSBT counts its inputs and its outputs.
-/

namespace RustPsbt

variable [BitcoinTypes] [BitcoinCodecs]

namespace PsbtV0

/-- `PsbtV0::from_psbt`. -/
def fromPsbt (psbt : Psbt) : Result DetermineLockTimeError PsbtV0 := do
  let lockTime ← psbt.determineLockTime
  .ok { psbt := psbt, lockTime := lockTime }

/-- `PsbtV0::into_psbt`. -/
def intoPsbt (self : PsbtV0) : Psbt :=
  self.psbt

/-! ## Encoder and decoder -/

/-- The inputs of a PSBT: what an input map carries, and what the unsigned transaction
carries of the input at its place. -/
def takeInputs (info : V0GlobalInfo) (inputs : List InputV0) : List Input :=
  inputs.zipWith (fun v0 (txid, vout, sequence) => v0.intoInput txid vout sequence) info.2.1

/-- The outputs of a PSBT. -/
def takeOutputs (info : V0GlobalInfo) (outputs : List OutputV0) : List Output :=
  outputs.zipWith (fun v0 (amount, script) => v0.intoOutput amount script) info.2.2

/-- The output of `end`: the lock time is the fallback of the promoted PSBT. -/
def ofDecoded (psbt : Psbt) : PsbtV0 where
  psbt := psbt
  lockTime := psbt.global.fallbackLockTime.getD .zero

/-- The parts of `PsbtV0Decoder`. -/
def format : PsbtFormat V0GlobalInfo InputV0 OutputV0 PsbtV0 where
  globalDecoder := GlobalV0.decoder
  inputDecoder := InputV0.decoder
  outputDecoder := OutputV0.decoder
  inputCount info := info.2.1.length
  outputCount info := info.2.2.length
  skipsEmpty := true
  global info := info.1
  takeInputs := takeInputs
  takeOutputs := takeOutputs
  atEnd := ofDecoded

/-- `PsbtV0Decoder`. -/
def decoder : PushDecoder UInt8 DeserializeError PsbtV0 :=
  format.decoder

/-- `PsbtV0::deserialize`. -/
def deserialize (b : Bytes) : Result DeserializeError PsbtV0 :=
  format.deserialize b

/-- `PsbtV0::serialize`: the bytes of `PsbtV0Encoder`. -/
def serialize (self : PsbtV0) : Bytes :=
  psbtMagicBytes ++ (GlobalV0.encode self ++
    (self.psbt.inputs.flatMap InputV0.encode ++ self.psbt.outputs.flatMap OutputV0.encode))

/-! ## What the decoder makes of the maps -/

variable [LawfulCodecs]

theorem lawful_format : format.Lawful where
  global_lawful := GlobalV0.lawful_codec.lawful_mapDecoder
  global_strict := MapCodec.Lawful.strict_mapDecoder GlobalV0.codec
  input_lawful := InputV0.lawful_codec.lawful_mapDecoder
  input_strict := MapCodec.Lawful.strict_mapDecoder InputV0.codec
  output_lawful := OutputV0.lawful_codec.lawful_mapDecoder
  output_strict := MapCodec.Lawful.strict_mapDecoder OutputV0.codec
  takeInputs_nil _ := rfl
  takeOutputs_nil _ := rfl

/-- The decoder takes the maps that the promoted PSBT is made of. -/
theorem decodes_iff {b : Bytes} {v0 : PsbtV0} : decoder.Decodes b v0 ↔
    ∃ info inputs outputs wg wi wo,
      b = psbtMagicBytes ++ (wg ++ (wi.flatten ++ wo.flatten)) ∧
        GlobalV0.decoder.Decodes wg info ∧
          (inputs.length = info.2.1.length ∧ List.Forall₂ InputV0.decoder.Decodes wi inputs) ∧
            (outputs.length = info.2.2.length ∧
              List.Forall₂ OutputV0.decoder.Decodes wo outputs) ∧
                v0 = ofDecoded ⟨info.1, takeInputs info inputs, takeOutputs info outputs⟩ :=
  lawful_format.decodes_iff

/-- A promoted PSBT counts its inputs and its outputs. -/
theorem counts_of_deserialize {b : Bytes} {v0 : PsbtV0} (h : deserialize b = .ok v0) :
    v0.psbt.global.inputCount = v0.psbt.inputs.length ∧
      v0.psbt.global.outputCount = v0.psbt.outputs.length := by
  obtain ⟨info, inputs, outputs, wg, wi, wo, -, hg, ⟨hlenIn, -⟩, ⟨hlenOut, -⟩, rfl⟩ :=
    decodes_iff.mp (lawful_format.deserialize_eq_ok.mp h)
  obtain ⟨hin, hout⟩ := GlobalV0.counts_of_accepts hg
  constructor
  · change info.1.inputCount = (takeInputs info inputs).length
    rw [takeInputs, List.length_zipWith, hlenIn, min_self, hin]
  · change info.1.outputCount = (takeOutputs info outputs).length
    rw [takeOutputs, List.length_zipWith, hlenOut, min_self, hout]

end PsbtV0

end RustPsbt
