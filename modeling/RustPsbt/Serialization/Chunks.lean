import RustPsbt.Serialization.V0
import RustPsbt.Serialization.V2

/-!
# Decoding in chunks

A PSBT may arrive in chunks of any size.  The decoders of both versions, the decoders of
their maps and those of the values in the maps take a stream in chunks as they take it in
one piece.

Main results:

- Theorem `Part.decodeChunks_eq`: every way to cut a stream decodes alike.
-/

namespace RustPsbt

section Generic

variable [BitcoinTypes] [BitcoinCodecs] [TxidHash]

/-- The decoders of this repository that decoding a PSBT runs. -/
inductive Part : {ε α : Type} → PushDecoder UInt8 ε α → Prop where
  | psbt : Part Psbt.decoder
  | psbtV0 : Part PsbtV0.decoder
  | global : Part Global.decoder
  | input : Part Input.decoder
  | output : Part Output.decoder
  | globalV0 : Part GlobalV0.decoder
  | inputV0 : Part InputV0.decoder
  | outputV0 : Part OutputV0.decoder
  | inputs (count : Nat) : Part (exactVecDecoderWith Input.decoder count)
  | outputs (count : Nat) : Part (exactVecDecoderWith Output.decoder count)
  | inputsV0 (count : Nat) : Part (exactVecDecoderWith InputV0.decoder count)
  | outputsV0 (count : Nat) : Part (exactVecDecoderWith OutputV0.decoder count)
  | key : Part keyDecoder
  | globalValue (c : Global.Field) : Part (Global.valueDecoderOf c)
  | inputValue (c : Input.Field) : Part (Input.valueDecoderOf c)
  | outputValue (c : Output.Field) : Part (Output.valueDecoderOf c)
  | globalValueV0 (c : GlobalV0.Field) : Part (GlobalV0.valueDecoderOf c)
  | unsignedTx : Part unsignedTxDecoder
  | txid : Part txidDecoder
  | tapNodeHash : Part tapNodeHashDecoder
  | xOnlyPublicKey : Part xOnlyPublicKeyDecoder
  | compressedPublicKey : Part compressedPublicKeyDecoder
  | spV0Info : Part spV0InfoDecoder
  | spV0Label : Part spV0LabelDecoder
  | dleqProof : Part dleqProofDecoder
  | version : Part versionDecoder
  | time : Part timeDecoder
  | requiredHeightLockTime : Part requiredHeightLockTimeDecoder
  | vout : Part voutDecoder
  | sighashType : Part sighashTypeDecoder
  | txModifiableFlags : Part txModifiableFlagsDecoder
  | count : Part countDecoder

namespace Part

variable [LawfulCodecs] {ε α : Type} {D : PushDecoder UInt8 ε α}

omit [TxidHash] in
/-- A value that is made of an array is decoded as the array is. -/
theorem lawful_ofArray {ε' : Type} {n : Nat} (hn : 0 < n) {g g' : ExtError → ε'}
    {k : U8Array n → Result ε' α} : ((arrayDecoder n).wrap g g' k).Lawful :=
  (LawfulCodecs.array_sound hn).lawful.wrap

/-- All of these decoders are chunk independent. -/
theorem lawful (h : Part D) : D.Lawful := by
  cases h with
  | psbt => exact Psbt.lawful_format.lawful_decoder
  | psbtV0 => exact PsbtV0.lawful_format.lawful_decoder
  | global => exact Global.lawful_codec.lawful_mapDecoder
  | input => exact Input.lawful_codec.lawful_mapDecoder
  | output => exact Output.lawful_codec.lawful_mapDecoder
  | globalV0 => exact GlobalV0.lawful_codec.lawful_mapDecoder
  | inputV0 => exact InputV0.lawful_codec.lawful_mapDecoder
  | outputV0 => exact OutputV0.lawful_codec.lawful_mapDecoder
  | inputs count =>
      have hlaw := Psbt.lawful_format
      exact LawfulCodecs.exactVec_lawful hlaw.input_lawful hlaw.input_strict
  | outputs count =>
      have hlaw := Psbt.lawful_format
      exact LawfulCodecs.exactVec_lawful hlaw.output_lawful hlaw.output_strict
  | inputsV0 count =>
      have hlaw := PsbtV0.lawful_format
      exact LawfulCodecs.exactVec_lawful hlaw.input_lawful hlaw.input_strict
  | outputsV0 count =>
      have hlaw := PsbtV0.lawful_format
      exact LawfulCodecs.exactVec_lawful hlaw.output_lawful hlaw.output_strict
  | key => exact lawful_keyDecoder
  | globalValue c => exact (Global.valueCodec c).framed.lawful
  | inputValue c => exact (Input.valueCodec c).framed.lawful
  | outputValue c => exact (Output.valueCodec c).framed.lawful
  | globalValueV0 c => exact (GlobalV0.valueCodec c).framed.lawful
  | unsignedTx => exact UnsignedTxDecoder.lawful_unsignedTx
  | txid => exact lawful_ofArray (by decide)
  | tapNodeHash => exact lawful_ofArray (by decide)
  | xOnlyPublicKey => exact lawful_ofArray (by decide)
  | compressedPublicKey => exact lawful_ofArray (by decide)
  | spV0Info => exact lawful_ofArray (by decide)
  | spV0Label => exact lawful_ofArray (by decide)
  | dleqProof => exact lawful_ofArray (by decide)
  | version => exact lawful_ofArray (by decide)
  | time => exact lawful_ofArray (by decide)
  | requiredHeightLockTime => exact lawful_ofArray (by decide)
  | vout => exact lawful_ofArray (by decide)
  | sighashType => exact lawful_ofArray (by decide)
  | txModifiableFlags => exact lawful_ofArray (by decide)
  | count => exact LawfulCodecs.compactSize_sound.lawful.wrap

/-- Feeding the chunks of a stream one by one and then ending it gives the value and takes the
bytes that one push of the whole stream does, or both fail. -/
theorem decodeChunks_eq (h : Part D) (chunk : Bytes) (chunks : List Bytes) :
    (D.decodeChunks (chunk :: chunks)).toOption =
      (D.decodeChunks [chunk ++ chunks.flatten]).toOption :=
  h.lawful.decodeChunks_flatten (List.cons_ne_nil chunk chunks)

end Part

end Generic

/-! ## Reference chunks -/

namespace Part

section

attribute [local instance] Reference.types Reference.codecs Reference.lawfulCodecs
  Reference.txidHash

theorem decodeChunks_signed :
    (Psbt.decoder.decodeChunks [[0x70], [], Reference.signed.serialize.drop 1]).toOption =
      (Psbt.decoder.decodeChunks
        [[0x70] ++ [[], Reference.signed.serialize.drop 1].flatten]).toOption :=
  decodeChunks_eq .psbt [0x70] [[], Reference.signed.serialize.drop 1]

end

end Part

end RustPsbt
