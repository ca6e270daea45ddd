import RustPsbt.Encoding.Prefixed
import RustPsbt.Encoding.TapKeyOrigin
import RustPsbt.Encoding.TapTree
import RustPsbt.Map.Input
import RustPsbt.Map.KeyData

/-!
# Codec of the input map

`InputDecoder` and `InputMapEncoder` of version 2: the fields that the decoder collects,
its arms, and the states of the encoder.

Main results:

- Theorem `Input.lawful_codec`: the decoder and the encoder match field by field.
- Theorem `Input.decodes_encode`: a well-formed input map decodes from its encoding.
- Theorem `Input.wellFormed_of_accepts`: a decoded input map is well-formed.
-/

namespace RustPsbt

variable [BitcoinTypes] [BitcoinCodecs]

namespace Input

/-- `InputDecodeError`. -/
inductive DecodeError where
  | duplicateKey (key : Key)
  | keyDecode (e : KeyDecodeError)
  | earlyEnd
  | invalidHash (e : FromSliceError)
  | invalidPublicKey (e : ExtError)
  | previousTxid (e : ValueDecoderError (ArrayDecodeError FromSliceError))
  | outputIndex (e : ValueDecoderError ExtError)
  | sequence (e : ValueDecoderError ExtError)
  | minTime (e : ValueDecoderError (ArrayDecodeError Unit))
  | minHeight (e : ValueDecoderError (ArrayDecodeError RequiredHeightLockTimeError))
  | sighashType (e : ValueDecoderError ExtError)
  | tapInternalKey (e : ValueDecoderError (ArrayDecodeError ExtError))
  | tapMerkleRoot (e : ValueDecoderError (ArrayDecodeError FromSliceError))
  | nonWitnessUtxo (e : ValueDecoderError ExtError)
  | witnessUtxo (e : ValueDecoderError ExtError)
  | finalScriptWitness (e : ValueDecoderError ExtError)
  | redeemScript (e : ExtError)
  | witnessScript (e : ExtError)
  | finalScriptSig (e : ExtError)
  | tapKeySig (e : TaprootSignatureDecodeError)
  | partialSig (e : EcdsaSignatureDecodeError)
  | bip32Derivation (e : KeySourceDecodeError)
  | tapBip32Derivation (e : TapKeyOriginDecodeError)
  | ripemd160Preimage (e : ExtError)
  | sha256Preimage (e : ExtError)
  | hash160Preimage (e : ExtError)
  | hash256Preimage (e : ExtError)
  | tapScriptSig (e : TaprootSignatureDecodeError)
  | leafScript (e : LeafScriptDecodeError)
  | proprietaryValue (e : ExtError)
  | unknownValue (e : ExtError)
  | invalidControlBlock
  | missingPreviousTxid
  | missingSpentOutputIndex
  | incorrectNonWitnessUtxo (previousTxid nonWitnessUtxoTxid : Txid)
  | spEcdh (e : ValueDecoderError (ArrayDecodeError ExtError))
  | spDleq (e : ValueDecoderError ExtError)
  | spFieldMismatch

/-! ## Collected fields -/

/-- The fields that `InputDecoder` collects. -/
@[ext]
structure Fields where
  previousTxid : Option Txid
  spentOutputIndex : Option Vout
  sequence : Option Sequence
  minTime : Option Time
  minHeight : Option RequiredHeightLockTime
  nonWitnessUtxo : Option Transaction
  witnessUtxo : Option TxOut
  partialSigs : BTreeMap PublicKey EcdsaSignature
  sighashType : Option PsbtSighashType
  redeemScript : Option ScriptBuf
  witnessScript : Option ScriptBuf
  bip32Derivations : BTreeMap PublicKey KeySource
  finalScriptSig : Option ScriptBuf
  finalScriptWitness : Option Witness
  ripemd160Preimages : BTreeMap (U8Array 20) Bytes
  sha256Preimages : BTreeMap (U8Array 32) Bytes
  hash160Preimages : BTreeMap (U8Array 20) Bytes
  hash256Preimages : BTreeMap (U8Array 32) Bytes
  tapKeySig : Option TaprootSignature
  tapScriptSigs : BTreeMap (XOnlyPublicKey × TapLeafHash) TaprootSignature
  tapScripts : BTreeMap ControlBlock TapLeafScript
  tapKeyOrigins : BTreeMap XOnlyPublicKey TapKeyOrigin
  tapInternalKey : Option XOnlyPublicKey
  tapMerkleRoot : Option TapNodeHash
  spEcdhShares : BTreeMap CompressedPublicKey CompressedPublicKey
  spDleqProofs : BTreeMap CompressedPublicKey DleqProof
  proprietaries : BTreeMap ProprietaryKey Bytes
  unknowns : BTreeMap Key Bytes

/-- The fields of a new decoder. -/
def Fields.empty : Fields where
  previousTxid := none
  spentOutputIndex := none
  sequence := none
  minTime := none
  minHeight := none
  nonWitnessUtxo := none
  witnessUtxo := none
  partialSigs := {}
  sighashType := none
  redeemScript := none
  witnessScript := none
  bip32Derivations := {}
  finalScriptSig := none
  finalScriptWitness := none
  ripemd160Preimages := {}
  sha256Preimages := {}
  hash160Preimages := {}
  hash256Preimages := {}
  tapKeySig := none
  tapScriptSigs := {}
  tapScripts := {}
  tapKeyOrigins := {}
  tapInternalKey := none
  tapMerkleRoot := none
  spEcdhShares := {}
  spDleqProofs := {}
  proprietaries := {}
  unknowns := {}

/-- The fields by name: the stages of the decoder that decode a value. -/
inductive Field where
  | previousTxid
  | spentOutputIndex
  | sequence
  | minTime
  | minHeight
  | nonWitnessUtxo
  | witnessUtxo
  | partialSigs
  | sighashType
  | redeemScript
  | witnessScript
  | bip32Derivations
  | finalScriptSig
  | finalScriptWitness
  | ripemd160Preimages
  | sha256Preimages
  | hash160Preimages
  | hash256Preimages
  | tapKeySig
  | tapScriptSigs
  | tapScripts
  | tapKeyOrigins
  | tapInternalKey
  | tapMerkleRoot
  | spEcdhShares
  | spDleqProofs
  | proprietaries
  | unknowns
deriving DecidableEq

/-- The keys of a field. -/
abbrev FieldKey : Field → Type
  | .partialSigs => PublicKey
  | .bip32Derivations => PublicKey
  | .ripemd160Preimages => U8Array 20
  | .sha256Preimages => U8Array 32
  | .hash160Preimages => U8Array 20
  | .hash256Preimages => U8Array 32
  | .tapScriptSigs => XOnlyPublicKey × TapLeafHash
  | .tapScripts => ControlBlock
  | .tapKeyOrigins => XOnlyPublicKey
  | .spEcdhShares => CompressedPublicKey
  | .spDleqProofs => CompressedPublicKey
  | .proprietaries => ProprietaryKey
  | .unknowns => Key
  | _ => Unit

/-- The values of a field. -/
abbrev FieldValue : Field → Type
  | .previousTxid => Txid
  | .spentOutputIndex => Vout
  | .sequence => Sequence
  | .minTime => Time
  | .minHeight => RequiredHeightLockTime
  | .nonWitnessUtxo => Transaction
  | .witnessUtxo => TxOut
  | .partialSigs => EcdsaSignature
  | .sighashType => PsbtSighashType
  | .redeemScript => ScriptBuf
  | .witnessScript => ScriptBuf
  | .bip32Derivations => KeySource
  | .finalScriptSig => ScriptBuf
  | .finalScriptWitness => Witness
  | .ripemd160Preimages => Bytes
  | .sha256Preimages => Bytes
  | .hash160Preimages => Bytes
  | .hash256Preimages => Bytes
  | .tapKeySig => TaprootSignature
  | .tapScriptSigs => TaprootSignature
  | .tapScripts => TapLeafScript
  | .tapKeyOrigins => TapKeyOrigin
  | .tapInternalKey => XOnlyPublicKey
  | .tapMerkleRoot => TapNodeHash
  | .spEcdhShares => CompressedPublicKey
  | .spDleqProofs => DleqProof
  | .proprietaries => Bytes
  | .unknowns => Bytes

/-- Access to a field. -/
def column : (c : Field) → Column Fields (FieldKey c) (FieldValue c)
  | .previousTxid => .option Fields.previousTxid fun m v => { m with previousTxid := some v }
  | .spentOutputIndex =>
      .option Fields.spentOutputIndex fun m v => { m with spentOutputIndex := some v }
  | .sequence => .option Fields.sequence fun m v => { m with sequence := some v }
  | .minTime => .option Fields.minTime fun m v => { m with minTime := some v }
  | .minHeight => .option Fields.minHeight fun m v => { m with minHeight := some v }
  | .nonWitnessUtxo => .option Fields.nonWitnessUtxo fun m v => { m with nonWitnessUtxo := some v }
  | .witnessUtxo => .option Fields.witnessUtxo fun m v => { m with witnessUtxo := some v }
  | .partialSigs => .map Fields.partialSigs fun m t => { m with partialSigs := t }
  | .sighashType => .option Fields.sighashType fun m v => { m with sighashType := some v }
  | .redeemScript => .option Fields.redeemScript fun m v => { m with redeemScript := some v }
  | .witnessScript => .option Fields.witnessScript fun m v => { m with witnessScript := some v }
  | .bip32Derivations => .map Fields.bip32Derivations fun m t => { m with bip32Derivations := t }
  | .finalScriptSig => .option Fields.finalScriptSig fun m v => { m with finalScriptSig := some v }
  | .finalScriptWitness =>
      .option Fields.finalScriptWitness fun m v => { m with finalScriptWitness := some v }
  | .ripemd160Preimages =>
      .map Fields.ripemd160Preimages fun m t => { m with ripemd160Preimages := t }
  | .sha256Preimages => .map Fields.sha256Preimages fun m t => { m with sha256Preimages := t }
  | .hash160Preimages => .map Fields.hash160Preimages fun m t => { m with hash160Preimages := t }
  | .hash256Preimages => .map Fields.hash256Preimages fun m t => { m with hash256Preimages := t }
  | .tapKeySig => .option Fields.tapKeySig fun m v => { m with tapKeySig := some v }
  | .tapScriptSigs => .map Fields.tapScriptSigs fun m t => { m with tapScriptSigs := t }
  | .tapScripts => .map Fields.tapScripts fun m t => { m with tapScripts := t }
  | .tapKeyOrigins => .map Fields.tapKeyOrigins fun m t => { m with tapKeyOrigins := t }
  | .tapInternalKey => .option Fields.tapInternalKey fun m v => { m with tapInternalKey := some v }
  | .tapMerkleRoot => .option Fields.tapMerkleRoot fun m v => { m with tapMerkleRoot := some v }
  | .spEcdhShares => .map Fields.spEcdhShares fun m t => { m with spEcdhShares := t }
  | .spDleqProofs => .map Fields.spDleqProofs fun m t => { m with spDleqProofs := t }
  | .proprietaries => .map Fields.proprietaries fun m t => { m with proprietaries := t }
  | .unknowns => .map Fields.unknowns fun m t => { m with unknowns := t }

/-- The order of the fields in `InputMapEncoder`. -/
def order : List Field :=
  [.previousTxid, .spentOutputIndex, .sequence, .minTime, .minHeight, .nonWitnessUtxo,
    .witnessUtxo, .partialSigs, .sighashType, .redeemScript, .witnessScript, .bip32Derivations,
    .finalScriptSig, .finalScriptWitness, .ripemd160Preimages, .sha256Preimages,
    .hash160Preimages, .hash256Preimages, .tapKeySig, .tapScriptSigs, .tapScripts, .tapKeyOrigins,
    .tapInternalKey, .tapMerkleRoot, .spEcdhShares, .spDleqProofs, .proprietaries, .unknowns]

/-- The collected fields as a table. -/
def table : Table Fields where
  Col := Field
  K := FieldKey
  V := FieldValue
  column := column
  empty := .empty
  order := order

/-! ## Decoder -/

/-- `DecoderStage::from_key`. -/
def fromKey (key : Key) : Result DecodeError Field :=
  if key.typeValue = 0x0E then .ok .previousTxid
  else if key.typeValue = 0x0F then .ok .spentOutputIndex
  else if key.typeValue = 0x10 then .ok .sequence
  else if key.typeValue = 0x11 then .ok .minTime
  else if key.typeValue = 0x12 then .ok .minHeight
  else if key.typeValue = 0x00 then .ok .nonWitnessUtxo
  else if key.typeValue = 0x01 then .ok .witnessUtxo
  else if key.typeValue = 0x03 then .ok .sighashType
  else if key.typeValue = 0x04 then .ok .redeemScript
  else if key.typeValue = 0x05 then .ok .witnessScript
  else if key.typeValue = 0x07 then .ok .finalScriptSig
  else if key.typeValue = 0x08 then .ok .finalScriptWitness
  else if key.typeValue = 0x13 then .ok .tapKeySig
  else if key.typeValue = 0x17 then .ok .tapInternalKey
  else if key.typeValue = 0x18 then .ok .tapMerkleRoot
  else if key.typeValue = 0x02 then .ok .partialSigs
  else if key.typeValue = 0x06 then .ok .bip32Derivations
  else if key.typeValue = 0x0A then .ok .ripemd160Preimages
  else if key.typeValue = 0x0B then .ok .sha256Preimages
  else if key.typeValue = 0x0C then .ok .hash160Preimages
  else if key.typeValue = 0x0D then .ok .hash256Preimages
  else if key.typeValue = 0x14 then .ok .tapScriptSigs
  else if key.typeValue = 0x15 then .ok .tapScripts
  else if key.typeValue = 0x16 then .ok .tapKeyOrigins
  else if key.typeValue = 0xFC then .ok .proprietaries
  else if key.typeValue = 0x1D then .ok .spEcdhShares
  else if key.typeValue = 0x1E then .ok .spDleqProofs
  else .ok .unknowns

/-- The decoder of a value, with the errors of a push. -/
def valueDecoderOf : (c : Field) → PushDecoder UInt8 DecodeError (FieldValue c)
  | .previousTxid => (valueDecoder txidDecoder).mapErr .previousTxid
  | .spentOutputIndex => (valueDecoder voutDecoder).mapErr .outputIndex
  | .sequence => (valueDecoder sequenceCodec.decoder).mapErr .sequence
  | .minTime => (valueDecoder timeDecoder).mapErr .minTime
  | .minHeight => (valueDecoder requiredHeightLockTimeDecoder).mapErr .minHeight
  | .nonWitnessUtxo => (valueDecoder transactionCodec.decoder).mapErr .nonWitnessUtxo
  | .witnessUtxo => (valueDecoder txOutCodec.decoder).mapErr .witnessUtxo
  | .partialSigs => ecdsaSignatureDecoder.mapErr .partialSig
  | .sighashType => (valueDecoder sighashTypeDecoder).mapErr .sighashType
  | .redeemScript => byteVecDecoder.mapErr .redeemScript
  | .witnessScript => byteVecDecoder.mapErr .witnessScript
  | .bip32Derivations => keySourceDecoder.mapErr .bip32Derivation
  | .finalScriptSig => byteVecDecoder.mapErr .finalScriptSig
  | .finalScriptWitness => (valueDecoder witnessCodec.decoder).mapErr .finalScriptWitness
  | .ripemd160Preimages => byteVecDecoder.mapErr .ripemd160Preimage
  | .sha256Preimages => byteVecDecoder.mapErr .sha256Preimage
  | .hash160Preimages => byteVecDecoder.mapErr .hash160Preimage
  | .hash256Preimages => byteVecDecoder.mapErr .hash256Preimage
  | .tapKeySig => taprootSignatureDecoder.mapErr .tapKeySig
  | .tapScriptSigs => taprootSignatureDecoder.mapErr .tapScriptSig
  | .tapScripts => leafScriptDecoder.mapErr .leafScript
  | .tapKeyOrigins => tapKeyOriginDecoder.mapErr .tapBip32Derivation
  | .tapInternalKey => (valueDecoder xOnlyPublicKeyDecoder).mapErr .tapInternalKey
  | .tapMerkleRoot => (valueDecoder tapNodeHashDecoder).mapErr .tapMerkleRoot
  | .spEcdhShares => (valueDecoder compressedPublicKeyDecoder).mapErr .spEcdh
  | .spDleqProofs => (valueDecoder dleqProofDecoder).mapErr .spDleq
  | .proprietaries => byteVecDecoder.mapErr .proprietaryValue
  | .unknowns => byteVecDecoder.mapErr .unknownValue

/-- The error of key data that is no key. -/
def invalidKeyData (key : Key) : DecodeError :=
  .keyDecode (.invalidKeyData key)

/-- How the arms read the key data; fields without keys ignore it. -/
def entryKey : (c : Field) → Key → Result DecodeError (FieldKey c)
  | .previousTxid => fun _ => .ok ()
  | .spentOutputIndex => fun _ => .ok ()
  | .sequence => fun _ => .ok ()
  | .minTime => fun _ => .ok ()
  | .minHeight => fun _ => .ok ()
  | .nonWitnessUtxo => fun _ => .ok ()
  | .witnessUtxo => fun _ => .ok ()
  | .partialSigs => publicKeyOfKey .invalidPublicKey
  | .sighashType => fun _ => .ok ()
  | .redeemScript => fun _ => .ok ()
  | .witnessScript => fun _ => .ok ()
  | .bip32Derivations => publicKeyOfKey .invalidPublicKey
  | .finalScriptSig => fun _ => .ok ()
  | .finalScriptWitness => fun _ => .ok ()
  | .ripemd160Preimages => hashOfKey 20 .invalidHash
  | .sha256Preimages => hashOfKey 32 .invalidHash
  | .hash160Preimages => hashOfKey 20 .invalidHash
  | .hash256Preimages => hashOfKey 32 .invalidHash
  | .tapKeySig => fun _ => .ok ()
  | .tapScriptSigs => tapScriptSigOfKey invalidKeyData
  | .tapScripts => controlBlockOfKey .invalidControlBlock
  | .tapKeyOrigins => xOnlyOfKey invalidKeyData
  | .tapInternalKey => fun _ => .ok ()
  | .tapMerkleRoot => fun _ => .ok ()
  | .spEcdhShares => scanKeyOfKey invalidKeyData
  | .spDleqProofs => scanKeyOfKey invalidKeyData
  | .proprietaries => proprietaryOfKey (.keyDecode .invalidProprietaryKey)
  | .unknowns => fun key => .ok key

/-- The transition at the end of a value. -/
def store (c : Field) (key : Key) (ended : Result DecodeError (FieldValue c)) (m : Fields) :
    Result DecodeError Fields :=
  storeEntry table (.duplicateKey key) c (entryKey c key) ended m

/-- The transition at the separator. -/
def Fields.finish (self : Fields) : Result DecodeError Input := do
  let previousTxid ← .okOr .missingPreviousTxid self.previousTxid
  let spentOutputIndex ← .okOr .missingSpentOutputIndex self.spentOutputIndex
  if self.spEcdhShares.isEmpty ≠ self.spDleqProofs.isEmpty then .err .spFieldMismatch
  else .ok {
    previousTxid := previousTxid
    spentOutputIndex := spentOutputIndex
    sequence := self.sequence
    minTime := self.minTime
    minHeight := self.minHeight
    nonWitnessUtxo := self.nonWitnessUtxo
    witnessUtxo := self.witnessUtxo
    partialSigs := self.partialSigs
    sighashType := self.sighashType
    redeemScript := self.redeemScript
    witnessScript := self.witnessScript
    bip32Derivations := self.bip32Derivations
    finalScriptSig := self.finalScriptSig
    finalScriptWitness := self.finalScriptWitness
    ripemd160Preimages := self.ripemd160Preimages
    sha256Preimages := self.sha256Preimages
    hash160Preimages := self.hash160Preimages
    hash256Preimages := self.hash256Preimages
    tapKeySig := self.tapKeySig
    tapScriptSigs := self.tapScriptSigs
    tapScripts := self.tapScripts
    tapKeyOrigins := self.tapKeyOrigins
    tapInternalKey := self.tapInternalKey
    tapMerkleRoot := self.tapMerkleRoot
    spEcdhShares := self.spEcdhShares
    spDleqProofs := self.spDleqProofs
    proprietaries := self.proprietaries
    unknowns := self.unknowns }

/-- `InputDecoder::end` on a complete map. -/
def checkNonWitnessUtxo [TxidHash] (self : Input) : Result DecodeError Input :=
  match self.nonWitnessUtxo with
  | none => .ok self
  | some tx =>
      if computeTxid tx ≠ self.previousTxid then
        .err (.incorrectNonWitnessUtxo self.previousTxid (computeTxid tx))
      else .ok self

/-! ## Encoder -/

/-- The key that is written for an entry. -/
def rawKey : (c : Field) → FieldKey c → Key
  | .previousTxid, _ => ⟨0x0E, []⟩
  | .spentOutputIndex, _ => ⟨0x0F, []⟩
  | .sequence, _ => ⟨0x10, []⟩
  | .minTime, _ => ⟨0x11, []⟩
  | .minHeight, _ => ⟨0x12, []⟩
  | .nonWitnessUtxo, _ => ⟨0x00, []⟩
  | .witnessUtxo, _ => ⟨0x01, []⟩
  | .partialSigs, key => ⟨0x02, publicKeyBytes key⟩
  | .sighashType, _ => ⟨0x03, []⟩
  | .redeemScript, _ => ⟨0x04, []⟩
  | .witnessScript, _ => ⟨0x05, []⟩
  | .bip32Derivations, key => ⟨0x06, publicKeyBytes key⟩
  | .finalScriptSig, _ => ⟨0x07, []⟩
  | .finalScriptWitness, _ => ⟨0x08, []⟩
  | .ripemd160Preimages, hash => ⟨0x0A, hash.bytes⟩
  | .sha256Preimages, hash => ⟨0x0B, hash.bytes⟩
  | .hash160Preimages, hash => ⟨0x0C, hash.bytes⟩
  | .hash256Preimages, hash => ⟨0x0D, hash.bytes⟩
  | .tapKeySig, _ => ⟨0x13, []⟩
  | .tapScriptSigs, key => ⟨0x14, tapScriptSigBytes key⟩
  | .tapScripts, block => ⟨0x15, controlBlockBytes block⟩
  | .tapKeyOrigins, key => ⟨0x16, (xOnlySerialize key).bytes⟩
  | .tapInternalKey, _ => ⟨0x17, []⟩
  | .tapMerkleRoot, _ => ⟨0x18, []⟩
  | .spEcdhShares, scanKey => ⟨0x1D, (compressedToBytes scanKey).bytes⟩
  | .spDleqProofs, scanKey => ⟨0x1E, (compressedToBytes scanKey).bytes⟩
  | .proprietaries, key => key.toKey
  | .unknowns, key => key

/-- The encoder of a value. -/
def encodeValue : (c : Field) → FieldValue c → ExactSizeEncoder
  | .previousTxid, txid => .ofBytes txid.bytes
  | .spentOutputIndex, vout => .ofBytes (u32ToLeBytes vout).bytes
  | .sequence, sequence => .ofBytes (sequenceCodec.encode sequence)
  | .minTime, time => .ofBytes (u32ToLeBytes time.value).bytes
  | .minHeight, height => .ofBytes (u32ToLeBytes height.height.value).bytes
  | .nonWitnessUtxo, tx => ⟨totalSize tx, transactionCodec.encode tx⟩
  | .witnessUtxo, txOut => .ofBytes (txOutCodec.encode txOut)
  | .partialSigs, sig => .ofBytes (ecdsaSerialize sig)
  | .sighashType, sighash => .ofBytes (u32ToLeBytes sighash.inner).bytes
  | .redeemScript, script => .ofBytes script
  | .witnessScript, script => .ofBytes script
  | .bip32Derivations, source => .ofBytes (keySourceBytes source)
  | .finalScriptSig, script => .ofBytes script
  | .finalScriptWitness, witness => ⟨witnessSize witness, witnessCodec.encode witness⟩
  | .ripemd160Preimages, value => .ofBytes value
  | .sha256Preimages, value => .ofBytes value
  | .hash160Preimages, value => .ofBytes value
  | .hash256Preimages, value => .ofBytes value
  | .tapKeySig, sig => .ofBytes (taprootSignatureBytes sig)
  | .tapScriptSigs, sig => .ofBytes (taprootSignatureBytes sig)
  | .tapScripts, leaf => .ofBytes (leafScriptBytes leaf)
  | .tapKeyOrigins, origin => .ofBytes (tapKeyOriginBytes origin)
  | .tapInternalKey, key => .ofBytes (xOnlySerialize key).bytes
  | .tapMerkleRoot, root => .ofBytes root.bytes
  | .spEcdhShares, share => .ofBytes (compressedToBytes share).bytes
  | .spDleqProofs, proof => .ofBytes proof.bytes
  | .proprietaries, value => .ofBytes value
  | .unknowns, value => .ofBytes value

/-- The decoder and the encoder of an input map. -/
def codec [TxidHash] : MapCodec DecodeError Fields Input where
  table := table
  decoder := valueDecoderOf
  fromKey := fromKey
  entryKey := entryKey
  Allowed _ _ := True
  store := store
  finish := Fields.finish
  atEnd := checkNonWitnessUtxo
  keyDecode := .keyDecode
  earlyEnd := .earlyEnd
  rawKey := rawKey
  encodeValue := encodeValue
  Fits c := InLimit (encodeValue c)

/-- `InputDecoder`. -/
def decoder [TxidHash] : PushDecoder UInt8 DecodeError Input :=
  codec.mapDecoder

/-- The fields that decode into an input map. -/
def fields (self : Input) : Fields where
  previousTxid := some self.previousTxid
  spentOutputIndex := some self.spentOutputIndex
  sequence := self.sequence
  minTime := self.minTime
  minHeight := self.minHeight
  nonWitnessUtxo := self.nonWitnessUtxo
  witnessUtxo := self.witnessUtxo
  partialSigs := self.partialSigs
  sighashType := self.sighashType
  redeemScript := self.redeemScript
  witnessScript := self.witnessScript
  bip32Derivations := self.bip32Derivations
  finalScriptSig := self.finalScriptSig
  finalScriptWitness := self.finalScriptWitness
  ripemd160Preimages := self.ripemd160Preimages
  sha256Preimages := self.sha256Preimages
  hash160Preimages := self.hash160Preimages
  hash256Preimages := self.hash256Preimages
  tapKeySig := self.tapKeySig
  tapScriptSigs := self.tapScriptSigs
  tapScripts := self.tapScripts
  tapKeyOrigins := self.tapKeyOrigins
  tapInternalKey := self.tapInternalKey
  tapMerkleRoot := self.tapMerkleRoot
  spEcdhShares := self.spEcdhShares
  spDleqProofs := self.spDleqProofs
  proprietaries := self.proprietaries
  unknowns := self.unknowns

/-- `InputMapEncoder::tap_merkle_root_state`. -/
def tapMerkleRootState (self : Input) : Option (EncoderState Field) :=
  if self.tapMerkleRoot.isSome then some (.group .tapMerkleRoot) else some (.group .spEcdhShares)

/-- `InputMapEncoder::tap_internal_key_state`. -/
def tapInternalKeyState (self : Input) : Option (EncoderState Field) :=
  if self.tapInternalKey.isSome then some (.group .tapInternalKey) else self.tapMerkleRootState

/-- `InputMapEncoder::tap_key_sig_state`. -/
def tapKeySigState (self : Input) : Option (EncoderState Field) :=
  if self.tapKeySig.isSome then some (.group .tapKeySig) else some (.group .tapScriptSigs)

/-- `InputMapEncoder::final_script_witness_state`. -/
def finalScriptWitnessState (self : Input) : Option (EncoderState Field) :=
  if self.finalScriptWitness.isSome then some (.group .finalScriptWitness)
  else some (.group .ripemd160Preimages)

/-- `InputMapEncoder::final_script_sig_state`. -/
def finalScriptSigState (self : Input) : Option (EncoderState Field) :=
  if self.finalScriptSig.isSome then some (.group .finalScriptSig) else self.finalScriptWitnessState

/-- `InputMapEncoder::witness_script_state`. -/
def witnessScriptState (self : Input) : Option (EncoderState Field) :=
  if self.witnessScript.isSome then some (.group .witnessScript)
  else some (.group .bip32Derivations)

/-- `InputMapEncoder::redeem_script_state`. -/
def redeemScriptState (self : Input) : Option (EncoderState Field) :=
  if self.redeemScript.isSome then some (.group .redeemScript) else self.witnessScriptState

/-- `InputMapEncoder::sighash_type_state`. -/
def sighashTypeState (self : Input) : Option (EncoderState Field) :=
  if self.sighashType.isSome then some (.group .sighashType) else self.redeemScriptState

/-- `InputMapEncoder::witness_utxo_state`. -/
def witnessUtxoState (self : Input) : Option (EncoderState Field) :=
  if self.witnessUtxo.isSome then some (.group .witnessUtxo) else some (.group .partialSigs)

/-- `InputMapEncoder::non_witness_utxo_state`. -/
def nonWitnessUtxoState (self : Input) : Option (EncoderState Field) :=
  if self.nonWitnessUtxo.isSome then some (.group .nonWitnessUtxo) else self.witnessUtxoState

/-- `InputMapEncoder::min_height_state`. -/
def minHeightState (self : Input) : Option (EncoderState Field) :=
  if self.minHeight.isSome then some (.group .minHeight) else self.nonWitnessUtxoState

/-- `InputMapEncoder::min_time_state`. -/
def minTimeState (self : Input) : Option (EncoderState Field) :=
  if self.minTime.isSome then some (.group .minTime) else self.minHeightState

/-- `InputMapEncoder::sequence_state`. -/
def sequenceState (self : Input) : Option (EncoderState Field) :=
  if self.sequence.isSome then some (.group .sequence) else self.minTimeState

/-- `InputMapEncoder::next_state`. -/
def nextState (self : Input) : EncoderState Field → Option (EncoderState Field)
  | .group .previousTxid => some (.group .spentOutputIndex)
  | .group .spentOutputIndex => self.sequenceState
  | .group .sequence => self.minTimeState
  | .group .minTime => self.minHeightState
  | .group .minHeight => self.nonWitnessUtxoState
  | .group .nonWitnessUtxo => self.witnessUtxoState
  | .group .witnessUtxo => some (.group .partialSigs)
  | .group .partialSigs => self.sighashTypeState
  | .group .sighashType => self.redeemScriptState
  | .group .redeemScript => self.witnessScriptState
  | .group .witnessScript => some (.group .bip32Derivations)
  | .group .bip32Derivations => self.finalScriptSigState
  | .group .finalScriptSig => self.finalScriptWitnessState
  | .group .finalScriptWitness => some (.group .ripemd160Preimages)
  | .group .ripemd160Preimages => some (.group .sha256Preimages)
  | .group .sha256Preimages => some (.group .hash160Preimages)
  | .group .hash160Preimages => some (.group .hash256Preimages)
  | .group .hash256Preimages => self.tapKeySigState
  | .group .tapKeySig => some (.group .tapScriptSigs)
  | .group .tapScriptSigs => some (.group .tapScripts)
  | .group .tapScripts => some (.group .tapKeyOrigins)
  | .group .tapKeyOrigins => self.tapInternalKeyState
  | .group .tapInternalKey => self.tapMerkleRootState
  | .group .tapMerkleRoot => some (.group .spEcdhShares)
  | .group .spEcdhShares => some (.group .spDleqProofs)
  | .group .spDleqProofs => some (.group .proprietaries)
  | .group .proprietaries => some (.group .unknowns)
  | .group .unknowns => some .separator
  | .separator => none

/-- The bytes of `InputMapEncoder`. -/
def encode [TxidHash] (self : Input) : Bytes :=
  codec.encode self.fields self.nextState (.group .previousTxid)

/-! ## The codec is lawful -/

omit [BitcoinCodecs] in
theorem lawful_column (c : Field) : (column c).Lawful := by
  cases c <;> unfold column
  all_goals first
    | exact Column.lawful_option fun _ _ => rfl
    | exact Column.lawful_map fun _ _ => rfl

omit [BitcoinCodecs] in
theorem lookup_empty (c : Field) (k : FieldKey c) : (column c).lookup Fields.empty k = none := by
  cases c <;> unfold column
  all_goals first
    | exact Column.map_lookup_empty rfl k
    | rfl

omit [BitcoinTypes] [BitcoinCodecs] in
theorem mem_order (c : Field) : c ∈ order := by
  cases c <;> decide

omit [BitcoinCodecs] in
theorem lawful_table : table.Lawful where
  column := lawful_column
  frame {c d} hne m k v := by
    cases c <;> cases d <;> first | rfl | exact absurd rfl hne
  ext {m m'} h := by
    apply Fields.ext
    · exact congrFun (h .previousTxid) ()
    · exact congrFun (h .spentOutputIndex) ()
    · exact congrFun (h .sequence) ()
    · exact congrFun (h .minTime) ()
    · exact congrFun (h .minHeight) ()
    · exact congrFun (h .nonWitnessUtxo) ()
    · exact congrFun (h .witnessUtxo) ()
    · exact Column.eq_of_lookup_eq (h .partialSigs)
    · exact congrFun (h .sighashType) ()
    · exact congrFun (h .redeemScript) ()
    · exact congrFun (h .witnessScript) ()
    · exact Column.eq_of_lookup_eq (h .bip32Derivations)
    · exact congrFun (h .finalScriptSig) ()
    · exact congrFun (h .finalScriptWitness) ()
    · exact Column.eq_of_lookup_eq (h .ripemd160Preimages)
    · exact Column.eq_of_lookup_eq (h .sha256Preimages)
    · exact Column.eq_of_lookup_eq (h .hash160Preimages)
    · exact Column.eq_of_lookup_eq (h .hash256Preimages)
    · exact congrFun (h .tapKeySig) ()
    · exact Column.eq_of_lookup_eq (h .tapScriptSigs)
    · exact Column.eq_of_lookup_eq (h .tapScripts)
    · exact Column.eq_of_lookup_eq (h .tapKeyOrigins)
    · exact congrFun (h .tapInternalKey) ()
    · exact congrFun (h .tapMerkleRoot) ()
    · exact Column.eq_of_lookup_eq (h .spEcdhShares)
    · exact Column.eq_of_lookup_eq (h .spDleqProofs)
    · exact Column.eq_of_lookup_eq (h .proprietaries)
    · exact Column.eq_of_lookup_eq (h .unknowns)
  lookup_empty := lookup_empty
  nodup_order := (by decide : order.Nodup)
  mem_order := mem_order

section

variable [LawfulCodecs]

theorem valueCodec (c : Field) : ValueCodec (valueDecoderOf c) (encodeValue c) := by
  cases c with
  | previousTxid => exact valueCodec_txid.mapErr
  | spentOutputIndex => exact valueCodec_vout.mapErr
  | sequence => exact (ValueCodec.of_codec LawfulCodecs.sequence_lawful fun _ => rfl).mapErr
  | minTime => exact valueCodec_time.mapErr
  | minHeight => exact valueCodec_requiredHeight.mapErr
  | nonWitnessUtxo =>
      exact (ValueCodec.of_codec LawfulCodecs.transaction_lawful LawfulCodecs.totalSize_eq).mapErr
  | witnessUtxo => exact (ValueCodec.of_codec LawfulCodecs.txOut_lawful fun _ => rfl).mapErr
  | partialSigs => exact valueCodec_ecdsaSignature.mapErr
  | sighashType => exact valueCodec_sighashType.mapErr
  | redeemScript => exact valueCodec_byteVec.mapErr
  | witnessScript => exact valueCodec_byteVec.mapErr
  | bip32Derivations => exact valueCodec_keySource.mapErr
  | finalScriptSig => exact valueCodec_byteVec.mapErr
  | finalScriptWitness =>
      exact (ValueCodec.of_codec LawfulCodecs.witness_lawful LawfulCodecs.witnessSize_eq).mapErr
  | ripemd160Preimages => exact valueCodec_byteVec.mapErr
  | sha256Preimages => exact valueCodec_byteVec.mapErr
  | hash160Preimages => exact valueCodec_byteVec.mapErr
  | hash256Preimages => exact valueCodec_byteVec.mapErr
  | tapKeySig => exact valueCodec_taprootSignature.mapErr
  | tapScriptSigs => exact valueCodec_taprootSignature.mapErr
  | tapScripts => exact valueCodec_leafScript.mapErr
  | tapKeyOrigins => exact valueCodec_tapKeyOrigin.mapErr
  | tapInternalKey => exact valueCodec_xOnly.mapErr
  | tapMerkleRoot => exact valueCodec_tapNodeHash.mapErr
  | spEcdhShares => exact valueCodec_compressed.mapErr
  | spDleqProofs => exact valueCodec_dleqProof.mapErr
  | proprietaries => exact valueCodec_byteVec.mapErr
  | unknowns => exact valueCodec_byteVec.mapErr

theorem hasKeyCodec [TxidHash] {c : Field} (hproprietary : c ≠ .proprietaries)
    (hunknown : c ≠ .unknowns) : codec.HasKeyCodec c := by
  cases c with
  | proprietaries => exact absurd rfl hproprietary
  | unknowns => exact absurd rfl hunknown
  | previousTxid => exact ⟨0x0E, _, keyCodec_unit, by decide, fun _ => ⟨rfl, rfl⟩⟩
  | spentOutputIndex => exact ⟨0x0F, _, keyCodec_unit, by decide, fun _ => ⟨rfl, rfl⟩⟩
  | sequence => exact ⟨0x10, _, keyCodec_unit, by decide, fun _ => ⟨rfl, rfl⟩⟩
  | minTime => exact ⟨0x11, _, keyCodec_unit, by decide, fun _ => ⟨rfl, rfl⟩⟩
  | minHeight => exact ⟨0x12, _, keyCodec_unit, by decide, fun _ => ⟨rfl, rfl⟩⟩
  | nonWitnessUtxo => exact ⟨0x00, _, keyCodec_unit, by decide, fun _ => ⟨rfl, rfl⟩⟩
  | witnessUtxo => exact ⟨0x01, _, keyCodec_unit, by decide, fun _ => ⟨rfl, rfl⟩⟩
  | partialSigs => exact ⟨0x02, _, keyCodec_publicKey _, by decide, fun _ => ⟨rfl, rfl⟩⟩
  | sighashType => exact ⟨0x03, _, keyCodec_unit, by decide, fun _ => ⟨rfl, rfl⟩⟩
  | redeemScript => exact ⟨0x04, _, keyCodec_unit, by decide, fun _ => ⟨rfl, rfl⟩⟩
  | witnessScript => exact ⟨0x05, _, keyCodec_unit, by decide, fun _ => ⟨rfl, rfl⟩⟩
  | bip32Derivations => exact ⟨0x06, _, keyCodec_publicKey _, by decide, fun _ => ⟨rfl, rfl⟩⟩
  | finalScriptSig => exact ⟨0x07, _, keyCodec_unit, by decide, fun _ => ⟨rfl, rfl⟩⟩
  | finalScriptWitness => exact ⟨0x08, _, keyCodec_unit, by decide, fun _ => ⟨rfl, rfl⟩⟩
  | ripemd160Preimages => exact ⟨0x0A, _, keyCodec_hash 20 _, by decide, fun _ => ⟨rfl, rfl⟩⟩
  | sha256Preimages => exact ⟨0x0B, _, keyCodec_hash 32 _, by decide, fun _ => ⟨rfl, rfl⟩⟩
  | hash160Preimages => exact ⟨0x0C, _, keyCodec_hash 20 _, by decide, fun _ => ⟨rfl, rfl⟩⟩
  | hash256Preimages => exact ⟨0x0D, _, keyCodec_hash 32 _, by decide, fun _ => ⟨rfl, rfl⟩⟩
  | tapKeySig => exact ⟨0x13, _, keyCodec_unit, by decide, fun _ => ⟨rfl, rfl⟩⟩
  | tapScriptSigs => exact ⟨0x14, _, keyCodec_tapScriptSig _, by decide, fun _ => ⟨rfl, rfl⟩⟩
  | tapScripts => exact ⟨0x15, _, keyCodec_controlBlock _, by decide, fun _ => ⟨rfl, rfl⟩⟩
  | tapKeyOrigins => exact ⟨0x16, _, keyCodec_xOnly _, by decide, fun _ => ⟨rfl, rfl⟩⟩
  | tapInternalKey => exact ⟨0x17, _, keyCodec_unit, by decide, fun _ => ⟨rfl, rfl⟩⟩
  | tapMerkleRoot => exact ⟨0x18, _, keyCodec_unit, by decide, fun _ => ⟨rfl, rfl⟩⟩
  | spEcdhShares => exact ⟨0x1D, _, keyCodec_scanKey _, by decide, fun _ => ⟨rfl, rfl⟩⟩
  | spDleqProofs => exact ⟨0x1E, _, keyCodec_scanKey _, by decide, fun _ => ⟨rfl, rfl⟩⟩

theorem rewrites [TxidHash] {c : Field} {key : Key} {k : FieldKey c} (h : codec.ReadsKey c key k) :
    codec.ReadsKey c (rawKey c k) k ∧ (rawKey c k).body.length ≤ key.body.length := by
  by_cases hproprietary : c = .proprietaries
  · subst hproprietary
    exact h.rewrites_self (proprietaryOfKey_eq_ok.mp h.entryKey).1.symm
  · by_cases hunknown : c = .unknowns
    · subst hunknown
      exact h.rewrites_self (Except.ok.inj h.entryKey).symm
    · exact (hasKeyCodec hproprietary hunknown).rewrites h

theorem returns_entryKey [TxidHash] (c : Field) (key : Key) : (entryKey c key).Returns := by
  by_cases hproprietary : c = .proprietaries
  · subst hproprietary
    exact returns_proprietaryOfKey _ key
  · by_cases hunknown : c = .unknowns
    · subst hunknown
      trivial
    · exact (hasKeyCodec hproprietary hunknown).returns_entryKey key

omit [LawfulCodecs] in
theorem closes_store (c : Field) (key : Key) (m : Fields) :
    (valueDecoderOf c).Closes fun ended => store c key ended m :=
  closes_storeEntry (T := table) _

omit [LawfulCodecs] in
theorem store_eq_ok {c : Field} {key : Key} {v : FieldValue c} {m m' : Fields} :
    store c key (.ok v) m = .ok m' ↔ True ∧ ∃ k, entryKey c key = .ok k ∧
      table.insertNew () m ⟨c, k, v⟩ = .ok m' :=
  (storeEntry_eq_ok (T := table)).trans (and_iff_right trivial).symm

omit [LawfulCodecs] in
theorem returns_fromKey (key : Key) : (fromKey key).Returns := by
  unfold fromKey
  repeat' first | exact trivial | apply Result.Returns.ite

omit [LawfulCodecs] in
theorem returns_finish (m : Fields) : m.finish.Returns := by
  apply Result.Returns.bind (Result.returns_okOr _ _)
  intro previousTxid _
  apply Result.Returns.bind (Result.returns_okOr _ _)
  intro spentOutputIndex _
  exact Result.Returns.ite trivial trivial

omit [LawfulCodecs] in
theorem returns_checkNonWitnessUtxo [TxidHash] (self : Input) :
    self.checkNonWitnessUtxo.Returns := by
  unfold checkNonWitnessUtxo
  split
  · trivial
  · exact Result.Returns.ite trivial trivial

/-- The decoder and the encoder of an input map match field by field. -/
theorem lawful_codec [TxidHash] : codec.Lawful where
  table := lawful_table
  codec := valueCodec
  closes := closes_store
  store_eq_ok := store_eq_ok
  rewrites := rewrites
  returns_store c key v _ := returns_storeEntry (T := table) (returns_entryKey c key) v
  returns_fromKey := returns_fromKey
  returns_finish := returns_finish
  returns_atEnd := returns_checkNonWitnessUtxo

/-! ## Round trip -/

/-- No unknown key has a type that the decoder recognises. -/
def UnknownKeys (self : Input) : Prop :=
  ∀ key ∈ self.unknowns, fromKey key = .ok .unknowns

/-- All keys and values are inside the limits of the decoder. -/
def Fits (self : Input) : Prop :=
  ∀ e ∈ table.entries self.fields,
    (rawKey e.col e.key).body.length ≤ compactSizeLimit ∧ InLimit (encodeValue e.col) e.value

/-- The fields that have a state of the encoder. -/
def present (self : Input) : Field → Bool
  | .sequence => self.sequence.isSome
  | .minTime => self.minTime.isSome
  | .minHeight => self.minHeight.isSome
  | .nonWitnessUtxo => self.nonWitnessUtxo.isSome
  | .witnessUtxo => self.witnessUtxo.isSome
  | .sighashType => self.sighashType.isSome
  | .redeemScript => self.redeemScript.isSome
  | .witnessScript => self.witnessScript.isSome
  | .finalScriptSig => self.finalScriptSig.isSome
  | .finalScriptWitness => self.finalScriptWitness.isSome
  | .tapKeySig => self.tapKeySig.isSome
  | .tapInternalKey => self.tapInternalKey.isSome
  | .tapMerkleRoot => self.tapMerkleRoot.isSome
  | _ => true

omit [LawfulCodecs] in
/-- The encoder visits every field. -/
theorem visits [TxidHash] (self : Input) :
    codec.Visits self.fields self.nextState (.group .previousTxid) self.present order where
  nodup := (by decide : order.Nodup)
  chained := by repeat' constructor
  start := rfl
  skipped c hc := by
    cases c with
    | sequence => exact Column.option_rows_eq_nil (Option.isSome_eq_false_iff.mp hc)
    | minTime => exact Column.option_rows_eq_nil (Option.isSome_eq_false_iff.mp hc)
    | minHeight => exact Column.option_rows_eq_nil (Option.isSome_eq_false_iff.mp hc)
    | nonWitnessUtxo => exact Column.option_rows_eq_nil (Option.isSome_eq_false_iff.mp hc)
    | witnessUtxo => exact Column.option_rows_eq_nil (Option.isSome_eq_false_iff.mp hc)
    | sighashType => exact Column.option_rows_eq_nil (Option.isSome_eq_false_iff.mp hc)
    | redeemScript => exact Column.option_rows_eq_nil (Option.isSome_eq_false_iff.mp hc)
    | witnessScript => exact Column.option_rows_eq_nil (Option.isSome_eq_false_iff.mp hc)
    | finalScriptSig => exact Column.option_rows_eq_nil (Option.isSome_eq_false_iff.mp hc)
    | finalScriptWitness => exact Column.option_rows_eq_nil (Option.isSome_eq_false_iff.mp hc)
    | tapKeySig => exact Column.option_rows_eq_nil (Option.isSome_eq_false_iff.mp hc)
    | tapInternalKey => exact Column.option_rows_eq_nil (Option.isSome_eq_false_iff.mp hc)
    | tapMerkleRoot => exact Column.option_rows_eq_nil (Option.isSome_eq_false_iff.mp hc)
    | _ => cases hc
  rest c hc := absurd (mem_order c) hc

omit [LawfulCodecs] in
theorem finish_eq_ok {m : Fields} {self : Input} : m.finish = .ok self ↔
    self.spEcdhShares.isEmpty = self.spDleqProofs.isEmpty ∧ m = self.fields := by
  constructor
  · intro h
    rcases Result.bind_eq_ok.mp h with ⟨previousTxid, htxid, h⟩
    rcases Result.bind_eq_ok.mp h with ⟨spentOutputIndex, hvout, h⟩
    split at h
    · cases h
    · rename_i hpaired
      cases h
      refine ⟨not_not.mp hpaired, ?_⟩
      rw [Result.okOr_eq_ok] at htxid hvout
      simp only [fields, ← htxid, ← hvout]
  · rintro ⟨hpaired, rfl⟩
    exact if_neg (not_not.mpr hpaired)

omit [BitcoinCodecs] [LawfulCodecs] in
theorem checkNonWitnessUtxo_eq_ok [BitcoinCodecs] [TxidHash] {self out : Input} :
    self.checkNonWitnessUtxo = .ok out ↔
      (∀ tx, self.nonWitnessUtxo = some tx → computeTxid tx = self.previousTxid) ∧ self = out := by
  unfold checkNonWitnessUtxo
  cases self.nonWitnessUtxo with
  | none => simp
  | some tx =>
      by_cases htxid : computeTxid tx = self.previousTxid
      · simp [htxid]
      · simp [htxid]

/-- What is written for a key is read as the key. -/
theorem readsKey_rawKey [TxidHash] {c : Field} {k : FieldKey c}
    (hle : (rawKey c k).body.length ≤ compactSizeLimit)
    (hunknowns : c = .unknowns → fromKey (rawKey c k) = .ok c) :
    codec.ReadsKey c (rawKey c k) k := by
  by_cases hproprietary : c = .proprietaries
  · subst hproprietary
    exact ⟨rfl, proprietaryOfKey_eq_ok.mpr ⟨rfl, k.length_pfx_le.trans hle⟩⟩
  · by_cases hunknown : c = .unknowns
    · subst hunknown
      exact ⟨hunknowns rfl, rfl⟩
    · exact (hasKeyCodec hproprietary hunknown).readsKey_rawKey

/-- What the decoder of version 2 requires of an input map. -/
structure WellFormed [TxidHash] (i : Input) : Prop where
  nonWitnessUtxo : ∀ tx, i.nonWitnessUtxo = some tx → computeTxid tx = i.previousTxid
  spPaired : i.spEcdhShares.isEmpty = i.spDleqProofs.isEmpty
  unknownKeys : i.UnknownKeys

/-- The entries of a well-formed input map inside the limits are read as they are. -/
theorem admits_iff [TxidHash] {self : Input} :
    (∀ e ∈ table.entries self.fields, codec.Admits e) ↔ self.UnknownKeys ∧ self.Fits := by
  refine (codec.admits_iff lawful_table .unknowns fun _ _ => readsKey_rawKey).trans ?_
  constructor
  · rintro ⟨hunknown, hfits, -⟩
    exact ⟨fun key hkey => hunknown key (Std.ExtTreeMap.mem_iff_isSome_getElem?.mp hkey), hfits⟩
  · rintro ⟨hunknown, hfits⟩
    exact ⟨fun key hkey => hunknown key (Std.ExtTreeMap.mem_iff_isSome_getElem?.mpr hkey), hfits,
      fun _ _ => trivial⟩

omit [LawfulCodecs] in
/-- The fields of a well-formed input map finish to the map. -/
theorem finish_fields [TxidHash] {self : Input} (h : self.WellFormed) :
    (self.fields.finish >>= checkNonWitnessUtxo) = .ok self := by
  have hfinish : self.fields.finish = .ok self := finish_eq_ok.mpr ⟨h.spPaired, rfl⟩
  have hcheck : self.checkNonWitnessUtxo = .ok self :=
    checkNonWitnessUtxo_eq_ok.mpr ⟨h.nonWitnessUtxo, rfl⟩
  rw [hfinish]
  exact hcheck

/-- A well-formed input map decodes from its encoding. -/
theorem decodes_encode [TxidHash] {self : Input} (h : self.WellFormed) (hfits : self.Fits) :
    decoder.Decodes self.encode self :=
  lawful_codec.decodes_encode self.visits (admits_iff.mpr ⟨h.unknownKeys, hfits⟩)
    (finish_fields h)

/-- A decoded input map is well-formed. -/
theorem wellFormed_of_accepts [TxidHash] {b r : Bytes} {self : Input}
    (h : decoder.Accepts b self r) : self.WellFormed ∧ self.Fits := by
  rcases lawful_codec.exists_admits h with ⟨m, hadmits, hout⟩
  rcases Result.bind_eq_ok.mp hout with ⟨i, hfinish, hcheck⟩
  rcases checkNonWitnessUtxo_eq_ok.mp hcheck with ⟨hutxo, rfl⟩
  rcases finish_eq_ok.mp hfinish with ⟨hpaired, rfl⟩
  rcases admits_iff.mp hadmits with ⟨hunknown, hfits⟩
  exact ⟨⟨hutxo, hpaired, hunknown⟩, hfits⟩

end

end Input

end RustPsbt

