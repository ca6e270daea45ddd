import RustPsbt.Map.InputCodec

/-!
# Input maps of version 0

`InputMapDecoder` and `InputMapEncoder` of `map::v0::input`.  The decoder collects the
fields of version 2 without those that come from the unsigned transaction; the stages decode
values as in version 2.

Main results:

- Theorem `InputV0.lawful_codec`: the decoder and the encoder match field by field.
- Theorem `InputV0.admits_iff`: which input maps are decoded from what is written for their
  fields.
- Theorem `InputV0.decodes_encode`: such an input map decodes from its encoding.
-/

namespace RustPsbt

variable [BitcoinTypes] [BitcoinCodecs]

/-- `InputV0`: what an input map of version 0 carries of an input. -/
structure InputV0 where
  nonWitnessUtxo : Option Transaction
  witnessUtxo : Option TxOut
  partialSigs : BTreeMap PublicKey EcdsaSignature
  sighashType : Option PsbtSighashType
  redeemScript : Option ScriptBuf
  witnessScript : Option ScriptBuf
  bip32Derivations : BTreeMap PublicKey KeySource
  finalScriptSig : Option ScriptBuf
  finalScriptWitness : Option Witness
  ripemd160Preimages : BTreeMap (U8Array 20) Bytes
  sha256Preimages : BTreeMap (U8Array 32) Bytes
  hash160Preimages : BTreeMap (U8Array 20) Bytes
  hash256Preimages : BTreeMap (U8Array 32) Bytes
  tapKeySig : Option TaprootSignature
  tapScriptSigs : BTreeMap (XOnlyPublicKey × TapLeafHash) TaprootSignature
  tapScripts : BTreeMap ControlBlock TapLeafScript
  tapKeyOrigins : BTreeMap XOnlyPublicKey TapKeyOrigin
  tapInternalKey : Option XOnlyPublicKey
  tapMerkleRoot : Option TapNodeHash
  spEcdhShares : BTreeMap CompressedPublicKey CompressedPublicKey
  spDleqProofs : BTreeMap CompressedPublicKey DleqProof
  proprietaries : BTreeMap ProprietaryKey Bytes
  unknowns : BTreeMap Key Bytes

namespace InputV0

/-- `InputV0::into_input`. -/
def intoInput (self : InputV0) (txid : Txid) (vout : UInt32) (sequence : Sequence) : Input where
  previousTxid := txid
  spentOutputIndex := vout
  sequence := some sequence
  minTime := none
  minHeight := none
  nonWitnessUtxo := self.nonWitnessUtxo
  witnessUtxo := self.witnessUtxo
  partialSigs := self.partialSigs
  sighashType := self.sighashType
  redeemScript := self.redeemScript
  witnessScript := self.witnessScript
  bip32Derivations := self.bip32Derivations
  finalScriptSig := self.finalScriptSig
  finalScriptWitness := self.finalScriptWitness
  ripemd160Preimages := self.ripemd160Preimages
  sha256Preimages := self.sha256Preimages
  hash160Preimages := self.hash160Preimages
  hash256Preimages := self.hash256Preimages
  tapKeySig := self.tapKeySig
  tapScriptSigs := self.tapScriptSigs
  tapScripts := self.tapScripts
  tapKeyOrigins := self.tapKeyOrigins
  tapInternalKey := self.tapInternalKey
  tapMerkleRoot := self.tapMerkleRoot
  spEcdhShares := self.spEcdhShares
  spDleqProofs := self.spDleqProofs
  proprietaries := self.proprietaries
  unknowns := self.unknowns

/-! ## Decoder -/

/-- The key types that the last arm of `InputStage::from_key` refuses with key data. -/
def unkeyed (typeValue : UInt64) : Bool :=
  typeValue == 0x00 || typeValue == 0x01 || typeValue == 0x03 || typeValue == 0x04 ||
    typeValue == 0x05 || typeValue == 0x07 || typeValue == 0x08 || typeValue == 0x13 ||
    typeValue == 0x17 || typeValue == 0x18 || typeValue == 0x0A || typeValue == 0x0B ||
    typeValue == 0x0C || typeValue == 0x0D || typeValue == 0xFC

/-- `InputStage::from_key`. -/
def fromKey (key : Key) : Result Input.DecodeError Input.Field :=
  if key.typeValue = 0x00 ∧ key.key = [] then .ok .nonWitnessUtxo
  else if key.typeValue = 0x01 ∧ key.key = [] then .ok .witnessUtxo
  else if key.typeValue = 0x03 ∧ key.key = [] then .ok .sighashType
  else if key.typeValue = 0x04 ∧ key.key = [] then .ok .redeemScript
  else if key.typeValue = 0x05 ∧ key.key = [] then .ok .witnessScript
  else if key.typeValue = 0x07 ∧ key.key = [] then .ok .finalScriptSig
  else if key.typeValue = 0x08 ∧ key.key = [] then .ok .finalScriptWitness
  else if key.typeValue = 0x13 ∧ key.key = [] then .ok .tapKeySig
  else if key.typeValue = 0x17 ∧ key.key = [] then .ok .tapInternalKey
  else if key.typeValue = 0x18 ∧ key.key = [] then .ok .tapMerkleRoot
  -- the keys of preimages and of proprietary fields always have key data
  else if key.typeValue = 0x0A ∧ key.key = [] then .ok .ripemd160Preimages
  else if key.typeValue = 0x0B ∧ key.key = [] then .ok .sha256Preimages
  else if key.typeValue = 0x0C ∧ key.key = [] then .ok .hash160Preimages
  else if key.typeValue = 0x0D ∧ key.key = [] then .ok .hash256Preimages
  else if key.typeValue = 0xFC ∧ key.key = [] then .ok .proprietaries
  else if key.typeValue = 0x02 then .ok .partialSigs
  else if key.typeValue = 0x06 then .ok .bip32Derivations
  else if key.typeValue = 0x14 then .ok .tapScriptSigs
  else if key.typeValue = 0x15 then .ok .tapScripts
  else if key.typeValue = 0x16 then .ok .tapKeyOrigins
  else if key.typeValue = 0x1D then .ok .spEcdhShares
  else if key.typeValue = 0x1E then .ok .spDleqProofs
  else if unkeyed key.typeValue && !key.key.isEmpty then
    .err (.keyDecode (.invalidKeyData key))
  else .ok .unknowns

/-- How the arms read the key data; the stages without keys ignore it. -/
def entryKey : (c : Input.Field) → Key → Result Input.DecodeError (Input.FieldKey c)
  | .previousTxid => fun _ => .ok ()
  | .spentOutputIndex => fun _ => .ok ()
  | .sequence => fun _ => .ok ()
  | .minTime => fun _ => .ok ()
  | .minHeight => fun _ => .ok ()
  | .nonWitnessUtxo => fun _ => .ok ()
  | .witnessUtxo => fun _ => .ok ()
  | .partialSigs => publicKeyOfKey .invalidPublicKey
  | .sighashType => fun _ => .ok ()
  | .redeemScript => fun _ => .ok ()
  | .witnessScript => fun _ => .ok ()
  | .bip32Derivations => publicKeyOfKey .invalidPublicKey
  | .finalScriptSig => fun _ => .ok ()
  | .finalScriptWitness => fun _ => .ok ()
  | .ripemd160Preimages => hashOfKey 20 .invalidHash
  | .sha256Preimages => hashOfKey 32 .invalidHash
  | .hash160Preimages => hashOfKey 20 .invalidHash
  | .hash256Preimages => hashOfKey 32 .invalidHash
  | .tapKeySig => fun _ => .ok ()
  | .tapScriptSigs => tapScriptSigOfKey Input.invalidKeyData
  | .tapScripts => controlBlockOfKey .invalidControlBlock
  | .tapKeyOrigins => xOnlyOfKey Input.invalidKeyData
  | .tapInternalKey => fun _ => .ok ()
  | .tapMerkleRoot => fun _ => .ok ()
  | .spEcdhShares => compressedOfKey Input.invalidKeyData
  | .spDleqProofs => compressedOfKey Input.invalidKeyData
  | .proprietaries => proprietaryOfKey (.keyDecode .invalidProprietaryKey)
  | .unknowns => fun key => .ok key

/-- The transition at the end of a value; the arm of `DecodingProprietary` makes its
duplicate error from the key that it has read. -/
def store : (c : Input.Field) → Key → Result Input.DecodeError (Input.FieldValue c) →
    Input.Fields → Result Input.DecodeError Input.Fields
  | .proprietaries, key, ended, m =>
      storeRead Input.table .proprietaries (fun propKey => .duplicateKey propKey.toKey)
        (entryKey .proprietaries key) ended m
  | c, key, ended, m => storeEntry Input.table (.duplicateKey key) c (entryKey c key) ended m

/-- The transition at the separator: nothing is checked. -/
def finish (m : Input.Fields) : Result Input.DecodeError InputV0 :=
  .ok {
    nonWitnessUtxo := m.nonWitnessUtxo
    witnessUtxo := m.witnessUtxo
    partialSigs := m.partialSigs
    sighashType := m.sighashType
    redeemScript := m.redeemScript
    witnessScript := m.witnessScript
    bip32Derivations := m.bip32Derivations
    finalScriptSig := m.finalScriptSig
    finalScriptWitness := m.finalScriptWitness
    ripemd160Preimages := m.ripemd160Preimages
    sha256Preimages := m.sha256Preimages
    hash160Preimages := m.hash160Preimages
    hash256Preimages := m.hash256Preimages
    tapKeySig := m.tapKeySig
    tapScriptSigs := m.tapScriptSigs
    tapScripts := m.tapScripts
    tapKeyOrigins := m.tapKeyOrigins
    tapInternalKey := m.tapInternalKey
    tapMerkleRoot := m.tapMerkleRoot
    spEcdhShares := m.spEcdhShares
    spDleqProofs := m.spDleqProofs
    proprietaries := m.proprietaries
    unknowns := m.unknowns }

/-- The decoder and the encoder of an input map. -/
def codec : MapCodec Input.DecodeError Input.Fields InputV0 where
  table := Input.table
  decoder := Input.valueDecoderOf
  fromKey := fromKey
  entryKey := entryKey
  Allowed _ _ := True
  store := store
  finish := finish
  atEnd := .ok
  keyDecode := .keyDecode
  earlyEnd := .earlyEnd
  rawKey := Input.rawKey
  encodeValue := Input.encodeValue
  Fits c := InLimit (Input.encodeValue c)

/-- `InputMapDecoder`. -/
def decoder : PushDecoder UInt8 Input.DecodeError InputV0 :=
  codec.mapDecoder

/-! ## Encoder -/

/-- The part of an input that an input map of version 0 carries. -/
def ofInput (i : Input) : InputV0 where
  nonWitnessUtxo := i.nonWitnessUtxo
  witnessUtxo := i.witnessUtxo
  partialSigs := i.partialSigs
  sighashType := i.sighashType
  redeemScript := i.redeemScript
  witnessScript := i.witnessScript
  bip32Derivations := i.bip32Derivations
  finalScriptSig := i.finalScriptSig
  finalScriptWitness := i.finalScriptWitness
  ripemd160Preimages := i.ripemd160Preimages
  sha256Preimages := i.sha256Preimages
  hash160Preimages := i.hash160Preimages
  hash256Preimages := i.hash256Preimages
  tapKeySig := i.tapKeySig
  tapScriptSigs := i.tapScriptSigs
  tapScripts := i.tapScripts
  tapKeyOrigins := i.tapKeyOrigins
  tapInternalKey := i.tapInternalKey
  tapMerkleRoot := i.tapMerkleRoot
  spEcdhShares := i.spEcdhShares
  spDleqProofs := i.spDleqProofs
  proprietaries := i.proprietaries
  unknowns := i.unknowns

/-- The fields that decode into an input map. -/
def toFields (self : InputV0) : Input.Fields where
  previousTxid := none
  spentOutputIndex := none
  sequence := none
  minTime := none
  minHeight := none
  nonWitnessUtxo := self.nonWitnessUtxo
  witnessUtxo := self.witnessUtxo
  partialSigs := self.partialSigs
  sighashType := self.sighashType
  redeemScript := self.redeemScript
  witnessScript := self.witnessScript
  bip32Derivations := self.bip32Derivations
  finalScriptSig := self.finalScriptSig
  finalScriptWitness := self.finalScriptWitness
  ripemd160Preimages := self.ripemd160Preimages
  sha256Preimages := self.sha256Preimages
  hash160Preimages := self.hash160Preimages
  hash256Preimages := self.hash256Preimages
  tapKeySig := self.tapKeySig
  tapScriptSigs := self.tapScriptSigs
  tapScripts := self.tapScripts
  tapKeyOrigins := self.tapKeyOrigins
  tapInternalKey := self.tapInternalKey
  tapMerkleRoot := self.tapMerkleRoot
  spEcdhShares := self.spEcdhShares
  spDleqProofs := self.spDleqProofs
  proprietaries := self.proprietaries
  unknowns := self.unknowns

/-- The fields that an encoder of the input has. -/
def fields (i : Input) : Input.Fields :=
  (ofInput i).toFields

/-- `InputMapEncoder::dleq_or_next`. -/
def dleqOrNext (i : Input) : Option (EncoderState Input.Field) :=
  if !i.spDleqProofs.isEmpty then some (.group .spDleqProofs) else some .separator

/-- `InputMapEncoder::ecdh_or_next`. -/
def ecdhOrNext (i : Input) : Option (EncoderState Input.Field) :=
  if !i.spEcdhShares.isEmpty then some (.group .spEcdhShares) else dleqOrNext i

/-- `InputMapEncoder::unknowns_or_next`. -/
def unknownsOrNext (i : Input) : Option (EncoderState Input.Field) :=
  if !i.unknowns.isEmpty then some (.group .unknowns) else ecdhOrNext i

/-- `InputMapEncoder::proprietaries_or_next`. -/
def proprietariesOrNext (i : Input) : Option (EncoderState Input.Field) :=
  if !i.proprietaries.isEmpty then some (.group .proprietaries) else unknownsOrNext i

/-- `InputMapEncoder::tap_merkle_root_or_next`. -/
def tapMerkleRootOrNext (i : Input) : Option (EncoderState Input.Field) :=
  if i.tapMerkleRoot.isSome then some (.group .tapMerkleRoot) else proprietariesOrNext i

/-- `InputMapEncoder::tap_internal_key_or_next`. -/
def tapInternalKeyOrNext (i : Input) : Option (EncoderState Input.Field) :=
  if i.tapInternalKey.isSome then some (.group .tapInternalKey) else tapMerkleRootOrNext i

/-- `InputMapEncoder::tap_key_origins_or_next`. -/
def tapKeyOriginsOrNext (i : Input) : Option (EncoderState Input.Field) :=
  if !i.tapKeyOrigins.isEmpty then some (.group .tapKeyOrigins) else tapInternalKeyOrNext i

/-- `InputMapEncoder::tap_scripts_or_next`. -/
def tapScriptsOrNext (i : Input) : Option (EncoderState Input.Field) :=
  if !i.tapScripts.isEmpty then some (.group .tapScripts) else tapKeyOriginsOrNext i

/-- `InputMapEncoder::tap_script_sigs_or_next`. -/
def tapScriptSigsOrNext (i : Input) : Option (EncoderState Input.Field) :=
  if !i.tapScriptSigs.isEmpty then some (.group .tapScriptSigs) else tapScriptsOrNext i

/-- `InputMapEncoder::tap_key_sig_or_next`. -/
def tapKeySigOrNext (i : Input) : Option (EncoderState Input.Field) :=
  if i.tapKeySig.isSome then some (.group .tapKeySig) else tapScriptSigsOrNext i

/-- `InputMapEncoder::hash256_or_next`. -/
def hash256OrNext (i : Input) : Option (EncoderState Input.Field) :=
  if !i.hash256Preimages.isEmpty then some (.group .hash256Preimages) else tapKeySigOrNext i

/-- `InputMapEncoder::hash160_or_next`. -/
def hash160OrNext (i : Input) : Option (EncoderState Input.Field) :=
  if !i.hash160Preimages.isEmpty then some (.group .hash160Preimages) else hash256OrNext i

/-- `InputMapEncoder::sha256_or_next`. -/
def sha256OrNext (i : Input) : Option (EncoderState Input.Field) :=
  if !i.sha256Preimages.isEmpty then some (.group .sha256Preimages) else hash160OrNext i

/-- `InputMapEncoder::ripemd160_or_next`. -/
def ripemd160OrNext (i : Input) : Option (EncoderState Input.Field) :=
  if !i.ripemd160Preimages.isEmpty then some (.group .ripemd160Preimages) else sha256OrNext i

/-- `InputMapEncoder::final_script_witness_or_next`. -/
def finalScriptWitnessOrNext (i : Input) : Option (EncoderState Input.Field) :=
  if i.finalScriptWitness.isSome then some (.group .finalScriptWitness) else ripemd160OrNext i

/-- `InputMapEncoder::final_script_sig_or_next`. -/
def finalScriptSigOrNext (i : Input) : Option (EncoderState Input.Field) :=
  if i.finalScriptSig.isSome then some (.group .finalScriptSig) else finalScriptWitnessOrNext i

/-- `InputMapEncoder::bip32_or_next`. -/
def bip32OrNext (i : Input) : Option (EncoderState Input.Field) :=
  if !i.bip32Derivations.isEmpty then some (.group .bip32Derivations) else finalScriptSigOrNext i

/-- `InputMapEncoder::witness_script_or_next`. -/
def witnessScriptOrNext (i : Input) : Option (EncoderState Input.Field) :=
  if i.witnessScript.isSome then some (.group .witnessScript) else bip32OrNext i

/-- `InputMapEncoder::redeem_script_or_next`. -/
def redeemScriptOrNext (i : Input) : Option (EncoderState Input.Field) :=
  if i.redeemScript.isSome then some (.group .redeemScript) else witnessScriptOrNext i

/-- `InputMapEncoder::sighash_or_next`. -/
def sighashOrNext (i : Input) : Option (EncoderState Input.Field) :=
  if i.sighashType.isSome then some (.group .sighashType) else redeemScriptOrNext i

/-- `InputMapEncoder::partial_sigs_or_next`. -/
def partialSigsOrNext (i : Input) : Option (EncoderState Input.Field) :=
  if !i.partialSigs.isEmpty then some (.group .partialSigs) else sighashOrNext i

/-- `InputMapEncoder::witness_utxo_or_next`. -/
def witnessUtxoOrNext (i : Input) : Option (EncoderState Input.Field) :=
  if i.witnessUtxo.isSome then some (.group .witnessUtxo) else partialSigsOrNext i

/-- `InputMapEncoder::non_witness_utxo_or_next`. -/
def nonWitnessUtxoOrNext (i : Input) : Option (EncoderState Input.Field) :=
  if i.nonWitnessUtxo.isSome then some (.group .nonWitnessUtxo) else witnessUtxoOrNext i

/-- `InputMapEncoder::next_state`. -/
def nextState (i : Input) : EncoderState Input.Field → Option (EncoderState Input.Field)
  | .group .nonWitnessUtxo => witnessUtxoOrNext i
  | .group .witnessUtxo => partialSigsOrNext i
  | .group .partialSigs => sighashOrNext i
  | .group .sighashType => redeemScriptOrNext i
  | .group .redeemScript => witnessScriptOrNext i
  | .group .witnessScript => bip32OrNext i
  | .group .bip32Derivations => finalScriptSigOrNext i
  | .group .finalScriptSig => finalScriptWitnessOrNext i
  | .group .finalScriptWitness => ripemd160OrNext i
  | .group .ripemd160Preimages => sha256OrNext i
  | .group .sha256Preimages => hash160OrNext i
  | .group .hash160Preimages => hash256OrNext i
  | .group .hash256Preimages => tapKeySigOrNext i
  | .group .tapKeySig => tapScriptSigsOrNext i
  | .group .tapScriptSigs => tapScriptsOrNext i
  | .group .tapScripts => tapKeyOriginsOrNext i
  | .group .tapKeyOrigins => tapInternalKeyOrNext i
  | .group .tapInternalKey => tapMerkleRootOrNext i
  | .group .tapMerkleRoot => proprietariesOrNext i
  | .group .proprietaries => unknownsOrNext i
  | .group .unknowns => ecdhOrNext i
  | .group .spEcdhShares => dleqOrNext i
  | .group .spDleqProofs => some .separator
  | _ => none

/-- The bytes of `InputMapEncoder`; its first state is the one that `new` selects. -/
def encode (i : Input) : Bytes :=
  codec.encode (fields i) (nextState i) ((nonWitnessUtxoOrNext i).getD .separator)

/-! ## The codec is lawful -/

section

variable [LawfulCodecs]

/-- The fields that come from the unsigned transaction. -/
def ofUnsignedTx : Input.Field → Bool
  | .previousTxid => true
  | .spentOutputIndex => true
  | .sequence => true
  | .minTime => true
  | .minHeight => true
  | _ => false

/-- The fields with keys whose stages take no key data. -/
def misguarded : Input.Field → Bool
  | .ripemd160Preimages => true
  | .sha256Preimages => true
  | .hash160Preimages => true
  | .hash256Preimages => true
  | .proprietaries => true
  | _ => false

omit [LawfulCodecs] in
/-- The fields of the unsigned transaction have no stage, and the stages of preimages and of
proprietary fields take no key data. -/
theorem of_fromKey_eq_ok {key : Key} {c : Input.Field} (h : fromKey key = .ok c) :
    ofUnsignedTx c = false ∧ (misguarded c = true → key.key = []) := by
  refine (?_ : ∀ c, fromKey key = .ok c → ofUnsignedTx c = false ∧
    (misguarded c = true → key.key = [])) c h
  unfold fromKey
  repeat' refine Result.forall_ok_ite (fun hkey => ?_) fun _ => ?_
  all_goals
    intro c hc
    cases hc
  all_goals first
    | exact ⟨rfl, fun _ => hkey.2⟩
    | exact ⟨rfl, nofun⟩

/-- No preimage and no proprietary field is read. -/
theorem not_readsKey_of_misguarded {c : Input.Field} (hc : misguarded c = true) {key : Key}
    {k : Input.FieldKey c} : ¬codec.ReadsKey c key k := by
  intro h
  have hempty := (of_fromKey_eq_ok h.fromKey).2 hc
  have hhash : ∀ {n : Nat} {hash : U8Array n}, 0 < n →
      hashOfKey n Input.DecodeError.invalidHash key = .ok hash → key.key ≠ [] := by
    intro n hash hn hread hnil
    have hlen := congrArg List.length (hnil.symm.trans (hashOfKey_eq_ok.mp hread))
    rw [hash.length_eq, List.length_nil] at hlen
    omega
  cases c with
  | ripemd160Preimages => exact hhash (by decide) h.entryKey hempty
  | sha256Preimages => exact hhash (by decide) h.entryKey hempty
  | hash160Preimages => exact hhash (by decide) h.entryKey hempty
  | hash256Preimages => exact hhash (by decide) h.entryKey hempty
  | proprietaries =>
      rw [(proprietaryOfKey_eq_ok.mp h.entryKey).1] at hempty
      exact k.bytes_ne_nil hempty
  | _ => cases hc

theorem hasKeyCodec {c : Input.Field} (hunsigned : ofUnsignedTx c = false)
    (hguard : misguarded c = false) (hunknown : c ≠ .unknowns) : codec.HasKeyCodec c := by
  cases c with
  | unknowns => exact absurd rfl hunknown
  | nonWitnessUtxo => exact ⟨0x00, _, keyCodec_unit, by decide, fun _ => ⟨rfl, rfl⟩⟩
  | witnessUtxo => exact ⟨0x01, _, keyCodec_unit, by decide, fun _ => ⟨rfl, rfl⟩⟩
  | partialSigs => exact ⟨0x02, _, keyCodec_publicKey _, by decide, fun _ => ⟨rfl, rfl⟩⟩
  | sighashType => exact ⟨0x03, _, keyCodec_unit, by decide, fun _ => ⟨rfl, rfl⟩⟩
  | redeemScript => exact ⟨0x04, _, keyCodec_unit, by decide, fun _ => ⟨rfl, rfl⟩⟩
  | witnessScript => exact ⟨0x05, _, keyCodec_unit, by decide, fun _ => ⟨rfl, rfl⟩⟩
  | bip32Derivations => exact ⟨0x06, _, keyCodec_publicKey _, by decide, fun _ => ⟨rfl, rfl⟩⟩
  | finalScriptSig => exact ⟨0x07, _, keyCodec_unit, by decide, fun _ => ⟨rfl, rfl⟩⟩
  | finalScriptWitness => exact ⟨0x08, _, keyCodec_unit, by decide, fun _ => ⟨rfl, rfl⟩⟩
  | tapKeySig => exact ⟨0x13, _, keyCodec_unit, by decide, fun _ => ⟨rfl, rfl⟩⟩
  | tapScriptSigs => exact ⟨0x14, _, keyCodec_tapScriptSig _, by decide, fun _ => ⟨rfl, rfl⟩⟩
  | tapScripts => exact ⟨0x15, _, keyCodec_controlBlock _, by decide, fun _ => ⟨rfl, rfl⟩⟩
  | tapKeyOrigins => exact ⟨0x16, _, keyCodec_xOnly _, by decide, fun _ => ⟨rfl, rfl⟩⟩
  | tapInternalKey => exact ⟨0x17, _, keyCodec_unit, by decide, fun _ => ⟨rfl, rfl⟩⟩
  | tapMerkleRoot => exact ⟨0x18, _, keyCodec_unit, by decide, fun _ => ⟨rfl, rfl⟩⟩
  | spEcdhShares => exact ⟨0x1D, _, keyCodec_compressed _, by decide, fun _ => ⟨rfl, rfl⟩⟩
  | spDleqProofs => exact ⟨0x1E, _, keyCodec_compressed _, by decide, fun _ => ⟨rfl, rfl⟩⟩
  | previousTxid => cases hunsigned
  | spentOutputIndex => cases hunsigned
  | sequence => cases hunsigned
  | minTime => cases hunsigned
  | minHeight => cases hunsigned
  | _ => cases hguard

theorem rewrites {c : Input.Field} {key : Key} {k : Input.FieldKey c}
    (h : codec.ReadsKey c key k) :
    codec.ReadsKey c (Input.rawKey c k) k ∧
      (Input.rawKey c k).body.length ≤ key.body.length := by
  by_cases hguard : misguarded c = true
  · exact absurd h (not_readsKey_of_misguarded hguard)
  · by_cases hunknown : c = .unknowns
    · subst hunknown
      exact h.rewrites_self (Except.ok.inj h.entryKey).symm
    · have hcodec := hasKeyCodec (of_fromKey_eq_ok h.fromKey).1 (eq_false_of_ne_true hguard) hunknown
      exact hcodec.rewrites h

theorem returns_entryKey (c : Input.Field) (key : Key) : (entryKey c key).Returns := by
  cases c with
  | partialSigs => exact (keyCodec_publicKey _).returns key
  | bip32Derivations => exact (keyCodec_publicKey _).returns key
  | ripemd160Preimages => exact (keyCodec_hash 20 _).returns key
  | sha256Preimages => exact (keyCodec_hash 32 _).returns key
  | hash160Preimages => exact (keyCodec_hash 20 _).returns key
  | hash256Preimages => exact (keyCodec_hash 32 _).returns key
  | tapScriptSigs => exact (keyCodec_tapScriptSig _).returns key
  | tapScripts => exact (keyCodec_controlBlock _).returns key
  | tapKeyOrigins => exact (keyCodec_xOnly _).returns key
  | spEcdhShares => exact (keyCodec_compressed _).returns key
  | spDleqProofs => exact (keyCodec_compressed _).returns key
  | proprietaries => exact returns_proprietaryOfKey _ key
  | _ => trivial

omit [LawfulCodecs] in
/-- All fields but the proprietary fields share one arm. -/
theorem store_eq {c : Input.Field} (hproprietary : c ≠ .proprietaries) (key : Key)
    (ended : Result Input.DecodeError (Input.FieldValue c)) (m : Input.Fields) :
    store c key ended m =
      storeEntry Input.table (.duplicateKey key) c (entryKey c key) ended m := by
  cases c with
  | proprietaries => exact absurd rfl hproprietary
  | _ => rfl

omit [LawfulCodecs] in
theorem closes_store (c : Input.Field) (key : Key) (m : Input.Fields) :
    (Input.valueDecoderOf c).Closes fun ended => store c key ended m := by
  by_cases hproprietary : c = .proprietaries
  · subst hproprietary
    exact closes_storeRead (T := Input.table) (c := .proprietaries) _
  · simp only [store_eq hproprietary]
    exact closes_storeEntry (T := Input.table) _

omit [LawfulCodecs] in
theorem store_eq_ok {c : Input.Field} {key : Key} {v : Input.FieldValue c}
    {m m' : Input.Fields} : store c key (.ok v) m = .ok m' ↔ True ∧
      ∃ k, entryKey c key = .ok k ∧ Input.table.insertNew () m ⟨c, k, v⟩ = .ok m' := by
  rw [true_and]
  by_cases hproprietary : c = .proprietaries
  · subst hproprietary
    exact storeRead_eq_ok (T := Input.table)
  · rw [store_eq hproprietary]
    exact storeEntry_eq_ok (T := Input.table)

theorem returns_store (c : Input.Field) (key : Key) (v : Input.FieldValue c)
    (m : Input.Fields) : (store c key (.ok v) m).Returns := by
  by_cases hproprietary : c = .proprietaries
  · subst hproprietary
    exact returns_storeRead (T := Input.table) (c := .proprietaries)
      (returns_entryKey .proprietaries key) v
  · rw [store_eq hproprietary]
    exact returns_storeEntry (T := Input.table) (returns_entryKey c key) v

omit [LawfulCodecs] in
theorem returns_fromKey (key : Key) : (fromKey key).Returns := by
  unfold fromKey
  repeat' first | exact trivial | apply Result.Returns.ite

/-- The decoder and the encoder of an input map match field by field. -/
theorem lawful_codec : codec.Lawful where
  table := Input.lawful_table
  codec := Input.valueCodec
  closes := closes_store
  store_eq_ok := store_eq_ok
  rewrites := rewrites
  returns_store := returns_store
  returns_fromKey := returns_fromKey
  returns_finish _ := trivial
  returns_atEnd _ := trivial

/-! ## Round trip -/

/-- No unknown key has a type that the decoder recognises. -/
def UnknownKeys (self : InputV0) : Prop :=
  ∀ key ∈ self.unknowns, fromKey key = .ok .unknowns

/-- All keys and values are inside the limits of the decoder. -/
def Fits (self : InputV0) : Prop :=
  ∀ e ∈ Input.table.entries self.toFields,
    (Input.rawKey e.col e.key).body.length ≤ compactSizeLimit ∧
      InLimit (Input.encodeValue e.col) e.value

/-- There is no preimage and no proprietary field. -/
structure Unguarded (v : InputV0) : Prop where
  ripemd160Preimages : v.ripemd160Preimages.isEmpty
  sha256Preimages : v.sha256Preimages.isEmpty
  hash160Preimages : v.hash160Preimages.isEmpty
  hash256Preimages : v.hash256Preimages.isEmpty
  proprietaries : v.proprietaries.isEmpty

/-- A field that is not read is empty when all entries are read. -/
theorem isEmpty_of_admits {self : InputV0} {c : Input.Field} (hc : misguarded c = true)
    (h : ∀ e ∈ Input.table.entries self.toFields, codec.Admits e) (k : Input.FieldKey c) :
    (Input.column c).lookup self.toFields k = none := by
  by_contra hsome
  obtain ⟨value, hvalue⟩ := Option.ne_none_iff_exists'.mp hsome
  have hadmits := h ⟨c, k, value⟩ (Input.lawful_table.mem_entries.mpr hvalue)
  exact not_readsKey_of_misguarded hc hadmits.readsKey

omit [BitcoinCodecs] [LawfulCodecs] in
theorem Unguarded.lookup_eq_none {self : InputV0} (h : self.Unguarded) {c : Input.Field}
    (hc : misguarded c = true) (k : Input.FieldKey c) :
    (Input.column c).lookup self.toFields k = none := by
  cases c with
  | ripemd160Preimages => exact BTreeMap.isEmpty_iff_getElem?.mp h.ripemd160Preimages k
  | sha256Preimages => exact BTreeMap.isEmpty_iff_getElem?.mp h.sha256Preimages k
  | hash160Preimages => exact BTreeMap.isEmpty_iff_getElem?.mp h.hash160Preimages k
  | hash256Preimages => exact BTreeMap.isEmpty_iff_getElem?.mp h.hash256Preimages k
  | proprietaries => exact BTreeMap.isEmpty_iff_getElem?.mp h.proprietaries k
  | _ => cases hc

/-- The entries of an input map with no preimage and no proprietary field are read as they
are. -/
theorem Unguarded.admits_iff {self : InputV0} (h : self.Unguarded) :
    (∀ e ∈ Input.table.entries self.toFields, codec.Admits e) ↔ self.UnknownKeys ∧ self.Fits := by
  refine (codec.admits_iff Input.lawful_table .unknowns ?_).trans ?_
  · rintro ⟨c, k, v⟩ he - hunknown
    by_cases hunknowns : c = .unknowns
    · subst hunknowns
      exact ⟨hunknown rfl, rfl⟩
    · have hlookup := Input.lawful_table.mem_entries.mp he
      refine (hasKeyCodec ?_ ?_ hunknowns).readsKey_rawKey
      · cases c <;> first | rfl | cases hlookup
      · rw [← Bool.not_eq_true]
        intro hc
        cases (h.lookup_eq_none hc k).symm.trans hlookup
  · constructor
    · rintro ⟨hunknown, hfits, -⟩
      exact ⟨fun key hkey => hunknown key (Std.ExtTreeMap.mem_iff_isSome_getElem?.mp hkey), hfits⟩
    · rintro ⟨hunknown, hfits⟩
      exact ⟨fun key hkey => hunknown key (Std.ExtTreeMap.mem_iff_isSome_getElem?.mpr hkey),
        hfits, fun _ _ => trivial⟩

/-- The entries of an input map are read as they are, unless one is a preimage or a
proprietary field. -/
theorem admits_iff {self : InputV0} :
    (∀ e ∈ Input.table.entries self.toFields, codec.Admits e) ↔
      self.Unguarded ∧ self.UnknownKeys ∧ self.Fits := by
  constructor
  · intro h
    have hguard : self.Unguarded := by
      constructor
      · exact BTreeMap.isEmpty_iff_getElem?.mpr (isEmpty_of_admits (c := .ripemd160Preimages) rfl h)
      · exact BTreeMap.isEmpty_iff_getElem?.mpr (isEmpty_of_admits (c := .sha256Preimages) rfl h)
      · exact BTreeMap.isEmpty_iff_getElem?.mpr (isEmpty_of_admits (c := .hash160Preimages) rfl h)
      · exact BTreeMap.isEmpty_iff_getElem?.mpr (isEmpty_of_admits (c := .hash256Preimages) rfl h)
      · exact BTreeMap.isEmpty_iff_getElem?.mpr (isEmpty_of_admits (c := .proprietaries) rfl h)
    exact ⟨hguard, hguard.admits_iff.mp h⟩
  · rintro ⟨hguard, h⟩
    exact hguard.admits_iff.mpr h

/-- The fields that the encoder walks through. -/
def encoded : List Input.Field :=
  [.nonWitnessUtxo, .witnessUtxo, .partialSigs, .sighashType, .redeemScript, .witnessScript,
    .bip32Derivations, .finalScriptSig, .finalScriptWitness, .ripemd160Preimages,
    .sha256Preimages, .hash160Preimages, .hash256Preimages, .tapKeySig, .tapScriptSigs,
    .tapScripts, .tapKeyOrigins, .tapInternalKey, .tapMerkleRoot, .proprietaries, .unknowns,
    .spEcdhShares, .spDleqProofs]

omit [BitcoinTypes] [BitcoinCodecs] [LawfulCodecs] in
theorem mem_encoded {c : Input.Field} (hunsigned : ofUnsignedTx c = false) : c ∈ encoded := by
  cases c <;> first | decide | cases hunsigned

/-- The fields that have a state of the encoder. -/
def present (i : Input) : Input.Field → Bool
  | .nonWitnessUtxo => i.nonWitnessUtxo.isSome
  | .witnessUtxo => i.witnessUtxo.isSome
  | .partialSigs => !i.partialSigs.isEmpty
  | .sighashType => i.sighashType.isSome
  | .redeemScript => i.redeemScript.isSome
  | .witnessScript => i.witnessScript.isSome
  | .bip32Derivations => !i.bip32Derivations.isEmpty
  | .finalScriptSig => i.finalScriptSig.isSome
  | .finalScriptWitness => i.finalScriptWitness.isSome
  | .ripemd160Preimages => !i.ripemd160Preimages.isEmpty
  | .sha256Preimages => !i.sha256Preimages.isEmpty
  | .hash160Preimages => !i.hash160Preimages.isEmpty
  | .hash256Preimages => !i.hash256Preimages.isEmpty
  | .tapKeySig => i.tapKeySig.isSome
  | .tapScriptSigs => !i.tapScriptSigs.isEmpty
  | .tapScripts => !i.tapScripts.isEmpty
  | .tapKeyOrigins => !i.tapKeyOrigins.isEmpty
  | .tapInternalKey => i.tapInternalKey.isSome
  | .tapMerkleRoot => i.tapMerkleRoot.isSome
  | .proprietaries => !i.proprietaries.isEmpty
  | .unknowns => !i.unknowns.isEmpty
  | .spEcdhShares => !i.spEcdhShares.isEmpty
  | .spDleqProofs => !i.spDleqProofs.isEmpty
  | _ => true

/-- The encoder writes all fields. -/
theorem encode_eq (i : Input) : encode i =
    mapBytes ((encoded.flatMap (Input.table.columnEntries (fields i))).map codec.pairOf) := by
  have hstart : EncoderState.firstOf (present i) encoded =
      some ((nonWitnessUtxoOrNext i).getD .separator) := by
    obtain ⟨s, hs⟩ :=
      Option.ne_none_iff_exists'.mp (EncoderState.firstOf_ne_none (present i) encoded)
    have hnext : nonWitnessUtxoOrNext i = some s := hs
    rw [hs, hnext, Option.getD_some]
  refine lawful_codec.encode_eq (by decide : encoded.Nodup)
    ⟨rfl, rfl, rfl, rfl, rfl, rfl, rfl, rfl, rfl, rfl, rfl, rfl, rfl, rfl, rfl, rfl, rfl, rfl,
      rfl, rfl, rfl, rfl, rfl, rfl⟩ hstart fun c hc => ?_
  cases c with
  | nonWitnessUtxo => exact Column.option_rows_eq_nil (Option.isSome_eq_false_iff.mp hc)
  | witnessUtxo => exact Column.option_rows_eq_nil (Option.isSome_eq_false_iff.mp hc)
  | partialSigs => exact BTreeMap.toList_eq_nil (Bool.not_inj hc)
  | sighashType => exact Column.option_rows_eq_nil (Option.isSome_eq_false_iff.mp hc)
  | redeemScript => exact Column.option_rows_eq_nil (Option.isSome_eq_false_iff.mp hc)
  | witnessScript => exact Column.option_rows_eq_nil (Option.isSome_eq_false_iff.mp hc)
  | bip32Derivations => exact BTreeMap.toList_eq_nil (Bool.not_inj hc)
  | finalScriptSig => exact Column.option_rows_eq_nil (Option.isSome_eq_false_iff.mp hc)
  | finalScriptWitness => exact Column.option_rows_eq_nil (Option.isSome_eq_false_iff.mp hc)
  | ripemd160Preimages => exact BTreeMap.toList_eq_nil (Bool.not_inj hc)
  | sha256Preimages => exact BTreeMap.toList_eq_nil (Bool.not_inj hc)
  | hash160Preimages => exact BTreeMap.toList_eq_nil (Bool.not_inj hc)
  | hash256Preimages => exact BTreeMap.toList_eq_nil (Bool.not_inj hc)
  | tapKeySig => exact Column.option_rows_eq_nil (Option.isSome_eq_false_iff.mp hc)
  | tapScriptSigs => exact BTreeMap.toList_eq_nil (Bool.not_inj hc)
  | tapScripts => exact BTreeMap.toList_eq_nil (Bool.not_inj hc)
  | tapKeyOrigins => exact BTreeMap.toList_eq_nil (Bool.not_inj hc)
  | tapInternalKey => exact Column.option_rows_eq_nil (Option.isSome_eq_false_iff.mp hc)
  | tapMerkleRoot => exact Column.option_rows_eq_nil (Option.isSome_eq_false_iff.mp hc)
  | proprietaries => exact BTreeMap.toList_eq_nil (Bool.not_inj hc)
  | unknowns => exact BTreeMap.toList_eq_nil (K := Key) (Bool.not_inj hc)
  | spEcdhShares => exact BTreeMap.toList_eq_nil (Bool.not_inj hc)
  | spDleqProofs => exact BTreeMap.toList_eq_nil (Bool.not_inj hc)
  | _ => cases hc

/-- An input map whose entries are read as they are decodes from its encoding. -/
theorem decodes_encode {i : Input}
    (hadmits : ∀ e ∈ Input.table.entries (fields i), codec.Admits e) :
    decoder.Decodes (encode i) (ofInput i) := by
  rw [encode_eq]
  refine lawful_codec.decodes_pairsOf ?_ hadmits rfl
  refine Input.lawful_table.flatMap_columnEntries_perm (by decide : encoded.Nodup) fun c hc => ?_
  cases c with
  | previousTxid => rfl
  | spentOutputIndex => rfl
  | sequence => rfl
  | minTime => rfl
  | minHeight => rfl
  | _ => exact absurd (mem_encoded rfl) hc

/-- What the decoder returns consists of admitted entries. -/
theorem admits_of_accepts {b r : Bytes} {self : InputV0} (h : decoder.Accepts b self r) :
    ∀ e ∈ Input.table.entries self.toFields, codec.Admits e := by
  obtain ⟨m, hadmits, hout⟩ := lawful_codec.exists_admits h
  obtain rfl := Except.ok.inj hout
  rintro ⟨c, k, v⟩ he
  have hlookup := Input.lawful_table.mem_entries.mp he
  apply hadmits
  apply Input.lawful_table.mem_entries.mpr
  cases c with
  | previousTxid => cases hlookup
  | spentOutputIndex => cases hlookup
  | sequence => cases hlookup
  | minTime => cases hlookup
  | minHeight => cases hlookup
  | _ => exact hlookup

end

end InputV0

end RustPsbt
