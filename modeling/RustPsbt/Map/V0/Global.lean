import RustPsbt.Encoding.UnsignedTx
import RustPsbt.Map.GlobalCodec
import RustPsbt.Psbt

/-!
# The global map of version 0

`GlobalMapDecoder` and `GlobalMapEncoder` of `map::v0::global`.  The unsigned transaction
carries the version, the lock time, the inputs and the outputs, and their counts.

Main results:

- Theorem `GlobalV0.lawful_codec`: the decoder and the encoder match field by field.
- Theorem `GlobalV0.decodes_encode`: a global map decodes from its encoding.
- Theorem `GlobalV0.counts_of_accepts`: a decoded global map counts the inputs and the outputs
  that come with it.
-/

namespace RustPsbt

variable [BitcoinTypes] [BitcoinCodecs]

/-- `PsbtV0`: a PSBT and the lock time of its unsigned transaction. -/
structure PsbtV0 where
  psbt : Psbt
  lockTime : LockTime

/-- `V0GlobalInfo`: a global map of version 2 with the inputs and the outputs of the unsigned
transaction. -/
abbrev V0GlobalInfo : Type :=
  Global × List (Txid × UInt32 × Sequence) × List (Amount × ScriptBuf)

namespace GlobalV0

/-! ## Collected fields -/

/-- The version that is stored is `V2`, whatever version was read. -/
abbrev StoredVersion : Type :=
  { version : Version // version = .two }

/-- The fields that `GlobalMapDecoder` collects.  The four parts of the unsigned transaction
are always set together. -/
@[ext]
structure Fields where
  version : Option StoredVersion
  unsignedTx : Option UnsignedTx
  xpubs : BTreeMap Xpub KeySource
  spEcdhShares : BTreeMap CompressedPublicKey CompressedPublicKey
  spDleqProofs : BTreeMap CompressedPublicKey DleqProof
  proprietaries : BTreeMap ProprietaryKey Bytes
  unknowns : BTreeMap Key Bytes

/-- The fields of a new decoder. -/
def Fields.empty : Fields where
  version := none
  unsignedTx := none
  xpubs := {}
  spEcdhShares := {}
  spDleqProofs := {}
  proprietaries := {}
  unknowns := {}

/-- The fields by name: the stages of the decoder that decode a value. -/
inductive Field where
  | unsignedTx
  | xpubs
  | version
  | proprietaries
  | unknowns
  | spEcdhShares
  | spDleqProofs
deriving DecidableEq

/-- The keys of a field. -/
abbrev FieldKey : Field → Type
  | .xpubs => Xpub
  | .spEcdhShares => CompressedPublicKey
  | .spDleqProofs => CompressedPublicKey
  | .proprietaries => ProprietaryKey
  | .unknowns => Key
  | _ => Unit

/-- The values of a field. -/
abbrev FieldValue : Field → Type
  | .unsignedTx => UnsignedTx
  | .version => StoredVersion
  | .xpubs => KeySource
  | .spEcdhShares => CompressedPublicKey
  | .spDleqProofs => DleqProof
  | .proprietaries => Bytes
  | .unknowns => Bytes

/-- Access to a field. -/
def column : (c : Field) → Column Fields (FieldKey c) (FieldValue c)
  | .unsignedTx => .option Fields.unsignedTx fun m v => { m with unsignedTx := some v }
  | .version => .option Fields.version fun m v => { m with version := some v }
  | .xpubs => .map Fields.xpubs fun m t => { m with xpubs := t }
  | .spEcdhShares => .map Fields.spEcdhShares fun m t => { m with spEcdhShares := t }
  | .spDleqProofs => .map Fields.spDleqProofs fun m t => { m with spDleqProofs := t }
  | .proprietaries => .map Fields.proprietaries fun m t => { m with proprietaries := t }
  | .unknowns => .map Fields.unknowns fun m t => { m with unknowns := t }

/-- The order of the stages in the decoder. -/
def order : List Field :=
  [.unsignedTx, .xpubs, .version, .proprietaries, .unknowns, .spEcdhShares, .spDleqProofs]

/-- The collected fields as a table. -/
def table : Table Fields where
  Col := Field
  K := FieldKey
  V := FieldValue
  column := column
  empty := .empty
  order := order

/-! ## Decoder -/

/-- `Stage::from_key`. -/
def fromKey (key : Key) : Result Global.DecodeError Field :=
  if key.typeValue = 0x00 then .ok .unsignedTx
  else if key.typeValue = 0x01 then .ok .xpubs
  else if key.typeValue = 0xFB then .ok .version
  else if key.typeValue = 0xFC then .ok .proprietaries
  else if key.typeValue = 0x07 then .ok .spEcdhShares
  else if key.typeValue = 0x08 then .ok .spDleqProofs
  else .ok .unknowns

/-- The error of `end` on a version: an unsupported one is a wrong one. -/
def versionEndError : ValueDecoderError (ArrayDecodeError UInt32) → Global.DecodeError
  | .inner (.invalid v) => .wrongVersion v
  | e => .version e

/-- What the arm of `DecodingVersion` stores for a version: only version 0 is accepted. -/
def storedVersion (version : Version) : Result Global.DecodeError StoredVersion :=
  if version ≠ .zero then .err (.wrongVersion version.toU32) else .ok ⟨.two, rfl⟩

/-- The decoder of a value, with the errors of a push; the one of the version includes the
check that its arm starts with. -/
def valueDecoderOf : (c : Field) → PushDecoder UInt8 Global.DecodeError (FieldValue c)
  | .unsignedTx => (valueDecoder unsignedTxDecoder).mapErr .unsignedTx
  | .version => (valueDecoder versionDecoder).wrap .version versionEndError storedVersion
  | .xpubs => keySourceDecoder.mapErr fun e => .xpub (.keySource e)
  | .spEcdhShares => (valueDecoder compressedPublicKeyDecoder).mapErr .spEcdh
  | .spDleqProofs => (valueDecoder dleqProofDecoder).mapErr .spDleq
  | .proprietaries => byteVecDecoder.mapErr .unknownValue
  | .unknowns => byteVecDecoder.mapErr .unknownValue

/-- How the arms read the key data. -/
def entryKey : (c : Field) → Key → Result Global.DecodeError (FieldKey c)
  | .unsignedTx => noKeyData Global.invalidKeyData
  | .version => noKeyData Global.invalidKeyData
  | .xpubs => xpubOfKey fun e => .xpub (.key e)
  | .spEcdhShares => compressedOfKey fun _ => .keyDecode .invalidProprietaryKey
  | .spDleqProofs => compressedOfKey fun _ => .keyDecode .invalidProprietaryKey
  | .proprietaries => proprietaryOfKey (.keyDecode .invalidProprietaryKey)
  | .unknowns => fun key => .ok key

/-- The arm of `DecodingUnsignedTx`: the key is checked before the decoder is ended. -/
def storeUnsignedTx (key : Key) (ended : Result Global.DecodeError UnsignedTx) (m : Fields) :
    Result Global.DecodeError Fields := do
  let _ ← entryKey .unsignedTx key
  if m.unsignedTx.isSome then .err (.duplicateKey key)
  else do
    let tx ← ended
    .ok { m with unsignedTx := some tx }

/-- The transition at the end of a value; the arm of `DecodingProprietary` makes its
duplicate error from the key that it has read. -/
def store : (c : Field) → Key → Result Global.DecodeError (FieldValue c) → Fields →
    Result Global.DecodeError Fields
  | .unsignedTx, key, ended, m => storeUnsignedTx key ended m
  | .proprietaries, key, ended, m =>
      storeRead table .proprietaries (fun propKey => .duplicateKey propKey.toKey)
        (entryKey .proprietaries key) ended m
  | c, key, ended, m => storeEntry table (.duplicateKey key) c (entryKey c key) ended m

/-- The global map of version 2 that an unsigned transaction and the other fields make. -/
def Fields.intoGlobal (self : Fields) (tx : UnsignedTx) : Global where
  version := .two
  txVersion := tx.version
  fallbackLockTime := if tx.lockTime ≠ .zero then some tx.lockTime else none
  txModifiableFlags := .new
  inputCount := tx.inputs.length
  outputCount := tx.outputs.length
  xpubs := self.xpubs
  spEcdhShares := self.spEcdhShares
  spDleqProofs := self.spDleqProofs
  proprietaries := self.proprietaries
  unknowns := self.unknowns

/-- The transition at the separator. -/
def Fields.finish (self : Fields) : Result Global.DecodeError V0GlobalInfo := do
  let tx ← .okOr .missingUnsignedTx self.unsignedTx
  if self.spEcdhShares.isEmpty ≠ self.spDleqProofs.isEmpty then .err .spFieldMismatch
  else .ok (self.intoGlobal tx, tx.inputs, tx.outputs)

/-! ## Encoder -/

/-- The key that is written for an entry. -/
def rawKey : (c : Field) → FieldKey c → Key
  | .unsignedTx, _ => ⟨0x00, []⟩
  | .version, _ => ⟨0xFB, []⟩
  | .xpubs, xpub => ⟨0x01, (xpubEncode xpub).bytes⟩
  | .spEcdhShares, scanKey => ⟨0x07, (compressedToBytes scanKey).bytes⟩
  | .spDleqProofs, scanKey => ⟨0x08, (compressedToBytes scanKey).bytes⟩
  | .proprietaries, key => key.toKey
  | .unknowns, key => key

/-- The encoder of a value; no version is ever written. -/
def encodeValue : (c : Field) → FieldValue c → ExactSizeEncoder
  | .unsignedTx, tx => .ofBytes (unsignedTxBytes tx)
  | .version, _ => .ofBytes (u32ToLeBytes Version.zero.toU32).bytes
  | .xpubs, source => .ofBytes (keySourceBytes source)
  | .spEcdhShares, share => .ofBytes (compressedToBytes share).bytes
  | .spDleqProofs, proof => .ofBytes proof.bytes
  | .proprietaries, value => .ofBytes value
  | .unknowns, value => .ofBytes value

/-- The decoder and the encoder of the global map. -/
def codec : MapCodec Global.DecodeError Fields V0GlobalInfo where
  table := table
  decoder := valueDecoderOf
  fromKey := fromKey
  entryKey := entryKey
  Allowed _ _ := True
  store := store
  finish := Fields.finish
  atEnd := .ok
  keyDecode := .keyDecode
  earlyEnd := .earlyEnd
  rawKey := rawKey
  encodeValue := encodeValue
  Fits c := InLimit (encodeValue c)

/-- `GlobalMapDecoder`. -/
def decoder : PushDecoder UInt8 Global.DecodeError V0GlobalInfo :=
  codec.mapDecoder

/-- `UnsignedTxEncoder::from_psbt`: the unsigned transaction that is written. -/
def unsignedTx (v0 : PsbtV0) : UnsignedTx where
  version := v0.psbt.global.txVersion
  inputs := v0.psbt.inputs.map fun input =>
    (input.previousTxid, input.spentOutputIndex, input.sequence.getD .max)
  outputs := v0.psbt.outputs.map fun output => (output.amount, output.scriptPubkey)
  lockTime := v0.lockTime

/-- The fields that the encoder writes. -/
def fields (v0 : PsbtV0) : Fields where
  version := none
  unsignedTx := some (unsignedTx v0)
  xpubs := v0.psbt.global.xpubs
  spEcdhShares := v0.psbt.global.spEcdhShares
  spDleqProofs := v0.psbt.global.spDleqProofs
  proprietaries := v0.psbt.global.proprietaries
  unknowns := v0.psbt.global.unknowns

/-- `GlobalMapEncoder::dleq_or_next`. -/
def dleqOrNext (global : Global) : Option (EncoderState Field) :=
  if !global.spDleqProofs.isEmpty then some (.group .spDleqProofs) else some .separator

/-- `GlobalMapEncoder::ecdh_or_next`. -/
def ecdhOrNext (global : Global) : Option (EncoderState Field) :=
  if !global.spEcdhShares.isEmpty then some (.group .spEcdhShares) else dleqOrNext global

/-- `GlobalMapEncoder::unknowns_or_next`. -/
def unknownsOrNext (global : Global) : Option (EncoderState Field) :=
  if !global.unknowns.isEmpty then some (.group .unknowns) else ecdhOrNext global

/-- `GlobalMapEncoder::proprietaries_or_next`. -/
def proprietariesOrNext (global : Global) : Option (EncoderState Field) :=
  if !global.proprietaries.isEmpty then some (.group .proprietaries) else unknownsOrNext global

/-- `GlobalMapEncoder::xpubs_or_next`. -/
def xpubsOrNext (global : Global) : Option (EncoderState Field) :=
  if !global.xpubs.isEmpty then some (.group .xpubs) else proprietariesOrNext global

/-- `GlobalMapEncoder::next_state`. -/
def nextState (global : Global) : EncoderState Field → Option (EncoderState Field)
  | .group .unsignedTx => xpubsOrNext global
  | .group .xpubs => proprietariesOrNext global
  | .group .proprietaries => unknownsOrNext global
  | .group .unknowns => ecdhOrNext global
  | .group .spEcdhShares => dleqOrNext global
  | .group .spDleqProofs => some .separator
  | _ => none

/-- The bytes of `GlobalMapEncoder`. -/
def encode (v0 : PsbtV0) : Bytes :=
  codec.encode (fields v0) (nextState v0.psbt.global) (.group .unsignedTx)

/-! ## The codec is lawful -/

omit [BitcoinCodecs] in
theorem lawful_column (c : Field) : (column c).Lawful := by
  cases c <;> unfold column
  all_goals first
    | exact Column.lawful_option fun _ _ => rfl
    | exact Column.lawful_map fun _ _ => rfl

omit [BitcoinCodecs] in
theorem lookup_empty (c : Field) (k : FieldKey c) : (column c).lookup Fields.empty k = none := by
  cases c <;> unfold column
  all_goals first
    | exact Column.map_lookup_empty rfl k
    | rfl

omit [BitcoinTypes] [BitcoinCodecs] in
theorem mem_order (c : Field) : c ∈ order := by
  cases c <;> decide

omit [BitcoinCodecs] in
theorem lawful_table : table.Lawful where
  column := lawful_column
  frame {c d} hne m k v := by
    cases c <;> cases d <;> first | rfl | exact absurd rfl hne
  ext {m m'} h := by
    apply Fields.ext
    · exact congrFun (h .version) ()
    · exact congrFun (h .unsignedTx) ()
    · exact Column.eq_of_lookup_eq (h .xpubs)
    · exact Column.eq_of_lookup_eq (h .spEcdhShares)
    · exact Column.eq_of_lookup_eq (h .spDleqProofs)
    · exact Column.eq_of_lookup_eq (h .proprietaries)
    · exact Column.eq_of_lookup_eq (h .unknowns)
  lookup_empty := lookup_empty
  nodup_order := (by decide : order.Nodup)
  mem_order := mem_order

section

variable [LawfulCodecs]

omit [LawfulCodecs] in
theorem storedVersion_eq_ok {version : Version} {stored : StoredVersion} :
    storedVersion version = .ok stored ↔ version = .zero := by
  unfold storedVersion
  rcases stored with ⟨_, rfl⟩
  by_cases h : version = .zero <;> simp [h]

/-- Version 0 is the only version that is accepted. -/
theorem valueCodec_version : ValueCodec (valueDecoderOf .version) (encodeValue .version) where
  framed := RustPsbt.valueCodec_version.framed.wrap
  len_eq _ := rfl
  length_le h := h
  decodes_encode h := PushDecoder.decodes_wrap.mpr
    ⟨.zero, RustPsbt.valueCodec_version.decodes_encode h, storedVersion_eq_ok.mpr rfl⟩
  fits_of_decodes _ := (by decide : 4 ≤ compactSizeLimit)

theorem valueCodec (c : Field) : ValueCodec (valueDecoderOf c) (encodeValue c) := by
  cases c with
  | unsignedTx => exact valueCodec_unsignedTx.mapErr
  | version => exact valueCodec_version
  | xpubs => exact valueCodec_keySource.mapErr
  | spEcdhShares => exact valueCodec_compressed.mapErr
  | spDleqProofs => exact valueCodec_dleqProof.mapErr
  | proprietaries => exact valueCodec_byteVec.mapErr
  | unknowns => exact valueCodec_byteVec.mapErr

theorem hasKeyCodec {c : Field} (hproprietary : c ≠ .proprietaries) (hunknown : c ≠ .unknowns) :
    codec.HasKeyCodec c := by
  cases c with
  | unsignedTx => exact ⟨0x00, _, keyCodec_noKeyData _, by decide, fun _ => ⟨rfl, rfl⟩⟩
  | version => exact ⟨0xFB, _, keyCodec_noKeyData _, by decide, fun _ => ⟨rfl, rfl⟩⟩
  | xpubs => exact ⟨0x01, _, keyCodec_xpub _, by decide, fun _ => ⟨rfl, rfl⟩⟩
  | spEcdhShares => exact ⟨0x07, _, keyCodec_compressed _, by decide, fun _ => ⟨rfl, rfl⟩⟩
  | spDleqProofs => exact ⟨0x08, _, keyCodec_compressed _, by decide, fun _ => ⟨rfl, rfl⟩⟩
  | proprietaries => exact absurd rfl hproprietary
  | unknowns => exact absurd rfl hunknown

theorem rewrites {c : Field} {key : Key} {k : FieldKey c} (h : codec.ReadsKey c key k) :
    codec.ReadsKey c (rawKey c k) k ∧ (rawKey c k).body.length ≤ key.body.length := by
  by_cases hproprietary : c = .proprietaries
  · subst hproprietary
    exact h.rewrites_self (proprietaryOfKey_eq_ok.mp h.entryKey).1.symm
  · by_cases hunknown : c = .unknowns
    · subst hunknown
      exact h.rewrites_self (Except.ok.inj h.entryKey).symm
    · exact (hasKeyCodec hproprietary hunknown).rewrites h

theorem returns_entryKey (c : Field) (key : Key) : (entryKey c key).Returns := by
  by_cases hproprietary : c = .proprietaries
  · subst hproprietary
    exact returns_proprietaryOfKey _ key
  · by_cases hunknown : c = .unknowns
    · subst hunknown
      trivial
    · exact (hasKeyCodec hproprietary hunknown).returns_entryKey key

omit [LawfulCodecs] in
theorem storeUnsignedTx_eq_ok {key : Key} {tx : UnsignedTx} {m m' : Fields} :
    storeUnsignedTx key (.ok tx) m = .ok m' ↔ ∃ k, entryKey .unsignedTx key = .ok k ∧
      table.insertNew () m ⟨.unsignedTx, k, tx⟩ = .ok m' := by
  unfold storeUnsignedTx
  rw [Result.bind_eq_ok]
  refine exists_congr fun k => and_congr_right fun _ => ?_
  change table.insertNew (Global.DecodeError.duplicateKey key) m ⟨.unsignedTx, k, tx⟩ = .ok m' ↔ _
  exact insertNew_eq_ok_iff _ _

omit [LawfulCodecs] in
/-- The other fields share one arm. -/
theorem store_eq {c : Field} (htx : c ≠ .unsignedTx) (hproprietary : c ≠ .proprietaries)
    (key : Key) (ended : Result Global.DecodeError (FieldValue c)) (m : Fields) :
    store c key ended m = storeEntry table (.duplicateKey key) c (entryKey c key) ended m := by
  cases c with
  | unsignedTx => exact absurd rfl htx
  | proprietaries => exact absurd rfl hproprietary
  | _ => rfl

/-- The arm that checks the key first may fail where the end of the decoder would panic, but
the decoder of a transaction never panics. -/
theorem closes_storeUnsignedTx (key : Key) (m : Fields) :
    (valueDecoderOf .unsignedTx).Closes fun ended => storeUnsignedTx key ended m where
  err e := by
    unfold storeUnsignedTx
    cases hkey : entryKey .unsignedTx key with
    | ok k =>
        rw [Result.ok_bind]
        split
        · exact ⟨_, rfl⟩
        · exact ⟨e, rfl⟩
    | error f =>
        have hreturns := returns_entryKey .unsignedTx key
        rw [hkey] at hreturns
        cases f with
        | error e' => exact ⟨e', rfl⟩
        | panic => exact absurd hreturns id
        | diverge => exact absurd hreturns id
  fault := .inl safe_unsignedTxValue.mapErr

theorem closes_store (c : Field) (key : Key) (m : Fields) :
    (valueDecoderOf c).Closes fun ended => store c key ended m := by
  by_cases htx : c = .unsignedTx
  · subst htx
    exact closes_storeUnsignedTx key m
  · by_cases hproprietary : c = .proprietaries
    · subst hproprietary
      exact closes_storeRead (T := table) (c := .proprietaries) _
    · simp only [store_eq htx hproprietary]
      exact closes_storeEntry (T := table) _

omit [LawfulCodecs] in
theorem store_eq_ok {c : Field} {key : Key} {v : FieldValue c} {m m' : Fields} :
    store c key (.ok v) m = .ok m' ↔ True ∧ ∃ k, entryKey c key = .ok k ∧
      table.insertNew () m ⟨c, k, v⟩ = .ok m' := by
  rw [true_and]
  by_cases htx : c = .unsignedTx
  · subst htx
    exact storeUnsignedTx_eq_ok
  · by_cases hproprietary : c = .proprietaries
    · subst hproprietary
      exact storeRead_eq_ok (T := table)
    · rw [store_eq htx hproprietary]
      exact storeEntry_eq_ok (T := table)

theorem returns_store (c : Field) (key : Key) (v : FieldValue c) (m : Fields) :
    (store c key (.ok v) m).Returns := by
  by_cases htx : c = .unsignedTx
  · subst htx
    apply Result.Returns.bind (returns_entryKey .unsignedTx key)
    intro k _
    split <;> trivial
  · by_cases hproprietary : c = .proprietaries
    · subst hproprietary
      exact returns_storeRead (T := table) (c := .proprietaries)
        (returns_entryKey .proprietaries key) v
    · rw [store_eq htx hproprietary]
      exact returns_storeEntry (T := table) (returns_entryKey c key) v

omit [LawfulCodecs] in
theorem returns_finish (m : Fields) : m.finish.Returns := by
  apply Result.Returns.bind (Result.returns_okOr _ _)
  intro tx _
  split <;> trivial

omit [LawfulCodecs] in
theorem returns_fromKey (key : Key) : (fromKey key).Returns := by
  unfold fromKey
  repeat' first | exact trivial | apply Result.Returns.ite

/-- The decoder and the encoder of the global map match field by field. -/
theorem lawful_codec : codec.Lawful where
  table := lawful_table
  codec := valueCodec
  closes := closes_store
  store_eq_ok := store_eq_ok
  rewrites := rewrites
  returns_store := returns_store
  returns_fromKey := returns_fromKey
  returns_finish := returns_finish
  returns_atEnd _ := trivial

/-! ## Round trip -/

omit [LawfulCodecs] in
theorem finish_eq_ok {m : Fields} {info : V0GlobalInfo} : m.finish = .ok info ↔
    ∃ tx, m.unsignedTx = some tx ∧ m.spEcdhShares.isEmpty = m.spDleqProofs.isEmpty ∧
      info = (m.intoGlobal tx, tx.inputs, tx.outputs) := by
  unfold Fields.finish
  rw [Result.bind_eq_ok]
  refine exists_congr fun tx => ?_
  rw [Result.okOr_eq_ok]
  by_cases hpaired : m.spEcdhShares.isEmpty = m.spDleqProofs.isEmpty <;>
    simp [hpaired, eq_comm]

/-- No unknown key of the global map has a type that the decoder recognises. -/
def UnknownKeys (unknowns : BTreeMap Key Bytes) : Prop :=
  ∀ key ∈ unknowns, fromKey key = .ok .unknowns

/-- All keys and values are inside the limits of the decoder. -/
def Fits (m : Fields) : Prop :=
  ∀ e ∈ table.entries m,
    (rawKey e.col e.key).body.length ≤ compactSizeLimit ∧ InLimit (encodeValue e.col) e.value

/-- What is written for a key is read as the key. -/
theorem readsKey_rawKey {c : Field} {k : FieldKey c}
    (hle : (rawKey c k).body.length ≤ compactSizeLimit)
    (hunknowns : c = .unknowns → fromKey (rawKey c k) = .ok c) :
    codec.ReadsKey c (rawKey c k) k := by
  by_cases hproprietary : c = .proprietaries
  · subst hproprietary
    exact ⟨rfl, proprietaryOfKey_eq_ok.mpr ⟨rfl, k.length_pfx_le.trans hle⟩⟩
  · by_cases hunknown : c = .unknowns
    · subst hunknown
      exact ⟨hunknowns rfl, rfl⟩
    · exact (hasKeyCodec hproprietary hunknown).readsKey_rawKey

/-- The entries of a global map are read as they are. -/
theorem admits_iff {m : Fields} : (∀ e ∈ table.entries m, codec.Admits e) ↔
    UnknownKeys m.unknowns ∧ Fits m := by
  refine (codec.admits_iff lawful_table .unknowns fun _ _ => readsKey_rawKey).trans ?_
  constructor
  · rintro ⟨hunknown, hfits, -⟩
    exact ⟨fun key hkey => hunknown key (Std.ExtTreeMap.mem_iff_isSome_getElem?.mp hkey), hfits⟩
  · rintro ⟨hunknown, hfits⟩
    exact ⟨fun key hkey => hunknown key (Std.ExtTreeMap.mem_iff_isSome_getElem?.mpr hkey), hfits,
      fun _ _ => trivial⟩

/-- The fields that the encoder walks through. -/
def encoded : List Field :=
  [.unsignedTx, .xpubs, .proprietaries, .unknowns, .spEcdhShares, .spDleqProofs]

/-- The fields that have a state of the encoder. -/
def present (global : Global) : Field → Bool
  | .xpubs => !global.xpubs.isEmpty
  | .proprietaries => !global.proprietaries.isEmpty
  | .unknowns => !global.unknowns.isEmpty
  | .spEcdhShares => !global.spEcdhShares.isEmpty
  | .spDleqProofs => !global.spDleqProofs.isEmpty
  | _ => true

omit [BitcoinTypes] [BitcoinCodecs] [LawfulCodecs] in
theorem mem_encoded {c : Field} (hc : c ≠ .version) : c ∈ encoded := by
  cases c <;> first | decide | contradiction

omit [LawfulCodecs] in
/-- The encoder writes every field that is set. -/
theorem visits (v0 : PsbtV0) : codec.Visits (fields v0) (nextState v0.psbt.global)
    (.group .unsignedTx) (present v0.psbt.global) encoded where
  nodup := (by decide : encoded.Nodup)
  chained := ⟨rfl, rfl, rfl, rfl, rfl, rfl, rfl⟩
  start := rfl
  skipped c hc := by
    cases c with
    | xpubs => exact BTreeMap.toList_eq_nil (Bool.not_inj hc)
    | proprietaries => exact BTreeMap.toList_eq_nil (Bool.not_inj hc)
    | unknowns => exact BTreeMap.toList_eq_nil (K := Key) (Bool.not_inj hc)
    | spEcdhShares => exact BTreeMap.toList_eq_nil (Bool.not_inj hc)
    | spDleqProofs => exact BTreeMap.toList_eq_nil (Bool.not_inj hc)
    | _ => cases hc
  rest c hc := by
    cases c with
    | version => rfl
    | _ => exact absurd (mem_encoded (by decide)) hc

/-- A global map decodes from its encoding into what its fields make. -/
theorem decodes_encode {v0 : PsbtV0}
    (hpaired : v0.psbt.global.spEcdhShares.isEmpty = v0.psbt.global.spDleqProofs.isEmpty)
    (hadmits : ∀ e ∈ table.entries (fields v0), codec.Admits e) :
    decoder.Decodes (encode v0) ((fields v0).intoGlobal (unsignedTx v0),
      (unsignedTx v0).inputs, (unsignedTx v0).outputs) := by
  apply lawful_codec.decodes_encode (visits v0) hadmits
  have hfinish := finish_eq_ok (m := fields v0).mpr ⟨unsignedTx v0, rfl, hpaired, rfl⟩
  change ((fields v0).finish >>= .ok) = _
  rw [hfinish]
  rfl

/-- What the decoder returns is made of admitted entries. -/
theorem admits_of_accepts {b r : Bytes} {info : V0GlobalInfo} (h : decoder.Accepts b info r) :
    ∃ (m : Fields) (tx : UnsignedTx), (∀ e ∈ table.entries m, codec.Admits e) ∧
      m.unsignedTx = some tx ∧ m.spEcdhShares.isEmpty = m.spDleqProofs.isEmpty ∧
        info = (m.intoGlobal tx, tx.inputs, tx.outputs) := by
  obtain ⟨m, hadmits, hout⟩ := lawful_codec.exists_admits h
  obtain ⟨info', hfinish, heq⟩ := Result.bind_eq_ok.mp hout
  obtain rfl := Except.ok.inj heq
  obtain ⟨tx, htx, hpaired, hinfo⟩ := finish_eq_ok.mp hfinish
  exact ⟨m, tx, hadmits, htx, hpaired, hinfo⟩

/-- A decoded global map counts the inputs and the outputs that come with it. -/
theorem counts_of_accepts {b r : Bytes} {info : V0GlobalInfo} (h : decoder.Accepts b info r) :
    info.1.inputCount = info.2.1.length ∧ info.1.outputCount = info.2.2.length := by
  obtain ⟨m, tx, -, -, -, rfl⟩ := admits_of_accepts h
  exact ⟨rfl, rfl⟩

end

end GlobalV0

end RustPsbt
