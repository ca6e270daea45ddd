import RustPsbt.Encoding.Prefixed
import RustPsbt.Encoding.UnsignedTx
import RustPsbt.Library.GroupEncoder
import RustPsbt.Map.Global
import RustPsbt.Map.KeyData

/-!
# Codec of the global map

`GlobalDecoder` and `GlobalMapEncoder` of version 2: the fields that the decoder collects,
its arms, and the states of the encoder.

Main results:

- Theorem `Global.lawful_codec`: the decoder and the encoder match field by field.
- Theorem `Global.decodes_encode`: a well-formed global map decodes from its encoding.
- Theorem `Global.wellFormed_of_accepts`: a decoded global map is well-formed.
-/

namespace RustPsbt

variable [BitcoinTypes] [BitcoinCodecs]

/-- `XpubDecodeError`. -/
inductive XpubDecodeError where
  | key (e : ExtError)
  | keySource (e : KeySourceDecodeError)

namespace Global

/-- `GlobalDecodeError`. -/
inductive DecodeError where
  | duplicateKey (key : Key)
  | keyDecode (e : KeyDecodeError)
  | earlyEnd
  | missingVersion
  | wrongVersion (version : UInt32)
  | missingTxVersion
  | missingInputCount
  | missingOutputCount
  | missingUnsignedTx
  | xpub (e : XpubDecodeError)
  | version (e : ValueDecoderError (ArrayDecodeError UInt32))
  | modifiableFlags (e : ValueDecoderError ExtError)
  | count (e : ValueDecoderError ExtError)
  | txVersion (e : ValueDecoderError ExtError)
  | lockTime (e : ValueDecoderError ExtError)
  | unsignedTx (e : ValueDecoderError UnsignedTxDecodeError)
  | proprietaryValue (e : ExtError)
  | unknownValue (e : ExtError)
  | spEcdh (e : ValueDecoderError (ArrayDecodeError ExtError))
  | spDleq (e : ValueDecoderError ExtError)
  | spFieldMismatch

/-! ## Collected fields -/

/-- The fields that `GlobalDecoder` collects. -/
@[ext]
structure Fields where
  version : Option Version
  txVersion : Option TxVersion
  inputCount : Option Count
  outputCount : Option Count
  fallbackLockTime : Option LockTime
  txModifiableFlags : Option TxModifiableFlags
  xpubs : BTreeMap Xpub KeySource
  spEcdhShares : BTreeMap CompressedPublicKey CompressedPublicKey
  spDleqProofs : BTreeMap CompressedPublicKey DleqProof
  proprietaries : BTreeMap ProprietaryKey Bytes
  unknowns : BTreeMap Key Bytes

/-- The fields of a new decoder. -/
def Fields.empty : Fields where
  version := none
  txVersion := none
  inputCount := none
  outputCount := none
  fallbackLockTime := none
  txModifiableFlags := none
  xpubs := {}
  spEcdhShares := {}
  spDleqProofs := {}
  proprietaries := {}
  unknowns := {}

/-- The fields by name: the stages of the decoder that decode a value. -/
inductive Field where
  | version
  | txVersion
  | fallbackLockTime
  | inputCount
  | outputCount
  | txModifiableFlags
  | xpubs
  | spEcdhShares
  | spDleqProofs
  | proprietaries
  | unknowns
deriving DecidableEq

/-- The keys of a field. -/
abbrev FieldKey : Field → Type
  | .xpubs => Xpub
  | .spEcdhShares => CompressedPublicKey
  | .spDleqProofs => CompressedPublicKey
  | .proprietaries => ProprietaryKey
  | .unknowns => Key
  | _ => Unit

/-- The values of a field. -/
abbrev FieldValue : Field → Type
  | .version => Version
  | .txVersion => TxVersion
  | .fallbackLockTime => LockTime
  | .inputCount => Count
  | .outputCount => Count
  | .txModifiableFlags => TxModifiableFlags
  | .xpubs => KeySource
  | .spEcdhShares => CompressedPublicKey
  | .spDleqProofs => DleqProof
  | .proprietaries => Bytes
  | .unknowns => Bytes

/-- Access to a field. -/
def column : (c : Field) → Column Fields (FieldKey c) (FieldValue c)
  | .version => .option Fields.version fun m v => { m with version := some v }
  | .txVersion => .option Fields.txVersion fun m v => { m with txVersion := some v }
  | .fallbackLockTime =>
      .option Fields.fallbackLockTime fun m v => { m with fallbackLockTime := some v }
  | .inputCount => .option Fields.inputCount fun m v => { m with inputCount := some v }
  | .outputCount => .option Fields.outputCount fun m v => { m with outputCount := some v }
  | .txModifiableFlags =>
      .option Fields.txModifiableFlags fun m v => { m with txModifiableFlags := some v }
  | .xpubs => .map Fields.xpubs fun m t => { m with xpubs := t }
  | .spEcdhShares => .map Fields.spEcdhShares fun m t => { m with spEcdhShares := t }
  | .spDleqProofs => .map Fields.spDleqProofs fun m t => { m with spDleqProofs := t }
  | .proprietaries => .map Fields.proprietaries fun m t => { m with proprietaries := t }
  | .unknowns => .map Fields.unknowns fun m t => { m with unknowns := t }

/-- The order of the fields in `GlobalMapEncoder`. -/
def order : List Field :=
  [.version, .txVersion, .fallbackLockTime, .inputCount, .outputCount, .txModifiableFlags,
    .xpubs, .spEcdhShares, .spDleqProofs, .proprietaries, .unknowns]

/-- The collected fields as a table. -/
def table : Table Fields where
  Col := Field
  K := FieldKey
  V := FieldValue
  column := column
  empty := .empty
  order := order

/-! ## Decoder -/

/-- `DecoderStage::from_key`. -/
def fromKey (key : Key) : Result DecodeError Field :=
  if key.typeValue = 0xFB then .ok .version
  else if key.typeValue = 0x02 then .ok .txVersion
  else if key.typeValue = 0x03 then .ok .fallbackLockTime
  else if key.typeValue = 0x04 then .ok .inputCount
  else if key.typeValue = 0x05 then .ok .outputCount
  else if key.typeValue = 0x06 then .ok .txModifiableFlags
  else if key.typeValue = 0x01 then .ok .xpubs
  else if key.typeValue = 0xFC then .ok .proprietaries
  else if key.typeValue = 0x07 then .ok .spEcdhShares
  else if key.typeValue = 0x08 then .ok .spDleqProofs
  -- the unsigned transaction of version 0
  else if key.typeValue = 0x00 then .err (.keyDecode (.excludedKey key.typeValue))
  else .ok .unknowns

/-- The decoder of a value, with the errors of a push. -/
def valueDecoderOf : (c : Field) → PushDecoder UInt8 DecodeError (FieldValue c)
  | .version => (valueDecoder versionDecoder).mapErr .version
  | .txVersion => (valueDecoder txVersionCodec.decoder).mapErr .txVersion
  | .fallbackLockTime => (valueDecoder lockTimeCodec.decoder).mapErr .lockTime
  | .inputCount => (valueDecoder countDecoder).mapErr .count
  | .outputCount => (valueDecoder countDecoder).mapErr .count
  | .txModifiableFlags => (valueDecoder txModifiableFlagsDecoder).mapErr .modifiableFlags
  | .xpubs => keySourceDecoder.mapErr fun e => .xpub (.keySource e)
  | .spEcdhShares => (valueDecoder compressedPublicKeyDecoder).mapErr .spEcdh
  | .spDleqProofs => (valueDecoder dleqProofDecoder).mapErr .spDleq
  | .proprietaries => byteVecDecoder.mapErr .proprietaryValue
  | .unknowns => byteVecDecoder.mapErr .unknownValue

/-- The error of key data that is no key. -/
def invalidKeyData (key : Key) : DecodeError :=
  .keyDecode (.invalidKeyData key)

/-- How the arms read the key data; fields without keys ignore it. -/
def entryKey : (c : Field) → Key → Result DecodeError (FieldKey c)
  | .xpubs => xpubOfKey fun e => .xpub (.key e)
  | .spEcdhShares => scanKeyOfKey invalidKeyData
  | .spDleqProofs => scanKeyOfKey invalidKeyData
  | .proprietaries => proprietaryOfKey (.keyDecode .invalidProprietaryKey)
  | .unknowns => fun key => .ok key
  | .version => fun _ => .ok ()
  | .txVersion => fun _ => .ok ()
  | .fallbackLockTime => fun _ => .ok ()
  | .inputCount => fun _ => .ok ()
  | .outputCount => fun _ => .ok ()
  | .txModifiableFlags => fun _ => .ok ()

/-- The error of `end` on a version: an unsupported one is a wrong one. -/
def versionEndError : DecodeError → DecodeError
  | .version (.inner (.invalid v)) => .wrongVersion v
  | e => e

/-- The arm of `DecodingVersion`. -/
def storeVersion (key : Key) (ended : Result DecodeError Version) (m : Fields) :
    Result DecodeError Fields := do
  let version ← ended.mapErr versionEndError
  if version ≠ .two then .err (.wrongVersion version.toU32)
  else table.insertNew (.duplicateKey key) m ⟨.version, (), version⟩

/-- The transition at the end of a value. -/
def store : (c : Field) → Key → Result DecodeError (FieldValue c) → Fields →
    Result DecodeError Fields
  | .version, key, ended, m => storeVersion key ended m
  | c, key, ended, m => storeEntry table (.duplicateKey key) c (entryKey c key) ended m

/-- The transition at the separator. -/
def Fields.finish (self : Fields) : Result DecodeError Global := do
  let version ← .okOr .missingVersion self.version
  let txVersion ← .okOr .missingTxVersion self.txVersion
  let txModifiableFlags := self.txModifiableFlags.getD .new
  let inputCount ← .okOr .missingInputCount self.inputCount
  let outputCount ← .okOr .missingOutputCount self.outputCount
  if self.spEcdhShares.isEmpty ≠ self.spDleqProofs.isEmpty then .err .spFieldMismatch
  else .ok {
    version := version
    txVersion := txVersion
    fallbackLockTime := self.fallbackLockTime
    txModifiableFlags := txModifiableFlags
    inputCount := inputCount
    outputCount := outputCount
    xpubs := self.xpubs
    spEcdhShares := self.spEcdhShares
    spDleqProofs := self.spDleqProofs
    proprietaries := self.proprietaries
    unknowns := self.unknowns }

/-! ## Encoder -/

/-- The key that is written for an entry. -/
def rawKey : (c : Field) → FieldKey c → Key
  | .version, _ => ⟨0xFB, []⟩
  | .txVersion, _ => ⟨0x02, []⟩
  | .fallbackLockTime, _ => ⟨0x03, []⟩
  | .inputCount, _ => ⟨0x04, []⟩
  | .outputCount, _ => ⟨0x05, []⟩
  | .txModifiableFlags, _ => ⟨0x06, []⟩
  | .xpubs, xpub => ⟨0x01, (xpubEncode xpub).bytes⟩
  | .spEcdhShares, scanKey => ⟨0x07, (compressedToBytes scanKey).bytes⟩
  | .spDleqProofs, scanKey => ⟨0x08, (compressedToBytes scanKey).bytes⟩
  | .proprietaries, key => key.toKey
  | .unknowns, key => key

/-- The encoder of a value. -/
def encodeValue : (c : Field) → FieldValue c → ExactSizeEncoder
  | .version, version => .ofBytes (u32ToLeBytes version.toU32).bytes
  | .txVersion, version => .ofBytes (txVersionCodec.encode version)
  | .fallbackLockTime, lockTime => .ofBytes (lockTimeCodec.encode lockTime)
  | .inputCount, count => .ofBytes (compactSize count)
  | .outputCount, count => .ofBytes (compactSize count)
  | .txModifiableFlags, flags => .ofBytes (U8Array.ofByte flags.bits).bytes
  | .xpubs, source => .ofBytes (keySourceBytes source)
  | .spEcdhShares, share => .ofBytes (compressedToBytes share).bytes
  | .spDleqProofs, proof => .ofBytes proof.bytes
  | .proprietaries, value => .ofBytes value
  | .unknowns, value => .ofBytes value

/-- The limits of the value decoders. -/
def FitsValue : (c : Field) → FieldValue c → Prop
  | .inputCount, count => count ≤ compactSizeLimit
  | .outputCount, count => count ≤ compactSizeLimit
  | c, v => InLimit (encodeValue c) v

/-- The decoder and the encoder of the global map. -/
def codec : MapCodec DecodeError Fields Global where
  table := table
  decoder := valueDecoderOf
  fromKey := fromKey
  entryKey := entryKey
  Allowed
    | .version, v => v = .two
    | _, _ => True
  store := store
  finish := Fields.finish
  atEnd := .ok
  keyDecode := .keyDecode
  earlyEnd := .earlyEnd
  rawKey := rawKey
  encodeValue := encodeValue
  Fits := FitsValue

/-- `GlobalDecoder`. -/
def decoder : PushDecoder UInt8 DecodeError Global :=
  codec.mapDecoder

/-- The fields that decode into a global map. -/
def fields (self : Global) : Fields where
  version := some self.version
  txVersion := some self.txVersion
  inputCount := some self.inputCount
  outputCount := some self.outputCount
  fallbackLockTime := self.fallbackLockTime
  txModifiableFlags := some self.txModifiableFlags
  xpubs := self.xpubs
  spEcdhShares := self.spEcdhShares
  spDleqProofs := self.spDleqProofs
  proprietaries := self.proprietaries
  unknowns := self.unknowns

/-- `GlobalMapEncoder::next_state`. -/
def nextState (self : Global) : EncoderState Field → Option (EncoderState Field)
  | .group .version => some (.group .txVersion)
  | .group .txVersion =>
      if self.fallbackLockTime.isSome then some (.group .fallbackLockTime)
      else some (.group .inputCount)
  | .group .fallbackLockTime => some (.group .inputCount)
  | .group .inputCount => some (.group .outputCount)
  | .group .outputCount => some (.group .txModifiableFlags)
  | .group .txModifiableFlags => some (.group .xpubs)
  | .group .xpubs => some (.group .spEcdhShares)
  | .group .spEcdhShares => some (.group .spDleqProofs)
  | .group .spDleqProofs => some (.group .proprietaries)
  | .group .proprietaries => some (.group .unknowns)
  | .group .unknowns => some .separator
  | .separator => none

/-- The bytes of `GlobalMapEncoder`. -/
def encode (self : Global) : Bytes :=
  codec.encode self.fields self.nextState (.group .version)

/-! ## The codec is lawful -/

omit [BitcoinCodecs] in
theorem lawful_column (c : Field) : (column c).Lawful := by
  cases c <;> unfold column
  all_goals first
    | exact Column.lawful_option fun _ _ => rfl
    | exact Column.lawful_map fun _ _ => rfl

omit [BitcoinCodecs] in
theorem lookup_empty (c : Field) (k : FieldKey c) : (column c).lookup Fields.empty k = none := by
  cases c <;> unfold column
  all_goals first
    | exact Column.map_lookup_empty rfl k
    | rfl

omit [BitcoinTypes] [BitcoinCodecs] in
theorem mem_order (c : Field) : c ∈ order := by
  cases c <;> decide

omit [BitcoinCodecs] in
theorem lawful_table : table.Lawful where
  column := lawful_column
  frame {c d} hne m k v := by
    cases c <;> cases d <;> first | rfl | exact absurd rfl hne
  ext {m m'} h := by
    apply Fields.ext
    · exact congrFun (h .version) ()
    · exact congrFun (h .txVersion) ()
    · exact congrFun (h .inputCount) ()
    · exact congrFun (h .outputCount) ()
    · exact congrFun (h .fallbackLockTime) ()
    · exact congrFun (h .txModifiableFlags) ()
    · exact Column.eq_of_lookup_eq (h .xpubs)
    · exact Column.eq_of_lookup_eq (h .spEcdhShares)
    · exact Column.eq_of_lookup_eq (h .spDleqProofs)
    · exact Column.eq_of_lookup_eq (h .proprietaries)
    · exact Column.eq_of_lookup_eq (h .unknowns)
  lookup_empty := lookup_empty
  nodup_order := (by decide : order.Nodup)
  mem_order := mem_order

section

variable [LawfulCodecs]

theorem valueCodec (c : Field) : ValueCodecOn (valueDecoderOf c) (encodeValue c) (FitsValue c) := by
  cases c with
  | version => exact valueCodec_version.mapErr
  | txVersion => exact (ValueCodec.of_codec LawfulCodecs.txVersion_lawful fun _ => rfl).mapErr
  | fallbackLockTime => exact (ValueCodec.of_codec LawfulCodecs.lockTime_lawful fun _ => rfl).mapErr
  | inputCount => exact valueCodec_count.mapErr
  | outputCount => exact valueCodec_count.mapErr
  | txModifiableFlags => exact valueCodec_txModifiableFlags.mapErr
  | xpubs => exact valueCodec_keySource.mapErr
  | spEcdhShares => exact valueCodec_compressed.mapErr
  | spDleqProofs => exact valueCodec_dleqProof.mapErr
  | proprietaries => exact valueCodec_byteVec.mapErr
  | unknowns => exact valueCodec_byteVec.mapErr

theorem hasKeyCodec {c : Field} (hproprietary : c ≠ .proprietaries) (hunknown : c ≠ .unknowns) :
    codec.HasKeyCodec c := by
  cases c with
  | version => exact ⟨0xFB, _, keyCodec_unit, by decide, fun _ => ⟨rfl, rfl⟩⟩
  | txVersion => exact ⟨0x02, _, keyCodec_unit, by decide, fun _ => ⟨rfl, rfl⟩⟩
  | fallbackLockTime => exact ⟨0x03, _, keyCodec_unit, by decide, fun _ => ⟨rfl, rfl⟩⟩
  | inputCount => exact ⟨0x04, _, keyCodec_unit, by decide, fun _ => ⟨rfl, rfl⟩⟩
  | outputCount => exact ⟨0x05, _, keyCodec_unit, by decide, fun _ => ⟨rfl, rfl⟩⟩
  | txModifiableFlags => exact ⟨0x06, _, keyCodec_unit, by decide, fun _ => ⟨rfl, rfl⟩⟩
  | xpubs => exact ⟨0x01, _, keyCodec_xpub _, by decide, fun _ => ⟨rfl, rfl⟩⟩
  | spEcdhShares => exact ⟨0x07, _, keyCodec_scanKey _, by decide, fun _ => ⟨rfl, rfl⟩⟩
  | spDleqProofs => exact ⟨0x08, _, keyCodec_scanKey _, by decide, fun _ => ⟨rfl, rfl⟩⟩
  | proprietaries => exact absurd rfl hproprietary
  | unknowns => exact absurd rfl hunknown

theorem rewrites {c : Field} {key : Key} {k : FieldKey c} (h : codec.ReadsKey c key k) :
    codec.ReadsKey c (rawKey c k) k ∧ (rawKey c k).body.length ≤ key.body.length := by
  by_cases hproprietary : c = .proprietaries
  · subst hproprietary
    exact h.rewrites_self (proprietaryOfKey_eq_ok.mp h.entryKey).1.symm
  · by_cases hunknown : c = .unknowns
    · subst hunknown
      exact h.rewrites_self (Except.ok.inj h.entryKey).symm
    · exact (hasKeyCodec hproprietary hunknown).rewrites h

theorem returns_entryKey (c : Field) (key : Key) : (entryKey c key).Returns := by
  by_cases hproprietary : c = .proprietaries
  · subst hproprietary
    exact returns_proprietaryOfKey _ key
  · by_cases hunknown : c = .unknowns
    · subst hunknown
      trivial
    · exact (hasKeyCodec hproprietary hunknown).returns_entryKey key

omit [BitcoinCodecs] [LawfulCodecs] in
theorem storeVersion_eq_ok [BitcoinCodecs] {key : Key} {v : Version} {m m' : Fields} :
    storeVersion key (.ok v) m = .ok m' ↔
      v = .two ∧ table.insertNew () m ⟨.version, (), v⟩ = .ok m' := by
  change (if v ≠ .two then Result.err (DecodeError.wrongVersion v.toU32)
    else table.insertNew (.duplicateKey key) m ⟨.version, (), v⟩) = .ok m' ↔ _
  by_cases hv : v = .two
  · rw [if_neg (not_not.mpr hv), insertNew_eq_ok_iff _ ()]
    simp [hv]
  · rw [if_pos hv]
    simp [hv]

omit [LawfulCodecs] in
/-- All fields but the version share one arm. -/
theorem store_eq {c : Field} (hc : c ≠ .version) (key : Key)
    (ended : Result DecodeError (FieldValue c)) (m : Fields) :
    store c key ended m = storeEntry table (.duplicateKey key) c (entryKey c key) ended m := by
  cases c with
  | version => exact absurd rfl hc
  | _ => rfl

omit [LawfulCodecs] in
theorem closes_store (c : Field) (key : Key) (m : Fields) :
    (valueDecoderOf c).Closes fun ended => store c key ended m := by
  by_cases hc : c = .version
  · subst hc
    exact ⟨fun e => ⟨versionEndError e, rfl⟩, .inr ⟨rfl, rfl⟩⟩
  · simp only [store_eq hc]
    exact closes_storeEntry (T := table) _

omit [LawfulCodecs] in
theorem store_eq_ok {c : Field} {key : Key} {v : FieldValue c} {m m' : Fields} :
    store c key (.ok v) m = .ok m' ↔ codec.Allowed c v ∧ ∃ k, entryKey c key = .ok k ∧
      table.insertNew () m ⟨c, k, v⟩ = .ok m' := by
  by_cases hc : c = .version
  · subst hc
    refine storeVersion_eq_ok.trans (and_congr_right fun _ => ?_)
    exact ⟨fun h => ⟨(), rfl, h⟩, fun ⟨_, _, h⟩ => h⟩
  · have hallowed : codec.Allowed c v := by
      cases c with
      | version => exact absurd rfl hc
      | _ => trivial
    rw [store_eq hc]
    exact (storeEntry_eq_ok (T := table)).trans (and_iff_right hallowed).symm

theorem returns_store (c : Field) (key : Key) (v : FieldValue c) (m : Fields) :
    (store c key (.ok v) m).Returns := by
  by_cases hc : c = .version
  · subst hc
    change (if v ≠ .two then Result.err (DecodeError.wrongVersion v.toU32)
      else table.insertNew (.duplicateKey key) m ⟨.version, (), v⟩).Returns
    split
    · trivial
    · exact Table.Lawful.returns_insertNew _ _ _
  · rw [store_eq hc]
    exact returns_storeEntry (T := table) (returns_entryKey c key) v

omit [BitcoinCodecs] [LawfulCodecs] in
theorem returns_finish [BitcoinCodecs] (m : Fields) : m.finish.Returns := by
  apply Result.Returns.bind (Result.returns_okOr _ _)
  intro version _
  apply Result.Returns.bind (Result.returns_okOr _ _)
  intro txVersion _
  apply Result.Returns.bind (Result.returns_okOr _ _)
  intro inputCount _
  apply Result.Returns.bind (Result.returns_okOr _ _)
  intro outputCount _
  split <;> trivial

omit [LawfulCodecs] in
theorem returns_fromKey (key : Key) : (fromKey key).Returns := by
  unfold fromKey
  repeat' first | exact trivial | apply Result.Returns.ite

/-- The decoder and the encoder of the global map match field by field. -/
theorem lawful_codec : codec.Lawful where
  table := lawful_table
  codec := valueCodec
  closes := closes_store
  store_eq_ok := store_eq_ok
  rewrites := rewrites
  returns_store := returns_store
  returns_fromKey := returns_fromKey
  returns_finish := returns_finish
  returns_atEnd _ := trivial

/-! ## Round trip -/

/-- No unknown key has a type that the decoder recognises or excludes. -/
def UnknownKeys (self : Global) : Prop :=
  ∀ key ∈ self.unknowns, fromKey key = .ok .unknowns

/-- All keys, values and counts are inside the limits of the decoder. -/
def Fits (self : Global) : Prop :=
  ∀ e ∈ table.entries self.fields,
    (rawKey e.col e.key).body.length ≤ compactSizeLimit ∧ FitsValue e.col e.value

/-- The fields that have a state of the encoder in any case, and the fallback if it is set. -/
def present (self : Global) : Field → Bool
  | .fallbackLockTime => self.fallbackLockTime.isSome
  | _ => true

omit [LawfulCodecs] in
/-- The encoder visits every field. -/
theorem visits (self : Global) :
    codec.Visits self.fields self.nextState (.group .version) self.present order where
  nodup := (by decide : order.Nodup)
  chained := ⟨rfl, rfl, rfl, rfl, rfl, rfl, rfl, rfl, rfl, rfl, rfl, rfl⟩
  start := rfl
  skipped c hc := by
    cases c with
    | fallbackLockTime => exact Column.option_rows_eq_nil (Option.isSome_eq_false_iff.mp hc)
    | _ => cases hc
  rest c hc := absurd (mem_order c) hc

omit [LawfulCodecs] in
theorem finish_eq_ok {m : Fields} {self : Global} : m.finish = .ok self ↔
    self.spEcdhShares.isEmpty = self.spDleqProofs.isEmpty ∧
      { m with txModifiableFlags := some (m.txModifiableFlags.getD .new) } = self.fields := by
  constructor
  · intro h
    rcases Result.bind_eq_ok.mp h with ⟨version, hversion, h⟩
    rcases Result.bind_eq_ok.mp h with ⟨txVersion, htxVersion, h⟩
    rcases Result.bind_eq_ok.mp h with ⟨inputCount, hinputCount, h⟩
    rcases Result.bind_eq_ok.mp h with ⟨outputCount, houtputCount, h⟩
    split at h
    · cases h
    · rename_i hpaired
      cases h
      refine ⟨not_not.mp hpaired, ?_⟩
      rw [Result.okOr_eq_ok] at hversion htxVersion hinputCount houtputCount
      simp only [fields, ← hversion, ← htxVersion, ← hinputCount, ← houtputCount]
  · rintro ⟨hpaired, heq⟩
    rcases m with ⟨version, txVersion, inputCount, outputCount, fallback, flags, xpubs, shares,
      proofs, proprietaries, unknowns⟩
    simp only [fields, Fields.mk.injEq, Option.some.injEq] at heq
    rcases heq with ⟨rfl, rfl, rfl, rfl, rfl, hflags, rfl, rfl, rfl, rfl, rfl⟩
    simp only [Fields.finish, Result.okOr, Result.ok_bind, hflags]
    rw [if_neg (not_not.mpr hpaired)]

/-- What is written for a key is read as the key. -/
theorem readsKey_rawKey {c : Field} {k : FieldKey c}
    (hle : (rawKey c k).body.length ≤ compactSizeLimit)
    (hunknowns : c = .unknowns → fromKey (rawKey c k) = .ok c) :
    codec.ReadsKey c (rawKey c k) k := by
  by_cases hproprietary : c = .proprietaries
  · subst hproprietary
    exact ⟨rfl, proprietaryOfKey_eq_ok.mpr ⟨rfl, k.length_pfx_le.trans hle⟩⟩
  · by_cases hunknown : c = .unknowns
    · subst hunknown
      exact ⟨hunknowns rfl, rfl⟩
    · exact (hasKeyCodec hproprietary hunknown).readsKey_rawKey

/-- What a map decoder of version 2 requires of a global map. -/
structure WellFormed (g : Global) : Prop where
  version : g.version = .two
  spPaired : g.spEcdhShares.isEmpty = g.spDleqProofs.isEmpty
  unknownKeys : g.UnknownKeys

/-- The entries of a well-formed global map inside the limits are read as they are. -/
theorem admits_iff {self : Global} : (∀ e ∈ table.entries self.fields, codec.Admits e) ↔
    self.version = .two ∧ self.UnknownKeys ∧ self.Fits := by
  refine (codec.admits_iff lawful_table .unknowns fun _ _ => readsKey_rawKey).trans ?_
  constructor
  · rintro ⟨hunknown, hfits, hallowed⟩
    exact ⟨hallowed ⟨.version, (), self.version⟩ (lawful_table.mem_entries.mpr rfl),
      fun key hkey => hunknown key (Std.ExtTreeMap.mem_iff_isSome_getElem?.mp hkey), hfits⟩
  · rintro ⟨hversion, hunknown, hfits⟩
    refine ⟨fun key hkey => hunknown key (Std.ExtTreeMap.mem_iff_isSome_getElem?.mpr hkey), hfits,
      ?_⟩
    rintro ⟨c, k, v⟩ he
    cases c with
    | version =>
        cases lawful_table.mem_entries.mp he
        exact hversion
    | _ => trivial

omit [LawfulCodecs] in
/-- The fields of a well-formed global map finish to the map. -/
theorem finish_fields {self : Global} (h : self.WellFormed) :
    (self.fields.finish >>= .ok) = .ok self := by
  have hfinish : self.fields.finish = .ok self := finish_eq_ok.mpr ⟨h.spPaired, rfl⟩
  rw [hfinish]
  rfl

/-- A well-formed global map decodes from its encoding. -/
theorem decodes_encode {self : Global} (h : self.WellFormed) (hfits : self.Fits) :
    decoder.Decodes self.encode self :=
  lawful_codec.decodes_encode self.visits
    (admits_iff.mpr ⟨h.version, h.unknownKeys, hfits⟩) (finish_fields h)

omit [LawfulCodecs] in
/-- The entry that stands for flags that are left out. -/
theorem admits_flags (flags : TxModifiableFlags) :
    codec.Admits ⟨.txModifiableFlags, (), flags⟩ where
  readsKey := ⟨rfl, rfl⟩
  allowed := trivial
  key_le := (by decide : (⟨0x06, []⟩ : Key).body.length ≤ compactSizeLimit)
  fits := (by decide : 1 ≤ compactSizeLimit)

/-- A decoded global map is well-formed. -/
theorem wellFormed_of_accepts {b r : Bytes} {self : Global} (h : decoder.Accepts b self r) :
    self.WellFormed ∧ self.Fits := by
  rcases lawful_codec.exists_admits h with ⟨m, hadmits, hout⟩
  have hfinish : m.finish = .ok self := by
    rcases Result.bind_eq_ok.mp hout with ⟨g, hg, heq⟩
    cases heq
    exact hg
  rcases finish_eq_ok.mp hfinish with ⟨hpaired, heq⟩
  have hall : ∀ e ∈ table.entries self.fields, codec.Admits e := by
    rintro ⟨c, k, v⟩ he
    rw [lawful_table.mem_entries, ← heq] at he
    by_cases hc : c = .txModifiableFlags
    · subst hc
      exact admits_flags v
    · apply hadmits
      apply lawful_table.mem_entries.mpr
      cases c with
      | txModifiableFlags => exact absurd rfl hc
      | _ => exact he
  rcases admits_iff.mp hall with ⟨hversion, hunknown, hfits⟩
  exact ⟨⟨hversion, hpaired, hunknown⟩, hfits⟩

end

end Global

end RustPsbt
