import RustPsbt.Encoding.TapKeyOrigin
import RustPsbt.Encoding.TapTree
import RustPsbt.Map.KeyData
import RustPsbt.Map.Output

/-!
# Codec of the output map

`OutputDecoder` and `OutputMapEncoder` of version 2: the fields that the decoder collects,
its arms, and the states of the encoder.

Main results:

- Theorem `Output.lawful_codec`: the decoder and the encoder match field by field.
- Theorem `Output.decodes_encode`: a well-formed output map decodes from its encoding.
- Theorem `Output.wellFormed_of_accepts`: a decoded output map is well-formed.
-/

namespace RustPsbt

variable [BitcoinTypes] [BitcoinCodecs]

namespace Output

/-- `OutputDecodeError`. -/
inductive DecodeError where
  | duplicateKey (key : Key)
  | keyDecode (e : KeyDecodeError)
  | earlyEnd
  | invalidPublicKey (e : ExtError)
  | invalidXOnlyPublicKey
  | missingAmount
  | missingScriptPubkey
  | amount (e : ValueDecoderError ExtError)
  | script (e : ExtError)
  | redeemScript (e : ExtError)
  | witnessScript (e : ExtError)
  | bip32Derivation (e : KeySourceDecodeError)
  | tapInternalKey (e : ValueDecoderError (ArrayDecodeError ExtError))
  | tapTree (e : TapTreeDecodeError)
  | tapBip32Derivation (e : TapKeyOriginDecodeError)
  | proprietaryValue (e : ExtError)
  | unknownValue (e : ExtError)
  | validation (e : ValidationError)
  | spV0Info (e : ValueDecoderError (ArrayDecodeError ExtError))
  | spV0Label (e : ValueDecoderError ExtError)

/-! ## Collected fields -/

/-- The fields that `OutputDecoder` collects. -/
@[ext]
structure Fields where
  amount : Option Amount
  scriptPubkey : Option ScriptBuf
  redeemScript : Option ScriptBuf
  witnessScript : Option ScriptBuf
  bip32Derivations : BTreeMap PublicKey KeySource
  tapInternalKey : Option XOnlyPublicKey
  tapTree : Option TapTree
  tapKeyOrigins : BTreeMap XOnlyPublicKey TapKeyOrigin
  spV0Info : Option SpV0Info
  spV0Label : Option UInt32
  proprietaries : BTreeMap ProprietaryKey Bytes
  unknowns : BTreeMap Key Bytes

/-- The fields of a new decoder. -/
def Fields.empty : Fields where
  amount := none
  scriptPubkey := none
  redeemScript := none
  witnessScript := none
  bip32Derivations := {}
  tapInternalKey := none
  tapTree := none
  tapKeyOrigins := {}
  spV0Info := none
  spV0Label := none
  proprietaries := {}
  unknowns := {}

/-- The fields by name: the stages of the decoder that decode a value. -/
inductive Field where
  | amount
  | scriptPubkey
  | redeemScript
  | witnessScript
  | bip32Derivations
  | tapInternalKey
  | tapTree
  | tapKeyOrigins
  | spV0Info
  | spV0Label
  | proprietaries
  | unknowns
deriving DecidableEq

/-- The keys of a field. -/
abbrev FieldKey : Field → Type
  | .bip32Derivations => PublicKey
  | .tapKeyOrigins => XOnlyPublicKey
  | .proprietaries => ProprietaryKey
  | .unknowns => Key
  | _ => Unit

/-- The values of a field. -/
abbrev FieldValue : Field → Type
  | .amount => Amount
  | .scriptPubkey => ScriptBuf
  | .redeemScript => ScriptBuf
  | .witnessScript => ScriptBuf
  | .bip32Derivations => KeySource
  | .tapInternalKey => XOnlyPublicKey
  | .tapTree => TapTree
  | .tapKeyOrigins => TapKeyOrigin
  | .spV0Info => SpV0Info
  | .spV0Label => UInt32
  | .proprietaries => Bytes
  | .unknowns => Bytes

/-- Access to a field. -/
def column : (c : Field) → Column Fields (FieldKey c) (FieldValue c)
  | .amount => .option Fields.amount fun m v => { m with amount := some v }
  | .scriptPubkey => .option Fields.scriptPubkey fun m v => { m with scriptPubkey := some v }
  | .redeemScript => .option Fields.redeemScript fun m v => { m with redeemScript := some v }
  | .witnessScript => .option Fields.witnessScript fun m v => { m with witnessScript := some v }
  | .bip32Derivations =>
      .map Fields.bip32Derivations fun m t => { m with bip32Derivations := t }
  | .tapInternalKey =>
      .option Fields.tapInternalKey fun m v => { m with tapInternalKey := some v }
  | .tapTree => .option Fields.tapTree fun m v => { m with tapTree := some v }
  | .tapKeyOrigins => .map Fields.tapKeyOrigins fun m t => { m with tapKeyOrigins := t }
  | .spV0Info => .option Fields.spV0Info fun m v => { m with spV0Info := some v }
  | .spV0Label => .option Fields.spV0Label fun m v => { m with spV0Label := some v }
  | .proprietaries => .map Fields.proprietaries fun m t => { m with proprietaries := t }
  | .unknowns => .map Fields.unknowns fun m t => { m with unknowns := t }

/-- The order of the fields in `OutputMapEncoder`. -/
def order : List Field :=
  [.amount, .scriptPubkey, .redeemScript, .witnessScript, .bip32Derivations, .tapInternalKey,
    .tapTree, .tapKeyOrigins, .spV0Info, .spV0Label, .proprietaries, .unknowns]

/-- The collected fields as a table. -/
def table : Table Fields where
  Col := Field
  K := FieldKey
  V := FieldValue
  column := column
  empty := .empty
  order := order

/-! ## Decoder -/

/-- `DecoderStage::from_key`. -/
def fromKey (key : Key) : Result DecodeError Field :=
  if key.typeValue = 0x03 then .ok .amount
  else if key.typeValue = 0x04 then .ok .scriptPubkey
  else if key.typeValue = 0x00 then .ok .redeemScript
  else if key.typeValue = 0x01 then .ok .witnessScript
  else if key.typeValue = 0x02 then .ok .bip32Derivations
  else if key.typeValue = 0x05 then .ok .tapInternalKey
  else if key.typeValue = 0x06 then .ok .tapTree
  else if key.typeValue = 0x07 then .ok .tapKeyOrigins
  else if key.typeValue = 0x09 then .ok .spV0Info
  else if key.typeValue = 0x0A then .ok .spV0Label
  else if key.typeValue = 0xFC then .ok .proprietaries
  else .ok .unknowns

/-- The decoder of a value, with the errors of a push. -/
def valueDecoderOf : (c : Field) → PushDecoder UInt8 DecodeError (FieldValue c)
  | .amount => (valueDecoder amountCodec.decoder).mapErr .amount
  | .scriptPubkey => byteVecDecoder.mapErr .script
  | .redeemScript => byteVecDecoder.mapErr .redeemScript
  | .witnessScript => byteVecDecoder.mapErr .witnessScript
  | .bip32Derivations => keySourceDecoder.mapErr .bip32Derivation
  | .tapInternalKey => (valueDecoder xOnlyPublicKeyDecoder).mapErr .tapInternalKey
  | .tapTree => tapTreeDecoder.mapErr .tapTree
  | .tapKeyOrigins => tapKeyOriginDecoder.mapErr .tapBip32Derivation
  | .spV0Info => (valueDecoder spV0InfoDecoder).mapErr .spV0Info
  | .spV0Label => (valueDecoder spV0LabelDecoder).mapErr .spV0Label
  | .proprietaries => byteVecDecoder.mapErr .proprietaryValue
  | .unknowns => byteVecDecoder.mapErr .unknownValue

/-- The error of key data that is no key. -/
def invalidKeyData (key : Key) : DecodeError :=
  .keyDecode (.invalidKeyData key)

/-- How the arms read the key data; most fields without keys ignore it. -/
def entryKey : (c : Field) → Key → Result DecodeError (FieldKey c)
  | .bip32Derivations => publicKeyOfKey .invalidPublicKey
  | .tapKeyOrigins => xOnlyOfKey fun _ => .invalidXOnlyPublicKey
  | .spV0Info => noKeyData invalidKeyData
  | .spV0Label => noKeyData invalidKeyData
  | .proprietaries => proprietaryOfKey (.keyDecode .invalidProprietaryKey)
  | .unknowns => fun key => .ok key
  | .amount => fun _ => .ok ()
  | .scriptPubkey => fun _ => .ok ()
  | .redeemScript => fun _ => .ok ()
  | .witnessScript => fun _ => .ok ()
  | .tapInternalKey => fun _ => .ok ()
  | .tapTree => fun _ => .ok ()

/-- The arms of `DecodingSpV0Info` and `DecodingSpV0Label`: unlike the other arms they look
for a duplicate before they look at the key data. -/
def storeSpV0 (c : Field) (k : FieldKey c) (key : Key) (ended : Result DecodeError (FieldValue c))
    (m : Fields) : Result DecodeError Fields := do
  let v ← ended
  if (table.lookup m c k).isSome then .err (.duplicateKey key)
  else if !key.key.isEmpty then .err (invalidKeyData key)
  else .ok (table.put m ⟨c, k, v⟩)

/-- The transition at the end of a value. -/
def store : (c : Field) → Key → Result DecodeError (FieldValue c) → Fields →
    Result DecodeError Fields
  | .spV0Info, key, ended, m => storeSpV0 .spV0Info () key ended m
  | .spV0Label, key, ended, m => storeSpV0 .spV0Label () key ended m
  | c, key, ended, m => storeEntry table (.duplicateKey key) c (entryKey c key) ended m

/-- The script: it may be missing next to a silent payment address. -/
def Fields.takeScriptPubkey (self : Fields) : Result DecodeError ScriptBuf :=
  match self.scriptPubkey with
  | some s => .ok s
  | none => if self.spV0Info.isSome then .ok [] else .err .missingScriptPubkey

/-- The transition at the separator. -/
def Fields.finish (self : Fields) : Result DecodeError Output := do
  let amount ← .okOr .missingAmount self.amount
  let scriptPubkey ← self.takeScriptPubkey
  let output : Output := {
    amount := amount
    scriptPubkey := scriptPubkey
    redeemScript := self.redeemScript
    witnessScript := self.witnessScript
    bip32Derivations := self.bip32Derivations
    tapInternalKey := self.tapInternalKey
    tapTree := self.tapTree
    tapKeyOrigins := self.tapKeyOrigins
    spV0Info := self.spV0Info
    spV0Label := self.spV0Label
    proprietaries := self.proprietaries
    unknowns := self.unknowns }
  output.validate.mapErr .validation
  .ok output

/-! ## Encoder -/

/-- The key that is written for an entry. -/
def rawKey : (c : Field) → FieldKey c → Key
  | .amount, _ => ⟨0x03, []⟩
  | .scriptPubkey, _ => ⟨0x04, []⟩
  | .redeemScript, _ => ⟨0x00, []⟩
  | .witnessScript, _ => ⟨0x01, []⟩
  | .bip32Derivations, key => ⟨0x02, publicKeyBytes key⟩
  | .tapInternalKey, _ => ⟨0x05, []⟩
  | .tapTree, _ => ⟨0x06, []⟩
  | .tapKeyOrigins, key => ⟨0x07, (xOnlySerialize key).bytes⟩
  | .spV0Info, _ => ⟨0x09, []⟩
  | .spV0Label, _ => ⟨0x0A, []⟩
  | .proprietaries, key => key.toKey
  | .unknowns, key => key

/-- The encoder of a value. -/
def encodeValue : (c : Field) → FieldValue c → ExactSizeEncoder
  | .amount, amount => .ofBytes (amountCodec.encode amount)
  | .scriptPubkey, script => .ofBytes script
  | .redeemScript, script => .ofBytes script
  | .witnessScript, script => .ofBytes script
  | .bip32Derivations, source => .ofBytes (keySourceBytes source)
  | .tapInternalKey, key => .ofBytes (xOnlySerialize key).bytes
  | .tapTree, tree => tapTreeEncoder tree
  | .tapKeyOrigins, origin => .ofBytes (tapKeyOriginBytes origin)
  | .spV0Info, info => .ofBytes (SpV0Info.toBytes info).bytes
  | .spV0Label, label => .ofBytes (u32ToLeBytes label).bytes
  | .proprietaries, value => .ofBytes value
  | .unknowns, value => .ofBytes value

/-- The decoder and the encoder of an output map. -/
def codec : MapCodec DecodeError Fields Output where
  table := table
  decoder := valueDecoderOf
  fromKey := fromKey
  entryKey := entryKey
  Allowed _ _ := True
  store := store
  finish := Fields.finish
  atEnd := .ok
  keyDecode := .keyDecode
  earlyEnd := .earlyEnd
  rawKey := rawKey
  encodeValue := encodeValue
  Fits c := InLimit (encodeValue c)

/-- `OutputDecoder`. -/
def decoder : PushDecoder UInt8 DecodeError Output :=
  codec.mapDecoder

/-- BIP-375: the script of a silent payment output that is not derived is left out. -/
def omitScript (self : Output) : Bool :=
  self.spV0Info.isSome && self.scriptPubkey.isEmpty

/-- The fields that decode into an output map. -/
def fields (self : Output) : Fields where
  amount := some self.amount
  scriptPubkey := if self.omitScript then none else some self.scriptPubkey
  redeemScript := self.redeemScript
  witnessScript := self.witnessScript
  bip32Derivations := self.bip32Derivations
  tapInternalKey := self.tapInternalKey
  tapTree := self.tapTree
  tapKeyOrigins := self.tapKeyOrigins
  spV0Info := self.spV0Info
  spV0Label := self.spV0Label
  proprietaries := self.proprietaries
  unknowns := self.unknowns

/-- `OutputMapEncoder::sp_v0_label_state`. -/
def spV0LabelState (self : Output) : Option (EncoderState Field) :=
  if self.spV0Label.isSome then some (.group .spV0Label) else some (.group .proprietaries)

/-- `OutputMapEncoder::sp_v0_info_state`. -/
def spV0InfoState (self : Output) : Option (EncoderState Field) :=
  if self.spV0Info.isSome then some (.group .spV0Info) else self.spV0LabelState

/-- `OutputMapEncoder::tap_tree_state`. -/
def tapTreeState (self : Output) : Option (EncoderState Field) :=
  if self.tapTree.isSome then some (.group .tapTree) else some (.group .tapKeyOrigins)

/-- `OutputMapEncoder::tap_internal_key_state`. -/
def tapInternalKeyState (self : Output) : Option (EncoderState Field) :=
  if self.tapInternalKey.isSome then some (.group .tapInternalKey) else self.tapTreeState

/-- `OutputMapEncoder::witness_script_state`. -/
def witnessScriptState (self : Output) : Option (EncoderState Field) :=
  if self.witnessScript.isSome then some (.group .witnessScript)
  else some (.group .bip32Derivations)

/-- `OutputMapEncoder::redeem_script_state`. -/
def redeemScriptState (self : Output) : Option (EncoderState Field) :=
  if self.redeemScript.isSome then some (.group .redeemScript) else self.witnessScriptState

/-- `OutputMapEncoder::script_state`. -/
def scriptState (self : Output) : Option (EncoderState Field) :=
  if self.omitScript then self.redeemScriptState else some (.group .scriptPubkey)

/-- `OutputMapEncoder::next_state`. -/
def nextState (self : Output) : EncoderState Field → Option (EncoderState Field)
  | .group .amount => self.scriptState
  | .group .scriptPubkey => self.redeemScriptState
  | .group .redeemScript => self.witnessScriptState
  | .group .witnessScript => some (.group .bip32Derivations)
  | .group .bip32Derivations => self.tapInternalKeyState
  | .group .tapInternalKey => self.tapTreeState
  | .group .tapTree => some (.group .tapKeyOrigins)
  | .group .tapKeyOrigins => self.spV0InfoState
  | .group .spV0Info => self.spV0LabelState
  | .group .spV0Label => some (.group .proprietaries)
  | .group .proprietaries => some (.group .unknowns)
  | .group .unknowns => some .separator
  | .separator => none

/-- The bytes of `OutputMapEncoder`. -/
def encode (self : Output) : Bytes :=
  codec.encode self.fields self.nextState (.group .amount)

/-! ## The codec is lawful -/

omit [BitcoinCodecs] in
theorem lawful_column (c : Field) : (column c).Lawful := by
  cases c <;> unfold column
  all_goals first
    | exact Column.lawful_option fun _ _ => rfl
    | exact Column.lawful_map fun _ _ => rfl

omit [BitcoinCodecs] in
theorem lookup_empty (c : Field) (k : FieldKey c) : (column c).lookup Fields.empty k = none := by
  cases c <;> unfold column
  all_goals first
    | exact Column.map_lookup_empty rfl k
    | rfl

omit [BitcoinTypes] [BitcoinCodecs] in
theorem mem_order (c : Field) : c ∈ order := by
  cases c <;> decide

omit [BitcoinCodecs] in
theorem lawful_table : table.Lawful where
  column := lawful_column
  frame {c d} hne m k v := by
    cases c <;> cases d <;> first | rfl | exact absurd rfl hne
  ext {m m'} h := by
    apply Fields.ext
    · exact congrFun (h .amount) ()
    · exact congrFun (h .scriptPubkey) ()
    · exact congrFun (h .redeemScript) ()
    · exact congrFun (h .witnessScript) ()
    · exact Column.eq_of_lookup_eq (h .bip32Derivations)
    · exact congrFun (h .tapInternalKey) ()
    · exact congrFun (h .tapTree) ()
    · exact Column.eq_of_lookup_eq (h .tapKeyOrigins)
    · exact congrFun (h .spV0Info) ()
    · exact congrFun (h .spV0Label) ()
    · exact Column.eq_of_lookup_eq (h .proprietaries)
    · exact Column.eq_of_lookup_eq (h .unknowns)
  lookup_empty := lookup_empty
  nodup_order := (by decide : order.Nodup)
  mem_order := mem_order

section

variable [LawfulCodecs]

theorem valueCodec (c : Field) : ValueCodec (valueDecoderOf c) (encodeValue c) := by
  cases c with
  | amount => exact (ValueCodec.of_codec LawfulCodecs.amount_lawful fun _ => rfl).mapErr
  | scriptPubkey => exact valueCodec_byteVec.mapErr
  | redeemScript => exact valueCodec_byteVec.mapErr
  | witnessScript => exact valueCodec_byteVec.mapErr
  | bip32Derivations => exact valueCodec_keySource.mapErr
  | tapInternalKey => exact valueCodec_xOnly.mapErr
  | tapTree => exact valueCodec_tapTree.mapErr
  | tapKeyOrigins => exact valueCodec_tapKeyOrigin.mapErr
  | spV0Info => exact valueCodec_spV0Info.mapErr
  | spV0Label => exact valueCodec_spV0Label.mapErr
  | proprietaries => exact valueCodec_byteVec.mapErr
  | unknowns => exact valueCodec_byteVec.mapErr

theorem hasKeyCodec {c : Field} (hproprietary : c ≠ .proprietaries) (hunknown : c ≠ .unknowns) :
    codec.HasKeyCodec c := by
  cases c with
  | amount => exact ⟨0x03, _, keyCodec_unit, by decide, fun _ => ⟨rfl, rfl⟩⟩
  | scriptPubkey => exact ⟨0x04, _, keyCodec_unit, by decide, fun _ => ⟨rfl, rfl⟩⟩
  | redeemScript => exact ⟨0x00, _, keyCodec_unit, by decide, fun _ => ⟨rfl, rfl⟩⟩
  | witnessScript => exact ⟨0x01, _, keyCodec_unit, by decide, fun _ => ⟨rfl, rfl⟩⟩
  | bip32Derivations => exact ⟨0x02, _, keyCodec_publicKey _, by decide, fun _ => ⟨rfl, rfl⟩⟩
  | tapInternalKey => exact ⟨0x05, _, keyCodec_unit, by decide, fun _ => ⟨rfl, rfl⟩⟩
  | tapTree => exact ⟨0x06, _, keyCodec_unit, by decide, fun _ => ⟨rfl, rfl⟩⟩
  | tapKeyOrigins =>
      exact ⟨0x07, _, keyCodec_xOnly fun _ => DecodeError.invalidXOnlyPublicKey, by decide,
        fun _ => ⟨rfl, rfl⟩⟩
  | spV0Info => exact ⟨0x09, _, keyCodec_noKeyData _, by decide, fun _ => ⟨rfl, rfl⟩⟩
  | spV0Label => exact ⟨0x0A, _, keyCodec_noKeyData _, by decide, fun _ => ⟨rfl, rfl⟩⟩
  | proprietaries => exact absurd rfl hproprietary
  | unknowns => exact absurd rfl hunknown

theorem rewrites {c : Field} {key : Key} {k : FieldKey c} (h : codec.ReadsKey c key k) :
    codec.ReadsKey c (rawKey c k) k ∧ (rawKey c k).body.length ≤ key.body.length := by
  by_cases hproprietary : c = .proprietaries
  · subst hproprietary
    exact h.rewrites_self (proprietaryOfKey_eq_ok.mp h.entryKey).1.symm
  · by_cases hunknown : c = .unknowns
    · subst hunknown
      exact h.rewrites_self (Except.ok.inj h.entryKey).symm
    · exact (hasKeyCodec hproprietary hunknown).rewrites h

theorem returns_entryKey (c : Field) (key : Key) : (entryKey c key).Returns := by
  by_cases hproprietary : c = .proprietaries
  · subst hproprietary
    exact returns_proprietaryOfKey _ key
  · by_cases hunknown : c = .unknowns
    · subst hunknown
      trivial
    · exact (hasKeyCodec hproprietary hunknown).returns_entryKey key

omit [LawfulCodecs] in
/-- All fields but the silent payment fields share one arm. -/
theorem store_eq {c : Field} (hinfo : c ≠ .spV0Info) (hlabel : c ≠ .spV0Label) (key : Key)
    (ended : Result DecodeError (FieldValue c)) (m : Fields) :
    store c key ended m = storeEntry table (.duplicateKey key) c (entryKey c key) ended m := by
  cases c with
  | spV0Info => exact absurd rfl hinfo
  | spV0Label => exact absurd rfl hlabel
  | _ => rfl

omit [LawfulCodecs] in
theorem closes_store (c : Field) (key : Key) (m : Fields) :
    (valueDecoderOf c).Closes fun ended => store c key ended m := by
  by_cases hinfo : c = .spV0Info
  · subst hinfo
    exact ⟨fun e => ⟨e, rfl⟩, .inr ⟨rfl, rfl⟩⟩
  · by_cases hlabel : c = .spV0Label
    · subst hlabel
      exact ⟨fun e => ⟨e, rfl⟩, .inr ⟨rfl, rfl⟩⟩
    · simp only [store_eq hinfo hlabel]
      exact closes_storeEntry (T := table) _

omit [LawfulCodecs] in
/-- The order of the checks makes no difference to what is stored. -/
theorem storeSpV0_eq_ok {c : Field} {k : FieldKey c} {key : Key} {v : FieldValue c}
    {m m' : Fields} (hentry : ∀ k', entryKey c key = .ok k' ↔ key.key.isEmpty ∧ k' = k) :
    storeSpV0 c k key (.ok v) m = .ok m' ↔ codec.Allowed c v ∧ ∃ k', entryKey c key = .ok k' ∧
      table.insertNew () m ⟨c, k', v⟩ = .ok m' := by
  have hstore : storeSpV0 c k key (.ok v) m = .ok m' ↔
      key.key.isEmpty ∧ table.insertNew () m ⟨c, k, v⟩ = .ok m' := by
    rw [Table.Lawful.insertNew_eq_ok]
    change (if (table.lookup m c k).isSome then Result.err (DecodeError.duplicateKey key)
      else if !key.key.isEmpty then .err (invalidKeyData key)
      else .ok (table.put m ⟨c, k, v⟩)) = .ok m' ↔ _
    cases table.lookup m c k <;> cases key.key.isEmpty <;> simp
  rw [hstore]
  constructor
  · intro h
    exact ⟨trivial, k, (hentry k).mpr ⟨h.1, rfl⟩, h.2⟩
  · rintro ⟨_, k', hk', hinsert⟩
    rcases (hentry k').mp hk' with ⟨hempty, rfl⟩
    exact ⟨hempty, hinsert⟩

omit [BitcoinTypes] [BitcoinCodecs] [LawfulCodecs] in
theorem noKeyData_eq_ok {ε : Type} {invalid : Key → ε} {key : Key} (k : Unit) :
    noKeyData invalid key = .ok k ↔ key.key.isEmpty ∧ k = () := by
  unfold noKeyData
  cases key.key.isEmpty <;> simp

omit [LawfulCodecs] in
theorem store_eq_ok {c : Field} {key : Key} {v : FieldValue c} {m m' : Fields} :
    store c key (.ok v) m = .ok m' ↔ codec.Allowed c v ∧ ∃ k, entryKey c key = .ok k ∧
      table.insertNew () m ⟨c, k, v⟩ = .ok m' := by
  by_cases hinfo : c = .spV0Info
  · subst hinfo
    exact storeSpV0_eq_ok (c := .spV0Info) noKeyData_eq_ok
  · by_cases hlabel : c = .spV0Label
    · subst hlabel
      exact storeSpV0_eq_ok (c := .spV0Label) noKeyData_eq_ok
    · rw [store_eq hinfo hlabel]
      exact (storeEntry_eq_ok (T := table)).trans (and_iff_right trivial).symm

omit [LawfulCodecs] in
theorem returns_storeSpV0 (c : Field) (k : FieldKey c) (key : Key) (v : FieldValue c)
    (m : Fields) : (storeSpV0 c k key (.ok v) m).Returns := by
  refine Result.Returns.bind (Result.returns_ok v) fun v _ => ?_
  exact Result.Returns.ite trivial (Result.Returns.ite trivial trivial)

theorem returns_store (c : Field) (key : Key) (v : FieldValue c) (m : Fields) :
    (store c key (.ok v) m).Returns := by
  by_cases hinfo : c = .spV0Info
  · subst hinfo
    exact returns_storeSpV0 .spV0Info () key v m
  · by_cases hlabel : c = .spV0Label
    · subst hlabel
      exact returns_storeSpV0 .spV0Label () key v m
    · rw [store_eq hinfo hlabel]
      exact returns_storeEntry (T := table) (returns_entryKey c key) v

omit [LawfulCodecs] in
theorem returns_fromKey (key : Key) : (fromKey key).Returns := by
  unfold fromKey
  repeat' first | exact trivial | apply Result.Returns.ite

omit [BitcoinCodecs] [LawfulCodecs] in
theorem returns_validate (self : Output) : self.validate.Returns := by
  unfold validate
  exact Result.Returns.ite trivial trivial

omit [LawfulCodecs] in
theorem returns_finish (m : Fields) : m.finish.Returns := by
  apply Result.Returns.bind (Result.returns_okOr _ _)
  intro amount _
  apply Result.Returns.bind
  · unfold Fields.takeScriptPubkey
    split
    · trivial
    · exact Result.Returns.ite trivial trivial
  · intro script _
    apply Result.Returns.bind (Result.returns_mapErr.mpr (returns_validate _))
    intro _ _
    trivial

/-- The decoder and the encoder of an output map match field by field. -/
theorem lawful_codec : codec.Lawful where
  table := lawful_table
  codec := valueCodec
  closes := closes_store
  store_eq_ok := store_eq_ok
  rewrites := rewrites
  returns_store := returns_store
  returns_fromKey := returns_fromKey
  returns_finish := returns_finish
  returns_atEnd _ := trivial

/-! ## Round trip -/

/-- No unknown key has a type that the decoder recognises. -/
def UnknownKeys (self : Output) : Prop :=
  ∀ key ∈ self.unknowns, fromKey key = .ok .unknowns

/-- All keys and values are inside the limits of the decoder. -/
def Fits (self : Output) : Prop :=
  ∀ e ∈ table.entries self.fields,
    (rawKey e.col e.key).body.length ≤ compactSizeLimit ∧ InLimit (encodeValue e.col) e.value

/-- The fields that have a state of the encoder. -/
def present (self : Output) : Field → Bool
  | .scriptPubkey => !self.omitScript
  | .redeemScript => self.redeemScript.isSome
  | .witnessScript => self.witnessScript.isSome
  | .tapInternalKey => self.tapInternalKey.isSome
  | .tapTree => self.tapTree.isSome
  | .spV0Info => self.spV0Info.isSome
  | .spV0Label => self.spV0Label.isSome
  | _ => true

omit [LawfulCodecs] in
/-- The encoder visits every field. -/
theorem visits (self : Output) :
    codec.Visits self.fields self.nextState (.group .amount) self.present order where
  nodup := (by decide : order.Nodup)
  chained := by
    refine ⟨?_, rfl, rfl, rfl, rfl, rfl, rfl, rfl, rfl, rfl, rfl, rfl, rfl⟩
    change self.scriptState = EncoderState.firstOf self.present (.scriptPubkey :: _)
    unfold scriptState EncoderState.firstOf present
    cases self.omitScript <;> rfl
  start := rfl
  skipped c hc := by
    cases c with
    | scriptPubkey =>
        have homit : self.omitScript = true := by
          cases h : self.omitScript with
          | true => rfl
          | false => simp [present, h] at hc
        have hnone : self.fields.scriptPubkey = none := if_pos homit
        exact Column.option_rows_eq_nil (Option.isNone_iff_eq_none.mpr hnone)
    | redeemScript => exact Column.option_rows_eq_nil (Option.isSome_eq_false_iff.mp hc)
    | witnessScript => exact Column.option_rows_eq_nil (Option.isSome_eq_false_iff.mp hc)
    | tapInternalKey => exact Column.option_rows_eq_nil (Option.isSome_eq_false_iff.mp hc)
    | tapTree => exact Column.option_rows_eq_nil (Option.isSome_eq_false_iff.mp hc)
    | spV0Info => exact Column.option_rows_eq_nil (Option.isSome_eq_false_iff.mp hc)
    | spV0Label => exact Column.option_rows_eq_nil (Option.isSome_eq_false_iff.mp hc)
    | _ => cases hc
  rest c hc := absurd (mem_order c) hc

/-- The fields without an empty script next to a silent payment address, which an encoder
never writes. -/
def Fields.withoutEmptyScript (self : Fields) : Fields :=
  { self with
    scriptPubkey :=
      if self.spV0Info.isSome && self.scriptPubkey == some [] then none else self.scriptPubkey }

omit [BitcoinCodecs] [LawfulCodecs] in
theorem scriptPubkey_of_withoutEmptyScript {m : Fields} {script : ScriptBuf}
    (h : m.withoutEmptyScript.scriptPubkey = some script) : m.scriptPubkey = some script := by
  unfold Fields.withoutEmptyScript at h
  dsimp only at h
  split at h
  · cases h
  · exact h

omit [LawfulCodecs] in
/-- The script that is taken is the one that is written again. -/
theorem takeScriptPubkey_eq_ok {m : Fields} {script : ScriptBuf} :
    m.takeScriptPubkey = .ok script ↔ m.withoutEmptyScript.scriptPubkey =
      if m.spV0Info.isSome && script.isEmpty then none else some script := by
  unfold Fields.takeScriptPubkey Fields.withoutEmptyScript
  dsimp only
  cases m.spV0Info with
  | none => cases m.scriptPubkey <;> simp
  | some info =>
      cases m.scriptPubkey with
      | none => cases script <;> simp
      | some s => cases s <;> cases script <;> simp

omit [LawfulCodecs] in
theorem finish_eq_ok {m : Fields} {self : Output} : m.finish = .ok self ↔
    self.validate = .ok () ∧ m.withoutEmptyScript = self.fields := by
  constructor
  · intro h
    rcases Result.bind_eq_ok.mp h with ⟨amount, hamount, h⟩
    rcases Result.bind_eq_ok.mp h with ⟨script, hscript, h⟩
    rcases Result.bind_eq_ok.mp h with ⟨_, hvalid, h⟩
    rw [Result.okOr_eq_ok] at hamount
    rw [Result.mapErr_eq_ok] at hvalid
    cases h
    refine ⟨hvalid, ?_⟩
    apply Fields.ext
    · exact hamount
    · exact takeScriptPubkey_eq_ok.mp hscript
    all_goals rfl
  · rintro ⟨hvalid, heq⟩
    rcases m with ⟨amount, script, redeemScript, witnessScript, bip32Derivations, tapInternalKey,
      tapTree, tapKeyOrigins, spV0Info, spV0Label, proprietaries, unknowns⟩
    simp only [Fields.withoutEmptyScript, fields, Fields.mk.injEq] at heq
    rcases heq with ⟨rfl, hscript, rfl, rfl, rfl, rfl, rfl, rfl, rfl, rfl, rfl, rfl⟩
    apply Result.bind_eq_ok.mpr
    refine ⟨self.amount, rfl, Result.bind_eq_ok.mpr ⟨self.scriptPubkey, ?_, ?_⟩⟩
    · exact takeScriptPubkey_eq_ok.mpr hscript
    · exact Result.bind_eq_ok.mpr ⟨(), Result.mapErr_eq_ok.mpr hvalid, rfl⟩

/-- What is written for a key is read as the key. -/
theorem readsKey_rawKey {c : Field} {k : FieldKey c}
    (hle : (rawKey c k).body.length ≤ compactSizeLimit)
    (hunknowns : c = .unknowns → fromKey (rawKey c k) = .ok c) :
    codec.ReadsKey c (rawKey c k) k := by
  by_cases hproprietary : c = .proprietaries
  · subst hproprietary
    exact ⟨rfl, proprietaryOfKey_eq_ok.mpr ⟨rfl, k.length_pfx_le.trans hle⟩⟩
  · by_cases hunknown : c = .unknowns
    · subst hunknown
      exact ⟨hunknowns rfl, rfl⟩
    · exact (hasKeyCodec hproprietary hunknown).readsKey_rawKey

/-- What the decoder of version 2 requires of an output map. -/
structure WellFormed (o : Output) : Prop where
  valid : o.validate = .ok ()
  unknownKeys : o.UnknownKeys

/-- The entries of a well-formed output map inside the limits are read as they are. -/
theorem admits_iff {self : Output} :
    (∀ e ∈ table.entries self.fields, codec.Admits e) ↔ self.UnknownKeys ∧ self.Fits := by
  refine (codec.admits_iff lawful_table .unknowns fun _ _ => readsKey_rawKey).trans ?_
  constructor
  · rintro ⟨hunknown, hfits, -⟩
    exact ⟨fun key hkey => hunknown key (Std.ExtTreeMap.mem_iff_isSome_getElem?.mp hkey), hfits⟩
  · rintro ⟨hunknown, hfits⟩
    exact ⟨fun key hkey => hunknown key (Std.ExtTreeMap.mem_iff_isSome_getElem?.mpr hkey), hfits,
      fun _ _ => trivial⟩

omit [BitcoinCodecs] [LawfulCodecs] in
/-- An empty script next to a silent payment address is not among the fields. -/
theorem withoutEmptyScript_fields (self : Output) :
    self.fields.withoutEmptyScript = self.fields := by
  apply Fields.ext
  · rfl
  · change (if _ then none else self.fields.scriptPubkey) = self.fields.scriptPubkey
    split
    · rename_i hempty
      simp only [Bool.and_eq_true, beq_iff_eq] at hempty
      have homit : self.omitScript = false := by
        by_contra h
        rw [Bool.not_eq_false] at h
        have hnone : self.fields.scriptPubkey = none := if_pos h
        cases hnone.symm.trans hempty.2
      have hscript : self.fields.scriptPubkey = some self.scriptPubkey := by
        simp [fields, homit]
      -- an empty script would have been omitted
      have hnil : self.scriptPubkey = [] := Option.some.inj (hscript.symm.trans hempty.2)
      have hinfo : self.spV0Info.isSome = true := hempty.1
      simp [omitScript, hinfo, hnil] at homit
    · rfl
  all_goals rfl

omit [LawfulCodecs] in
/-- The fields of a well-formed output map finish to the map. -/
theorem finish_fields {self : Output} (h : self.WellFormed) :
    (self.fields.finish >>= .ok) = .ok self := by
  have hfinish : self.fields.finish = .ok self :=
    finish_eq_ok.mpr ⟨h.valid, self.withoutEmptyScript_fields⟩
  rw [hfinish]
  rfl

/-- A well-formed output map decodes from its encoding. -/
theorem decodes_encode {self : Output} (h : self.WellFormed) (hfits : self.Fits) :
    decoder.Decodes self.encode self :=
  lawful_codec.decodes_encode self.visits (admits_iff.mpr ⟨h.unknownKeys, hfits⟩)
    (finish_fields h)

/-- A decoded output map is well-formed. -/
theorem wellFormed_of_accepts {b r : Bytes} {self : Output} (h : decoder.Accepts b self r) :
    self.WellFormed ∧ self.Fits := by
  rcases lawful_codec.exists_admits h with ⟨m, hadmits, hout⟩
  have hfinish : m.finish = .ok self := by
    rcases Result.bind_eq_ok.mp hout with ⟨o, ho, heq⟩
    cases heq
    exact ho
  rcases finish_eq_ok.mp hfinish with ⟨hvalid, heq⟩
  have hall : ∀ e ∈ table.entries self.fields, codec.Admits e := by
    rintro ⟨c, k, v⟩ he
    rw [lawful_table.mem_entries, ← heq] at he
    apply hadmits
    apply lawful_table.mem_entries.mpr
    cases c with
    | scriptPubkey => exact scriptPubkey_of_withoutEmptyScript he
    | _ => exact he
  rcases admits_iff.mp hall with ⟨hunknown, hfits⟩
  exact ⟨⟨hvalid, hunknown⟩, hfits⟩

end

end Output

end RustPsbt
