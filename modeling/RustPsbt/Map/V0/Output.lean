import RustPsbt.Map.OutputCodec

/-!
# Output maps of version 0

`OutputMapDecoder` and `OutputMapEncoder` of `map::v0::output`.  The decoder collects the
fields of version 2 without the amount and the script, which come from the unsigned
transaction; the stages decode values as in version 2.

Main results:

- Theorem `OutputV0.lawful_codec`: the decoder and the encoder match field by field.
- Theorem `OutputV0.admits_iff`: which output maps are decoded from what is written for
  their fields.
-/

namespace RustPsbt

variable [BitcoinTypes] [BitcoinCodecs]

/-- `OutputV0`: what an output map of version 0 carries of an output. -/
structure OutputV0 where
  redeemScript : Option ScriptBuf
  witnessScript : Option ScriptBuf
  bip32Derivations : BTreeMap PublicKey KeySource
  tapInternalKey : Option XOnlyPublicKey
  tapTree : Option TapTree
  tapKeyOrigins : BTreeMap XOnlyPublicKey TapKeyOrigin
  spV0Info : Option SpV0Info
  spV0Label : Option UInt32
  proprietaries : BTreeMap ProprietaryKey Bytes
  unknowns : BTreeMap Key Bytes

namespace OutputV0

/-- `OutputV0::into_output`. -/
def intoOutput (self : OutputV0) (amount : Amount) (scriptPubkey : ScriptBuf) : Output where
  amount := amount
  scriptPubkey := scriptPubkey
  redeemScript := self.redeemScript
  witnessScript := self.witnessScript
  bip32Derivations := self.bip32Derivations
  tapInternalKey := self.tapInternalKey
  tapTree := self.tapTree
  tapKeyOrigins := self.tapKeyOrigins
  spV0Info := self.spV0Info
  spV0Label := self.spV0Label
  proprietaries := self.proprietaries
  unknowns := self.unknowns

/-! ## Decoder -/

/-- The key types that the last arm of `OutputStage::from_key` refuses with key data. -/
def unkeyed (typeValue : UInt64) : Bool :=
  typeValue == 0x00 || typeValue == 0x01 || typeValue == 0x05 || typeValue == 0x06 ||
    typeValue == 0xFC

/-- `OutputStage::from_key`. -/
def fromKey (key : Key) : Result Output.DecodeError Output.Field :=
  if key.typeValue = 0x00 ∧ key.key = [] then .ok .redeemScript
  else if key.typeValue = 0x01 ∧ key.key = [] then .ok .witnessScript
  else if key.typeValue = 0x05 ∧ key.key = [] then .ok .tapInternalKey
  else if key.typeValue = 0x06 ∧ key.key = [] then .ok .tapTree
  -- the key of a proprietary field always has key data
  else if key.typeValue = 0xFC ∧ key.key = [] then .ok .proprietaries
  else if key.typeValue = 0x02 then .ok .bip32Derivations
  else if key.typeValue = 0x07 then .ok .tapKeyOrigins
  else if key.typeValue = 0x09 then .ok .spV0Info
  else if key.typeValue = 0x0A then .ok .spV0Label
  else if unkeyed key.typeValue && !key.key.isEmpty then
    .err (.keyDecode (.invalidKeyData key))
  else .ok .unknowns

/-- How the arms read the key data; the stages without keys ignore it. -/
def entryKey : (c : Output.Field) → Key → Result Output.DecodeError (Output.FieldKey c)
  | .bip32Derivations => publicKeyOfKey .invalidPublicKey
  | .tapKeyOrigins => xOnlyOfKey fun _ => .invalidXOnlyPublicKey
  | .proprietaries => proprietaryOfKey (.keyDecode .invalidProprietaryKey)
  | .unknowns => fun key => .ok key
  | .amount => fun _ => .ok ()
  | .scriptPubkey => fun _ => .ok ()
  | .redeemScript => fun _ => .ok ()
  | .witnessScript => fun _ => .ok ()
  | .tapInternalKey => fun _ => .ok ()
  | .tapTree => fun _ => .ok ()
  | .spV0Info => fun _ => .ok ()
  | .spV0Label => fun _ => .ok ()

/-- The transition at the end of a value; the arm of `DecodingProprietary` makes its
duplicate error from the key that it has read. -/
def store : (c : Output.Field) → Key → Result Output.DecodeError (Output.FieldValue c) →
    Output.Fields → Result Output.DecodeError Output.Fields
  | .proprietaries, key, ended, m =>
      storeRead Output.table .proprietaries (fun propKey => .duplicateKey propKey.toKey)
        (entryKey .proprietaries key) ended m
  | c, key, ended, m => storeEntry Output.table (.duplicateKey key) c (entryKey c key) ended m

/-- The transition at the separator: nothing is checked. -/
def finish (m : Output.Fields) : Result Output.DecodeError OutputV0 :=
  .ok {
    redeemScript := m.redeemScript
    witnessScript := m.witnessScript
    bip32Derivations := m.bip32Derivations
    tapInternalKey := m.tapInternalKey
    tapTree := m.tapTree
    tapKeyOrigins := m.tapKeyOrigins
    spV0Info := m.spV0Info
    spV0Label := m.spV0Label
    proprietaries := m.proprietaries
    unknowns := m.unknowns }

/-- The decoder and the encoder of an output map. -/
def codec : MapCodec Output.DecodeError Output.Fields OutputV0 where
  table := Output.table
  decoder := Output.valueDecoderOf
  fromKey := fromKey
  entryKey := entryKey
  Allowed _ _ := True
  store := store
  finish := finish
  atEnd := .ok
  keyDecode := .keyDecode
  earlyEnd := .earlyEnd
  rawKey := Output.rawKey
  encodeValue := Output.encodeValue
  Fits c := InLimit (Output.encodeValue c)

/-- `OutputMapDecoder`. -/
def decoder : PushDecoder UInt8 Output.DecodeError OutputV0 :=
  codec.mapDecoder

/-! ## Encoder -/

/-- The part of an output that an output map of version 0 carries. -/
def ofOutput (o : Output) : OutputV0 where
  redeemScript := o.redeemScript
  witnessScript := o.witnessScript
  bip32Derivations := o.bip32Derivations
  tapInternalKey := o.tapInternalKey
  tapTree := o.tapTree
  tapKeyOrigins := o.tapKeyOrigins
  spV0Info := o.spV0Info
  spV0Label := o.spV0Label
  proprietaries := o.proprietaries
  unknowns := o.unknowns

/-- The fields that decode into an output map. -/
def toFields (self : OutputV0) : Output.Fields where
  amount := none
  scriptPubkey := none
  redeemScript := self.redeemScript
  witnessScript := self.witnessScript
  bip32Derivations := self.bip32Derivations
  tapInternalKey := self.tapInternalKey
  tapTree := self.tapTree
  tapKeyOrigins := self.tapKeyOrigins
  spV0Info := self.spV0Info
  spV0Label := self.spV0Label
  proprietaries := self.proprietaries
  unknowns := self.unknowns

/-- The fields that an encoder of the output has. -/
def fields (o : Output) : Output.Fields :=
  (ofOutput o).toFields

/-- `OutputMapEncoder::sp_v0_label_or_next`. -/
def spV0LabelOrNext (o : Output) : Option (EncoderState Output.Field) :=
  if o.spV0Label.isSome then some (.group .spV0Label) else some .separator

/-- `OutputMapEncoder::sp_v0_info_or_next`. -/
def spV0InfoOrNext (o : Output) : Option (EncoderState Output.Field) :=
  if o.spV0Info.isSome then some (.group .spV0Info) else spV0LabelOrNext o

/-- `OutputMapEncoder::unknowns_or_next`. -/
def unknownsOrNext (o : Output) : Option (EncoderState Output.Field) :=
  if !o.unknowns.isEmpty then some (.group .unknowns) else spV0InfoOrNext o

/-- `OutputMapEncoder::proprietaries_or_next`. -/
def proprietariesOrNext (o : Output) : Option (EncoderState Output.Field) :=
  if !o.proprietaries.isEmpty then some (.group .proprietaries) else unknownsOrNext o

/-- `OutputMapEncoder::tap_key_origins_or_next`. -/
def tapKeyOriginsOrNext (o : Output) : Option (EncoderState Output.Field) :=
  if !o.tapKeyOrigins.isEmpty then some (.group .tapKeyOrigins) else proprietariesOrNext o

/-- `OutputMapEncoder::tap_tree_or_next`. -/
def tapTreeOrNext (o : Output) : Option (EncoderState Output.Field) :=
  if o.tapTree.isSome then some (.group .tapTree) else tapKeyOriginsOrNext o

/-- `OutputMapEncoder::tap_internal_key_or_next`. -/
def tapInternalKeyOrNext (o : Output) : Option (EncoderState Output.Field) :=
  if o.tapInternalKey.isSome then some (.group .tapInternalKey) else tapTreeOrNext o

/-- `OutputMapEncoder::bip32_or_next`. -/
def bip32OrNext (o : Output) : Option (EncoderState Output.Field) :=
  if !o.bip32Derivations.isEmpty then some (.group .bip32Derivations)
  else tapInternalKeyOrNext o

/-- `OutputMapEncoder::witness_script_or_next`. -/
def witnessScriptOrNext (o : Output) : Option (EncoderState Output.Field) :=
  if o.witnessScript.isSome then some (.group .witnessScript) else bip32OrNext o

/-- `OutputMapEncoder::next_state`; there is no state for the redeem script. -/
def nextState (o : Output) : EncoderState Output.Field → Option (EncoderState Output.Field)
  | .group .witnessScript => bip32OrNext o
  | .group .bip32Derivations => tapInternalKeyOrNext o
  | .group .tapInternalKey => tapTreeOrNext o
  | .group .tapTree => tapKeyOriginsOrNext o
  | .group .tapKeyOrigins => proprietariesOrNext o
  | .group .proprietaries => unknownsOrNext o
  | .group .unknowns => spV0InfoOrNext o
  | .group .spV0Info => spV0LabelOrNext o
  | .group .spV0Label => some .separator
  | _ => none

/-- The bytes of `OutputMapEncoder`; its first state is the one that `new` selects. -/
def encode (o : Output) : Bytes :=
  codec.encode (fields o) (nextState o) ((witnessScriptOrNext o).getD .separator)

/-! ## The codec is lawful -/

section

variable [LawfulCodecs]

omit [LawfulCodecs] in
/-- The fields of the unsigned transaction have no stage, and the stage of proprietary fields
takes no key data. -/
theorem of_fromKey_eq_ok {key : Key} {c : Output.Field} (h : fromKey key = .ok c) :
    c ≠ .amount ∧ c ≠ .scriptPubkey ∧ (c = .proprietaries → key.key = []) := by
  unfold fromKey at h
  split_ifs at h <;> cases h <;> simp_all

/-- No proprietary field is read. -/
theorem not_readsKey_proprietaries {key : Key} {k : ProprietaryKey} :
    ¬codec.ReadsKey .proprietaries key k := by
  intro h
  have hempty := (of_fromKey_eq_ok h.fromKey).2.2 rfl
  rw [(proprietaryOfKey_eq_ok.mp h.entryKey).1] at hempty
  exact k.bytes_ne_nil hempty

theorem hasKeyCodec {c : Output.Field} (hamount : c ≠ .amount) (hscript : c ≠ .scriptPubkey)
    (hproprietary : c ≠ .proprietaries) (hunknown : c ≠ .unknowns) : codec.HasKeyCodec c := by
  cases c with
  | amount => exact absurd rfl hamount
  | scriptPubkey => exact absurd rfl hscript
  | redeemScript => exact ⟨0x00, _, keyCodec_unit, by decide, fun _ => ⟨rfl, rfl⟩⟩
  | witnessScript => exact ⟨0x01, _, keyCodec_unit, by decide, fun _ => ⟨rfl, rfl⟩⟩
  | bip32Derivations => exact ⟨0x02, _, keyCodec_publicKey _, by decide, fun _ => ⟨rfl, rfl⟩⟩
  | tapInternalKey => exact ⟨0x05, _, keyCodec_unit, by decide, fun _ => ⟨rfl, rfl⟩⟩
  | tapTree => exact ⟨0x06, _, keyCodec_unit, by decide, fun _ => ⟨rfl, rfl⟩⟩
  | tapKeyOrigins =>
      exact ⟨0x07, _, keyCodec_xOnly fun _ => Output.DecodeError.invalidXOnlyPublicKey,
        by decide, fun _ => ⟨rfl, rfl⟩⟩
  | spV0Info => exact ⟨0x09, _, keyCodec_unit, by decide, fun _ => ⟨rfl, rfl⟩⟩
  | spV0Label => exact ⟨0x0A, _, keyCodec_unit, by decide, fun _ => ⟨rfl, rfl⟩⟩
  | proprietaries => exact absurd rfl hproprietary
  | unknowns => exact absurd rfl hunknown

theorem rewrites {c : Output.Field} {key : Key} {k : Output.FieldKey c}
    (h : codec.ReadsKey c key k) :
    codec.ReadsKey c (Output.rawKey c k) k ∧
      (Output.rawKey c k).body.length ≤ key.body.length := by
  obtain ⟨hamount, hscript, -⟩ := of_fromKey_eq_ok h.fromKey
  by_cases hproprietary : c = .proprietaries
  · subst hproprietary
    exact absurd h not_readsKey_proprietaries
  · by_cases hunknown : c = .unknowns
    · subst hunknown
      exact h.rewrites_self (Except.ok.inj h.entryKey).symm
    · exact (hasKeyCodec hamount hscript hproprietary hunknown).rewrites h

theorem returns_entryKey (c : Output.Field) (key : Key) : (entryKey c key).Returns := by
  cases c with
  | bip32Derivations => exact (keyCodec_publicKey _).returns key
  | tapKeyOrigins =>
      exact (keyCodec_xOnly fun _ => Output.DecodeError.invalidXOnlyPublicKey).returns key
  | proprietaries => exact returns_proprietaryOfKey _ key
  | _ => trivial

omit [LawfulCodecs] in
/-- All fields but the proprietary fields share one arm. -/
theorem store_eq {c : Output.Field} (hproprietary : c ≠ .proprietaries) (key : Key)
    (ended : Result Output.DecodeError (Output.FieldValue c)) (m : Output.Fields) :
    store c key ended m =
      storeEntry Output.table (.duplicateKey key) c (entryKey c key) ended m := by
  cases c with
  | proprietaries => exact absurd rfl hproprietary
  | _ => rfl

omit [LawfulCodecs] in
theorem closes_store (c : Output.Field) (key : Key) (m : Output.Fields) :
    (Output.valueDecoderOf c).Closes fun ended => store c key ended m := by
  by_cases hproprietary : c = .proprietaries
  · subst hproprietary
    exact closes_storeRead (T := Output.table) (c := .proprietaries) _
  · simp only [store_eq hproprietary]
    exact closes_storeEntry (T := Output.table) _

omit [LawfulCodecs] in
theorem store_eq_ok {c : Output.Field} {key : Key} {v : Output.FieldValue c}
    {m m' : Output.Fields} : store c key (.ok v) m = .ok m' ↔ True ∧
      ∃ k, entryKey c key = .ok k ∧ Output.table.insertNew () m ⟨c, k, v⟩ = .ok m' := by
  rw [true_and]
  by_cases hproprietary : c = .proprietaries
  · subst hproprietary
    exact storeRead_eq_ok (T := Output.table)
  · rw [store_eq hproprietary]
    exact storeEntry_eq_ok (T := Output.table)

theorem returns_store (c : Output.Field) (key : Key) (v : Output.FieldValue c)
    (m : Output.Fields) : (store c key (.ok v) m).Returns := by
  by_cases hproprietary : c = .proprietaries
  · subst hproprietary
    exact returns_storeRead (T := Output.table) (c := .proprietaries)
      (returns_entryKey .proprietaries key) v
  · rw [store_eq hproprietary]
    exact returns_storeEntry (T := Output.table) (returns_entryKey c key) v

omit [LawfulCodecs] in
theorem returns_fromKey (key : Key) : (fromKey key).Returns := by
  unfold fromKey
  repeat' first | exact trivial | apply Result.Returns.ite

/-- The decoder and the encoder of an output map match field by field. -/
theorem lawful_codec : codec.Lawful where
  table := Output.lawful_table
  codec := Output.valueCodec
  closes := closes_store
  store_eq_ok := store_eq_ok
  rewrites := rewrites
  returns_store := returns_store
  returns_fromKey := returns_fromKey
  returns_finish _ := trivial
  returns_atEnd _ := trivial

/-! ## Round trip -/

/-- No unknown key has a type that the decoder recognises. -/
def UnknownKeys (self : OutputV0) : Prop :=
  ∀ key ∈ self.unknowns, fromKey key = .ok .unknowns

/-- All keys and values are inside the limits of the decoder. -/
def Fits (self : OutputV0) : Prop :=
  ∀ e ∈ Output.table.entries self.toFields,
    (Output.rawKey e.col e.key).body.length ≤ compactSizeLimit ∧
      InLimit (Output.encodeValue e.col) e.value

/-- The entries of an output map with no proprietary field are read as they are. -/
theorem admits_iff_of_isEmpty {self : OutputV0} (hproprietary : self.proprietaries.isEmpty) :
    (∀ e ∈ Output.table.entries self.toFields, codec.Admits e) ↔
      self.UnknownKeys ∧ self.Fits := by
  refine (codec.admits_iff Output.lawful_table .unknowns ?_).trans ?_
  · rintro ⟨c, k, v⟩ he - hunknown
    by_cases hunknowns : c = .unknowns
    · subst hunknowns
      exact ⟨hunknown rfl, rfl⟩
    · have hlookup := Output.lawful_table.mem_entries.mp he
      refine (hasKeyCodec ?_ ?_ ?_ hunknowns).readsKey_rawKey
      · rintro rfl
        cases hlookup
      · rintro rfl
        cases hlookup
      · rintro rfl
        have hnone := BTreeMap.isEmpty_iff_getElem?.mp hproprietary k
        cases hnone.symm.trans hlookup
  · constructor
    · rintro ⟨hunknown, hfits, -⟩
      exact ⟨fun key hkey => hunknown key (Std.ExtTreeMap.mem_iff_isSome_getElem?.mp hkey), hfits⟩
    · rintro ⟨hunknown, hfits⟩
      exact ⟨fun key hkey => hunknown key (Std.ExtTreeMap.mem_iff_isSome_getElem?.mpr hkey),
        hfits, fun _ _ => trivial⟩

/-- The entries of an output map are read as they are, unless one is proprietary. -/
theorem admits_iff {self : OutputV0} :
    (∀ e ∈ Output.table.entries self.toFields, codec.Admits e) ↔
      self.proprietaries.isEmpty ∧ self.UnknownKeys ∧ self.Fits := by
  constructor
  · intro h
    have hproprietary : self.proprietaries.isEmpty := by
      rw [BTreeMap.isEmpty_iff_getElem?]
      intro key
      by_contra hsome
      obtain ⟨value, hvalue⟩ := Option.ne_none_iff_exists'.mp hsome
      have hadmits := h ⟨.proprietaries, key, value⟩ (Output.lawful_table.mem_entries.mpr hvalue)
      exact not_readsKey_proprietaries hadmits.readsKey
    exact ⟨hproprietary, (admits_iff_of_isEmpty hproprietary).mp h⟩
  · rintro ⟨hproprietary, h⟩
    exact (admits_iff_of_isEmpty hproprietary).mpr h

/-- The fields that the encoder walks through. -/
def encoded : List Output.Field :=
  [.witnessScript, .bip32Derivations, .tapInternalKey, .tapTree, .tapKeyOrigins, .proprietaries,
    .unknowns, .spV0Info, .spV0Label]

omit [BitcoinTypes] [BitcoinCodecs] [LawfulCodecs] in
theorem mem_encoded {c : Output.Field} (hamount : c ≠ .amount) (hscript : c ≠ .scriptPubkey)
    (hredeem : c ≠ .redeemScript) : c ∈ encoded := by
  cases c <;> first | decide | contradiction

/-- The fields that have a state of the encoder. -/
def present (o : Output) : Output.Field → Bool
  | .witnessScript => o.witnessScript.isSome
  | .bip32Derivations => !o.bip32Derivations.isEmpty
  | .tapInternalKey => o.tapInternalKey.isSome
  | .tapTree => o.tapTree.isSome
  | .tapKeyOrigins => !o.tapKeyOrigins.isEmpty
  | .proprietaries => !o.proprietaries.isEmpty
  | .unknowns => !o.unknowns.isEmpty
  | .spV0Info => o.spV0Info.isSome
  | .spV0Label => o.spV0Label.isSome
  | _ => true

/-- The encoder writes all fields but the redeem script. -/
theorem encode_eq (o : Output) : encode o =
    mapBytes ((encoded.flatMap (Output.table.columnEntries (fields o))).map codec.pairOf) := by
  have hstart : EncoderState.firstOf (present o) encoded =
      some ((witnessScriptOrNext o).getD .separator) := by
    obtain ⟨s, hs⟩ :=
      Option.ne_none_iff_exists'.mp (EncoderState.firstOf_ne_none (present o) encoded)
    have hnext : witnessScriptOrNext o = some s := hs
    rw [hs, hnext, Option.getD_some]
  refine lawful_codec.encode_eq (by decide : encoded.Nodup)
    ⟨rfl, rfl, rfl, rfl, rfl, rfl, rfl, rfl, rfl, rfl⟩ hstart fun c hc => ?_
  cases c with
  | witnessScript => exact Column.option_rows_eq_nil (Option.isSome_eq_false_iff.mp hc)
  | bip32Derivations => exact BTreeMap.toList_eq_nil (Bool.not_inj hc)
  | tapInternalKey => exact Column.option_rows_eq_nil (Option.isSome_eq_false_iff.mp hc)
  | tapTree => exact Column.option_rows_eq_nil (Option.isSome_eq_false_iff.mp hc)
  | tapKeyOrigins => exact BTreeMap.toList_eq_nil (Bool.not_inj hc)
  | proprietaries => exact BTreeMap.toList_eq_nil (Bool.not_inj hc)
  | unknowns => exact BTreeMap.toList_eq_nil (K := Key) (Bool.not_inj hc)
  | spV0Info => exact Column.option_rows_eq_nil (Option.isSome_eq_false_iff.mp hc)
  | spV0Label => exact Column.option_rows_eq_nil (Option.isSome_eq_false_iff.mp hc)
  | _ => cases hc

/-- The redeem script of an output is not written. -/
theorem encode_withoutRedeemScript (o : Output) :
    encode { o with redeemScript := none } = encode o := by
  rw [encode_eq, encode_eq]
  rfl

/-- An output map without a redeem script and without proprietary fields decodes from its
encoding. -/
theorem decodes_encode {o : Output} (hredeem : o.redeemScript = none)
    (hadmits : ∀ e ∈ Output.table.entries (fields o), codec.Admits e) :
    decoder.Decodes (encode o) (ofOutput o) := by
  rw [encode_eq]
  refine lawful_codec.decodes_pairsOf ?_ hadmits rfl
  refine Output.lawful_table.flatMap_columnEntries_perm (by decide : encoded.Nodup) fun c hc => ?_
  cases c with
  | amount => rfl
  | scriptPubkey => rfl
  | redeemScript => exact Column.option_rows_eq_nil (Option.isNone_iff_eq_none.mpr hredeem)
  | _ => exact absurd (mem_encoded (by decide) (by decide) (by decide)) hc

/-- What the decoder returns consists of admitted entries. -/
theorem admits_of_accepts {b r : Bytes} {self : OutputV0} (h : decoder.Accepts b self r) :
    ∀ e ∈ Output.table.entries self.toFields, codec.Admits e := by
  obtain ⟨m, hadmits, hout⟩ := lawful_codec.exists_admits h
  obtain rfl := Except.ok.inj hout
  rintro ⟨c, k, v⟩ he
  have hlookup := Output.lawful_table.mem_entries.mp he
  apply hadmits
  apply Output.lawful_table.mem_entries.mpr
  cases c with
  | amount => cases hlookup
  | scriptPubkey => cases hlookup
  | _ => exact hlookup

end

end OutputV0

end RustPsbt
