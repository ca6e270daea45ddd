import RustPsbt.Map.Boundaries
import RustPsbt.Map.KeyTypes
import RustPsbt.Map.V0.Input
import RustPsbt.Map.V0.Output

/-!
# Promotion of maps

The maps of version 0 are decoded with fewer checks than those of version 2, and keys of
types that only version 2 has are unknown keys.  What a promoted map has to meet is said of
the pairs that it was read from.

Main results:

- Theorems `GlobalV0.wellFormed_iff`, `InputV0.wellFormed_iff`, `OutputV0.wellFormed_iff`:
  which pairs are promoted to a well-formed map of version 2.
-/

namespace RustPsbt

variable [BitcoinTypes] [BitcoinCodecs]

/-! ## Unknown keys -/

omit [BitcoinTypes] [BitcoinCodecs] in
/-- Unknown keys meet a condition on their types when no pair has one of the other types. -/
theorem forall_unknowns_iff {ps : List Pair} {unknowns : BTreeMap Key Bytes}
    {types : List UInt64} {Reads : Key → Key → Prop} {Unknown Meets : Key → Prop}
    (hread : ∀ key, (∃ v, unknowns[key]? = some v) ↔ ∃ p ∈ ps, Reads p.1 key)
    (hreads : ∀ key key', Reads key key' ↔ Unknown key ∧ key = key')
    (hmeets : ∀ {key}, Unknown key → (Meets key ↔ key.typeValue ∉ types))
    (htypes : ∀ key, key.typeValue ∈ types → Unknown key) :
    (∀ key ∈ unknowns, Meets key) ↔ ∀ p ∈ ps, p.1.typeValue ∉ types := by
  have hmem (key : Key) : key ∈ unknowns ↔ ∃ p ∈ ps, Unknown p.1 ∧ p.1 = key := by
    rw [Std.ExtTreeMap.mem_iff_isSome_getElem?, Option.isSome_iff_exists, hread]
    simp only [hreads]
  constructor
  · intro h p hp ht
    have hunknown := htypes p.1 ht
    exact (hmeets hunknown).mp (h p.1 ((hmem p.1).mpr ⟨p, hp, hunknown, rfl⟩)) ht
  · intro h key hkey
    rcases (hmem key).mp hkey with ⟨p, hp, hunknown, rfl⟩
    exact (hmeets hunknown).mpr (h p hp)

/-- A field of unknown keys reads the key as it is. -/
theorem readsKey_unknowns {ε M α : Type} {C : MapCodec ε M α} {c : C.table.Col} {key : Key}
    {k : C.table.K c} {P : Prop} (hentry : C.entryKey c key = .ok k ↔ P) :
    C.ReadsKey c key k ↔ C.fromKey key = .ok c ∧ P :=
  ⟨fun h => ⟨h.fromKey, hentry.mp h.entryKey⟩, fun ⟨hfrom, hp⟩ => ⟨hfrom, hentry.mpr hp⟩⟩

/-! ## The unsigned transaction -/

/-- The parts of a transaction are inside the limits that version 2 has for them. -/
structure UnsignedTx.InLimits (tx : UnsignedTx) : Prop where
  version : (txVersionCodec.encode tx.version).length ≤ compactSizeLimit
  lockTime : (lockTimeCodec.encode tx.lockTime).length ≤ compactSizeLimit
  inputCount : tx.inputs.length ≤ compactSizeLimit
  outputCount : tx.outputs.length ≤ compactSizeLimit
  sequence : ∀ input ∈ tx.inputs, (sequenceCodec.encode input.2.2).length ≤ compactSizeLimit
  amount : ∀ output ∈ tx.outputs, (amountCodec.encode output.1).length ≤ compactSizeLimit
  script : ∀ output ∈ tx.outputs, output.2.length ≤ compactSizeLimit

/-- Every part takes its room in the bytes of the transaction. -/
theorem UnsignedTx.inLimits {tx : UnsignedTx}
    (h : (unsignedTxBytes tx).length ≤ compactSizeLimit) : tx.InLimits := by
  have hin := length_le_length_flatMap UnsignedTxDecoder.length_unsignedTxInBytes_pos tx.inputs
  have hout := length_le_length_flatMap UnsignedTxDecoder.length_unsignedTxOutBytes_pos tx.outputs
  simp only [unsignedTxBytes, List.length_append] at h
  have hinput (input) (hmem : input ∈ tx.inputs) :
      (unsignedTxInBytes input).length ≤ compactSizeLimit := by
    have hle := length_le_length_flatMap_of_mem (f := unsignedTxInBytes) hmem
    omega
  have houtput (output) (hmem : output ∈ tx.outputs) :
      (unsignedTxOutBytes output).length ≤ compactSizeLimit := by
    have hle := length_le_length_flatMap_of_mem (f := unsignedTxOutBytes) hmem
    omega
  refine ⟨by omega, by omega, by omega, by omega, fun input hmem => ?_, fun output hmem => ?_,
    fun output hmem => ?_⟩
  · have hle := hinput input hmem
    simp only [unsignedTxInBytes, List.length_append, List.length_cons] at hle
    omega
  · have hle := houtput output hmem
    simp only [unsignedTxOutBytes, List.length_append] at hle
    omega
  · have hle := houtput output hmem
    simp only [unsignedTxOutBytes, frame, List.length_append] at hle
    omega

/-! ## Global maps -/

namespace GlobalV0

/-- The key types that only version 2 has. -/
def promotedTypes : List UInt64 :=
  [0x02, 0x03, 0x04, 0x05, 0x06]

/-- Keys of these types are unknown to version 0. -/
theorem fromKey_promotedTypes (key : Key) (ht : key.typeValue ∈ promotedTypes) :
    fromKey key = .ok .unknowns := by
  rcases key with ⟨t, data⟩
  have hunknown : ∀ t ∈ promotedTypes, fromKey ⟨t, data⟩ = .ok .unknowns := by
    simp only [promotedTypes, List.forall_mem_cons]
    exact ⟨rfl, rfl, rfl, rfl, rfl, nofun⟩
  exact hunknown t ht

/-- An unknown key of version 0 is known to version 2 by its type. -/
theorem unknown_iff {key : Key} (h : fromKey key = .ok .unknowns) :
    Global.fromKey key = .ok .unknowns ↔ key.typeValue ∉ promotedTypes := by
  rcases key with ⟨t, data⟩
  constructor
  · intro hkey
    have hne : ∀ t ∈ promotedTypes, Global.fromKey ⟨t, data⟩ ≠ .ok .unknowns := by
      simp only [promotedTypes, List.forall_mem_cons]
      exact ⟨nofun, nofun, nofun, nofun, nofun, nofun⟩
    exact fun ht => hne t ht hkey
  · intro ht
    have hread : ∀ t ∈ [0x00, 0x01, 0xFB, 0xFC, 0x07, 0x08],
        fromKey ⟨t, data⟩ ≠ .ok .unknowns := by
      simp only [List.forall_mem_cons]
      exact ⟨nofun, nofun, nofun, nofun, nofun, nofun, nofun⟩
    have hne : t ∉ _ := fun hmem => hread t hmem h
    simp only [promotedTypes, List.mem_cons, List.not_mem_nil, or_false, not_or] at ht hne
    simp only [Global.fromKey, ht, hne, if_false]

/-- What pairs are promoted to a well-formed global map. -/
theorem wellFormed_iff [LawfulCodecs] {ps : List Pair} {m : Fields} {tx : UnsignedTx}
    (h : codec.Collects ps m) (hpaired : m.spEcdhShares.isEmpty = m.spDleqProofs.isEmpty) :
    (m.intoGlobal tx).WellFormed ↔ ∀ p ∈ ps, p.1.typeValue ∉ promotedTypes := by
  have hkeys : (∀ key ∈ m.unknowns, Global.fromKey key = .ok .unknowns) ↔
      ∀ p ∈ ps, p.1.typeValue ∉ promotedTypes :=
    forall_unknowns_iff (fun _ => h.exists_key_iff lawful_codec (c := .unknowns))
      (fun _ _ => readsKey_unknowns ⟨Except.ok.inj, congrArg Except.ok⟩) unknown_iff fromKey_promotedTypes
  exact ⟨fun hwf => hkeys.mp hwf.unknownKeys, fun hps => ⟨rfl, hpaired, hkeys.mpr hps⟩⟩

/-- A promoted global map is inside the limits. -/
theorem fits_intoGlobal [LawfulCodecs] {m : Fields} {tx : UnsignedTx}
    (hadmits : ∀ e ∈ table.entries m, codec.Admits e) (htx : tx.InLimits) :
    (m.intoGlobal tx).Fits := by
  rintro ⟨c, k, v⟩ he
  have hlookup := Global.lawful_table.mem_entries.mp he
  have hentry (c : Field) {k : FieldKey c} {v : FieldValue c}
      (h : (column c).lookup m k = some v) : codec.Admits ⟨c, k, v⟩ :=
    hadmits _ (lawful_table.mem_entries.mpr h)
  cases c with
  | version => exact ⟨(by decide : (⟨0xFB, []⟩ : Key).body.length ≤ _), (by decide : 4 ≤ _)⟩
  | txVersion =>
      cases hlookup
      exact ⟨(by decide : (⟨0x02, []⟩ : Key).body.length ≤ _), htx.version⟩
  | fallbackLockTime =>
      have hlock : v = tx.lockTime := by
        change (if tx.lockTime ≠ .zero then some tx.lockTime else none) = some v at hlookup
        split at hlookup
        · exact (Option.some.inj hlookup).symm
        · cases hlookup
      subst hlock
      exact ⟨(by decide : (⟨0x03, []⟩ : Key).body.length ≤ _), htx.lockTime⟩
  | inputCount =>
      cases hlookup
      exact ⟨(by decide : (⟨0x04, []⟩ : Key).body.length ≤ _), htx.inputCount⟩
  | outputCount =>
      cases hlookup
      exact ⟨(by decide : (⟨0x05, []⟩ : Key).body.length ≤ _), htx.outputCount⟩
  | txModifiableFlags =>
      exact ⟨(by decide : (⟨0x06, []⟩ : Key).body.length ≤ _), (by decide : 1 ≤ _)⟩
  | xpubs =>
      have hadmits := hentry .xpubs hlookup
      exact ⟨hadmits.key_le, hadmits.fits⟩
  | spEcdhShares =>
      have hadmits := hentry .spEcdhShares hlookup
      exact ⟨hadmits.key_le, hadmits.fits⟩
  | spDleqProofs =>
      have hadmits := hentry .spDleqProofs hlookup
      exact ⟨hadmits.key_le, hadmits.fits⟩
  | proprietaries =>
      have hadmits := hentry .proprietaries hlookup
      exact ⟨hadmits.key_le, hadmits.fits⟩
  | unknowns =>
      have hadmits := hentry .unknowns hlookup
      exact ⟨hadmits.key_le, hadmits.fits⟩

end GlobalV0

/-! ## Input maps -/

namespace InputV0

/-- The key types that only version 2 has. -/
def promotedTypes : List UInt64 :=
  [0x0E, 0x0F, 0x10, 0x11, 0x12]

/-- Keys of these types are unknown to version 0. -/
theorem fromKey_promotedTypes (key : Key) (ht : key.typeValue ∈ promotedTypes) :
    fromKey key = .ok .unknowns := by
  rcases key with ⟨t, data⟩
  have hunknown : ∀ t ∈ promotedTypes, fromKey ⟨t, data⟩ = .ok .unknowns := by
    simp only [promotedTypes, List.forall_mem_cons]
    exact ⟨rfl, rfl, rfl, rfl, rfl, nofun⟩
  exact hunknown t ht

/-- An unknown key of version 0 is known to version 2 by its type. -/
theorem unknown_iff {key : Key} (h : fromKey key = .ok .unknowns) :
    Input.fromKey key = .ok .unknowns ↔ key.typeValue ∉ promotedTypes := by
  rcases key with ⟨t, data⟩
  constructor
  · intro hkey
    have hne : ∀ t ∈ promotedTypes, Input.fromKey ⟨t, data⟩ ≠ .ok .unknowns := by
      simp only [promotedTypes, List.forall_mem_cons]
      exact ⟨nofun, nofun, nofun, nofun, nofun, nofun⟩
    exact fun ht => hne t ht hkey
  · intro ht
    have hread : ∀ t ∈ [0x00, 0x01, 0x03, 0x04, 0x05, 0x07, 0x08, 0x13, 0x17, 0x18, 0x02, 0x06,
        0x0A, 0x0B, 0x0C, 0x0D, 0x14, 0x15, 0x16, 0xFC, 0x1D, 0x1E],
        fromKey ⟨t, data⟩ ≠ .ok .unknowns := by
      cases data with
      | nil =>
          simp only [List.forall_mem_cons]
          exact ⟨nofun, nofun, nofun, nofun, nofun, nofun, nofun, nofun, nofun, nofun, nofun,
            nofun, nofun, nofun, nofun, nofun, nofun, nofun, nofun, nofun, nofun, nofun, nofun⟩
      | cons byte data =>
          simp only [List.forall_mem_cons]
          exact ⟨nofun, nofun, nofun, nofun, nofun, nofun, nofun, nofun, nofun, nofun, nofun,
            nofun, nofun, nofun, nofun, nofun, nofun, nofun, nofun, nofun, nofun, nofun, nofun⟩
    have hne : t ∉ _ := fun hmem => hread t hmem h
    simp only [promotedTypes, List.mem_cons, List.not_mem_nil, or_false, not_or] at ht hne
    simp only [Input.fromKey, ht, hne, if_false]

/-- The arms of the decoder; some also ask for empty key data. -/
theorem arms (key : Key) : codec.Arms .unknowns key (fromKey key) := by
  unfold fromKey
  repeat first
    | refine .field (fun hkey _ => hkey) ?_
    | refine .field (fun hkey _ => hkey.1) ?_
    | refine .refuse ?_
  exact .other

/-- A promoted input map is inside the limits. -/
theorem fits_intoInput {self : InputV0} {txid : Txid} {vout : UInt32} {sequence : Sequence}
    (hadmits : ∀ e ∈ Input.table.entries self.toFields, codec.Admits e)
    (hsequence : (sequenceCodec.encode sequence).length ≤ compactSizeLimit) :
    (self.intoInput txid vout sequence).Fits := by
  rintro ⟨c, k, v⟩ he
  have hlookup := Input.lawful_table.mem_entries.mp he
  have hentry (h : (Input.column c).lookup self.toFields k = some v) : codec.Admits ⟨c, k, v⟩ :=
    hadmits _ (Input.lawful_table.mem_entries.mpr h)
  cases c with
  | previousTxid =>
      have hlen : (txid.bytes).length = 32 := U8Array.length_bytes _
      cases hlookup
      exact ⟨(by decide : (⟨0x0E, []⟩ : Key).body.length ≤ _), hlen.trans_le (by decide)⟩
  | spentOutputIndex =>
      have hlen : (u32ToLeBytes vout).bytes.length = 4 := U8Array.length_bytes _
      cases hlookup
      exact ⟨(by decide : (⟨0x0F, []⟩ : Key).body.length ≤ _), hlen.trans_le (by decide)⟩
  | sequence =>
      cases hlookup
      exact ⟨(by decide : (⟨0x10, []⟩ : Key).body.length ≤ _), hsequence⟩
  | minTime => cases hlookup
  | minHeight => cases hlookup
  | _ => exact ⟨(hentry hlookup).key_le, (hentry hlookup).fits⟩

/-- The checks of version 2 on the pairs of an input map, with the txid of its input. -/
structure Promotes [TxidHash] (txid : Txid) (ps : List Pair) : Prop where
  nonWitnessUtxo : ∀ p ∈ ps, p.1.typeValue = 0x00 → ∀ tx,
    transactionCodec.decoder.Decodes p.2 tx → computeTxid tx = txid
  spPaired : (∃ p ∈ ps, p.1.typeValue = 0x1D) ↔ ∃ p ∈ ps, p.1.typeValue = 0x1E
  keyTypes : ∀ p ∈ ps, p.1.typeValue ∉ promotedTypes

section

variable [LawfulCodecs] {ps : List Pair} {m : Input.Fields}

/-- The previous transaction is decoded from a pair of its type. -/
theorem nonWitnessUtxo_iff (h : codec.Collects ps m) {tx : Transaction} :
    m.nonWitnessUtxo = some tx ↔
      ∃ p ∈ ps, p.1.typeValue = 0x00 ∧ transactionCodec.decoder.Decodes p.2 tx := by
  have hdec {p : Pair} {k : Unit} {tx : Transaction}
      (hpair : codec.DecodesPair p ⟨.nonWitnessUtxo, k, tx⟩) :
      transactionCodec.decoder.Decodes p.2 tx :=
    (decodes_valueDecoder LawfulCodecs.transaction_lawful.sound.lawful hpair.value_le).mp
      (PushDecoder.decodes_mapErr.mp hpair.decodes)
  constructor
  · intro htx
    have hentry : (⟨.nonWitnessUtxo, (), tx⟩ : Input.table.Entry) ∈ Input.table.entries m :=
      Input.lawful_table.mem_entries.mpr htx
    rcases h.exists_pair hentry with ⟨p, hp, hpair⟩
    exact ⟨p, hp, (arms _).typeValue_eq hpair.readsKey.fromKey nofun (), hdec hpair⟩
  · rintro ⟨p, hp, ht, htx⟩
    rcases h.exists_entry hp with ⟨⟨c, k, v⟩, he, hpair⟩
    have hfrom : fromKey ⟨0x00, p.1.key⟩ = .ok c := ht ▸ hpair.readsKey.fromKey
    -- with key data, the key would have been refused
    have hc : c = .nonWitnessUtxo := by
      cases hdata : p.1.key with
      | nil =>
          rw [hdata] at hfrom
          exact (Except.ok.inj hfrom).symm
      | cons byte data =>
          rw [hdata] at hfrom
          cases hfrom
    subst hc
    have hsame := (hdec hpair).symm.trans htx
    rw [← (Prod.mk.inj (Except.ok.inj hsame)).1]
    exact Input.lawful_table.mem_entries.mp he

/-- Shares and proofs are decoded when pairs have their types. -/
theorem spPaired_iff (h : codec.Collects ps m) :
    m.spEcdhShares.isEmpty = m.spDleqProofs.isEmpty ↔
      ((∃ p ∈ ps, p.1.typeValue = 0x1D) ↔ ∃ p ∈ ps, p.1.typeValue = 0x1E) := by
  have hselects (key : Key) : (key.typeValue = 0x1D → fromKey key = .ok .spEcdhShares) ∧
      (key.typeValue = 0x1E → fromKey key = .ok .spDleqProofs) := by
    rcases key with ⟨t, data⟩
    constructor <;> rintro rfl <;> rfl
  have hshares := h.exists_pair_iff lawful_codec (c := .spEcdhShares)
    (fun key => (hselects key).1) fun {_ k} hreads => (arms _).typeValue_eq hreads.fromKey nofun k
  have hproofs := h.exists_pair_iff lawful_codec (c := .spDleqProofs)
    (fun key => (hselects key).2) fun {_ k} hreads => (arms _).typeValue_eq hreads.fromKey nofun k
  rw [hshares, hproofs]
  change _ ↔ ((∃ (k : CompressedPublicKey) (v : CompressedPublicKey),
    m.spEcdhShares[k]? = some v) ↔ ∃ (k : CompressedPublicKey) (v : DleqProof),
      m.spDleqProofs[k]? = some v)
  rw [← BTreeMap.isEmpty_eq_false_iff, ← BTreeMap.isEmpty_eq_false_iff]
  cases m.spEcdhShares.isEmpty <;> cases m.spDleqProofs.isEmpty <;> simp

/-- Which pairs are promoted to a well-formed input map. -/
theorem wellFormed_iff [TxidHash] (h : codec.Collects ps m) {self : InputV0}
    (hfinish : finish m = .ok self) {txid : Txid} {vout : UInt32} {sequence : Sequence} :
    (self.intoInput txid vout sequence).WellFormed ↔ Promotes txid ps := by
  cases hfinish
  have hkeys : (∀ key ∈ m.unknowns, Input.fromKey key = .ok .unknowns) ↔
      ∀ p ∈ ps, p.1.typeValue ∉ promotedTypes :=
    forall_unknowns_iff (fun _ => h.exists_key_iff lawful_codec (c := .unknowns))
      (fun _ _ => readsKey_unknowns ⟨Except.ok.inj, congrArg Except.ok⟩) unknown_iff
        fromKey_promotedTypes
  have hutxo : (∀ tx, m.nonWitnessUtxo = some tx → computeTxid tx = txid) ↔
      ∀ p ∈ ps, p.1.typeValue = 0x00 → ∀ tx, transactionCodec.decoder.Decodes p.2 tx →
        computeTxid tx = txid := by
    simp only [nonWitnessUtxo_iff h]
    exact ⟨fun hall p hp ht tx htx => hall tx ⟨p, hp, ht, htx⟩,
      fun hall tx ⟨p, hp, ht, htx⟩ => hall p hp ht tx htx⟩
  constructor
  · intro hwf
    exact ⟨hutxo.mp hwf.nonWitnessUtxo, (spPaired_iff h).mp hwf.spPaired, hkeys.mp hwf.unknownKeys⟩
  · intro hps
    exact ⟨hutxo.mpr hps.nonWitnessUtxo, (spPaired_iff h).mpr hps.spPaired,
      hkeys.mpr hps.keyTypes⟩

end

end InputV0

/-! ## Output maps -/

namespace OutputV0

/-- The key types that only version 2 has. -/
def promotedTypes : List UInt64 :=
  [0x03, 0x04]

/-- Keys of these types are unknown to version 0. -/
theorem fromKey_promotedTypes (key : Key) (ht : key.typeValue ∈ promotedTypes) :
    fromKey key = .ok .unknowns := by
  rcases key with ⟨t, data⟩
  have hunknown : ∀ t ∈ promotedTypes, fromKey ⟨t, data⟩ = .ok .unknowns := by
    simp only [promotedTypes, List.forall_mem_cons]
    exact ⟨rfl, rfl, nofun⟩
  exact hunknown t ht

/-- An unknown key of version 0 is known to version 2 by its type. -/
theorem unknown_iff {key : Key} (h : fromKey key = .ok .unknowns) :
    Output.fromKey key = .ok .unknowns ↔ key.typeValue ∉ promotedTypes := by
  rcases key with ⟨t, data⟩
  constructor
  · intro hkey
    have hne : ∀ t ∈ promotedTypes, Output.fromKey ⟨t, data⟩ ≠ .ok .unknowns := by
      simp only [promotedTypes, List.forall_mem_cons]
      exact ⟨nofun, nofun, nofun⟩
    exact fun ht => hne t ht hkey
  · intro ht
    have hread : ∀ t ∈ [0x00, 0x01, 0x05, 0x06, 0xFC, 0x02, 0x07, 0x09, 0x0A],
        fromKey ⟨t, data⟩ ≠ .ok .unknowns := by
      simp only [List.forall_mem_cons]
      cases data with
      | nil => exact ⟨nofun, nofun, nofun, nofun, nofun, nofun, nofun, nofun, nofun, nofun⟩
      | cons byte data =>
          exact ⟨nofun, nofun, nofun, nofun, nofun, nofun, nofun, nofun, nofun, nofun⟩
    have hne : t ∉ _ := fun hmem => hread t hmem h
    simp only [promotedTypes, List.mem_cons, List.not_mem_nil, or_false, not_or] at ht hne
    simp only [Output.fromKey, ht, hne, if_false]

/-- The arms of the decoder; some also ask for empty key data. -/
theorem arms (key : Key) : codec.Arms .unknowns key (fromKey key) := by
  unfold fromKey
  repeat first
    | refine .field (fun hkey _ => hkey) ?_
    | refine .field (fun hkey _ => hkey.1) ?_
    | refine .refuse ?_
  exact .other

/-- A promoted output map is inside the limits. -/
theorem fits_intoOutput {self : OutputV0} {amount : Amount} {script : ScriptBuf}
    (hadmits : ∀ e ∈ Output.table.entries self.toFields, codec.Admits e)
    (hamount : (amountCodec.encode amount).length ≤ compactSizeLimit)
    (hscript : script.length ≤ compactSizeLimit) : (self.intoOutput amount script).Fits := by
  rintro ⟨c, k, v⟩ he
  have hlookup := Output.lawful_table.mem_entries.mp he
  have hentry (h : (Output.column c).lookup self.toFields k = some v) : codec.Admits ⟨c, k, v⟩ :=
    hadmits _ (Output.lawful_table.mem_entries.mpr h)
  cases c with
  | amount =>
      cases hlookup
      exact ⟨(by decide : (⟨0x03, []⟩ : Key).body.length ≤ _), hamount⟩
  | scriptPubkey =>
      have hv : v = script := by
        change (if _ then none else some script) = some v at hlookup
        split at hlookup
        · cases hlookup
        · exact (Option.some.inj hlookup).symm
      subst hv
      exact ⟨(by decide : (⟨0x04, []⟩ : Key).body.length ≤ _), hscript⟩
  | _ => exact ⟨(hentry hlookup).key_le, (hentry hlookup).fits⟩

/-- The checks of version 2 on the pairs of an output map. -/
structure Promotes (ps : List Pair) : Prop where
  spLabel : (∃ p ∈ ps, p.1.typeValue = 0x0A) → ∃ p ∈ ps, p.1.typeValue = 0x09
  keyTypes : ∀ p ∈ ps, p.1.typeValue ∉ promotedTypes

section

variable [LawfulCodecs] {ps : List Pair} {m : Output.Fields}

/-- The silent payment fields are decoded when pairs have their types. -/
theorem spV0_iff (h : codec.Collects ps m) :
    ((∃ p ∈ ps, p.1.typeValue = 0x09) ↔ m.spV0Info.isSome) ∧
      ((∃ p ∈ ps, p.1.typeValue = 0x0A) ↔ m.spV0Label.isSome) := by
  have hselects (key : Key) : (key.typeValue = 0x09 → fromKey key = .ok .spV0Info) ∧
      (key.typeValue = 0x0A → fromKey key = .ok .spV0Label) := by
    rcases key with ⟨t, data⟩
    constructor <;> rintro rfl <;> rfl
  have hinfo := h.exists_pair_iff lawful_codec (c := .spV0Info)
    (fun key => (hselects key).1) fun hreads => (arms _).typeValue_eq hreads.fromKey nofun ()
  have hlabel := h.exists_pair_iff lawful_codec (c := .spV0Label)
    (fun key => (hselects key).2) fun hreads => (arms _).typeValue_eq hreads.fromKey nofun ()
  rw [hinfo, hlabel, Option.isSome_iff_exists, Option.isSome_iff_exists]
  exact ⟨⟨fun ⟨_, v, hv⟩ => ⟨v, hv⟩, fun ⟨v, hv⟩ => ⟨(), v, hv⟩⟩,
    ⟨fun ⟨_, v, hv⟩ => ⟨v, hv⟩, fun ⟨v, hv⟩ => ⟨(), v, hv⟩⟩⟩

/-- Which pairs are promoted to a well-formed output map. -/
theorem wellFormed_iff (h : codec.Collects ps m) {self : OutputV0}
    (hfinish : finish m = .ok self) {amount : Amount} {script : ScriptBuf} :
    (self.intoOutput amount script).WellFormed ↔ Promotes ps := by
  cases hfinish
  have hkeys : (∀ key ∈ m.unknowns, Output.fromKey key = .ok .unknowns) ↔
      ∀ p ∈ ps, p.1.typeValue ∉ promotedTypes :=
    forall_unknowns_iff (fun _ => h.exists_key_iff lawful_codec (c := .unknowns))
      (fun _ _ => readsKey_unknowns ⟨Except.ok.inj, congrArg Except.ok⟩) unknown_iff
        fromKey_promotedTypes
  have hvalid : (if m.spV0Label.isSome && m.spV0Info.isNone
      then Result.err Output.ValidationError.spLabelWithoutInfo else .ok ()) = .ok () ↔
        ((∃ p ∈ ps, p.1.typeValue = 0x0A) → ∃ p ∈ ps, p.1.typeValue = 0x09) := by
    rw [(spV0_iff h).1, (spV0_iff h).2]
    cases m.spV0Label <;> cases m.spV0Info <;> simp
  exact ⟨fun hwf => ⟨hvalid.mp hwf.valid, hkeys.mp hwf.unknownKeys⟩,
    fun hps => ⟨hvalid.mpr hps.spLabel, hkeys.mpr hps.keyTypes⟩⟩

end

end OutputV0

end RustPsbt
