import RustPsbt.Map.Boundaries
import RustPsbt.Map.KeyTypes

/-!
# Keys that a map keeps

The arm of a field without keys stores its value and forgets the key data of the pair, so
the encoder writes another key than was read.  All other keys are written again as they
are, or with a public key in its standard form.

Main results:

- Theorem `MapCodec.Writes.keeps_iff`: a map keeps its keys unless a key of a type without
  key data has some.
- Theorems `Global.keepsKeys`, `Input.keepsKeys`, `Output.keepsKeys`: the maps of version 2.
-/

namespace RustPsbt

/-! ## Key types -/

/-- The key types of a map that have no key data, those with a public key, and those with a
scan key of silent payments, which is compressed. -/
structure KeyTypes where
  keyless : List UInt64
  publicKey : List UInt64
  scanKey : List UInt64
  disjoint : ∀ t ∈ keyless, t ∉ publicKey ++ scanKey
  disjoint_scanKey : ∀ t ∈ scanKey, t ∉ publicKey

variable [BitcoinTypes] [BitcoinCodecs]

namespace KeyTypes

/-- The key, with a public key in its key data in the standard form. -/
def standard (T : KeyTypes) (key : Key) : Key :=
  if key.typeValue ∈ T.publicKey then
    match publicKeyFromSlice key.key with
    | .ok k => ⟨key.typeValue, publicKeyBytes k⟩
    | .error _ => key
  else if key.typeValue ∈ T.scanKey then
    match compressedFromSlice key.key with
    | .ok k => ⟨key.typeValue, (compressedToBytes k).bytes⟩
    | .error _ => key
  else key

/-- The key that is written for a key that is read. -/
def written (T : KeyTypes) (key : Key) : Key :=
  if key.typeValue ∈ T.keyless then ⟨key.typeValue, []⟩ else T.standard key

/-- No key of a type without key data has key data. -/
def NoKeyData (T : KeyTypes) (ps : List Pair) : Prop :=
  ∀ p ∈ ps, p.1.typeValue ∈ T.keyless → p.1.key = []

/-- The keys that are written are the keys that were read, in the standard form, but for
those that may be added or dropped. -/
def Keeps (T : KeyTypes) (added : Key → Prop) (dropped : Pair → Prop) (read written : List Pair) :
    Prop :=
  ∀ key, (∃ q ∈ written, q.1 = key) ↔
    added key ∨ ∃ p ∈ read, ¬dropped p ∧ T.standard p.1 = key

variable {T : KeyTypes} {key : Key} {t : UInt64}

theorem written_keyless (ht : t ∈ T.keyless) (hkey : key.typeValue = t) :
    T.written key = ⟨t, []⟩ := by
  subst hkey
  exact if_pos ht

theorem standard_of_not_mem (ht : key.typeValue ∉ T.publicKey ++ T.scanKey) :
    T.standard key = key := by
  rw [List.mem_append, not_or] at ht
  rw [standard, if_neg ht.1, if_neg ht.2]

theorem written_keyed (hkeyless : t ∉ T.keyless) (hkeys : t ∉ T.publicKey ++ T.scanKey)
    (hkey : key.typeValue = t) {data : Bytes} (hdata : key.key = data) :
    T.written key = ⟨t, data⟩ := by
  subst hkey hdata
  rw [written, if_neg hkeyless, standard_of_not_mem hkeys]

/-- A key of any other type is written as it is. -/
theorem written_other (ht : key.typeValue ∉ T.keyless ++ (T.publicKey ++ T.scanKey)) :
    T.written key = key := by
  rw [List.mem_append, not_or] at ht
  exact written_keyed ht.1 ht.2 rfl rfl

theorem written_publicKey {ε : Type} {invalid : ExtError → ε} (hkeyless : t ∉ T.keyless)
    (hpublic : t ∈ T.publicKey) (hkey : key.typeValue = t) {k : PublicKey}
    (hdata : publicKeyOfKey invalid key = .ok k) : T.written key = ⟨t, publicKeyBytes k⟩ := by
  subst hkey
  rw [publicKeyOfKey, Result.mapErr_eq_ok, Result.ofExcept_eq_ok] at hdata
  rw [written, if_neg hkeyless, standard, if_pos hpublic, hdata]

theorem written_scanKey [LawfulCodecs] {ε : Type} {invalid : Key → ε} (hkeyless : t ∉ T.keyless)
    (hscan : t ∈ T.scanKey) (hkey : key.typeValue = t) {k : CompressedPublicKey}
    (hdata : scanKeyOfKey invalid key = .ok k) :
    T.written key = ⟨t, (compressedToBytes k).bytes⟩ := by
  subst hkey
  rw [scanKeyOfKey_eq_ok] at hdata
  rw [written, if_neg hkeyless, standard, if_neg (T.disjoint_scanKey _ hscan), if_pos hscan, hdata]

/-- A key of a type without key data that is written has no key data. -/
theorem key_eq_nil (hwritten : T.written key = key) (ht : key.typeValue ∈ T.keyless) :
    key.key = [] := by
  rw [written_keyless ht rfl] at hwritten
  exact congrArg Key.key hwritten.symm

/-- A key without superfluous key data is written in its standard form. -/
theorem written_eq_standard (h : key.typeValue ∈ T.keyless → key.key = []) :
    T.written key = T.standard key := by
  unfold written
  split
  · rename_i ht
    rw [standard_of_not_mem (T.disjoint _ ht), ← h ht]
  · rfl

end KeyTypes

/-! ## Maps that write keys of their types -/

namespace MapCodec

variable {ε M α : Type} {C : MapCodec ε M α} {T : KeyTypes}

/-- What the map encoder writes for a key depends on its type alone. -/
def Writes (C : MapCodec ε M α) (T : KeyTypes) : Prop :=
  ∀ {c : C.table.Col} {key : Key} {k : C.table.K c}, C.ReadsKey c key k →
    C.rawKey c k = T.written key

namespace Writes

/-- The keys of collected entries are those of the pairs, as they are written. -/
theorem exists_entry_iff (hwrites : C.Writes T) {ps : List Pair} {m : M}
    (hcollects : C.Collects ps m) {key : Key} :
    (∃ e ∈ C.table.entries m, C.rawKey e.col e.key = key) ↔ ∃ p ∈ ps, T.written p.1 = key := by
  constructor
  · rintro ⟨e, he, rfl⟩
    rcases hcollects.exists_pair he with ⟨p, hp, hpair⟩
    exact ⟨p, hp, (hwrites hpair.readsKey).symm⟩
  · rintro ⟨p, hp, rfl⟩
    rcases hcollects.exists_entry hp with ⟨e, he, hpair⟩
    exact ⟨e, he, hwrites hpair.readsKey⟩

/-- Without superfluous key data, they are the keys that were read in their standard form. -/
theorem exists_entry_iff_standard (hwrites : C.Writes T) {ps : List Pair} {m : M}
    (hcollects : C.Collects ps m) (hno : T.NoKeyData ps) {key : Key} :
    (∃ e ∈ C.table.entries m, C.rawKey e.col e.key = key) ↔ ∃ p ∈ ps, T.standard p.1 = key := by
  refine (hwrites.exists_entry_iff hcollects).trans ?_
  refine exists_congr fun p => and_congr_right fun hp => ?_
  rw [KeyTypes.written_eq_standard (hno p hp)]

/-- A map keeps its keys unless a key of a type without key data has some. -/
theorem keeps_iff (hwrites : C.Writes T) {read written : List Pair} {m : M}
    {added : Key → Prop} {dropped : Pair → Prop}
    (hmem : ∀ q, q ∈ written ↔ ∃ e ∈ C.table.entries m, C.pairOf e = q)
    (hadmits : ∀ e ∈ C.table.entries m, C.Admits e)
    (hdropped : ∀ p, dropped p → p.1.key = [])
    (hkept : T.NoKeyData read → ∀ key,
      (∃ e ∈ C.table.entries m, C.rawKey e.col e.key = key) ↔
        added key ∨ ∃ p ∈ read, ¬dropped p ∧ T.standard p.1 = key) :
    T.Keeps added dropped read written ↔ T.NoKeyData read := by
  have hkeys (key : Key) : (∃ q ∈ written, q.1 = key) ↔
      ∃ e ∈ C.table.entries m, C.rawKey e.col e.key = key := by
    constructor
    · rintro ⟨q, hq, rfl⟩
      rcases (hmem q).mp hq with ⟨e, he, rfl⟩
      exact ⟨e, he, rfl⟩
    · rintro ⟨e, he, rfl⟩
      exact ⟨C.pairOf e, (hmem _).mpr ⟨e, he, rfl⟩, rfl⟩
  constructor
  · intro hkeeps p hp ht
    by_contra hdata
    have hstandard : T.standard p.1 = p.1 := KeyTypes.standard_of_not_mem (T.disjoint _ ht)
    have hin : ∃ q ∈ written, q.1 = p.1 :=
      (hkeeps p.1).mpr (.inr ⟨p, hp, fun hdrop => hdata (hdropped p hdrop), hstandard⟩)
    rcases (hkeys p.1).mp hin with ⟨e, he, hkey⟩
    have hwritten := hwrites (hadmits e he).readsKey
    rw [hkey] at hwritten
    exact hdata (KeyTypes.key_eq_nil hwritten.symm ht)
  · intro hno key
    exact (hkeys key).trans (hkept hno key)

end Writes

end MapCodec

/-! ## The global map -/

namespace Global

/-- The key types of the global map. -/
def keyTypes : KeyTypes where
  keyless := [0xFB, 0x02, 0x03, 0x04, 0x05, 0x06]
  publicKey := []
  scanKey := [0x07, 0x08]
  disjoint := by simp
  disjoint_scanKey := by simp

/-- The keys of a global map are kept; the modifiable flags may be added. -/
def KeepsKeys (read written : List Pair) : Prop :=
  keyTypes.Keeps (fun key => key = ⟨0x06, []⟩) (fun _ => False) read written

/-- Keys of the listed types are not unknown. -/
theorem fromKey_ne_unknowns (data : Bytes) :
    ∀ t ∈ keyTypes.keyless ++ (keyTypes.publicKey ++ keyTypes.scanKey),
      fromKey ⟨t, data⟩ ≠ .ok .unknowns := by
  simp only [keyTypes, List.cons_append, List.nil_append, List.forall_mem_cons]
  exact ⟨nofun, nofun, nofun, nofun, nofun, nofun, nofun, nofun, nofun⟩

variable [LawfulCodecs]

theorem writes : codec.Writes keyTypes := by
  intro c key k h
  by_cases hc : c = .unknowns
  · subst hc
    have hkey : key = k := Except.ok.inj h.entryKey
    subst hkey
    exact (KeyTypes.written_other fun ht => fromKey_ne_unknowns key.key _ ht h.fromKey).symm
  · have ht : key.typeValue = (rawKey c k).typeValue :=
      (selectsByType.fromKey_iff hc k).mp h.fromKey
    symm
    cases c with
    | unknowns => exact absurd rfl hc
    | xpubs =>
        apply KeyTypes.written_keyed _ _ ht (xpubOfKey_eq_ok.mp h.entryKey)
        all_goals simp [rawKey, keyTypes]
    | spEcdhShares | spDleqProofs =>
        apply KeyTypes.written_scanKey _ _ ht h.entryKey
        all_goals simp [rawKey, keyTypes]
    | proprietaries =>
        have hkey := (proprietaryOfKey_eq_ok.mp h.entryKey).1
        apply KeyTypes.written_keyed _ _ ht (congrArg Key.key hkey)
        all_goals simp [rawKey, keyTypes, ProprietaryKey.toKey, proprietaryType]
    | _ => exact KeyTypes.written_keyless (by simp [keyTypes]) ht

/-- A global map that is decoded keeps its keys, unless one without key data has some. -/
theorem keepsKeys {read written : List Pair} {m : Fields} {self : Global}
    (hread : codec.Collects read m) (hfinish : m.finish = .ok self)
    (hmem : ∀ q, q ∈ written ↔ ∃ e ∈ table.entries self.fields, codec.pairOf e = q)
    (hadmits : ∀ e ∈ table.entries self.fields, codec.Admits e) :
    KeepsKeys read written ↔ keyTypes.NoKeyData read := by
  have hfields := (finish_eq_ok.mp hfinish).2
  apply writes.keeps_iff hmem hadmits nofun
  intro hno key
  have hflags : (⟨.txModifiableFlags, (), self.txModifiableFlags⟩ : table.Entry) ∈
      table.entries self.fields := lawful_table.mem_entries.mpr rfl
  -- all other entries are the ones that were read
  have hentry {e : table.Entry} (he : e.col ≠ .txModifiableFlags) :
      e ∈ table.entries self.fields ↔ e ∈ table.entries m := by
    rcases e with ⟨c, k, v⟩
    rw [lawful_table.mem_entries, lawful_table.mem_entries, ← hfields]
    cases c with
    | txModifiableFlags => exact absurd rfl he
    | _ => rfl
  have hstandard : (∃ e ∈ table.entries m, rawKey e.col e.key = key) ↔
      ∃ p ∈ read, keyTypes.standard p.1 = key := writes.exists_entry_iff_standard hread hno
  simp only [not_false_eq_true, true_and]
  rw [← hstandard]
  constructor
  · rintro ⟨e, he, hkey⟩
    by_cases hc : e.col = .txModifiableFlags
    · left
      rcases e with ⟨c, k, v⟩
      subst hc
      exact hkey.symm
    · exact .inr ⟨e, (hentry hc).mp he, hkey⟩
  · rintro (rfl | ⟨e, he, hkey⟩)
    · exact ⟨_, hflags, rfl⟩
    · by_cases hc : e.col = .txModifiableFlags
      · rcases e with ⟨c, k, v⟩
        subst hc
        exact ⟨_, hflags, hkey⟩
      · exact ⟨e, (hentry hc).mpr he, hkey⟩

end Global

/-! ## The input map -/

namespace Input

/-- The key types of an input map. -/
def keyTypes : KeyTypes where
  keyless := [0x0E, 0x0F, 0x10, 0x11, 0x12, 0x00, 0x01, 0x03, 0x04, 0x05, 0x07, 0x08, 0x13, 0x17,
    0x18]
  publicKey := [0x02, 0x06]
  scanKey := [0x1D, 0x1E]
  disjoint := by simp
  disjoint_scanKey := by simp

/-- The keys of an input map are kept. -/
def KeepsKeys (read written : List Pair) : Prop :=
  keyTypes.Keeps (fun _ => False) (fun _ => False) read written

/-- Keys of the listed types are not unknown. -/
theorem fromKey_ne_unknowns (data : Bytes) :
    ∀ t ∈ keyTypes.keyless ++ (keyTypes.publicKey ++ keyTypes.scanKey),
      fromKey ⟨t, data⟩ ≠ .ok .unknowns := by
  simp only [keyTypes, List.cons_append, List.nil_append, List.forall_mem_cons]
  exact ⟨nofun, nofun, nofun, nofun, nofun, nofun, nofun, nofun, nofun, nofun, nofun, nofun,
    nofun, nofun, nofun, nofun, nofun, nofun, nofun, nofun⟩

variable [LawfulCodecs] [TxidHash]

theorem writes : codec.Writes keyTypes := by
  intro c key k h
  by_cases hc : c = .unknowns
  · subst hc
    have hkey : key = k := Except.ok.inj h.entryKey
    subst hkey
    exact (KeyTypes.written_other fun ht => fromKey_ne_unknowns key.key _ ht h.fromKey).symm
  · have ht : key.typeValue = (rawKey c k).typeValue :=
      (selectsByType.fromKey_iff hc k).mp h.fromKey
    symm
    cases c with
    | unknowns => exact absurd rfl hc
    | partialSigs | bip32Derivations =>
        apply KeyTypes.written_publicKey _ _ ht h.entryKey
        all_goals simp [rawKey, keyTypes]
    | ripemd160Preimages | sha256Preimages | hash160Preimages | hash256Preimages =>
        apply KeyTypes.written_keyed _ _ ht (hashOfKey_eq_ok.mp h.entryKey)
        all_goals simp [rawKey, keyTypes]
    | tapScriptSigs =>
        apply KeyTypes.written_keyed _ _ ht (tapScriptSigOfKey_eq_ok.mp h.entryKey)
        all_goals simp [rawKey, keyTypes]
    | tapScripts =>
        apply KeyTypes.written_keyed _ _ ht (controlBlockOfKey_eq_ok.mp h.entryKey)
        all_goals simp [rawKey, keyTypes]
    | tapKeyOrigins =>
        apply KeyTypes.written_keyed _ _ ht (xOnlyOfKey_eq_ok.mp h.entryKey)
        all_goals simp [rawKey, keyTypes]
    | spEcdhShares | spDleqProofs =>
        apply KeyTypes.written_scanKey _ _ ht h.entryKey
        all_goals simp [rawKey, keyTypes]
    | proprietaries =>
        have hkey := (proprietaryOfKey_eq_ok.mp h.entryKey).1
        apply KeyTypes.written_keyed _ _ ht (congrArg Key.key hkey)
        all_goals simp [rawKey, keyTypes, ProprietaryKey.toKey, proprietaryType]
    | _ => exact KeyTypes.written_keyless (by simp [keyTypes]) ht

/-- An input map that is decoded keeps its keys, unless one without key data has some. -/
theorem keepsKeys {read written : List Pair} {self : Input}
    (hread : codec.Collects read self.fields)
    (hmem : ∀ q, q ∈ written ↔ ∃ e ∈ table.entries self.fields, codec.pairOf e = q)
    (hadmits : ∀ e ∈ table.entries self.fields, codec.Admits e) :
    KeepsKeys read written ↔ keyTypes.NoKeyData read := by
  apply writes.keeps_iff hmem hadmits nofun
  intro hno key
  simp only [not_false_eq_true, true_and, false_or]
  exact writes.exists_entry_iff_standard hread hno

end Input

/-! ## The output map -/

namespace Output

/-- The key types of an output map. -/
def keyTypes : KeyTypes where
  keyless := [0x03, 0x04, 0x00, 0x01, 0x05, 0x06, 0x09, 0x0A]
  publicKey := [0x02]
  scanKey := []
  disjoint := by simp
  disjoint_scanKey := by simp

/-- The pair of an empty script next to a silent payment address. -/
def DroppedScript (read : List Pair) (p : Pair) : Prop :=
  p = (⟨0x04, []⟩, []) ∧ ∃ q ∈ read, q.1.typeValue = 0x09

/-- The keys of an output map are kept; an empty script may be dropped. -/
def KeepsKeys (read written : List Pair) : Prop :=
  keyTypes.Keeps (fun _ => False) (DroppedScript read) read written

/-- Keys of the listed types are not unknown. -/
theorem fromKey_ne_unknowns (data : Bytes) :
    ∀ t ∈ keyTypes.keyless ++ (keyTypes.publicKey ++ keyTypes.scanKey),
      fromKey ⟨t, data⟩ ≠ .ok .unknowns := by
  simp only [keyTypes, List.cons_append, List.nil_append, List.forall_mem_cons]
  exact ⟨nofun, nofun, nofun, nofun, nofun, nofun, nofun, nofun, nofun, nofun⟩

omit [BitcoinCodecs] in
/-- Only an empty script next to a silent payment address is not written. -/
theorem mem_entries_withoutEmptyScript {m : Fields} {e : table.Entry} :
    e ∈ table.entries m.withoutEmptyScript ↔ e ∈ table.entries m ∧
      ¬(m.spV0Info.isSome ∧ e = ⟨.scriptPubkey, (), []⟩) := by
  rcases e with ⟨c, k, v⟩
  rw [lawful_table.mem_entries, lawful_table.mem_entries]
  by_cases hc : c = .scriptPubkey
  · subst hc
    have hempty : (⟨.scriptPubkey, k, v⟩ : table.Entry) = ⟨.scriptPubkey, (), []⟩ ↔
        v = ([] : ScriptBuf) := by
      constructor
      · intro h
        cases h
        rfl
      · rintro rfl
        rfl
    change (if m.spV0Info.isSome && m.scriptPubkey == some [] then none
      else m.scriptPubkey) = some v ↔ m.scriptPubkey = some v ∧ _
    rw [hempty]
    split
    · rename_i hdropped
      simp only [Bool.and_eq_true, beq_iff_eq] at hdropped
      constructor
      · nofun
      · rintro ⟨hv, hkept⟩
        exact absurd ⟨hdropped.1, Option.some.inj (hv.symm.trans hdropped.2)⟩ hkept
    · rename_i hkept
      simp only [Bool.and_eq_true, beq_iff_eq] at hkept
      refine ⟨fun hv => ⟨hv, ?_⟩, And.left⟩
      rintro ⟨hinfo, rfl⟩
      exact hkept ⟨hinfo, hv⟩
  · have hne : (⟨c, k, v⟩ : table.Entry) ≠ ⟨.scriptPubkey, (), []⟩ :=
      fun h => hc (congrArg Table.Entry.col h)
    simp only [hne, and_false, not_false_eq_true, and_true]
    cases c with
    | scriptPubkey => exact absurd rfl hc
    | _ => rfl

variable [LawfulCodecs]

theorem writes : codec.Writes keyTypes := by
  intro c key k h
  by_cases hc : c = .unknowns
  · subst hc
    have hkey : key = k := Except.ok.inj h.entryKey
    subst hkey
    exact (KeyTypes.written_other fun ht => fromKey_ne_unknowns key.key _ ht h.fromKey).symm
  · have ht : key.typeValue = (rawKey c k).typeValue :=
      (selectsByType.fromKey_iff hc k).mp h.fromKey
    symm
    cases c with
    | unknowns => exact absurd rfl hc
    | bip32Derivations =>
        apply KeyTypes.written_publicKey _ _ ht h.entryKey
        all_goals simp [rawKey, keyTypes]
    | tapKeyOrigins =>
        have hread : xOnlyOfKey (fun _ => DecodeError.invalidXOnlyPublicKey) key = .ok k :=
          h.entryKey
        apply KeyTypes.written_keyed _ _ ht (xOnlyOfKey_eq_ok.mp hread)
        all_goals simp [rawKey, keyTypes]
    | proprietaries =>
        have hkey := (proprietaryOfKey_eq_ok.mp h.entryKey).1
        apply KeyTypes.written_keyed _ _ ht (congrArg Key.key hkey)
        all_goals simp [rawKey, keyTypes, ProprietaryKey.toKey, proprietaryType]
    | _ => exact KeyTypes.written_keyless (by simp [keyTypes]) ht

/-- The script of a pair is its value. -/
theorem script_of_decodesPair {p : Pair} {k : Unit} {script : ScriptBuf}
    (h : codec.DecodesPair p ⟨.scriptPubkey, k, script⟩) : script = p.2 :=
  (decodes_byteVec h.value_le).mp (PushDecoder.decodes_mapErr.mp h.decodes)

/-- A silent payment address is read from a pair of its type. -/
theorem isSome_spV0Info_iff {read : List Pair} {m : Fields} (hread : codec.Collects read m) :
    m.spV0Info.isSome ↔ ∃ q ∈ read, q.1.typeValue = 0x09 := by
  have htype (key : Key) : fromKey key = .ok .spV0Info ↔ key.typeValue = 0x09 :=
    selectsByType.fromKey_iff (c := Field.spV0Info) nofun ()
  have hpair := hread.exists_pair_iff lawful_codec (c := .spV0Info) (fun key => (htype key).mpr)
    fun hreads => (htype _).mp hreads.fromKey
  rw [hpair, Option.isSome_iff_exists]
  exact ⟨fun ⟨info, h⟩ => ⟨(), info, h⟩, fun ⟨_, info, h⟩ => ⟨info, h⟩⟩

/-- The pair of an entry is dropped when the entry is, if it has no key data. -/
theorem droppedScript_iff {read : List Pair} {m : Fields} (hread : codec.Collects read m)
    {p : Pair} {e : table.Entry} (hpair : codec.DecodesPair p e)
    (hno : p.1.typeValue ∈ keyTypes.keyless → p.1.key = []) :
    DroppedScript read p ↔ m.spV0Info.isSome ∧ e = ⟨.scriptPubkey, (), []⟩ := by
  have htype (k : Unit) : fromKey p.1 = .ok .scriptPubkey ↔ p.1.typeValue = 0x04 :=
    selectsByType.fromKey_iff (c := Field.scriptPubkey) nofun k
  rw [DroppedScript, isSome_spV0Info_iff hread, and_comm]
  refine and_congr_right fun _ => ?_
  rcases e with ⟨c, k, v⟩
  constructor
  · rintro rfl
    have hc : c = .scriptPubkey := Except.ok.inj (hpair.readsKey.fromKey.symm.trans rfl)
    subst hc
    have hv := script_of_decodesPair hpair
    subst hv
    rfl
  · intro he
    cases he
    have ht := (htype ()).mp hpair.readsKey.fromKey
    have hkey : p.1 = ⟨0x04, []⟩ := by
      rw [← ht, ← hno (by simp [ht, keyTypes])]
    exact Prod.ext hkey (script_of_decodesPair hpair).symm

/-- An output map that is decoded keeps its keys, unless one without key data has some. -/
theorem keepsKeys {read written : List Pair} {m : Fields} {self : Output}
    (hread : codec.Collects read m) (hfinish : m.finish = .ok self)
    (hmem : ∀ q, q ∈ written ↔ ∃ e ∈ table.entries self.fields, codec.pairOf e = q)
    (hadmits : ∀ e ∈ table.entries self.fields, codec.Admits e) :
    KeepsKeys read written ↔ keyTypes.NoKeyData read := by
  have hdropped (p : Pair) (hp : DroppedScript read p) : p.1.key = [] := by
    rw [hp.1]
  apply writes.keeps_iff hmem hadmits hdropped
  intro hno key
  change (∃ e ∈ table.entries self.fields, rawKey e.col e.key = key) ↔ _
  rw [← (finish_eq_ok.mp hfinish).2, false_or]
  constructor
  · rintro ⟨e, he, rfl⟩
    rcases mem_entries_withoutEmptyScript.mp he with ⟨hm, hkept⟩
    rcases hread.exists_pair hm with ⟨p, hp, hpair⟩
    refine ⟨p, hp, fun hdrop => hkept ((droppedScript_iff hread hpair (hno p hp)).mp hdrop), ?_⟩
    rw [← KeyTypes.written_eq_standard (hno p hp)]
    exact (writes hpair.readsKey).symm
  · rintro ⟨p, hp, hkept, rfl⟩
    rcases hread.exists_entry hp with ⟨e, he, hpair⟩
    refine ⟨e, mem_entries_withoutEmptyScript.mpr ⟨he, fun hdrop => hkept ?_⟩, ?_⟩
    · exact (droppedScript_iff hread hpair (hno p hp)).mpr hdrop
    · rw [← KeyTypes.written_eq_standard (hno p hp)]
      exact writes hpair.readsKey

end Output

end RustPsbt
