import RustPsbt.Encoding.Fixed
import RustPsbt.Map.Codec

/-!
# Key data of the fields

How the map decoders read the key data of a pair, and the bytes that the map encoders
write for it.  The errors differ from map to map and are parameters.

Main results:

- Theorem `MapCodec.HasKeyCodec.rewrites`: a field whose key data round trips meets the law
  of keys.
-/

namespace RustPsbt

variable [BitcoinTypes] [BitcoinCodecs]

/-! ## Readers -/

section

variable {ε : Type}

/-- `PublicKey::from_slice` on the key data. -/
def publicKeyOfKey (invalid : ExtError → ε) (key : Key) : Result ε PublicKey :=
  (Result.ofExcept (publicKeyFromSlice key.key)).mapErr invalid

/-- `XOnlyPublicKey::from_slice` on the key data. -/
def xOnlyOfKey (invalid : Key → ε) (key : Key) : Result ε XOnlyPublicKey :=
  (Result.ofExcept (xOnlyFromSlice key.key)).mapErr fun _ => invalid key

/-- `CompressedPublicKey::from_slice` on the key data. -/
def compressedOfKey (invalid : Key → ε) (key : Key) : Result ε CompressedPublicKey :=
  (Result.ofExcept (compressedFromSlice key.key)).mapErr fun _ => invalid key

/-- The scan key of a silent payment field: key data is required. -/
def scanKeyOfKey (invalid : Key → ε) (key : Key) : Result ε CompressedPublicKey :=
  if key.key.isEmpty then .err (invalid key) else compressedOfKey invalid key

/-- `Xpub::decode` on the key data. -/
def xpubOfKey (invalid : ExtError → ε) (key : Key) : Result ε Xpub :=
  (Result.ofExcept (xpubDecode key.key)).mapErr invalid

/-- `from_slice` of a hash type on the key data. -/
def hashOfKey (n : Nat) (invalid : FromSliceError → ε) (key : Key) : Result ε (U8Array n) :=
  (hashFromSlice n key.key).mapErr invalid

/-- The key of a taproot script signature: an x-only key and a leaf hash. -/
def tapScriptSigOfKey (invalid : Key → ε) (key : Key) :
    Result ε (XOnlyPublicKey × TapLeafHash) :=
  if key.key.length ≠ 64 then .err (invalid key)
  else do
    let xonly ← (Result.ofExcept (xOnlyFromSlice (key.key.take 32))).mapErr fun _ => invalid key
    let leafHash ← (hashFromSlice 32 ((key.key.take 64).drop 32)).mapErr fun _ => invalid key
    .ok (xonly, leafHash)

/-- `ControlBlock::decode` on the key data. -/
def controlBlockOfKey (invalid : ε) (key : Key) : Result ε ControlBlock :=
  (Result.ofExcept (controlBlockDecode key.key)).mapErr fun _ => invalid

/-- `ProprietaryKey::try_from` on the key. -/
def proprietaryOfKey (invalid : ε) (key : Key) : Result ε ProprietaryKey :=
  (ProprietaryKey.ofKey key).mapErr fun _ => invalid

/-- A field without keys whose arm requires that there is no key data. -/
def noKeyData (invalid : Key → ε) (key : Key) : Result ε Unit :=
  if key.key.isEmpty then .ok () else .err (invalid key)

end

/-- The key data of a taproot script signature. -/
def tapScriptSigBytes (key : XOnlyPublicKey × TapLeafHash) : Bytes :=
  (xOnlySerialize key.1).bytes ++ key.2.bytes

/-! ## Laws -/

/-- Key data that is read is written no longer, and read again. -/
structure KeyCodec {ε K : Type} (read : Key → Result ε K) (bytes : K → Bytes) : Prop where
  read_bytes : ∀ (k : K) (t : UInt64), read ⟨t, bytes k⟩ = .ok k
  length_le : ∀ {key : Key} {k : K}, read key = .ok k → (bytes k).length ≤ key.key.length
  returns : ∀ key, (read key).Returns

omit [BitcoinTypes] [BitcoinCodecs] in
theorem KeyCodec.of_iff {ε K : Type} {read : Key → Result ε K} {bytes : K → Bytes}
    (h : ∀ {key k}, read key = .ok k ↔ key.key = bytes k) (hreturns : ∀ key, (read key).Returns) :
    KeyCodec read bytes where
  read_bytes _ _ := h.mpr rfl
  length_le hread := (congrArg List.length (h.mp hread)).ge
  returns := hreturns

omit [BitcoinTypes] [BitcoinCodecs] in
/-- A field without keys reads no key data. -/
theorem keyCodec_unit {ε : Type} : KeyCodec (fun _ => (.ok () : Result ε Unit)) fun _ => [] where
  read_bytes _ _ := rfl
  length_le _ := Nat.zero_le _
  returns _ := trivial

omit [BitcoinTypes] [BitcoinCodecs] in
theorem keyCodec_noKeyData {ε : Type} (invalid : Key → ε) :
    KeyCodec (noKeyData invalid) fun _ => [] where
  read_bytes _ _ := rfl
  length_le _ := Nat.zero_le _
  returns key := by
    unfold noKeyData
    split <;> trivial

section

variable [LawfulCodecs] {ε : Type}

theorem keyCodec_publicKey (invalid : ExtError → ε) :
    KeyCodec (publicKeyOfKey invalid) publicKeyBytes where
  read_bytes k _ := by
    rw [publicKeyOfKey, Result.mapErr_eq_ok, Result.ofExcept_eq_ok]
    exact LawfulCodecs.publicKey_roundtrip k
  length_le {key k} h := by
    rw [publicKeyOfKey, Result.mapErr_eq_ok, Result.ofExcept_eq_ok] at h
    exact (LawfulCodecs.publicKey_length h).le
  returns _ := Result.returns_mapErr.mpr (Result.returns_ofExcept _)

theorem xOnlyOfKey_eq_ok {invalid : Key → ε} {key : Key} {k : XOnlyPublicKey} :
    xOnlyOfKey invalid key = .ok k ↔ key.key = (xOnlySerialize k).bytes := by
  rw [xOnlyOfKey, Result.mapErr_eq_ok, Result.ofExcept_eq_ok, LawfulCodecs.xOnly_fromSlice]

theorem keyCodec_xOnly (invalid : Key → ε) :
    KeyCodec (xOnlyOfKey invalid) fun k => (xOnlySerialize k).bytes :=
  .of_iff xOnlyOfKey_eq_ok fun _ => Result.returns_mapErr.mpr (Result.returns_ofExcept _)

omit [LawfulCodecs] in
theorem compressedOfKey_eq_ok {invalid : Key → ε} {key : Key} {k : CompressedPublicKey} :
    compressedOfKey invalid key = .ok k ↔ compressedFromSlice key.key = .ok k := by
  rw [compressedOfKey, Result.mapErr_eq_ok, Result.ofExcept_eq_ok]

theorem keyCodec_compressed (invalid : Key → ε) :
    KeyCodec (compressedOfKey invalid) fun k => (compressedToBytes k).bytes where
  read_bytes _ _ := compressedOfKey_eq_ok.mpr (LawfulCodecs.compressed_fromSlice.mpr rfl)
  length_le {key k} h := by
    rw [U8Array.length_bytes]
    exact LawfulCodecs.compressed_length (compressedOfKey_eq_ok.mp h)
  returns _ := Result.returns_mapErr.mpr (Result.returns_ofExcept _)

/-- The serialization of a scan key is not empty, so requiring key data changes nothing. -/
theorem scanKeyOfKey_eq_ok {invalid : Key → ε} {key : Key} {k : CompressedPublicKey} :
    scanKeyOfKey invalid key = .ok k ↔ compressedFromSlice key.key = .ok k := by
  unfold scanKeyOfKey
  cases hempty : key.key.isEmpty with
  | true =>
      rw [List.isEmpty_iff.mp hempty]
      constructor
      · intro h
        cases h
      · intro h
        have hlen := LawfulCodecs.compressed_length h
        cases hlen
  | false =>
      rw [if_neg Bool.false_ne_true]
      exact compressedOfKey_eq_ok

theorem keyCodec_scanKey (invalid : Key → ε) :
    KeyCodec (scanKeyOfKey invalid) fun k => (compressedToBytes k).bytes where
  read_bytes _ _ := scanKeyOfKey_eq_ok.mpr (LawfulCodecs.compressed_fromSlice.mpr rfl)
  length_le {key k} h := by
    rw [U8Array.length_bytes]
    exact LawfulCodecs.compressed_length (scanKeyOfKey_eq_ok.mp h)
  returns key := by
    unfold scanKeyOfKey
    split
    · trivial
    · exact (keyCodec_compressed invalid).returns key

theorem xpubOfKey_eq_ok {invalid : ExtError → ε} {key : Key} {k : Xpub} :
    xpubOfKey invalid key = .ok k ↔ key.key = (xpubEncode k).bytes := by
  rw [xpubOfKey, Result.mapErr_eq_ok, Result.ofExcept_eq_ok, LawfulCodecs.xpub_decode]

theorem keyCodec_xpub (invalid : ExtError → ε) :
    KeyCodec (xpubOfKey invalid) fun k => (xpubEncode k).bytes :=
  .of_iff xpubOfKey_eq_ok fun _ => Result.returns_mapErr.mpr (Result.returns_ofExcept _)

omit [BitcoinTypes] [BitcoinCodecs] [LawfulCodecs] in
theorem hashOfKey_eq_ok {n : Nat} {invalid : FromSliceError → ε} {key : Key} {k : U8Array n} :
    hashOfKey n invalid key = .ok k ↔ key.key = k.bytes := by
  rw [hashOfKey, Result.mapErr_eq_ok, hashFromSlice_eq_ok]

omit [BitcoinTypes] [BitcoinCodecs] [LawfulCodecs] in
theorem keyCodec_hash (n : Nat) (invalid : FromSliceError → ε) :
    KeyCodec (hashOfKey n invalid) U8Array.bytes :=
  .of_iff hashOfKey_eq_ok fun _ => Result.returns_mapErr.mpr (returns_hashFromSlice n _)

theorem tapScriptSigOfKey_eq_ok {invalid : Key → ε} {key : Key}
    {k : XOnlyPublicKey × TapLeafHash} :
    tapScriptSigOfKey invalid key = .ok k ↔ key.key = tapScriptSigBytes k := by
  rcases k with ⟨xonly, leafHash⟩
  unfold tapScriptSigOfKey tapScriptSigBytes
  by_cases hlen : key.key.length = 64
  · have htake : key.key.take 64 = key.key := List.take_of_length_le hlen.le
    rw [if_neg (not_not.mpr hlen), htake]
    simp only [Result.bind_eq_ok, Result.mapErr_eq_ok, Result.ofExcept_eq_ok,
      LawfulCodecs.xOnly_fromSlice, hashFromSlice_eq_ok]
    constructor
    · rintro ⟨x, hx, h, hh, heq⟩
      cases heq
      rw [← hx, ← hh, List.take_append_drop]
    · intro h
      refine ⟨xonly, ?_, leafHash, ?_, rfl⟩
      · rw [h]
        exact List.take_left' (U8Array.length_bytes _)
      · rw [h]
        exact List.drop_left' (U8Array.length_bytes _)
  · rw [if_pos hlen]
    constructor
    · intro h
      cases h
    · intro h
      rw [h] at hlen
      exact absurd (by simp) hlen

theorem keyCodec_tapScriptSig (invalid : Key → ε) :
    KeyCodec (tapScriptSigOfKey invalid) tapScriptSigBytes := by
  apply KeyCodec.of_iff tapScriptSigOfKey_eq_ok
  intro key
  unfold tapScriptSigOfKey
  split
  · trivial
  · apply Result.Returns.bind (Result.returns_mapErr.mpr (Result.returns_ofExcept _))
    intro xonly _
    apply Result.Returns.bind (Result.returns_mapErr.mpr (returns_hashFromSlice 32 _))
    intro leafHash _
    trivial

theorem controlBlockOfKey_eq_ok {invalid : ε} {key : Key} {k : ControlBlock} :
    controlBlockOfKey invalid key = .ok k ↔ key.key = controlBlockBytes k := by
  rw [controlBlockOfKey, Result.mapErr_eq_ok, Result.ofExcept_eq_ok,
    LawfulCodecs.controlBlock_decode]

theorem keyCodec_controlBlock (invalid : ε) :
    KeyCodec (controlBlockOfKey invalid) controlBlockBytes :=
  .of_iff controlBlockOfKey_eq_ok fun _ => Result.returns_mapErr.mpr (Result.returns_ofExcept _)

theorem proprietaryOfKey_eq_ok {invalid : ε} {key : Key} {p : ProprietaryKey} :
    proprietaryOfKey invalid key = .ok p ↔ key = p.toKey ∧ p.pfx.length ≤ compactSizeLimit := by
  rw [proprietaryOfKey, Result.mapErr_eq_ok, ProprietaryKey.ofKey_eq_ok]

theorem returns_proprietaryOfKey (invalid : ε) (key : Key) :
    (proprietaryOfKey invalid key).Returns :=
  Result.returns_mapErr.mpr (ProprietaryKey.returns_ofKey key)

end

/-! ## Keys that are written -/

omit [BitcoinTypes] [BitcoinCodecs] in
/-- A small key type takes the least room, so shorter key data makes a shorter key. -/
theorem Key.length_body_le {t : UInt64} (ht : t.toNat < 0xfd) {data : Bytes} {key : Key}
    (h : data.length ≤ key.key.length) : (⟨t, data⟩ : Key).body.length ≤ key.body.length := by
  have hsmall : varIntSize t.toNat = 1 := if_pos ht
  have hpos := List.length_pos_iff.mpr (compactSize_ne_nil key.typeValue.toNat)
  rw [length_compactSize] at hpos
  rw [key.length_body, Key.length_body]
  change varIntSize t.toNat + data.length ≤ varIntSize key.typeValue.toNat + key.key.length
  omega

omit [BitcoinTypes] [BitcoinCodecs] in
/-- The prefix of a proprietary key is shorter than the key. -/
theorem ProprietaryKey.length_pfx_le (p : ProprietaryKey) :
    p.pfx.length ≤ p.toKey.body.length := by
  rw [Key.length_body, toKey, bytes, frame]
  simp only [List.length_append]
  omega

namespace MapCodec

variable {ε M α : Type} {C : MapCodec ε M α} {c : C.table.Col} {key : Key} {k : C.table.K c}

/-- The keys of the field have one type, and their key data is read and written alike. -/
def HasKeyCodec (C : MapCodec ε M α) (c : C.table.Col) : Prop :=
  ∃ (t : UInt64) (bytes : C.table.K c → Bytes), KeyCodec (C.entryKey c) bytes ∧
    t.toNat < 0xfd ∧ ∀ k, C.rawKey c k = ⟨t, bytes k⟩ ∧ C.fromKey ⟨t, bytes k⟩ = .ok c

theorem HasKeyCodec.readsKey_rawKey (h : C.HasKeyCodec c) : C.ReadsKey c (C.rawKey c k) k := by
  rcases h with ⟨t, bytes, hcodec, _, hkey⟩
  rw [(hkey k).1]
  exact ⟨(hkey k).2, hcodec.read_bytes k t⟩

/-- A field whose key data round trips meets the law of keys. -/
theorem HasKeyCodec.rewrites (h : C.HasKeyCodec c) (hreads : C.ReadsKey c key k) :
    C.ReadsKey c (C.rawKey c k) k ∧ (C.rawKey c k).body.length ≤ key.body.length := by
  refine ⟨h.readsKey_rawKey, ?_⟩
  rcases h with ⟨t, bytes, hcodec, ht, hkey⟩
  rw [(hkey k).1]
  exact Key.length_body_le ht (hcodec.length_le hreads.entryKey)

theorem HasKeyCodec.returns_entryKey (h : C.HasKeyCodec c) (key : Key) :
    (C.entryKey c key).Returns := by
  rcases h with ⟨_, _, hcodec, _⟩
  exact hcodec.returns key

/-- A field that writes the key it has read meets the law of keys. -/
theorem ReadsKey.rewrites_self (hreads : C.ReadsKey c key k) (hraw : C.rawKey c k = key) :
    C.ReadsKey c (C.rawKey c k) k ∧ (C.rawKey c k).body.length ≤ key.body.length := by
  rw [hraw]
  exact ⟨hreads, le_rfl⟩

end MapCodec

end RustPsbt
