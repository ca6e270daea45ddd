import RustPsbt.Encoding.Value

/-!
# Raw keys and proprietary keys

A raw key is framed by its length and starts with its type.  A proprietary key is the
data of a raw key of type `0xFC`: a prefix behind its length, a subtype, and the rest.

Main results:

- Theorem `accepts_keyDecoder`: the key decoder takes exactly the frame of a key.
- Theorem `ProprietaryKey.ofKey_eq_ok`: a proprietary key is read off its encoding only.
-/

namespace RustPsbt

variable [BitcoinTypes] [BitcoinCodecs]

/-- The `keytype` of proprietary keys in all maps. -/
def proprietaryType : UInt64 := 0xFC

/-! ## Raw keys -/

/-- `KeyDecodeError`. -/
inductive KeyDecodeError where
  | bytes (e : ExtError)
  | empty
  | typeValue (e : ExtError)
  | excludedKey (keyTypeValue : UInt64)
  | invalidKeyData (key : Key)
  | invalidProprietaryKey

/-- `KeyDecoder::end` on the body of a key. -/
def keyOfBody (body : Bytes) : Result KeyDecodeError Key :=
  if body.isEmpty then .err .empty
  else do
    let x ← (compactSizeU64Decoder.run body).mapErr .typeValue
    .ok ⟨x.1, x.2⟩

/-- `KeyDecoder`. -/
def keyDecoder : PushDecoder UInt8 KeyDecodeError Key :=
  byteVecDecoder.wrap .bytes .bytes keyOfBody

/-- The body of a key: its type and its data. -/
def Key.body (key : Key) : Bytes :=
  compactSize key.typeValue.toNat ++ key.key

/-- The bytes of `KeyEncoder`. -/
def Key.bytes (key : Key) : Bytes :=
  frame key.body

omit [BitcoinTypes] [BitcoinCodecs] in
theorem Key.body_ne_nil (key : Key) : key.body ≠ [] := by
  have hne := compactSize_ne_nil key.typeValue.toNat
  simp [Key.body, hne]

omit [BitcoinTypes] [BitcoinCodecs] in
theorem Key.length_body (key : Key) :
    key.body.length = varIntSize key.typeValue.toNat + key.key.length := by
  rw [Key.body, List.length_append, length_compactSize]

omit [BitcoinTypes] [BitcoinCodecs] in
/-- A key is not a separator. -/
theorem Key.bytes_eq_cons (key : Key) (hlimit : key.body.length ≤ compactSizeLimit) :
    ∃ byte b, key.bytes = byte :: b ∧ byte ≠ 0 := by
  cases hbytes : key.bytes with
  | nil =>
      have hne : key.bytes ≠ [] := by simp [Key.bytes, frame, compactSize_ne_nil]
      exact absurd hbytes hne
  | cons byte b =>
      refine ⟨byte, b, rfl, ?_⟩
      rintro rfl
      have hbound := compactSizeLimit_lt
      have hzero := compactSize_eq_zero_cons (by omega) hbytes
      exact key.body_ne_nil (List.length_eq_zero_iff.mp hzero)

omit [BitcoinTypes] [BitcoinCodecs] in
theorem Key.body_injective {key key' : Key} (h : key.body = key'.body) : key = key' := by
  have hlt := key.typeValue.toNat_lt
  have hlt' := key'.typeValue.toNat_lt
  rcases compactSize_append_inj (by omega) (by omega) h with ⟨htype, hdata⟩
  cases key
  cases key'
  cases UInt64.toNat_inj.mp htype
  cases hdata
  rfl

section

variable [LawfulCodecs]

theorem keyOfBody_eq_ok {body : Bytes} {key : Key} :
    keyOfBody body = .ok key ↔ body = key.body := by
  unfold keyOfBody
  cases hempty : body.isEmpty with
  | true =>
      rw [List.isEmpty_iff.mp hempty]
      constructor
      · intro h
        cases h
      · intro h
        exact absurd h.symm key.body_ne_nil
  | false =>
      simp only [Bool.false_eq_true, if_false, Result.bind_eq_ok, Result.mapErr_eq_ok, Prod.exists]
      constructor
      · rintro ⟨typeValue, data, hrun, heq⟩
        cases heq
        exact LawfulCodecs.compactSizeU64_accepts.mp hrun
      · rintro rfl
        exact ⟨key.typeValue, key.key, LawfulCodecs.compactSizeU64_accepts.mpr rfl, rfl⟩

/-- The key decoder takes exactly the frame of a key. -/
theorem accepts_keyDecoder {b r : Bytes} {key : Key} :
    keyDecoder.Accepts b key r ↔ b = key.bytes ++ r ∧ key.body.length ≤ compactSizeLimit := by
  rw [keyDecoder, PushDecoder.accepts_wrap]
  simp only [LawfulCodecs.byteVec_accepts, keyOfBody_eq_ok]
  constructor
  · rintro ⟨body, ⟨rfl, hlimit⟩, rfl⟩
    exact ⟨(frame_append _ _).symm, hlimit⟩
  · rintro ⟨rfl, hlimit⟩
    exact ⟨key.body, ⟨frame_append _ _, hlimit⟩, rfl⟩

theorem lawful_keyDecoder : keyDecoder.Lawful :=
  LawfulCodecs.byteVec_sound.lawful.wrap

theorem strict_keyDecoder : keyDecoder.Strict :=
  LawfulCodecs.byteVec_sound.strict.wrap

theorem safe_keyDecoder : keyDecoder.Safe := by
  apply LawfulCodecs.byteVec_sound.safe.wrap
  intro body
  unfold keyOfBody
  split_ifs
  · trivial
  · apply Result.Returns.bind
    · exact Result.returns_mapErr.mpr (LawfulCodecs.compactSizeU64_sound.safe body)
    · intro x _
      trivial

end

/-! ## Proprietary keys -/

namespace ProprietaryKey

/-- `InvalidProprietaryKeyError`. -/
inductive InvalidProprietaryKeyError where
  | invalid
deriving DecidableEq

/-- The decoder of the prefix and the subtype. -/
def decoder : PushDecoder UInt8 (Decoder2Error ExtError ExtError) (Bytes × UInt64) :=
  decoder2 byteVecDecoder compactSizeU64Decoder

/-- `ProprietaryKey::try_from` for a raw key. -/
def ofKey (key : Key) : Result InvalidProprietaryKeyError ProprietaryKey :=
  if key.typeValue ≠ proprietaryType then .err .invalid
  else do
    let x ← (decoder.push decoder.init key.key).mapErr fun _ => .invalid
    if x.2.2 = .needsMore then .err .invalid
    else do
      let y ← (decoder.finish x.1).mapErr fun _ => .invalid
      .ok ⟨y.1, y.2, x.2.1⟩

/-- The bytes of `ProprietaryKeyEncoder`. -/
def bytes (key : ProprietaryKey) : Bytes :=
  frame key.pfx ++ (compactSize key.subtype.toNat ++ key.key)

omit [BitcoinTypes] [BitcoinCodecs] in
theorem bytes_ne_nil (key : ProprietaryKey) : key.bytes ≠ [] := by
  intro h
  have hprefix := (List.append_eq_nil_iff.mp (List.append_eq_nil_iff.mp h).1).1
  exact compactSize_ne_nil _ hprefix

/-- `ProprietaryKey::to_key`. -/
def toKey (key : ProprietaryKey) : Key :=
  ⟨proprietaryType, key.bytes⟩

section

variable [LawfulCodecs]

theorem lawful_decoder : decoder.Lawful :=
  LawfulCodecs.decoder2_lawful LawfulCodecs.byteVec_sound.lawful
    LawfulCodecs.compactSizeU64_sound.lawful

theorem meaning_decoder : decoder.meaning = byteVecDecoder.meaning.andThen fun pfx =>
    compactSizeU64Decoder.meaning.andThen fun subtype =>
      .ofResult (ε := Unit) (.ok (pfx, subtype)) :=
  LawfulCodecs.decoder2_meaning LawfulCodecs.byteVec_sound.lawful
    LawfulCodecs.compactSizeU64_sound.lawful

theorem accepts_decoder {b r pfx : Bytes} {subtype : UInt64} :
    decoder.Accepts b (pfx, subtype) r ↔
      b = frame pfx ++ (compactSize subtype.toNat ++ r) ∧ pfx.length ≤ compactSizeLimit := by
  rw [← PushDecoder.meaning_eq_ok, meaning_decoder]
  simp only [Parser.andThen_eq_ok, PushDecoder.meaning_eq_ok, LawfulCodecs.byteVec_accepts,
    LawfulCodecs.compactSizeU64_accepts, Parser.ofResult_eq_ok, Except.ok.injEq, Prod.mk.injEq]
  constructor
  · rintro ⟨v, m, ⟨rfl, hlimit⟩, n, m', rfl, ⟨rfl, rfl⟩, rfl⟩
    exact ⟨(frame_append _ _).symm, hlimit⟩
  · rintro ⟨rfl, hlimit⟩
    exact ⟨pfx, _, ⟨frame_append _ _, hlimit⟩, subtype, r, rfl, ⟨rfl, rfl⟩, rfl⟩

theorem safe_decoder : decoder.Safe := by
  rw [PushDecoder.safe_iff, meaning_decoder]
  intro b
  apply Parser.Returns.andThen (PushDecoder.safe_iff.mp LawfulCodecs.byteVec_sound.safe b)
  intro pfx r _
  apply Parser.Returns.andThen
    (PushDecoder.safe_iff.mp LawfulCodecs.compactSizeU64_sound.safe r)
  intro subtype r' _
  trivial

/-- Only the encoding of a proprietary key is read as one. -/
theorem ofKey_eq_ok {key : Key} {p : ProprietaryKey} :
    ofKey key = .ok p ↔ key = p.toKey ∧ p.pfx.length ≤ compactSizeLimit := by
  rcases lawful_decoder with ⟨W, hW⟩
  have hready : ∀ {a r}, (∃ s, decoder.push decoder.init key.key = .ok (s, r, .ready) ∧
      decoder.finish s = .ok a) ↔ decoder.Accepts key.key a r :=
    hW.accepts_iff_ready.symm
  rcases key with ⟨typeValue, data⟩
  unfold ofKey
  by_cases htype : typeValue = proprietaryType
  · subst htype
    simp only [ne_eq, not_true, if_false, Result.bind_eq_ok, Result.mapErr_eq_ok, Prod.exists]
    constructor
    · rintro ⟨s, r, st, hpush, hrest⟩
      cases st with
      | needsMore => cases hrest
      | ready =>
          rcases Result.bind_eq_ok.mp hrest with ⟨⟨pfx, subtype⟩, hfin, heq⟩
          cases heq
          have hacc := hready.mp ⟨s, hpush, Result.mapErr_eq_ok.mp hfin⟩
          rcases accepts_decoder.mp hacc with ⟨rfl, hlimit⟩
          exact ⟨rfl, hlimit⟩
    · rintro ⟨heq, hlimit⟩
      have hdata : data = p.bytes := congrArg Key.key heq
      have hacc := accepts_decoder.mpr ⟨hdata, hlimit⟩
      rcases hready.mpr hacc with ⟨s, hpush, hfin⟩
      refine ⟨s, p.key, .ready, hpush, ?_⟩
      rw [if_neg (by decide), hfin]
      rfl
  · rw [if_pos htype]
    constructor
    · intro h
      cases h
    · rintro ⟨heq, _⟩
      exact absurd (congrArg Key.typeValue heq) htype

theorem returns_ofKey (key : Key) : (ofKey key).Returns := by
  have hrun := safe_decoder key.key
  unfold PushDecoder.run PushDecoder.runFrom at hrun
  rw [Result.returns_bind] at hrun
  unfold ofKey
  split
  · trivial
  · apply Result.Returns.bind (Result.returns_mapErr.mpr hrun.1)
    intro x hx
    split
    · trivial
    · have hfin := hrun.2 (Result.mapErr_eq_ok.mp hx)
      rw [Result.returns_bind] at hfin
      apply Result.Returns.bind (Result.returns_mapErr.mpr hfin.1)
      intro y _
      trivial

end

end ProprietaryKey

end RustPsbt
