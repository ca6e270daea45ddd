import RustPsbt.Primitives.Codecs

/-!
# Values of key-value pairs

A value is written as its length and its bytes.  `valueDecoder` reads the length,
hands the bytes to the decoder of the value's type, and checks that it took exactly
that many.  `ValueCodec` collects what a map needs of the decoder of a value and of
the encoder that matches it.

Main results:

- Theorem `accepts_valueDecoder`: the value decoder takes the length and exactly the
  bytes it announces.
- Theorem `ValueCodecOn.of_inner`: a codec of bytes makes a codec of values.
-/

namespace RustPsbt

variable [BitcoinTypes] [BitcoinCodecs]

/-! ## Framing -/

/-- An encoder with a known length: the length it declares and the bytes it yields. -/
structure ExactSizeEncoder where
  len : Nat
  bytes : Bytes

/-- An encoder that counts its own bytes. -/
def ExactSizeEncoder.ofBytes (b : Bytes) : ExactSizeEncoder :=
  ⟨b.length, b⟩

/-- A byte string behind its length. -/
def frame (w : Bytes) : Bytes :=
  compactSize w.length ++ w

omit [BitcoinTypes] [BitcoinCodecs] in
theorem frame_append (w r : Bytes) : frame w ++ r = compactSize w.length ++ (w ++ r) :=
  List.append_assoc _ _ _

omit [BitcoinTypes] [BitcoinCodecs] in
/-- Frames of admissible lengths delimit themselves. -/
theorem frame_append_inj {w w' r r' : Bytes} (hw : w.length ≤ compactSizeLimit)
    (hw' : w'.length ≤ compactSizeLimit) (h : frame w ++ r = frame w' ++ r') :
    w = w' ∧ r = r' := by
  have hlimit := compactSizeLimit_lt
  rw [frame_append, frame_append] at h
  rcases compactSize_append_inj (by omega) (by omega) h with ⟨hlen, h⟩
  exact List.append_inj h hlen

omit [BitcoinTypes] [BitcoinCodecs] in
theorem frame_inj {w w' : Bytes} (hw : w.length ≤ compactSizeLimit)
    (hw' : w'.length ≤ compactSizeLimit) (h : frame w = frame w') : w = w' := by
  have happ : frame w ++ [] = frame w' ++ [] := by rw [h]
  exact (frame_append_inj hw hw' happ).1

/-- `ValueDecoderError`. -/
inductive ValueDecoderError (ε : Type) where
  | lengthPrefix (e : ExtError)
  | wrongLength (declared consumed : Nat)
  | inner (e : ε)

/-- `ValueDecoder`: the length prefix is only validated, the inner decoder must consume
exactly the declared number of bytes. -/
def valueDecoder {ε α : Type} (D : PushDecoder UInt8 ε α) :
    PushDecoder UInt8 (ValueDecoderError ε) α :=
  compactSizeDecoder.prefixed .lengthPrefix .ok
    (fun declared => (D.mapErr .inner).metered .wrongLength declared)
    (D.readLimit D.init)

/-! ## Codecs of values -/

/-- What a map needs of the decoder of a value: it takes a length and exactly the
bytes the length announces. -/
structure Framed {ε α : Type} (D : PushDecoder UInt8 ε α) : Prop where
  lawful : D.Lawful
  strict : D.Strict
  framed : ∀ {b a r}, D.Accepts b a r →
    ∃ w, b = frame w ++ r ∧ w.length ≤ compactSizeLimit

/-- The decoder and the encoder of a value match on the values that fit. -/
structure ValueCodecOn {ε α : Type} (D : PushDecoder UInt8 ε α)
    (encode : α → ExactSizeEncoder) (fits : α → Prop) : Prop where
  framed : Framed D
  len_eq : ∀ a, (encode a).len = (encode a).bytes.length
  length_le : ∀ {a}, fits a → (encode a).bytes.length ≤ compactSizeLimit
  decodes_encode : ∀ {a}, fits a → D.Decodes (frame (encode a).bytes) a
  /-- A decoded value fits. -/
  fits_of_decodes : ∀ {w a}, D.Decodes (frame w) a → fits a

/-- The encoding of the value is inside the length limit. -/
def InLimit {α : Type} (encode : α → ExactSizeEncoder) (a : α) : Prop :=
  (encode a).bytes.length ≤ compactSizeLimit

/-- The decoder and the encoder of a value match inside the length limit. -/
abbrev ValueCodec {ε α : Type} (D : PushDecoder UInt8 ε α)
    (encode : α → ExactSizeEncoder) : Prop :=
  ValueCodecOn D encode (InLimit encode)

namespace Framed

variable {ε α : Type} {D : PushDecoder UInt8 ε α}

omit [BitcoinTypes] [BitcoinCodecs] in
theorem accepts_iff (h : Framed D) {b r : Bytes} {a : α} :
    D.Accepts b a r ↔
      ∃ w, b = frame w ++ r ∧ w.length ≤ compactSizeLimit ∧ D.Decodes (frame w) a := by
  constructor
  · intro hacc
    rcases h.framed hacc with ⟨w, rfl, hw⟩
    rcases h.lawful.accepts_iff.mp hacc with ⟨c, hc, hdec⟩
    rw [← List.append_cancel_right hc] at hdec
    exact ⟨w, rfl, hw, hdec⟩
  · rintro ⟨w, rfl, _, hdec⟩
    exact h.lawful.accepts_append hdec r

omit [BitcoinTypes] [BitcoinCodecs] in
theorem wrap {ε' α' : Type} {g g' : ε → ε'} {k : α → Result ε' α'} (h : Framed D) :
    Framed (D.wrap g g' k) where
  lawful := h.lawful.wrap
  strict := h.strict.wrap
  framed hacc := by
    rcases PushDecoder.accepts_wrap.mp hacc with ⟨a, hacc, _⟩
    exact h.framed hacc

omit [BitcoinTypes] [BitcoinCodecs] in
theorem mapErr {ε' : Type} {g : ε → ε'} (h : Framed D) : Framed (D.mapErr g) :=
  h.wrap

end Framed

omit [BitcoinTypes] [BitcoinCodecs] in
theorem PushDecoder.decodes_wrap {ε ε' α α' : Type} {D : PushDecoder UInt8 ε α}
    {g g' : ε → ε'} {k : α → Result ε' α'} {b : Bytes} {a' : α'} :
    (D.wrap g g' k).Decodes b a' ↔ ∃ a, D.Decodes b a ∧ k a = .ok a' :=
  PushDecoder.accepts_wrap

omit [BitcoinTypes] [BitcoinCodecs] in
theorem PushDecoder.decodes_mapErr {ε ε' α : Type} {D : PushDecoder UInt8 ε α}
    {g : ε → ε'} {b : Bytes} {a : α} : (D.mapErr g).Decodes b a ↔ D.Decodes b a :=
  PushDecoder.accepts_mapErr

omit [BitcoinTypes] [BitcoinCodecs] in
/-- Wrapped errors do not matter to a codec. -/
theorem ValueCodecOn.mapErr {ε ε' α : Type} {D : PushDecoder UInt8 ε α} {g : ε → ε'}
    {encode : α → ExactSizeEncoder} {fits : α → Prop} (h : ValueCodecOn D encode fits) :
    ValueCodecOn (D.mapErr g) encode fits where
  framed := h.framed.mapErr
  len_eq := h.len_eq
  length_le := h.length_le
  decodes_encode hfits := PushDecoder.decodes_mapErr.mpr (h.decodes_encode hfits)
  fits_of_decodes hdec := h.fits_of_decodes (PushDecoder.decodes_mapErr.mp hdec)

/-! ## Length prefixes -/

section LengthPrefixed

variable [LawfulCodecs] {ε α γ : Type} {lengthPrefix : ExtError → ε}
  {check : Nat → Result ε γ} {D : γ → PushDecoder UInt8 ε α} {extraLimit : Nat}

/-- The decoder that a length selects takes exactly that many bytes. -/
def TakesLength (check : Nat → Result ε γ) (D : γ → PushDecoder UInt8 ε α) : Prop :=
  ∀ {n c w a}, check n = .ok c → (D c).Decodes w a → w.length = n

/-- A length prefix and exactly the bytes it announces. -/
theorem accepts_lengthPrefixed (hD : ∀ c, (D c).Lawful) (hexact : TakesLength check D)
    {b r : Bytes} {a : α} :
    (compactSizeDecoder.prefixed lengthPrefix check D extraLimit).Accepts b a r ↔
      ∃ w, b = frame w ++ r ∧ w.length ≤ compactSizeLimit ∧
        ∃ c, check w.length = .ok c ∧ (D c).Decodes w a := by
  rw [PushDecoder.accepts_prefixed LawfulCodecs.compactSize_sound.lawful]
  simp only [LawfulCodecs.compactSize_accepts, (hD _).accepts_iff]
  constructor
  · rintro ⟨n, m, c, ⟨rfl, hlimit⟩, hcheck, w, rfl, hw⟩
    have hlen := hexact hcheck hw
    subst hlen
    exact ⟨w, (frame_append w r).symm, hlimit, c, hcheck, hw⟩
  · rintro ⟨w, rfl, hlimit, c, hcheck, hw⟩
    exact ⟨w.length, w ++ r, c, ⟨frame_append w r, hlimit⟩, hcheck, w, rfl, hw⟩

theorem framed_lengthPrefixed (hD : ∀ c, (D c).Lawful) (hexact : TakesLength check D) :
    Framed (compactSizeDecoder.prefixed lengthPrefix check D extraLimit) where
  lawful := LawfulCodecs.compactSize_sound.lawful.prefixed hD
  strict := LawfulCodecs.compactSize_sound.strict.prefixed
  framed hacc := by
    rcases (accepts_lengthPrefixed hD hexact).mp hacc with ⟨w, rfl, hw, _⟩
    exact ⟨w, rfl, hw⟩

/-- The bytes behind an admissible length decide the value. -/
theorem decodes_lengthPrefixed (hD : ∀ c, (D c).Lawful) (hexact : TakesLength check D)
    {w : Bytes} (hw : w.length ≤ compactSizeLimit) {a : α} :
    (compactSizeDecoder.prefixed lengthPrefix check D extraLimit).Decodes (frame w) a ↔
      ∃ c, check w.length = .ok c ∧ (D c).Decodes w a := by
  rw [PushDecoder.Decodes, accepts_lengthPrefixed hD hexact]
  constructor
  · rintro ⟨w', heq, hw', hdec⟩
    rw [List.append_nil] at heq
    rw [frame_inj hw hw' heq]
    exact hdec
  · intro hdec
    exact ⟨w, by simp, hw, hdec⟩

/-- A decoder with a length prefix makes a codec of values. -/
theorem ValueCodec.of_lengthPrefixed {encode : α → ExactSizeEncoder}
    (hD : ∀ c, (D c).Lawful) (hexact : TakesLength check D)
    (hlen : ∀ a, (encode a).len = (encode a).bytes.length)
    (hdec : ∀ a, ∃ c, check (encode a).bytes.length = .ok c ∧
      (D c).Decodes (encode a).bytes a)
    (hfits : ∀ {w c a}, w.length ≤ compactSizeLimit → check w.length = .ok c →
      (D c).Decodes w a → InLimit encode a) :
    ValueCodec (compactSizeDecoder.prefixed lengthPrefix check D extraLimit) encode where
  framed := framed_lengthPrefixed hD hexact
  len_eq := hlen
  length_le h := h
  decodes_encode {a} h := (decodes_lengthPrefixed hD hexact h).mpr (hdec a)
  fits_of_decodes {w a} h := by
    rcases (accepts_lengthPrefixed hD hexact).mp h with ⟨w', _, hw', c, hcheck, hdec'⟩
    exact hfits hw' hcheck hdec'

end LengthPrefixed

/-! ## Length-checked values -/

section ValueDecoder

variable [LawfulCodecs] {ε α : Type} {D : PushDecoder UInt8 ε α}

omit [LawfulCodecs] in
theorem takesLength_metered : TakesLength (ε := ValueDecoderError ε) .ok
    fun declared => (D.mapErr .inner).metered .wrongLength declared := by
  intro n c w a hcheck hdec
  cases hcheck
  exact (PushDecoder.decodes_metered.mp hdec).2

omit [LawfulCodecs] in
theorem lawful_metered (h : D.Lawful) (declared : Nat) :
    ((D.mapErr (ValueDecoderError.inner (ε := ε))).metered .wrongLength declared).Lawful :=
  h.mapErr.metered

/-- The value decoder takes the length and exactly the bytes it announces. -/
theorem accepts_valueDecoder (h : D.Lawful) {b r : Bytes} {a : α} :
    (valueDecoder D).Accepts b a r ↔
      ∃ w, b = frame w ++ r ∧ w.length ≤ compactSizeLimit ∧ D.Decodes w a := by
  rw [valueDecoder, accepts_lengthPrefixed (lawful_metered h) takesLength_metered]
  simp [PushDecoder.decodes_metered, PushDecoder.decodes_mapErr]

theorem framed_valueDecoder (h : D.Lawful) : Framed (valueDecoder D) :=
  framed_lengthPrefixed (lawful_metered h) takesLength_metered

/-- The bytes behind an admissible length decide the value. -/
theorem decodes_valueDecoder (h : D.Lawful) {w : Bytes} (hw : w.length ≤ compactSizeLimit)
    {a : α} : (valueDecoder D).Decodes (frame w) a ↔ D.Decodes w a := by
  rw [valueDecoder, decodes_lengthPrefixed (lawful_metered h) takesLength_metered hw]
  simp [PushDecoder.decodes_metered, PushDecoder.decodes_mapErr]

theorem safe_valueDecoder (h : D.Safe) : (valueDecoder D).Safe :=
  PushDecoder.Safe.prefixed LawfulCodecs.compactSize_sound.lawful
    LawfulCodecs.compactSize_sound.safe (fun _ => trivial) fun _ => h.mapErr.metered

/-- A codec of bytes makes a codec of values. -/
theorem ValueCodecOn.of_inner {encode : α → ExactSizeEncoder} {fits : α → Prop}
    (hlaw : D.Lawful) (hlen : ∀ a, (encode a).len = (encode a).bytes.length)
    (hle : ∀ {a}, fits a → (encode a).bytes.length ≤ compactSizeLimit)
    (hdec : ∀ {a}, fits a → D.Decodes (encode a).bytes a)
    (hfits : ∀ {w a}, D.Decodes w a → w.length ≤ compactSizeLimit → fits a) :
    ValueCodecOn (valueDecoder D) encode fits where
  framed := framed_valueDecoder hlaw
  len_eq := hlen
  length_le := hle
  decodes_encode {a} h := (decodes_valueDecoder hlaw (hle h)).mpr (hdec h)
  fits_of_decodes {w a} h := by
    rcases (accepts_valueDecoder hlaw).mp h with ⟨w', _, hw', hdec'⟩
    exact hfits hdec' hw'

/-- A consensus codec makes a codec of values. -/
theorem ValueCodec.of_codec {c : Codec ExtError α} (h : c.Lawful) {len : α → Nat}
    (hlen : ∀ a, len a = (c.encode a).length) :
    ValueCodec (valueDecoder c.decoder) fun a => ⟨len a, c.encode a⟩ := by
  apply ValueCodecOn.of_inner h.sound.lawful hlen fun h => h
  · intro a hlimit
    have hacc := h.accepts_encode hlimit []
    rwa [List.append_nil] at hacc
  · intro w a hdec hw
    have hle := h.length_encode_le hdec
    exact le_trans hle hw

/-- A fixed-size decoder whose end undoes the encoder. -/
theorem ValueCodec.of_array {n : Nat} (hn : 0 < n) (hlimit : n ≤ compactSizeLimit)
    {g g' : ExtError → ε} {k : U8Array n → Result ε α} {e : α → U8Array n}
    (hk : ∀ a, k (e a) = .ok a) :
    ValueCodec (valueDecoder ((arrayDecoder n).wrap g g' k)) fun a => .ofBytes (e a).bytes := by
  have hsound := LawfulCodecs.array_sound hn
  apply ValueCodecOn.of_inner hsound.lawful.wrap (fun _ => rfl) fun h => h
  · intro a _
    apply PushDecoder.decodes_wrap.mpr
    exact ⟨e a, LawfulCodecs.array_accepts.mpr (by simp [ExactSizeEncoder.ofBytes]), hk a⟩
  · intro w a _ _
    simp only [ExactSizeEncoder.ofBytes, U8Array.length_bytes]
    exact hlimit

theorem safe_array {n : Nat} (hn : 0 < n) {g g' : ExtError → ε} {k : U8Array n → Result ε α}
    (hk : ∀ a, (k a).Returns) : (valueDecoder ((arrayDecoder n).wrap g g' k)).Safe :=
  safe_valueDecoder ((LawfulCodecs.array_sound hn).safe.wrap hk)

end ValueDecoder

/-! ## Byte strings -/

section ByteVec

variable [LawfulCodecs]

theorem framed_byteVec : Framed (byteVecDecoder : PushDecoder UInt8 ExtError Bytes) where
  lawful := LawfulCodecs.byteVec_sound.lawful
  strict := LawfulCodecs.byteVec_sound.strict
  framed hacc := by
    rcases LawfulCodecs.byteVec_accepts.mp hacc with ⟨rfl, hv⟩
    exact ⟨_, (frame_append _ _).symm, hv⟩

/-- A framed byte string decodes into its content only. -/
theorem decodes_byteVec {w v : Bytes} (hw : w.length ≤ compactSizeLimit) :
    byteVecDecoder.Decodes (frame w) v ↔ v = w := by
  rw [PushDecoder.Decodes, LawfulCodecs.byteVec_accepts]
  constructor
  · rintro ⟨heq, hv⟩
    rw [List.append_nil] at heq
    exact frame_inj hv hw heq.symm
  · rintro rfl
    exact ⟨by simp [frame], hw⟩

/-- A decoder that makes its value of a byte string makes a codec of values. -/
theorem ValueCodec.of_byteVec {ε α : Type} {g g' : ExtError → ε} {k : Bytes → Result ε α}
    {encode : α → ExactSizeEncoder} (hlen : ∀ a, (encode a).len = (encode a).bytes.length)
    (hk : ∀ {a}, InLimit encode a → k (encode a).bytes = .ok a)
    (hfits : ∀ {w a}, w.length ≤ compactSizeLimit → k w = .ok a → InLimit encode a) :
    ValueCodec (byteVecDecoder.wrap g g' k) encode where
  framed := framed_byteVec.wrap
  len_eq := hlen
  length_le h := h
  decodes_encode {a} h :=
    PushDecoder.decodes_wrap.mpr ⟨(encode a).bytes, (decodes_byteVec h).mpr rfl, hk h⟩
  fits_of_decodes {w a} h := by
    rcases PushDecoder.decodes_wrap.mp h with ⟨v, hv, hkv⟩
    have hframe := LawfulCodecs.byteVec_accepts.mp hv
    exact hfits hframe.2 hkv

/-- A byte string is its own value. -/
theorem valueCodec_byteVec : ValueCodec byteVecDecoder .ofBytes where
  framed := framed_byteVec
  len_eq _ := rfl
  length_le h := h
  decodes_encode h := (decodes_byteVec h).mpr rfl
  fits_of_decodes h := (LawfulCodecs.byteVec_accepts.mp h).2

end ByteVec

end RustPsbt
