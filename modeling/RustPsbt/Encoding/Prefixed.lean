import RustPsbt.Encoding.Fixed

/-!
# Values that read their own length

Key sources and signatures read the length prefix themselves, check it, and choose by
it what to read: a path of so many steps, a buffer of so many bytes, a signature with
or without a sighash byte.

Main results:

- Theorems `valueCodec_keySource`, `valueCodec_ecdsaSignature`,
  `valueCodec_taprootSignature`.
-/

namespace RustPsbt

variable [BitcoinTypes] [BitcoinCodecs]

/-! ## Key sources -/

/-- `FINGERPRINT_SIZE`. -/
def fingerprintSize : Nat := 4

/-- `CHILD_NUMBER_SIZE`. -/
def childNumberSize : Nat := 4

/-- `KeySourceDecodeError`. -/
inductive KeySourceDecodeError where
  | lengthPrefix (e : ExtError)
  | fingerprint (e : ExtError)
  | path (e : VecDecoderError ExtError ExtError)
  | tooShort (len : Nat)
  | invalidPathLength (len : Nat)

/-- The error of the fingerprint or of the path. -/
def KeySourceDecodeError.ofDecoder2 :
    Decoder2Error ExtError (VecDecoderError ExtError ExtError) → KeySourceDecodeError
  | .first e => .fingerprint e
  | .second e => .path e

/-- The number of path steps in a key source of `len` bytes. -/
def pathCount (len : Nat) : Result KeySourceDecodeError Nat := do
  if len < fingerprintSize then .err (.tooShort len)
  else if len % childNumberSize ≠ 0 then .err (.invalidPathLength len)
  else do
    let pathLen ← Result.checkedSub len fingerprintSize
    .ok (pathLen / childNumberSize)

/-- `KeySourceDecoder`. -/
def keySourceDecoder : PushDecoder UInt8 KeySourceDecodeError KeySource :=
  compactSizeDecoder.prefixed .lengthPrefix pathCount
    (fun count => (decoder2 (arrayDecoder 4) (exactVecDecoderWith childNumberDecoder count)).mapErr
      .ofDecoder2) 0

/-- The bytes of a derivation path. -/
def pathBytes (path : DerivationPath) : Bytes :=
  path.flatMap fun child => (u32ToLeBytes child).bytes

/-- The bytes of `KeySourceEncoder`. -/
def keySourceBytes (source : KeySource) : Bytes :=
  source.1.bytes ++ pathBytes source.2

omit [BitcoinTypes] [BitcoinCodecs] in
@[simp]
theorem length_pathBytes (path : DerivationPath) : (pathBytes path).length = 4 * path.length := by
  induction path with
  | nil => rfl
  | cons child path ih =>
      simp only [pathBytes, List.flatMap_cons, List.length_append, U8Array.length_bytes,
        List.length_cons] at ih ⊢
      omega

omit [BitcoinTypes] [BitcoinCodecs] in
@[simp]
theorem length_keySourceBytes (source : KeySource) :
    (keySourceBytes source).length = 4 + 4 * source.2.length := by
  simp [keySourceBytes]

theorem pathCount_eq_ok {len n : Nat} : pathCount len = .ok n ↔ len = 4 + 4 * n := by
  unfold pathCount fingerprintSize childNumberSize
  constructor
  · intro h
    split_ifs at h with hshort halign
    rw [Result.checkedSub_of_le (by omega)] at h
    cases h
    omega
  · rintro rfl
    rw [if_neg (by omega), if_neg (by omega), Result.checkedSub_of_le (by omega)]
    have hcount : (4 + 4 * n - 4) / 4 = n := by omega
    exact congrArg _ hcount

theorem returns_pathCount (len : Nat) : (pathCount len).Returns := by
  unfold pathCount
  split_ifs with hshort halign
  · trivial
  · trivial
  · rw [Result.checkedSub_of_le (by omega)]
    trivial

/-! ## ECDSA signatures -/

/-- `ecdsa_signature::MAX_SIG_SIZE`. -/
def maxEcdsaSigSize : Nat := 73

/-- `EcdsaSignatureDecodeError`. -/
inductive EcdsaSignatureDecodeError where
  | lengthPrefix (e : ExtError)
  | unexpectedEof (missing : Nat)
  | invalidLength (len : Nat)
  | invalidSignature (e : ExtError)

/-- The stage `ReadingValue`: a stack buffer that takes `expected` bytes.  The state is
the written part of the buffer. -/
def ecdsaBufferDecoder (expected : Nat) :
    PushDecoder UInt8 EcdsaSignatureDecodeError EcdsaSignature where
  State := Bytes
  init := []
  push buf b := do
    let remaining ← Result.checkedSub expected buf.length
    let copyLen := min b.length remaining
    .ok (buf ++ b.take copyLen, b.drop copyLen,
      if buf.length + copyLen = expected then .ready else .needsMore)
  finish buf :=
    if buf.length ≠ expected then do
      let missing ← Result.checkedSub expected buf.length
      .err (.unexpectedEof missing)
    else (Result.ofExcept (ecdsaFromSlice buf)).mapErr .invalidSignature
  readLimit buf := expected - buf.length

/-- The length of an ECDSA signature fits the buffer. -/
def ecdsaLength (len : Nat) : Result EcdsaSignatureDecodeError Nat :=
  if len > maxEcdsaSigSize then .err (.invalidLength len) else .ok len

/-- `EcdsaSignatureDecoder`. -/
def ecdsaSignatureDecoder : PushDecoder UInt8 EcdsaSignatureDecodeError EcdsaSignature :=
  compactSizeDecoder.prefixed .lengthPrefix ecdsaLength ecdsaBufferDecoder 0

section EcdsaBuffer

variable {expected : Nat} {buf b : Bytes}

omit [BitcoinTypes] [BitcoinCodecs] in
/-- A list of at least `n` elements starts with `n` elements. -/
theorem exists_append_of_le {α : Type} {n : Nat} {l : List α} (h : n ≤ l.length) :
    ∃ c r, l = c ++ r ∧ c.length = n :=
  ⟨l.take n, l.drop n, (List.take_append_drop n l).symm, by simp [h]⟩

/-- A push that does not fill the buffer takes everything. -/
theorem push_ecdsaBuffer_wait (h : buf.length + b.length < expected) :
    (ecdsaBufferDecoder expected).push buf b = .ok (buf ++ b, [], .needsMore) := by
  have hcopy : min b.length (expected - buf.length) = b.length := by omega
  have hne : buf.length + b.length ≠ expected := by omega
  simp [ecdsaBufferDecoder, Result.checkedSub_of_le (show buf.length ≤ expected by omega), hcopy,
    hne]

/-- A push that fills the buffer takes what is missing. -/
theorem push_ecdsaBuffer_done {c : Bytes} (h : buf.length + c.length = expected) (r : Bytes) :
    (ecdsaBufferDecoder expected).push buf (c ++ r) = .ok (buf ++ c, r, .ready) := by
  have hcopy : min (c ++ r).length (expected - buf.length) = c.length := by
    rw [List.length_append]
    omega
  simp [ecdsaBufferDecoder, Result.checkedSub_of_le (show buf.length ≤ expected by omega), hcopy,
    h, -List.length_append]

/-- A push to a buffer with free space, in two chunks or one. -/
theorem resume_ecdsaBuffer {a : Bytes} (hwait : buf.length + a.length < expected) (b : Bytes) :
    (ecdsaBufferDecoder expected).push buf (a ++ b) =
      (ecdsaBufferDecoder expected).push (buf ++ a) b := by
  have hassoc : buf ++ (a ++ b) = buf ++ a ++ b := (List.append_assoc _ _ _).symm
  by_cases hmore : buf.length + (a ++ b).length < expected
  · have hmore' : (buf ++ a).length + b.length < expected := by
      simp only [List.length_append] at hmore ⊢
      omega
    rw [push_ecdsaBuffer_wait hmore, push_ecdsaBuffer_wait hmore', hassoc]
  · -- the second chunk fills the buffer
    rcases exists_append_of_le (n := expected - buf.length - a.length) (l := b)
      (by rw [List.length_append] at hmore; omega) with ⟨c, r, rfl, hc⟩
    have hfill : buf.length + (a ++ c).length = expected := by
      rw [List.length_append]
      omega
    have hfill' : (buf ++ a).length + c.length = expected := by
      rw [List.length_append]
      omega
    have hone := push_ecdsaBuffer_done hfill r
    have htwo := push_ecdsaBuffer_done hfill' r
    rw [List.append_assoc] at hone htwo
    rw [hone, htwo]

/-- A buffer decoder waits while its buffer is not full. -/
theorem lawfulAt_ecdsaBuffer (hle : buf.length ≤ expected) (a : Bytes) :
    (ecdsaBufferDecoder expected).LawfulAt (fun buf : Bytes => buf.length < expected) buf a := by
  by_cases hwait : buf.length + a.length < expected
  · apply PushDecoder.LawfulAt.of_wait (push_ecdsaBuffer_wait hwait)
    · rwa [List.length_append]
    · intro b
      exact congrArg _ (resume_ecdsaBuffer hwait b)
  · rcases exists_append_of_le (n := expected - buf.length) (l := a) (by omega)
      with ⟨c, r, rfl, hc⟩
    apply PushDecoder.LawfulAt.of_done
    exact push_ecdsaBuffer_done (by omega)

theorem idle_ecdsaBuffer (h : buf.length < expected) :
    (ecdsaBufferDecoder expected).push buf [] = .ok (buf, [], .needsMore) := by
  have hpush := push_ecdsaBuffer_wait (b := []) (by simpa using h)
  rwa [List.append_nil] at hpush

theorem lawfulOn_ecdsaBuffer (expected : Nat) :
    (ecdsaBufferDecoder expected).LawfulOn fun buf : Bytes => buf.length < expected where
  push {buf} hs a := by
    apply lawfulAt_ecdsaBuffer
    rcases hs with rfl | hs
    · exact Nat.zero_le _
    · exact Nat.le_of_lt hs
  idle hs := idle_ecdsaBuffer hs
  early {buf} hs := by
    refine ⟨.unexpectedEof (expected - List.length (α := UInt8) buf), ?_⟩
    change (if List.length (α := UInt8) buf ≠ expected then _ else _) = _
    rw [if_pos (Nat.ne_of_lt hs), Result.checkedSub_of_le (Nat.le_of_lt hs)]
    rfl

theorem lawful_ecdsaBuffer (expected : Nat) : (ecdsaBufferDecoder expected).Lawful :=
  ⟨_, lawfulOn_ecdsaBuffer expected⟩

/-- The buffer is filled, then read. -/
theorem run_ecdsaBuffer (h : expected ≤ b.length) :
    (ecdsaBufferDecoder expected).run b =
      (Result.ofExcept (ecdsaFromSlice (b.take expected))).mapErr .invalidSignature >>=
        fun sig => .ok (sig, b.drop expected) := by
  have htake : (b.take expected).length = expected := by
    rw [List.length_take]
    omega
  have hfill : ([] : Bytes).length + (b.take expected).length = expected := by simpa using h
  have hpush := push_ecdsaBuffer_done hfill (b.drop expected)
  rw [List.take_append_drop, List.nil_append] at hpush
  unfold PushDecoder.run PushDecoder.runFrom
  change (ecdsaBufferDecoder expected).push [] b >>= _ = _
  rw [hpush]
  simp [ecdsaBufferDecoder, h]

theorem decodes_ecdsaBuffer {w : Bytes} {sig : EcdsaSignature} :
    (ecdsaBufferDecoder expected).Decodes w sig ↔
      w.length = expected ∧ ecdsaFromSlice w = .ok sig := by
  unfold PushDecoder.Decodes PushDecoder.Accepts
  by_cases hle : expected ≤ w.length
  · rw [run_ecdsaBuffer hle, Result.bind_eq_ok]
    simp only [Result.mapErr_eq_ok, Result.ofExcept_eq_ok, Except.ok.injEq, Prod.mk.injEq,
      List.drop_eq_nil_iff]
    constructor
    · rintro ⟨_, hsig, rfl, hlen⟩
      have heq : w.length = expected := Nat.le_antisymm hlen hle
      rw [List.take_of_length_le hlen] at hsig
      exact ⟨heq, hsig⟩
    · rintro ⟨rfl, hsig⟩
      exact ⟨sig, by rwa [List.take_length], rfl, Nat.le_refl _⟩
  · have hless : ([] : Bytes).length + w.length < expected := by simpa using hle
    have hwait := push_ecdsaBuffer_wait hless
    constructor
    · intro hrun
      rcases (lawfulOn_ecdsaBuffer expected).accepts_iff_ready.mp hrun with ⟨s, hpush, _⟩
      rw [show (ecdsaBufferDecoder expected).init = [] from rfl, hwait] at hpush
      cases hpush
    · rintro ⟨rfl, _⟩
      exact absurd (Nat.le_refl _) hle

theorem safe_ecdsaBuffer (expected : Nat) : (ecdsaBufferDecoder expected).Safe := by
  intro b
  by_cases hle : expected ≤ b.length
  · rw [run_ecdsaBuffer hle]
    apply Result.Returns.bind (Result.returns_mapErr.mpr (Result.returns_ofExcept _))
    intro sig _
    trivial
  · have hless : ([] : Bytes).length + b.length < expected := by simpa using hle
    have hwait := push_ecdsaBuffer_wait hless
    rcases (lawfulOn_ecdsaBuffer expected).early (s := b) (by omega) with ⟨e, he⟩
    unfold PushDecoder.run PushDecoder.runFrom
    change ((ecdsaBufferDecoder expected).push [] b >>= _).Returns
    rw [hwait, List.nil_append]
    simp only [Result.ok_bind, he]
    trivial

end EcdsaBuffer

/-! ## Taproot signatures -/

/-- `TaprootSignatureDecodeError`. -/
inductive TaprootSignatureDecodeError where
  | lengthPrefix (e : ExtError)
  | unexpectedEof (e : ExtError)
  | invalidLength (len : Nat)
  | invalidSignature (e : ExtError)

/-- The stages `Reading64` and `Reading65`. -/
inductive TaprootSignatureStage where
  /-- A signature without a sighash byte. -/
  | reading64
  /-- A signature with a sighash byte. -/
  | reading65

/-- `SIG_SIZE` or `MAX_SIG_SIZE`. -/
def TaprootSignatureStage.size : TaprootSignatureStage → Nat
  | reading64 => 64
  | reading65 => 65

/-- The stage for a signature of `len` bytes. -/
def taprootStage (len : Nat) : Result TaprootSignatureDecodeError TaprootSignatureStage :=
  if len = 64 then .ok .reading64
  else if len = 65 then .ok .reading65
  else .err (.invalidLength len)

/-- `TaprootSignatureDecoder`. -/
def taprootSignatureDecoder :
    PushDecoder UInt8 TaprootSignatureDecodeError TaprootSignature :=
  compactSizeDecoder.prefixed .lengthPrefix taprootStage
    (fun stage => (arrayDecoder stage.size).wrap .unexpectedEof .unexpectedEof fun buf =>
      (Result.ofExcept (taprootFromSlice buf.bytes)).mapErr .invalidSignature) 0

theorem taprootStage_eq_ok {len : Nat} {stage : TaprootSignatureStage} :
    taprootStage len = .ok stage ↔ len = stage.size := by
  unfold taprootStage
  cases stage with
  | reading64 =>
      simp only [TaprootSignatureStage.size]
      split_ifs with h1 h2 <;> simp [h1]
  | reading65 =>
      simp only [TaprootSignatureStage.size]
      split_ifs with h1 h2
      · simp [h1]
      · simp [h2]
      · simp [h2]

theorem taprootSignatureBytes_length (sig : TaprootSignature) :
    ∃ stage : TaprootSignatureStage, (taprootSignatureBytes sig).length = stage.size := by
  unfold taprootSignatureBytes
  split_ifs with h
  · exact ⟨.reading64, by simp [TaprootSignatureStage.size]⟩
  · exact ⟨.reading65, by simp [TaprootSignatureStage.size]⟩

omit [BitcoinTypes] [BitcoinCodecs] in
theorem TaprootSignatureStage.size_pos (stage : TaprootSignatureStage) : 0 < stage.size := by
  cases stage <;> decide

/-! ## Codecs -/

section

variable [LawfulCodecs]

theorem decodes_childNumber {w : Bytes} {child : ChildNumber} :
    childNumberDecoder.Decodes w child ↔ w = (u32ToLeBytes child).bytes := by
  rw [childNumberDecoder, u32Decoder, PushDecoder.decodes_wrap]
  simp only [PushDecoder.Decodes, LawfulCodecs.array_accepts, List.append_nil, id_eq,
    Except.ok.injEq]
  constructor
  · rintro ⟨a, rfl, rfl⟩
    rw [u32ToLeBytes_fromLeBytes]
  · rintro rfl
    exact ⟨u32ToLeBytes child, rfl, u32FromLeBytes_toLeBytes child⟩

theorem lawful_childNumber : childNumberDecoder.Lawful :=
  (LawfulCodecs.array_sound (by decide)).lawful.wrap

theorem strict_childNumber : childNumberDecoder.Strict :=
  (LawfulCodecs.array_sound (by decide)).strict.wrap

/-- The decoder of a key source of `count` path steps. -/
theorem lawful_keySourceValue (count : Nat) :
    ((decoder2 (arrayDecoder 4) (exactVecDecoderWith childNumberDecoder count)).mapErr
      KeySourceDecodeError.ofDecoder2).Lawful := by
  apply PushDecoder.Lawful.mapErr
  apply LawfulCodecs.decoder2_lawful
  · exact (LawfulCodecs.array_sound (by decide)).lawful
  · exact LawfulCodecs.exactVec_lawful lawful_childNumber strict_childNumber

theorem meaning_keySourceValue (count : Nat) :
    ((decoder2 (arrayDecoder 4) (exactVecDecoderWith childNumberDecoder count)).mapErr
      KeySourceDecodeError.ofDecoder2).meaning = (arrayDecoder 4).meaning.andThen fun fingerprint =>
        (childNumberDecoder.meaning.replicate count).andThen fun path =>
          .ofResult (ε := Unit) (.ok (fingerprint, path)) := by
  rw [PushDecoder.meaning_mapErr, LawfulCodecs.decoder2_meaning,
    LawfulCodecs.exactVec_meaning lawful_childNumber strict_childNumber]
  · exact (LawfulCodecs.array_sound (by decide)).lawful
  · exact LawfulCodecs.exactVec_lawful lawful_childNumber strict_childNumber

theorem decodes_keySourceValue {count : Nat} {w : Bytes} {source : KeySource} :
    ((decoder2 (arrayDecoder 4) (exactVecDecoderWith childNumberDecoder count)).mapErr
      KeySourceDecodeError.ofDecoder2).Decodes w source ↔
        w = keySourceBytes source ∧ source.2.length = count := by
  rcases source with ⟨fingerprint, path⟩
  have hpath : ∀ {b r : Bytes} {path : DerivationPath},
      childNumberDecoder.meaning.replicate count b = .ok (path, r) ↔
        path.length = count ∧ b = pathBytes path ++ r := by
    intro b r path
    rw [PushDecoder.replicate_eq_ok lawful_childNumber]
    simp only [PushDecoder.forall₂_decodes_iff decodes_childNumber]
    constructor
    · rintro ⟨hlen, ws, rfl, rfl⟩
      exact ⟨hlen, by rw [pathBytes, List.flatMap_def]⟩
    · rintro ⟨hlen, rfl⟩
      exact ⟨hlen, _, by rw [pathBytes, List.flatMap_def], rfl⟩
  rw [PushDecoder.Decodes, ← PushDecoder.meaning_eq_ok, meaning_keySourceValue]
  simp only [Parser.andThen_eq_ok, PushDecoder.meaning_eq_ok, LawfulCodecs.array_accepts,
    hpath, Parser.ofResult_eq_ok, Except.ok.injEq, Prod.mk.injEq]
  constructor
  · rintro ⟨f, m, rfl, p, m', ⟨hlen, rfl⟩, ⟨rfl, rfl⟩, rfl⟩
    exact ⟨by simp [keySourceBytes], hlen⟩
  · rintro ⟨rfl, hlen⟩
    exact ⟨fingerprint, pathBytes path, rfl, path, [], ⟨hlen, by simp⟩, ⟨rfl, rfl⟩, rfl⟩

theorem safe_keySource : keySourceDecoder.Safe := by
  apply PushDecoder.Safe.prefixed LawfulCodecs.compactSize_sound.lawful
    LawfulCodecs.compactSize_sound.safe returns_pathCount
  intro count
  rw [PushDecoder.safe_iff, meaning_keySourceValue]
  intro b
  apply Parser.Returns.andThen
  · exact PushDecoder.safe_iff.mp (LawfulCodecs.array_sound (by decide)).safe b
  · intro fingerprint r _
    apply Parser.Returns.andThen
    · apply PushDecoder.returns_replicate lawful_childNumber
      exact (LawfulCodecs.array_sound (by decide)).safe.wrap fun _ => trivial
    · intro path r' _
      exact Parser.returns_ofResult.mpr trivial

theorem valueCodec_keySource :
    ValueCodec keySourceDecoder fun source => .ofBytes (keySourceBytes source) := by
  apply ValueCodec.of_lengthPrefixed lawful_keySourceValue
  · intro len count w source hcount hdec
    rcases decodes_keySourceValue.mp hdec with ⟨rfl, hlen⟩
    rw [pathCount_eq_ok.mp hcount, length_keySourceBytes, hlen]
  · intro source
    rfl
  · intro source
    refine ⟨source.2.length, pathCount_eq_ok.mpr ?_, decodes_keySourceValue.mpr ⟨rfl, rfl⟩⟩
    exact length_keySourceBytes source
  · intro w count source hlimit _ hdec
    rcases decodes_keySourceValue.mp hdec with ⟨rfl, _⟩
    exact hlimit

omit [LawfulCodecs] in
theorem ecdsaLength_eq_ok {len n : Nat} : ecdsaLength len = .ok n ↔ len = n ∧ len ≤ 73 := by
  unfold ecdsaLength maxEcdsaSigSize
  split_ifs with h
  · simp
    omega
  · simp
    omega

theorem valueCodec_ecdsaSignature :
    ValueCodec ecdsaSignatureDecoder fun sig => .ofBytes (ecdsaSerialize sig) := by
  apply ValueCodec.of_lengthPrefixed lawful_ecdsaBuffer
  · intro len n w sig hlen hdec
    rcases decodes_ecdsaBuffer.mp hdec with ⟨hw, _⟩
    rw [hw, (ecdsaLength_eq_ok.mp hlen).1]
  · intro sig
    rfl
  · intro sig
    have hlen := LawfulCodecs.ecdsa_length sig
    exact ⟨_, ecdsaLength_eq_ok.mpr ⟨rfl, hlen⟩,
      decodes_ecdsaBuffer.mpr ⟨rfl, LawfulCodecs.ecdsa_roundtrip sig⟩⟩
  · intro w n sig _ _ _
    have hlen := LawfulCodecs.ecdsa_length sig
    have hsmall : 73 ≤ compactSizeLimit := by decide
    exact le_trans hlen hsmall

theorem safe_ecdsaSignature : ecdsaSignatureDecoder.Safe := by
  apply PushDecoder.Safe.prefixed LawfulCodecs.compactSize_sound.lawful
    LawfulCodecs.compactSize_sound.safe _ safe_ecdsaBuffer
  intro len
  unfold ecdsaLength
  split_ifs <;> trivial

theorem valueCodec_taprootSignature :
    ValueCodec taprootSignatureDecoder fun sig => .ofBytes (taprootSignatureBytes sig) := by
  apply ValueCodec.of_lengthPrefixed
  · intro stage
    exact (LawfulCodecs.array_sound stage.size_pos).lawful.wrap
  · intro len stage w sig hlen hdec
    rcases PushDecoder.decodes_wrap.mp hdec with ⟨buf, hbuf, _⟩
    rw [LawfulCodecs.array_accepts.mp hbuf, taprootStage_eq_ok.mp hlen]
    simp
  · intro sig
    rfl
  · intro sig
    rcases taprootSignatureBytes_length sig with ⟨stage, hlen⟩
    refine ⟨stage, taprootStage_eq_ok.mpr hlen, PushDecoder.decodes_wrap.mpr ?_⟩
    refine ⟨⟨taprootSignatureBytes sig, hlen⟩, ?_, ?_⟩
    · exact LawfulCodecs.array_accepts.mpr (by simp [ExactSizeEncoder.ofBytes])
    · rw [Result.mapErr_eq_ok, Result.ofExcept_eq_ok]
      exact LawfulCodecs.taproot_roundtrip sig
  · intro w stage sig _ _ _
    rcases taprootSignatureBytes_length sig with ⟨stage, hlen⟩
    have hsmall : stage.size ≤ compactSizeLimit := by cases stage <;> decide
    exact le_of_eq_of_le hlen hsmall

theorem safe_taprootSignature : taprootSignatureDecoder.Safe := by
  apply PushDecoder.Safe.prefixed LawfulCodecs.compactSize_sound.lawful
    LawfulCodecs.compactSize_sound.safe
  · intro len
    unfold taprootStage
    split_ifs <;> trivial
  · intro stage
    apply (LawfulCodecs.array_sound stage.size_pos).safe.wrap
    intro buf
    exact Result.returns_mapErr.mpr (Result.returns_ofExcept _)

end

end RustPsbt
