import RustPsbt.Encoding.Value

/-!
# Values of fixed size

The decoders and encoders of the types whose values have a fixed number of bytes,
and of the counts.  Each decoder reads an array and makes the value at its end.

Main results:

- One theorem `valueCodec_*` for each type, all instances of `ValueCodec.of_array`.
-/

namespace RustPsbt

/-! ## Constructors -/

/-- `Time::from_consensus`. -/
def Time.fromConsensus (n : UInt32) : Option Time :=
  if h : lockTimeThreshold ≤ n then some ⟨n, h⟩ else none

@[simp]
theorem Time.fromConsensus_value (t : Time) : Time.fromConsensus t.value = some t := by
  simp [Time.fromConsensus, t.threshold_le]

/-- `RequiredHeightLockTimeError`. -/
inductive RequiredHeightLockTimeError where
  | zero
  | outOfRange
deriving DecidableEq

/-- `RequiredHeightLockTime::from_consensus`. -/
def RequiredHeightLockTime.fromConsensus (n : UInt32) :
    Result RequiredHeightLockTimeError RequiredHeightLockTime :=
  if hlt : n < lockTimeThreshold then
    if hzero : n = 0 then .err .zero else .ok ⟨⟨n, hlt⟩, hzero⟩
  else .err .outOfRange

@[simp]
theorem RequiredHeightLockTime.fromConsensus_value (h : RequiredHeightLockTime) :
    RequiredHeightLockTime.fromConsensus h.height.value = .ok h := by
  simp [RequiredHeightLockTime.fromConsensus, h.ne_zero, h.height.value_lt]

theorem RequiredHeightLockTime.returns_fromConsensus (n : UInt32) :
    (RequiredHeightLockTime.fromConsensus n).Returns := by
  unfold RequiredHeightLockTime.fromConsensus
  split_ifs <;> trivial

/-- One byte. -/
def U8Array.ofByte (byte : UInt8) : U8Array 1 :=
  ⟨[byte], rfl⟩

/-- The byte of a one-byte array. -/
def U8Array.toByte (a : U8Array 1) : UInt8 :=
  a.bytes.headD 0

@[simp]
theorem U8Array.toByte_ofByte (byte : UInt8) : (U8Array.ofByte byte).toByte = byte :=
  rfl

/-- Two arrays one after the other. -/
def U8Array.append {n m : Nat} (a : U8Array n) (b : U8Array m) : U8Array (n + m) :=
  ⟨a.bytes ++ b.bytes, by simp⟩

variable [BitcoinTypes] [BitcoinCodecs]

/-- The error of a decoder that reads an array and makes its value from it: not enough
bytes (`UnexpectedEof`), or no value (`InvalidHash`, `Invalid`, `UnsupportedVersion`). -/
inductive ArrayDecodeError (ε : Type) where
  | unexpectedEof (e : ExtError)
  | invalid (e : ε)

/-- The common shape of the decoders of fixed size: `end` makes the value of the array. -/
def arrayValueDecoder {ε α : Type} (n : Nat) (ofArray : U8Array n → Result ε α) :
    PushDecoder UInt8 (ArrayDecodeError ε) α :=
  (arrayDecoder n).wrap .unexpectedEof .unexpectedEof fun a => (ofArray a).mapErr .invalid

/-! ## Hashes and keys -/

/-- `TxidDecoder`. -/
def txidDecoder : PushDecoder UInt8 (ArrayDecodeError FromSliceError) Txid :=
  arrayValueDecoder 32 fun a => hashFromSlice 32 a.bytes

/-- `TapNodeHashDecoder`. -/
def tapNodeHashDecoder : PushDecoder UInt8 (ArrayDecodeError FromSliceError) TapNodeHash :=
  arrayValueDecoder 32 fun a => hashFromSlice 32 a.bytes

/-- `XOnlyPublicKeyDecoder`. -/
def xOnlyPublicKeyDecoder : PushDecoder UInt8 (ArrayDecodeError ExtError) XOnlyPublicKey :=
  arrayValueDecoder 32 fun a => .ofExcept (xOnlyFromSlice a.bytes)

/-- `CompressedPublicKeyDecoder`. -/
def compressedPublicKeyDecoder :
    PushDecoder UInt8 (ArrayDecodeError ExtError) CompressedPublicKey :=
  arrayValueDecoder 33 fun a => .ofExcept (compressedFromSlice a.bytes)

/-- `SpV0Info::from_byte_array`. -/
def SpV0Info.fromByteArray (a : U8Array 66) : Result ExtError SpV0Info := do
  let scanKey ← .ofExcept (compressedFromSlice (a.bytes.take 33))
  let spendKey ← .ofExcept (compressedFromSlice (a.bytes.drop 33))
  .ok ⟨scanKey, spendKey⟩

/-- The bytes of `SpV0InfoEncoder`. -/
def SpV0Info.toBytes (info : SpV0Info) : U8Array 66 :=
  (compressedToBytes info.scanKey).append (compressedToBytes info.spendKey)

/-- `SpV0InfoDecoder`. -/
def spV0InfoDecoder : PushDecoder UInt8 (ArrayDecodeError ExtError) SpV0Info :=
  arrayValueDecoder 66 SpV0Info.fromByteArray

/-- `DleqProofDecoder`. -/
def dleqProofDecoder : PushDecoder UInt8 ExtError DleqProof :=
  (arrayDecoder 64).wrap id id .ok

/-! ## Numbers -/

/-- `VersionDecoder`. -/
def versionDecoder : PushDecoder UInt8 (ArrayDecodeError UInt32) Version :=
  arrayValueDecoder 4 fun a => .okOr (u32FromLeBytes a) (Version.tryFrom (u32FromLeBytes a))

/-- `TimeDecoder`. -/
def timeDecoder : PushDecoder UInt8 (ArrayDecodeError Unit) Time :=
  arrayValueDecoder 4 fun a => .okOr () (Time.fromConsensus (u32FromLeBytes a))

/-- `RequiredHeightLockTimeDecoder`. -/
def requiredHeightLockTimeDecoder :
    PushDecoder UInt8 (ArrayDecodeError RequiredHeightLockTimeError) RequiredHeightLockTime :=
  arrayValueDecoder 4 fun a => RequiredHeightLockTime.fromConsensus (u32FromLeBytes a)

/-- A decoder of a little-endian `u32`. -/
def u32Decoder {α : Type} (f : UInt32 → α) : PushDecoder UInt8 ExtError α :=
  (arrayDecoder 4).wrap id id fun a => .ok (f (u32FromLeBytes a))

/-- `VoutDecoder`. -/
def voutDecoder : PushDecoder UInt8 ExtError Vout :=
  u32Decoder id

/-- `ChildNumberDecoder`. -/
def childNumberDecoder : PushDecoder UInt8 ExtError ChildNumber :=
  u32Decoder id

/-- `SighashTypeDecoder`. -/
def sighashTypeDecoder : PushDecoder UInt8 ExtError PsbtSighashType :=
  u32Decoder PsbtSighashType.mk

/-- `SpV0LabelDecoder`. -/
def spV0LabelDecoder : PushDecoder UInt8 ExtError UInt32 :=
  u32Decoder id

/-- `TxModifiableFlagsDecoder`. -/
def txModifiableFlagsDecoder : PushDecoder UInt8 ExtError TxModifiableFlags :=
  (arrayDecoder 1).wrap id id fun a => .ok ⟨a.toByte⟩

/-- `CountDecoder`. -/
def countDecoder : PushDecoder UInt8 ExtError Count :=
  compactSizeDecoder.wrap id id .ok

/-! ## Codecs -/

section

variable [LawfulCodecs]

/-- An array takes its bytes, or fails for want of them. -/
theorem meaning_array {n : Nat} (hn : 0 < n) (b : Bytes) :
    (∃ a : U8Array n, b = a.bytes ++ b.drop n ∧
        (arrayDecoder n).meaning b = .ok (a, b.drop n)) ∨
      b.length < n ∧ (arrayDecoder n).meaning b = .err () := by
  by_cases hlen : n ≤ b.length
  · have htake : (b.take n).length = n := by
      rw [List.length_take]
      omega
    refine .inl ⟨⟨b.take n, htake⟩, (List.take_append_drop n b).symm, ?_⟩
    apply PushDecoder.meaning_eq_ok.mpr
    exact LawfulCodecs.array_accepts.mpr (List.take_append_drop n b).symm
  · right
    refine ⟨by omega, ?_⟩
    have hreturns := PushDecoder.safe_iff.mp (LawfulCodecs.array_sound hn).safe b
    cases hmeaning : (arrayDecoder n).meaning b with
    | ok x =>
        have hacc := LawfulCodecs.array_accepts.mp (PushDecoder.meaning_eq_ok.mp hmeaning)
        rw [hacc, List.length_append, U8Array.length_bytes] at hlen
        omega
    | error e =>
        rw [hmeaning] at hreturns
        cases e with
        | error e => rfl
        | panic => exact absurd hreturns id
        | diverge => exact absurd hreturns id

theorem valueCodec_txid :
    ValueCodec (valueDecoder txidDecoder) fun a : Txid => .ofBytes a.bytes :=
  ValueCodec.of_array (by decide) (by decide) fun a => by
    rw [Result.mapErr_eq_ok, hashFromSlice_eq_ok]

theorem valueCodec_tapNodeHash :
    ValueCodec (valueDecoder tapNodeHashDecoder) fun a : TapNodeHash => .ofBytes a.bytes :=
  ValueCodec.of_array (by decide) (by decide) fun a => by
    rw [Result.mapErr_eq_ok, hashFromSlice_eq_ok]

theorem valueCodec_xOnly :
    ValueCodec (valueDecoder xOnlyPublicKeyDecoder) fun k => .ofBytes (xOnlySerialize k).bytes :=
  ValueCodec.of_array (by decide) (by decide) fun k => by
    rw [Result.mapErr_eq_ok, Result.ofExcept_eq_ok, LawfulCodecs.xOnly_fromSlice]

theorem valueCodec_compressed : ValueCodec (valueDecoder compressedPublicKeyDecoder)
    fun k => .ofBytes (compressedToBytes k).bytes :=
  ValueCodec.of_array (by decide) (by decide) fun k => by
    rw [Result.mapErr_eq_ok, Result.ofExcept_eq_ok, LawfulCodecs.compressed_fromSlice]

theorem SpV0Info.fromByteArray_toBytes (info : SpV0Info) :
    SpV0Info.fromByteArray info.toBytes = .ok info := by
  have htake : info.toBytes.bytes.take 33 = (compressedToBytes info.scanKey).bytes := by
    simp [SpV0Info.toBytes, U8Array.append]
  have hdrop : info.toBytes.bytes.drop 33 = (compressedToBytes info.spendKey).bytes := by
    simp [SpV0Info.toBytes, U8Array.append]
  have hscan := Result.ofExcept_eq_ok.mpr
    (LawfulCodecs.compressed_fromSlice.mpr (rfl : _ = compressedToBytes info.scanKey))
  have hspend := Result.ofExcept_eq_ok.mpr
    (LawfulCodecs.compressed_fromSlice.mpr (rfl : _ = compressedToBytes info.spendKey))
  rw [SpV0Info.fromByteArray, htake, hdrop, hscan, hspend]
  rfl

theorem valueCodec_spV0Info :
    ValueCodec (valueDecoder spV0InfoDecoder) fun i => .ofBytes (SpV0Info.toBytes i).bytes :=
  ValueCodec.of_array (by decide) (by decide) fun i => by
    rw [Result.mapErr_eq_ok]
    exact i.fromByteArray_toBytes

theorem valueCodec_dleqProof :
    ValueCodec (valueDecoder dleqProofDecoder) fun a : DleqProof => .ofBytes a.bytes :=
  ValueCodec.of_array (by decide) (by decide) fun _ => rfl

theorem valueCodec_version :
    ValueCodec (valueDecoder versionDecoder) fun v => .ofBytes (u32ToLeBytes v.toU32).bytes :=
  ValueCodec.of_array (by decide) (by decide) fun v => by
    rw [Result.mapErr_eq_ok, Result.okOr_eq_ok, u32FromLeBytes_toLeBytes, Version.tryFrom_toU32]

theorem valueCodec_time :
    ValueCodec (valueDecoder timeDecoder) fun t => .ofBytes (u32ToLeBytes t.value).bytes :=
  ValueCodec.of_array (by decide) (by decide) fun t => by
    rw [Result.mapErr_eq_ok, Result.okOr_eq_ok, u32FromLeBytes_toLeBytes,
      Time.fromConsensus_value]

theorem valueCodec_requiredHeight : ValueCodec (valueDecoder requiredHeightLockTimeDecoder)
    fun h => .ofBytes (u32ToLeBytes h.height.value).bytes :=
  ValueCodec.of_array (by decide) (by decide) fun h => by
    simp only [Result.mapErr_eq_ok, u32FromLeBytes_toLeBytes,
      RequiredHeightLockTime.fromConsensus_value]

theorem valueCodec_u32 {α : Type} {f : UInt32 → α} {g : α → UInt32} (hfg : ∀ a, f (g a) = a) :
    ValueCodec (valueDecoder (u32Decoder f)) fun a => .ofBytes (u32ToLeBytes (g a)).bytes :=
  ValueCodec.of_array (by decide) (by decide) fun a => by
    rw [u32FromLeBytes_toLeBytes, hfg]

theorem valueCodec_vout :
    ValueCodec (valueDecoder voutDecoder) fun v => .ofBytes (u32ToLeBytes v).bytes :=
  valueCodec_u32 fun _ => rfl

theorem valueCodec_sighashType : ValueCodec (valueDecoder sighashTypeDecoder)
    fun t => .ofBytes (u32ToLeBytes t.inner).bytes :=
  valueCodec_u32 fun _ => rfl

theorem valueCodec_spV0Label :
    ValueCodec (valueDecoder spV0LabelDecoder) fun l => .ofBytes (u32ToLeBytes l).bytes :=
  valueCodec_u32 fun _ => rfl

theorem valueCodec_txModifiableFlags : ValueCodec (valueDecoder txModifiableFlagsDecoder)
    fun f => .ofBytes (U8Array.ofByte f.bits).bytes :=
  ValueCodec.of_array (by decide) (by decide) fun _ => rfl

/-- A count fits when the compact size decoder takes it. -/
theorem valueCodec_count : ValueCodecOn (valueDecoder countDecoder)
    (fun n : Count => .ofBytes (compactSize n)) fun n => n ≤ compactSizeLimit := by
  have hsound := LawfulCodecs.compactSize_sound
  have hdecodes : ∀ {w : Bytes} {n : Nat},
      countDecoder.Decodes w n ↔ w = compactSize n ∧ n ≤ compactSizeLimit := by
    intro w n
    rw [countDecoder, PushDecoder.decodes_wrap]
    simp only [PushDecoder.Decodes, LawfulCodecs.compactSize_accepts, List.append_nil]
    constructor
    · rintro ⟨m, h, heq⟩
      cases heq
      exact h
    · intro h
      exact ⟨n, h, rfl⟩
  apply ValueCodecOn.of_inner hsound.lawful.wrap (fun _ => rfl)
  · intro n _
    have hlen := length_compactSize_le n
    have hlimit : 9 ≤ compactSizeLimit := by decide
    exact le_trans hlen hlimit
  · intro n hn
    exact hdecodes.mpr ⟨rfl, hn⟩
  · intro w n hdec _
    exact (hdecodes.mp hdec).2

/-! ## Decoding returns -/

omit [BitcoinTypes] [BitcoinCodecs] [LawfulCodecs] in
theorem returns_hashFromSlice (n : Nat) (b : Bytes) : (hashFromSlice n b).Returns :=
  Result.returns_okOr _ _

omit [LawfulCodecs] in
theorem SpV0Info.returns_fromByteArray (a : U8Array 66) :
    (SpV0Info.fromByteArray a).Returns := by
  apply Result.Returns.bind (Result.returns_ofExcept _)
  intro scanKey _
  apply Result.Returns.bind (Result.returns_ofExcept _)
  intro spendKey _
  trivial

theorem safe_arrayValueDecoder {ε α : Type} {n : Nat} (hn : 0 < n)
    {ofArray : U8Array n → Result ε α} (h : ∀ a, (ofArray a).Returns) :
    (valueDecoder (arrayValueDecoder n ofArray)).Safe :=
  safe_array hn fun a => Result.returns_mapErr.mpr (h a)

theorem safe_count : (valueDecoder countDecoder).Safe :=
  safe_valueDecoder (LawfulCodecs.compactSize_sound.safe.wrap fun _ => trivial)

end

end RustPsbt
