import RustPsbt.Encoding.Fixed
import RustPsbt.Encoding.Key
import RustPsbt.Encoding.Prefixed
import RustPsbt.Encoding.TapTree
import RustPsbt.Encoding.UnsignedTx
import RustPsbt.Library.ReadLimit

/-!
# Read limits of values

What the source relies on about the read limits of decoders from other crates
(`LawfulReadLimits`), and what follows for the decoders of keys and values.  Only the
decoder of tap key origins counts by hand; it is left to a module of its own.

Main results:

- Theorems `limits_valueDecoder`, `limits_keySource`, `limits_ecdsaSignature`,
  `limits_taprootSignature`, `limits_unsignedTx`.
-/

namespace RustPsbt

open PushDecoder

/-- The contract of `Decoder::read_limit`: no more than what is left to consume, and zero
when the value is complete. -/
class LawfulReadLimits [BitcoinTypes] [BitcoinCodecs] : Prop where
  array : ∀ {n : Nat}, 0 < n → (arrayDecoder n).Limits
  byteVec : byteVecDecoder.Limits
  compactSize : compactSizeDecoder.Limits
  decoder2 : ∀ {ε₁ ε₂ α β : Type} {A : PushDecoder UInt8 ε₁ α} {B : PushDecoder UInt8 ε₂ β},
    A.Lawful → B.Lawful → A.Limits → B.Limits → (decoder2 A B).Limits
  /-- A row reports the limit of the value it is in, and between two values no more than
  fresh decoders of the values to come. -/
  exactVec : ∀ {ε α : Type} {D : PushDecoder UInt8 ε α} {Bad : Bytes → Bytes → Prop} {n : Nat},
    D.Lawful → D.Strict → D.LimitsExcept Bad → (∀ y, ¬Bad [] y) →
      (exactVecDecoderWith D n).LimitsExcept (D.InRow Bad)
  vec : ∀ {ε α : Type} {D : PushDecoder UInt8 ε α}, D.Lawful → D.Strict → D.Limits →
    (vecDecoderWith D).Limits
  lockTime : lockTimeCodec.decoder.Limits
  amount : amountCodec.decoder.Limits
  sequence : sequenceCodec.decoder.Limits
  txVersion : txVersionCodec.decoder.Limits
  transaction : transactionCodec.decoder.Limits
  txOut : txOutCodec.decoder.Limits
  witness : witnessCodec.decoder.Limits
  txIn : txInDecoder.Limits

variable [BitcoinTypes] [BitcoinCodecs] [LawfulCodecs] [LawfulReadLimits] {ε α : Type}

/-! ## Values behind their length -/

/-- A length prefix adds the limit of the fresh decoder behind it. -/
theorem limits_valueDecoder {D : PushDecoder UInt8 ε α} (h : D.Limits) :
    (valueDecoder D).Limits := by
  apply LimitsExcept.prefixed LawfulCodecs.compactSize_sound.lawful
    LawfulCodecs.compactSize_sound.strict LawfulReadLimits.compactSize
    fun _ => h.mapErr.metered
  intro n c w a _ hdec
  have hinner := PushDecoder.decodes_mapErr.mp (decodes_metered.mp hdec).1
  exact (h.fresh hinner id).1

/-- A length prefix that adds nothing. -/
theorem limits_lengthPrefixed {γ : Type} {lengthPrefix : ExtError → ε}
    {check : Nat → Result ε γ} {D : γ → PushDecoder UInt8 ε α} (hD : ∀ c, (D c).Limits) :
    (compactSizeDecoder.prefixed lengthPrefix check D 0).Limits :=
  LimitsExcept.prefixed LawfulCodecs.compactSize_sound.lawful
    LawfulCodecs.compactSize_sound.strict LawfulReadLimits.compactSize hD
    fun _ _ => Nat.zero_le _

omit [LawfulCodecs] in
theorem limits_array {ε' : Type} {n : Nat} (hn : 0 < n) {g g' : ExtError → ε'}
    {k : U8Array n → Result ε' α} : ((arrayDecoder n).wrap g g' k).Limits :=
  (LawfulReadLimits.array hn).wrap

omit [LawfulCodecs] in
theorem limits_keyDecoder : keyDecoder.Limits :=
  LawfulReadLimits.byteVec.wrap

theorem limits_keySource : keySourceDecoder.Limits := by
  apply limits_lengthPrefixed
  intro count
  have hchild : childNumberDecoder.Limits := limits_array (by decide)
  have hpath : (exactVecDecoderWith childNumberDecoder count).Limits := by
    refine (LawfulReadLimits.exactVec lawful_childNumber strict_childNumber hchild
      fun _ => id).mono ?_
    rintro x y ⟨_, _, _, _, _, _, _, _, hbad⟩
    exact hbad
  have hlaw := LawfulCodecs.exactVec_lawful (n := count) lawful_childNumber strict_childNumber
  exact (LawfulReadLimits.decoder2 (LawfulCodecs.array_sound (by decide)).lawful hlaw
    (LawfulReadLimits.array (by decide)) hpath).mapErr

/-! ## Signatures -/

omit [LawfulCodecs] [LawfulReadLimits] in
/-- The limit of the buffer is the space that is left in it. -/
theorem limits_ecdsaBuffer (expected : Nat) : (ecdsaBufferDecoder expected).Limits where
  fresh {y sig} hdec _ := by
    have hlen := (decodes_ecdsaBuffer.mp hdec).1
    change expected - 0 ≤ y.length ∧ (expected - 0 = 0 ↔ y = [])
    rw [← hlen, Nat.sub_zero]
    exact ⟨Nat.le_refl _, List.length_eq_zero_iff⟩
  push {x y sig} hdec _ t r st hpush := by
    have hlen := (decodes_ecdsaBuffer.mp hdec).1
    rw [List.length_append] at hlen
    have hstate : t = x := by
      change (ecdsaBufferDecoder expected).push [] x = _ at hpush
      by_cases hwait : x.length < expected
      · rw [push_ecdsaBuffer_wait (by simpa using hwait)] at hpush
        cases hpush
        rfl
      · have hfill : ([] : Bytes).length + x.length = expected := by
          rw [List.length_nil]
          omega
        have hdone := push_ecdsaBuffer_done hfill []
        rw [List.append_nil] at hdone
        rw [hdone] at hpush
        cases hpush
        rfl
    subst hstate
    change expected - List.length (α := UInt8) t ≤ y.length ∧
      (expected - List.length (α := UInt8) t = 0 ↔ y = [])
    rw [← List.length_eq_zero_iff]
    omega

theorem limits_ecdsaSignature : ecdsaSignatureDecoder.Limits :=
  limits_lengthPrefixed limits_ecdsaBuffer

theorem limits_taprootSignature : taprootSignatureDecoder.Limits :=
  limits_lengthPrefixed fun stage => limits_array stage.size_pos

/-! ## The unsigned transaction -/

namespace UnsignedTxDecoder

theorem limits_inputsDecoder : inputsDecoder.Limits :=
  LawfulReadLimits.vec LawfulCodecs.txIn_sound.lawful LawfulCodecs.txIn_sound.strict
    LawfulReadLimits.txIn

theorem limits_outputsDecoder : outputsDecoder.Limits :=
  LawfulReadLimits.vec LawfulCodecs.txOut_lawful.sound.lawful
    LawfulCodecs.txOut_lawful.sound.strict LawfulReadLimits.txOut

omit [LawfulCodecs] [LawfulReadLimits] in
theorem limitsFrom_done (tx : UnsignedTx) {x : Bytes} :
    unsignedTxDecoder.LimitsFrom (State.done tx) x [] := by
  intro t r st hpush
  have hdone : unsignedTxDecoder.push (State.done tx) x = .ok (State.done tx, x, .ready) :=
    StagedLoop.push_stop rfl
  rw [hdone] at hpush
  cases hpush
  exact limitAt_nil.mpr rfl

end UnsignedTxDecoder

open UnsignedTxDecoder in
/-- The limit of the stage is the limit of the whole. -/
theorem limits_unsignedTx : unsignedTxDecoder.Limits := by
  rcases LawfulCodecs.txVersion_lawful.sound.lawful with ⟨WV, hV⟩
  rcases lawful_inputsDecoder with ⟨WI, hI⟩
  rcases lawful_outputsDecoder with ⟨WO, hO⟩
  rcases LawfulCodecs.lockTime_lawful.sound.lawful with ⟨WL, hL⟩
  have hstrict : unsignedTxDecoder.Strict :=
    ⟨(stage_version hV hI hO hL).push_idle hV LawfulCodecs.txVersion_lawful.sound.strict
      LawfulOn.live_init, ⟨.earlyEnd, rfl⟩⟩
  apply LimitsExcept.of_strict hstrict
  intro x y tx hdec _
  rcases accepts_unsignedTx.mp hdec with
    ⟨m₁, raw, m₂, outs, m₃, hversion, ⟨hinputs, htake⟩, ⟨houtputs, _⟩, hlockTime⟩
  rcases (Lawful.accepts_iff ⟨WV, hV⟩).mp hversion with ⟨w₁, heq, hv⟩
  rcases (Lawful.accepts_iff ⟨WI, hI⟩).mp hinputs with ⟨w₂, rfl, hi⟩
  rcases (Lawful.accepts_iff ⟨WO, hO⟩).mp houtputs with ⟨w₃, rfl, ho⟩
  have hafter : afterInputs tx.version raw =
      .ok (.outputs tx.version tx.inputs outputsDecoder.init) := by
    rw [afterInputs, htake]
    rfl
  refine (stage_version hV hI hO hL).limitsFrom hV (fun _ => rfl) hv rfl heq ?_ ?_
  · rintro rest _ rfl _
    exact LawfulReadLimits.txVersion.push hv id
  rintro x _ hrest
  refine (stage_inputs hV hI hO hL _).limitsFrom hI (fun _ => rfl) hi hafter hrest.symm ?_ ?_
  · rintro rest _ rfl _
    exact limits_inputsDecoder.push hi id
  rintro x _ hrest
  refine (stage_outputs hV hI hO hL _ _).limitsFrom hO (fun _ => rfl) ho rfl
    hrest.symm ?_ ?_
  · rintro rest _ rfl _
    exact limits_outputsDecoder.push ho id
  rintro x _ hrest
  refine (stage_lockTime hV hI hO hL _ _ _).limitsFrom hL (fun _ => rfl) hlockTime rfl
    (m := []) (by rw [List.append_nil]; exact hrest.symm) ?_ ?_
  · rintro rest _ rfl _
    exact LawfulReadLimits.lockTime.push hlockTime id
  · rintro x _ hnil
    rcases List.append_eq_nil_iff.mp hnil.symm with ⟨rfl, rfl⟩
    exact limitsFrom_done _

end RustPsbt
