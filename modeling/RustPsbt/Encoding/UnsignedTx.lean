import RustPsbt.Encoding.Value
import RustPsbt.Library.StagedLoop

/-!
# The unsigned transaction of a version 0 PSBT

A transaction in the legacy format whose inputs have no signature scripts: the version,
the inputs, the outputs and the lock time.

Main results:

- Theorem `valueCodec_unsignedTx`: the decoder and the encoder match.
-/

namespace RustPsbt

variable [BitcoinTypes] [BitcoinCodecs]

/-- `UnsignedTx`. -/
structure UnsignedTx where
  version : TxVersion
  inputs : List (Txid × UInt32 × Sequence)
  outputs : List (Amount × ScriptBuf)
  lockTime : LockTime

/-- `UnsignedTxDecodeError`. -/
inductive UnsignedTxDecodeError where
  | earlyEnd
  | invalidScriptSig (byte : UInt8)
  | decodeVersion (e : ExtError)
  | decodeLockTime (e : ExtError)
  | inputs (e : VecDecoderError ExtError ExtError)
  | outputs (e : VecDecoderError ExtError ExtError)

namespace UnsignedTxDecoder

/-- The decoder of the inputs. -/
def inputsDecoder : PushDecoder UInt8 (VecDecoderError ExtError ExtError) (List TxIn) :=
  vecDecoderWith txInDecoder

/-- The decoder of the outputs. -/
def outputsDecoder : PushDecoder UInt8 (VecDecoderError ExtError ExtError) (List TxOut) :=
  vecDecoderWith txOutCodec.decoder

/-- `unsigned_tx::State`. -/
inductive State where
  | version (d : (txVersionCodec : Codec ExtError TxVersion).decoder.State)
  | inputs (version : TxVersion) (d : inputsDecoder.State)
  | outputs (version : TxVersion) (inputs : List (Txid × UInt32 × Sequence))
      (d : outputsDecoder.State)
  | lockTime (version : TxVersion) (inputs : List (Txid × UInt32 × Sequence))
      (outputs : List (Amount × ScriptBuf))
      (d : (lockTimeCodec : Codec ExtError LockTime).decoder.State)
  | done (tx : UnsignedTx)

/-- The first byte of the first signature script that is not empty. -/
def firstScriptSigByte (raw : List TxIn) : Option UInt8 :=
  raw.findSome? fun txIn => txIn.scriptSig.head?

/-- The inputs without their scripts. -/
def takeInputs (raw : List TxIn) :
    Result UnsignedTxDecodeError (List (Txid × UInt32 × Sequence)) :=
  match firstScriptSigByte raw with
  | some byte => .err (.invalidScriptSig byte)
  | none => .ok (raw.map fun txIn =>
      (txIn.previousOutput.txid, txIn.previousOutput.vout, txIn.sequence))

/-- What follows the inputs. -/
def afterInputs (version : TxVersion) (raw : List TxIn) : Result UnsignedTxDecodeError State := do
  let inputs ← takeInputs raw
  .ok (.outputs version inputs outputsDecoder.init)

/-- One round of the loop in `push_bytes`.  The source drops an error of pushing to the
version or to the lock time, but these pushes do not fail. -/
def step : State → Bytes → Result UnsignedTxDecodeError (State × Bytes × Flow)
  | .version d, b => do
      let x ← (txVersionCodec.decoder.push d b).mapErr .decodeVersion
      match x.2.2 with
      | .needsMore => .ok (.version x.1, x.2.1, .stop .needsMore)
      | .ready => do
          let next ← (txVersionCodec.decoder.finish x.1).mapErr .decodeVersion >>= fun version =>
            .ok (.inputs version inputsDecoder.init)
          .ok (next, x.2.1, .again)
  | .inputs version d, b => do
      let x ← (inputsDecoder.push d b).mapErr .inputs
      match x.2.2 with
      | .needsMore => .ok (.inputs version x.1, x.2.1, .stop .needsMore)
      | .ready => do
          let next ← (inputsDecoder.finish x.1).mapErr .inputs >>= afterInputs version
          .ok (next, x.2.1, .again)
  | .outputs version inputs d, b => do
      let x ← (outputsDecoder.push d b).mapErr .outputs
      match x.2.2 with
      | .needsMore => .ok (.outputs version inputs x.1, x.2.1, .stop .needsMore)
      | .ready => do
          let next ← (outputsDecoder.finish x.1).mapErr .outputs >>= fun raw =>
            .ok (.lockTime version inputs (raw.map fun o => (o.value, o.scriptPubkey))
              lockTimeCodec.decoder.init)
          .ok (next, x.2.1, .again)
  | .lockTime version inputs outputs d, b => do
      let x ← (lockTimeCodec.decoder.push d b).mapErr .decodeLockTime
      match x.2.2 with
      | .needsMore => .ok (.lockTime version inputs outputs x.1, x.2.1, .stop .needsMore)
      | .ready => do
          let next ← (lockTimeCodec.decoder.finish x.1).mapErr .decodeLockTime >>= fun lockTime =>
            .ok (.done ⟨version, inputs, outputs, lockTime⟩)
          .ok (next, x.2.1, .again)
  | .done tx, b => .ok (.done tx, b, .stop .ready)

/-- `UnsignedTxDecoder::end`. -/
def finish : State → Result UnsignedTxDecodeError UnsignedTx
  | .done tx => .ok tx
  | _ => .err .earlyEnd

/-- `UnsignedTxDecoder::read_limit`. -/
def readLimit : State → Nat
  | .version d => txVersionCodec.decoder.readLimit d
  | .inputs _ d => inputsDecoder.readLimit d
  | .outputs _ _ d => outputsDecoder.readLimit d
  | .lockTime _ _ _ d => lockTimeCodec.decoder.readLimit d
  | .done _ => 0

/-- The loop of `UnsignedTxDecoder`; every round but the last takes bytes. -/
def stagedLoop : StagedLoop UInt8 UnsignedTxDecodeError UnsignedTx where
  State := State
  init := .version txVersionCodec.decoder.init
  step := step
  finish := finish
  readLimit := readLimit
  rank _ := 0
  maxRank := 0

end UnsignedTxDecoder

open UnsignedTxDecoder

/-- `UnsignedTxDecoder`. -/
def unsignedTxDecoder : PushDecoder UInt8 UnsignedTxDecodeError UnsignedTx :=
  stagedLoop.decoder

/-- The bytes of an input: its outpoint, an empty script and its sequence. -/
def unsignedTxInBytes (input : Txid × UInt32 × Sequence) : Bytes :=
  input.1.bytes ++ ((u32ToLeBytes input.2.1).bytes ++ 0 :: sequenceCodec.encode input.2.2)

/-- The bytes of an output: its amount and its script behind its length. -/
def unsignedTxOutBytes (output : Amount × ScriptBuf) : Bytes :=
  amountCodec.encode output.1 ++ frame output.2

/-- The bytes of `UnsignedTxEncoder`. -/
def unsignedTxBytes (tx : UnsignedTx) : Bytes :=
  txVersionCodec.encode tx.version ++
    ((compactSize tx.inputs.length ++ tx.inputs.flatMap unsignedTxInBytes) ++
      ((compactSize tx.outputs.length ++ tx.outputs.flatMap unsignedTxOutBytes) ++
        lockTimeCodec.encode tx.lockTime))

namespace UnsignedTxDecoder

section

variable [LawfulCodecs]

theorem lawful_inputsDecoder : inputsDecoder.Lawful :=
  (LawfulCodecs.vec_lawful LawfulCodecs.txIn_sound.lawful LawfulCodecs.txIn_sound.strict).1

theorem strict_inputsDecoder : inputsDecoder.Strict :=
  (LawfulCodecs.vec_lawful LawfulCodecs.txIn_sound.lawful LawfulCodecs.txIn_sound.strict).2

theorem lawful_outputsDecoder : outputsDecoder.Lawful :=
  (LawfulCodecs.vec_lawful LawfulCodecs.txOut_lawful.sound.lawful
    LawfulCodecs.txOut_lawful.sound.strict).1

theorem strict_outputsDecoder : outputsDecoder.Strict :=
  (LawfulCodecs.vec_lawful LawfulCodecs.txOut_lawful.sound.lawful
    LawfulCodecs.txOut_lawful.sound.strict).2

end

/-- The decoder of the state waits for more. -/
def Waiting (WV : (txVersionCodec : Codec ExtError TxVersion).decoder.State → Prop)
    (WI : inputsDecoder.State → Prop) (WO : outputsDecoder.State → Prop)
    (WL : (lockTimeCodec : Codec ExtError LockTime).decoder.State → Prop) : State → Prop
  | .version d => txVersionCodec.decoder.Live WV d
  | .inputs _ d => inputsDecoder.Live WI d
  | .outputs _ _ d => outputsDecoder.Live WO d
  | .lockTime _ _ _ d => lockTimeCodec.decoder.Live WL d
  | .done _ => False

/-- The decoder of the state waits for more, or all is decoded. -/
def Active (WV : (txVersionCodec : Codec ExtError TxVersion).decoder.State → Prop)
    (WI : inputsDecoder.State → Prop) (WO : outputsDecoder.State → Prop)
    (WL : (lockTimeCodec : Codec ExtError LockTime).decoder.State → Prop) (s : State) : Prop :=
  Waiting WV WI WO WL s ∨ ∃ tx, s = .done tx

section

variable [LawfulCodecs]
  {WV : (txVersionCodec : Codec ExtError TxVersion).decoder.State → Prop}
  {WI : inputsDecoder.State → Prop} {WO : outputsDecoder.State → Prop}
  {WL : (lockTimeCodec : Codec ExtError LockTime).decoder.State → Prop}

omit [LawfulCodecs] in
theorem active_of_afterInputs {version : TxVersion} {raw : List TxIn} {s : State}
    (h : afterInputs version raw = .ok s) : Active WV WI WO WL s := by
  rcases Result.bind_eq_ok.mp h with ⟨inputs, _, heq⟩
  cases heq
  exact .inl (.inl rfl)

omit [LawfulCodecs] in
theorem isErr_finish {s : State} (h : Waiting WV WI WO WL s) :
    (unsignedTxDecoder.finish s).IsErr := by
  cases s with
  | done tx => exact absurd h id
  | version d => exact ⟨.earlyEnd, rfl⟩
  | inputs v d => exact ⟨.earlyEnd, rfl⟩
  | outputs v i d => exact ⟨.earlyEnd, rfl⟩
  | lockTime v i o d => exact ⟨.earlyEnd, rfl⟩

variable (hV : txVersionCodec.decoder.LawfulOn WV) (hI : inputsDecoder.LawfulOn WI)
  (hO : outputsDecoder.LawfulOn WO) (hL : lockTimeCodec.decoder.LawfulOn WL)

include hV hI hO hL

/-- Every round but the last takes bytes. -/
theorem progress : stagedLoop.Progress (Active WV WI WO WL) where
  init := .inl (.inl rfl)
  rank_le _ := Nat.le_refl _
  again {s a next r} hs hstep := by
    change step s a = _ at hstep
    rcases hs with hs | ⟨tx, rfl⟩
    · cases s with
      | done tx => exact absurd hs id
      | version d =>
          rcases Result.bind_eq_ok.mp hstep with ⟨⟨d', r', st⟩, hpush, hrest⟩
          rw [Result.mapErr_eq_ok] at hpush
          cases st with
          | needsMore => cases hrest
          | ready =>
              have hlt := hV.rest_length_lt LawfulCodecs.txVersion_lawful.sound.strict hs hpush
              rcases Result.bind_eq_ok.mp hrest with ⟨s', hnext, heq⟩
              rcases Result.bind_eq_ok.mp hnext with ⟨version, _, hk⟩
              cases heq
              cases hk
              exact ⟨.inl (.inl rfl), .inl hlt⟩
      | inputs v d =>
          rcases Result.bind_eq_ok.mp hstep with ⟨⟨d', r', st⟩, hpush, hrest⟩
          rw [Result.mapErr_eq_ok] at hpush
          cases st with
          | needsMore => cases hrest
          | ready =>
              have hlt := hI.rest_length_lt strict_inputsDecoder hs hpush
              rcases Result.bind_eq_ok.mp hrest with ⟨s', hnext, heq⟩
              rcases Result.bind_eq_ok.mp hnext with ⟨raw, _, hk⟩
              cases heq
              exact ⟨active_of_afterInputs hk, .inl hlt⟩
      | outputs v i d =>
          rcases Result.bind_eq_ok.mp hstep with ⟨⟨d', r', st⟩, hpush, hrest⟩
          rw [Result.mapErr_eq_ok] at hpush
          cases st with
          | needsMore => cases hrest
          | ready =>
              have hlt := hO.rest_length_lt strict_outputsDecoder hs hpush
              rcases Result.bind_eq_ok.mp hrest with ⟨s', hnext, heq⟩
              rcases Result.bind_eq_ok.mp hnext with ⟨raw, _, hk⟩
              cases heq
              cases hk
              exact ⟨.inl (.inl rfl), .inl hlt⟩
      | lockTime v i o d =>
          rcases Result.bind_eq_ok.mp hstep with ⟨⟨d', r', st⟩, hpush, hrest⟩
          rw [Result.mapErr_eq_ok] at hpush
          cases st with
          | needsMore => cases hrest
          | ready =>
              have hlt := hL.rest_length_lt LawfulCodecs.lockTime_lawful.sound.strict hs hpush
              rcases Result.bind_eq_ok.mp hrest with ⟨s', hnext, heq⟩
              rcases Result.bind_eq_ok.mp hnext with ⟨lockTime, _, hk⟩
              cases heq
              cases hk
              exact ⟨.inr ⟨_, rfl⟩, .inl hlt⟩
    · cases hstep

theorem stage_version : unsignedTxDecoder.Stage txVersionCodec.decoder WV State.version
    fun version => .ok (.inputs version inputsDecoder.init) :=
  (progress hV hI hO hL).stage .decodeVersion .decodeVersion (fun hp => .inl hp) fun _ _ => rfl

theorem stage_inputs (version : TxVersion) : unsignedTxDecoder.Stage inputsDecoder WI
    (State.inputs version) (afterInputs version) :=
  (progress hV hI hO hL).stage .inputs .inputs (fun hp => .inl hp) fun _ _ => rfl

theorem stage_outputs (version : TxVersion) (inputs : List (Txid × UInt32 × Sequence)) :
    unsignedTxDecoder.Stage outputsDecoder WO (State.outputs version inputs) fun raw =>
      .ok (.lockTime version inputs (raw.map fun o => (o.value, o.scriptPubkey))
        lockTimeCodec.decoder.init) :=
  (progress hV hI hO hL).stage .outputs .outputs (fun hp => .inl hp) fun _ _ => rfl

theorem stage_lockTime (version : TxVersion) (inputs : List (Txid × UInt32 × Sequence))
    (outputs : List (Amount × ScriptBuf)) :
    unsignedTxDecoder.Stage lockTimeCodec.decoder WL (State.lockTime version inputs outputs)
      fun lockTime => .ok (.done ⟨version, inputs, outputs, lockTime⟩) :=
  (progress hV hI hO hL).stage .decodeLockTime .decodeLockTime (fun hp => .inl hp) fun _ _ => rfl

theorem lawfulOn_unsignedTx : unsignedTxDecoder.LawfulOn (Waiting WV WI WO WL) := by
  have hprog := progress hV hI hO hL
  apply hprog.lawfulOn .inl
  · intro s hs a ih
    rcases hs with hs | ⟨tx, rfl⟩
    · cases s with
      | done tx => exact absurd hs id
      | version d =>
          apply (stage_version hV hI hO hL).lawfulAt hV (fun hw => .inr hw) hs
          intro p' r version next hpush _ hk
          have hlt := hV.rest_length_lt LawfulCodecs.txVersion_lawful.sound.strict hs hpush
          cases hk
          exact ih (.inl (.inl rfl)) (hprog.measure_lt_of_length hlt)
      | inputs v d =>
          apply (stage_inputs hV hI hO hL v).lawfulAt hI (fun hw => .inr hw) hs
          intro p' r raw next hpush _ hk
          have hlt := hI.rest_length_lt strict_inputsDecoder hs hpush
          exact ih (active_of_afterInputs hk) (hprog.measure_lt_of_length hlt)
      | outputs v i d =>
          apply (stage_outputs hV hI hO hL v i).lawfulAt hO (fun hw => .inr hw) hs
          intro p' r raw next hpush _ hk
          have hlt := hO.rest_length_lt strict_outputsDecoder hs hpush
          cases hk
          exact ih (.inl (.inl rfl)) (hprog.measure_lt_of_length hlt)
      | lockTime v i o d =>
          apply (stage_lockTime hV hI hO hL v i o).lawfulAt hL (fun hw => .inr hw) hs
          intro p' r lockTime next hpush _ hk
          have hlt := hL.rest_length_lt LawfulCodecs.lockTime_lawful.sound.strict hs hpush
          cases hk
          exact ih (.inr ⟨_, rfl⟩) (hprog.measure_lt_of_length hlt)
    · apply PushDecoder.LawfulAt.of_done (c := [])
      intro b
      exact StagedLoop.push_stop rfl
  · intro s hs
    cases s with
    | done tx => exact absurd hs id
    | version d =>
        exact (stage_version hV hI hO hL).push_idle hV
          LawfulCodecs.txVersion_lawful.sound.strict hs
    | inputs v d => exact (stage_inputs hV hI hO hL v).push_idle hI strict_inputsDecoder hs
    | outputs v i d =>
        exact (stage_outputs hV hI hO hL v i).push_idle hO strict_outputsDecoder hs
    | lockTime v i o d =>
        exact (stage_lockTime hV hI hO hL v i o).push_idle hL
          LawfulCodecs.lockTime_lawful.sound.strict hs
  · exact isErr_finish

end

/-- Inputs are taken when all their scripts are empty. -/
theorem takeInputs_eq_ok {raw : List TxIn} {inputs : List (Txid × UInt32 × Sequence)} :
    takeInputs raw = .ok inputs ↔ (∀ txIn ∈ raw, txIn.scriptSig = []) ∧
      inputs = raw.map fun txIn =>
        (txIn.previousOutput.txid, txIn.previousOutput.vout, txIn.sequence) := by
  have hnone : firstScriptSigByte raw = none ↔ ∀ txIn ∈ raw, txIn.scriptSig = [] := by
    simp [firstScriptSigByte]
  unfold takeInputs
  cases hfirst : firstScriptSigByte raw with
  | some byte =>
      constructor
      · intro h
        cases h
      · rintro ⟨hall, _⟩
        rw [hnone.mpr hall] at hfirst
        cases hfirst
  | none =>
      constructor
      · intro h
        cases h
        exact ⟨hnone.mp hfirst, rfl⟩
      · rintro ⟨_, rfl⟩
        rfl

theorem returns_takeInputs (raw : List TxIn) : (takeInputs raw).Returns := by
  unfold takeInputs
  split <;> trivial

variable [LawfulCodecs]

omit [LawfulCodecs] in
theorem meaning_done (tx : UnsignedTx) (b : Bytes) :
    unsignedTxDecoder.meaningFrom (State.done tx) b = .ok (tx, b) := by
  have hpush : unsignedTxDecoder.push (State.done tx) b = .ok (State.done tx, b, .ready) :=
    StagedLoop.push_stop rfl
  unfold PushDecoder.meaningFrom PushDecoder.runFrom
  rw [hpush]
  rfl

theorem lawful_unsignedTx : unsignedTxDecoder.Lawful := by
  rcases LawfulCodecs.txVersion_lawful.sound.lawful with ⟨WV, hV⟩
  rcases lawful_inputsDecoder with ⟨WI, hI⟩
  rcases lawful_outputsDecoder with ⟨WO, hO⟩
  rcases LawfulCodecs.lockTime_lawful.sound.lawful with ⟨WL, hL⟩
  exact ⟨_, lawfulOn_unsignedTx hV hI hO hL⟩

/-- The parts of a transaction are accepted one after the other. -/
theorem accepts_unsignedTx {b r : Bytes} {tx : UnsignedTx} :
    unsignedTxDecoder.Accepts b tx r ↔ ∃ m₁ raw m₂ outs m₃,
      txVersionCodec.decoder.Accepts b tx.version m₁ ∧
        (inputsDecoder.Accepts m₁ raw m₂ ∧ takeInputs raw = .ok tx.inputs) ∧
          (outputsDecoder.Accepts m₂ outs m₃ ∧
            tx.outputs = outs.map fun o => (o.value, o.scriptPubkey)) ∧
              lockTimeCodec.decoder.Accepts m₃ tx.lockTime r := by
  rcases LawfulCodecs.txVersion_lawful.sound.lawful with ⟨WV, hV⟩
  rcases lawful_inputsDecoder with ⟨WI, hI⟩
  rcases lawful_outputsDecoder with ⟨WO, hO⟩
  rcases LawfulCodecs.lockTime_lawful.sound.lawful with ⟨WL, hL⟩
  have hearly : ∀ {s}, Waiting WV WI WO WL s → (unsignedTxDecoder.finish s).IsErr := isErr_finish
  rw [← PushDecoder.meaning_eq_ok]
  change unsignedTxDecoder.meaningFrom (State.version _) b = _ ↔ _
  rw [(stage_version hV hI hO hL).meaningFrom_eq_ok hV fun hp => hearly (.inr hp)]
  constructor
  · rintro ⟨version, m₁, _, hversion, ⟨⟩, h⟩
    rw [(stage_inputs hV hI hO hL _).meaningFrom_eq_ok hI fun hp => hearly (.inr hp)] at h
    rcases h with ⟨raw, m₂, s, hraw, hafter, h⟩
    rcases Result.bind_eq_ok.mp hafter with ⟨inputs, htake, heq⟩
    cases heq
    rw [(stage_outputs hV hI hO hL _ _).meaningFrom_eq_ok hO fun hp => hearly (.inr hp)] at h
    rcases h with ⟨outs, m₃, _, houts, ⟨⟩, h⟩
    rw [(stage_lockTime hV hI hO hL _ _ _).meaningFrom_eq_ok hL fun hp => hearly (.inr hp)] at h
    rcases h with ⟨lockTime, m₄, _, hlock, ⟨⟩, h⟩
    rw [meaning_done] at h
    cases h
    exact ⟨m₁, raw, m₂, outs, m₃, hversion, ⟨hraw, htake⟩, ⟨houts, rfl⟩, hlock⟩
  · rintro ⟨m₁, raw, m₂, outs, m₃, hversion, ⟨hraw, htake⟩, ⟨houts, heq⟩, hlock⟩
    refine ⟨_, m₁, _, hversion, rfl, ?_⟩
    rw [(stage_inputs hV hI hO hL _).meaningFrom_eq_ok hI fun hp => hearly (.inr hp)]
    refine ⟨raw, m₂, .outputs tx.version tx.inputs outputsDecoder.init, hraw, ?_, ?_⟩
    · rw [afterInputs, htake]
      rfl
    · rw [(stage_outputs hV hI hO hL _ _).meaningFrom_eq_ok hO fun hp => hearly (.inr hp)]
      refine ⟨outs, m₃, _, houts, rfl, ?_⟩
      rw [← heq, (stage_lockTime hV hI hO hL _ _ _).meaningFrom_eq_ok hL
        fun hp => hearly (.inr hp)]
      exact ⟨_, r, _, hlock, rfl, meaning_done tx r⟩

theorem safe_inputsDecoder : inputsDecoder.Safe :=
  safe_vec LawfulCodecs.txIn_sound.lawful LawfulCodecs.txIn_sound.strict
    LawfulCodecs.txIn_sound.safe

theorem safe_outputsDecoder : outputsDecoder.Safe :=
  safe_vec LawfulCodecs.txOut_lawful.sound.lawful LawfulCodecs.txOut_lawful.sound.strict
    LawfulCodecs.txOut_lawful.sound.safe

theorem safe_unsignedTx : unsignedTxDecoder.Safe := by
  rcases LawfulCodecs.txVersion_lawful.sound.lawful with ⟨WV, hV⟩
  rcases lawful_inputsDecoder with ⟨WI, hI⟩
  rcases lawful_outputsDecoder with ⟨WO, hO⟩
  rcases LawfulCodecs.lockTime_lawful.sound.lawful with ⟨WL, hL⟩
  have hearly : ∀ {s}, Waiting WV WI WO WL s → (unsignedTxDecoder.finish s).IsErr := isErr_finish
  rw [PushDecoder.safe_iff]
  intro b
  change (unsignedTxDecoder.meaningFrom (State.version _) b).Returns
  rw [(stage_version hV hI hO hL).returns_meaningFrom hV fun hp => hearly (.inr hp)]
  refine ⟨PushDecoder.safe_iff.mp LawfulCodecs.txVersion_lawful.sound.safe b, ?_⟩
  intro version m₁ _
  refine ⟨trivial, ?_⟩
  rintro _ ⟨⟩
  rw [(stage_inputs hV hI hO hL _).returns_meaningFrom hI fun hp => hearly (.inr hp)]
  refine ⟨PushDecoder.safe_iff.mp safe_inputsDecoder m₁, ?_⟩
  intro raw m₂ _
  refine ⟨(returns_takeInputs raw).bind fun _ _ => trivial, ?_⟩
  intro s hafter
  rcases Result.bind_eq_ok.mp hafter with ⟨inputs, _, heq⟩
  cases heq
  rw [(stage_outputs hV hI hO hL _ _).returns_meaningFrom hO fun hp => hearly (.inr hp)]
  refine ⟨PushDecoder.safe_iff.mp safe_outputsDecoder m₂, ?_⟩
  intro outs m₃ _
  refine ⟨trivial, ?_⟩
  rintro _ ⟨⟩
  rw [(stage_lockTime hV hI hO hL _ _ _).returns_meaningFrom hL fun hp => hearly (.inr hp)]
  refine ⟨PushDecoder.safe_iff.mp LawfulCodecs.lockTime_lawful.sound.safe m₃, ?_⟩
  intro lockTime m₄ _
  refine ⟨trivial, ?_⟩
  rintro _ ⟨⟩
  rw [meaning_done]
  trivial

/-! ## The bytes of a transaction -/

/-- The transaction output whose codec writes the bytes of an output. -/
def txOutOf (output : Amount × ScriptBuf) : TxOut :=
  ⟨output.1, output.2⟩

theorem unsignedTxOutBytes_eq (output : Amount × ScriptBuf) :
    unsignedTxOutBytes output = txOutCodec.encode (txOutOf output) := by
  rw [LawfulCodecs.txOut_encode]
  rfl

/-- The transaction input whose codec reads the bytes of an input. -/
def txInOf (input : Txid × UInt32 × Sequence) : TxIn :=
  ⟨⟨input.1, input.2.1⟩, [], input.2.2, []⟩

/-- An input without a script is written as it is read. -/
theorem decodes_txIn {w : Bytes} {txIn : TxIn} (hscript : txIn.scriptSig = []) :
    txInDecoder.Decodes w txIn ↔ w = unsignedTxInBytes
      (txIn.previousOutput.txid, txIn.previousOutput.vout, txIn.sequence) ∧
        txIn.witness = [] := by
  rw [PushDecoder.Decodes, LawfulCodecs.txIn_accepts, hscript]
  simp [unsignedTxInBytes, compactSize]

omit [LawfulCodecs] in
theorem length_unsignedTxInBytes_pos (input : Txid × UInt32 × Sequence) :
    0 < (unsignedTxInBytes input).length := by
  simp only [unsignedTxInBytes, List.length_append, U8Array.length_bytes]
  omega

omit [LawfulCodecs] in
theorem length_unsignedTxOutBytes_pos (output : Amount × ScriptBuf) :
    0 < (unsignedTxOutBytes output).length := by
  have hne := List.length_pos_iff.mpr (compactSize_ne_nil output.2.length)
  simp only [unsignedTxOutBytes, frame, List.length_append]
  omega

/-- The bytes of a transaction that fits are decoded into the transaction. -/
theorem decodes_unsignedTxBytes {tx : UnsignedTx}
    (h : (unsignedTxBytes tx).length ≤ compactSizeLimit) :
    unsignedTxDecoder.Decodes (unsignedTxBytes tx) tx := by
  have hin := length_le_length_flatMap length_unsignedTxInBytes_pos tx.inputs
  have hout := length_le_length_flatMap length_unsignedTxOutBytes_pos tx.outputs
  simp only [unsignedTxBytes, List.length_append] at h
  apply accepts_unsignedTx.mpr
  refine ⟨(compactSize tx.inputs.length ++ tx.inputs.flatMap unsignedTxInBytes) ++
      ((compactSize tx.outputs.length ++ tx.outputs.flatMap unsignedTxOutBytes) ++
        lockTimeCodec.encode tx.lockTime), tx.inputs.map txInOf,
    (compactSize tx.outputs.length ++ tx.outputs.flatMap unsignedTxOutBytes) ++
      lockTimeCodec.encode tx.lockTime, tx.outputs.map txOutOf,
    lockTimeCodec.encode tx.lockTime, ?_, ⟨?_, ?_⟩, ⟨?_, ?_⟩, ?_⟩
  · exact LawfulCodecs.txVersion_lawful.accepts_encode (by omega) _
  · apply (accepts_vec LawfulCodecs.txIn_sound.lawful LawfulCodecs.txIn_sound.strict).mpr
    rw [List.length_map]
    refine ⟨by omega, tx.inputs.map unsignedTxInBytes, ?_, ?_⟩
    · rw [List.append_assoc, List.flatMap_def]
    · rw [List.forall₂_map_left_iff, List.forall₂_map_right_iff, List.forall₂_same]
      intro input _
      exact (decodes_txIn rfl).mpr ⟨rfl, rfl⟩
  · apply takeInputs_eq_ok.mpr
    constructor
    · intro txIn hmem
      rcases List.mem_map.mp hmem with ⟨input, _, rfl⟩
      rfl
    · rw [List.map_map]
      exact (List.map_id _).symm
  · apply (accepts_vec LawfulCodecs.txOut_lawful.sound.lawful
      LawfulCodecs.txOut_lawful.sound.strict).mpr
    rw [List.length_map]
    refine ⟨by omega, tx.outputs.map unsignedTxOutBytes, ?_, ?_⟩
    · rw [List.append_assoc, List.flatMap_def]
    · rw [List.forall₂_map_left_iff, List.forall₂_map_right_iff, List.forall₂_same]
      intro output hmem
      have hle := length_le_length_flatMap_of_mem (f := unsignedTxOutBytes) hmem
      rw [unsignedTxOutBytes_eq] at hle ⊢
      have hacc := LawfulCodecs.txOut_lawful.accepts_encode (a := txOutOf output) (by omega) []
      rwa [List.append_nil] at hacc
  · rw [List.map_map]
    exact (List.map_id _).symm
  · have hacc := LawfulCodecs.lockTime_lawful.accepts_encode (a := tx.lockTime) (by omega) []
    rwa [List.append_nil] at hacc

/-- Decoded inputs are written back as they were read. -/
theorem flatMap_unsignedTxInBytes {ws : List Bytes} {raw : List TxIn}
    (hall : List.Forall₂ txInDecoder.Decodes ws raw) (hempty : ∀ i ∈ raw, i.scriptSig = []) :
    ((raw.map fun i => (i.previousOutput.txid, i.previousOutput.vout, i.sequence)).flatMap
      unsignedTxInBytes) = ws.flatten := by
  induction hall with
  | nil => rfl
  | @cons w i ws raw hw hall ih =>
      have hrest := ih fun i hi => hempty i (List.mem_cons_of_mem _ hi)
      have hhead := ((decodes_txIn (hempty i List.mem_cons_self)).mp hw).1
      rw [List.map_cons, List.flatMap_cons, hrest, ← hhead]
      rfl

/-- Decoded outputs are not written longer than they were read. -/
theorem length_flatMap_unsignedTxOutBytes {ws : List Bytes} {outs : List TxOut}
    (hall : List.Forall₂ txOutCodec.decoder.Decodes ws outs) :
    ((outs.map fun o => (o.value, o.scriptPubkey)).flatMap unsignedTxOutBytes).length ≤
      ws.flatten.length := by
  induction hall with
  | nil => simp
  | @cons w o ws outs hw hall ih =>
      have hle := LawfulCodecs.txOut_lawful.length_encode_le hw
      have hhead : unsignedTxOutBytes (o.value, o.scriptPubkey) = txOutCodec.encode o :=
        unsignedTxOutBytes_eq _
      rw [List.map_cons, List.flatMap_cons, hhead, List.flatten_cons, List.length_append,
        List.length_append]
      omega

/-- A decoded transaction is not written longer than it was read. -/
theorem length_unsignedTxBytes_le {w : Bytes} {tx : UnsignedTx}
    (h : unsignedTxDecoder.Decodes w tx) : (unsignedTxBytes tx).length ≤ w.length := by
  rcases accepts_unsignedTx.mp h with ⟨m₁, raw, m₂, outs, m₃, hv, ⟨hi, htake⟩, ⟨ho, heq⟩, hl⟩
  rcases takeInputs_eq_ok.mp htake with ⟨hempty, hinputs⟩
  rcases LawfulCodecs.txVersion_lawful.sound.lawful.accepts_iff.mp hv with ⟨v, rfl, hdecV⟩
  rcases (accepts_vec LawfulCodecs.txIn_sound.lawful LawfulCodecs.txIn_sound.strict).mp hi with
    ⟨_, ws, rfl, hws⟩
  rcases (accepts_vec LawfulCodecs.txOut_lawful.sound.lawful
    LawfulCodecs.txOut_lawful.sound.strict).mp ho with ⟨_, ws', rfl, hws'⟩
  have hversion := LawfulCodecs.txVersion_lawful.length_encode_le hdecV
  have hlock := LawfulCodecs.lockTime_lawful.length_encode_le hl
  have hin := congrArg List.length (flatMap_unsignedTxInBytes hws hempty)
  have hout := length_flatMap_unsignedTxOutBytes hws'
  rw [unsignedTxBytes, hinputs, heq]
  simp only [List.length_append, List.length_map] at hin hout ⊢
  omega

end UnsignedTxDecoder

open UnsignedTxDecoder

section

variable [LawfulCodecs]

/-- The decoder and the encoder of a transaction match. -/
theorem valueCodec_unsignedTx :
    ValueCodec (valueDecoder unsignedTxDecoder) fun tx => .ofBytes (unsignedTxBytes tx) := by
  apply ValueCodecOn.of_inner lawful_unsignedTx (fun _ => rfl) fun h => h
  · intro tx hfits
    exact decodes_unsignedTxBytes hfits
  · intro w tx hdec hw
    have hle := length_unsignedTxBytes_le hdec
    exact le_trans hle hw

theorem safe_unsignedTxValue : (valueDecoder unsignedTxDecoder).Safe :=
  safe_valueDecoder safe_unsignedTx

end

end RustPsbt
