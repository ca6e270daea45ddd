import RustPsbt.Map.GlobalCodec
import RustPsbt.Map.InputCodec
import RustPsbt.Map.OutputCodec
import RustPsbt.Psbt

/-!
# The format of a PSBT

Magic bytes, a separator, the global map, and as many input and output maps as the global
map counts.  Both versions run this loop; a `PsbtFormat` holds what differs.

Main results:

- Theorem `PsbtFormat.Lawful.lawful_decoder`: the decoder of a PSBT is chunk independent.
- Theorem `PsbtFormat.Lawful.accepts_iff`: it takes the magic bytes, the separator and the
  maps, one after the other.
- Theorem `PsbtFormat.Lawful.decodes_iff`: the same, for all of the bytes.
- Theorem `PsbtFormat.Lawful.deserialize_eq_ok`: a PSBT is all of the bytes it is decoded from.
-/

namespace RustPsbt

variable [BitcoinTypes] [BitcoinCodecs]

/-- `DeserializeError`. -/
inductive DeserializeError where
  | invalidMagic (magic : U8Array 4)
  | invalidSeparator (separator : UInt8)
  | decodeGlobal (e : Global.DecodeError)
  | decodeInputs (e : VecDecoderError ExtError Input.DecodeError)
  | decodeOutputs (e : VecDecoderError ExtError Output.DecodeError)
  | earlyEnd (stage : String)
  | unconsumed

/-- `PSBT_MAGIC`. -/
def psbtMagic : U8Array 4 :=
  ⟨[0x70, 0x73, 0x62, 0x74], rfl⟩

/-- `PSBT_SEPARATOR` of a PSBT; the one of a map is `psbtSeparator`. -/
def psbtHeaderSeparator : UInt8 := 0xff

/-- `PSBT_MAGIC_BYTES`. -/
def psbtMagicBytes : Bytes :=
  [0x70, 0x73, 0x62, 0x74, 0xff]

/-- What the decoder of a version is made of: `G` is what its global map decodes into, `I`
and `O` its input and output maps, and `α` its output. -/
structure PsbtFormat (G I O α : Type) where
  globalDecoder : PushDecoder UInt8 Global.DecodeError G
  inputDecoder : PushDecoder UInt8 Input.DecodeError I
  outputDecoder : PushDecoder UInt8 Output.DecodeError O
  inputCount : G → Nat
  outputCount : G → Nat
  /-- There is no stage for maps of which there are none. -/
  skipsEmpty : Bool
  /-- The global map of the PSBT. -/
  global : G → Global
  /-- The inputs of the PSBT. -/
  takeInputs : G → List I → List Input
  /-- The outputs of the PSBT. -/
  takeOutputs : G → List O → List Output
  /-- The output of `end`. -/
  atEnd : Psbt → α

namespace PsbtFormat

variable {G I O α : Type}

/-- The decoder of the magic bytes. -/
def magicDecoder : PushDecoder UInt8 ExtError (U8Array 4) :=
  arrayDecoder 4

/-- `InputsDecoder`. -/
def inputsDecoder (F : PsbtFormat G I O α) (g : G) :
    PushDecoder UInt8 (VecDecoderError ExtError Input.DecodeError) (List I) :=
  exactVecDecoderWith F.inputDecoder (F.inputCount g)

/-- `OutputsDecoder`. -/
def outputsDecoder (F : PsbtFormat G I O α) (g : G) :
    PushDecoder UInt8 (VecDecoderError ExtError Output.DecodeError) (List O) :=
  exactVecDecoderWith F.outputDecoder (F.outputCount g)

/-- `DecoderStage`; the sentinel that replaces a stage during a transition is left out. -/
inductive State (F : PsbtFormat G I O α) where
  | magic (d : (magicDecoder : PushDecoder UInt8 ExtError (U8Array 4)).State)
  | separator
  | global (d : F.globalDecoder.State)
  | inputs (g : G) (d : (F.inputsDecoder g).State)
  | outputs (g : G) (inputs : List Input) (d : (F.outputsDecoder g).State)
  | done (psbt : Psbt)

/-- What follows the magic bytes. -/
def afterMagic (F : PsbtFormat G I O α) (magic : U8Array 4) : Result DeserializeError F.State :=
  if magic = psbtMagic then .ok .separator else .err (.invalidMagic magic)

/-- What follows the separator byte. -/
def afterSeparator (F : PsbtFormat G I O α) (sep : UInt8) : Result DeserializeError F.State :=
  if sep = psbtHeaderSeparator then .ok (.global F.globalDecoder.init)
  else .err (.invalidSeparator sep)

/-- What follows the inputs. -/
def afterInputs (F : PsbtFormat G I O α) (g : G) (inputs : List Input) : F.State :=
  if F.skipsEmpty && F.outputCount g = 0 then .done ⟨F.global g, inputs, []⟩
  else .outputs g inputs (F.outputsDecoder g).init

/-- What follows the global map. -/
def afterGlobal (F : PsbtFormat G I O α) (g : G) : F.State :=
  if F.skipsEmpty && F.inputCount g = 0 then F.afterInputs g []
  else .inputs g (F.inputsDecoder g).init

/-- One round of the loop in `push_bytes`. -/
def step (F : PsbtFormat G I O α) :
    F.State → Bytes → Result DeserializeError (F.State × Bytes × Flow)
  | .magic d, b => do
      -- `unreachable!` and `expect`: four bytes are always an array
      let x ← (magicDecoder.push d b).expect
      match x.2.2 with
      | .needsMore => .ok (.magic x.1, x.2.1, .stop .needsMore)
      | .ready => do
          let next ← (magicDecoder.finish x.1).expect >>= F.afterMagic
          .ok (next, x.2.1, .again)
  | .separator, b => match b with
      | [] => .ok (.separator, [], .stop .needsMore)
      | sep :: rest => do
          let next ← F.afterSeparator sep
          .ok (next, rest, .again)
  | .global d, b => do
      let x ← (F.globalDecoder.push d b).mapErr .decodeGlobal
      match x.2.2 with
      | .needsMore => .ok (.global x.1, x.2.1, .stop .needsMore)
      | .ready => do
          let next ← (F.globalDecoder.finish x.1).mapErr .decodeGlobal >>= fun g =>
            .ok (F.afterGlobal g)
          .ok (next, x.2.1, .again)
  | .inputs g d, b => do
      let x ← ((F.inputsDecoder g).push d b).mapErr .decodeInputs
      match x.2.2 with
      | .needsMore => .ok (.inputs g x.1, x.2.1, .stop .needsMore)
      | .ready => do
          let next ← ((F.inputsDecoder g).finish x.1).mapErr .decodeInputs >>= fun inputs =>
            .ok (F.afterInputs g (F.takeInputs g inputs))
          .ok (next, x.2.1, .again)
  | .outputs g inputs d, b => do
      let x ← ((F.outputsDecoder g).push d b).mapErr .decodeOutputs
      match x.2.2 with
      | .needsMore => .ok (.outputs g inputs x.1, x.2.1, .stop .needsMore)
      | .ready => do
          let next ← ((F.outputsDecoder g).finish x.1).mapErr .decodeOutputs >>= fun outputs =>
            .ok (.done ⟨F.global g, inputs, F.takeOutputs g outputs⟩)
          .ok (next, x.2.1, .again)
  | .done psbt, b => .ok (.done psbt, b, .stop .ready)

/-- `end`. -/
def finish (F : PsbtFormat G I O α) : F.State → Result DeserializeError α
  | .done psbt => .ok (F.atEnd psbt)
  | .magic _ => .err (.earlyEnd "magic")
  | .separator => .err (.earlyEnd "separator")
  | .global _ => .err (.earlyEnd "global")
  | .inputs _ _ => .err (.earlyEnd "inputs")
  | .outputs _ _ _ => .err (.earlyEnd "outputs")

/-- `read_limit`. -/
def readLimit (F : PsbtFormat G I O α) : F.State → Nat
  | .magic d => magicDecoder.readLimit d
  | .separator => 1
  | .global d => F.globalDecoder.readLimit d
  | .inputs g d => (F.inputsDecoder g).readLimit d
  | .outputs g _ d => (F.outputsDecoder g).readLimit d
  | .done _ => 0

/-- The stages that are left. -/
def rank (F : PsbtFormat G I O α) : F.State → Nat
  | .magic _ => 5
  | .separator => 4
  | .global _ => 3
  | .inputs _ _ => 2
  | .outputs _ _ _ => 1
  | .done _ => 0

/-- The loop of the decoder; every round enters a later stage. -/
def stagedLoop (F : PsbtFormat G I O α) : StagedLoop UInt8 DeserializeError α where
  State := F.State
  init := .magic magicDecoder.init
  step := F.step
  finish := F.finish
  readLimit := F.readLimit
  rank := F.rank
  maxRank := 5

/-- The decoder of a PSBT. -/
def decoder (F : PsbtFormat G I O α) : PushDecoder UInt8 DeserializeError α :=
  F.stagedLoop.decoder

/-- `deserialize`. -/
def deserialize (F : PsbtFormat G I O α) (b : Bytes) : Result DeserializeError α :=
  (BitcoinCodecs.decodeFromSlice F.decoder b).mapErr fun
    | .parse e => e
    | .unconsumed => .unconsumed

/-! ## Laws -/

/-- What the parts of a decoder are relied on for. -/
structure Lawful (F : PsbtFormat G I O α) : Prop where
  global_lawful : F.globalDecoder.Lawful
  input_lawful : F.inputDecoder.Lawful
  input_strict : F.inputDecoder.Strict
  output_lawful : F.outputDecoder.Lawful
  output_strict : F.outputDecoder.Strict
  global_strict : F.globalDecoder.Strict
  takeInputs_nil : ∀ g, F.takeInputs g [] = []
  takeOutputs_nil : ∀ g, F.takeOutputs g [] = []

/-- What the waiting states of the inner decoders are. -/
structure Waits (F : PsbtFormat G I O α) where
  magic : (magicDecoder : PushDecoder UInt8 ExtError (U8Array 4)).State → Prop
  global : F.globalDecoder.State → Prop
  inputs : (g : G) → (F.inputsDecoder g).State → Prop
  outputs : (g : G) → (F.outputsDecoder g).State → Prop

/-- The inner decoder of the state waits for more. -/
def Waits.Waiting {F : PsbtFormat G I O α} (W : F.Waits) : F.State → Prop
  | .magic d => W.magic d
  | .separator => True
  | .global d => W.global d
  | .inputs g d => W.inputs g d
  | .outputs g _ d => W.outputs g d
  | .done _ => False

/-- The inner decoder of the state is fresh or waits for more, or all is decoded. -/
def Waits.Active {F : PsbtFormat G I O α} (W : F.Waits) : F.State → Prop
  | .magic d => magicDecoder.Live W.magic d
  | .separator => True
  | .global d => F.globalDecoder.Live W.global d
  | .inputs g d => (F.inputsDecoder g).Live (W.inputs g) d
  | .outputs g _ d => (F.outputsDecoder g).Live (W.outputs g) d
  | .done _ => True

/-- The waiting states are those of chunk-independent decoders. -/
structure Waits.Lawful {F : PsbtFormat G I O α} (W : F.Waits) : Prop where
  magic : magicDecoder.LawfulOn W.magic
  neverFails : magicDecoder.NeverFails W.magic
  global : F.globalDecoder.LawfulOn W.global
  inputs : ∀ g, (F.inputsDecoder g).LawfulOn (W.inputs g)
  outputs : ∀ g, (F.outputsDecoder g).LawfulOn (W.outputs g)

section Laws

variable {F : PsbtFormat G I O α} {W : F.Waits}

theorem active_afterInputs (g : G) (inputs : List Input) : W.Active (F.afterInputs g inputs) := by
  unfold afterInputs
  split
  · trivial
  · exact .inl rfl

theorem active_afterGlobal (g : G) : W.Active (F.afterGlobal g) := by
  unfold afterGlobal
  split
  · exact active_afterInputs g []
  · exact .inl rfl

theorem rank_le (s : F.State) : F.rank s ≤ 5 := by
  cases s <;> simp [rank]

theorem rank_afterInputs (g : G) (inputs : List Input) : F.rank (F.afterInputs g inputs) < 2 := by
  unfold afterInputs
  split
  · exact Nat.zero_lt_two
  · exact Nat.one_lt_two

theorem rank_afterGlobal (g : G) : F.rank (F.afterGlobal g) < 3 := by
  unfold afterGlobal
  split
  · exact (rank_afterInputs g []).trans (Nat.lt_succ_self 2)
  · exact Nat.lt_succ_self 2

theorem afterMagic_eq_ok {magic : U8Array 4} {s : F.State} :
    F.afterMagic magic = .ok s ↔ magic = psbtMagic ∧ s = .separator := by
  unfold afterMagic
  split
  · rename_i hmagic
    simp [hmagic, eq_comm]
  · rename_i hmagic
    simp [hmagic]

theorem afterSeparator_eq_ok {sep : UInt8} {s : F.State} :
    F.afterSeparator sep = .ok s ↔
      sep = psbtHeaderSeparator ∧ s = .global F.globalDecoder.init := by
  unfold afterSeparator
  split
  · rename_i hsep
    simp [hsep, eq_comm]
  · rename_i hsep
    simp [hsep]

theorem isErr_finish {s : F.State} (h : W.Waiting s) : (F.decoder.finish s).IsErr := by
  cases s with
  | magic d => exact ⟨.earlyEnd "magic", rfl⟩
  | separator => exact ⟨.earlyEnd "separator", rfl⟩
  | global d => exact ⟨.earlyEnd "global", rfl⟩
  | inputs g d => exact ⟨.earlyEnd "inputs", rfl⟩
  | outputs g inputs d => exact ⟨.earlyEnd "outputs", rfl⟩
  | done psbt => exact absurd h id

theorem active_of_waiting {s : F.State} (h : W.Waiting s) : W.Active s := by
  cases s with
  | magic d => exact .inr h
  | separator => trivial
  | global d => exact .inr h
  | inputs g d => exact .inr h
  | outputs g inputs d => exact .inr h
  | done psbt => trivial

theorem push_separator_nil :
    F.decoder.push .separator [] = .ok (.separator, [], .needsMore) :=
  StagedLoop.push_stop rfl

theorem push_done (psbt : Psbt) (b : Bytes) :
    F.decoder.push (.done psbt) b = .ok (.done psbt, b, .ready) :=
  StagedLoop.push_stop rfl

/-- Any other byte is refused. -/
theorem push_separator_of_ne {sep : UInt8} (hne : sep ≠ psbtHeaderSeparator) (r : Bytes) :
    F.decoder.push .separator (sep :: r) = .err (.invalidSeparator sep) := by
  have hstep : F.step .separator (sep :: r) = .err (.invalidSeparator sep) := by
    rw [step, afterSeparator, if_neg hne]
    rfl
  exact StagedLoop.push_error hstep

variable (h : W.Lawful)

include h

/-- Every round enters a later stage. -/
theorem progress : F.stagedLoop.Progress W.Active := by
  apply StagedLoop.Progress.of_rank
  · exact .inl rfl
  · exact rank_le
  · intro s a next r hs hstep
    change F.step s a = _ at hstep
    cases s with
    | magic d =>
        rcases Result.bind_eq_ok.mp hstep with ⟨⟨d', r', st⟩, hpush, hrest⟩
        rw [Result.expect_eq_ok] at hpush
        cases st with
        | needsMore => cases hrest
        | ready =>
            have hle := (h.magic.rest_isSuffix hs hpush).length_le
            rcases Result.bind_eq_ok.mp hrest with ⟨s', hnext, heq⟩
            rcases Result.bind_eq_ok.mp hnext with ⟨magic, _, hk⟩
            rcases afterMagic_eq_ok.mp hk with ⟨_, rfl⟩
            cases heq
            exact ⟨trivial, hle, Nat.lt_succ_self 4⟩
    | separator =>
        cases a with
        | nil => cases hstep
        | cons sep rest =>
            rcases Result.bind_eq_ok.mp hstep with ⟨s', hnext, heq⟩
            rcases afterSeparator_eq_ok.mp hnext with ⟨_, rfl⟩
            cases heq
            exact ⟨.inl rfl, Nat.le_succ _, Nat.lt_succ_self 3⟩
    | global d =>
        rcases Result.bind_eq_ok.mp hstep with ⟨⟨d', r', st⟩, hpush, hrest⟩
        rw [Result.mapErr_eq_ok] at hpush
        cases st with
        | needsMore => cases hrest
        | ready =>
            have hle := (h.global.rest_isSuffix hs hpush).length_le
            rcases Result.bind_eq_ok.mp hrest with ⟨s', hnext, heq⟩
            rcases Result.bind_eq_ok.mp hnext with ⟨g, _, hk⟩
            cases hk
            cases heq
            exact ⟨active_afterGlobal g, hle, rank_afterGlobal g⟩
    | inputs g d =>
        rcases Result.bind_eq_ok.mp hstep with ⟨⟨d', r', st⟩, hpush, hrest⟩
        rw [Result.mapErr_eq_ok] at hpush
        cases st with
        | needsMore => cases hrest
        | ready =>
            have hle := ((h.inputs g).rest_isSuffix hs hpush).length_le
            rcases Result.bind_eq_ok.mp hrest with ⟨s', hnext, heq⟩
            rcases Result.bind_eq_ok.mp hnext with ⟨inputs, _, hk⟩
            cases hk
            cases heq
            exact ⟨active_afterInputs g _, hle, rank_afterInputs g _⟩
    | outputs g inputs d =>
        rcases Result.bind_eq_ok.mp hstep with ⟨⟨d', r', st⟩, hpush, hrest⟩
        rw [Result.mapErr_eq_ok] at hpush
        cases st with
        | needsMore => cases hrest
        | ready =>
            have hle := ((h.outputs g).rest_isSuffix hs hpush).length_le
            rcases Result.bind_eq_ok.mp hrest with ⟨s', hnext, heq⟩
            rcases Result.bind_eq_ok.mp hnext with ⟨outputs, _, hk⟩
            cases hk
            cases heq
            exact ⟨trivial, hle, Nat.zero_lt_one⟩
    | done psbt => cases hstep

theorem stage_magic : F.decoder.Stage magicDecoder W.magic State.magic F.afterMagic := by
  have hactive : ∀ {p}, magicDecoder.Live W.magic p → W.Active (.magic p) := fun hp => hp
  apply (progress h).stage_of_live (fun _ => .unconsumed) (fun _ => .unconsumed) hactive
  intro p hp b
  change ((magicDecoder.push p b).expect >>= _) = _
  rcases h.neverFails.push hp b with ⟨⟨p', r, st⟩, hpush⟩
  rw [hpush]
  cases st with
  | needsMore => rfl
  | ready =>
      rcases h.neverFails.finish hp hpush with ⟨magic, hfin⟩
      change ((magicDecoder.finish p').expect >>= _) >>= _ =
        ((magicDecoder.finish p').mapErr _ >>= _) >>= _
      rw [hfin]
      rfl

theorem stage_global : F.decoder.Stage F.globalDecoder W.global State.global
    fun g => .ok (F.afterGlobal g) :=
  (progress h).stage .decodeGlobal .decodeGlobal (fun hp => hp) fun _ _ => rfl

theorem stage_inputs (g : G) : F.decoder.Stage (F.inputsDecoder g) (W.inputs g) (State.inputs g)
    fun inputs => .ok (F.afterInputs g (F.takeInputs g inputs)) :=
  (progress h).stage .decodeInputs .decodeInputs (fun hp => hp) fun _ _ => rfl

theorem stage_outputs (g : G) (inputs : List Input) :
    F.decoder.Stage (F.outputsDecoder g) (W.outputs g) (State.outputs g inputs)
      fun outputs => .ok (.done ⟨F.global g, inputs, F.takeOutputs g outputs⟩) :=
  (progress h).stage .decodeOutputs .decodeOutputs (fun hp => hp) fun _ _ => rfl

/-- The separator byte enters the global map. -/
theorem push_separator (r : Bytes) :
    F.decoder.push .separator (psbtHeaderSeparator :: r) =
      F.decoder.push (.global F.globalDecoder.init) r := by
  have hstep : F.step .separator (psbtHeaderSeparator :: r) =
      .ok (.global F.globalDecoder.init, r, .again) := by
    rw [step, afterSeparator, if_pos rfl]
    rfl
  exact (progress h).push_again (s := State.separator) trivial hstep

theorem lawfulAt_separator (a : Bytes)
    (hglobal : ∀ {r}, r.length < a.length →
      F.decoder.LawfulAt W.Waiting (.global F.globalDecoder.init) r) :
    F.decoder.LawfulAt W.Waiting .separator a := by
  cases a with
  | nil => exact .of_wait push_separator_nil trivial fun _ => rfl
  | cons sep r =>
      by_cases hsep : sep = psbtHeaderSeparator
      · subst hsep
        apply PushDecoder.LawfulAt.of_skip (c := [psbtHeaderSeparator])
          ?_ (hglobal (Nat.lt_succ_self r.length))
        intro b
        exact congrArg Result.erase (push_separator h b)
      · apply PushDecoder.LawfulAt.of_fail
        intro b
        rw [List.cons_append, push_separator_of_ne hsep]
        rfl

theorem lawfulOn_decoder : F.decoder.LawfulOn W.Waiting := by
  have hprog := progress h
  apply hprog.lawfulOn active_of_waiting
  · intro s hs a ih
    cases s with
    | magic d =>
        apply (stage_magic h).lawfulAt h.magic (fun hw => hw) hs
        intro p' r magic next hpush _ hk
        rcases afterMagic_eq_ok.mp hk with ⟨_, rfl⟩
        have hle := (h.magic.rest_isSuffix hs hpush).length_le
        exact ih trivial (StagedLoop.measure_lt_of_rank hle (Nat.lt_succ_self 4))
    | separator =>
        apply lawfulAt_separator h
        intro r hlt
        exact ih (.inl rfl) (hprog.measure_lt_of_length hlt)
    | global d =>
        apply (stage_global h).lawfulAt h.global (fun hw => hw) hs
        intro p' r g next hpush _ hk
        cases hk
        have hle := (h.global.rest_isSuffix hs hpush).length_le
        exact ih (active_afterGlobal g) (StagedLoop.measure_lt_of_rank hle (rank_afterGlobal g))
    | inputs g d =>
        apply (stage_inputs h g).lawfulAt (h.inputs g) (fun hw => hw) hs
        intro p' r inputs next hpush _ hk
        cases hk
        have hle := ((h.inputs g).rest_isSuffix hs hpush).length_le
        exact ih (active_afterInputs g _)
          (StagedLoop.measure_lt_of_rank hle (rank_afterInputs g _))
    | outputs g inputs d =>
        apply (stage_outputs h g inputs).lawfulAt (h.outputs g) (fun hw => hw) hs
        intro p' r outputs next hpush _ hk
        cases hk
        have hle := ((h.outputs g).rest_isSuffix hs hpush).length_le
        exact ih trivial (StagedLoop.measure_lt_of_rank hle Nat.zero_lt_one)
    | done psbt =>
        apply PushDecoder.LawfulAt.of_done (c := [])
        intro b
        exact push_done psbt b
  · intro s hs
    cases s with
    | magic d => exact (stage_magic h).push_needsMore (.inr hs) (h.magic.idle hs)
    | separator => exact push_separator_nil
    | global d => exact (stage_global h).push_needsMore (.inr hs) (h.global.idle hs)
    | inputs g d => exact (stage_inputs h g).push_needsMore (.inr hs) ((h.inputs g).idle hs)
    | outputs g inputs d =>
        exact (stage_outputs h g inputs).push_needsMore (.inr hs) ((h.outputs g).idle hs)
    | done psbt => exact absurd hs id
  · exact isErr_finish

omit h in
theorem meaningFrom_done (psbt : Psbt) (b : Bytes) :
    F.decoder.meaningFrom (.done psbt) b = .ok (F.atEnd psbt, b) := by
  unfold PushDecoder.meaningFrom PushDecoder.runFrom
  rw [push_done]
  rfl

theorem meaningFrom_separator {b r : Bytes} {a : α} :
    F.decoder.meaningFrom .separator b = .ok (a, r) ↔ ∃ m, b = psbtHeaderSeparator :: m ∧
      F.decoder.meaningFrom (.global F.globalDecoder.init) m = .ok (a, r) := by
  unfold PushDecoder.meaningFrom PushDecoder.runFrom
  cases b with
  | nil =>
      rw [push_separator_nil]
      simp [decoder, stagedLoop, StagedLoop.decoder, finish]
  | cons sep m =>
      by_cases hsep : sep = psbtHeaderSeparator
      · subst hsep
        rw [push_separator h]
        simp
      · rw [push_separator_of_ne hsep]
        simp [hsep]

theorem meaningFrom_outputs {g : G} {inputs : List Input} {b r : Bytes} {a : α} :
    F.decoder.meaningFrom (.outputs g inputs (F.outputsDecoder g).init) b = .ok (a, r) ↔
      ∃ outputs, (F.outputsDecoder g).Accepts b outputs r ∧
        a = F.atEnd ⟨F.global g, inputs, F.takeOutputs g outputs⟩ := by
  have hearly : ∀ {d}, W.outputs g d → (F.decoder.finish (.outputs g inputs d)).IsErr :=
    fun {d} hd => isErr_finish (s := .outputs g inputs d) hd
  rw [(stage_outputs h g inputs).meaningFrom_eq_ok (h.outputs g) hearly]
  constructor
  · rintro ⟨outputs, m, s, hacc, hnext, hrest⟩
    cases hnext
    rw [meaningFrom_done] at hrest
    cases hrest
    exact ⟨outputs, hacc, rfl⟩
  · rintro ⟨outputs, hacc, rfl⟩
    exact ⟨outputs, r, _, hacc, rfl, meaningFrom_done _ r⟩

end Laws

/-! ## What the decoder accepts -/

section Meaning

variable [LawfulCodecs] {F : PsbtFormat G I O α}

omit [BitcoinTypes] [BitcoinCodecs] [LawfulCodecs] in
theorem exists_array_prefix {n : Nat} {b : Bytes} (h : n ≤ b.length) :
    ∃ (a : U8Array n) (r : Bytes), b = a.bytes ++ r :=
  ⟨⟨b.take n, List.length_take_of_le h⟩, b.drop n, (List.take_append_drop n b).symm⟩

/-- Every stream of bytes extends to one that starts with four bytes. -/
theorem exists_accepts_magic (b : Bytes) :
    ∃ c magic r, magicDecoder.Accepts (b ++ c) magic r := by
  have hlen : 4 ≤ (b ++ List.replicate 4 0).length := by
    rw [List.length_append, List.length_replicate]
    omega
  rcases exists_array_prefix hlen with ⟨magic, r, heq⟩
  exact ⟨List.replicate 4 0, magic, r, LawfulCodecs.array_accepts.mpr heq⟩

namespace Lawful

theorem exists_waits (h : F.Lawful) : ∃ W : F.Waits, W.Lawful := by
  rcases (LawfulCodecs.array_sound (n := 4) (by decide)).lawful with ⟨WM, hM⟩
  rcases h.global_lawful with ⟨WG, hG⟩
  have hI : ∀ g, (F.inputsDecoder g).Lawful := fun _ =>
    LawfulCodecs.exactVec_lawful h.input_lawful h.input_strict
  have hO : ∀ g, (F.outputsDecoder g).Lawful := fun _ =>
    LawfulCodecs.exactVec_lawful h.output_lawful h.output_strict
  choose WI hI using hI
  choose WO hO using hO
  exact ⟨⟨magicDecoder.Reached WM, WG, WI, WO⟩, hM.reached,
    hM.neverFails exists_accepts_magic, hG, hI, hO⟩

theorem lawful_decoder (h : F.Lawful) : F.decoder.Lawful := by
  rcases h.exists_waits with ⟨W, hW⟩
  exact ⟨_, lawfulOn_decoder hW⟩

omit [LawfulCodecs] in
theorem strict_decoder [LawfulCodecs] (h : F.Lawful) : F.decoder.Strict where
  idle := by
    rcases h.exists_waits with ⟨W, hW⟩
    have hstrict := (LawfulCodecs.array_sound (n := 4) (by decide)).strict
    exact (stage_magic hW).push_idle hW.magic hstrict (.inl rfl)
  early := ⟨.earlyEnd "magic", rfl⟩

/-- The inputs of a global map are as many as it counts. -/
theorem accepts_inputsDecoder (h : F.Lawful) {g : G} {b r : Bytes} {inputs : List I} :
    (F.inputsDecoder g).Accepts b inputs r ↔ inputs.length = F.inputCount g ∧
      ∃ ws, b = ws.flatten ++ r ∧ List.Forall₂ F.inputDecoder.Decodes ws inputs :=
  accepts_exactVec h.input_lawful h.input_strict

theorem accepts_outputsDecoder (h : F.Lawful) {g : G} {b r : Bytes} {outputs : List O} :
    (F.outputsDecoder g).Accepts b outputs r ↔ outputs.length = F.outputCount g ∧
      ∃ ws, b = ws.flatten ++ r ∧ List.Forall₂ F.outputDecoder.Decodes ws outputs :=
  accepts_exactVec h.output_lawful h.output_strict

section

variable {W : F.Waits} (h : F.Lawful) (hW : W.Lawful)

include h hW

/-- Skipping the outputs reads none. -/
theorem meaningFrom_afterInputs {g : G} {inputs : List Input} {b r : Bytes} {a : α} :
    F.decoder.meaningFrom (F.afterInputs g inputs) b = .ok (a, r) ↔
      ∃ outputs, (F.outputsDecoder g).Accepts b outputs r ∧
        a = F.atEnd ⟨F.global g, inputs, F.takeOutputs g outputs⟩ := by
  unfold afterInputs
  split
  · rename_i hskip
    have hcount : F.outputCount g = 0 := by simpa using (Bool.and_eq_true_iff.mp hskip).2
    rw [meaningFrom_done]
    constructor
    · intro heq
      cases heq
      refine ⟨[], h.accepts_outputsDecoder.mpr ⟨hcount.symm, [], rfl, .nil⟩, ?_⟩
      rw [h.takeOutputs_nil]
    · rintro ⟨outputs, hacc, rfl⟩
      rcases h.accepts_outputsDecoder.mp hacc with ⟨hlen, ws, rfl, hall⟩
      rw [hcount, List.length_eq_zero_iff] at hlen
      subst hlen
      cases hall
      rw [h.takeOutputs_nil]
      rfl
  · exact PsbtFormat.meaningFrom_outputs hW

theorem meaningFrom_inputs {g : G} {b r : Bytes} {a : α} :
    F.decoder.meaningFrom (.inputs g (F.inputsDecoder g).init) b = .ok (a, r) ↔
      ∃ inputs m outputs, (F.inputsDecoder g).Accepts b inputs m ∧
        (F.outputsDecoder g).Accepts m outputs r ∧
          a = F.atEnd ⟨F.global g, F.takeInputs g inputs, F.takeOutputs g outputs⟩ := by
  have hearly : ∀ {d}, W.inputs g d → (F.decoder.finish (.inputs g d)).IsErr :=
    fun {d} hd => isErr_finish (s := .inputs g d) hd
  rw [(stage_inputs hW g).meaningFrom_eq_ok (hW.inputs g) hearly]
  constructor
  · rintro ⟨inputs, m, s, hacc, hnext, hrest⟩
    cases hnext
    rcases (h.meaningFrom_afterInputs hW).mp hrest with ⟨outputs, houtputs, rfl⟩
    exact ⟨inputs, m, outputs, hacc, houtputs, rfl⟩
  · rintro ⟨inputs, m, outputs, hacc, houtputs, rfl⟩
    exact ⟨inputs, m, _, hacc, rfl, (h.meaningFrom_afterInputs hW).mpr ⟨outputs, houtputs, rfl⟩⟩

/-- Skipping the inputs reads none. -/
theorem meaningFrom_afterGlobal {g : G} {b r : Bytes} {a : α} :
    F.decoder.meaningFrom (F.afterGlobal g) b = .ok (a, r) ↔
      ∃ inputs m outputs, (F.inputsDecoder g).Accepts b inputs m ∧
        (F.outputsDecoder g).Accepts m outputs r ∧
          a = F.atEnd ⟨F.global g, F.takeInputs g inputs, F.takeOutputs g outputs⟩ := by
  unfold afterGlobal
  split
  · rename_i hskip
    have hcount : F.inputCount g = 0 := by simpa using (Bool.and_eq_true_iff.mp hskip).2
    rw [h.meaningFrom_afterInputs hW]
    constructor
    · rintro ⟨outputs, houtputs, rfl⟩
      refine ⟨[], b, outputs, ?_, houtputs, ?_⟩
      · exact h.accepts_inputsDecoder.mpr ⟨hcount.symm, [], rfl, .nil⟩
      · rw [h.takeInputs_nil]
    · rintro ⟨inputs, m, outputs, hacc, houtputs, rfl⟩
      rcases h.accepts_inputsDecoder.mp hacc with ⟨hlen, ws, rfl, hall⟩
      rw [hcount, List.length_eq_zero_iff] at hlen
      subst hlen
      cases hall
      rw [h.takeInputs_nil]
      exact ⟨outputs, houtputs, rfl⟩
  · exact h.meaningFrom_inputs hW

theorem meaningFrom_global {b r : Bytes} {a : α} :
    F.decoder.meaningFrom (.global F.globalDecoder.init) b = .ok (a, r) ↔
      ∃ g m₁ inputs m₂ outputs, F.globalDecoder.Accepts b g m₁ ∧
        (F.inputsDecoder g).Accepts m₁ inputs m₂ ∧ (F.outputsDecoder g).Accepts m₂ outputs r ∧
          a = F.atEnd ⟨F.global g, F.takeInputs g inputs, F.takeOutputs g outputs⟩ := by
  have hearly : ∀ {d}, W.global d → (F.decoder.finish (.global d)).IsErr :=
    fun {d} hd => isErr_finish (s := .global d) hd
  rw [(stage_global hW).meaningFrom_eq_ok hW.global hearly]
  constructor
  · rintro ⟨g, m₁, s, hacc, hnext, hrest⟩
    cases hnext
    rcases (h.meaningFrom_afterGlobal hW).mp hrest with ⟨inputs, m₂, outputs, hin, hout, rfl⟩
    exact ⟨g, m₁, inputs, m₂, outputs, hacc, hin, hout, rfl⟩
  · rintro ⟨g, m₁, inputs, m₂, outputs, hacc, hin, hout, rfl⟩
    refine ⟨g, m₁, _, hacc, rfl, ?_⟩
    exact (h.meaningFrom_afterGlobal hW).mpr ⟨inputs, m₂, outputs, hin, hout, rfl⟩

end

/-- The decoder takes the magic bytes, the separator and the maps, one after the other. -/
theorem accepts_iff (h : F.Lawful) {b r : Bytes} {a : α} : F.decoder.Accepts b a r ↔
    ∃ m g m₁ inputs m₂ outputs, b = psbtMagicBytes ++ m ∧ F.globalDecoder.Accepts m g m₁ ∧
      (F.inputsDecoder g).Accepts m₁ inputs m₂ ∧ (F.outputsDecoder g).Accepts m₂ outputs r ∧
        a = F.atEnd ⟨F.global g, F.takeInputs g inputs, F.takeOutputs g outputs⟩ := by
  rcases h.exists_waits with ⟨W, hW⟩
  have hearly : ∀ {d}, W.magic d → (F.decoder.finish (.magic d)).IsErr :=
    fun {d} hd => isErr_finish (s := .magic d) hd
  rw [← PushDecoder.meaning_eq_ok]
  change F.decoder.meaningFrom (.magic magicDecoder.init) b = _ ↔ _
  rw [(stage_magic hW).meaningFrom_eq_ok hW.magic hearly]
  constructor
  · rintro ⟨magic, m, s, hacc, hnext, hrest⟩
    rcases afterMagic_eq_ok.mp hnext with ⟨rfl, rfl⟩
    rcases (meaningFrom_separator hW).mp hrest with ⟨m', rfl, hglobal⟩
    rcases (h.meaningFrom_global hW).mp hglobal with ⟨g, m₁, inputs, m₂, outputs, hmaps⟩
    exact ⟨m', g, m₁, inputs, m₂, outputs, LawfulCodecs.array_accepts.mp hacc, hmaps⟩
  · rintro ⟨m, g, m₁, inputs, m₂, outputs, rfl, hmaps⟩
    refine ⟨psbtMagic, psbtHeaderSeparator :: m, .separator, ?_, ?_, ?_⟩
    · exact LawfulCodecs.array_accepts.mpr rfl
    · exact afterMagic_eq_ok.mpr ⟨rfl, rfl⟩
    · refine (meaningFrom_separator hW).mpr ⟨m, rfl, ?_⟩
      exact (h.meaningFrom_global hW).mpr ⟨g, m₁, inputs, m₂, outputs, hmaps⟩

/-- All of the bytes are the magic bytes, the separator and the bytes of each map. -/
theorem decodes_iff (h : F.Lawful) {b : Bytes} {a : α} : F.decoder.Decodes b a ↔
    ∃ g inputs outputs wg wi wo, b = psbtMagicBytes ++ (wg ++ (wi.flatten ++ wo.flatten)) ∧
      F.globalDecoder.Decodes wg g ∧
        (inputs.length = F.inputCount g ∧ List.Forall₂ F.inputDecoder.Decodes wi inputs) ∧
          (outputs.length = F.outputCount g ∧ List.Forall₂ F.outputDecoder.Decodes wo outputs) ∧
            a = F.atEnd ⟨F.global g, F.takeInputs g inputs, F.takeOutputs g outputs⟩ := by
  refine h.accepts_iff.trans ?_
  constructor
  · rintro ⟨m, g, m₁, inputs, m₂, outputs, rfl, hg, hin, hout, rfl⟩
    rcases h.accepts_inputsDecoder.mp hin with ⟨hlenIn, wi, rfl, hallIn⟩
    rcases h.accepts_outputsDecoder.mp hout with ⟨hlenOut, wo, rfl, hallOut⟩
    rcases h.global_lawful.accepts_iff.mp hg with ⟨wg, rfl, hdec⟩
    refine ⟨g, inputs, outputs, wg, wi, wo, ?_, hdec, ⟨hlenIn, hallIn⟩, ⟨hlenOut, hallOut⟩, rfl⟩
    rw [List.append_nil]
  · rintro ⟨g, inputs, outputs, wg, wi, wo, rfl, hg, ⟨hlenIn, hallIn⟩, ⟨hlenOut, hallOut⟩, rfl⟩
    refine ⟨_, g, wi.flatten ++ wo.flatten, inputs, wo.flatten, outputs, rfl, ?_, ?_, ?_, rfl⟩
    · exact h.global_lawful.accepts_append hg _
    · exact h.accepts_inputsDecoder.mpr ⟨hlenIn, wi, rfl, hallIn⟩
    · refine h.accepts_outputsDecoder.mpr ⟨hlenOut, wo, ?_, hallOut⟩
      rw [List.append_nil]

/-- Bytes deserialize when all of them are decoded. -/
theorem deserialize_eq_ok (h : F.Lawful) {b : Bytes} {a : α} :
    F.deserialize b = .ok a ↔ F.decoder.Decodes b a := by
  unfold deserialize
  rw [Result.mapErr_eq_ok, LawfulCodecs.decodeFromSlice_eq b h.lawful_decoder h.strict_decoder,
    Result.bind_eq_ok]
  simp only [Result.mapErr_eq_ok]
  constructor
  · rintro ⟨⟨a', r⟩, hrun, hrest⟩
    split at hrest
    · rename_i hnil
      cases hrest
      have hr : r = [] := hnil
      subst hr
      exact hrun
    · cases hrest
  · intro hdec
    exact ⟨(a, []), hdec, rfl⟩

end Lawful

end Meaning

end PsbtFormat

end RustPsbt
