import RustPsbt.Encoding.Prefixed
import RustPsbt.Library.StagedLoop

/-!
# Tap key origins

A tap key origin is a counted list of leaf hashes followed by a key source.  Its decoder
counts the announced length down by hand, and panics when an item is longer than what
is left of it.

Main results:

- Theorem `valueCodec_tapKeyOrigin`: the decoder and the encoder match.
- Theorem `returns_tapKeyOrigin`: the decoder panics exactly when the announced length
  cuts through an item.
-/

namespace RustPsbt

variable [BitcoinTypes] [BitcoinCodecs]

/-! ## The decoder -/

/-- `TapKeyOriginDecodeError`. -/
inductive TapKeyOriginDecodeError where
  | lengthPrefix (e : ExtError)
  | count (e : ExtError)
  | leafHash (e : ExtError)
  | fingerprint (e : ExtError)
  | pathStep (e : ExtError)
  | missingFingerprint
  | earlyEnd

namespace TapKeyOriginDecoder

/-- `tap_key_origin::ValueStage`. -/
inductive ValueStage where
  | count (decoder : (compactSizeDecoder : PushDecoder UInt8 ExtError Nat).State)
  | leafHash (decoder : (arrayDecoder 32 : PushDecoder UInt8 ExtError (U8Array 32)).State)
      (count : Nat)
  | fingerprint (decoder : (arrayDecoder 4 : PushDecoder UInt8 ExtError (U8Array 4)).State)
  | pathStep (decoder : (arrayDecoder 4 : PushDecoder UInt8 ExtError (U8Array 4)).State)

/-- `tap_key_origin::Stage`. -/
inductive Stage where
  | readingPrefix (decoder : (compactSizeDecoder : PushDecoder UInt8 ExtError Nat).State)
  | readingValue (remaining : Nat) (inner : ValueStage)
  | done

/-- The fields of `TapKeyOriginDecoder`. -/
structure State where
  stage : Stage
  leafHashes : List TapLeafHash
  fingerprint : Option Fingerprint
  pathSteps : List ChildNumber

/-- What follows the count. -/
def afterCount (count : Nat) : ValueStage :=
  if count = 0 then .fingerprint (arrayDecoder 4).init else .leafHash (arrayDecoder 32).init count

/-- A complete leaf hash. -/
def pushLeafHash (self : State) (remaining count : Nat) (hash : U8Array 32) :
    Result TapKeyOriginDecodeError State := do
  let leafHashes := self.leafHashes ++ [hash]
  let remaining ← Result.checkedSub remaining 32
  .ok { self with
    leafHashes := leafHashes
    stage := .readingValue remaining (if leafHashes.length = count
      then .fingerprint (arrayDecoder 4).init else .leafHash (arrayDecoder 32).init count) }

/-- What follows the fingerprint or a path step when `remaining` bytes are left. -/
def nextStep (remaining : Nat) : Stage :=
  if remaining = 0 then .done else .readingValue remaining (.pathStep (arrayDecoder 4).init)

/-- A complete fingerprint. -/
def setFingerprint (self : State) (remaining : Nat) (fingerprint : U8Array 4) :
    Result TapKeyOriginDecodeError State := do
  let remaining ← Result.checkedSub remaining 4
  .ok { self with fingerprint := some fingerprint, stage := nextStep remaining }

/-- A complete path step. -/
def pushPathStep (self : State) (remaining : Nat) (step : U8Array 4) :
    Result TapKeyOriginDecodeError State := do
  let pathSteps := self.pathSteps ++ [u32FromLeBytes step]
  let remaining ← Result.checkedSub remaining 4
  .ok { self with pathSteps := pathSteps, stage := nextStep remaining }

/-- The stage `ReadingValue` of one round of the loop. -/
def valueStep (self : State) (remaining : Nat) (b : Bytes) :
    ValueStage → Result TapKeyOriginDecodeError (State × Bytes)
  | .count decoder => do
      let x ← (compactSizeDecoder.push decoder b).mapErr .count
      let remaining ← Result.checkedSub remaining (b.length - x.2.1.length)
      match x.2.2 with
      | .needsMore => .ok ({ self with stage := .readingValue remaining (.count x.1) }, x.2.1)
      | .ready => do
          let count ← (compactSizeDecoder.finish x.1).mapErr .count
          .ok ({ self with stage := .readingValue remaining (afterCount count) }, x.2.1)
  | .leafHash decoder count => do
      let x ← ((arrayDecoder 32).push decoder b).mapErr .leafHash
      match x.2.2 with
      | .needsMore =>
          .ok ({ self with stage := .readingValue remaining (.leafHash x.1 count) }, x.2.1)
      | .ready => do
          let next ← ((arrayDecoder 32).finish x.1).mapErr .leafHash >>=
            pushLeafHash self remaining count
          .ok (next, x.2.1)
  | .fingerprint decoder => do
      let x ← ((arrayDecoder 4).push decoder b).mapErr .fingerprint
      match x.2.2 with
      | .needsMore =>
          .ok ({ self with stage := .readingValue remaining (.fingerprint x.1) }, x.2.1)
      | .ready => do
          let next ← ((arrayDecoder 4).finish x.1).mapErr .fingerprint >>=
            setFingerprint self remaining
          .ok (next, x.2.1)
  | .pathStep decoder => do
      let x ← ((arrayDecoder 4).push decoder b).mapErr .pathStep
      match x.2.2 with
      | .needsMore =>
          .ok ({ self with stage := .readingValue remaining (.pathStep x.1) }, x.2.1)
      | .ready => do
          let next ← ((arrayDecoder 4).finish x.1).mapErr .pathStep >>=
            pushPathStep self remaining
          .ok (next, x.2.1)

/-- How the loop goes on after the stage `ReadingValue`. -/
def flowAfter (stage : Stage) (b : Bytes) : Flow :=
  match stage with
  | .done => .stop .ready
  | _ => if b.isEmpty then .stop .needsMore else .again

/-- One round of the loop in `push_bytes`. -/
def step (self : State) (b : Bytes) :
    Result TapKeyOriginDecodeError (State × Bytes × Flow) :=
  match self.stage with
  | .readingPrefix decoder => do
      let x ← (compactSizeDecoder.push decoder b).mapErr .lengthPrefix
      match x.2.2 with
      | .needsMore =>
          .ok ({ self with stage := .readingPrefix x.1 }, x.2.1, .stop .needsMore)
      | .ready => do
          let length ← (compactSizeDecoder.finish x.1).mapErr .lengthPrefix
          .ok ({ self with stage := .readingValue length (.count compactSizeDecoder.init) },
            x.2.1, .again)
  | .readingValue remaining inner => do
      let x ← valueStep self remaining b inner
      .ok (x.1, x.2, flowAfter x.1.stage x.2)
  | .done => .ok (self, b, .stop .ready)

/-- `TapKeyOriginDecoder::end`. -/
def finish (self : State) : Result TapKeyOriginDecodeError TapKeyOrigin :=
  match self.stage with
  | .done => do
      let fingerprint ← Result.okOr .missingFingerprint self.fingerprint
      .ok (self.leafHashes, fingerprint, self.pathSteps)
  | _ => .err .earlyEnd

/-- `TapKeyOriginDecoder::read_limit`. -/
def readLimit (self : State) : Nat :=
  match self.stage with
  | .readingPrefix decoder => compactSizeDecoder.readLimit decoder
  | .readingValue remaining _ => remaining
  | .done => 0

/-- The loop of `TapKeyOriginDecoder`; every round but the last takes bytes. -/
def stagedLoop : StagedLoop UInt8 TapKeyOriginDecodeError TapKeyOrigin where
  State := State
  init := ⟨.readingPrefix compactSizeDecoder.init, [], none, []⟩
  step := step
  finish := finish
  readLimit := readLimit
  rank _ := 0
  maxRank := 0

end TapKeyOriginDecoder

open TapKeyOriginDecoder

/-- Where the reader stands after the item that the length cuts through, when `hashes`
leaf hashes and a key source are to come and `remaining` bytes of the length are left. -/
def cutItemEnd (hashes remaining : Nat) : Option Nat :=
  if remaining < 32 * hashes then some (32 * (remaining / 32 + 1))
  else if remaining < 32 * hashes + 4 then some (32 * hashes + 4)
  else if remaining % 4 ≠ 0 then some (remaining + (4 - remaining % 4))
  else none

/-- The announced length ends inside of the count or of a later item, and the stream goes
on to where the reader notices. -/
def CutOrigin (declared : Nat) (b : Bytes) : Prop :=
  (∃ tag, b.head? = some tag ∧ declared < min (compactSizeWidth tag) b.length) ∨
    ∃ count r e, b = compactSize count ++ r ∧ count ≤ compactSizeLimit ∧
      varIntSize count ≤ declared ∧
        cutItemEnd count (declared - varIntSize count) = some e ∧ e ≤ r.length

omit [BitcoinTypes] [BitcoinCodecs] in
/-- An item is cut after a leaf hash when it is cut behind it. -/
theorem cutItemEnd_succ (n remaining len : Nat) :
    (32 ≤ len → 32 ≤ remaining ∧
        ¬∃ e, cutItemEnd n (remaining - 32) = some e ∧ e ≤ len - 32) ↔
      ¬∃ e, cutItemEnd (n + 1) remaining = some e ∧ e ≤ len := by
  unfold cutItemEnd
  split_ifs <;> simp only [Option.some.injEq, exists_eq_left', false_and, exists_false,
    not_false_eq_true, and_true, iff_true] <;> omega

/-- `TapKeyOriginDecoder`. -/
def tapKeyOriginDecoder : PushDecoder UInt8 TapKeyOriginDecodeError TapKeyOrigin :=
  stagedLoop.decoder

/-- The bytes of leaf hashes. -/
def leafHashBytes (hashes : List TapLeafHash) : Bytes :=
  hashes.flatMap U8Array.bytes

/-- The bytes of `LeafHashVecKeySourceEncoder`. -/
def tapKeyOriginBytes (origin : TapKeyOrigin) : Bytes :=
  compactSize origin.1.length ++ (leafHashBytes origin.1 ++ keySourceBytes origin.2)

omit [BitcoinTypes] [BitcoinCodecs] in
@[simp]
theorem length_leafHashBytes (hashes : List TapLeafHash) :
    (leafHashBytes hashes).length = 32 * hashes.length :=
  U8Array.length_flatMap_bytes hashes

namespace TapKeyOriginDecoder

variable {WC : (compactSizeDecoder : PushDecoder UInt8 ExtError Nat).State → Prop}
  {WH : (arrayDecoder 32 : PushDecoder UInt8 ExtError (U8Array 32)).State → Prop}
  {WA : (arrayDecoder 4 : PushDecoder UInt8 ExtError (U8Array 4)).State → Prop}

/-! ## Stages -/

/-- The inner decoder of the stage is fresh or waiting. -/
def ActiveStage (WC : (compactSizeDecoder : PushDecoder UInt8 ExtError Nat).State → Prop)
    (WH : (arrayDecoder 32 : PushDecoder UInt8 ExtError (U8Array 32)).State → Prop)
    (WA : (arrayDecoder 4 : PushDecoder UInt8 ExtError (U8Array 4)).State → Prop) :
    Stage → Prop
  | .readingPrefix decoder => compactSizeDecoder.Live WC decoder
  | .readingValue _ (.count decoder) => compactSizeDecoder.Live WC decoder
  | .readingValue _ (.leafHash decoder _) => (arrayDecoder 32).Live WH decoder
  | .readingValue _ (.fingerprint decoder) => (arrayDecoder 4).Live WA decoder
  | .readingValue _ (.pathStep decoder) => (arrayDecoder 4).Live WA decoder
  | .done => False

/-- The decoder is not done. -/
def Active (WC : (compactSizeDecoder : PushDecoder UInt8 ExtError Nat).State → Prop)
    (WH : (arrayDecoder 32 : PushDecoder UInt8 ExtError (U8Array 32)).State → Prop)
    (WA : (arrayDecoder 4 : PushDecoder UInt8 ExtError (U8Array 4)).State → Prop)
    (self : State) : Prop :=
  ActiveStage WC WH WA self.stage

/-- A stage of the value runs the decoder `D` in the states `emb p` and goes on with `k`. -/
def ValueStageOf {ε α : Type} (D : PushDecoder UInt8 ε α) (emb : D.State → State)
    (k : α → Result TapKeyOriginDecodeError State) : Prop :=
  ∃ g : ε → TapKeyOriginDecodeError, ∀ p b, ∃ remaining inner,
    (emb p).stage = .readingValue remaining inner ∧
      valueStep (emb p) remaining b inner = (D.push p b).mapErr g >>= fun x => match x.2.2 with
        | .needsMore => .ok (emb x.1, x.2.1)
        | .ready => ((D.finish x.1).mapErr g >>= k) >>= fun s => .ok (s, x.2.1)

/-- Reading the count draws on the announced length. -/
theorem valueStageOf_count (self : State) (declared : Nat) :
    ValueStageOf (compactSizeDecoder.budgeted declared)
      (fun p => { self with stage := .readingValue p.2 (.count p.1) })
      fun x => .ok { self with stage := .readingValue x.2 (afterCount x.1) } := by
  refine ⟨.count, fun p b => ⟨p.2, .count p.1, rfl, ?_⟩⟩
  simp only [valueStep, PushDecoder.budgeted, PushDecoder.tallied]
  cases hpush : compactSizeDecoder.push p.1 b with
  | error e => cases e <;> rfl
  | ok x =>
      rcases x with ⟨p', r, st⟩
      simp only [Result.mapErr_ok, Result.ok_bind]
      by_cases hle : b.length - r.length ≤ p.2
      · rw [Result.checkedSub_of_le hle, Result.checkedSub_of_le hle]
        cases st with
        | needsMore => rfl
        | ready =>
            simp only [Result.ok_bind, Result.mapErr_ok]
            cases compactSizeDecoder.finish p' with
            | ok count => rfl
            | error e => cases e <;> rfl
      · rw [Result.checkedSub_of_lt (by omega), Result.checkedSub_of_lt (by omega)]
        rfl

theorem valueStageOf_leafHash (self : State) (remaining count : Nat) :
    ValueStageOf (arrayDecoder 32)
      (fun p => { self with stage := .readingValue remaining (.leafHash p count) })
      (pushLeafHash self remaining count) :=
  ⟨.leafHash, fun p _ => ⟨remaining, .leafHash p count, rfl, rfl⟩⟩

theorem valueStageOf_fingerprint (self : State) (remaining : Nat) :
    ValueStageOf (arrayDecoder 4)
      (fun p => { self with stage := .readingValue remaining (.fingerprint p) })
      (setFingerprint self remaining) :=
  ⟨.fingerprint, fun p _ => ⟨remaining, .fingerprint p, rfl, rfl⟩⟩

theorem valueStageOf_pathStep (self : State) (remaining : Nat) :
    ValueStageOf (arrayDecoder 4)
      (fun p => { self with stage := .readingValue remaining (.pathStep p) })
      (pushPathStep self remaining) :=
  ⟨.pathStep, fun p _ => ⟨remaining, .pathStep p, rfl, rfl⟩⟩

/-- A stage of the value that is not done runs a strict decoder and enters such stages
only. -/
inductive InValueStage (WC : (compactSizeDecoder : PushDecoder UInt8 ExtError Nat).State → Prop)
    (WH : (arrayDecoder 32 : PushDecoder UInt8 ExtError (U8Array 32)).State → Prop)
    (WA : (arrayDecoder 4 : PushDecoder UInt8 ExtError (U8Array 4)).State → Prop) :
    State → Prop
  | intro {ε α : Type} {D : PushDecoder UInt8 ε α} {W : D.State → Prop}
      {emb : D.State → State} {k : α → Result TapKeyOriginDecodeError State} {p : D.State}
      (hD : D.LawfulOn W) (hstrict : D.Strict) (hp : D.Live W p)
      (hstage : ValueStageOf D emb k) (hemb : ∀ {p}, D.Live W p → Active WC WH WA (emb p))
      (hk : ∀ {a s}, k a = .ok s → s.stage ≠ .done → Active WC WH WA s) :
      InValueStage WC WH WA (emb p)

theorem active_nextStep {remaining : Nat} (h : nextStep remaining ≠ .done) :
    ActiveStage WC WH WA (nextStep remaining) := by
  unfold nextStep at h ⊢
  split_ifs at h ⊢
  · exact absurd rfl h
  · exact PushDecoder.LawfulOn.live_init

/-- A round that reads the length prefix. -/
theorem step_readingPrefix {self : State}
    {p : (compactSizeDecoder : PushDecoder UInt8 ExtError Nat).State}
    (h : self.stage = .readingPrefix p) (b : Bytes) :
    step self b = (compactSizeDecoder.push p b).mapErr .lengthPrefix >>= fun x => match x.2.2 with
      | .needsMore => .ok ({ self with stage := .readingPrefix x.1 }, x.2.1, .stop .needsMore)
      | .ready => ((compactSizeDecoder.finish x.1).mapErr .lengthPrefix >>= fun length =>
          .ok { self with stage := .readingValue length (.count compactSizeDecoder.init) }) >>=
            fun s => .ok (s, x.2.1, .again) := by
  simp only [step, h, bind_assoc, Result.ok_bind]

theorem pushLeafHash_eq_ok {self next : State} {remaining count : Nat} {hash : U8Array 32} :
    pushLeafHash self remaining count hash = .ok next ↔ 32 ≤ remaining ∧ next = { self with
      leafHashes := self.leafHashes ++ [hash]
      stage := .readingValue (remaining - 32)
        (if (self.leafHashes ++ [hash]).length = count then .fingerprint (arrayDecoder 4).init
          else .leafHash (arrayDecoder 32).init count) } := by
  exact Result.checkedSub_bind_eq_ok

theorem setFingerprint_eq_ok {self next : State} {remaining : Nat} {f : U8Array 4} :
    setFingerprint self remaining f = .ok next ↔ 4 ≤ remaining ∧
      next = { self with fingerprint := some f, stage := nextStep (remaining - 4) } := by
  exact Result.checkedSub_bind_eq_ok

theorem pushPathStep_eq_ok {self next : State} {remaining : Nat} {step : U8Array 4} :
    pushPathStep self remaining step = .ok next ↔ 4 ≤ remaining ∧ next = { self with
      pathSteps := self.pathSteps ++ [u32FromLeBytes step]
      stage := nextStep (remaining - 4) } := by
  exact Result.checkedSub_bind_eq_ok

theorem active_afterCount (self : State) (remaining count : Nat) :
    Active WC WH WA { self with stage := .readingValue remaining (afterCount count) } := by
  unfold Active afterCount
  dsimp only
  split_ifs
  · exact PushDecoder.LawfulOn.live_init
  · exact PushDecoder.LawfulOn.live_init

theorem active_of_pushLeafHash {self next : State} {remaining count : Nat} {hash : U8Array 32}
    (h : pushLeafHash self remaining count hash = .ok next) : Active WC WH WA next := by
  rcases Result.bind_eq_ok.mp h with ⟨n, _, heq⟩
  cases heq
  unfold Active
  dsimp only
  split_ifs
  · exact PushDecoder.LawfulOn.live_init
  · exact PushDecoder.LawfulOn.live_init

theorem active_of_setFingerprint {self next : State} {remaining : Nat} {f : U8Array 4}
    (h : setFingerprint self remaining f = .ok next) (hne : next.stage ≠ .done) :
    Active WC WH WA next := by
  rcases Result.bind_eq_ok.mp h with ⟨n, _, heq⟩
  cases heq
  exact active_nextStep hne

theorem active_of_pushPathStep {self next : State} {remaining : Nat} {step : U8Array 4}
    (h : pushPathStep self remaining step = .ok next) (hne : next.stage ≠ .done) :
    Active WC WH WA next := by
  rcases Result.bind_eq_ok.mp h with ⟨n, _, heq⟩
  cases heq
  exact active_nextStep hne

theorem active_count (self : State) {declared : Nat}
    {p : (compactSizeDecoder.budgeted (ε := ExtError) declared).State}
    (hp : (compactSizeDecoder.budgeted declared).Live (fun p => WC p.1) p) :
    Active WC WH WA { self with stage := .readingValue p.2 (.count p.1) } := by
  rcases hp with rfl | hp
  · exact .inl rfl
  · exact .inr hp

section Lawful

variable [LawfulCodecs] (hC : compactSizeDecoder.LawfulOn WC)
  (hH : (arrayDecoder 32).LawfulOn WH) (hA : (arrayDecoder 4).LawfulOn WA)

include hC hH hA

/-- Every stage that is not done runs a decoder. -/
theorem Active.cases {self : State} (h : Active WC WH WA self) :
    (∃ p, self.stage = .readingPrefix p ∧ compactSizeDecoder.Live WC p) ∨
      InValueStage WC WH WA self := by
  rcases self with ⟨stage, leafHashes, fingerprint, pathSteps⟩
  unfold Active at h
  cases stage with
  | readingPrefix p => exact .inl ⟨p, rfl, h⟩
  | done => exact absurd h id
  | readingValue remaining inner =>
      right
      have harray : ∀ {n}, 0 < n → (arrayDecoder n).Strict := fun hn =>
        (LawfulCodecs.array_sound hn).strict
      cases inner with
      | count p =>
          have hlive : (compactSizeDecoder.budgeted remaining).Live (fun s => WC s.1)
              (p, remaining) := by
            rcases h with rfl | h
            · exact .inl rfl
            · exact .inr h
          exact .intro hC.budgeted LawfulCodecs.compactSize_sound.strict.budgeted hlive
            (valueStageOf_count ⟨.done, leafHashes, fingerprint, pathSteps⟩ remaining)
            (active_count _) fun hk _ => by
              cases hk
              exact active_afterCount ⟨.done, leafHashes, fingerprint, pathSteps⟩ _ _
      | leafHash p count =>
          exact .intro hH (harray (by decide)) h
            (valueStageOf_leafHash ⟨.done, leafHashes, fingerprint, pathSteps⟩ remaining count)
            (fun hs => hs) fun hk _ => active_of_pushLeafHash hk
      | fingerprint p =>
          exact .intro hA (harray (by decide)) h
            (valueStageOf_fingerprint ⟨.done, leafHashes, fingerprint, pathSteps⟩ remaining)
            (fun hs => hs) active_of_setFingerprint
      | pathStep p =>
          exact .intro hA (harray (by decide)) h
            (valueStageOf_pathStep ⟨.done, leafHashes, fingerprint, pathSteps⟩ remaining)
            (fun hs => hs) active_of_pushPathStep

omit hC hH hA [LawfulCodecs] in
/-- A round in a stage of the value. -/
theorem ValueStageOf.step_eq {ε α : Type} {D : PushDecoder UInt8 ε α} {emb : D.State → State}
    {k : α → Result TapKeyOriginDecodeError State} (h : ValueStageOf D emb k) :
    ∃ g : ε → TapKeyOriginDecodeError, ∀ p b, step (emb p) b =
      ((D.push p b).mapErr g >>= fun x => match x.2.2 with
        | .needsMore => .ok (emb x.1, x.2.1)
        | .ready => ((D.finish x.1).mapErr g >>= k) >>= fun s => .ok (s, x.2.1)) >>=
      fun x => .ok (x.1, x.2, flowAfter x.1.stage x.2) := by
  rcases h with ⟨g, h⟩
  refine ⟨g, fun p b => ?_⟩
  rcases h p b with ⟨remaining, inner, hstage, hstep⟩
  rw [← hstep, step, hstage]

omit hC hH hA [LawfulCodecs] in
theorem ValueStageOf.flow_nil {ε α : Type} {D : PushDecoder UInt8 ε α} {emb : D.State → State}
    {k : α → Result TapKeyOriginDecodeError State} (h : ValueStageOf D emb k) (p : D.State) :
    flowAfter (emb p).stage [] = .stop .needsMore := by
  rcases h with ⟨g, h⟩
  rcases h p [] with ⟨remaining, inner, hstage, _⟩
  rw [hstage]
  rfl

/-- Every round but the last takes bytes. -/
theorem progress : stagedLoop.Progress (Active WC WH WA) where
  init := PushDecoder.LawfulOn.live_init
  rank_le _ := Nat.le_refl _
  again {self a next r} hself hstep := by
    change step self a = _ at hstep
    rcases Active.cases hC hH hA hself with ⟨p, hstage, hp⟩ | hvalue
    · rw [step_readingPrefix hstage] at hstep
      rcases Result.bind_eq_ok.mp hstep with ⟨⟨p', r', st⟩, hpush, hrest⟩
      rw [Result.mapErr_eq_ok] at hpush
      cases st with
      | needsMore => cases hrest
      | ready =>
          rcases Result.bind_eq_ok.mp hrest with ⟨s, hs, heq⟩
          rcases Result.bind_eq_ok.mp hs with ⟨length, _, hnext⟩
          cases heq
          cases hnext
          have hlt := hC.rest_length_lt LawfulCodecs.compactSize_sound.strict hp hpush
          exact ⟨PushDecoder.LawfulOn.live_init, .inl hlt⟩
    · cases hvalue with
      | @intro ε α D W emb k p hD hstrict hp hstage hemb hk =>
          rcases hstage.step_eq with ⟨g, hstepEq⟩
          rw [hstepEq] at hstep
          rcases Result.bind_eq_ok.mp hstep with ⟨⟨s, r'⟩, hinner, hflow⟩
          rcases Result.bind_eq_ok.mp hinner with ⟨⟨p', r'', st⟩, hpush, hrest⟩
          rw [Result.mapErr_eq_ok] at hpush
          cases st with
          | needsMore =>
              -- a decoder that needs more has left nothing, so the loop stops
              cases hrest
              rw [(hD.wait hp hpush).1, hstage.flow_nil] at hflow
              cases hflow
          | ready =>
              have hlt := hD.rest_length_lt hstrict hp hpush
              rcases Result.bind_eq_ok.mp hrest with ⟨s', hk', heq⟩
              cases heq
              rcases Result.bind_eq_ok.mp hk' with ⟨x, _, hkx⟩
              have hne : s.stage ≠ .done := by
                intro hdone
                rw [hdone] at hflow
                cases hflow
              rcases Prod.mk.inj (Except.ok.inj hflow) with ⟨rfl, hsame⟩
              rcases Prod.mk.inj hsame with ⟨rfl, _⟩
              exact ⟨hk hkx hne, .inl hlt⟩

/-- Pushing nothing to a decoder that is not done changes nothing. -/
theorem push_nil {self : State} (hself : Active WC WH WA self) :
    tapKeyOriginDecoder.push self [] = .ok (self, [], .needsMore) := by
  apply StagedLoop.push_stop
  change step self [] = .ok (self, [], .stop .needsMore)
  rcases Active.cases hC hH hA hself with ⟨p, hstage, hp⟩ | hvalue
  · have hidle := hC.idle_of_live LawfulCodecs.compactSize_sound.strict hp
    rw [step_readingPrefix hstage, hidle]
    cases self
    cases hstage
    rfl
  · cases hvalue with
    | @intro ε α D W emb k p hD hstrict hp hstage hemb hk =>
        rcases hstage.step_eq with ⟨g, hstepEq⟩
        rw [hstepEq, hD.idle_of_live hstrict hp, ← hstage.flow_nil p]
        rfl

omit hC hH hA [LawfulCodecs] in
theorem push_done {self : State} (hdone : self.stage = .done) (b : Bytes) :
    tapKeyOriginDecoder.push self b = .ok (self, b, .ready) := by
  apply StagedLoop.push_stop
  change step self b = .ok (self, b, .stop .ready)
  rw [step, hdone]

/-- Stopping at the end of a chunk changes nothing, because a fresh decoder waits. -/
theorem next_flowAfter {self : State} (hself : self.stage ≠ .done → Active WC WH WA self)
    (b : Bytes) : stagedLoop.next (self, b, flowAfter self.stage b) =
      tapKeyOriginDecoder.push self b := by
  by_cases hdone : self.stage = .done
  · rw [push_done hdone, hdone]
    rfl
  · cases b with
    | nil =>
        have hflow : flowAfter self.stage [] = .stop .needsMore := by
          cases hstage : self.stage with
          | done => exact absurd hstage hdone
          | readingPrefix p => rfl
          | readingValue remaining inner => rfl
        rw [push_nil hC hH hA (hself hdone), hflow]
        rfl
    | cons byte b =>
        have hflow : flowAfter self.stage (byte :: b) = .again := by
          cases hstage : self.stage with
          | done => exact absurd hstage hdone
          | readingPrefix p => rfl
          | readingValue remaining inner => rfl
        rw [hflow]
        rfl

/-- A stage of the value is a stage of the decoder. -/
theorem ValueStageOf.stage {ε α : Type} {D : PushDecoder UInt8 ε α} {W : D.State → Prop}
    {emb : D.State → State} {k : α → Result TapKeyOriginDecodeError State}
    (h : ValueStageOf D emb k) (hD : D.LawfulOn W)
    (hemb : ∀ {p}, D.Live W p → Active WC WH WA (emb p))
    (hk : ∀ {a s}, k a = .ok s → s.stage ≠ .done → Active WC WH WA s) :
    tapKeyOriginDecoder.Stage D W emb k := by
  refine ⟨fun {p} hp b => ?_⟩
  rcases h.step_eq with ⟨g, hstepEq⟩
  have hpushEq := (progress hC hH hA).push_eq (b := b) (hemb hp)
  change tapKeyOriginDecoder.push (emb p) b = step (emb p) b >>= stagedLoop.next at hpushEq
  rw [hpushEq, hstepEq]
  cases hpush : D.push p b with
  | error e => cases e <;> rfl
  | ok x =>
      rcases x with ⟨p', r, st⟩
      cases st with
      | needsMore =>
          rw [(hD.wait hp hpush).1]
          have hflow := h.flow_nil p'
          change (stagedLoop.next (emb p', [], flowAfter (emb p').stage [])).erase = _
          rw [hflow]
          rfl
      | ready =>
          cases hfin : D.finish p' with
          | error e =>
              simp only [Result.mapErr_ok, Result.ok_bind, Result.erase_ok, hfin]
              cases e <;> rfl
          | ok a =>
              cases hnext : k a with
              | error e =>
                  simp only [Result.mapErr_ok, Result.ok_bind, Result.erase_ok, hfin, hnext]
                  cases e <;> rfl
              | ok s =>
                  simp only [Result.mapErr_ok, Result.ok_bind, Result.erase_ok, hfin, hnext]
                  have hsame := next_flowAfter hC hH hA (hk hnext) r
                  exact congrArg Result.erase hsame

omit hC hH hA [LawfulCodecs] in
theorem isErr_finish {self : State} (h : self.stage ≠ .done) :
    (tapKeyOriginDecoder.finish self).IsErr := by
  refine ⟨.earlyEnd, ?_⟩
  change finish self = _
  unfold finish
  cases hstage : self.stage with
  | done => exact absurd hstage h
  | readingPrefix p => rfl
  | readingValue remaining inner => rfl

omit hC hH hA [LawfulCodecs] in
theorem readingPrefix_ne_done (p : compactSizeDecoder.State) : Stage.readingPrefix p ≠ .done := by
  intro h
  cases h

omit hC hH hA [LawfulCodecs] in
theorem readingValue_ne_done (remaining : Nat) (inner : ValueStage) :
    Stage.readingValue remaining inner ≠ .done := by
  intro h
  cases h

/-- The stage that reads the length prefix. -/
theorem lawful_originPrefix (self : State) :
    tapKeyOriginDecoder.Stage compactSizeDecoder WC
      (fun p => { self with stage := .readingPrefix p })
      fun length => .ok { self with stage := .readingValue length (.count compactSizeDecoder.init) } := by
  have hprog := progress hC hH hA
  apply hprog.stage .lengthPrefix .lengthPrefix
  · intro p hp
    exact hp
  · intro p b
    have hround := step_readingPrefix (rfl : State.stage { self with stage := .readingPrefix p } = _) b
    exact hround

theorem lawfulOn_tapKeyOrigin : tapKeyOriginDecoder.LawfulOn (Active WC WH WA) := by
  have hprog := progress hC hH hA
  apply hprog.lawfulOn fun hs => hs
  · intro self hself a ih
    rcases Active.cases hC hH hA hself with ⟨p, hstage, hp⟩ | hvalue
    · have hemb : self = { self with stage := .readingPrefix p } := by
        cases self
        cases hstage
        rfl
      rw [hemb]
      apply (lawful_originPrefix hC hH hA self).lawfulAt hC (fun hw => .inr hw) hp
      intro p' r length s hpush _ hk
      have hlt := hC.rest_length_lt LawfulCodecs.compactSize_sound.strict hp hpush
      cases hk
      exact ih PushDecoder.LawfulOn.live_init (hprog.measure_lt_of_length hlt)
    · cases hvalue with
      | @intro ε α D W emb k p hD hstrict hp hstage hemb hk =>
          apply (hstage.stage hC hH hA hD hemb hk).lawfulAt hD (fun hw => hemb (.inr hw)) hp
          intro p' r x s hpush _ hnext
          have hlt := hD.rest_length_lt hstrict hp hpush
          by_cases hdone : s.stage = .done
          · exact PushDecoder.LawfulAt.of_done (c := []) fun b => push_done hdone b
          · exact ih (hk hnext hdone) (hprog.measure_lt_of_length hlt)
  · intro self hself
    exact push_nil hC hH hA hself
  · intro self hself
    apply isErr_finish
    intro hdone
    unfold Active at hself
    rw [hdone] at hself
    exact hself

/-! ## What the stages parse -/

theorem stage_count (self : State) (declared : Nat) :
    tapKeyOriginDecoder.Stage (compactSizeDecoder.budgeted declared) (fun p => WC p.1)
      (fun p => { self with stage := .readingValue p.2 (.count p.1) })
      fun x => .ok { self with stage := .readingValue x.2 (afterCount x.1) } := by
  apply (valueStageOf_count self declared).stage hC hH hA hC.budgeted (active_count self)
  intro x s hk _
  cases hk
  exact active_afterCount self _ _

theorem stage_leafHash (self : State) (remaining count : Nat) :
    tapKeyOriginDecoder.Stage (arrayDecoder 32) WH
      (fun p => { self with stage := .readingValue remaining (.leafHash p count) })
      (pushLeafHash self remaining count) := by
  apply (valueStageOf_leafHash self remaining count).stage hC hH hA hH fun hp => hp
  intro hash s hk _
  exact active_of_pushLeafHash hk

theorem stage_fingerprint (self : State) (remaining : Nat) :
    tapKeyOriginDecoder.Stage (arrayDecoder 4) WA
      (fun p => { self with stage := .readingValue remaining (.fingerprint p) })
      (setFingerprint self remaining) := by
  exact (valueStageOf_fingerprint self remaining).stage hC hH hA hA (fun hp => hp)
    active_of_setFingerprint

theorem stage_pathStep (self : State) (remaining : Nat) :
    tapKeyOriginDecoder.Stage (arrayDecoder 4) WA
      (fun p => { self with stage := .readingValue remaining (.pathStep p) })
      (pushPathStep self remaining) := by
  exact (valueStageOf_pathStep self remaining).stage hC hH hA hA (fun hp => hp)
    active_of_pushPathStep

omit hC hH hA [LawfulCodecs] in
theorem meaning_done {self : State} (h : self.stage = .done) (b : Bytes) :
    tapKeyOriginDecoder.meaningFrom self b =
      (finish self).erase >>= fun origin => .ok (origin, b) := by
  unfold PushDecoder.meaningFrom PushDecoder.runFrom
  rw [push_done h, Result.ok_bind, Result.erase_bind]
  rfl

/-! ## What the stages parse -/

/-- A complete path step or the end of the path. -/
theorem accepts_nextStep {q : State} {fingerprint : Fingerprint}
    (hf : q.fingerprint = some fingerprint) {remaining : Nat} {b r : Bytes}
    {origin : TapKeyOrigin} :
    tapKeyOriginDecoder.meaningFrom { q with stage := nextStep remaining } b = .ok (origin, r) ↔
      ∃ path, b = pathBytes path ++ r ∧ remaining = 4 * path.length ∧
        origin = (q.leafHashes, fingerprint, q.pathSteps ++ path) := by
  induction remaining using Nat.strong_induction_on generalizing q b with
  | _ remaining ih =>
      by_cases hzero : remaining = 0
      · subst hzero
        rw [meaning_done rfl]
        simp only [finish, nextStep, if_pos, hf, Result.okOr, Result.ok_bind, Result.erase_ok,
          Except.ok.injEq, Prod.mk.injEq]
        constructor
        · rintro ⟨rfl, rfl⟩
          exact ⟨[], rfl, rfl, by simp⟩
        · rintro ⟨path, rfl, hlen, rfl⟩
          have hnil : path = [] := by
            apply List.length_eq_zero_iff.mp
            omega
          subst hnil
          simp [pathBytes]
      · have hnext : nextStep remaining =
            .readingValue remaining (.pathStep (arrayDecoder 4).init) := if_neg hzero
        have hstage := stage_pathStep hC hH hA q remaining
        rw [hnext, hstage.meaningFrom_eq_ok hA fun _ => isErr_finish (readingValue_ne_done _ _)]
        simp only [LawfulCodecs.array_accepts]
        constructor
        · rintro ⟨step, m, next, rfl, hk, hrest⟩
          rcases pushPathStep_eq_ok.mp hk with ⟨hle, rfl⟩
          have hpath := (ih (remaining - 4) (by omega) (q := { q with
            pathSteps := q.pathSteps ++ [u32FromLeBytes step] }) hf).mp hrest
          rcases hpath with ⟨path, rfl, hlen, rfl⟩
          refine ⟨u32FromLeBytes step :: path, ?_, ?_, ?_⟩
          · simp [pathBytes]
          · rw [List.length_cons]
            omega
          · simp
        · rintro ⟨path, rfl, hlen, rfl⟩
          cases path with
          | nil => exact absurd hlen hzero
          | cons child path =>
              rw [List.length_cons] at hlen
              refine ⟨u32ToLeBytes child, pathBytes path ++ r, _, by simp [pathBytes],
                pushPathStep_eq_ok.mpr ⟨by omega, rfl⟩, ?_⟩
              apply (ih (remaining - 4) (by omega) (q := { q with
                pathSteps := q.pathSteps ++ [u32FromLeBytes (u32ToLeBytes child)] }) hf).mpr
              exact ⟨path, rfl, by omega, by simp⟩

/-- A fingerprint and a path: the key source. -/
theorem accepts_fingerprint {q : State} (hsteps : q.pathSteps = []) {remaining : Nat}
    {b r : Bytes} {origin : TapKeyOrigin} :
    tapKeyOriginDecoder.meaningFrom
        { q with stage := .readingValue remaining (.fingerprint (arrayDecoder 4).init) } b =
          .ok (origin, r) ↔
      ∃ source, b = keySourceBytes source ++ r ∧ remaining = (keySourceBytes source).length ∧
        origin = (q.leafHashes, source) := by
  have hstage := stage_fingerprint hC hH hA q remaining
  rw [hstage.meaningFrom_eq_ok hA fun _ => isErr_finish (readingValue_ne_done _ _)]
  simp only [LawfulCodecs.array_accepts, length_keySourceBytes]
  constructor
  · rintro ⟨f, m, next, rfl, hk, hrest⟩
    rcases setFingerprint_eq_ok.mp hk with ⟨hle, rfl⟩
    have hpath := (accepts_nextStep hC hH hA (q := { q with fingerprint := some f }) rfl).mp
      hrest
    rcases hpath with ⟨path, rfl, hlen, rfl⟩
    exact ⟨(f, path), by simp [keySourceBytes], by simp only; omega, by simp [hsteps]⟩
  · rintro ⟨⟨f, path⟩, rfl, hlen, rfl⟩
    refine ⟨f, pathBytes path ++ r, _, by simp [keySourceBytes],
      setFingerprint_eq_ok.mpr ⟨by omega, rfl⟩, ?_⟩
    apply (accepts_nextStep hC hH hA (q := { q with fingerprint := some f }) rfl).mpr
    exact ⟨path, rfl, by simp only at hlen; omega, by simp [hsteps]⟩

/-- What follows when `n` more leaf hashes are to come. -/
def hashStage (q : State) (n : Nat) : ValueStage :=
  if n = 0 then .fingerprint (arrayDecoder 4).init
  else .leafHash (arrayDecoder 32).init (q.leafHashes.length + n)

omit hC hH hA [LawfulCodecs] in
/-- A leaf hash leaves one less to come. -/
theorem hashStage_append (q : State) (hash : TapLeafHash) (n : Nat) :
    (if (q.leafHashes ++ [hash]).length = q.leafHashes.length + (n + 1)
      then .fingerprint (arrayDecoder 4).init
      else .leafHash (arrayDecoder 32).init (q.leafHashes.length + (n + 1))) =
    hashStage { q with leafHashes := q.leafHashes ++ [hash] } n := by
  have hlen : (q.leafHashes ++ [hash]).length = q.leafHashes.length + 1 := by simp
  rw [hashStage, hlen]
  by_cases hzero : n = 0
  · subst hzero
    rw [if_pos rfl, if_pos rfl]
  · have hsum : q.leafHashes.length + (n + 1) = q.leafHashes.length + 1 + n := by omega
    rw [if_neg (by omega), if_neg hzero, hsum]

/-- Leaf hashes, then the key source. -/
theorem accepts_hashStage {q : State} (hsteps : q.pathSteps = []) {n remaining : Nat}
    {b r : Bytes} {origin : TapKeyOrigin} :
    tapKeyOriginDecoder.meaningFrom
        { q with stage := .readingValue remaining (hashStage q n) } b = .ok (origin, r) ↔
      ∃ hashes source, hashes.length = n ∧
        b = leafHashBytes hashes ++ (keySourceBytes source ++ r) ∧
          remaining = 32 * n + (keySourceBytes source).length ∧
            origin = (q.leafHashes ++ hashes, source) := by
  induction n generalizing q remaining b with
  | zero =>
      rw [hashStage, if_pos rfl, accepts_fingerprint hC hH hA hsteps]
      constructor
      · rintro ⟨source, rfl, hlen, rfl⟩
        exact ⟨[], source, rfl, rfl, by omega, by simp⟩
      · rintro ⟨hashes, source, hnil, rfl, hlen, rfl⟩
        rw [List.length_eq_zero_iff.mp hnil]
        exact ⟨source, rfl, by omega, by simp⟩
  | succ n ih =>
      have hstage := stage_leafHash hC hH hA q remaining (q.leafHashes.length + (n + 1))
      rw [hashStage, if_neg (Nat.succ_ne_zero n),
        hstage.meaningFrom_eq_ok hH fun _ => isErr_finish (readingValue_ne_done _ _)]
      simp only [LawfulCodecs.array_accepts]
      constructor
      · rintro ⟨hash, m, next, rfl, hk, hrest⟩
        rcases pushLeafHash_eq_ok.mp hk with ⟨hle, rfl⟩
        rw [hashStage_append] at hrest
        have hlater := (ih (q := { q with leafHashes := q.leafHashes ++ [hash] })
          hsteps).mp hrest
        rcases hlater with ⟨hashes, source, rfl, rfl, hlen, rfl⟩
        refine ⟨hash :: hashes, source, rfl, ?_, by omega, by simp⟩
        simp [leafHashBytes]
      · rintro ⟨hashes, source, hcount, rfl, hlen, rfl⟩
        cases hashes with
        | nil => cases hcount
        | cons hash hashes =>
            refine ⟨hash, leafHashBytes hashes ++ (keySourceBytes source ++ r), _, ?_,
              pushLeafHash_eq_ok.mpr ⟨by omega, rfl⟩, ?_⟩
            · simp [leafHashBytes]
            · rw [hashStage_append]
              apply (ih (q := { q with leafHashes := q.leafHashes ++ [hash] }) hsteps).mpr
              exact ⟨hashes, source, Nat.succ.inj hcount, rfl, by omega, by simp⟩

/-! ## Panics -/

omit hC hH hA in
/-- A stage that reads an array panics when less than the array is left. -/
theorem returns_arrayStage {n remaining : Nat} (hn : 0 < n)
    {W : (arrayDecoder n : PushDecoder UInt8 ExtError (U8Array n)).State → Prop}
    {emb : (arrayDecoder n : PushDecoder UInt8 ExtError (U8Array n)).State → State}
    {k : U8Array n → Result TapKeyOriginDecodeError State} {f : U8Array n → Nat → State}
    {P : Nat → Prop} (hstage : tapKeyOriginDecoder.Stage (arrayDecoder n) W emb k)
    (hD : (arrayDecoder n).LawfulOn W) (hemb : ∀ p, (emb p).stage ≠ .done)
    (hk : ∀ a, k a = Result.checkedSub remaining n >>= fun rest => .ok (f a rest))
    (hnext : ∀ a m,
      (tapKeyOriginDecoder.meaningFrom (f a (remaining - n)) m).Returns ↔ P m.length)
    {b : Bytes} :
    (tapKeyOriginDecoder.meaningFrom (emb (arrayDecoder n).init) b).Returns ↔
      (n ≤ b.length → n ≤ remaining ∧ P (b.length - n)) := by
  rw [hstage.returns_meaningFrom hD fun _ => isErr_finish (hemb _)]
  have hsafe := PushDecoder.safe_iff.mp (LawfulCodecs.array_sound hn).safe b
  have hok : n ≤ remaining → ∀ a, k a = .ok (f a (remaining - n)) := by
    intro hle a
    rw [hk, Result.checkedSub_of_le hle]
    rfl
  constructor
  · rintro ⟨_, hall⟩ hlen
    rcases meaning_array hn b with ⟨a, hb, _⟩ | ⟨hlt, _⟩
    · rcases hall (LawfulCodecs.array_accepts.mpr hb) with ⟨hreturns, hrest⟩
      by_cases hle : n ≤ remaining
      · have hlater := (hnext a (b.drop n)).mp (hrest (hok hle a))
        rw [List.length_drop] at hlater
        exact ⟨hle, hlater⟩
      · rw [hk, Result.checkedSub_of_lt (by omega)] at hreturns
        exact absurd hreturns id
    · omega
  · intro hall
    refine ⟨hsafe, fun {a m} ha => ?_⟩
    have hb := LawfulCodecs.array_accepts.mp ha
    have hlen : b.length = n + m.length := by
      rw [hb, List.length_append, U8Array.length_bytes]
    rcases hall (by omega) with ⟨hle, hlater⟩
    refine ⟨by rw [hok hle]; trivial, fun {s} hs => ?_⟩
    rw [hok hle] at hs
    cases hs
    apply (hnext a m).mpr
    rwa [hlen, Nat.add_sub_cancel_left] at hlater

/-- The path panics exactly when the length ends inside of a step. -/
theorem returns_nextStep {q : State} {fingerprint : Fingerprint}
    (hf : q.fingerprint = some fingerprint) {remaining : Nat} {b : Bytes} :
    (tapKeyOriginDecoder.meaningFrom { q with stage := nextStep remaining } b).Returns ↔
      ¬(remaining % 4 ≠ 0 ∧ remaining + (4 - remaining % 4) ≤ b.length) := by
  induction remaining using Nat.strong_induction_on generalizing q b with
  | _ remaining ih =>
      by_cases hzero : remaining = 0
      · subst hzero
        rw [meaning_done rfl]
        simp [finish, nextStep, hf, Result.okOr]
      · have hnext : nextStep remaining =
            .readingValue remaining (.pathStep (arrayDecoder 4).init) := if_neg hzero
        have hread := returns_arrayStage (b := b) (by decide)
          (stage_pathStep hC hH hA q remaining) hA (fun _ => readingValue_ne_done _ _)
          (fun _ => rfl)
          (P := fun len => ¬((remaining - 4) % 4 ≠ 0 ∧
            remaining - 4 + (4 - (remaining - 4) % 4) ≤ len)) fun step m =>
              ih (remaining - 4) (by omega)
                (q := { q with pathSteps := q.pathSteps ++ [u32FromLeBytes step] }) hf
        rw [hnext, hread]
        omega

/-- Reading a key source panics exactly when the length ends inside of an item. -/
theorem returns_fingerprint {q : State} {remaining : Nat} {b : Bytes} :
    (tapKeyOriginDecoder.meaningFrom
        { q with stage := .readingValue remaining (.fingerprint (arrayDecoder 4).init) }
          b).Returns ↔ ¬∃ e, cutItemEnd 0 remaining = some e ∧ e ≤ b.length := by
  have hread := returns_arrayStage (b := b) (by decide)
    (stage_fingerprint hC hH hA q remaining) hA (fun _ => readingValue_ne_done _ _)
    (fun _ => rfl)
    (P := fun len => ¬((remaining - 4) % 4 ≠ 0 ∧
      remaining - 4 + (4 - (remaining - 4) % 4) ≤ len)) fun f m =>
        returns_nextStep hC hH hA (q := { q with fingerprint := some f }) rfl
  rw [hread]
  unfold cutItemEnd
  split_ifs with h1 h2 h3
  · omega
  · simp only [Option.some.injEq, exists_eq_left']
    omega
  · simp only [Option.some.injEq, exists_eq_left']
    omega
  · simp only [false_and, exists_false, not_false_eq_true, iff_true]
    omega

/-- Reading leaf hashes and a key source panics exactly when the length ends inside of an
item. -/
theorem returns_hashStage {q : State} {n remaining : Nat} {b : Bytes} :
    (tapKeyOriginDecoder.meaningFrom
        { q with stage := .readingValue remaining (hashStage q n) } b).Returns ↔
      ¬∃ e, cutItemEnd n remaining = some e ∧ e ≤ b.length := by
  induction n generalizing q remaining b with
  | zero =>
      rw [hashStage, if_pos rfl]
      exact returns_fingerprint hC hH hA
  | succ n ih =>
      have hk : ∀ hash, pushLeafHash q remaining (q.leafHashes.length + (n + 1)) hash =
          Result.checkedSub remaining 32 >>= fun rest => .ok { q with
            leafHashes := q.leafHashes ++ [hash]
            stage := .readingValue rest
              (hashStage { q with leafHashes := q.leafHashes ++ [hash] } n) } := by
        intro hash
        rw [← hashStage_append]
        rfl
      have hread := returns_arrayStage (b := b) (by decide)
        (stage_leafHash hC hH hA q remaining (q.leafHashes.length + (n + 1))) hH
        (fun _ => readingValue_ne_done _ _) hk
        (P := fun len => ¬∃ e, cutItemEnd n (remaining - 32) = some e ∧ e ≤ len) fun hash m =>
          ih (q := { q with leafHashes := q.leafHashes ++ [hash] })
      rw [hashStage, if_neg (Nat.succ_ne_zero n), hread]
      exact cutItemEnd_succ n remaining b.length

/-! ## The value -/

/-- A fresh decoder of the value of a tap key origin. -/
def valueStart (declared : Nat) : State :=
  ⟨.readingValue declared (.count compactSizeDecoder.init), [], none, []⟩

omit hC hH hA [LawfulCodecs] in
theorem afterCount_eq (count : Nat) (self : State) (h : self.leafHashes = []) :
    afterCount count = hashStage self count := by
  rw [afterCount, hashStage, h, List.length_nil, Nat.zero_add]

/-- A value is a count, so many leaf hashes and a key source, of the announced length. -/
theorem accepts_value {declared : Nat} {b r : Bytes} {origin : TapKeyOrigin} :
    tapKeyOriginDecoder.meaningFrom (valueStart declared) b = .ok (origin, r) ↔
      b = tapKeyOriginBytes origin ++ r ∧ origin.1.length ≤ compactSizeLimit ∧
        declared = (tapKeyOriginBytes origin).length := by
  have hstage := (stage_count hC hH hA (valueStart 0) declared).meaningFrom_eq_ok hC.budgeted
    (b := b) (r := r) (x := origin) fun _ => isErr_finish (readingValue_ne_done _ _)
  refine hstage.trans ?_
  simp only [PushDecoder.accepts_budgeted, LawfulCodecs.compactSize_accepts, Prod.exists]
  constructor
  · rintro ⟨count, rest, m, next, ⟨⟨rfl, hlimit⟩, hle, rfl⟩, hk, hrest⟩
    cases hk
    rw [afterCount_eq count (valueStart 0) rfl] at hrest
    rcases (accepts_hashStage hC hH hA (q := valueStart 0) rfl).mp hrest with
      ⟨hashes, source, rfl, rfl, hlen, rfl⟩
    refine ⟨?_, hlimit, ?_⟩
    · simp [tapKeyOriginBytes, valueStart]
    · simp only [tapKeyOriginBytes, valueStart, List.nil_append, List.length_append,
        length_leafHashBytes] at hle hlen ⊢
      omega
  · rintro ⟨rfl, hlimit, hlen⟩
    rcases origin with ⟨hashes, source⟩
    subst hlen
    refine ⟨hashes.length, _, leafHashBytes hashes ++ (keySourceBytes source ++ r), _,
      ⟨⟨by simp [tapKeyOriginBytes], hlimit⟩, ?_, rfl⟩, rfl, ?_⟩
    · simp only [tapKeyOriginBytes, List.length_append]
      omega
    · rw [afterCount_eq hashes.length (valueStart 0) rfl]
      apply (accepts_hashStage hC hH hA (q := valueStart 0) rfl).mpr
      refine ⟨hashes, source, rfl, rfl, ?_, rfl⟩
      simp only [tapKeyOriginBytes, List.length_append, length_leafHashBytes]
      omega

omit hC hH hA in
/-- Reading the count panics exactly when the announced length ends inside of it. -/
theorem returns_budgetedCount {declared : Nat} {b : Bytes} :
    ((compactSizeDecoder.budgeted declared).meaning b).Returns ↔
      ¬∃ tag, b.head? = some tag ∧ declared < min (compactSizeWidth tag) b.length := by
  rw [PushDecoder.returns_budgeted LawfulCodecs.compactSize_sound.safe, not_iff_not]
  cases b with
  | nil =>
      constructor
      · rintro ⟨s, r, st, _, hlt⟩
        rw [List.length_nil, Nat.zero_sub] at hlt
        exact absurd hlt (Nat.not_lt_zero _)
      · rintro ⟨tag, htag, _⟩
        cases htag
  | cons tag b =>
      rcases LawfulCodecs.compactSize_push tag b with ⟨s, hpush⟩
      have htaken : (tag :: b).length - ((tag :: b).drop (compactSizeWidth tag)).length =
          min (compactSizeWidth tag) (tag :: b).length := by
        rw [List.length_drop]
        omega
      constructor
      · rintro ⟨s', r, st, heq, hlt⟩
        rw [hpush] at heq
        cases heq
        exact ⟨tag, rfl, by omega⟩
      · rintro ⟨tag', htag, hlt⟩
        cases htag
        exact ⟨s, _, _, hpush, by omega⟩

/-- Reading a value panics exactly when the announced length cuts through an item. -/
theorem returns_value {declared : Nat} {b : Bytes} :
    (tapKeyOriginDecoder.meaningFrom (valueStart declared) b).Returns ↔
      ¬CutOrigin declared b := by
  have hstage := (stage_count hC hH hA (valueStart 0) declared).returns_meaningFrom hC.budgeted
    (b := b) fun _ => isErr_finish (readingValue_ne_done _ _)
  refine hstage.trans ?_
  rw [returns_budgetedCount]
  simp only [PushDecoder.accepts_budgeted, LawfulCodecs.compactSize_accepts, Prod.forall]
  unfold CutOrigin
  constructor
  · rintro ⟨hwidth, hall⟩ hcut
    rcases hcut with hcut | ⟨count, m, e, rfl, hlimit, hle, hend, hlen⟩
    · exact hwidth hcut
    · have htaken : (compactSize count ++ m).length - m.length = varIntSize count := by
        rw [List.length_append, length_compactSize]
        omega
      have hlater := (hall count _ ⟨⟨rfl, hlimit⟩, by omega, rfl⟩).2 rfl
      rw [afterCount_eq count (valueStart 0) rfl, htaken] at hlater
      exact (returns_hashStage hC hH hA (q := valueStart 0)).mp hlater ⟨e, hend, hlen⟩
  · intro hnot
    refine ⟨fun hwidth => hnot (.inl hwidth), ?_⟩
    intro count rest m hacc
    rcases hacc with ⟨⟨rfl, hlimit⟩, hle, rfl⟩
    have htaken : (compactSize count ++ m).length - m.length = varIntSize count := by
      rw [List.length_append, length_compactSize]
      omega
    rw [htaken] at hle ⊢
    refine ⟨trivial, fun {s} hk => ?_⟩
    cases hk
    rw [afterCount_eq count (valueStart 0) rfl]
    apply (returns_hashStage hC hH hA (q := valueStart 0)).mpr
    rintro ⟨e, hend, hlen⟩
    exact hnot (.inr ⟨count, m, e, rfl, hlimit, hle, hend, hlen⟩)

end Lawful

end TapKeyOriginDecoder

/-! ## Codecs -/

section

variable [LawfulCodecs]

theorem lawful_tapKeyOrigin : tapKeyOriginDecoder.Lawful := by
  rcases LawfulCodecs.compactSize_sound.lawful with ⟨WC, hC⟩
  rcases (LawfulCodecs.array_sound (n := 32) (by decide)).lawful with ⟨WH, hH⟩
  rcases (LawfulCodecs.array_sound (n := 4) (by decide)).lawful with ⟨WA, hA⟩
  exact ⟨_, lawfulOn_tapKeyOrigin hC hH hA⟩

/-- A length, and a count, leaf hashes and a key source of exactly that length. -/
theorem accepts_tapKeyOrigin {b r : Bytes} {origin : TapKeyOrigin} :
    tapKeyOriginDecoder.Accepts b origin r ↔
      b = frame (tapKeyOriginBytes origin) ++ r ∧
        (tapKeyOriginBytes origin).length ≤ compactSizeLimit := by
  rcases LawfulCodecs.compactSize_sound.lawful with ⟨WC, hC⟩
  rcases (LawfulCodecs.array_sound (n := 32) (by decide)).lawful with ⟨WH, hH⟩
  rcases (LawfulCodecs.array_sound (n := 4) (by decide)).lawful with ⟨WA, hA⟩
  have hprefix := (lawful_originPrefix hC hH hA (valueStart 0)).meaningFrom_eq_ok hC (b := b) (r := r)
    (x := origin) fun _ => isErr_finish (readingPrefix_ne_done _)
  refine (Result.erase_eq_ok.symm.trans hprefix).trans ?_
  simp only [LawfulCodecs.compactSize_accepts]
  have hvalue : ∀ {declared m}, tapKeyOriginDecoder.meaningFrom (valueStart declared) m =
      .ok (origin, r) ↔ _ := accepts_value hC hH hA
  constructor
  · rintro ⟨declared, m, next, ⟨rfl, hlimit⟩, hk, hrest⟩
    cases hk
    rcases hvalue.mp hrest with ⟨rfl, hcount, rfl⟩
    exact ⟨(frame_append _ _).symm, hlimit⟩
  · rintro ⟨rfl, hlimit⟩
    refine ⟨_, tapKeyOriginBytes origin ++ r, _, ⟨frame_append _ _, hlimit⟩, rfl, ?_⟩
    apply hvalue.mpr
    refine ⟨rfl, ?_, rfl⟩
    simp only [tapKeyOriginBytes, List.length_append, length_leafHashBytes] at hlimit
    omega

/-- Decoding panics exactly when the announced length cuts through an item. -/
theorem returns_tapKeyOrigin {b : Bytes} :
    (tapKeyOriginDecoder.meaning b).Returns ↔
      ¬∃ declared v, b = compactSize declared ++ v ∧ declared ≤ compactSizeLimit ∧
        CutOrigin declared v := by
  rcases LawfulCodecs.compactSize_sound.lawful with ⟨WC, hC⟩
  rcases (LawfulCodecs.array_sound (n := 32) (by decide)).lawful with ⟨WH, hH⟩
  rcases (LawfulCodecs.array_sound (n := 4) (by decide)).lawful with ⟨WA, hA⟩
  have hprefix := (lawful_originPrefix hC hH hA (valueStart 0)).returns_meaningFrom hC (b := b)
    fun _ => isErr_finish (readingPrefix_ne_done _)
  refine hprefix.trans ?_
  simp only [LawfulCodecs.compactSize_accepts]
  have hvalue : ∀ {declared m}, (tapKeyOriginDecoder.meaningFrom (valueStart declared) m).Returns ↔
      ¬CutOrigin declared m := returns_value hC hH hA
  constructor
  · rintro ⟨_, hall⟩ ⟨declared, v, rfl, hlimit, hcut⟩
    exact hvalue.mp ((hall ⟨rfl, hlimit⟩).2 rfl) hcut
  · intro hnot
    refine ⟨PushDecoder.safe_iff.mp LawfulCodecs.compactSize_sound.safe b, ?_⟩
    rintro declared v ⟨rfl, hlimit⟩
    refine ⟨trivial, fun {s} hk => ?_⟩
    cases hk
    apply hvalue.mpr
    intro hcut
    exact hnot ⟨declared, v, rfl, hlimit, hcut⟩

theorem framed_tapKeyOrigin : Framed tapKeyOriginDecoder where
  lawful := lawful_tapKeyOrigin
  strict := by
    rcases LawfulCodecs.compactSize_sound.lawful with ⟨WC, hC⟩
    rcases (LawfulCodecs.array_sound (n := 32) (by decide)).lawful with ⟨WH, hH⟩
    rcases (LawfulCodecs.array_sound (n := 4) (by decide)).lawful with ⟨WA, hA⟩
    exact ⟨push_nil hC hH hA PushDecoder.LawfulOn.live_init,
      isErr_finish (readingPrefix_ne_done _)⟩
  framed hacc := by
    rcases accepts_tapKeyOrigin.mp hacc with ⟨rfl, hlimit⟩
    exact ⟨_, rfl, hlimit⟩

theorem valueCodec_tapKeyOrigin :
    ValueCodec tapKeyOriginDecoder fun origin => .ofBytes (tapKeyOriginBytes origin) where
  framed := framed_tapKeyOrigin
  len_eq _ := rfl
  length_le h := h
  decodes_encode h := accepts_tapKeyOrigin.mpr ⟨(List.append_nil _).symm, h⟩
  fits_of_decodes h := (accepts_tapKeyOrigin.mp h).2

end

end RustPsbt
