import RustPsbt.Library.StagedLoop
import RustPsbt.Map.Framing

/-!
# Decoders of maps

The loop that all map decoders share: look for the separator, decode a key, select the
decoder of the value by the key, and store the value.  A `MapSpec` holds what differs.

Main results:

- Theorem `MapSpec.Lawful.accepts_iff`: a map decoder takes pairs and a separator, and
  steps through the pairs.
- Theorem `MapSpec.Lawful.returns_iff`: it panics exactly in the value of a pair.
-/

namespace RustPsbt

variable [BitcoinTypes] [BitcoinCodecs]

/-- What a map decoder is made of: `ε` are its errors, `M` the fields it collects and `α`
its output. -/
structure MapSpec (ε M α : Type) where
  /-- The stages that decode a value. -/
  Field : Type
  Value : Field → Type
  /-- The decoder of a stage, its errors wrapped as by the map decoder. -/
  decoder : (f : Field) → PushDecoder UInt8 ε (Value f)
  /-- `from_key`. -/
  fromKey : Key → Result ε Field
  /-- The transition at the end of a value: its key, the end of its decoder, and the fields
  collected so far. -/
  handle : (f : Field) → Key → Result ε (Value f) → M → Result ε M
  empty : M
  /-- The transition at the separator. -/
  finish : M → Result ε α
  /-- The checks of `end`. -/
  atEnd : α → Result ε α
  keyDecode : KeyDecodeError → ε
  earlyEnd : ε

namespace MapSpec

variable {ε M α : Type}

/-- The stage of a map decoder and the fields collected so far. -/
inductive State (S : MapSpec ε M α) where
  | separator (m : M)
  | key (m : M) (d : keyDecoder.State)
  | value (m : M) (f : S.Field) (key : Key) (d : (S.decoder f).State)
  | done (out : α)

/-- The stage after a key. -/
def afterKey (S : MapSpec ε M α) (m : M) (key : Key) : Result ε S.State := do
  let f ← S.fromKey key
  .ok (.value m f key (S.decoder f).init)

/-- One round of the loop in `push_bytes`. -/
def step (S : MapSpec ε M α) : S.State → Bytes → Result ε (S.State × Bytes × Flow)
  | .separator m, b => match b with
      | [] => .ok (.separator m, [], .stop .needsMore)
      | byte :: rest =>
          if byte = psbtSeparator then do
            let out ← S.finish m
            .ok (.done out, rest, .stop .ready)
          -- not a separator: the key decoder starts at this byte
          else .ok (.key m keyDecoder.init, byte :: rest, .again)
  | .key m d, b => do
      let x ← (keyDecoder.push d b).mapErr S.keyDecode
      match x.2.2 with
      | .needsMore => .ok (.key m x.1, x.2.1, .stop .needsMore)
      | .ready => do
          let next ← (keyDecoder.finish x.1).mapErr S.keyDecode >>= S.afterKey m
          .ok (next, x.2.1, .again)
  | .value m f key d, b => do
      let x ← (S.decoder f).push d b
      match x.2.2 with
      | .needsMore => .ok (.value m f key x.1, x.2.1, .stop .needsMore)
      | .ready => do
          let m' ← S.handle f key ((S.decoder f).finish x.1) m
          .ok (.separator m', x.2.1, .again)
  | .done out, b => .ok (.done out, b, .stop .ready)

/-- `end`. -/
def close (S : MapSpec ε M α) : S.State → Result ε α
  | .done out => S.atEnd out
  | _ => .err S.earlyEnd

/-- `read_limit`. -/
def readLimit (S : MapSpec ε M α) : S.State → Nat
  | .separator _ => 1
  | .key _ d => keyDecoder.readLimit d
  | .value _ f _ d => (S.decoder f).readLimit d
  | .done _ => 0

/-- Only the search for the separator may enter a stage without taking a byte. -/
def rank (S : MapSpec ε M α) : S.State → Nat
  | .separator _ => 1
  | _ => 0

/-- The loop of a map decoder. -/
def stagedLoop (S : MapSpec ε M α) : StagedLoop UInt8 ε α where
  State := S.State
  init := .separator S.empty
  step := S.step
  finish := S.close
  readLimit := S.readLimit
  rank := S.rank
  maxRank := 1

/-- The map decoder. -/
def mapDecoder (S : MapSpec ε M α) : PushDecoder UInt8 ε α :=
  S.stagedLoop.decoder

/-- The decoder of a value that ends in the fields collected with it. -/
def valueStage (S : MapSpec ε M α) (m : M) (f : S.Field) (key : Key) : PushDecoder UInt8 ε M :=
  (S.decoder f).closing fun ended => S.handle f key ended m

/-! ## Steps over pairs -/

/-- The pair is decoded: the key selects the stage, the value is decoded from the bytes
that its length announces, and it is stored. -/
structure Step (S : MapSpec ε M α) (m : M) (p : Pair) (m' : M) (f : S.Field) (v : S.Value f) :
    Prop where
  key_le : p.1.body.length ≤ compactSizeLimit
  fromKey : S.fromKey p.1 = .ok f
  value_le : p.2.length ≤ compactSizeLimit
  decodes : (S.decoder f).Decodes (frame p.2) v
  handle : S.handle f p.1 (.ok v) m = .ok m'

/-- The pairs are decoded one after the other. -/
inductive Steps (S : MapSpec ε M α) : M → List Pair → M → Prop where
  | nil {m : M} : Steps S m [] m
  | cons {m m' m'' : M} {p : Pair} {ps : List Pair} {f : S.Field} {v : S.Value f}
      (head : S.Step m p m' f v) (tail : Steps S m' ps m'') : Steps S m (p :: ps) m''

/-- The pairs before some value are decoded and decoding the value panics. -/
def Cuts (S : MapSpec ε M α) (m : M) (b : Bytes) : Prop :=
  ∃ (ps : List Pair) (m' : M) (key : Key) (f : S.Field) (rest : Bytes),
    b = pairsBytes ps ++ (key.bytes ++ rest) ∧ S.Steps m ps m' ∧
      key.body.length ≤ compactSizeLimit ∧ S.fromKey key = .ok f ∧
        ¬((S.decoder f).meaning rest).Returns

/-! ## Laws -/

/-- What the parts of a map decoder are relied on for. -/
structure Lawful (S : MapSpec ε M α) : Prop where
  framed : ∀ f, Framed (S.decoder f)
  closes : ∀ (f : S.Field) (key : Key) (m : M),
    (S.decoder f).Closes fun ended => S.handle f key ended m
  returns_handle : ∀ (f : S.Field) (key : Key) (v : S.Value f) (m : M),
    (S.handle f key (.ok v) m).Returns
  returns_fromKey : ∀ key, (S.fromKey key).Returns
  returns_finish : ∀ m, (S.finish m).Returns
  returns_atEnd : ∀ out, (S.atEnd out).Returns

/-- The decoder of the stage waits for more. -/
def Waiting (S : MapSpec ε M α) (WK : keyDecoder.State → Prop)
    (WV : (f : S.Field) → (S.decoder f).State → Prop) : S.State → Prop
  | .separator _ => True
  | .key _ d => keyDecoder.Live WK d
  | .value _ f _ d => (S.decoder f).Live (WV f) d
  | .done _ => False

/-- The decoder of the stage waits for more, or the map is complete. -/
def Active (S : MapSpec ε M α) (WK : keyDecoder.State → Prop)
    (WV : (f : S.Field) → (S.decoder f).State → Prop) (s : S.State) : Prop :=
  S.Waiting WK WV s ∨ ∃ out, s = .done out

section Laws

variable [LawfulCodecs] {S : MapSpec ε M α} {WK : keyDecoder.State → Prop}
  {WV : (f : S.Field) → (S.decoder f).State → Prop}

omit [LawfulCodecs] in
theorem afterKey_eq_ok {m : M} {key : Key} {s : S.State} :
    S.afterKey m key = .ok s ↔
      ∃ f, S.fromKey key = .ok f ∧ s = .value m f key (S.decoder f).init := by
  unfold afterKey
  rw [Result.bind_eq_ok]
  constructor
  · rintro ⟨f, hf, heq⟩
    cases heq
    exact ⟨f, hf, rfl⟩
  · rintro ⟨f, hf, rfl⟩
    exact ⟨f, hf, rfl⟩

variable (h : S.Lawful) (hK : keyDecoder.LawfulOn WK) (hV : ∀ f, (S.decoder f).LawfulOn (WV f))

include h hK hV

/-- Every round takes bytes or enters the key stage. -/
theorem progress : S.stagedLoop.Progress (S.Active WK WV) where
  init := .inl trivial
  rank_le s := by
    cases s with
    | separator m => exact Nat.le_refl 1
    | key m d => exact Nat.zero_le 1
    | value m f key d => exact Nat.zero_le 1
    | done out => exact Nat.zero_le 1
  again {s a next r} hs hstep := by
    change S.step s a = _ at hstep
    rcases hs with hs | ⟨out, rfl⟩
    · cases s with
      | done out => exact absurd hs id
      | separator m =>
          cases a with
          | nil => cases hstep
          | cons byte rest =>
              simp only [step] at hstep
              split at hstep
              · rcases Result.bind_eq_ok.mp hstep with ⟨out, _, heq⟩
                cases heq
              · cases hstep
                exact ⟨.inl (.inl rfl), .inr ⟨rfl, Nat.zero_lt_one⟩⟩
      | key m d =>
          rcases Result.bind_eq_ok.mp hstep with ⟨⟨d', r', st⟩, hpush, hrest⟩
          rw [Result.mapErr_eq_ok] at hpush
          cases st with
          | needsMore => cases hrest
          | ready =>
              have hlt := hK.rest_length_lt strict_keyDecoder hs hpush
              rcases Result.bind_eq_ok.mp hrest with ⟨s', hnext, heq⟩
              rcases Result.bind_eq_ok.mp hnext with ⟨key, _, hk⟩
              rcases afterKey_eq_ok.mp hk with ⟨f, _, rfl⟩
              cases heq
              exact ⟨.inl (.inl rfl), .inl hlt⟩
      | value m f key d =>
          rcases Result.bind_eq_ok.mp hstep with ⟨⟨d', r', st⟩, hpush, hrest⟩
          cases st with
          | needsMore => cases hrest
          | ready =>
              have hlt := (hV f).rest_length_lt (h.framed f).strict hs hpush
              rcases Result.bind_eq_ok.mp hrest with ⟨m', _, heq⟩
              cases heq
              exact ⟨.inl trivial, .inl hlt⟩
    · cases hstep

theorem stage_key (m : M) :
    S.mapDecoder.Stage keyDecoder WK (State.key m) (S.afterKey m) :=
  (progress h hK hV).stage S.keyDecode S.keyDecode (fun hp => .inl hp) fun _ _ => rfl

theorem stage_value (m : M) (f : S.Field) (key : Key) :
    S.mapDecoder.Stage (S.valueStage m f key) (WV f) (State.value m f key)
      fun m' => .ok (.separator m') := by
  have hactive : ∀ {d}, (S.valueStage m f key).Live (WV f) d →
      S.Active WK WV (.value m f key d) := fun hp => .inl hp
  apply (progress h hK hV).stage (fun e => e) (fun e => e) hactive
  intro p b
  rw [Result.mapErr_id]
  change (S.decoder f).push p b >>= _ = (S.decoder f).push p b >>= _
  congr 1
  funext x
  rcases x with ⟨p', r, st⟩
  cases st with
  | needsMore => rfl
  | ready =>
      change S.handle f key ((S.decoder f).finish p') m >>= _ =
        ((S.handle f key ((S.decoder f).finish p') m).mapErr (fun e => e) >>= _) >>= _
      rw [Result.mapErr_id]
      cases S.handle f key ((S.decoder f).finish p') m <;> rfl

omit h hK hV [LawfulCodecs] in
theorem isErr_close_key (m : M) (d : keyDecoder.State) :
    (S.mapDecoder.finish (State.key m d)).IsErr :=
  ⟨S.earlyEnd, rfl⟩

omit h hK hV [LawfulCodecs] in
theorem isErr_close_value (m : M) (f : S.Field) (key : Key) (d : (S.decoder f).State) :
    (S.mapDecoder.finish (State.value m f key d)).IsErr :=
  ⟨S.earlyEnd, rfl⟩

omit h hK hV [LawfulCodecs] in
theorem push_separator_nil (m : M) :
    S.mapDecoder.push (State.separator m) [] = .ok (State.separator m, [], .needsMore) :=
  StagedLoop.push_stop rfl

omit h hK hV [LawfulCodecs] in
theorem push_done (out : α) (b : Bytes) :
    S.mapDecoder.push (State.done out) b = .ok (State.done out, b, .ready) :=
  StagedLoop.push_stop rfl

omit h hK hV [LawfulCodecs] in
/-- The separator ends the map. -/
theorem push_separator (m : M) (r : Bytes) :
    S.mapDecoder.push (State.separator m) (psbtSeparator :: r) =
      S.finish m >>= fun out => .ok (State.done out, r, .ready) := by
  have hstep : S.step (.separator m) (psbtSeparator :: r) =
      S.finish m >>= fun out => .ok (.done out, r, .stop .ready) := by
    rw [step, if_pos rfl]
  cases hfin : S.finish m with
  | error e =>
      rw [hfin] at hstep
      exact StagedLoop.push_error hstep
  | ok out =>
      rw [hfin] at hstep
      exact StagedLoop.push_stop hstep

/-- Any other byte starts a key. -/
theorem push_separator_of_ne (m : M) {byte : UInt8} (hne : byte ≠ psbtSeparator) (r : Bytes) :
    S.mapDecoder.push (State.separator m) (byte :: r) =
      S.mapDecoder.push (State.key m keyDecoder.init) (byte :: r) := by
  have hactive : S.Active WK WV (.separator m) := .inl trivial
  have hstep : S.step (.separator m) (byte :: r) =
      .ok (.key m keyDecoder.init, byte :: r, .again) := by
    rw [step, if_neg hne]
  exact (progress h hK hV).push_again hactive hstep

theorem lawfulOn_mapDecoder : S.mapDecoder.LawfulOn (S.Waiting WK WV) := by
  have hprog := progress h hK hV
  apply hprog.lawfulOn .inl
  · intro s hs a ih
    rcases hs with hs | ⟨out, rfl⟩
    · cases s with
      | done out => exact absurd hs id
      | separator m =>
          cases a with
          | nil =>
              exact .of_wait (push_separator_nil m) trivial fun _ => rfl
          | cons byte r =>
              by_cases hsep : byte = psbtSeparator
              · subst hsep
                cases hfin : S.finish m with
                | error e =>
                    apply PushDecoder.LawfulAt.of_fail
                    intro b'
                    have hpush := push_separator (S := S) m (r ++ b')
                    rw [hfin] at hpush
                    change (S.mapDecoder.push (State.separator m)
                      (psbtSeparator :: (r ++ b'))).toOption = none
                    rw [hpush]
                    rfl
                | ok out =>
                    apply PushDecoder.LawfulAt.of_done (c := [psbtSeparator]) (t := State.done out)
                    intro b'
                    have hpush := push_separator (S := S) m b'
                    rw [hfin] at hpush
                    exact hpush
              · apply PushDecoder.LawfulAt.of_cons (t := State.key m keyDecoder.init)
                · exact push_separator_of_ne h hK hV m hsep
                · intro s' hready
                  have hidle := (stage_key h hK hV m).push_idle hK strict_keyDecoder
                    PushDecoder.LawfulOn.live_init
                  cases hidle.symm.trans hready
                · have hactive : S.Active WK WV (.key m keyDecoder.init) := .inl (.inl rfl)
                  apply ih hactive
                  change (byte :: r).length * (1 + 1) + 0 < (byte :: r).length * (1 + 1) + 1
                  omega
      | key m d =>
          apply (stage_key h hK hV m).lawfulAt hK (fun hw => .inr hw) hs
          intro p' r key next hpush _ hk
          have hlt := hK.rest_length_lt strict_keyDecoder hs hpush
          rcases afterKey_eq_ok.mp hk with ⟨f, _, rfl⟩
          exact ih (.inl (.inl rfl)) (hprog.measure_lt_of_length hlt)
      | value m f key d =>
          have hclosing := (hV f).closing (h.closes f key m)
          apply (stage_value h hK hV m f key).lawfulAt hclosing (fun hw => .inr hw) hs
          intro p' r m' next hpush _ hk
          have hlt := hclosing.rest_length_lt ((h.framed f).strict.closing (h.closes f key m)) hs
            hpush
          cases hk
          exact ih (.inl trivial) (hprog.measure_lt_of_length hlt)
    · apply PushDecoder.LawfulAt.of_done (c := [])
      intro b
      exact push_done out b
  · intro s hs
    cases s with
    | done out => exact absurd hs id
    | separator m => exact push_separator_nil m
    | key m d => exact (stage_key h hK hV m).push_idle hK strict_keyDecoder hs
    | value m f key d =>
        have hclosing := (hV f).closing (h.closes f key m)
        exact (stage_value h hK hV m f key).push_idle hclosing
          ((h.framed f).strict.closing (h.closes f key m)) hs
  · intro s hs
    cases s with
    | done out => exact absurd hs id
    | separator m => exact ⟨S.earlyEnd, rfl⟩
    | key m d => exact isErr_close_key m d
    | value m f key d => exact isErr_close_value m f key d

/-! ## What a map decoder means -/

omit h hK hV [LawfulCodecs] in
theorem meaningFrom_nil (m : M) :
    S.mapDecoder.meaningFrom (State.separator m) [] = .err () := by
  unfold PushDecoder.meaningFrom PushDecoder.runFrom
  rw [push_separator_nil]
  rfl

omit h hK hV [LawfulCodecs] in
theorem meaningFrom_separator (m : M) (r : Bytes) :
    S.mapDecoder.meaningFrom (State.separator m) (psbtSeparator :: r) =
      Parser.ofResult (S.finish m >>= S.atEnd) r := by
  unfold PushDecoder.meaningFrom PushDecoder.runFrom
  rw [push_separator]
  cases S.finish m with
  | error e => cases e <;> rfl
  | ok out =>
      change (S.atEnd out >>= fun a => .ok (a, r)).erase = (S.atEnd out).erase >>= fun a => _
      rw [Result.erase_bind]
      rfl

theorem meaningFrom_pair (m : M) {byte : UInt8} (hne : byte ≠ psbtSeparator) (r : Bytes) :
    S.mapDecoder.meaningFrom (State.separator m) (byte :: r) =
      S.mapDecoder.meaningFrom (State.key m keyDecoder.init) (byte :: r) := by
  unfold PushDecoder.meaningFrom PushDecoder.runFrom
  rw [push_separator_of_ne h hK hV m hne]

/-- The key stage parses a pair, stores its value and looks for the next separator. -/
theorem meaningFrom_key_eq_ok {m : M} {b r : Bytes} {out : α} :
    S.mapDecoder.meaningFrom (State.key m keyDecoder.init) b = .ok (out, r) ↔
      ∃ p m' f v rest, b = p.1.bytes ++ (frame p.2 ++ rest) ∧ S.Step m p m' f v ∧
        S.mapDecoder.meaningFrom (State.separator m') rest = .ok (out, r) := by
  rw [(stage_key h hK hV m).meaningFrom_eq_ok hK fun _ => isErr_close_key m _]
  constructor
  · rintro ⟨key, rest, s, hkey, hafter, hvalue⟩
    rcases accepts_keyDecoder.mp hkey with ⟨rfl, hkeyLe⟩
    rcases afterKey_eq_ok.mp hafter with ⟨f, hf, rfl⟩
    have hvalue' := ((stage_value h hK hV m f key).meaningFrom_eq_ok
      ((hV f).closing (h.closes f key m)) fun _ => isErr_close_value m f key _).mp hvalue
    rcases hvalue' with ⟨m', rest', _, hacc, ⟨⟩, hnext⟩
    rcases (PushDecoder.accepts_closing (h.closes f key m)).mp hacc with ⟨v, hv, hhandle⟩
    rcases (h.framed f).accepts_iff.mp hv with ⟨w, rfl, hw, hdec⟩
    exact ⟨(key, w), m', f, v, rest', rfl, ⟨hkeyLe, hf, hw, hdec, hhandle⟩, hnext⟩
  · rintro ⟨⟨key, w⟩, m', f, v, rest, rfl, hstep, hnext⟩
    refine ⟨key, frame w ++ rest, _, accepts_keyDecoder.mpr ⟨rfl, hstep.key_le⟩,
      afterKey_eq_ok.mpr ⟨f, hstep.fromKey, rfl⟩, ?_⟩
    apply ((stage_value h hK hV m f key).meaningFrom_eq_ok ((hV f).closing (h.closes f key m))
      fun _ => isErr_close_value m f key _).mpr
    refine ⟨m', rest, _, ?_, rfl, hnext⟩
    apply (PushDecoder.accepts_closing (h.closes f key m)).mpr
    refine ⟨v, (h.framed f).accepts_iff.mpr ⟨w, rfl, hstep.value_le, hstep.decodes⟩, ?_⟩
    exact hstep.handle

/-- From the separator stage, a map decoder takes pairs and a separator. -/
theorem meaningFrom_separator_eq_ok {m : M} {b r : Bytes} {out : α} :
    S.mapDecoder.meaningFrom (State.separator m) b = .ok (out, r) ↔
      ∃ ps m', b = mapBytes ps ++ r ∧ S.Steps m ps m' ∧
        (S.finish m' >>= S.atEnd) = .ok out := by
  constructor
  · intro hmean
    induction hlen : b.length using Nat.strong_induction_on generalizing m b with
    | _ n ih =>
        cases b with
        | nil =>
            rw [meaningFrom_nil] at hmean
            cases hmean
        | cons byte b =>
            by_cases hsep : byte = psbtSeparator
            · subst hsep
              rw [meaningFrom_separator] at hmean
              rcases Parser.ofResult_eq_ok.mp hmean with ⟨hout, rfl⟩
              exact ⟨[], m, rfl, .nil, hout⟩
            · rw [meaningFrom_pair h hK hV m hsep, meaningFrom_key_eq_ok h hK hV] at hmean
              rcases hmean with ⟨p, m₁, f, v, rest, hb, hstep, hnext⟩
              have hlt : rest.length < n := by
                have hkey := List.length_pos_iff.mpr (compactSize_ne_nil p.1.body.length)
                rw [hb, Key.bytes, frame] at hlen
                simp only [List.length_append] at hlen
                omega
              rcases ih rest.length hlt hnext rfl with ⟨ps, m', rfl, hsteps, hout⟩
              refine ⟨p :: ps, m', ?_, .cons hstep hsteps, hout⟩
              rw [hb, mapBytes_append, mapBytes_append, pairsBytes_cons, List.append_assoc,
                List.append_assoc]
  · rintro ⟨ps, m', rfl, hsteps, hout⟩
    induction hsteps with
    | nil =>
        rw [mapBytes_append, pairsBytes_nil, List.nil_append, meaningFrom_separator]
        exact Parser.ofResult_eq_ok.mpr ⟨hout, rfl⟩
    | @cons m₀ m₁ m₂ p ps f v head tail ih =>
        rcases p.1.bytes_eq_cons head.key_le with ⟨byte, b, hb, hne⟩
        have hbytes : mapBytes (p :: ps) ++ r =
            p.1.bytes ++ (frame p.2 ++ (mapBytes ps ++ r)) := by
          simp only [mapBytes_append, pairsBytes_cons, List.append_assoc]
        rw [hbytes, hb, List.cons_append, meaningFrom_pair h hK hV m₀ hne, ← List.cons_append,
          ← hb, meaningFrom_key_eq_ok h hK hV]
        exact ⟨p, m₁, f, v, _, rfl, head, ih hout⟩

/-- The key stage returns when the value of its pair and what follows return. -/
theorem returns_meaningFrom_key {m : M} {b : Bytes} :
    (S.mapDecoder.meaningFrom (State.key m keyDecoder.init) b).Returns ↔
      ∀ {key rest f}, b = key.bytes ++ rest → key.body.length ≤ compactSizeLimit →
        S.fromKey key = .ok f → ((S.decoder f).meaning rest).Returns ∧
          ∀ {w m' v rest'}, rest = frame w ++ rest' → S.Step m (key, w) m' f v →
            (S.mapDecoder.meaningFrom (State.separator m') rest').Returns := by
  have hvalue : ∀ {f key rest},
      (S.mapDecoder.meaningFrom (State.value m f key (S.decoder f).init) rest).Returns ↔
        ((S.decoder f).meaning rest).Returns ∧
          ∀ {m' rest'}, (S.valueStage m f key).Accepts rest m' rest' →
            (S.mapDecoder.meaningFrom (State.separator m') rest').Returns := by
    intro f key rest
    have hstage := (stage_value h hK hV m f key).returns_meaningFrom
      ((hV f).closing (h.closes f key m)) (fun _ => isErr_close_value m f key _) (b := rest)
    refine hstage.trans ?_
    rw [valueStage, PushDecoder.returns_closing (h.closes f key m)
      fun v => h.returns_handle f key v m]
    constructor
    · rintro ⟨hreturns, hall⟩
      exact ⟨hreturns, fun hacc => (hall hacc).2 rfl⟩
    · rintro ⟨hreturns, hall⟩
      refine ⟨hreturns, fun hacc => ⟨trivial, ?_⟩⟩
      rintro _ ⟨⟩
      exact hall hacc
  rw [(stage_key h hK hV m).returns_meaningFrom hK fun _ => isErr_close_key m _]
  constructor
  · rintro ⟨_, hall⟩ key rest f rfl hkey hf
    have hacc : keyDecoder.Accepts (key.bytes ++ rest) key rest :=
      accepts_keyDecoder.mpr ⟨rfl, hkey⟩
    have hnext := (hall hacc).2 (afterKey_eq_ok.mpr ⟨f, hf, rfl⟩)
    rcases hvalue.mp hnext with ⟨hreturns, hrest⟩
    refine ⟨hreturns, ?_⟩
    rintro w m' v rest' rfl hstep
    apply hrest
    apply (PushDecoder.accepts_closing (h.closes f key m)).mpr
    exact ⟨v, (h.framed f).accepts_iff.mpr ⟨w, rfl, hstep.value_le, hstep.decodes⟩,
      hstep.handle⟩
  · intro hall
    refine ⟨PushDecoder.safe_iff.mp safe_keyDecoder b, ?_⟩
    intro key rest hacc
    rcases accepts_keyDecoder.mp hacc with ⟨hb, hkey⟩
    refine ⟨(h.returns_fromKey key).bind fun _ _ => trivial, ?_⟩
    intro s hafter
    rcases afterKey_eq_ok.mp hafter with ⟨f, hf, rfl⟩
    rcases hall hb hkey hf with ⟨hreturns, hrest⟩
    refine hvalue.mpr ⟨hreturns, ?_⟩
    intro m' rest' hvalueAcc
    rcases (PushDecoder.accepts_closing (h.closes f key m)).mp hvalueAcc with ⟨v, hv, hhandle⟩
    rcases (h.framed f).accepts_iff.mp hv with ⟨w, hw, hwLe, hdec⟩
    exact hrest hw ⟨hkey, hf, hwLe, hdec, hhandle⟩

/-- From the separator stage, a map decoder panics exactly in the value of a pair. -/
theorem returns_meaningFrom_separator {m : M} {b : Bytes} :
    (S.mapDecoder.meaningFrom (State.separator m) b).Returns ↔ ¬S.Cuts m b := by
  induction hlen : b.length using Nat.strong_induction_on generalizing m b with
  | _ n ih =>
      -- whatever comes after a pair is shorter
      have hshorter : ∀ {key : Key} {w rest : Bytes}, b = key.bytes ++ (frame w ++ rest) →
          rest.length < n := by
        intro key w rest hb
        have hkey := List.length_pos_iff.mpr (compactSize_ne_nil key.body.length)
        rw [hb, Key.bytes, frame] at hlen
        simp only [List.length_append] at hlen
        omega
      cases b with
      | nil =>
          rw [meaningFrom_nil]
          constructor
          · rintro _ ⟨ps, m', key, f, rest, hb, _, hkey, _⟩
            rcases key.bytes_eq_cons hkey with ⟨byte, b', hbytes, _⟩
            rw [hbytes] at hb
            exact absurd hb.symm (by simp)
          · intro _
            trivial
      | cons byte b =>
          by_cases hsep : byte = psbtSeparator
          · subst hsep
            rw [meaningFrom_separator, Parser.returns_ofResult]
            constructor
            · rintro _ ⟨ps, m', key, f, rest, hb, hsteps, hkey, _⟩
              -- neither a pair nor a key starts with the separator
              cases hsteps with
              | nil =>
                  rcases key.bytes_eq_cons hkey with ⟨byte', b', hbytes, hne⟩
                  rw [pairsBytes_nil, hbytes] at hb
                  exact hne (List.cons.inj hb).1.symm
              | @cons _ _ _ p ps' f' v head tail =>
                  rcases p.1.bytes_eq_cons head.key_le with ⟨byte', b', hbytes, hne⟩
                  rw [pairsBytes_cons, hbytes] at hb
                  exact hne (List.cons.inj hb).1.symm
            · intro _
              exact (h.returns_finish m).bind fun out _ => h.returns_atEnd out
          · rw [meaningFrom_pair h hK hV m hsep, returns_meaningFrom_key h hK hV]
            constructor
            · rintro hall ⟨ps, m', key, f, rest, hb, hsteps, hkey, hf, hcut⟩
              cases hsteps with
              | nil => exact hcut (hall hb hkey hf).1
              | @cons _ m₁ _ p ps' f' v head tail =>
                  rw [pairsBytes_cons, List.append_assoc, List.append_assoc] at hb
                  have hnext := (hall hb head.key_le head.fromKey).2 rfl head
                  exact (ih _ (hshorter hb) rfl).mp hnext
                    ⟨ps', m', key, f, rest, rfl, tail, hkey, hf, hcut⟩
            · intro hnot key rest f hb hkey hf
              constructor
              · by_contra hcut
                exact hnot ⟨[], m, key, f, rest, hb, .nil, hkey, hf, hcut⟩
              · rintro w m' v rest' rfl hstep
                apply (ih _ (hshorter hb) rfl).mpr
                rintro ⟨ps, m'', key', f', rest'', rfl, hsteps, hkey', hf', hcut⟩
                refine hnot ⟨(key, w) :: ps, m'', key', f', rest'', ?_, .cons hstep hsteps,
                  hkey', hf', hcut⟩
                rw [hb, pairsBytes_cons, List.append_assoc, List.append_assoc]

end Laws

namespace Lawful

variable [LawfulCodecs] {S : MapSpec ε M α}

theorem lawful_mapDecoder (h : S.Lawful) : S.mapDecoder.Lawful := by
  rcases lawful_keyDecoder with ⟨WK, hK⟩
  exact ⟨_, lawfulOn_mapDecoder h hK fun f => (h.framed f).lawful.choose_spec⟩

omit [LawfulCodecs] in
theorem strict_mapDecoder (S : MapSpec ε M α) : S.mapDecoder.Strict where
  idle := push_separator_nil S.empty
  early := ⟨S.earlyEnd, rfl⟩

/-- A map decoder takes pairs and a separator, and steps through the pairs. -/
theorem accepts_iff (h : S.Lawful) {b r : Bytes} {out : α} :
    S.mapDecoder.Accepts b out r ↔ ∃ ps m, b = mapBytes ps ++ r ∧ S.Steps S.empty ps m ∧
      (S.finish m >>= S.atEnd) = .ok out := by
  rcases lawful_keyDecoder with ⟨WK, hK⟩
  rw [← PushDecoder.meaning_eq_ok]
  exact meaningFrom_separator_eq_ok h hK fun f => (h.framed f).lawful.choose_spec

/-- A map decoder panics exactly in the value of a pair. -/
theorem returns_iff (h : S.Lawful) {b : Bytes} :
    (S.mapDecoder.meaning b).Returns ↔ ¬S.Cuts S.empty b := by
  rcases lawful_keyDecoder with ⟨WK, hK⟩
  exact returns_meaningFrom_separator h hK fun f => (h.framed f).lawful.choose_spec

end Lawful

end MapSpec

end RustPsbt
