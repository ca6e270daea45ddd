import RustPsbt.Serialization.Pairs

/-!
# What version 0 degrades

Version 0 has no fields for silent payments: they are written under their key types of
version 2, which a reader of version 0 does not know.  `degraded` reports them.

Main results:

- Theorem `PsbtV0.degraded_exact`: no other key type of version 2 is written, and the report
  counts exactly the fields that are.
-/

namespace RustPsbt

/-! ## The report -/

/-- `Degraded`. -/
@[ext]
structure Degraded where
  spEcdhShares : Nat
  spDleqProofs : Nat
  spDroppedInputs : Nat
  spDroppedOutputs : Nat
deriving DecidableEq

/-- `Degraded::is_empty`. -/
def Degraded.isEmpty (self : Degraded) : Bool :=
  self.spEcdhShares = 0 && self.spDleqProofs = 0 && self.spDroppedInputs = 0 &&
    self.spDroppedOutputs = 0

/-- The key types of silent payments. -/
def MapPlace.spTypes : MapPlace → List UInt64
  | .global => [0x07, 0x08]
  | .input _ => [0x1D, 0x1E]
  | .output _ => [0x09, 0x0A]

/-- The key types that version 2 adds for what the unsigned transaction holds in version 0,
and for its lock times and flags. -/
def MapPlace.v2Types : MapPlace → List UInt64
  | .global => [0x02, 0x03, 0x04, 0x05, 0x06]
  | .input _ => [0x0E, 0x0F, 0x10, 0x11, 0x12]
  | .output _ => [0x03, 0x04]

/-- Counting the elements of a list by their positions. -/
theorem countP_range_length {α : Type} {p : α → Bool} {q : Nat → Bool} {l : List α}
    (h : ∀ i a, l[i]? = some a → q i = p a) : (List.range l.length).countP q = l.countP p := by
  induction l generalizing q with
  | nil => rfl
  | cons a l ih =>
      have htail : (List.range l.length).countP (fun i => q (i + 1)) = l.countP p :=
        ih fun i x hx => h (i + 1) x hx
      rw [List.length_cons, List.range_succ_eq_map, List.countP_cons, List.countP_map,
        List.countP_cons, h 0 a rfl]
      exact congrArg (· + if p a then 1 else 0) htail

theorem BTreeMap.mem_of_getElem? {K V : Type} [OrdKey K] {m : BTreeMap K V} {k : K} {v : V}
    (h : m[k]? = some v) : k ∈ m :=
  Std.ExtTreeMap.mem_iff_isSome_getElem?.mpr (Option.isSome_iff_exists.mpr ⟨v, h⟩)

section Generic

variable [BitcoinTypes] [BitcoinCodecs]

/-- The keys that are kept as unknown are none that a reader of version 2 knows. -/
structure Psbt.UnknownKeys (p : Psbt) : Prop where
  global : p.global.UnknownKeys
  inputs : ∀ i ∈ p.inputs, i.UnknownKeys
  outputs : ∀ o ∈ p.outputs, o.UnknownKeys

theorem Psbt.WellFormed.unknownKeys [TxidHash] {p : Psbt} (h : p.WellFormed) : p.UnknownKeys :=
  ⟨h.globalKeys, h.inputKeys, h.outputKeys⟩

/-- `PsbtV0::degraded`. -/
def PsbtV0.degraded (self : PsbtV0) : Degraded where
  spEcdhShares := self.psbt.global.spEcdhShares.size
  spDleqProofs := self.psbt.global.spDleqProofs.size
  spDroppedInputs := self.psbt.inputs.countP fun i =>
    !i.spEcdhShares.isEmpty || !i.spDleqProofs.isEmpty
  spDroppedOutputs := self.psbt.outputs.countP fun o => o.spV0Info.isSome || o.spV0Label.isSome

/-! ## Key types of the pairs -/

namespace MapCodec

variable {ε M α : Type} {C : MapCodec ε M α}

/-- The pairs that belong to one field are as many as the rows of the field. -/
theorem Lawful.countP_pairsOf (h : C.Lawful) {cs : List C.table.Col} (hnodup : cs.Nodup)
    {a : C.table.Col} (ha : a ∈ cs) {m : M} {q : Pair → Bool}
    (hq : ∀ e : C.table.Entry, e.col ∈ cs → C.table.lookup m e.col e.key = some e.value →
      (q (C.pairOf e) ↔ e.col = a)) :
    (C.pairsOf cs m).countP q = ((C.table.column a).rows m).length := by
  induction cs with
  | nil => cases ha
  | cons c cs ih =>
      have hcons : C.pairsOf (c :: cs) m =
          (C.table.columnEntries m c).map C.pairOf ++ C.pairsOf cs m := by
        rw [pairsOf, List.flatMap_cons, List.map_append]
        rfl
      have hc : c ∉ cs := (List.nodup_cons.mp hnodup).1
      have hhead : ∀ e ∈ C.table.columnEntries m c, (q (C.pairOf e) ↔ c = a) := by
        intro e he
        obtain ⟨rfl, hlookup⟩ := h.table.mem_columnEntries.mp he
        exact hq e List.mem_cons_self hlookup
      have htail : ∀ e : C.table.Entry, e.col ∈ cs →
          C.table.lookup m e.col e.key = some e.value → (q (C.pairOf e) ↔ e.col = a) :=
        fun e he => hq e (List.mem_cons_of_mem c he)
      rw [hcons, List.countP_append, List.countP_map]
      by_cases heq : c = a
      · subst heq
        -- all pairs of the field are counted, and none of the fields behind it
        have hall : (C.table.columnEntries m c).countP (q ∘ C.pairOf) =
            (C.table.columnEntries m c).length :=
          List.countP_eq_length.mpr fun e he => (hhead e he).mpr rfl
        have hnone : (C.pairsOf cs m).countP q = 0 := by
          refine List.countP_eq_zero.mpr fun pair hpair hcount => ?_
          obtain ⟨e, he, hlookup, rfl⟩ := h.mem_pairsOf.mp hpair
          exact hc ((htail e he hlookup).mp hcount ▸ he)
        rw [hall, hnone, Nat.add_zero, Table.columnEntries, List.length_map]
      · have hnone : (C.table.columnEntries m c).countP (q ∘ C.pairOf) = 0 :=
          List.countP_eq_zero.mpr fun e he hcount => heq ((hhead e he).mp hcount)
        rw [hnone, Nat.zero_add]
        exact ih (List.nodup_cons.mp hnodup).2
          ((List.mem_cons.mp ha).resolve_left fun h => heq h.symm) htail

/-- There is a pair that belongs to one of two fields when one of them has a row. -/
theorem Lawful.any_pairsOf (h : C.Lawful) {cs : List C.table.Col} {a b : C.table.Col}
    (ha : a ∈ cs) (hb : b ∈ cs) {m : M} {q : Pair → Bool}
    (hq : ∀ e : C.table.Entry, e.col ∈ cs → C.table.lookup m e.col e.key = some e.value →
      (q (C.pairOf e) ↔ e.col = a ∨ e.col = b)) :
    (C.pairsOf cs m).any q =
      (!((C.table.column a).rows m).isEmpty || !((C.table.column b).rows m).isEmpty) := by
  have hrow : ∀ c ∈ cs, (c = a ∨ c = b) → ((C.table.column c).rows m).isEmpty = false →
      (C.pairsOf cs m).any q = true := by
    intro c hc hcol hrows
    obtain ⟨⟨k, v⟩, hmem⟩ := List.exists_mem_of_ne_nil _ (List.isEmpty_eq_false_iff.mp hrows)
    have hlookup := (h.table.column c).mem_rows.mp hmem
    exact List.any_eq_true.mpr ⟨_, h.mem_pairsOf.mpr ⟨⟨c, k, v⟩, hc, hlookup, rfl⟩,
      (hq ⟨c, k, v⟩ hc hlookup).mpr hcol⟩
  rw [Bool.eq_iff_iff]
  constructor
  · intro hany
    obtain ⟨pair, hpair, hcount⟩ := List.any_eq_true.mp hany
    obtain ⟨e, he, hlookup, rfl⟩ := h.mem_pairsOf.mp hpair
    have hmem : (e.key, e.value) ∈ (C.table.column e.col).rows m :=
      (h.table.column e.col).mem_rows.mpr hlookup
    have hrows : ((C.table.column e.col).rows m).isEmpty = false :=
      List.isEmpty_eq_false_iff.mpr (List.ne_nil_of_mem hmem)
    rcases (hq e he hlookup).mp hcount with heq | heq
    · rw [heq] at hrows
      rw [hrows]
      rfl
    · rw [heq] at hrows
      rw [hrows, Bool.not_false, Bool.or_true]
  · intro hor
    rcases Bool.or_eq_true_iff.mp hor with hrows | hrows
    · exact hrow a ha (.inl rfl) (Bool.not_inj hrows)
    · exact hrow b hb (.inr rfl) (Bool.not_inj hrows)

end MapCodec

namespace Global

/-- An unknown key has no key type of version 2. -/
theorem typeValue_of_unknowns {key : Key} (h : fromKey key = .ok .unknowns) :
    key.typeValue ∉ [0xFB, 0x02, 0x03, 0x04, 0x05, 0x06, 0x01, 0xFC, 0x07, 0x08, 0x00] := by
  intro hmem
  simp only [List.mem_cons, List.not_mem_nil, or_false] at hmem
  rcases hmem with ht | ht | ht | ht | ht | ht | ht | ht | ht | ht | ht <;>
    simp [fromKey, ht] at h

end Global

namespace GlobalV0

/-- The key that is written for an entry selects the field of the entry, and is of no key
type of version 2. -/
theorem fromKey_rawKey {v0 : PsbtV0} (h : v0.psbt.global.UnknownKeys) {c : Field}
    {k : FieldKey c} {v : FieldValue c} (hlookup : table.lookup (fields v0) c k = some v) :
    fromKey (rawKey c k) = .ok c ∧ (rawKey c k).typeValue ∉ MapPlace.global.v2Types := by
  cases c with
  | unknowns =>
      have hmem : (k : Key) ∈ v0.psbt.global.unknowns := BTreeMap.mem_of_getElem? (K := Key) hlookup
      have hkey := Global.typeValue_of_unknowns (h k hmem)
      simp only [List.mem_cons, List.not_mem_nil, or_false, not_or] at hkey
      simp [fromKey, rawKey, MapPlace.v2Types, hkey]
  | _ => simp [fromKey, rawKey, MapPlace.v2Types, ProprietaryKey.toKey, proprietaryType]

/-- The keys of a key type of silent payments are those of its field. -/
theorem typeValue_rawKey {v0 : PsbtV0} (h : v0.psbt.global.UnknownKeys) {c : Field}
    {k : FieldKey c} {v : FieldValue c} (hlookup : table.lookup (fields v0) c k = some v) :
    ((rawKey c k).typeValue = 0x07 ↔ c = .spEcdhShares) ∧
      ((rawKey c k).typeValue = 0x08 ↔ c = .spDleqProofs) := by
  have hkey := (fromKey_rawKey h hlookup).1
  refine ⟨⟨fun htype => ?_, fun hcol => ?_⟩, ⟨fun htype => ?_, fun hcol => ?_⟩⟩
  · have hfield : fromKey (rawKey c k) = .ok .spEcdhShares := by simp [fromKey, htype]
    exact Except.ok.inj (hkey.symm.trans hfield)
  · cases hcol
    rfl
  · have hfield : fromKey (rawKey c k) = .ok .spDleqProofs := by simp [fromKey, htype]
    exact Except.ok.inj (hkey.symm.trans hfield)
  · cases hcol
    rfl

end GlobalV0

namespace InputV0

/-- An unknown key has no key type of version 2. -/
theorem typeValue_of_unknowns {key : Key} (h : Input.fromKey key = .ok .unknowns) :
    key.typeValue ∉ [0x0E, 0x0F, 0x10, 0x11, 0x12, 0x1D, 0x1E] := by
  intro hmem
  simp only [List.mem_cons, List.not_mem_nil, or_false] at hmem
  rcases hmem with ht | ht | ht | ht | ht | ht | ht <;> simp [Input.fromKey, ht] at h

/-- A key that is written is of a key type of silent payments only for a field of these, and
of no other key type of version 2. -/
theorem typeValue_rawKey {i : Input} (h : i.UnknownKeys) {c : Input.Field}
    {k : Input.FieldKey c} {v : Input.FieldValue c} (he : c ∈ encoded)
    (hlookup : Input.table.lookup (fields i) c k = some v) :
    ((Input.rawKey c k).typeValue ∈ (MapPlace.input 0).spTypes ↔
        c = .spEcdhShares ∨ c = .spDleqProofs) ∧
      (Input.rawKey c k).typeValue ∉ (MapPlace.input 0).v2Types := by
  cases c with
  | unknowns =>
      have hmem : (k : Key) ∈ i.unknowns := BTreeMap.mem_of_getElem? (K := Key) hlookup
      have hkey := typeValue_of_unknowns (h k hmem)
      simp only [List.mem_cons, List.not_mem_nil, or_false, not_or] at hkey
      simp [Input.rawKey, MapPlace.spTypes, MapPlace.v2Types, hkey]
  | previousTxid => exact absurd he (by decide)
  | spentOutputIndex => exact absurd he (by decide)
  | sequence => exact absurd he (by decide)
  | minTime => exact absurd he (by decide)
  | minHeight => exact absurd he (by decide)
  | _ =>
      simp [Input.rawKey, MapPlace.spTypes, MapPlace.v2Types, ProprietaryKey.toKey,
        proprietaryType]

end InputV0

namespace OutputV0

/-- An unknown key has no key type of version 2. -/
theorem typeValue_of_unknowns {key : Key} (h : Output.fromKey key = .ok .unknowns) :
    key.typeValue ∉ [0x03, 0x04, 0x09, 0x0A] := by
  intro hmem
  simp only [List.mem_cons, List.not_mem_nil, or_false] at hmem
  rcases hmem with ht | ht | ht | ht <;> simp [Output.fromKey, ht] at h

/-- A key that is written is of a key type of silent payments only for a field of these, and
of no other key type of version 2. -/
theorem typeValue_rawKey {o : Output} (h : o.UnknownKeys) {c : Output.Field}
    {k : Output.FieldKey c} {v : Output.FieldValue c} (he : c ∈ encoded)
    (hlookup : Output.table.lookup (fields o) c k = some v) :
    ((Output.rawKey c k).typeValue ∈ (MapPlace.output 0).spTypes ↔
        c = .spV0Info ∨ c = .spV0Label) ∧
      (Output.rawKey c k).typeValue ∉ (MapPlace.output 0).v2Types := by
  cases c with
  | unknowns =>
      have hmem : (k : Key) ∈ o.unknowns := BTreeMap.mem_of_getElem? (K := Key) hlookup
      have hkey := typeValue_of_unknowns (h k hmem)
      simp only [List.mem_cons, List.not_mem_nil, or_false, not_or] at hkey
      simp [Output.rawKey, MapPlace.spTypes, MapPlace.v2Types, hkey]
  | amount => exact absurd he (by decide)
  | scriptPubkey => exact absurd he (by decide)
  | _ =>
      simp [Output.rawKey, MapPlace.spTypes, MapPlace.v2Types, ProprietaryKey.toKey,
        proprietaryType]

end OutputV0

/-! ## The report is exact -/

namespace PsbtV0

variable [LawfulCodecs] {v0 : PsbtV0}

/-- The shares and the proofs of the global map are counted. -/
theorem countP_global (h : v0.psbt.global.UnknownKeys) :
    (v0.pairsAt .global).countP (·.1.typeValue == 0x07) = v0.degraded.spEcdhShares ∧
      (v0.pairsAt .global).countP (·.1.typeValue == 0x08) = v0.degraded.spDleqProofs := by
  constructor
  · refine (GlobalV0.lawful_codec.countP_pairsOf (a := .spEcdhShares)
      (by decide : GlobalV0.encoded.Nodup) (GlobalV0.mem_encoded (by decide))
      fun e _ hlookup => ?_).trans Std.ExtTreeMap.length_toList
    exact beq_iff_eq.trans (GlobalV0.typeValue_rawKey h hlookup).1
  · refine (GlobalV0.lawful_codec.countP_pairsOf (a := .spDleqProofs)
      (by decide : GlobalV0.encoded.Nodup) (GlobalV0.mem_encoded (by decide))
      fun e _ hlookup => ?_).trans Std.ExtTreeMap.length_toList
    exact beq_iff_eq.trans (GlobalV0.typeValue_rawKey h hlookup).2

/-- The pair is of a key type of silent payments. -/
def isSp (place : MapPlace) (pair : Pair) : Bool :=
  place.spTypes.contains pair.1.typeValue

/-- An input map is counted when a pair of silent payments is written of it. -/
theorem any_isSp_input {i : Nat} {x : Input} (hx : v0.psbt.inputs[i]? = some x)
    (h : x.UnknownKeys) : (v0.pairsAt (.input i)).any (isSp (.input i)) =
      (!x.spEcdhShares.isEmpty || !x.spDleqProofs.isEmpty) := by
  rw [pairsAt, hx]
  refine (InputV0.lawful_codec.any_pairsOf (a := .spEcdhShares) (b := .spDleqProofs)
    (InputV0.mem_encoded rfl) (InputV0.mem_encoded rfl) fun e he hlookup => ?_).trans ?_
  · exact List.contains_iff_mem.trans (InputV0.typeValue_rawKey h he hlookup).1
  · change (!x.spEcdhShares.toList.isEmpty || !x.spDleqProofs.toList.isEmpty) = _
    rw [Std.ExtTreeMap.isEmpty_toList, Std.ExtTreeMap.isEmpty_toList]

/-- An output map is counted when a pair of silent payments is written of it. -/
theorem any_isSp_output {i : Nat} {x : Output} (hx : v0.psbt.outputs[i]? = some x)
    (h : x.UnknownKeys) : (v0.pairsAt (.output i)).any (isSp (.output i)) =
      (x.spV0Info.isSome || x.spV0Label.isSome) := by
  rw [pairsAt, hx]
  refine (OutputV0.lawful_codec.any_pairsOf (a := .spV0Info) (b := .spV0Label)
    (OutputV0.mem_encoded (by decide) (by decide) (by decide))
    (OutputV0.mem_encoded (by decide) (by decide) (by decide)) fun e he hlookup => ?_).trans ?_
  · exact List.contains_iff_mem.trans (OutputV0.typeValue_rawKey h he hlookup).1
  · have hrows : ∀ {V : Type} (value : Option V),
        (value.toList.map fun v => ((), v)).isEmpty = !value.isSome := by
      intro V value
      cases value <;> rfl
    change (!(x.spV0Info.toList.map fun v => ((), v)).isEmpty ||
      !(x.spV0Label.toList.map fun v => ((), v)).isEmpty) = _
    rw [hrows, hrows, Bool.not_not, Bool.not_not]

/-- No key of another key type of version 2 is written. -/
theorem typeValue_notMem_v2Types (h : v0.psbt.UnknownKeys) {place : MapPlace} {pair : Pair}
    (hpair : pair ∈ v0.pairsAt place) : pair.1.typeValue ∉ place.v2Types := by
  cases place with
  | global =>
      obtain ⟨e, _, hlookup, rfl⟩ := GlobalV0.lawful_codec.mem_pairsOf.mp hpair
      exact (GlobalV0.fromKey_rawKey h.global hlookup).2
  | input i =>
      obtain ⟨x, hx, hpair⟩ := mem_pairsAt_input.mp hpair
      obtain ⟨e, he, hlookup, rfl⟩ := InputV0.lawful_codec.mem_pairsOf.mp hpair
      exact (InputV0.typeValue_rawKey (h.inputs x (List.mem_of_getElem? hx)) he hlookup).2
  | output i =>
      obtain ⟨x, hx, hpair⟩ := mem_pairsAt_output.mp hpair
      obtain ⟨e, he, hlookup, rfl⟩ := OutputV0.lawful_codec.mem_pairsOf.mp hpair
      exact (OutputV0.typeValue_rawKey (h.outputs x (List.mem_of_getElem? hx)) he hlookup).2

/-- The report of the pairs that are written. -/
def writtenSp (self : PsbtV0) : Degraded where
  spEcdhShares := (self.pairsAt .global).countP (·.1.typeValue == 0x07)
  spDleqProofs := (self.pairsAt .global).countP (·.1.typeValue == 0x08)
  spDroppedInputs := (List.range self.psbt.inputs.length).countP fun i =>
    (self.pairsAt (.input i)).any (isSp (.input i))
  spDroppedOutputs := (List.range self.psbt.outputs.length).countP fun i =>
    (self.pairsAt (.output i)).any (isSp (.output i))

theorem degraded_eq_writtenSp (h : v0.psbt.UnknownKeys) : v0.degraded = v0.writtenSp := by
  obtain ⟨hshares, hproofs⟩ := countP_global h.global
  have hinputs : v0.writtenSp.spDroppedInputs = v0.degraded.spDroppedInputs :=
    countP_range_length fun _ x hx =>
      any_isSp_input hx (h.inputs x (List.mem_of_getElem? hx))
  have houtputs : v0.writtenSp.spDroppedOutputs = v0.degraded.spDroppedOutputs :=
    countP_range_length fun _ x hx =>
      any_isSp_output hx (h.outputs x (List.mem_of_getElem? hx))
  exact (Degraded.ext hshares hproofs hinputs houtputs).symm

omit [LawfulCodecs] in
/-- The maps of one kind are all left out of the report when no pair of silent payments is
written of them. -/
theorem countP_any_eq_zero {n : Nat} {f : Nat → MapPlace}
    (hrange : ∀ i pair, pair ∈ v0.pairsAt (f i) → i < n) :
    (List.range n).countP (fun i => (v0.pairsAt (f i)).any (isSp (f i))) = 0 ↔
      ∀ i, ∀ pair ∈ v0.pairsAt (f i), isSp (f i) pair = false := by
  rw [List.countP_eq_zero]
  constructor
  · intro hnone i pair hpair
    have hany := hnone i (List.mem_range.mpr (hrange i pair hpair))
    rw [Bool.not_eq_true, List.any_eq_false] at hany
    exact Bool.not_eq_true _ ▸ hany pair hpair
  · intro hnone i _
    rw [Bool.not_eq_true, List.any_eq_false]
    intro pair hpair
    simp [hnone i pair hpair]

omit [LawfulCodecs] in
/-- The report is empty when no pair of silent payments is written. -/
theorem isEmpty_writtenSp :
    v0.writtenSp.isEmpty ↔ ∀ place, ∀ pair ∈ v0.pairsAt place, isSp place pair = false := by
  have hglobal : (v0.writtenSp.spEcdhShares = 0 ∧ v0.writtenSp.spDleqProofs = 0) ↔
      ∀ pair ∈ v0.pairsAt .global, isSp .global pair = false := by
    simp only [writtenSp, List.countP_eq_zero, ← forall_and]
    refine forall_congr' fun pair => ?_
    simp [isSp, MapPlace.spTypes, imp_and]
  have hinputs : v0.writtenSp.spDroppedInputs = 0 ↔
      ∀ i, ∀ pair ∈ v0.pairsAt (.input i), isSp (.input i) pair = false := by
    refine countP_any_eq_zero fun i pair hpair => ?_
    obtain ⟨x, hx, -⟩ := mem_pairsAt_input.mp hpair
    exact (List.getElem?_eq_some_iff.mp hx).1
  have houtputs : v0.writtenSp.spDroppedOutputs = 0 ↔
      ∀ i, ∀ pair ∈ v0.pairsAt (.output i), isSp (.output i) pair = false := by
    refine countP_any_eq_zero fun i pair hpair => ?_
    obtain ⟨x, hx, -⟩ := mem_pairsAt_output.mp hpair
    exact (List.getElem?_eq_some_iff.mp hx).1
  simp only [Degraded.isEmpty, Bool.and_eq_true, decide_eq_true_eq, hglobal, hinputs, houtputs]
  constructor
  · intro h place
    cases place with
    | global => exact h.1.1
    | input i => exact h.1.2 i
    | output i => exact h.2 i
  · intro h
    exact ⟨⟨h .global, fun i => h (.input i)⟩, fun i => h (.output i)⟩

/-- What version 0 writes under key types of version 2 are the fields of silent payments.
The report counts them exactly, and it is empty when there are none. -/
theorem degraded_exact (h : v0.psbt.UnknownKeys) :
    v0.serialize = psbtMagicBytes ++ v0.places.flatMap (fun place => mapBytes (v0.pairsAt place)) ∧
      (∀ place, ∀ pair ∈ v0.pairsAt place, pair.1.typeValue ∉ place.v2Types) ∧
        v0.degraded = v0.writtenSp ∧
          (v0.degraded.isEmpty ↔
            ∀ place, ∀ pair ∈ v0.pairsAt place, isSp place pair = false) := by
  have hexact := degraded_eq_writtenSp h
  refine ⟨serialize_eq_pairs v0, fun place pair hpair => typeValue_notMem_v2Types h hpair,
    hexact, ?_⟩
  rw [hexact]
  exact isEmpty_writtenSp

end PsbtV0

end Generic

/-! ## A reference report -/

section

attribute [local instance] Reference.types Reference.codecs Reference.lawfulCodecs
  Reference.txidHash

/-- A PSBT with a share for all inputs and a labelled output. -/
def Reference.shared : PsbtV0 where
  psbt :=
    { Reference.signed with
      global :=
        { Reference.signed.global with
          spEcdhShares := ({} : BTreeMap _ _).insert (compressedKey 1) (compressedKey 2) }
      outputs := [{ Reference.output [0x51] with spV0Label := some 7 }] }
  lockTime := .zero

theorem Reference.unknownKeys_shared : Reference.shared.psbt.UnknownKeys where
  global key hkey := absurd hkey (BTreeMap.not_mem_of_isEmpty (by decide +kernel) key)
  inputs i hi key hkey := by
    have hunknowns : ∀ i ∈ Reference.shared.psbt.inputs, i.unknowns.isEmpty := by decide +kernel
    exact absurd hkey (BTreeMap.not_mem_of_isEmpty (hunknowns i hi) key)
  outputs o ho key hkey := by
    have hunknowns : ∀ o ∈ Reference.shared.psbt.outputs, o.unknowns.isEmpty := by
      decide +kernel
    exact absurd hkey (BTreeMap.not_mem_of_isEmpty (hunknowns o ho) key)

/-- The report of the reference PSBT is not empty, and neither are its pairs of silent
payments. -/
theorem PsbtV0.degraded_exact_shared :
    Reference.shared.degraded = ⟨1, 0, 0, 1⟩ ∧
      ¬∀ place, ∀ pair ∈ Reference.shared.pairsAt place, isSp place pair = false := by
  have hreport : Reference.shared.degraded = ⟨1, 0, 0, 1⟩ := by decide +kernel
  have hempty := (degraded_exact Reference.unknownKeys_shared).2.2.2
  refine ⟨hreport, fun hnone => ?_⟩
  have hcontra := hempty.mpr hnone
  rw [hreport] at hcontra
  exact absurd hcontra (by decide)

end

end RustPsbt
