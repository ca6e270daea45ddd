import RustPsbt.Serialization.V0
import RustPsbt.Serialization.V2

/-!
# The pairs of a PSBT

A PSBT is written as the key-value pairs of its maps.

Main results:

- Theorem `Psbt.serialize_eq_pairs`: what is written of a PSBT are the pairs of its maps.
- Theorem `PsbtV0.serialize_eq_pairs`: the same in version 0.
-/

namespace RustPsbt

/-- Going through the elements of a list by their positions. -/
theorem flatMap_range_length {α β : Type} {f : α → List β} {g : Nat → List β} {l : List α}
    (h : ∀ i a, l[i]? = some a → g i = f a) : (List.range l.length).flatMap g = l.flatMap f := by
  induction l generalizing g with
  | nil => rfl
  | cons a l ih =>
      have htail : (List.range l.length).flatMap (fun i => g (i + 1)) = l.flatMap f :=
        ih fun i x hx => h (i + 1) x hx
      rw [List.length_cons, List.range_succ_eq_map, List.flatMap_cons, List.flatMap_map,
        List.flatMap_cons, h 0 a rfl]
      exact congrArg (f a ++ ·) htail

/-- Which map of a PSBT. -/
inductive MapPlace where
  | global
  | input (index : Nat)
  | output (index : Nat)

/-- The maps of a PSBT, in the order in which they are written. -/
def MapPlace.all (inputs outputs : Nat) : List MapPlace :=
  .global :: ((List.range inputs).map .input ++ (List.range outputs).map .output)

section Generic

variable [BitcoinTypes] [BitcoinCodecs]

namespace MapCodec

variable {ε M α : Type} {C : MapCodec ε M α}

/-- The pairs that are written of the fields `cs` of a record. -/
def pairsOf (C : MapCodec ε M α) (cs : List C.table.Col) (m : M) : List Pair :=
  (cs.flatMap (C.table.columnEntries m)).map C.pairOf

/-- The pairs that are written of a record. -/
def pairs (C : MapCodec ε M α) (m : M) : List Pair :=
  C.pairsOf C.table.order m

theorem Lawful.mem_pairsOf (h : C.Lawful) {cs : List C.table.Col} {m : M} {pair : Pair} :
    pair ∈ C.pairsOf cs m ↔ ∃ e : C.table.Entry, e.col ∈ cs ∧
      C.table.lookup m e.col e.key = some e.value ∧ C.pairOf e = pair := by
  unfold pairsOf
  simp only [List.mem_map, List.mem_flatMap, h.table.mem_columnEntries]
  constructor
  · intro hpair
    obtain ⟨e, ⟨c, hc, rfl, hlookup⟩, rfl⟩ := hpair
    exact ⟨e, hc, hlookup, rfl⟩
  · intro hpair
    obtain ⟨e, hc, hlookup, rfl⟩ := hpair
    exact ⟨e, ⟨e.col, hc, rfl, hlookup⟩, rfl⟩

theorem Lawful.mem_pairs (h : C.Lawful) {m : M} {pair : Pair} : pair ∈ C.pairs m ↔
    ∃ e : C.table.Entry, C.table.lookup m e.col e.key = some e.value ∧ C.pairOf e = pair := by
  rw [pairs, h.mem_pairsOf]
  simp [h.table.mem_order]

/-- A key that a record has is written of it. -/
theorem Lawful.exists_pair (h : C.Lawful) {m : M} {e : C.table.Entry}
    (hkey : (C.table.lookup m e.col e.key).isSome) :
    ∃ v, ((C.pairOf e).1, v) ∈ C.pairs m := by
  obtain ⟨v, hv⟩ := Option.isSome_iff_exists.mp hkey
  exact ⟨_, h.mem_pairs.mpr ⟨⟨e.col, e.key, v⟩, hv, rfl⟩⟩

/-- What an encoder writes are the pairs of the fields that it visits. -/
theorem Lawful.encode_eq_pairsOf (h : C.Lawful) {m : M}
    {next : EncoderState C.table.Col → Option (EncoderState C.table.Col)}
    {start : EncoderState C.table.Col} {present : C.table.Col → Bool} {cs : List C.table.Col}
    (hvisits : C.Visits m next start present cs) :
    C.encode m next start = mapBytes (C.pairsOf cs m) :=
  h.encode_eq hvisits.nodup hvisits.chained hvisits.start hvisits.skipped

end MapCodec

/-! ## Version 2 -/

namespace Psbt

variable [TxidHash]

/-- The pairs that are written of a map. -/
def pairsAt (self : Psbt) : MapPlace → List Pair
  | .global => Global.codec.pairs self.global.fields
  | .input i => (self.inputs[i]?.map fun x => Input.codec.pairs x.fields).getD []
  | .output i => (self.outputs[i]?.map fun x => Output.codec.pairs x.fields).getD []

theorem mem_pairsAt_input {p : Psbt} {i : Nat} {pair : Pair} :
    pair ∈ p.pairsAt (.input i) ↔
      ∃ x, p.inputs[i]? = some x ∧ pair ∈ Input.codec.pairs x.fields := by
  rw [pairsAt]
  cases p.inputs[i]? <;> simp

theorem mem_pairsAt_output {p : Psbt} {i : Nat} {pair : Pair} :
    pair ∈ p.pairsAt (.output i) ↔
      ∃ x, p.outputs[i]? = some x ∧ pair ∈ Output.codec.pairs x.fields := by
  rw [pairsAt]
  cases p.outputs[i]? <;> simp

/-- The maps of a PSBT. -/
def places (self : Psbt) : List MapPlace :=
  MapPlace.all self.inputs.length self.outputs.length

variable [LawfulCodecs]

/-- What is written of a PSBT are the pairs of its maps. -/
theorem serialize_eq_pairs (p : Psbt) :
    p.serialize = psbtMagicBytes ++ p.places.flatMap fun place => mapBytes (p.pairsAt place) := by
  have hinputs : (List.range p.inputs.length).flatMap (fun i => mapBytes (p.pairsAt (.input i))) =
      p.inputs.flatMap Input.encode := by
    refine flatMap_range_length fun i x hx => ?_
    rw [Input.encode, Input.lawful_codec.encode_eq_pairsOf x.visits, pairsAt, hx]
    rfl
  have houtputs : (List.range p.outputs.length).flatMap
      (fun i => mapBytes (p.pairsAt (.output i))) = p.outputs.flatMap Output.encode := by
    refine flatMap_range_length fun i x hx => ?_
    rw [Output.encode, Output.lawful_codec.encode_eq_pairsOf x.visits, pairsAt, hx]
    rfl
  rw [serialize, places, MapPlace.all, List.flatMap_cons, List.flatMap_append, List.flatMap_map,
    List.flatMap_map, hinputs, houtputs, Global.encode,
    Global.lawful_codec.encode_eq_pairsOf p.global.visits]
  rfl

end Psbt

/-! ## Version 0 -/

namespace PsbtV0

/-- The pairs that are written of a map in version 0. -/
def pairsAt (self : PsbtV0) : MapPlace → List Pair
  | .global => GlobalV0.codec.pairsOf GlobalV0.encoded (GlobalV0.fields self)
  | .input i => (self.psbt.inputs[i]?.map fun x =>
      InputV0.codec.pairsOf InputV0.encoded (InputV0.fields x)).getD []
  | .output i => (self.psbt.outputs[i]?.map fun x =>
      OutputV0.codec.pairsOf OutputV0.encoded (OutputV0.fields x)).getD []

theorem mem_pairsAt_input {v0 : PsbtV0} {i : Nat} {pair : Pair} :
    pair ∈ v0.pairsAt (.input i) ↔ ∃ x, v0.psbt.inputs[i]? = some x ∧
      pair ∈ InputV0.codec.pairsOf InputV0.encoded (InputV0.fields x) := by
  rw [pairsAt]
  cases v0.psbt.inputs[i]? <;> simp

theorem mem_pairsAt_output {v0 : PsbtV0} {i : Nat} {pair : Pair} :
    pair ∈ v0.pairsAt (.output i) ↔ ∃ x, v0.psbt.outputs[i]? = some x ∧
      pair ∈ OutputV0.codec.pairsOf OutputV0.encoded (OutputV0.fields x) := by
  rw [pairsAt]
  cases v0.psbt.outputs[i]? <;> simp

/-- The maps of a PSBT. -/
def places (self : PsbtV0) : List MapPlace :=
  MapPlace.all self.psbt.inputs.length self.psbt.outputs.length

variable [LawfulCodecs]

/-- What is written of a PSBT in version 0 are the pairs of its maps. -/
theorem serialize_eq_pairs (v0 : PsbtV0) :
    v0.serialize =
      psbtMagicBytes ++ v0.places.flatMap fun place => mapBytes (v0.pairsAt place) := by
  have hinputs : (List.range v0.psbt.inputs.length).flatMap
      (fun i => mapBytes (v0.pairsAt (.input i))) = v0.psbt.inputs.flatMap InputV0.encode := by
    refine flatMap_range_length fun i x hx => ?_
    rw [InputV0.encode_eq, pairsAt, hx]
    rfl
  have houtputs : (List.range v0.psbt.outputs.length).flatMap
      (fun i => mapBytes (v0.pairsAt (.output i))) = v0.psbt.outputs.flatMap OutputV0.encode := by
    refine flatMap_range_length fun i x hx => ?_
    rw [OutputV0.encode_eq, pairsAt, hx]
    rfl
  rw [serialize, places, MapPlace.all, List.flatMap_cons, List.flatMap_append, List.flatMap_map,
    List.flatMap_map, hinputs, houtputs, GlobalV0.encode,
    GlobalV0.lawful_codec.encode_eq_pairsOf (GlobalV0.visits v0)]
  rfl

end PsbtV0

end Generic

end RustPsbt
