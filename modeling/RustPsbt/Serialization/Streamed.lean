import RustPsbt.Library.ChunkEncoder
import RustPsbt.Serialization.V0
import RustPsbt.Serialization.V2

/-!
# Encoding in chunks

The encoder of a map runs an encoder for each group of the map, which cuts the bytes of the
group into chunks as it likes.  Those of version 2 hop past the groups that show nothing,
those of version 0 enter the groups that are not empty.

Main results:

- Theorem `streamed`: in both versions the chunks of all maps, one after the other, are the
  serialization, and the decoder that is fed with them returns what it returns for the
  serialization.
-/

namespace RustPsbt

/-! ## Chunks of PSBTs -/

/-- The encoders of the maps of a PSBT. -/
structure MapEncoders where
  global : ChunkEncoder UInt8
  inputs : List (ChunkEncoder UInt8)
  outputs : List (ChunkEncoder UInt8)

namespace MapEncoders

/-- The encoders have been drained into the chunks. -/
def Drained (encoders : List (ChunkEncoder UInt8)) (chunks : List (List Bytes)) : Prop :=
  List.Forall₂ (fun E chunks => E.Drains E.init chunks) encoders chunks

/-- The chunks of a PSBT are the magic and the chunks of its maps, one map after the other. -/
inductive HandsOut (E : MapEncoders) : List Bytes → Prop where
  | maps {global : List Bytes} {inputs outputs : List (List Bytes)}
      (hglobal : E.global.Drains E.global.init global) (hinputs : Drained E.inputs inputs)
      (houtputs : Drained E.outputs outputs) :
      HandsOut E ([psbtMagicBytes] ++ (global ++ (inputs.flatten ++ outputs.flatten)))

/-- Encoders are drained in one way only. -/
theorem Drained.unique {encoders : List (ChunkEncoder UInt8)} {chunks chunks' : List (List Bytes)}
    (h : Drained encoders chunks) (h' : Drained encoders chunks') : chunks = chunks' := by
  induction h generalizing chunks' with
  | nil =>
      cases h'
      rfl
  | cons hhead _ ih =>
      cases h' with
      | cons hhead' htail' => rw [hhead.unique hhead', ih htail']

/-- Encoders that write bytes are drained into them. -/
theorem exists_drained {encoders : List (ChunkEncoder UInt8)} {bs : List Bytes}
    (h : List.Forall₂ ChunkEncoder.Writes encoders bs) :
    ∃ chunks, Drained encoders chunks ∧ chunks.flatten.flatten = bs.flatten := by
  induction h with
  | nil => exact ⟨[], .nil, rfl⟩
  | cons hhead _ ih =>
      obtain ⟨chunk, hdrains, hflatten⟩ := hhead
      obtain ⟨chunks, hdrained, hrest⟩ := ih
      refine ⟨chunk :: chunks, .cons hdrains hdrained, ?_⟩
      rw [List.flatten_cons, List.flatten_append, hflatten, hrest, List.flatten_cons]

/-- A PSBT is handed out in one way only. -/
theorem HandsOut.unique {E : MapEncoders} {chunks chunks' : List Bytes} (h : E.HandsOut chunks)
    (h' : E.HandsOut chunks') : chunks = chunks' := by
  cases h with
  | maps hglobal hinputs houtputs =>
      cases h' with
      | maps hglobal' hinputs' houtputs' =>
          rw [hglobal.unique hglobal', hinputs.unique hinputs', houtputs.unique houtputs']

/-- What the encoders of the maps write is handed out. -/
theorem exists_handsOut {E : MapEncoders} {global : Bytes} {inputs outputs : List Bytes}
    (hglobal : E.global.Writes global) (hinputs : List.Forall₂ ChunkEncoder.Writes E.inputs inputs)
    (houtputs : List.Forall₂ ChunkEncoder.Writes E.outputs outputs) :
    ∃ chunks, E.HandsOut chunks ∧ chunks ≠ [] ∧
      chunks.flatten = psbtMagicBytes ++ (global ++ (inputs.flatten ++ outputs.flatten)) := by
  obtain ⟨globalChunks, hdrains, hglobalBytes⟩ := hglobal
  obtain ⟨inputChunks, hdrainedIn, hinBytes⟩ := exists_drained hinputs
  obtain ⟨outputChunks, hdrainedOut, houtBytes⟩ := exists_drained houtputs
  refine ⟨_, .maps hdrains hdrainedIn hdrainedOut, by simp, ?_⟩
  simp only [List.flatten_append, hglobalBytes, hinBytes, houtBytes, List.flatten_cons,
    List.flatten_nil, List.append_nil]

end MapEncoders

section Generic

variable [BitcoinTypes] [BitcoinCodecs]

/-! ## Map encoders -/

namespace MapCodec

variable {ε M α : Type} {C : MapCodec ε M α}

/-- The encoders of the groups write the bytes of the groups, and show nothing at first only
if there is nothing to write. -/
def GroupsWritten (C : MapCodec ε M α) (m : M)
    (inner : EncoderState C.table.Col → ChunkEncoder UInt8) : Prop :=
  ∀ s, (inner s).Prompt (C.chunk m s)

/-- The transitions of an encoder that visits no field twice come to an end. -/
theorem Lawful.drain_eq (h : C.Lawful) {m : M}
    {next : EncoderState C.table.Col → Option (EncoderState C.table.Col)}
    {start : EncoderState C.table.Col} {present : C.table.Col → Bool} {cs : List C.table.Col}
    (hnodup : cs.Nodup) (hchained : EncoderState.Chained next present cs)
    (hstart : EncoderState.firstOf present cs = some start) :
    EncoderState.drain next (C.chunk m) (C.table.order.length + 1) start =
      some (C.encode m next start) := by
  have hlen : cs.length < C.table.order.length + 1 :=
    Nat.lt_succ_of_le (hnodup.subperm fun c _ => h.table.mem_order c).length_le
  have hsome : (EncoderState.drain next (C.chunk m) (C.table.order.length + 1) start).isSome :=
    EncoderState.isSome_drain hchained hlen hstart
  obtain ⟨b, hb⟩ := Option.isSome_iff_exists.mp hsome
  rw [encode, hb, Option.getD_some]

end MapCodec

variable [LawfulCodecs]

namespace Global

/-- `GlobalMapEncoder`; no group is entered twice, so a hop ends. -/
def mapEncoder (self : Global) (inner : EncoderState Field → ChunkEncoder UInt8) :
    ChunkEncoder UInt8 :=
  .hopping inner self.nextState (table.order.length + 1) (.group .version)

theorem mapEncoder_writes {self : Global} {inner : EncoderState Field → ChunkEncoder UInt8}
    (h : codec.GroupsWritten self.fields inner) : (self.mapEncoder inner).Writes self.encode :=
  ChunkEncoder.hopping_writes h
    (lawful_codec.drain_eq self.visits.nodup self.visits.chained self.visits.start)

end Global

namespace Input

/-- `InputMapEncoder`. -/
def mapEncoder [TxidHash] (self : Input) (inner : EncoderState Field → ChunkEncoder UInt8) :
    ChunkEncoder UInt8 :=
  .hopping inner self.nextState (table.order.length + 1) (.group .previousTxid)

theorem mapEncoder_writes [TxidHash] {self : Input}
    {inner : EncoderState Field → ChunkEncoder UInt8}
    (h : codec.GroupsWritten self.fields inner) : (self.mapEncoder inner).Writes self.encode :=
  ChunkEncoder.hopping_writes h
    (lawful_codec.drain_eq self.visits.nodup self.visits.chained self.visits.start)

end Input

namespace Output

/-- `OutputMapEncoder`. -/
def mapEncoder (self : Output) (inner : EncoderState Field → ChunkEncoder UInt8) :
    ChunkEncoder UInt8 :=
  .hopping inner self.nextState (table.order.length + 1) (.group .amount)

theorem mapEncoder_writes {self : Output} {inner : EncoderState Field → ChunkEncoder UInt8}
    (h : codec.GroupsWritten self.fields inner) : (self.mapEncoder inner).Writes self.encode :=
  ChunkEncoder.hopping_writes h
    (lawful_codec.drain_eq self.visits.nodup self.visits.chained self.visits.start)

end Output

namespace GlobalV0

/-- `GlobalMapEncoder` of version 0. -/
def mapEncoder (v0 : PsbtV0) (inner : EncoderState Field → ChunkEncoder UInt8) :
    ChunkEncoder UInt8 :=
  .plain inner (nextState v0.psbt.global) (.group .unsignedTx)

theorem mapEncoder_writes {v0 : PsbtV0} {inner : EncoderState Field → ChunkEncoder UInt8}
    (h : codec.GroupsWritten (fields v0) inner) : (mapEncoder v0 inner).Writes (encode v0) :=
  ChunkEncoder.plain_writes (fun s => (h s).writes)
    (lawful_codec.drain_eq (visits v0).nodup (visits v0).chained (visits v0).start)

end GlobalV0

namespace InputV0

/-- `InputMapEncoder` of version 0; `new` selects the first state. -/
def mapEncoder (i : Input) (inner : EncoderState Input.Field → ChunkEncoder UInt8) :
    ChunkEncoder UInt8 :=
  .plain inner (nextState i) ((nonWitnessUtxoOrNext i).getD .separator)

omit [BitcoinCodecs] [LawfulCodecs] in
theorem chained (i : Input) : EncoderState.Chained (nextState i) (present i) encoded :=
  ⟨rfl, rfl, rfl, rfl, rfl, rfl, rfl, rfl, rfl, rfl, rfl, rfl, rfl, rfl, rfl, rfl, rfl, rfl,
    rfl, rfl, rfl, rfl, rfl, rfl⟩

omit [BitcoinCodecs] [LawfulCodecs] in
theorem firstOf_present (i : Input) : EncoderState.firstOf (present i) encoded =
    some ((nonWitnessUtxoOrNext i).getD .separator) := by
  obtain ⟨s, hs⟩ :=
    Option.ne_none_iff_exists'.mp (EncoderState.firstOf_ne_none (present i) encoded)
  have hnext : nonWitnessUtxoOrNext i = some s := hs
  rw [hs, hnext, Option.getD_some]

theorem mapEncoder_writes {i : Input} {inner : EncoderState Input.Field → ChunkEncoder UInt8}
    (h : codec.GroupsWritten (fields i) inner) : (mapEncoder i inner).Writes (encode i) :=
  ChunkEncoder.plain_writes (fun s => (h s).writes)
    (lawful_codec.drain_eq (by decide : encoded.Nodup) (chained i) (firstOf_present i))

end InputV0

namespace OutputV0

/-- `OutputMapEncoder` of version 0; `new` selects the first state. -/
def mapEncoder (o : Output) (inner : EncoderState Output.Field → ChunkEncoder UInt8) :
    ChunkEncoder UInt8 :=
  .plain inner (nextState o) ((witnessScriptOrNext o).getD .separator)

omit [BitcoinCodecs] [LawfulCodecs] in
theorem chained (o : Output) : EncoderState.Chained (nextState o) (present o) encoded :=
  ⟨rfl, rfl, rfl, rfl, rfl, rfl, rfl, rfl, rfl, rfl⟩

omit [BitcoinCodecs] [LawfulCodecs] in
theorem firstOf_present (o : Output) : EncoderState.firstOf (present o) encoded =
    some ((witnessScriptOrNext o).getD .separator) := by
  obtain ⟨s, hs⟩ :=
    Option.ne_none_iff_exists'.mp (EncoderState.firstOf_ne_none (present o) encoded)
  have hnext : witnessScriptOrNext o = some s := hs
  rw [hs, hnext, Option.getD_some]

theorem mapEncoder_writes {o : Output} {inner : EncoderState Output.Field → ChunkEncoder UInt8}
    (h : codec.GroupsWritten (fields o) inner) : (mapEncoder o inner).Writes (encode o) :=
  ChunkEncoder.plain_writes (fun s => (h s).writes)
    (lawful_codec.drain_eq (by decide : encoded.Nodup) (chained o) (firstOf_present o))

end OutputV0

/-! ## Encoders of PSBTs -/

/-- The encoders of the groups of the maps. -/
structure GroupEncoders (G GlobalField : Type) where
  global : G → EncoderState GlobalField → ChunkEncoder UInt8
  input : Input → EncoderState Input.Field → ChunkEncoder UInt8
  output : Output → EncoderState Output.Field → ChunkEncoder UInt8

namespace Psbt

variable [TxidHash]

/-- The map encoders of `PsbtV2Encoder`. -/
def mapEncoders (self : Psbt) (E : GroupEncoders Global Global.Field) : MapEncoders where
  global := self.global.mapEncoder (E.global self.global)
  inputs := self.inputs.map fun i => i.mapEncoder (E.input i)
  outputs := self.outputs.map fun o => o.mapEncoder (E.output o)

/-- The groups of all maps are written. -/
structure GroupsWritten (p : Psbt) (E : GroupEncoders Global Global.Field) : Prop where
  global : Global.codec.GroupsWritten p.global.fields (E.global p.global)
  inputs : ∀ i ∈ p.inputs, Input.codec.GroupsWritten i.fields (E.input i)
  outputs : ∀ o ∈ p.outputs, Output.codec.GroupsWritten o.fields (E.output o)

/-- The maps of a PSBT hand out its serialization. -/
theorem exists_handsOut {p : Psbt} {E : GroupEncoders Global Global.Field}
    (h : p.GroupsWritten E) :
    ∃ chunks, (p.mapEncoders E).HandsOut chunks ∧ chunks ≠ [] ∧ chunks.flatten = p.serialize := by
  rw [serialize, List.flatMap_def, List.flatMap_def]
  refine MapEncoders.exists_handsOut (Global.mapEncoder_writes h.global) ?_ ?_
  · rw [mapEncoders, List.forall₂_map_left_iff, List.forall₂_map_right_iff, List.forall₂_same]
    exact fun i hi => Input.mapEncoder_writes (h.inputs i hi)
  · rw [mapEncoders, List.forall₂_map_left_iff, List.forall₂_map_right_iff, List.forall₂_same]
    exact fun o ho => Output.mapEncoder_writes (h.outputs o ho)

end Psbt

namespace PsbtV0

/-- The map encoders of `PsbtV0Encoder`. -/
def mapEncoders (self : PsbtV0) (E : GroupEncoders PsbtV0 GlobalV0.Field) : MapEncoders where
  global := GlobalV0.mapEncoder self (E.global self)
  inputs := self.psbt.inputs.map fun i => InputV0.mapEncoder i (E.input i)
  outputs := self.psbt.outputs.map fun o => OutputV0.mapEncoder o (E.output o)

/-- The groups of all maps are written. -/
structure GroupsWritten (v0 : PsbtV0) (E : GroupEncoders PsbtV0 GlobalV0.Field) : Prop where
  global : GlobalV0.codec.GroupsWritten (GlobalV0.fields v0) (E.global v0)
  inputs : ∀ i ∈ v0.psbt.inputs, InputV0.codec.GroupsWritten (InputV0.fields i) (E.input i)
  outputs : ∀ o ∈ v0.psbt.outputs,
    OutputV0.codec.GroupsWritten (OutputV0.fields o) (E.output o)

/-- The maps of a PSBT hand out its serialization. -/
theorem exists_handsOut {v0 : PsbtV0} {E : GroupEncoders PsbtV0 GlobalV0.Field}
    (h : v0.GroupsWritten E) :
    ∃ chunks, (v0.mapEncoders E).HandsOut chunks ∧ chunks ≠ [] ∧
      chunks.flatten = v0.serialize := by
  rw [serialize, List.flatMap_def, List.flatMap_def]
  refine MapEncoders.exists_handsOut (GlobalV0.mapEncoder_writes h.global) ?_ ?_
  · rw [mapEncoders, List.forall₂_map_left_iff, List.forall₂_map_right_iff, List.forall₂_same]
    exact fun i hi => InputV0.mapEncoder_writes (h.inputs i hi)
  · rw [mapEncoders, List.forall₂_map_left_iff, List.forall₂_map_right_iff, List.forall₂_same]
    exact fun o ho => OutputV0.mapEncoder_writes (h.outputs o ho)

end PsbtV0

/-! ## Pieces of pairs -/

namespace MapCodec

variable {ε M α : Type} {C : MapCodec ε M α}

/-- The pieces of a `KeyValueEncoder`: the length and the body of the key, and the length and
the body of the value. -/
def entryPieces (C : MapCodec ε M α) (e : C.table.Entry) : List Bytes :=
  [compactSize (C.rawKey e.col e.key).body.length, (C.rawKey e.col e.key).body,
    compactSize (C.encodeValue e.col e.value).len, (C.encodeValue e.col e.value).bytes]

/-- The encoders that hand out the pieces of each pair. -/
def pieces (C : MapCodec ε M α) (m : M) : EncoderState C.table.Col → ChunkEncoder UInt8
  | .group c => .ofChunks ((C.table.columnEntries m c).flatMap C.entryPieces)
  | .separator => .ofChunks [[psbtSeparator]]

omit [LawfulCodecs] in
theorem groupsWritten_pieces (C : MapCodec ε M α) (m : M) :
    C.GroupsWritten m (C.pieces m) := by
  intro s
  cases s with
  | separator => exact ChunkEncoder.prompt_ofChunks (by simp)
  | group c =>
      have hbytes : C.chunk m (.group c) =
          ((C.table.columnEntries m c).flatMap C.entryPieces).flatten := by
        rw [chunk]
        induction C.table.columnEntries m c with
        | nil => rfl
        | cons e es ih =>
            rw [List.flatMap_cons, List.flatMap_cons, List.flatten_append, ← ih]
            simp [entryBytes, keyValueBytes, entryPieces]
      rw [hbytes]
      refine ChunkEncoder.prompt_ofChunks fun hhead => ?_
      cases hentries : C.table.columnEntries m c with
      | nil => rfl
      | cons e es =>
          rw [hentries] at hhead
          exact absurd hhead (compactSize_ne_nil _)

end MapCodec

/-! ## Encoders into decoders -/

/-- The encoder of a PSBT of either version hands out chunks that are its serialization, and
the decoder that is fed with them returns what it returns for the serialization, however the
encoders of the groups cut their bytes. -/
theorem streamed [TxidHash] :
    (∀ (p : Psbt) (E : GroupEncoders Global Global.Field), p.GroupsWritten E →
      ∃ chunks, (∀ chunks', (p.mapEncoders E).HandsOut chunks' ↔ chunks' = chunks) ∧
        chunks.flatten = p.serialize ∧
          ∀ q, (Psbt.decoder.decodeChunks chunks).toOption = some (q, p.serialize.length) ↔
            Psbt.deserialize p.serialize = .ok q) ∧
      ∀ (v0 : PsbtV0) (E : GroupEncoders PsbtV0 GlobalV0.Field), v0.GroupsWritten E →
        ∃ chunks, (∀ chunks', (v0.mapEncoders E).HandsOut chunks' ↔ chunks' = chunks) ∧
          chunks.flatten = v0.serialize ∧
            ∀ q, (PsbtV0.decoder.decodeChunks chunks).toOption = some (q, v0.serialize.length) ↔
              PsbtV0.deserialize v0.serialize = .ok q := by
  refine ⟨fun p E h => ?_, fun v0 E h => ?_⟩
  · obtain ⟨chunks, hout, hne, hbytes⟩ := Psbt.exists_handsOut h
    refine ⟨chunks, fun chunks' => ⟨fun hout' => hout'.unique hout, ?_⟩, hbytes, fun q => ?_⟩
    · rintro rfl
      exact hout
    · rw [Psbt.deserialize, Psbt.lawful_format.deserialize_eq_ok, ← hbytes]
      exact Psbt.lawful_format.lawful_decoder.decodeChunks_eq_length hne
  · obtain ⟨chunks, hout, hne, hbytes⟩ := PsbtV0.exists_handsOut h
    refine ⟨chunks, fun chunks' => ⟨fun hout' => hout'.unique hout, ?_⟩, hbytes, fun q => ?_⟩
    · rintro rfl
      exact hout
    · rw [PsbtV0.deserialize, PsbtV0.lawful_format.deserialize_eq_ok, ← hbytes]
      exact PsbtV0.lawful_format.lawful_decoder.decodeChunks_eq_length hne

end Generic

/-! ## A reference PSBT in pieces -/

section

attribute [local instance] Reference.types Reference.codecs Reference.lawfulCodecs
  Reference.txidHash

/-- Encoders that hand out a PSBT in the pieces of its pairs. -/
def Reference.pieces : GroupEncoders Global Global.Field where
  global g := Global.codec.pieces g.fields
  input i := Input.codec.pieces i.fields
  output o := Output.codec.pieces o.fields

theorem streamed_signed :
    ∃ chunks, (Reference.signed.mapEncoders Reference.pieces).HandsOut chunks ∧
      (Psbt.decoder.decodeChunks chunks).toOption =
        some (Reference.signed, Reference.signed.serialize.length) := by
  have hwritten : Reference.signed.GroupsWritten Reference.pieces :=
    ⟨MapCodec.groupsWritten_pieces _ _, fun _ _ => MapCodec.groupsWritten_pieces _ _,
      fun _ _ => MapCodec.groupsWritten_pieces _ _⟩
  obtain ⟨chunks, hout, _, hdec⟩ := streamed.1 Reference.signed Reference.pieces hwritten
  exact ⟨chunks, (hout chunks).mpr rfl, (hdec _).mpr Psbt.deserialize_signed⟩

end

end RustPsbt
