import RustPsbt.Library.GroupEncoder

/-!
# Encoders that hand out chunks

An encoder shows its current chunk and advances to the next one until it has finished.  An
encoder of a record runs the encoder of the group that it is in and enters the next group
when that one has finished.  It enters every group in turn, or hops past the groups that
show nothing.

Main results:

- Theorem `ChunkEncoder.hopping_writes`: an encoder that hops past groups hands out what the
  transitions along the groups write, as a group that shows nothing has nothing to write.
- Theorem `ChunkEncoder.plain_writes`: so does an encoder that enters every group.
- Theorem `ChunkEncoder.Drains.unique`: an encoder is drained in one way only.
-/

namespace RustPsbt

/-- What an advance reports. -/
inductive EncoderStatus where
  | hasMore
  | finished
deriving DecidableEq

/-- An encoder that hands out its symbols in chunks. -/
structure ChunkEncoder (β : Type) where
  /-- What is left to hand out. -/
  State : Type
  /-- The fresh encoder. -/
  init : State
  /-- The chunk that is handed out. -/
  currentChunk : State → List β
  /-- Go on to the next chunk; it is `none` when the step does not end. -/
  advance : State → Option (EncoderStatus × State)

namespace ChunkEncoder

variable {β : Type}

/-- Chunks are handed out until an advance reports the end. -/
inductive Drains (E : ChunkEncoder β) : E.State → List (List β) → Prop where
  | finish {s t : E.State} (hadvance : E.advance s = some (.finished, t)) :
      Drains E s [E.currentChunk s]
  | step {s t : E.State} {chunks : List (List β)}
      (hadvance : E.advance s = some (.hasMore, t)) (hrest : Drains E t chunks) :
      Drains E s (E.currentChunk s :: chunks)

/-- All symbols that an encoder hands out. -/
def Writes (E : ChunkEncoder β) (b : List β) : Prop :=
  ∃ chunks, E.Drains E.init chunks ∧ chunks.flatten = b

/-- An encoder that shows nothing at first has nothing to write. -/
structure Prompt (E : ChunkEncoder β) (b : List β) : Prop where
  writes : E.Writes b
  empty : E.currentChunk E.init = [] → b = []

/-- An encoder is drained in one way only. -/
theorem Drains.unique {E : ChunkEncoder β} {s : E.State} {chunks chunks' : List (List β)}
    (h : E.Drains s chunks) (h' : E.Drains s chunks') : chunks = chunks' := by
  induction h generalizing chunks' with
  | finish hadvance =>
      cases h' with
      | finish _ => rfl
      | step hadvance' _ =>
          rw [hadvance] at hadvance'
          cases hadvance'
  | step hadvance _ ih =>
      cases h' with
      | finish hadvance' =>
          rw [hadvance] at hadvance'
          cases hadvance'
      | step hadvance' hrest' =>
          rw [hadvance] at hadvance'
          cases hadvance'
          rw [ih hrest']

/-! ## Given chunks -/

/-- The encoder that hands out given chunks. -/
def ofChunks (chunks : List (List β)) : ChunkEncoder β where
  State := List (List β)
  init := chunks
  currentChunk chunks := chunks.headD []
  advance
    | [] => some (.finished, [])
    | [_] => some (.finished, [])
    | _ :: chunks => some (.hasMore, chunks)

theorem drains_ofChunks {all : List (List β)} (chunk : List β) (chunks : List (List β)) :
    (ofChunks all).Drains (chunk :: chunks) (chunk :: chunks) := by
  induction chunks generalizing chunk with
  | nil => exact .finish rfl
  | cons next chunks ih => exact .step rfl (ih next)

/-- Chunks of which the first is not empty are handed out as they are. -/
theorem prompt_ofChunks {chunks : List (List β)} (hhead : chunks.headD [] = [] → chunks = []) :
    (ofChunks chunks).Prompt chunks.flatten := by
  cases chunks with
  | nil => exact ⟨⟨[[]], .finish rfl, rfl⟩, fun _ => rfl⟩
  | cons chunk chunks =>
      refine ⟨⟨chunk :: chunks, drains_ofChunks chunk chunks, rfl⟩, fun hempty => ?_⟩
      rw [hhead hempty]
      rfl

/-! ## Encoders of records -/

variable {Col : Type} {inner : EncoderState Col → ChunkEncoder β}

/-- The encoder of a record is in a group with the encoder of the group. -/
structure GroupState (inner : EncoderState Col → ChunkEncoder β) where
  group : EncoderState Col
  encoder : (inner group).State

/-- The fresh encoder of a group. -/
def enter (inner : EncoderState Col → ChunkEncoder β) (group : EncoderState Col) :
    GroupState inner :=
  ⟨group, (inner group).init⟩

/-- The chunk that the encoder of the group shows. -/
def GroupState.currentChunk (s : GroupState inner) : List β :=
  (inner s.group).currentChunk s.encoder

/-- Enter the groups that follow until one of them shows a chunk. -/
def hop (inner : EncoderState Col → ChunkEncoder β)
    (next : EncoderState Col → Option (EncoderState Col)) :
    Nat → GroupState inner → Option (EncoderStatus × GroupState inner)
  | 0, _ => none
  | fuel + 1, s =>
      match next s.group with
      | none => some (.finished, s)
      | some group =>
          if (enter inner group).currentChunk.isEmpty then hop inner next fuel (enter inner group)
          else some (.hasMore, enter inner group)

/-- An encoder that hops past the groups that show nothing. -/
def hopping (inner : EncoderState Col → ChunkEncoder β)
    (next : EncoderState Col → Option (EncoderState Col)) (fuel : Nat)
    (start : EncoderState Col) : ChunkEncoder β where
  State := GroupState inner
  init := enter inner start
  currentChunk := GroupState.currentChunk
  advance s := do
    let x ← (inner s.group).advance s.encoder
    match x.1 with
    | .hasMore => some (.hasMore, ⟨s.group, x.2⟩)
    | .finished => hop inner next fuel ⟨s.group, x.2⟩

/-- An encoder that enters every group; it is `none` when it is done. -/
def plain (inner : EncoderState Col → ChunkEncoder β)
    (next : EncoderState Col → Option (EncoderState Col)) (start : EncoderState Col) :
    ChunkEncoder β where
  State := Option (GroupState inner)
  init := some (enter inner start)
  currentChunk
    | none => []
    | some s => s.currentChunk
  advance
    | none => some (.finished, none)
    | some s => do
        let x ← (inner s.group).advance s.encoder
        match x.1 with
        | .hasMore => some (.hasMore, some ⟨s.group, x.2⟩)
        | .finished =>
            match next s.group with
            | none => some (.finished, none)
            | some group => some (.hasMore, some (enter inner group))

variable {next : EncoderState Col → Option (EncoderState Col)}
  {chunk : EncoderState Col → List β}

/-! ## Every group -/

/-- The last group is handed out to its end. -/
theorem plain_drains_last {start group : EncoderState Col} (hnext : next group = none)
    {e : (inner group).State} {chunks : List (List β)} (h : (inner group).Drains e chunks) :
    (plain inner next start).Drains (some ⟨group, e⟩) chunks := by
  induction h with
  | finish hadvance =>
      refine .finish (t := none) ?_
      simp [plain, hadvance, hnext]
  | step hadvance _ ih =>
      refine .step ?_ ih
      simp [plain, hadvance]

/-- Another group is handed out, and then what follows it. -/
theorem plain_drains_next {start group group' : EncoderState Col} (hnext : next group = some group')
    {rest : List (List β)}
    (hrest : (plain inner next start).Drains (some (enter inner group')) rest)
    {e : (inner group).State} {chunks : List (List β)} (h : (inner group).Drains e chunks) :
    (plain inner next start).Drains (some ⟨group, e⟩) (chunks ++ rest) := by
  induction h with
  | finish hadvance =>
      refine .step ?_ hrest
      simp [plain, hadvance, hnext]
  | step hadvance _ ih =>
      refine .step ?_ ih
      simp [plain, hadvance]

/-- An encoder that enters every group writes what the transitions write. -/
theorem plain_writes {start : EncoderState Col} (hinner : ∀ s, (inner s).Writes (chunk s))
    {fuel : Nat} {b : List β} (h : EncoderState.drain next chunk fuel start = some b) :
    (plain inner next start).Writes b := by
  suffices hall : ∀ (fuel : Nat) (group : EncoderState Col) (b : List β),
      EncoderState.drain next chunk fuel group = some b →
        ∃ chunks, (plain inner next start).Drains (some (enter inner group)) chunks ∧
          chunks.flatten = b from hall fuel start b h
  intro fuel
  induction fuel with
  | zero =>
      intro group b h
      cases h
  | succ fuel ih =>
      intro group b h
      obtain ⟨chunks, hdrains, hflatten⟩ := hinner group
      rw [EncoderState.drain] at h
      cases hnext : next group with
      | none =>
          rw [hnext] at h
          cases h
          exact ⟨chunks, plain_drains_last hnext hdrains, hflatten⟩
      | some group' =>
          simp only [hnext, Option.map_eq_some_iff] at h
          obtain ⟨b', htail, rfl⟩ := h
          obtain ⟨rest, hrest, hflatten'⟩ := ih group' b' htail
          refine ⟨chunks ++ rest, plain_drains_next hnext hrest hdrains, ?_⟩
          rw [List.flatten_append, hflatten, hflatten']

/-! ## Groups that show nothing -/

/-- Where a hop ends: behind the last group, with nothing left to write, or in a group from
which the transitions write the rest. -/
theorem hop_cases (hinner : ∀ s, (inner s).Prompt (chunk s)) {limit fuel : Nat}
    (hfuel : fuel ≤ limit) {group : EncoderState Col} {b : List β}
    (h : EncoderState.drain next chunk fuel group = some b) :
    ((∀ e, ∃ s', hop inner next limit ⟨group, e⟩ = some (.finished, s')) ∧ b = chunk group) ∨
      ∃ group' fuel' b', fuel' < fuel ∧
        (∀ e, hop inner next limit ⟨group, e⟩ = some (.hasMore, enter inner group')) ∧
          EncoderState.drain next chunk fuel' group' = some b' ∧ b = chunk group ++ b' := by
  induction limit generalizing fuel group b with
  | zero =>
      rw [Nat.le_zero.mp hfuel] at h
      cases h
  | succ limit ih =>
      cases fuel with
      | zero => cases h
      | succ fuel =>
          rw [EncoderState.drain] at h
          cases hnext : next group with
          | none =>
              rw [hnext] at h
              cases h
              exact .inl ⟨fun e => ⟨⟨group, e⟩, by simp [hop, hnext]⟩, rfl⟩
          | some entered =>
              simp only [hnext, Option.map_eq_some_iff] at h
              obtain ⟨b', htail, rfl⟩ := h
              by_cases hshows : (enter inner entered).currentChunk = []
              · -- a group that shows nothing is hopped past, and it writes nothing
                have hhop : ∀ e, hop inner next (limit + 1) ⟨group, e⟩ =
                    hop inner next limit ⟨entered, (inner entered).init⟩ := by
                  intro e
                  simp only [hop, hnext, hshows, List.isEmpty_nil, if_true]
                  rfl
                have hnothing : chunk entered = [] := (hinner entered).empty hshows
                rcases ih (Nat.le_of_succ_le_succ hfuel) htail with
                  ⟨hend, rfl⟩ | ⟨group', fuel', b'', hlt, hmore, htail', rfl⟩
                · refine .inl ⟨fun e => ?_, by rw [hnothing, List.append_nil]⟩
                  rw [hhop]
                  exact hend _
                · refine .inr ⟨group', fuel', b'', Nat.lt_succ_of_lt hlt, fun e => ?_, htail', ?_⟩
                  · rw [hhop]
                    exact hmore _
                  · rw [hnothing, List.nil_append]
              · refine .inr ⟨entered, fuel, b', Nat.lt_succ_self fuel, fun e => ?_, htail, rfl⟩
                simp [hop, hnext, hshows]

/-- A group with nothing to write behind it is handed out to its end. -/
theorem hopping_drains_last {start group : EncoderState Col} {limit : Nat}
    (hhop : ∀ e, ∃ s', hop inner next limit ⟨group, e⟩ = some (.finished, s'))
    {e : (inner group).State} {chunks : List (List β)} (h : (inner group).Drains e chunks) :
    (hopping inner next limit start).Drains ⟨group, e⟩ chunks := by
  induction h with
  | finish hadvance =>
      obtain ⟨s', hs'⟩ := hhop _
      refine .finish (t := s') ?_
      simpa [hopping, hadvance] using hs'
  | step hadvance _ ih =>
      refine .step ?_ ih
      simp [hopping, hadvance]

/-- Another group is handed out, and then what follows the hop. -/
theorem hopping_drains_next {start group group' : EncoderState Col} {limit : Nat}
    (hhop : ∀ e, hop inner next limit ⟨group, e⟩ = some (.hasMore, enter inner group'))
    {rest : List (List β)}
    (hrest : (hopping inner next limit start).Drains (enter inner group') rest)
    {e : (inner group).State} {chunks : List (List β)} (h : (inner group).Drains e chunks) :
    (hopping inner next limit start).Drains ⟨group, e⟩ (chunks ++ rest) := by
  induction h with
  | finish hadvance =>
      refine .step ?_ hrest
      simpa [hopping, hadvance] using hhop _
  | step hadvance _ ih =>
      refine .step ?_ ih
      simp [hopping, hadvance]

/-- An encoder that hops past the groups that show nothing writes what the transitions
write. -/
theorem hopping_writes {start : EncoderState Col} (hinner : ∀ s, (inner s).Prompt (chunk s))
    {limit : Nat} {b : List β} (h : EncoderState.drain next chunk limit start = some b) :
    (hopping inner next limit start).Writes b := by
  suffices hall : ∀ (fuel : Nat), fuel ≤ limit → ∀ (group : EncoderState Col) (b : List β),
      EncoderState.drain next chunk fuel group = some b →
        ∃ chunks, (hopping inner next limit start).Drains (enter inner group) chunks ∧
          chunks.flatten = b from hall limit (Nat.le_refl limit) start b h
  intro fuel
  -- a hop leaves groups out, so what follows it has less fuel by more than one
  induction fuel using Nat.strongRecOn with
  | ind fuel ih =>
      intro hfuel group b h
      obtain ⟨chunks, hdrains, hflatten⟩ := (hinner group).writes
      rcases hop_cases hinner hfuel h with
        ⟨hend, rfl⟩ | ⟨group', fuel', b', hlt, hmore, htail, rfl⟩
      · exact ⟨chunks, hopping_drains_last hend hdrains, hflatten⟩
      · have hfuel' : fuel' ≤ limit := Nat.le_trans (Nat.le_of_lt hlt) hfuel
        obtain ⟨rest, hrest, hflatten'⟩ := ih fuel' hlt hfuel' group' b' htail
        refine ⟨chunks ++ rest, hopping_drains_next hmore hrest hdrains, ?_⟩
        rw [List.flatten_append, hflatten, hflatten']

end ChunkEncoder

end RustPsbt
