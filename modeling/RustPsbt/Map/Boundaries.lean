import RustPsbt.Map.Codec
import RustPsbt.Map.Grammar

/-!
# Typed decoding follows the grammar

A map decoder runs a decoder of its own for every value.  It moves from keys to values and
back exactly where the framing grammar does.

Main results:

- Theorem `MapSpec.push_prefix`: after any part of a map, the decoder is in the stage that
  belongs to the place in the grammar.
- Theorem `MapCodec.Lawful.follows`: what a map decoder takes is a map of the grammar with
  distinct keys.
-/

namespace RustPsbt

variable [BitcoinTypes] [BitcoinCodecs]

namespace MapSpec

variable {ε M α : Type}

/-- The place in the grammar that a stage stands for. -/
def place (S : MapSpec ε M α) : S.State → Grammar.Place
  | .separator _ => .boundary
  | .key _ _ => .key
  | .value _ _ _ _ => .value
  | .done _ => .done

section

variable [LawfulCodecs] {S : MapSpec ε M α} {WK : keyDecoder.State → Prop}
  {WV : (f : S.Field) → (S.decoder f).State → Prop} (h : S.Lawful)
  (hK : keyDecoder.LawfulOn WK) (hV : ∀ f, (S.decoder f).LawfulOn (WV f))

include h hK hV

/-- A byte that starts a key is pushed to the key decoder. -/
theorem push_key {m : M} {key : Key} (hkey : key.body.length ≤ compactSizeLimit) {x : Bytes}
    (hx : x ≠ []) (hstart : x <+: key.bytes) (r : Bytes) :
    S.mapDecoder.push (State.separator m) (x ++ r) =
      S.mapDecoder.push (State.key m keyDecoder.init) (x ++ r) := by
  obtain ⟨byte, b, hb, hne⟩ := key.bytes_eq_cons hkey
  cases x with
  | nil => exact absurd rfl hx
  | cons first x =>
      rw [hb] at hstart
      obtain ⟨y, hy⟩ := hstart
      obtain ⟨rfl, -⟩ := List.cons.inj hy
      exact push_separator_of_ne h hK hV m hne (x ++ r)

/-- A part of a key leaves the decoder in the key. -/
theorem push_key_part {m : M} {key : Key} (hkey : key.body.length ≤ compactSizeLimit)
    {x y : Bytes} (hx : x ≠ []) (hy : y ≠ []) (heq : x ++ y = key.bytes) :
    ∃ d, S.mapDecoder.push (State.separator m) x = .ok (State.key m d, [], .needsMore) := by
  have hdec : keyDecoder.Decodes (x ++ y) key := by
    rw [heq]
    exact accepts_keyDecoder.mpr ⟨(List.append_nil _).symm, hkey⟩
  have hpush := push_key h hK hV (m := m) hkey hx ⟨y, heq⟩ []
  rw [List.append_nil] at hpush
  rw [hpush]
  exact (stage_key h hK hV m).push_part hK hdec hy

/-- Behind the key of a pair, the decoder of its value runs. -/
theorem push_value {m m' : M} {p : Pair} {f : S.Field} {v : S.Value f}
    (hstep : S.Step m p m' f v) (r : Bytes) :
    (S.mapDecoder.push (State.separator m) (p.1.bytes ++ r)).erase =
      (S.mapDecoder.push (State.value m f p.1 (S.decoder f).init) r).erase := by
  have hdec : keyDecoder.Decodes p.1.bytes p.1 :=
    accepts_keyDecoder.mpr ⟨(List.append_nil _).symm, hstep.key_le⟩
  have hne : p.1.bytes ≠ [] := by
    obtain ⟨byte, b, hb, -⟩ := p.1.bytes_eq_cons hstep.key_le
    simp [hb]
  rw [push_key h hK hV hstep.key_le hne List.prefix_rfl]
  exact (stage_key h hK hV m).push_decoded hK hdec
    (afterKey_eq_ok.mpr ⟨f, hstep.fromKey, rfl⟩) r

omit hK hV [LawfulCodecs] in
/-- The value of a pair ends where its length says. -/
theorem decodes_valueStage {m m' : M} {p : Pair} {f : S.Field} {v : S.Value f}
    (hstep : S.Step m p m' f v) : (S.valueStage m f p.1).Decodes (frame p.2) m' :=
  (PushDecoder.accepts_closing (h.closes f p.1 m)).mpr ⟨v, hstep.decodes, hstep.handle⟩

/-- A part of a value leaves the decoder in the value. -/
theorem push_value_part {m m' : M} {p : Pair} {f : S.Field} {v : S.Value f}
    (hstep : S.Step m p m' f v) {x y : Bytes} (hy : y ≠ []) (heq : x ++ y = frame p.2) :
    ∃ d, S.mapDecoder.push (State.separator m) (p.1.bytes ++ x) =
      .ok (State.value m f p.1 d, [], .needsMore) := by
  have hdec := decodes_valueStage h hstep
  rw [← heq] at hdec
  obtain ⟨d, hd⟩ := (stage_value h hK hV m f p.1).push_part
    ((hV f).closing (h.closes f p.1 m)) hdec hy
  have hpush := push_value h hK hV hstep x
  rw [show S.mapDecoder.push (State.value m f p.1 (S.decoder f).init) x = _ from hd] at hpush
  exact ⟨d, Result.erase_eq_ok.mp hpush⟩

/-- Behind a pair, the decoder looks for the separator again. -/
theorem push_pair {m m' : M} {p : Pair} {f : S.Field} {v : S.Value f}
    (hstep : S.Step m p m' f v) (r : Bytes) :
    (S.mapDecoder.push (State.separator m) (p.1.bytes ++ (frame p.2 ++ r))).erase =
      (S.mapDecoder.push (State.separator m') r).erase := by
  rw [push_value h hK hV hstep]
  exact (stage_value h hK hV m f p.1).push_decoded ((hV f).closing (h.closes f p.1 m))
    (decodes_valueStage h hstep) rfl r

/-- After any part of a map, the decoder is in the stage that belongs to the place. -/
theorem push_prefix {m m' : M} {ps : List Pair} (hsteps : S.Steps m ps m') {out : α}
    (hout : S.finish m' = .ok out) {x : Bytes} (hx : x <+: mapBytes ps) :
    ∃ s st, S.mapDecoder.push (State.separator m) x = .ok (s, [], st) ∧
      Grammar.At (ps.map Pair.raw) x (S.place s) := by
  induction hsteps generalizing x with
  | nil =>
      cases x with
      | nil => exact ⟨_, _, push_separator_nil _, @Grammar.At.boundary _ [] _ rfl⟩
      | cons byte x =>
          obtain ⟨rfl, hnil⟩ := List.cons_prefix_cons.mp hx
          obtain rfl := List.prefix_nil.mp hnil
          refine ⟨.done out, .ready, ?_, .done⟩
          rw [push_separator, hout]
          rfl
  | @cons m₀ m₁ m₂ p ps f v head tail ih =>
      have hbytes : mapBytes (p :: ps) = p.1.bytes ++ (frame p.2 ++ mapBytes ps) := by
        simp [mapBytes]
      rw [hbytes] at hx
      rcases Grammar.prefix_append_cases hx with ⟨y, hy, heq⟩ | ⟨z, rfl, hz⟩
      · by_cases hnil : x = []
        · subst hnil
          exact ⟨_, _, push_separator_nil _, @Grammar.At.boundary _ [] _ rfl⟩
        · obtain ⟨d, hd⟩ := push_key_part h hK hV (m := m₀) head.key_le hnil hy heq
          exact ⟨_, _, hd, @Grammar.At.key _ [] _ _ _ _ rfl heq hnil hy⟩
      · rcases Grammar.prefix_append_cases hz with ⟨y, hy, heq⟩ | ⟨w, rfl, hw⟩
        · obtain ⟨d, hd⟩ := push_value_part h hK hV head hy heq
          exact ⟨_, _, hd, @Grammar.At.value _ [] _ _ _ _ rfl heq hy⟩
        · obtain ⟨s, st, hpush, hat⟩ := ih hout hw
          refine ⟨s, st, ?_, hat.cons⟩
          have hpair := push_pair h hK hV head w
          rw [hpush] at hpair
          exact Result.erase_eq_ok.mp hpair

end

end MapSpec

namespace MapCodec

variable {ε M α : Type} {C : MapCodec ε M α}

/-! ## Collected pairs -/

/-- The pairs are those of the entries that were collected, in some order. -/
def Collects (C : MapCodec ε M α) (ps : List Pair) (m : M) : Prop :=
  ∃ es : List C.table.Entry, List.Forall₂ C.DecodesPair ps es ∧ es.Perm (C.table.entries m)

/-- Exactly one pair has a key of the type. -/
def Once (ps : List Pair) (t : UInt64) : Prop :=
  ps.countP (fun p => p.1.typeValue = t) = 1

omit [BitcoinTypes] [BitcoinCodecs] in
/-- What holds of different entries holds of different pairs. -/
theorem pairwise_of_forall₂ {β γ : Type} {R : β → γ → Prop} {T : γ → γ → Prop} {U : β → β → Prop}
    {bs : List β} {cs : List γ} (hall : List.Forall₂ R bs cs) (hcs : cs.Pairwise T)
    (hU : ∀ {b b' c c'}, R b c → R b' c' → T c c' → U b b') : bs.Pairwise U := by
  induction hall with
  | nil => exact .nil
  | @cons b c bs cs hbc hall ih =>
      obtain ⟨hhead, htail⟩ := List.pairwise_cons.mp hcs
      refine List.pairwise_cons.mpr ⟨fun b' hb' => ?_, ih htail⟩
      obtain ⟨c', hc', hbc'⟩ := Result.exists_of_mem_right hall.flip hb'
      exact hU hbc hbc' (hhead c' hc')

omit [BitcoinTypes] [BitcoinCodecs] in
/-- At most one element has a property that no two elements share. -/
theorem countP_le_one {β : Type} {P : β → Bool} {bs : List β}
    (h : bs.Pairwise fun b b' => ¬(P b = true ∧ P b' = true)) : bs.countP P ≤ 1 := by
  induction h with
  | nil => simp
  | @cons b bs hhead htail ih =>
      by_cases hb : P b = true
      · have hzero : bs.countP P = 0 :=
          List.countP_eq_zero.mpr fun b' hb' hP => hhead b' hb' ⟨hb, hP⟩
        simp [hb, hzero]
      · rw [List.countP_cons_of_neg hb]
        exact ih

namespace Collects

variable {ps : List Pair} {m : M}

/-- Every pair is decoded into an entry. -/
theorem exists_entry (h : C.Collects ps m) {p : Pair} (hp : p ∈ ps) :
    ∃ e ∈ C.table.entries m, C.DecodesPair p e := by
  obtain ⟨es, hall, hperm⟩ := h
  obtain ⟨e, he, hpair⟩ := Result.exists_of_mem_right hall.flip hp
  exact ⟨e, hperm.mem_iff.mp he, hpair⟩

/-- Every entry was decoded from a pair. -/
theorem exists_pair (h : C.Collects ps m) {e : C.table.Entry} (he : e ∈ C.table.entries m) :
    ∃ p ∈ ps, C.DecodesPair p e := by
  obtain ⟨es, hall, hperm⟩ := h
  exact Result.exists_of_mem_right hall (hperm.mem_iff.mpr he)

theorem pairFits (h : C.Collects ps m) : ∀ p ∈ ps, PairFits p := by
  intro p hp
  obtain ⟨e, -, hpair⟩ := h.exists_entry hp
  exact ⟨hpair.key_le, hpair.value_le⟩

/-- Different pairs are decoded into entries of different slots. -/
theorem pairwise_slot_ne (hlaw : C.Lawful) (h : C.Collects ps m) : ps.Pairwise fun p q =>
    ∃ e e', C.DecodesPair p e ∧ C.DecodesPair q e' ∧ e.slot ≠ e'.slot := by
  obtain ⟨es, hall, hperm⟩ := h
  have hslots : es.Pairwise fun e e' => e.slot ≠ e'.slot :=
    (hperm.pairwise_iff fun hne => hne.symm).mpr (hlaw.table.pairwise_slot_ne m)
  exact pairwise_of_forall₂ hall hslots fun hp hq hne => ⟨_, _, hp, hq, hne⟩

/-- No two pairs have the same raw key. -/
theorem nodup_keys (hlaw : C.Lawful) (h : C.Collects ps m) :
    ((ps.map Pair.raw).map Prod.fst).Nodup := by
  rw [List.map_map, List.Nodup, List.pairwise_map]
  refine (h.pairwise_slot_ne hlaw).imp ?_
  rintro p q ⟨e, e', hp, hq, hne⟩ hkey
  exact hne (hp.slot_eq hq (Key.body_injective hkey))

/-- A key of a field is set when it is read from a pair. -/
theorem exists_key_iff (hlaw : C.Lawful) (h : C.Collects ps m) {c : C.table.Col}
    {k : C.table.K c} : (∃ v, C.table.lookup m c k = some v) ↔ ∃ p ∈ ps, C.ReadsKey c p.1 k := by
  constructor
  · rintro ⟨v, hlookup⟩
    obtain ⟨p, hp, hpair⟩ := h.exists_pair (e := ⟨c, k, v⟩) (hlaw.table.mem_entries.mpr hlookup)
    exact ⟨p, hp, hpair.readsKey⟩
  · rintro ⟨p, hp, hreads⟩
    obtain ⟨⟨c', k', v⟩, he, hpair⟩ := h.exists_entry hp
    have hcol : c' = c := Except.ok.inj (hpair.readsKey.fromKey.symm.trans hreads.fromKey)
    subst hcol
    have hkey : k' = k := Except.ok.inj (hpair.readsKey.entryKey.symm.trans hreads.entryKey)
    subst hkey
    exact ⟨v, hlaw.table.mem_entries.mp he⟩

/-- A field is set when a pair has its type. -/
theorem exists_pair_iff (hlaw : C.Lawful) (h : C.Collects ps m) {c : C.table.Col} {t : UInt64}
    (hselects : ∀ key : Key, key.typeValue = t → C.fromKey key = .ok c)
    (htype : ∀ {key k}, C.ReadsKey c key k → key.typeValue = t) :
    (∃ p ∈ ps, p.1.typeValue = t) ↔ ∃ k v, C.table.lookup m c k = some v := by
  constructor
  · rintro ⟨p, hp, ht⟩
    obtain ⟨⟨c', k, v⟩, he, hpair⟩ := h.exists_entry hp
    have hcol : c' = c := Except.ok.inj (hpair.readsKey.fromKey.symm.trans (hselects _ ht))
    subst hcol
    exact ⟨k, v, hlaw.table.mem_entries.mp he⟩
  · rintro ⟨k, v, hlookup⟩
    obtain ⟨p, hp, hreads⟩ := (h.exists_key_iff hlaw).mp ⟨v, hlookup⟩
    exact ⟨p, hp, htype hreads⟩

/-- A field without keys that is set comes from the one pair of its type. -/
theorem once (hlaw : C.Lawful) (h : C.Collects ps m) {c : C.table.Col} {k : C.table.K c}
    {v : C.table.V c} (hset : C.table.lookup m c k = some v) (hunit : ∀ k', k' = k) {t : UInt64}
    (htype : ∀ key, C.fromKey key = .ok c ↔ key.typeValue = t) : Once ps t := by
  obtain ⟨p, hp, hpair⟩ := h.exists_pair (e := ⟨c, k, v⟩) (hlaw.table.mem_entries.mpr hset)
  have hkey : p.1.typeValue = t := (htype _).mp hpair.readsKey.fromKey
  have hslot : ∀ {q e}, C.DecodesPair q e → q.1.typeValue = t → e.slot = ⟨c, k⟩ := by
    rintro q ⟨c', k', v'⟩ hq ht
    have hcol : c' = c := by
      have hfrom := hq.readsKey.fromKey
      rw [(htype _).mpr ht] at hfrom
      exact (Except.ok.inj hfrom).symm
    subst hcol
    rw [Table.Entry.slot, hunit k']
  refine le_antisymm (countP_le_one ((h.pairwise_slot_ne hlaw).imp ?_)) ?_
  · rintro q r ⟨e, e', hq, hr, hne⟩ ⟨htq, htr⟩
    exact hne ((hslot hq (of_decide_eq_true htq)).trans (hslot hr (of_decide_eq_true htr)).symm)
  · exact List.one_le_countP_iff.mpr ⟨p, hp, decide_eq_true hkey⟩

end Collects

/-! ## Following the grammar -/

/-- The map decoder follows the grammar on a map of these pairs. -/
structure Follows (C : MapCodec ε M α) (ps : List Pair) (a : α) : Prop where
  decodes : C.mapDecoder.Decodes (mapBytes ps) a
  nodup : ((ps.map Pair.raw).map Prod.fst).Nodup
  pairFits : ∀ p ∈ ps, PairFits p
  /-- The decoders of the key and of the value of a pair take what their lengths announce. -/
  takes : ∀ p ∈ ps, keyDecoder.Decodes (frame p.raw.1) p.1 ∧
    ∃ c v, C.fromKey p.1 = .ok c ∧ (C.decoder c).Decodes (frame p.raw.2) v
  /-- After any part of the map, the stage is the one of the place in the grammar. -/
  places : ∀ x, x <+: mapBytes ps → ∃ s st,
    C.mapDecoder.push C.mapDecoder.init x = .ok (s, [], st) ∧
      Grammar.At (ps.map Pair.raw) x (C.spec.place s)

variable [LawfulCodecs]

/-- Pairs that are collected into a result are a map of the grammar with distinct keys. -/
theorem Collects.follows (h : C.Lawful) {ps : List Pair} {m : M} {a : α}
    (hcollects : C.Collects ps m) (hout : (C.finish m >>= C.atEnd) = .ok a) :
    C.Follows ps a := by
  have hdec : C.mapDecoder.Decodes (mapBytes ps) a := by
    obtain ⟨es, hall, hperm⟩ := hcollects
    exact h.accepts_iff.mpr ⟨ps, es, m, (List.append_nil _).symm, hall, hperm, hout⟩
  have hsteps : C.spec.Steps C.table.empty ps m := (steps_empty_iff h).mpr hcollects
  refine ⟨hdec, hcollects.nodup_keys h, hcollects.pairFits, ?_, ?_⟩
  · intro p hp
    obtain ⟨e, -, hpair⟩ := hcollects.exists_entry hp
    refine ⟨accepts_keyDecoder.mpr ⟨(List.append_nil _).symm, hpair.key_le⟩, e.col, e.value,
      hpair.readsKey.fromKey, hpair.decodes⟩
  · intro x hx
    obtain ⟨out, hfinish, -⟩ := Result.bind_eq_ok.mp hout
    obtain ⟨WK, hK⟩ := lawful_keyDecoder
    have hV := fun f => (h.spec.framed f).lawful.choose_spec
    exact MapSpec.push_prefix h.spec hK hV hsteps hfinish hx

/-- What a map decoder takes is a map of the grammar with distinct keys. -/
theorem Lawful.follows (h : C.Lawful) {w : Bytes} {a : α} (hdec : C.mapDecoder.Decodes w a) :
    ∃ ps m, w = mapBytes ps ∧ C.Collects ps m ∧ (C.finish m >>= C.atEnd) = .ok a ∧
      C.Follows ps a := by
  obtain ⟨ps, es, m, hw, hall, hperm, hout⟩ := h.accepts_iff.mp hdec
  rw [List.append_nil] at hw
  have hcollects : C.Collects ps m := ⟨es, hall, hperm⟩
  exact ⟨ps, m, hw, hcollects, hout, hcollects.follows h hout⟩

omit [LawfulCodecs] in
/-- An encoder writes the pairs of the entries of a record, and they collect the record. -/
theorem Lawful.collects_encode (h : C.Lawful) {m : M}
    {nextState : EncoderState C.table.Col → Option (EncoderState C.table.Col)}
    {start : EncoderState C.table.Col} {present : C.table.Col → Bool} {cs : List C.table.Col}
    (hvisits : C.Visits m nextState start present cs)
    (hadmits : ∀ e ∈ C.table.entries m, C.Admits e) :
    ∃ ps, C.encode m nextState start = mapBytes ps ∧ C.Collects ps m ∧
      ∀ p, p ∈ ps ↔ ∃ e ∈ C.table.entries m, C.pairOf e = p := by
  have hperm := h.table.flatMap_columnEntries_perm hvisits.nodup hvisits.rest
  refine ⟨_, h.encode_eq hvisits.nodup hvisits.chained hvisits.start hvisits.skipped,
    ⟨_, ?_, hperm⟩, fun p => ?_⟩
  · rw [List.forall₂_map_left_iff, List.forall₂_same]
    intro e he
    exact (hadmits e (hperm.mem_iff.mp he)).decodesPair h
  · simp only [List.mem_map, hperm.mem_iff]

end MapCodec

end RustPsbt
