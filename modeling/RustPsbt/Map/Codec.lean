import RustPsbt.Library.GroupEncoder
import RustPsbt.Library.KeyedTable
import RustPsbt.Map.Decoder

/-!
# Codecs of maps

A map decoder collects the entries of a table; the map encoder writes a key and a value
for every entry.  A `MapCodec` is both, and `MapCodec.Lawful` says that they match.

Main results:

- Theorem `MapCodec.Lawful.accepts_iff`: a map decoder takes pairs and a separator, and the
  pairs are the entries of what it collects, in any order.
- Theorem `MapCodec.Lawful.decodes_pairsOf`: the pairs of a record, in any order, decode
  into the record.
- Theorem `MapCodec.Lawful.decodes_encode`: an encoder that visits every field writes them.
-/

namespace RustPsbt

variable [BitcoinTypes] [BitcoinCodecs]

/-- A map decoder that collects the fields `M`, and what the map encoder writes for an
entry. -/
structure MapCodec (ε M α : Type) where
  /-- The collected fields as a table. -/
  table : Table M
  /-- The decoder of a value, its errors wrapped as by the map decoder. -/
  decoder : (c : table.Col) → PushDecoder UInt8 ε (table.V c)
  /-- `from_key`. -/
  fromKey : Key → Result ε table.Col
  /-- How the key data of a field is read. -/
  entryKey : (c : table.Col) → Key → Result ε (table.K c)
  /-- The values that the map decoder takes. -/
  Allowed : (c : table.Col) → table.V c → Prop
  /-- The transition at the end of a value. -/
  store : (c : table.Col) → Key → Result ε (table.V c) → M → Result ε M
  /-- The transition at the separator. -/
  finish : M → Result ε α
  /-- The checks of `end`. -/
  atEnd : α → Result ε α
  keyDecode : KeyDecodeError → ε
  earlyEnd : ε
  /-- The key that is written for an entry. -/
  rawKey : (c : table.Col) → table.K c → Key
  /-- The encoder of the value of an entry. -/
  encodeValue : (c : table.Col) → table.V c → ExactSizeEncoder
  /-- The value is inside the limits of its decoder. -/
  Fits : (c : table.Col) → table.V c → Prop

/-- The common arm of the transition at the end of a value: end the decoder, read the key
data, and refuse a key that is taken. -/
def storeEntry {ε M : Type} (T : Table M) (duplicate : ε) (c : T.Col)
    (entryKey : Result ε (T.K c)) (ended : Result ε (T.V c)) (m : M) : Result ε M := do
  let v ← ended
  let k ← entryKey
  T.insertNew duplicate m ⟨c, k, v⟩

/-- The same arm where the duplicate error is made from the key that was read. -/
def storeRead {ε M : Type} (T : Table M) (c : T.Col) (duplicate : T.K c → ε)
    (entryKey : Result ε (T.K c)) (ended : Result ε (T.V c)) (m : M) : Result ε M := do
  let v ← ended
  let k ← entryKey
  T.insertNew (duplicate k) m ⟨c, k, v⟩

namespace MapCodec

variable {ε M α : Type}

/-- The decoder half of a codec. -/
def spec (C : MapCodec ε M α) : MapSpec ε M α where
  Field := C.table.Col
  Value := C.table.V
  decoder := C.decoder
  fromKey := C.fromKey
  handle := C.store
  empty := C.table.empty
  finish := C.finish
  atEnd := C.atEnd
  keyDecode := C.keyDecode
  earlyEnd := C.earlyEnd

/-- The map decoder. -/
def mapDecoder (C : MapCodec ε M α) : PushDecoder UInt8 ε α :=
  C.spec.mapDecoder

/-- The pair that is written for an entry. -/
def pairOf (C : MapCodec ε M α) (e : C.table.Entry) : Pair :=
  (C.rawKey e.col e.key, (C.encodeValue e.col e.value).bytes)

/-- The bytes that are written for an entry. -/
def entryBytes (C : MapCodec ε M α) (e : C.table.Entry) : Bytes :=
  keyValueBytes (C.rawKey e.col e.key) (C.encodeValue e.col e.value)

/-- The bytes that a state of the map encoder yields. -/
def chunk (C : MapCodec ε M α) (m : M) : EncoderState C.table.Col → Bytes
  | .group c => (C.table.columnEntries m c).flatMap C.entryBytes
  | .separator => [psbtSeparator]

/-- The bytes of a map encoder that starts in a state; it visits no field twice. -/
def encode (C : MapCodec ε M α) (m : M)
    (nextState : EncoderState C.table.Col → Option (EncoderState C.table.Col))
    (start : EncoderState C.table.Col) : Bytes :=
  (EncoderState.drain nextState (C.chunk m) (C.table.order.length + 1) start).getD []

/-! ## Entries and pairs -/

/-- The raw key selects the field and is read as the key of an entry. -/
structure ReadsKey (C : MapCodec ε M α) (c : C.table.Col) (key : Key) (k : C.table.K c) :
    Prop where
  fromKey : C.fromKey key = .ok c
  entryKey : C.entryKey c key = .ok k

/-- The pair is decoded into the entry. -/
structure DecodesPair (C : MapCodec ε M α) (p : Pair) (e : C.table.Entry) : Prop where
  key_le : p.1.body.length ≤ compactSizeLimit
  value_le : p.2.length ≤ compactSizeLimit
  readsKey : C.ReadsKey e.col p.1 e.key
  decodes : (C.decoder e.col).Decodes (frame p.2) e.value
  allowed : C.Allowed e.col e.value

/-- What is written for the entry is read as the entry. -/
structure Admits (C : MapCodec ε M α) (e : C.table.Entry) : Prop where
  readsKey : C.ReadsKey e.col (C.rawKey e.col e.key) e.key
  allowed : C.Allowed e.col e.value
  key_le : (C.rawKey e.col e.key).body.length ≤ compactSizeLimit
  fits : C.Fits e.col e.value

/-- What the parts of a codec are relied on for. -/
structure Lawful (C : MapCodec ε M α) : Prop where
  table : C.table.Lawful
  codec : ∀ c, ValueCodecOn (C.decoder c) (C.encodeValue c) (C.Fits c)
  closes : ∀ (c : C.table.Col) (key : Key) (m : M),
    (C.decoder c).Closes fun ended => C.store c key ended m
  /-- A value is stored under the key that is read, unless the key is taken. -/
  store_eq_ok : ∀ {c : C.table.Col} {key : Key} {v : C.table.V c} {m m' : M},
    C.store c key (.ok v) m = .ok m' ↔ C.Allowed c v ∧ ∃ k, C.entryKey c key = .ok k ∧
      C.table.insertNew () m ⟨c, k, v⟩ = .ok m'
  /-- A key is written no longer than it was read, and is read again. -/
  rewrites : ∀ {c : C.table.Col} {key : Key} {k : C.table.K c}, C.ReadsKey c key k →
    C.ReadsKey c (C.rawKey c k) k ∧ (C.rawKey c k).body.length ≤ key.body.length
  returns_store : ∀ (c : C.table.Col) (key : Key) (v : C.table.V c) (m : M),
    (C.store c key (.ok v) m).Returns
  returns_fromKey : ∀ key, (C.fromKey key).Returns
  returns_finish : ∀ m, (C.finish m).Returns
  returns_atEnd : ∀ out, (C.atEnd out).Returns

/-- The states of a map encoder visit the fields `cs` in order and skip those that are not
present; all other fields of the record are empty. -/
structure Visits (C : MapCodec ε M α) (m : M)
    (nextState : EncoderState C.table.Col → Option (EncoderState C.table.Col))
    (start : EncoderState C.table.Col) (present : C.table.Col → Bool)
    (cs : List C.table.Col) : Prop where
  nodup : cs.Nodup
  chained : EncoderState.Chained nextState present cs
  start : EncoderState.firstOf present cs = some start
  skipped : ∀ c, present c = false → (C.table.column c).rows m = []
  rest : ∀ c, c ∉ cs → (C.table.column c).rows m = []

end MapCodec

/-! ## The common arm -/

section StoreEntry

variable {ε M : Type} {T : Table M} {duplicate : ε} {c : T.Col} {entryKey : Result ε (T.K c)}
  {m m' : M}

omit [BitcoinTypes] [BitcoinCodecs] in
theorem insertNew_eq_ok_iff {ε' : Type} (taken : ε) (taken' : ε') {e : T.Entry} :
    T.insertNew taken m e = .ok m' ↔ T.insertNew taken' m e = .ok m' := by
  rw [Table.Lawful.insertNew_eq_ok, Table.Lawful.insertNew_eq_ok]

omit [BitcoinTypes] [BitcoinCodecs] in
theorem storeEntry_eq_ok {v : T.V c} :
    storeEntry T duplicate c entryKey (.ok v) m = .ok m' ↔
      ∃ k, entryKey = .ok k ∧ T.insertNew () m ⟨c, k, v⟩ = .ok m' := by
  change (entryKey >>= fun k => T.insertNew duplicate m ⟨c, k, v⟩) = .ok m' ↔ _
  rw [Result.bind_eq_ok]
  simp only [insertNew_eq_ok_iff duplicate ()]

omit [BitcoinTypes] [BitcoinCodecs] in
theorem closes_storeEntry (D : PushDecoder UInt8 ε (T.V c)) :
    D.Closes fun ended => storeEntry T duplicate c entryKey ended m where
  err e := ⟨e, rfl⟩
  fault := .inr ⟨rfl, rfl⟩

omit [BitcoinTypes] [BitcoinCodecs] in
theorem returns_storeEntry (hkey : entryKey.Returns) (v : T.V c) :
    (storeEntry T duplicate c entryKey (.ok v) m).Returns :=
  hkey.bind fun k _ => Table.Lawful.returns_insertNew duplicate m ⟨c, k, v⟩

variable {duplicateOf : T.K c → ε}

omit [BitcoinTypes] [BitcoinCodecs] in
theorem storeRead_eq_ok {v : T.V c} :
    storeRead T c duplicateOf entryKey (.ok v) m = .ok m' ↔
      ∃ k, entryKey = .ok k ∧ T.insertNew () m ⟨c, k, v⟩ = .ok m' := by
  change (entryKey >>= fun k => T.insertNew (duplicateOf k) m ⟨c, k, v⟩) = .ok m' ↔ _
  rw [Result.bind_eq_ok]
  exact exists_congr fun k => and_congr_right fun _ => insertNew_eq_ok_iff (duplicateOf k) ()

omit [BitcoinTypes] [BitcoinCodecs] in
theorem closes_storeRead (D : PushDecoder UInt8 ε (T.V c)) :
    D.Closes fun ended => storeRead T c duplicateOf entryKey ended m where
  err e := ⟨e, rfl⟩
  fault := .inr ⟨rfl, rfl⟩

omit [BitcoinTypes] [BitcoinCodecs] in
theorem returns_storeRead (hkey : entryKey.Returns) (v : T.V c) :
    (storeRead T c duplicateOf entryKey (.ok v) m).Returns :=
  hkey.bind fun k _ => Table.Lawful.returns_insertNew (duplicateOf k) m ⟨c, k, v⟩

end StoreEntry

namespace MapCodec

variable {ε M α : Type} {C : MapCodec ε M α}

/-! ## Decoding pairs -/

/-- A step of the map decoder stores the entry that the pair is decoded into. -/
theorem step_iff (h : C.Lawful) {m m' : M} {p : Pair} {c : C.table.Col} {v : C.table.V c} :
    C.spec.Step m p m' c v ↔
      ∃ k, C.DecodesPair p ⟨c, k, v⟩ ∧ C.table.insertNew () m ⟨c, k, v⟩ = .ok m' := by
  constructor
  · intro hstep
    rcases h.store_eq_ok.mp hstep.handle with ⟨hallowed, k, hkey, hinsert⟩
    exact ⟨k, ⟨hstep.key_le, hstep.value_le, ⟨hstep.fromKey, hkey⟩, hstep.decodes, hallowed⟩,
      hinsert⟩
  · rintro ⟨k, hpair, hinsert⟩
    have hhandle := h.store_eq_ok.mpr ⟨hpair.allowed, k, hpair.readsKey.entryKey, hinsert⟩
    exact ⟨hpair.key_le, hpair.readsKey.fromKey, hpair.value_le, hpair.decodes, hhandle⟩

/-- The map decoder steps through the pairs that decode into the entries it stores. -/
theorem steps_iff (h : C.Lawful) {ps : List Pair} {m m' : M} :
    C.spec.Steps m ps m' ↔ ∃ es : List C.table.Entry, List.Forall₂ C.DecodesPair ps es ∧
      es.foldlM (fun m e => C.table.insertNew () m e) m = .ok m' := by
  constructor
  · intro hsteps
    induction hsteps with
    | nil => exact ⟨[], .nil, rfl⟩
    | @cons _ m₁ _ p ps c v head tail ih =>
        rcases (step_iff h).mp head with ⟨k, hpair, hinsert⟩
        rcases ih with ⟨es, hpairs, hfold⟩
        refine ⟨⟨c, k, v⟩ :: es, .cons hpair hpairs, ?_⟩
        rw [List.foldlM_cons, Result.bind_eq_ok]
        exact ⟨m₁, hinsert, hfold⟩
  · rintro ⟨es, hpairs, hfold⟩
    induction hpairs generalizing m with
    | nil =>
        cases hfold
        exact .nil
    | @cons p e ps es hpair hpairs ih =>
        rw [List.foldlM_cons, Result.bind_eq_ok] at hfold
        rcases hfold with ⟨m₁, hinsert, hfold⟩
        rcases e with ⟨c, k, v⟩
        exact .cons ((step_iff h).mpr ⟨k, hpair, hinsert⟩) (ih hfold)

/-- From the empty record, the pairs are the entries of the result in some order. -/
theorem steps_empty_iff (h : C.Lawful) {ps : List Pair} {m : M} :
    C.spec.Steps C.table.empty ps m ↔ ∃ es : List C.table.Entry,
      List.Forall₂ C.DecodesPair ps es ∧ es.Perm (C.table.entries m) := by
  rw [steps_iff h]
  have hperm (es : List C.table.Entry) :
      es.foldlM (fun m e => C.table.insertNew () m e) C.table.empty = .ok m ↔
        es.Perm (C.table.entries m) := h.table.foldlM_insertNew_eq_ok
  simp only [hperm]

/-- A decoded entry is admitted. -/
theorem DecodesPair.admits (h : C.Lawful) {p : Pair} {e : C.table.Entry}
    (hpair : C.DecodesPair p e) : C.Admits e := by
  rcases h.rewrites hpair.readsKey with ⟨hreads, hle⟩
  exact ⟨hreads, hpair.allowed, hle.trans hpair.key_le, (h.codec e.col).fits_of_decodes hpair.decodes⟩

/-- Where the written keys are read back, but for those of the field `other`, the entries of a
record are read as they are exactly if the keys of `other` select it, everything is inside the
limits, and the values are allowed. -/
theorem admits_iff (C : MapCodec ε M α) (htable : C.table.Lawful) (other : C.table.Col) {m : M}
    (hreads : ∀ e ∈ C.table.entries m,
      (C.rawKey e.col e.key).body.length ≤ compactSizeLimit →
        (e.col = other → C.fromKey (C.rawKey e.col e.key) = .ok e.col) →
          C.ReadsKey e.col (C.rawKey e.col e.key) e.key) :
    (∀ e ∈ C.table.entries m, C.Admits e) ↔
      (∀ k, (C.table.lookup m other k).isSome → C.fromKey (C.rawKey other k) = .ok other) ∧
        (∀ e ∈ C.table.entries m, (C.rawKey e.col e.key).body.length ≤ compactSizeLimit ∧
          C.Fits e.col e.value) ∧
        ∀ e ∈ C.table.entries m, C.Allowed e.col e.value := by
  constructor
  · intro h
    refine ⟨?_, fun e he => ⟨(h e he).key_le, (h e he).fits⟩, fun e he => (h e he).allowed⟩
    intro k hk
    obtain ⟨v, hv⟩ := Option.isSome_iff_exists.mp hk
    exact (h ⟨other, k, v⟩ (htable.mem_entries.mpr hv)).readsKey.fromKey
  · rintro ⟨hother, hfits, hallowed⟩ e he
    refine ⟨hreads e he (hfits e he).1 ?_, hallowed e he, (hfits e he).1, (hfits e he).2⟩
    intro hcol
    have hlookup := Option.isSome_of_eq_some (htable.mem_entries.mp he)
    rcases e with ⟨c, k, v⟩
    cases hcol
    exact hother k hlookup

/-- The pair of an admitted entry decodes into the entry. -/
theorem Admits.decodesPair (h : C.Lawful) {e : C.table.Entry} (he : C.Admits e) :
    C.DecodesPair (C.pairOf e) e where
  key_le := he.key_le
  value_le := (h.codec e.col).length_le he.fits
  readsKey := he.readsKey
  decodes := (h.codec e.col).decodes_encode he.fits
  allowed := he.allowed

/-- A raw key selects one slot. -/
theorem DecodesPair.slot_eq {p q : Pair} {e e' : C.table.Entry} (hp : C.DecodesPair p e)
    (hq : C.DecodesPair q e') (hkey : p.1 = q.1) : e.slot = e'.slot := by
  rcases e with ⟨c, k, v⟩
  rcases e' with ⟨c', k', v'⟩
  have hcol : c = c' := by
    have hfrom := hp.readsKey.fromKey
    rw [hkey, hq.readsKey.fromKey] at hfrom
    exact (Except.ok.inj hfrom).symm
  subst hcol
  have hk : k = k' := by
    have hentry := hp.readsKey.entryKey
    rw [hkey, hq.readsKey.entryKey] at hentry
    exact (Except.ok.inj hentry).symm
  rw [Table.Entry.slot, Table.Entry.slot, hk]

theorem entryBytes_eq (h : C.Lawful) (e : C.table.Entry) :
    C.entryBytes e = pairBytes (C.pairOf e) :=
  keyValueBytes_eq ((h.codec e.col).len_eq e.value)

theorem flatMap_entryBytes (h : C.Lawful) (es : List C.table.Entry) :
    es.flatMap C.entryBytes = pairsBytes (es.map C.pairOf) := by
  rw [pairsBytes, List.flatMap_map]
  congr 1
  funext e
  exact entryBytes_eq h e

namespace Lawful

theorem spec (h : C.Lawful) : C.spec.Lawful where
  framed c := (h.codec c).framed
  closes := h.closes
  returns_handle := h.returns_store
  returns_fromKey := h.returns_fromKey
  returns_finish := h.returns_finish
  returns_atEnd := h.returns_atEnd

variable [LawfulCodecs]

theorem lawful_mapDecoder (h : C.Lawful) : C.mapDecoder.Lawful :=
  h.spec.lawful_mapDecoder

omit [LawfulCodecs] in
theorem strict_mapDecoder (C : MapCodec ε M α) : C.mapDecoder.Strict :=
  MapSpec.Lawful.strict_mapDecoder C.spec

/-- A map decoder takes pairs and a separator, and the pairs are the entries of what it
collects, in any order. -/
theorem accepts_iff (h : C.Lawful) {b r : Bytes} {out : α} :
    C.mapDecoder.Accepts b out r ↔ ∃ (ps : List Pair) (es : List C.table.Entry) (m : M),
      b = mapBytes ps ++ r ∧ List.Forall₂ C.DecodesPair ps es ∧
        es.Perm (C.table.entries m) ∧ (C.finish m >>= C.atEnd) = .ok out := by
  refine (h.spec.accepts_iff).trans ?_
  constructor
  · rintro ⟨ps, m, hb, hsteps, hout⟩
    rcases (steps_empty_iff h).mp hsteps with ⟨es, hpairs, hperm⟩
    exact ⟨ps, es, m, hb, hpairs, hperm, hout⟩
  · rintro ⟨ps, es, m, hb, hpairs, hperm, hout⟩
    exact ⟨ps, m, hb, (steps_empty_iff h).mpr ⟨es, hpairs, hperm⟩, hout⟩

/-- The pairs of a record, in any order, decode into the record. -/
theorem decodes_pairsOf (h : C.Lawful) {m : M} {es : List C.table.Entry} {out : α}
    (hperm : es.Perm (C.table.entries m)) (hadmits : ∀ e ∈ C.table.entries m, C.Admits e)
    (hout : (C.finish m >>= C.atEnd) = .ok out) :
    C.mapDecoder.Decodes (mapBytes (es.map C.pairOf)) out := by
  have hpairs : List.Forall₂ C.DecodesPair (es.map C.pairOf) es := by
    rw [List.forall₂_map_left_iff, List.forall₂_same]
    intro e he
    exact (hadmits e (hperm.mem_iff.mp he)).decodesPair h
  exact h.accepts_iff.mpr ⟨_, es, m, (List.append_nil _).symm, hpairs, hperm, hout⟩

omit [LawfulCodecs] in
/-- An encoder drains to the pairs of the fields it walks through. -/
theorem encode_eq (h : C.Lawful) {m : M}
    {nextState : EncoderState C.table.Col → Option (EncoderState C.table.Col)}
    {start : EncoderState C.table.Col} {present : C.table.Col → Bool} {cs : List C.table.Col}
    (hnodup : cs.Nodup) (hchained : EncoderState.Chained nextState present cs)
    (hstart : EncoderState.firstOf present cs = some start)
    (hskipped : ∀ c, present c = false → (C.table.column c).rows m = []) :
    C.encode m nextState start =
      mapBytes ((cs.flatMap (C.table.columnEntries m)).map C.pairOf) := by
  have hchunk : ∀ c, present c = false → C.chunk m (.group c) = [] := by
    intro c hc
    rw [chunk, Table.columnEntries, hskipped c hc]
    rfl
  have hlen : cs.length < C.table.order.length + 1 :=
    Nat.lt_succ_of_le (hnodup.subperm fun c _ => h.table.mem_order c).length_le
  rw [encode, EncoderState.drain_eq hchained hchunk hlen hstart, Option.getD_some, mapBytes,
    ← flatMap_entryBytes h, List.flatMap_assoc]
  rfl

/-- An encoder that visits every field writes them. -/
theorem decodes_encode (h : C.Lawful) {m : M}
    {nextState : EncoderState C.table.Col → Option (EncoderState C.table.Col)}
    {start : EncoderState C.table.Col} {present : C.table.Col → Bool} {cs : List C.table.Col}
    (hvisits : C.Visits m nextState start present cs) {out : α}
    (hadmits : ∀ e ∈ C.table.entries m, C.Admits e)
    (hout : (C.finish m >>= C.atEnd) = .ok out) :
    C.mapDecoder.Decodes (C.encode m nextState start) out := by
  rw [h.encode_eq hvisits.nodup hvisits.chained hvisits.start hvisits.skipped]
  exact h.decodes_pairsOf (h.table.flatMap_columnEntries_perm hvisits.nodup hvisits.rest)
    hadmits hout

/-- What a map decoder collects consists of admitted entries. -/
theorem exists_admits (h : C.Lawful) {b r : Bytes} {out : α}
    (hacc : C.mapDecoder.Accepts b out r) :
    ∃ m, (∀ e ∈ C.table.entries m, C.Admits e) ∧ (C.finish m >>= C.atEnd) = .ok out := by
  rcases h.accepts_iff.mp hacc with ⟨ps, es, m, _, hpairs, hperm, hout⟩
  refine ⟨m, ?_, hout⟩
  intro e he
  rcases Result.exists_of_mem_right hpairs (hperm.mem_iff.mpr he) with ⟨p, _, hpair⟩
  exact hpair.admits h

end Lawful

end MapCodec

end RustPsbt
