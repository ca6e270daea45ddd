import RustPsbt.Library.OrderedMap

/-!
# Records as keyed tables

A record of optional values and ordered maps is a table: each field is a column, an
optional value is a column with one key, and an entry is a column, a key and a value.
`insertNew` refuses a key that is taken.

Main results:

- Theorem `Table.Lawful.foldlM_insertNew_eq_ok`: inserting a list of entries succeeds
  exactly when it lists the entries of the result, in any order.
-/

namespace RustPsbt

/-! ## Columns -/

/-- A field of a record that maps keys to values. -/
structure Column (M K V : Type) where
  lookup : M → K → Option V
  put : M → K → V → M
  rows : M → List (K × V)

/-- What a column is to be used as a map. -/
structure Column.Lawful {M K V : Type} (c : Column M K V) : Prop where
  lookup_put_self : ∀ m k v, c.lookup (c.put m k v) k = some v
  lookup_put_of_ne : ∀ m {k k'} v, k ≠ k' → c.lookup (c.put m k v) k' = c.lookup m k'
  mem_rows : ∀ {m k v}, (k, v) ∈ c.rows m ↔ c.lookup m k = some v
  nodup_rows : ∀ m, (c.rows m).Nodup

namespace Column

variable {M K V : Type}

/-- An optional field. -/
def option (get : M → Option V) (set : M → V → M) : Column M Unit V where
  lookup m _ := get m
  put m _ v := set m v
  rows m := (get m).toList.map fun v => ((), v)

/-- A field that is an ordered map. -/
def map [OrdKey K] (get : M → BTreeMap K V) (set : M → BTreeMap K V → M) : Column M K V where
  lookup m k := (get m)[k]?
  put m k v := set m ((get m).insert k v)
  rows m := (get m).toList

theorem lawful_option {get : M → Option V} {set : M → V → M}
    (hget : ∀ m v, get (set m v) = some v) : (option get set).Lawful where
  lookup_put_self m _ v := hget m v
  lookup_put_of_ne _ {k k'} _ hne := absurd (Subsingleton.elim k k') hne
  mem_rows := by simp [option]
  nodup_rows m := by
    change ((get m).toList.map fun v => ((), v)).Nodup
    cases get m <;> simp

theorem lawful_map [OrdKey K] {get : M → BTreeMap K V} {set : M → BTreeMap K V → M}
    (hget : ∀ m t, get (set m t) = t) : (map get set).Lawful where
  lookup_put_self m k v := by
    simp only [map, hget]
    rw [BTreeMap.getElem?_insert_eq, if_pos rfl]
  lookup_put_of_ne m {k k'} v hne := by
    simp only [map, hget]
    rw [BTreeMap.getElem?_insert_eq, if_neg hne]
  mem_rows := Std.ExtTreeMap.mem_toList_iff_getElem?_eq_some
  nodup_rows m := by
    refine (BTreeMap.distinctKeys_toList (get m)).imp ?_
    rintro a b hne rfl
    exact hne rfl

/-- An ordered map is what is found in it. -/
theorem eq_of_lookup_eq [OrdKey K] {s t : BTreeMap K V}
    (h : (fun k => s[k]?) = fun k : K => t[k]?) : s = t :=
  Std.ExtTreeMap.ext_getElem? fun {k} => congrFun h k

theorem option_rows_eq_nil {get : M → Option V} {set : M → V → M} {m : M}
    (h : (get m).isNone) : (option get set).rows m = [] := by
  change (get m).toList.map _ = []
  rw [Option.isNone_iff_eq_none.mp h]
  rfl

end Column

/-! ## Tables -/

/-- A record seen as a table; `order` lists the columns. -/
structure Table (M : Type) where
  Col : Type
  K : Col → Type
  V : Col → Type
  column : (c : Col) → Column M (K c) (V c)
  empty : M
  order : List Col

namespace Table

variable {M ε : Type}

/-- An entry of a table. -/
structure Entry (T : Table M) where
  col : T.Col
  key : T.K col
  value : T.V col

/-- The column and the key of an entry. -/
def Entry.slot {T : Table M} (e : T.Entry) : Σ c, T.K c :=
  ⟨e.col, e.key⟩

/-- The value stored for a column and a key. -/
def lookup (T : Table M) (m : M) (c : T.Col) (k : T.K c) : Option (T.V c) :=
  (T.column c).lookup m k

/-- The record with the entry stored. -/
def put (T : Table M) (m : M) (e : T.Entry) : M :=
  (T.column e.col).put m e.key e.value

/-- Store an entry whose key is not taken. -/
def insertNew (T : Table M) (taken : ε) (m : M) (e : T.Entry) : Result ε M :=
  if (T.lookup m e.col e.key).isSome then .err taken else .ok (T.put m e)

/-- The entries of a column. -/
def columnEntries (T : Table M) (m : M) (c : T.Col) : List T.Entry :=
  ((T.column c).rows m).map fun row => ⟨c, row.1, row.2⟩

/-- All entries, column by column. -/
def entries (T : Table M) (m : M) : List T.Entry :=
  T.order.flatMap (T.columnEntries m)

/-- The columns are independent, and together they are the record. -/
structure Lawful (T : Table M) : Prop where
  column : ∀ c, (T.column c).Lawful
  frame : ∀ {c d : T.Col}, c ≠ d → ∀ (m : M) (k : T.K c) (v : T.V c),
    (T.column d).lookup ((T.column c).put m k v) = (T.column d).lookup m
  ext : ∀ {m m' : M}, (∀ c, (T.column c).lookup m = (T.column c).lookup m') → m = m'
  lookup_empty : ∀ (c : T.Col) (k : T.K c), (T.column c).lookup T.empty k = none
  nodup_order : T.order.Nodup
  mem_order : ∀ c, c ∈ T.order

namespace Lawful

variable {T : Table M}

theorem mem_columnEntries (h : T.Lawful) {m : M} {c : T.Col} {e : T.Entry} :
    e ∈ T.columnEntries m c ↔ e.col = c ∧ T.lookup m e.col e.key = some e.value := by
  unfold columnEntries
  rw [List.mem_map]
  constructor
  · rintro ⟨⟨k, v⟩, hmem, rfl⟩
    exact ⟨rfl, (h.column c).mem_rows.mp hmem⟩
  · rintro ⟨rfl, hlookup⟩
    exact ⟨(e.key, e.value), (h.column e.col).mem_rows.mpr hlookup, rfl⟩

/-- The entries are what lookup finds. -/
theorem mem_entries (h : T.Lawful) {m : M} {e : T.Entry} :
    e ∈ T.entries m ↔ T.lookup m e.col e.key = some e.value := by
  unfold entries
  rw [List.mem_flatMap]
  simp only [h.mem_columnEntries]
  constructor
  · rintro ⟨c, _, rfl, hlookup⟩
    exact hlookup
  · intro hlookup
    exact ⟨e.col, h.mem_order e.col, rfl, hlookup⟩

theorem nodup_columnEntries (h : T.Lawful) (m : M) (c : T.Col) :
    (T.columnEntries m c).Nodup := by
  apply ((h.column c).nodup_rows m).map
  rintro ⟨k, v⟩ ⟨k', v'⟩ heq
  cases heq
  rfl

/-- Columns listed without repetition list their entries without repetition. -/
theorem nodup_flatMap_columnEntries (h : T.Lawful) {cs : List T.Col} (hcs : cs.Nodup) (m : M) :
    (cs.flatMap (T.columnEntries m)).Nodup := by
  rw [List.nodup_flatMap]
  refine ⟨fun c _ => h.nodup_columnEntries m c, hcs.imp ?_⟩
  intro c d hne e hc hd
  exact hne ((h.mem_columnEntries.mp hc).1.symm.trans (h.mem_columnEntries.mp hd).1)

theorem nodup_entries (h : T.Lawful) (m : M) : (T.entries m).Nodup :=
  h.nodup_flatMap_columnEntries h.nodup_order m

theorem entries_empty (h : T.Lawful) : T.entries T.empty = [] := by
  rw [List.eq_nil_iff_forall_not_mem]
  intro e hmem
  have hnone := h.lookup_empty e.col e.key
  have hsome := h.mem_entries.mp hmem
  cases hnone.symm.trans hsome

theorem lookup_put_self (h : T.Lawful) (m : M) (e : T.Entry) :
    T.lookup (T.put m e) e.col e.key = some e.value :=
  (h.column e.col).lookup_put_self m e.key e.value

/-- Storing an entry changes its own slot only. -/
theorem lookup_put_of_ne (h : T.Lawful) (m : M) {e : T.Entry} {d : T.Col} {k : T.K d}
    (hne : e.slot ≠ ⟨d, k⟩) : T.lookup (T.put m e) d k = T.lookup m d k := by
  rcases e with ⟨c, k', v⟩
  by_cases hcol : c = d
  · subst hcol
    have hkey : k' ≠ k := by
      rintro rfl
      exact hne rfl
    exact (h.column c).lookup_put_of_ne m v hkey
  · exact congrFun (h.frame hcol m k' v) k

/-- Two entries of one slot in one record are equal. -/
theorem eq_of_slot_eq (h : T.Lawful) {m : M} {e e' : T.Entry} (he : e ∈ T.entries m)
    (he' : e' ∈ T.entries m) (hslot : e.slot = e'.slot) : e = e' := by
  have hlookup := h.mem_entries.mp he
  have hlookup' := h.mem_entries.mp he'
  rcases e with ⟨c, k, v⟩
  rcases e' with ⟨c', k', v'⟩
  cases hslot
  cases hlookup.symm.trans hlookup'
  rfl

/-- The entries of a record have distinct slots. -/
theorem pairwise_slot_ne (h : T.Lawful) (m : M) :
    (T.entries m).Pairwise fun e e' => e.slot ≠ e'.slot := by
  refine (h.nodup_entries m).imp_of_mem ?_
  intro e e' he he' hne hslot
  exact hne (h.eq_of_slot_eq he he' hslot)

/-- Storing an entry in a free slot adds it to the entries. -/
theorem entries_put_perm (h : T.Lawful) {m : M} {e : T.Entry}
    (hfree : T.lookup m e.col e.key = none) : (T.entries (T.put m e)).Perm (e :: T.entries m) := by
  have hnot : e ∉ T.entries m := by
    intro hmem
    rw [h.mem_entries, hfree] at hmem
    cases hmem
  have hnodup : (e :: T.entries m).Nodup := List.nodup_cons.mpr ⟨hnot, h.nodup_entries m⟩
  rw [List.perm_ext_iff_of_nodup (h.nodup_entries _) hnodup]
  intro e'
  rw [h.mem_entries, List.mem_cons]
  by_cases hslot : e.slot = e'.slot
  · have hself := h.lookup_put_self m e
    constructor
    · intro hlookup
      left
      exact h.eq_of_slot_eq (h.mem_entries.mpr hlookup) (h.mem_entries.mpr hself) hslot.symm
    · rintro (rfl | hmem)
      · exact hself
      · have hlookup := h.mem_entries.mp hmem
        rcases e with ⟨c, k, v⟩
        rcases e' with ⟨c', k', v'⟩
        cases hslot
        cases hfree.symm.trans hlookup
  · rw [h.lookup_put_of_ne m hslot, ← h.mem_entries]
    constructor
    · intro hmem
      exact .inr hmem
    · rintro (rfl | hmem)
      · exact absurd rfl hslot
      · exact hmem

/-- A record is determined by its entries. -/
theorem eq_of_perm (h : T.Lawful) {m m' : M} (hperm : (T.entries m).Perm (T.entries m')) :
    m = m' := by
  apply h.ext
  intro c
  funext k
  have hiff : ∀ v, T.lookup m c k = some v ↔ T.lookup m' c k = some v := by
    intro v
    have hmem := hperm.mem_iff (a := (⟨c, k, v⟩ : T.Entry))
    rwa [h.mem_entries, h.mem_entries] at hmem
  exact Option.ext hiff

theorem insertNew_eq_ok {taken : ε} {m m' : M} {e : T.Entry} :
    T.insertNew taken m e = .ok m' ↔ T.lookup m e.col e.key = none ∧ T.put m e = m' := by
  unfold insertNew
  cases T.lookup m e.col e.key <;> simp

theorem returns_insertNew (taken : ε) (m : M) (e : T.Entry) :
    (T.insertNew taken m e).Returns := by
  unfold insertNew
  split <;> trivial

/-- Entries are inserted when they are the entries that the result has more. -/
theorem foldlM_insertNew_from (h : T.Lawful) {taken : T.Entry → ε} {es : List T.Entry}
    {m m' : M} : es.foldlM (fun m e => T.insertNew (taken e) m e) m = .ok m' ↔
      (es ++ T.entries m).Perm (T.entries m') := by
  induction es generalizing m with
  | nil =>
      simp only [List.foldlM_nil, Result.pure_eq_ok, Except.ok.injEq, List.nil_append]
      constructor
      · rintro rfl
        exact .refl _
      · exact h.eq_of_perm
  | cons e es ih =>
      rw [List.foldlM_cons, Result.bind_eq_ok]
      simp only [insertNew_eq_ok, ih]
      constructor
      · rintro ⟨_, ⟨hfree, rfl⟩, hperm⟩
        have hput := (h.entries_put_perm hfree).append_left es
        exact (List.perm_middle.symm.trans hput.symm).trans hperm
      · intro hperm
        have hfree : T.lookup m e.col e.key = none := by
          cases hlookup : T.lookup m e.col e.key with
          | none => rfl
          | some v =>
              -- the slot would have two entries in the result
              have hold : (⟨e.col, e.key, v⟩ : T.Entry) ∈ T.entries m :=
                h.mem_entries.mpr hlookup
              have hmem := hperm.mem_iff.mp (List.mem_append_right (e :: es) hold)
              have hmemNew := hperm.mem_iff.mp (List.mem_append_left _ List.mem_cons_self)
              have heq := h.eq_of_slot_eq hmem hmemNew rfl
              have hnodup := hperm.nodup_iff.mpr (h.nodup_entries m')
              rw [List.cons_append, List.nodup_cons] at hnodup
              rw [← heq] at hnodup
              exact absurd (List.mem_append_right es hold) hnodup.1
        refine ⟨T.put m e, ⟨hfree, rfl⟩, ?_⟩
        have hput := (h.entries_put_perm hfree).append_left es
        exact (hput.trans List.perm_middle).trans hperm

/-- Inserting a list of entries succeeds exactly when it lists the entries of the
result, in any order. -/
theorem foldlM_insertNew_eq_ok (h : T.Lawful) {taken : T.Entry → ε} {es : List T.Entry}
    {m : M} : es.foldlM (fun m e => T.insertNew (taken e) m e) T.empty = .ok m ↔
      es.Perm (T.entries m) := by
  rw [h.foldlM_insertNew_from, h.entries_empty, List.append_nil]

/-- The entries of some columns, in any order of these, are the entries of the record when
the other columns are empty. -/
theorem flatMap_columnEntries_perm (h : T.Lawful) {cs : List T.Col} (hcs : cs.Nodup) {m : M}
    (hempty : ∀ c, c ∉ cs → (T.column c).rows m = []) :
    (cs.flatMap (T.columnEntries m)).Perm (T.entries m) := by
  rw [List.perm_ext_iff_of_nodup (h.nodup_flatMap_columnEntries hcs m) (h.nodup_entries m)]
  intro e
  rw [List.mem_flatMap, h.mem_entries]
  simp only [h.mem_columnEntries]
  constructor
  · rintro ⟨c, _, rfl, hlookup⟩
    exact hlookup
  · intro hlookup
    refine ⟨e.col, ?_, rfl, hlookup⟩
    by_contra hnot
    have hmem := (h.column e.col).mem_rows.mpr hlookup
    rw [hempty e.col hnot] at hmem
    cases hmem

end Lawful

end Table

end RustPsbt
