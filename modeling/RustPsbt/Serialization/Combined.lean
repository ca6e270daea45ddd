import RustPsbt.Combine.Converge
import RustPsbt.Serialization.Pairs

/-!
# What a combination writes

The Combiner works on fields, a PSBT is exchanged as key-value pairs.  However many PSBTs are
merged, every pair that is written of the result is written of one of them at the same place,
and of PSBTs with equally many maps every key is written again, but for two.

Main results:

- Theorem `Psbt.merges_pairs`: the pairs of a merge and those of what was merged.
-/

namespace RustPsbt

/-! ## Merged records -/

/-- Every entry of a record is one of two records, and no key of either is missing in the
columns that are kept. -/
structure Table.Merged {M : Type} (T : Table M) (Kept : T.Col → Prop) (a b m : M) : Prop where
  entry : ∀ {c : T.Col} {k : T.K c} {v : T.V c}, T.lookup m c k = some v →
    T.lookup a c k = some v ∨ T.lookup b c k = some v
  left : ∀ {c : T.Col} {k : T.K c}, Kept c → (T.lookup a c k).isSome → (T.lookup m c k).isSome
  right : ∀ {c : T.Col} {k : T.K c}, Kept c → (T.lookup b c k).isSome → (T.lookup m c k).isSome

/-- A value that is taken from one of two options. -/
theorem Option.eq_some_of_or {α : Type} {x y z : Option α} (h : z = x.or y ∨ z = y.or x) {v : α}
    (hz : z = some v) : x = some v ∨ y = some v := by
  rcases h with rfl | rfl
  · exact (Option.or_eq_some_iff.mp hz).imp_right And.right
  · exact (Option.or_eq_some_iff.mp hz).symm.imp_left And.right

/-- A value is taken where one of the options has one. -/
theorem Option.isSome_of_or {α : Type} {x y z : Option α} (h : z = x.or y ∨ z = y.or x) :
    z.isSome = (x.isSome || y.isSome) := by
  rcases h with rfl | rfl
  · exact Option.isSome_or
  · rw [Option.isSome_or, Bool.or_comm]

section Generic

variable [BitcoinTypes]

/-! ## Merged maps -/

namespace Input

/-- A merged field is that of one input, or of the other where the first has none. -/
theorem lookup_merge (a b : Input) (c : Field) (k : FieldKey c) :
    table.lookup (a.merge b).fields c k =
        (table.lookup a.fields c k).or (table.lookup b.fields c k) ∨
      table.lookup (a.merge b).fields c k =
        (table.lookup b.fields c k).or (table.lookup a.fields c k) := by
  cases c
  all_goals first
    | exact .inl rfl
    | exact .inr (BTreeMap.getElem?_extend _ _ _)

theorem merged_merge (a b : Input) :
    table.Merged (fun _ => True) a.fields b.fields (a.merge b).fields where
  entry {c k _} h := Option.eq_some_of_or (lookup_merge a b c k) h
  left {c k} _ h := by
    rw [Option.isSome_of_or (lookup_merge a b c k), h]
    rfl
  right {c k} _ h := by
    rw [Option.isSome_of_or (lookup_merge a b c k), h, Bool.or_true]

end Input

namespace Output

/-- A merged field other than the script is that of one output, or of the other where the
first has none. -/
theorem lookup_merge (a b : Output) {c : Field} (hc : c ≠ .scriptPubkey) (k : FieldKey c) :
    table.lookup (a.merge b).fields c k =
        (table.lookup a.fields c k).or (table.lookup b.fields c k) ∨
      table.lookup (a.merge b).fields c k =
        (table.lookup b.fields c k).or (table.lookup a.fields c k) := by
  cases c
  case scriptPubkey => exact absurd rfl hc
  all_goals first
    | exact .inl rfl
    | exact .inr (BTreeMap.getElem?_extend _ _ _)

/-- A merge writes no script that the first output does not write. -/
theorem scriptPubkey_merge {a b : Output} {script : ScriptBuf}
    (h : (a.merge b).fields.scriptPubkey = some script) : a.fields.scriptPubkey = some script := by
  unfold fields omitScript merge at *
  cases hinfo : a.spV0Info with
  | none =>
      rw [hinfo] at h
      by_cases hempty : a.scriptPubkey.isEmpty <;> simp_all
  | some info =>
      rw [hinfo] at h
      simpa using h

/-- The script of one output is written of another one with the same script, unless it is
empty next to silent payment info. -/
theorem scriptPubkey_or {x y : Output} (hscript : y.scriptPubkey = x.scriptPubkey)
    {script : ScriptBuf} (h : x.fields.scriptPubkey = some script) :
    y.fields.scriptPubkey = some script ∨ script = [] ∧ y.spV0Info.isSome := by
  have heq : x.scriptPubkey = script := by
    unfold fields at h
    split at h
    · cases h
    · exact Option.some_inj.mp h
  by_cases homit : y.omitScript
  · have hboth : y.spV0Info.isSome ∧ y.scriptPubkey.isEmpty := by
      simpa only [omitScript, Bool.and_eq_true] using homit
    rw [hscript, heq, List.isEmpty_iff] at hboth
    exact .inr hboth.symm
  · refine .inl ((if_neg homit).trans ?_)
    rw [hscript, heq]

theorem merged_merge (a b : Output) :
    table.Merged (· ≠ .scriptPubkey) a.fields b.fields (a.merge b).fields where
  entry {c k _} h := by
    by_cases hc : c = .scriptPubkey
    · subst hc
      exact .inl (scriptPubkey_merge h)
    · exact Option.eq_some_of_or (lookup_merge a b hc k) h
  left {c k} hc h := by
    rw [Option.isSome_of_or (lookup_merge a b hc k), h]
    rfl
  right {c k} hc h := by
    rw [Option.isSome_of_or (lookup_merge a b hc k), h, Bool.or_true]

end Output

namespace Global

/-- A merged field other than the xpubs and the fallback lock time is that of one map, or of
the other where the first has none. -/
theorem lookup_merge (a b : Global) (xpubs : BTreeMap Xpub KeySource) {c : Field}
    (hxpubs : c ≠ .xpubs) (hfallback : c ≠ .fallbackLockTime) (k : FieldKey c) :
    table.lookup (a.merge b xpubs).fields c k =
        (table.lookup a.fields c k).or (table.lookup b.fields c k) ∨
      table.lookup (a.merge b xpubs).fields c k =
        (table.lookup b.fields c k).or (table.lookup a.fields c k) := by
  cases c
  case xpubs => exact absurd rfl hxpubs
  case fallbackLockTime => exact absurd rfl hfallback
  all_goals first
    | exact .inl rfl
    | exact .inr (BTreeMap.getElem?_extend _ _ _)

theorem merged_merge {a b : Global} {xpubs : BTreeMap Xpub KeySource}
    (h : combineXpubs a b = .ok xpubs) :
    table.Merged (· ≠ .fallbackLockTime) a.fields b.fields (a.merge b xpubs).fields where
  entry {c k v} hv := by
    by_cases hxpubs : c = .xpubs
    · subst hxpubs
      exact exists_source_of_merge h hv
    · by_cases hfallback : c = .fallbackLockTime
      · subst hfallback
        exact .inl hv
      · exact Option.eq_some_of_or (lookup_merge a b xpubs hxpubs hfallback k) hv
  left {c k} hc hk := by
    by_cases hxpubs : c = .xpubs
    · subst hxpubs
      exact (combineXpubs_keys h).1 k hk
    · rw [Option.isSome_of_or (lookup_merge a b xpubs hxpubs hc k), hk]
      rfl
  right {c k} hc hk := by
    by_cases hxpubs : c = .xpubs
    · subst hxpubs
      exact (combineXpubs_keys h).2 k hk
    · rw [Option.isSome_of_or (lookup_merge a b xpubs hxpubs hc k), hk, Bool.or_true]

end Global

/-! ## Merged PSBTs -/

namespace Psbt

/-- Every key of the left PSBT is in the right one, at the same place. -/
structure KeysKept (p c : Psbt) : Prop where
  global : ∀ (col : Global.Field) (k : Global.FieldKey col), col ≠ .fallbackLockTime →
    (Global.table.lookup p.global.fields col k).isSome →
      (Global.table.lookup c.global.fields col k).isSome
  inputs : ∀ (i : Nat) (x : Input), p.inputs[i]? = some x →
    ∃ y, c.inputs[i]? = some y ∧ ∀ (col : Input.Field) (k : Input.FieldKey col),
      (Input.table.lookup x.fields col k).isSome → (Input.table.lookup y.fields col k).isSome
  outputs : ∀ (i : Nat) (x : Output), p.outputs[i]? = some x →
    ∃ y, c.outputs[i]? = some y ∧ y.scriptPubkey = x.scriptPubkey ∧
      ∀ (col : Output.Field) (k : Output.FieldKey col), col ≠ .scriptPubkey →
        (Output.table.lookup x.fields col k).isSome → (Output.table.lookup y.fields col k).isSome

theorem KeysKept.refl (p : Psbt) : KeysKept p p where
  global _ _ _ h := h
  inputs _ x hx := ⟨x, hx, fun _ _ h => h⟩
  outputs _ x hx := ⟨x, hx, rfl, fun _ _ _ h => h⟩

theorem KeysKept.trans {p q r : Psbt} (hpq : KeysKept p q) (hqr : KeysKept q r) :
    KeysKept p r where
  global col k hcol h := hqr.global col k hcol (hpq.global col k hcol h)
  inputs i x hx := by
    obtain ⟨y, hy, hxy⟩ := hpq.inputs i x hx
    obtain ⟨z, hz, hyz⟩ := hqr.inputs i y hy
    exact ⟨z, hz, fun col k h => hyz col k (hxy col k h)⟩
  outputs i x hx := by
    obtain ⟨y, hy, hscript, hxy⟩ := hpq.outputs i x hx
    obtain ⟨z, hz, hscript', hyz⟩ := hqr.outputs i y hy
    exact ⟨z, hz, hscript'.trans hscript, fun col k hcol h => hyz col k hcol (hxy col k hcol h)⟩

/-- A combination keeps the keys of the first PSBT. -/
theorem keysKept_left {a b c : Psbt} (h : a.combineWith b = .ok c) : KeysKept a c := by
  obtain ⟨xpubs, hxpubs, _, _, _, _, rfl⟩ := combineWith_eq_ok.mp h
  refine ⟨fun col k => (Global.merged_merge hxpubs).left, fun i x hx => ?_, fun i x hx => ?_⟩
  · change ∃ y, (zipMerge Input.merge a.inputs b.inputs)[i]? = some y ∧ _
    rw [getElem?_zipMerge, hx]
    cases b.inputs[i]? with
    | none => exact ⟨x, rfl, fun _ _ h => h⟩
    | some x' => exact ⟨x.merge x', rfl, fun _ _ => (Input.merged_merge x x').left trivial⟩
  · change ∃ y, (zipMerge Output.merge a.outputs b.outputs)[i]? = some y ∧ _
    rw [getElem?_zipMerge, hx]
    cases b.outputs[i]? with
    | none => exact ⟨x, rfl, rfl, fun _ _ _ h => h⟩
    | some x' => exact ⟨x.merge x', rfl, rfl, fun _ _ => (Output.merged_merge x x').left⟩

/-- A combination with a PSBT that has no more maps keeps the keys of that PSBT. -/
theorem keysKept_right {a b c : Psbt} (h : a.combineWith b = .ok c)
    (hinputs : b.inputs.length ≤ a.inputs.length)
    (houtputs : b.outputs.length ≤ a.outputs.length) : KeysKept b c := by
  obtain ⟨xpubs, hxpubs, _, _, hsame, _, rfl⟩ := combineWith_eq_ok.mp h
  refine ⟨fun col k => (Global.merged_merge hxpubs).right, fun i x hx => ?_, fun i x hx => ?_⟩
  · have hlt : i < a.inputs.length :=
      (List.getElem?_eq_some_iff.mp hx).1.trans_le hinputs
    have ha := List.getElem?_eq_getElem hlt
    exact ⟨_, getElem?_zipMerge_of_some ha hx, fun _ _ => (Input.merged_merge _ x).right trivial⟩
  · have hlt : i < a.outputs.length :=
      (List.getElem?_eq_some_iff.mp hx).1.trans_le houtputs
    have ha := List.getElem?_eq_getElem hlt
    have hscript : a.outputs[i].scriptPubkey = x.scriptPubkey :=
      congrArg TxOut.scriptPubkey (hsame i _ x ha hx)
    exact ⟨_, getElem?_zipMerge_of_some ha hx, hscript,
      fun _ _ => (Output.merged_merge _ x).right⟩

/-- The maps of a merge are as many as those of the copy that is merged first, and its
fallback lock time is that of this copy. -/
theorem first_of_combineAll {t : Merges} {c : Psbt} (h : t.combineAll = .ok c) :
    c.inputs.length = t.first.inputs.length ∧ c.outputs.length = t.first.outputs.length ∧
      c.global.fallbackLockTime = t.first.global.fallbackLockTime := by
  induction t generalizing c with
  | leaf a =>
      cases h
      exact ⟨rfl, rfl, rfl⟩
  | node l r ihl _ =>
      obtain ⟨a, ha, h⟩ := Result.bind_eq_ok.mp h
      obtain ⟨b, _, h⟩ := Result.bind_eq_ok.mp h
      obtain ⟨xpubs, _, _, _, _, _, rfl⟩ := combineWith_eq_ok.mp h
      obtain ⟨hinputs, houtputs, hfallback⟩ := ihl ha
      refine ⟨?_, ?_, hfallback⟩
      · exact (length_zipMerge _ a.inputs b.inputs).trans hinputs
      · exact (length_zipMerge _ a.outputs b.outputs).trans houtputs

/-- A merge of PSBTs with equally many maps keeps the keys of all of them. -/
theorem keysKept_of_combineAll {t : Merges} {c : Psbt} {n m : Nat} (h : t.combineAll = .ok c)
    (hlen : ∀ p ∈ t.leaves, p.inputs.length = n ∧ p.outputs.length = m) :
    ∀ p ∈ t.leaves, KeysKept p c := by
  induction t generalizing c with
  | leaf a =>
      cases h
      intro p hp
      rw [List.mem_singleton.mp hp]
      exact .refl a
  | node l r ihl ihr =>
      obtain ⟨a, ha, h⟩ := Result.bind_eq_ok.mp h
      obtain ⟨b, hb, h⟩ := Result.bind_eq_ok.mp h
      have hlenl : ∀ p ∈ l.leaves, p.inputs.length = n ∧ p.outputs.length = m :=
        fun p hp => hlen p (List.mem_append_left _ hp)
      have hlenr : ∀ p ∈ r.leaves, p.inputs.length = n ∧ p.outputs.length = m :=
        fun p hp => hlen p (List.mem_append_right _ hp)
      have hfirst := hlenl _ l.first_mem_leaves
      have hfirst' := hlenr _ r.first_mem_leaves
      have hcounts := first_of_combineAll ha
      have hcounts' := first_of_combineAll hb
      intro p hp
      rcases List.mem_append.mp hp with hp | hp
      · exact (ihl ha hlenl p hp).trans (keysKept_left h)
      · exact (ihr hb hlenr p hp).trans (keysKept_right h (by omega) (by omega))

end Psbt

/-! ## Merged pairs -/

variable [BitcoinCodecs]

/-- A pair of a merged record is a pair of one of the two. -/
theorem MapCodec.Lawful.mem_pairs_of_merged {ε M α : Type} {C : MapCodec ε M α}
    (h : C.Lawful) {Kept : C.table.Col → Prop} {a b m : M}
    (hmerged : C.table.Merged Kept a b m) {pair : Pair} (hpair : pair ∈ C.pairs m) :
    pair ∈ C.pairs a ∨ pair ∈ C.pairs b := by
  obtain ⟨e, hlookup, rfl⟩ := h.mem_pairs.mp hpair
  rcases hmerged.entry hlookup with ha | hb
  · exact .inl (h.mem_pairs.mpr ⟨e, ha, rfl⟩)
  · exact .inr (h.mem_pairs.mpr ⟨e, hb, rfl⟩)

namespace Psbt

variable [TxidHash] [LawfulCodecs]

/-- A pair of a combination is one of the two PSBTs, at the same place. -/
theorem mem_pairsAt_of_combineWith {a b c : Psbt} (h : a.combineWith b = .ok c)
    {place : MapPlace} {pair : Pair} (hpair : pair ∈ c.pairsAt place) :
    pair ∈ a.pairsAt place ∨ pair ∈ b.pairsAt place := by
  obtain ⟨xpubs, hxpubs, _, _, _, _, rfl⟩ := combineWith_eq_ok.mp h
  cases place with
  | global => exact Global.lawful_codec.mem_pairs_of_merged (Global.merged_merge hxpubs) hpair
  | input i =>
      obtain ⟨y, hy, hpair⟩ := mem_pairsAt_input.mp hpair
      change (zipMerge Input.merge a.inputs b.inputs)[i]? = some y at hy
      rw [getElem?_zipMerge] at hy
      obtain ⟨x, hx, rfl⟩ := Option.map_eq_some_iff.mp hy
      cases hb : b.inputs[i]? with
      | none =>
          rw [hb] at hpair
          exact .inl (mem_pairsAt_input.mpr ⟨x, hx, hpair⟩)
      | some x' =>
          rw [hb] at hpair
          rcases Input.lawful_codec.mem_pairs_of_merged (Input.merged_merge x x') hpair with h | h
          · exact .inl (mem_pairsAt_input.mpr ⟨x, hx, h⟩)
          · exact .inr (mem_pairsAt_input.mpr ⟨x', hb, h⟩)
  | output i =>
      obtain ⟨y, hy, hpair⟩ := mem_pairsAt_output.mp hpair
      change (zipMerge Output.merge a.outputs b.outputs)[i]? = some y at hy
      rw [getElem?_zipMerge] at hy
      obtain ⟨x, hx, rfl⟩ := Option.map_eq_some_iff.mp hy
      cases hb : b.outputs[i]? with
      | none =>
          rw [hb] at hpair
          exact .inl (mem_pairsAt_output.mpr ⟨x, hx, hpair⟩)
      | some x' =>
          rw [hb] at hpair
          rcases Output.lawful_codec.mem_pairs_of_merged (Output.merged_merge x x') hpair with h | h
          · exact .inl (mem_pairsAt_output.mpr ⟨x, hx, h⟩)
          · exact .inr (mem_pairsAt_output.mpr ⟨x', hb, h⟩)

/-- A pair of a merge is one of what was merged. -/
theorem exists_leaf_of_mem_pairsAt {t : Merges} {c : Psbt} (h : t.combineAll = .ok c)
    {place : MapPlace} {pair : Pair} (hpair : pair ∈ c.pairsAt place) :
    ∃ p ∈ t.leaves, pair ∈ p.pairsAt place := by
  induction t generalizing c with
  | leaf a =>
      cases h
      exact ⟨a, List.mem_singleton_self a, hpair⟩
  | node l r ihl ihr =>
      obtain ⟨a, ha, h⟩ := Result.bind_eq_ok.mp h
      obtain ⟨b, hb, h⟩ := Result.bind_eq_ok.mp h
      rcases mem_pairsAt_of_combineWith h hpair with hleft | hright
      · obtain ⟨p, hp, hpairs⟩ := ihl ha hleft
        exact ⟨p, List.mem_append_left _ hp, hpairs⟩
      · obtain ⟨p, hp, hpairs⟩ := ihr hb hright
        exact ⟨p, List.mem_append_right _ hp, hpairs⟩

/-- What the merge `c` may leave out of copies: a fallback lock time that the copy merged
first lacks, and an empty script next to silent payment info. -/
inductive LeftOut (first c : Psbt) : MapPlace → Pair → Prop where
  | fallbackLockTime {value : Bytes} (hfirst : first.global.fallbackLockTime = none) :
      LeftOut first c .global (⟨0x03, []⟩, value)
  | scriptPubkey {i : Nat} {info : Bytes} (hinfo : (⟨0x09, []⟩, info) ∈ c.pairsAt (.output i)) :
      LeftOut first c (.output i) (⟨0x04, []⟩, [])

/-- The key of a pair is written of the merge, or the pair is left out. -/
theorem exists_pairsAt_of_keysKept {t : Merges} {c p : Psbt} (h : t.combineAll = .ok c)
    (hkept : KeysKept p c) {place : MapPlace} {pair : Pair} (hpair : pair ∈ p.pairsAt place) :
    (∃ v, (pair.1, v) ∈ c.pairsAt place) ∨ LeftOut t.first c place pair := by
  cases place with
  | global =>
      obtain ⟨⟨col, k, v⟩, hlookup, rfl⟩ := Global.lawful_codec.mem_pairs.mp hpair
      by_cases hcol : col = .fallbackLockTime
      · subst hcol
        cases hfirst : t.first.global.fallbackLockTime with
        | none => exact .inr (.fallbackLockTime hfirst)
        | some l =>
            have hfallback : c.global.fallbackLockTime = some l :=
              (first_of_combineAll h).2.2.trans hfirst
            exact .inl (Global.lawful_codec.exists_pair (e := ⟨.fallbackLockTime, k, v⟩)
              (Option.isSome_iff_exists.mpr ⟨l, hfallback⟩))
      · exact .inl (Global.lawful_codec.exists_pair (e := ⟨col, k, v⟩)
          (hkept.global col k hcol (Option.isSome_iff_exists.mpr ⟨v, hlookup⟩)))
  | input i =>
      obtain ⟨x, hx, hpair⟩ := mem_pairsAt_input.mp hpair
      obtain ⟨⟨col, k, v⟩, hlookup, rfl⟩ := Input.lawful_codec.mem_pairs.mp hpair
      obtain ⟨y, hy, hkeys⟩ := hkept.inputs i x hx
      obtain ⟨v', hv'⟩ := Input.lawful_codec.exists_pair (e := ⟨col, k, v⟩)
        (hkeys col k (Option.isSome_iff_exists.mpr ⟨v, hlookup⟩))
      exact .inl ⟨v', mem_pairsAt_input.mpr ⟨y, hy, hv'⟩⟩
  | output i =>
      obtain ⟨x, hx, hpair⟩ := mem_pairsAt_output.mp hpair
      obtain ⟨⟨col, k, v⟩, hlookup, rfl⟩ := Output.lawful_codec.mem_pairs.mp hpair
      obtain ⟨y, hy, hscript, hkeys⟩ := hkept.outputs i x hx
      by_cases hcol : col = .scriptPubkey
      · subst hcol
        rcases Output.scriptPubkey_or hscript hlookup with hwritten | ⟨rfl, hinfo⟩
        · have hkey : (Output.table.lookup y.fields .scriptPubkey k).isSome :=
            Option.isSome_iff_exists.mpr ⟨_, hwritten⟩
          obtain ⟨v', hv'⟩ := Output.lawful_codec.exists_pair (e := ⟨.scriptPubkey, k, v⟩) hkey
          exact .inl ⟨v', mem_pairsAt_output.mpr ⟨y, hy, hv'⟩⟩
        · obtain ⟨info, hv⟩ := Option.isSome_iff_exists.mp hinfo
          have hpair : (⟨0x09, []⟩, _) ∈ Output.codec.pairs y.fields :=
            Output.lawful_codec.mem_pairs.mpr ⟨⟨.spV0Info, (), info⟩, hv, rfl⟩
          exact .inr (.scriptPubkey (mem_pairsAt_output.mpr ⟨y, hy, hpair⟩))
      · obtain ⟨v', hv'⟩ := Output.lawful_codec.exists_pair (e := ⟨col, k, v⟩)
          (hkeys col k hcol (Option.isSome_iff_exists.mpr ⟨v, hlookup⟩))
        exact .inl ⟨v', mem_pairsAt_output.mpr ⟨y, hy, hv'⟩⟩

/-- What is written of a PSBT are the pairs of its maps.  However PSBTs are merged, every pair
of the result is a pair of one of them at the same place; and where all have equally many
inputs and outputs, every key of each of them is there, but for a fallback lock time and an
empty script. -/
theorem merges_pairs {t : Merges} {c : Psbt} (h : t.combineAll = .ok c) :
    (∀ p ∈ c :: t.leaves, p.serialize =
        psbtMagicBytes ++ p.places.flatMap fun place => mapBytes (p.pairsAt place)) ∧
      (∀ place, ∀ pair ∈ c.pairsAt place, ∃ p ∈ t.leaves, pair ∈ p.pairsAt place) ∧
        ((∀ p ∈ t.leaves, p.inputs.length = t.first.inputs.length ∧
            p.outputs.length = t.first.outputs.length) →
          ∀ p ∈ t.leaves, ∀ place, ∀ pair ∈ p.pairsAt place,
            (∃ v, (pair.1, v) ∈ c.pairsAt place) ∨ LeftOut t.first c place pair) := by
  refine ⟨fun p _ => serialize_eq_pairs p, fun place pair hpair => ?_,
    fun hlen p hp place pair hpair => ?_⟩
  · exact exists_leaf_of_mem_pairsAt h hpair
  · exact exists_pairsAt_of_keysKept h (keysKept_of_combineAll h hlen p hp) hpair

end Psbt

end Generic

/-! ## Reference merges -/

section

attribute [local instance] Reference.types Reference.codecs Reference.lawfulCodecs
  Reference.txidHash

/-- The signature of one copy is written of the merge. -/
theorem Psbt.merges_pairs_signed : ∃ c, mergesSigned.combineAll = .ok c ∧
    ∃ pair ∈ Reference.signed.pairsAt (.input 0),
      pair ∉ Reference.unsigned.pairsAt (.input 0) ∧
        ((∃ v, (pair.1, v) ∈ c.pairsAt (.input 0)) ∨
          LeftOut mergesSigned.first c (.input 0) pair) := by
  have hok : mergesSigned.combineAll.toOption.isSome := by decide +kernel
  obtain ⟨c, hc⟩ := Option.isSome_iff_exists.mp hok
  have hmerged := Result.toOption_eq_some.mp hc
  have hlen : ∀ p ∈ mergesSigned.leaves, p.inputs.length = mergesSigned.first.inputs.length ∧
      p.outputs.length = mergesSigned.first.outputs.length := by decide +kernel
  have hpair : ∃ pair ∈ Reference.signed.pairsAt (.input 0),
      pair ∉ Reference.unsigned.pairsAt (.input 0) := by decide +kernel
  obtain ⟨pair, hsigned, hunsigned⟩ := hpair
  have hleaf : Reference.signed ∈ mergesSigned.leaves := by
    simp [mergesSigned, MergeTree.leaves]
  exact ⟨c, hmerged, pair, hsigned, hunsigned,
    (merges_pairs hmerged).2.2 hlen _ hleaf (.input 0) pair hsigned⟩

end

end RustPsbt
