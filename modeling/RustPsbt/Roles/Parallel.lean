import RustPsbt.Combine.Converge
import RustPsbt.Roles.Apply

/-!
# Signing in parallel

Parties sign copies of one PSBT, and a Combiner merges the copies two by two in any order.
Where no two of their signatures are in each other's place, the result is what one Signer
makes of all of the signatures, up to the modification flags.

Main results:

- Theorem `BTreeMap.getElem?_insertAll_iff`: a map after pairs that do not clash.
- Theorem `Signer.core_join_applied`: merging two signed copies is signing with both.
- Theorem `Signer.parallel`: merging signed copies is signing with all of the entries.
-/

namespace RustPsbt

/-! ## Pairs that do not clash -/

/-- The values agree with the option and with each other. -/
def ValuesAgree {V : Type} (o : Option V) (l : List V) : Prop :=
  ∀ v ∈ l, (∀ w, o = some w → v = w) ∧ ∀ w ∈ l, v = w

/-- The last value or else the option, where all of them agree. -/
theorem getLast?_or_eq_some_iff {V : Type} {o : Option V} {l : List V} (h : ValuesAgree o l)
    {v : V} : l.getLast?.or o = some v ↔ v ∈ l ∨ o = some v := by
  cases hlast : l.getLast? with
  | none =>
      rw [List.getLast?_eq_none_iff] at hlast
      simp [hlast]
  | some w =>
      have hw : w ∈ l := List.mem_of_getLast? hlast
      simp only [Option.some_or, Option.some_inj]
      constructor
      · rintro rfl
        exact .inl hw
      · rintro (hv | ho)
        · exact (h w hw).2 v hv
        · exact (h w hw).1 v ho

/-- The first set value, where set values agree. -/
theorem or_eq_some_iff {V : Type} {a b : Option V} (h : OptionAgree a b) {v : V} :
    a.or b = some v ↔ a = some v ∨ b = some v := by
  cases a with
  | none => simp
  | some x =>
      simp only [Option.some_or, Option.some_inj]
      constructor
      · exact .inl
      · rintro (hx | hb)
        · exact hx
        · exact h x v rfl hb

/-- Two options that add values to a common one, where none of the values clash. -/
theorem or_of_added {V : Type} {o a b : Option V} {A B : V → Prop}
    (ha : ∀ v, a = some v ↔ A v ∨ o = some v) (hb : ∀ v, b = some v ↔ B v ∨ o = some v)
    (hold : ∀ v w, A v ∨ B v → o = some w → v = w) (hnew : ∀ v w, A v → B w → v = w) (v : V) :
    a.or b = some v ↔ (A v ∨ B v) ∨ o = some v := by
  have hagree : OptionAgree a b := by
    intro x y hx hy
    rcases (ha x).mp hx with hx | hx
    · rcases (hb y).mp hy with hy | hy
      · exact hnew x y hx hy
      · exact hold x y (.inl hx) hy
    · rcases (hb y).mp hy with hy | hy
      · exact (hold y x (.inr hy) hx).symm
      · exact Option.some_inj.mp (hx.symm.trans hy)
  rw [or_eq_some_iff hagree, ha, hb]
  tauto

namespace BTreeMap

variable {K V : Type} [OrdKey K]

/-- The pairs agree with the map and with each other. -/
def PairsAgree (m : BTreeMap K V) (l : List (K × V)) : Prop :=
  ∀ k v, (k, v) ∈ l → (∀ w, m[k]? = some w → v = w) ∧ ∀ w, (k, w) ∈ l → v = w

theorem PairsAgree.tail {m : BTreeMap K V} {p : K × V} {l : List (K × V)}
    (h : PairsAgree m (p :: l)) : PairsAgree (m.insert p.1 p.2) l := by
  intro k v hv
  have hhead := h k v (List.mem_cons_of_mem p hv)
  refine ⟨fun w hw => ?_, fun w hw => hhead.2 w (List.mem_cons_of_mem p hw)⟩
  rw [getElem?_insert_eq] at hw
  split at hw
  · rename_i hk
    cases hw
    apply hhead.2
    rw [← hk]
    exact List.mem_cons_self
  · exact hhead.1 w hw

/-- A map after pairs that do not clash holds them and what it held. -/
theorem getElem?_insertAll_iff {m : BTreeMap K V} {l : List (K × V)} (h : PairsAgree m l)
    {k : K} {v : V} : (m.insertAll l)[k]? = some v ↔ (k, v) ∈ l ∨ m[k]? = some v := by
  induction l generalizing m with
  | nil => simp [insertAll]
  | cons p l ih =>
      have hrest := ih h.tail
      change (insertAll (m.insert p.1 p.2) l)[k]? = some v ↔ _
      rw [hrest, getElem?_insert_eq, List.mem_cons]
      by_cases hk : p.1 = k
      · subst hk
        rw [if_pos rfl, Option.some_inj]
        constructor
        · rintro (hv | hv)
          · exact .inl (.inr hv)
          · exact .inl (.inl (hv ▸ rfl))
        · rintro ((hp | hv) | hm)
          · exact .inr (congrArg Prod.snd hp).symm
          · exact .inl hv
          · exact .inr ((h p.1 p.2 List.mem_cons_self).1 v hm)
      · have hne : (k, v) ≠ p := fun hp => hk (congrArg Prod.fst hp).symm
        rw [if_neg hk]
        simp [hne]

/-- Equal maps hold equal values. -/
theorem ext_some {a b : BTreeMap K V} (h : ∀ (k : K) (v : V), a[k]? = some v ↔ b[k]? = some v) :
    a = b :=
  Std.ExtTreeMap.ext_getElem? fun k => Option.ext (h k)

end BTreeMap

section Generic

variable [BitcoinTypes]

/-! ## Entries that do not clash -/

/-- No two signatures, of the entries or of the PSBT, are in each other's place. -/
structure NoClash (p : Psbt) (sigs : List InputSigs) : Prop where
  ecdsa : ∀ (index : Nat) (i : Input), p.inputs[index]? = some i →
    BTreeMap.PairsAgree i.partialSigs (ecdsaPairs sigs index)
  keyPath : ∀ (index : Nat) (i : Input), p.inputs[index]? = some i →
    ValuesAgree i.tapKeySig ((taprootPairs sigs index).filterMap keyPathSig)
  scriptPath : ∀ (index : Nat) (i : Input), p.inputs[index]? = some i →
    BTreeMap.PairsAgree i.tapScriptSigs ((taprootPairs sigs index).filterMap scriptPathPair)

theorem mem_ecdsaPairs_of_subset {sigs sigs' : List InputSigs} (hsub : ∀ e ∈ sigs', e ∈ sigs)
    {index : Nat} {x : PublicKey × EcdsaSignature} (hx : x ∈ ecdsaPairs sigs' index) :
    x ∈ ecdsaPairs sigs index := by
  obtain ⟨entry, hentry, hmem⟩ := List.mem_flatMap.mp hx
  exact List.mem_flatMap.mpr ⟨entry, hsub entry hentry, hmem⟩

theorem mem_taprootPairs_of_subset {sigs sigs' : List InputSigs} (hsub : ∀ e ∈ sigs', e ∈ sigs)
    {γ : Type} {f : TapKeyMaterial × TaprootSignature → Option γ} {index : Nat} {x : γ}
    (hx : x ∈ (taprootPairs sigs' index).filterMap f) :
    x ∈ (taprootPairs sigs index).filterMap f := by
  obtain ⟨pair, hpair, heq⟩ := List.mem_filterMap.mp hx
  obtain ⟨entry, hentry, hmem⟩ := List.mem_flatMap.mp hpair
  exact List.mem_filterMap.mpr ⟨pair, List.mem_flatMap.mpr ⟨entry, hsub entry hentry, hmem⟩, heq⟩

/-- Some of the entries do not clash either. -/
theorem NoClash.mono {p : Psbt} {sigs sigs' : List InputSigs} (h : NoClash p sigs)
    (hsub : ∀ e ∈ sigs', e ∈ sigs) : NoClash p sigs' where
  ecdsa index i hi k v hv :=
    ⟨(h.ecdsa index i hi k v (mem_ecdsaPairs_of_subset hsub hv)).1, fun w hw =>
      (h.ecdsa index i hi k v (mem_ecdsaPairs_of_subset hsub hv)).2 w
        (mem_ecdsaPairs_of_subset hsub hw)⟩
  keyPath index i hi v hv :=
    ⟨(h.keyPath index i hi v (mem_taprootPairs_of_subset hsub hv)).1, fun w hw =>
      (h.keyPath index i hi v (mem_taprootPairs_of_subset hsub hv)).2 w
        (mem_taprootPairs_of_subset hsub hw)⟩
  scriptPath index i hi k v hv :=
    ⟨(h.scriptPath index i hi k v (mem_taprootPairs_of_subset hsub hv)).1, fun w hw =>
      (h.scriptPath index i hi k v (mem_taprootPairs_of_subset hsub hv)).2 w
        (mem_taprootPairs_of_subset hsub hw)⟩

/-! ## Signed inputs -/

namespace Input

/-- Inputs that differ in their signatures only are equal when their signatures are. -/
theorem SameButSigs.ext {i j k : Input} (hj : SameButSigs i j) (hk : SameButSigs i k)
    (hecdsaSigs : j.partialSigs = k.partialSigs) (hkey : j.tapKeySig = k.tapKeySig)
    (hscript : j.tapScriptSigs = k.tapScriptSigs) : j = k := by
  rw [hj, hk, hecdsaSigs, hkey, hscript]

theorem SameButSigs.merge {i j k : Input} (hj : SameButSigs i j) (hk : SameButSigs i k) :
    SameButSigs i (j.merge k) := by
  rw [hj, hk]
  simp [SameButSigs, Input.merge]

/-- The three places of signatures after entries that do not clash. -/
structure Holds (i j : Input) (ecdsa : List (PublicKey × EcdsaSignature))
    (taproot : List (TapKeyMaterial × TaprootSignature)) : Prop where
  partialSigs : ∀ k v, j.partialSigs[k]? = some v ↔ (k, v) ∈ ecdsa ∨ i.partialSigs[k]? = some v
  tapKeySig : ∀ v, j.tapKeySig = some v ↔ v ∈ taproot.filterMap keyPathSig ∨ i.tapKeySig = some v
  tapScriptSigs : ∀ k v, j.tapScriptSigs[k]? = some v ↔
    (k, v) ∈ taproot.filterMap scriptPathPair ∨ i.tapScriptSigs[k]? = some v

end Input

variable {p : Psbt} {sigs sigs' : List InputSigs} {index : Nat} {i : Input}

theorem NoClash.holds (h : NoClash p sigs) (hi : p.inputs[index]? = some i) :
    i.Holds (i.insertAllSigs sigs index) (ecdsaPairs sigs index) (taprootPairs sigs index) := by
  obtain ⟨_, hecdsaSigs, hkey, hscript⟩ := i.updatedBy_insertAllSigs sigs index
  refine ⟨fun k v => ?_, fun v => ?_, fun k v => ?_⟩
  · rw [hecdsaSigs]
    exact BTreeMap.getElem?_insertAll_iff (h.ecdsa index i hi)
  · rw [hkey]
    exact getLast?_or_eq_some_iff (h.keyPath index i hi)
  · rw [hscript]
    exact BTreeMap.getElem?_insertAll_iff (h.scriptPath index i hi)

/-- The order of entries that do not clash does not matter. -/
theorem NoClash.insertAllSigs_congr (h : NoClash p sigs) (hi : p.inputs[index]? = some i)
    (hsame : ∀ e, e ∈ sigs' ↔ e ∈ sigs) :
    i.insertAllSigs sigs' index = i.insertAllSigs sigs index := by
  have hsub : ∀ e ∈ sigs', e ∈ sigs := fun e => (hsame e).mp
  have hsup : ∀ e ∈ sigs, e ∈ sigs' := fun e => (hsame e).mpr
  have hl := (h.mono hsub).holds hi
  have hr := h.holds hi
  apply (i.updatedBy_insertAllSigs sigs' index).frame.ext
    (i.updatedBy_insertAllSigs sigs index).frame
  · apply BTreeMap.ext_some
    intro k v
    rw [hl.partialSigs, hr.partialSigs]
    exact or_congr_left ⟨mem_ecdsaPairs_of_subset hsub, mem_ecdsaPairs_of_subset hsup⟩
  · apply Option.ext
    intro v
    rw [hl.tapKeySig, hr.tapKeySig]
    exact or_congr_left ⟨mem_taprootPairs_of_subset hsub, mem_taprootPairs_of_subset hsup⟩
  · apply BTreeMap.ext_some
    intro k v
    rw [hl.tapScriptSigs, hr.tapScriptSigs]
    exact or_congr_left ⟨mem_taprootPairs_of_subset hsub, mem_taprootPairs_of_subset hsup⟩

theorem taprootPairs_append (sigs sigs' : List InputSigs) (index : Nat) :
    taprootPairs (sigs ++ sigs') index = taprootPairs sigs index ++ taprootPairs sigs' index :=
  List.flatMap_append

theorem ecdsaPairs_append (sigs sigs' : List InputSigs) (index : Nat) :
    ecdsaPairs (sigs ++ sigs') index = ecdsaPairs sigs index ++ ecdsaPairs sigs' index :=
  List.flatMap_append

/-- Merging an input signed with some entries and one signed with others is signing it with
all of them. -/
theorem NoClash.merge_insertAllSigs (h : NoClash p (sigs ++ sigs'))
    (hi : p.inputs[index]? = some i) :
    (i.insertAllSigs sigs index).merge (i.insertAllSigs sigs' index) =
      i.insertAllSigs (sigs ++ sigs') index := by
  have hl := (h.mono fun e he => List.mem_append_left sigs' he).holds hi
  have hr := (h.mono fun e he => List.mem_append_right sigs he).holds hi
  have hall := h.holds hi
  apply ((i.updatedBy_insertAllSigs sigs index).frame.merge
    (i.updatedBy_insertAllSigs sigs' index).frame).ext
      (i.updatedBy_insertAllSigs (sigs ++ sigs') index).frame
  · have hagree := h.ecdsa index i hi
    rw [ecdsaPairs_append] at hagree
    apply BTreeMap.ext_some
    intro k v
    rw [hall.partialSigs, ecdsaPairs_append, List.mem_append, Input.merge,
      BTreeMap.getElem?_extend, or_comm (a := (k, v) ∈ ecdsaPairs sigs index)]
    apply or_of_added (hr.partialSigs k) (hl.partialSigs k)
    · exact fun x y hx => (hagree k x (List.mem_append.mpr hx.symm)).1 y
    · exact fun x y hx hy =>
        (hagree k x (List.mem_append_right _ hx)).2 y (List.mem_append_left _ hy)
  · have hagree := h.keyPath index i hi
    rw [taprootPairs_append, List.filterMap_append] at hagree
    apply Option.ext
    intro v
    rw [hall.tapKeySig, taprootPairs_append, List.filterMap_append, List.mem_append, Input.merge]
    apply or_of_added hl.tapKeySig hr.tapKeySig
    · exact fun x y hx => (hagree x (List.mem_append.mpr hx)).1 y
    · exact fun x y hx hy =>
        (hagree x (List.mem_append_left _ hx)).2 y (List.mem_append_right _ hy)
  · have hagree := h.scriptPath index i hi
    rw [taprootPairs_append, List.filterMap_append] at hagree
    apply BTreeMap.ext_some
    intro k v
    rw [hall.tapScriptSigs, taprootPairs_append, List.filterMap_append, List.mem_append,
      Input.merge, BTreeMap.getElem?_extend,
      or_comm (a := (k, v) ∈ (taprootPairs sigs index).filterMap scriptPathPair)]
    apply or_of_added (hr.tapScriptSigs k) (hl.tapScriptSigs k)
    · exact fun x y hx => (hagree k x (List.mem_append.mpr hx.symm)).1 y
    · exact fun x y hx hy =>
        (hagree k x (List.mem_append_right _ hx)).2 y (List.mem_append_left _ hy)

/-! ## Signed copies -/

namespace Signer

variable [SignatureTypes]

/-- The inputs of a signed copy. -/
theorem getElem?_applied (p : Psbt) (sigs : List InputSigs) (index : Nat) :
    (applied p sigs).inputs[index]? =
      p.inputs[index]?.map fun i => i.insertAllSigs sigs index :=
  List.getElem?_mapIdx

/-- The order and repetition of entries that do not clash does not matter, up to the flags. -/
theorem core_applied_congr (h : NoClash p sigs) (hsame : ∀ e, e ∈ sigs' ↔ e ∈ sigs) :
    (applied p sigs').core = (applied p sigs).core := by
  have hinputs : (applied p sigs').inputs = (applied p sigs).inputs := by
    apply List.ext_getElem?
    intro index
    rw [getElem?_applied, getElem?_applied]
    cases hi : p.inputs[index]? with
    | none => rfl
    | some i => rw [Option.map_some, Option.map_some, h.insertAllSigs_congr hi hsame]
  unfold Psbt.core
  rw [hinputs]
  rfl

/-- Merging two signed copies is signing with the entries of both, up to the flags. -/
theorem core_join_applied (h : NoClash p (sigs ++ sigs')) :
    ((applied p sigs).join (applied p sigs')).core = (applied p (sigs ++ sigs')).core := by
  have hinputs : (applied p sigs).mergedInputs (applied p sigs') =
      (applied p (sigs ++ sigs')).inputs := by
    apply List.ext_getElem?
    intro index
    rw [Psbt.mergedInputs, getElem?_zipMerge, getElem?_applied, getElem?_applied,
      getElem?_applied]
    cases hi : p.inputs[index]? with
    | none => rfl
    | some i => exact congrArg some (h.merge_insertAllSigs hi)
  have houtputs : (applied p sigs).mergedOutputs (applied p sigs') = p.outputs :=
    zipMerge_self Output.merge_self p.outputs
  have hxpubs : Global.joinXpubs (applied p sigs).global (applied p sigs').global =
      p.global.xpubs := by
    have hself : Global.combineXpubs (applied p sigs).global (applied p sigs').global =
        .ok p.global.xpubs := Global.combineXpubs_self p.global
    rw [Global.joinXpubs, hself]
    rfl
  unfold Psbt.join Psbt.merge Psbt.core
  rw [hinputs, houtputs, hxpubs]
  simp [Global.merge, applied]

/-- Copies signed with entries that do not clash are copies of one PSBT. -/
theorem copies_applied (h : NoClash p (sigs ++ sigs')) :
    Psbt.Copies (applied p sigs) (applied p sigs') := by
  have hxpubs : Global.XpubsConsistent (applied p sigs).core.global
      (applied p sigs').core.global := (Psbt.compatible_self p).xpubs
  have hinputs : Psbt.SameInputs (applied p sigs).core (applied p sigs').core := by
    intro index x y hx hy
    change (applied p sigs).inputs[index]? = some x at hx
    change (applied p sigs').inputs[index]? = some y at hy
    rw [getElem?_applied] at hx hy
    obtain ⟨i, hi, rfl⟩ := Option.map_eq_some_iff.mp hx
    obtain ⟨j, hj, rfl⟩ := Option.map_eq_some_iff.mp hy
    rw [Option.some_inj.mp (hi.symm.trans hj), (j.updatedBy_insertAllSigs sigs index).frame,
      (j.updatedBy_insertAllSigs sigs' index).frame]
    rfl
  have houtputs : Psbt.SameOutputs (applied p sigs).core (applied p sigs').core :=
    (Psbt.compatible_self p).outputs
  have hversions : Global.SameVersions (applied p sigs).core.global
      (applied p sigs').core.global := ⟨rfl, rfl⟩
  have hcomm := Psbt.merge_comm_iff hversions (Global.combineXpubs_eq_joinXpubs hxpubs)
    (Global.combineXpubs_eq_joinXpubs hxpubs.symm) hinputs houtputs
  refine ⟨hversions, hxpubs, hinputs, houtputs, hcomm.mp ?_⟩
  have hswap : ∀ e, e ∈ sigs' ++ sigs ↔ e ∈ sigs ++ sigs' := by
    intro e
    rw [List.mem_append, List.mem_append, or_comm]
  calc (applied p sigs).core.join (applied p sigs').core
      = (applied p (sigs ++ sigs')).core := core_join_applied h
    _ = (applied p (sigs' ++ sigs)).core := (core_applied_congr h hswap).symm
    _ = (applied p sigs').core.join (applied p sigs).core :=
      (core_join_applied (h.mono fun e he => (hswap e).mp he)).symm

/-- A signed copy requires the lock times that the PSBT requires. -/
theorem requirements_applied (p : Psbt) (sigs : List InputSigs) :
    (applied p sigs).inputs.map (fun i => (i.minTime, i.minHeight)) =
      p.inputs.map fun i => (i.minTime, i.minHeight) := by
  apply List.ext_getElem?
  intro index
  rw [List.getElem?_map, List.getElem?_map, getElem?_applied]
  cases p.inputs[index]? with
  | none => rfl
  | some i =>
      rw [Option.map_some, Option.map_some, (i.updatedBy_insertAllSigs sigs index).frame]
      rfl

/-- The PSBT is the original one, signed with some of the entries, up to its flags. -/
def SignedWith (p : Psbt) (sigs : List InputSigs) (x : Psbt) : Prop :=
  ∃ part : List InputSigs, (∀ e ∈ part, e ∈ sigs) ∧ x.core = (applied p part).core

theorem SignedWith.join (h : NoClash p sigs) {a b : Psbt} (ha : SignedWith p sigs a)
    (hb : SignedWith p sigs b) : SignedWith p sigs (a.join b) := by
  obtain ⟨part, hsub, ha⟩ := ha
  obtain ⟨part', hsub', hb⟩ := hb
  have hboth : ∀ e ∈ part ++ part', e ∈ sigs := by
    intro e he
    rcases List.mem_append.mp he with he | he
    · exact hsub e he
    · exact hsub' e he
  refine ⟨part ++ part', hboth, ?_⟩
  rw [Psbt.core_join, ha, hb, ← Psbt.core_join, core_join_applied (h.mono hboth)]

/-- PSBTs that were signed with entries that do not clash are combined. -/
theorem SignedWith.combineWith (h : NoClash p sigs) (hlock : ¬Psbt.LockTimeConflict p.inputs)
    {a b : Psbt} (ha : SignedWith p sigs a) (hb : SignedWith p sigs b) :
    a.combineWith b = .ok (a.join b) := by
  obtain ⟨part, hsub, ha⟩ := ha
  obtain ⟨part', hsub', hb⟩ := hb
  have hins : a.inputs = (applied p part).inputs :=
    show a.core.inputs = (applied p part).core.inputs by rw [ha]
  have hins' : b.inputs = (applied p part').inputs :=
    show b.core.inputs = (applied p part').core.inputs by rw [hb]
  apply Psbt.combineWith_of_copies
  · unfold Psbt.Copies
    rw [ha, hb]
    apply copies_applied (h.mono _)
    intro e he
    rcases List.mem_append.mp he with he | he
    · exact hsub e he
    · exact hsub' e he
  · unfold Psbt.SameRequirements
    rw [hins, hins', requirements_applied, requirements_applied]
  · rwa [hins, Psbt.lockTimeConflict_congr (requirements_applied p part)]

/-- The merge of signed copies is the PSBT signed with the entries of all of them. -/
theorem core_join_tree {t : MergeTree (List InputSigs)} (h : NoClash p t.leaves.flatten) :
    ((t.map (applied p)).join Psbt.join).core = (applied p t.leaves.flatten).core := by
  induction t with
  | leaf sigs => simp [MergeTree.map, MergeTree.join, MergeTree.leaves]
  | node l r ihl ihr =>
      have hflat : (MergeTree.node l r).leaves.flatten = l.leaves.flatten ++ r.leaves.flatten :=
        List.flatten_append
      rw [hflat] at h ⊢
      have hl := ihl (h.mono fun e he => List.mem_append_left _ he)
      have hr := ihr (h.mono fun e he => List.mem_append_right _ he)
      change (Psbt.join _ _).core = _
      rw [Psbt.core_join, hl, hr, ← Psbt.core_join, core_join_applied h]

/-- Parties sign copies of one PSBT, each with its own entries, and the copies are merged two
by two in any order.  Without a clash the merges succeed, and the result is what one Signer
makes of all of the entries, in any order, up to the modification flags. -/
theorem parallel {signer : Signer} {t : MergeTree (List InputSigs)}
    {copy : List InputSigs → Psbt} (hclash : NoClash signer.psbt t.leaves.flatten)
    (hcopy : ∀ sigs ∈ t.leaves, signer.apply sigs = .ok (copy sigs)) :
    ∃ c, (t.map copy).run Psbt.combineWith = .ok c ∧
      ∀ sigs, (∀ e, e ∈ sigs ↔ e ∈ t.leaves.flatten) → ∃ q, signer.apply sigs = .ok q ∧
        q.core = c.core ∧ q.global.fallbackLockTime = c.global.fallbackLockTime := by
  have hlock : ¬Psbt.LockTimeConflict signer.psbt.inputs := by
    obtain ⟨l, hl, _⟩ := Result.bind_eq_ok.mp signer.unsignedTx_eq
    exact (Psbt.determineLockTime_eq_ok.mp hl).1
  have hleaves : ∀ x ∈ (t.map copy).leaves, SignedWith signer.psbt t.leaves.flatten x := by
    simp only [MergeTree.leaves_map, List.mem_map]
    rintro _ ⟨sigs, hsigs, rfl⟩
    refine ⟨sigs, fun e he => List.mem_flatten.mpr ⟨sigs, hsigs, he⟩, ?_⟩
    rw [(apply_eq_ok.mp (hcopy sigs hsigs)).2]
  have hrun := MergeTree.run_isOk (fun a b ha hb => ha.join hclash hb)
    (fun a b ha hb => ha.combineWith hclash hlock hb) hleaves
  have htree : t.map copy = t.map (applied signer.psbt) :=
    MergeTree.map_congr fun sigs hsigs => (apply_eq_ok.mp (hcopy sigs hsigs)).2
  refine ⟨_, hrun, fun sigs hsame => ⟨applied signer.psbt sigs, apply_eq_ok.mpr ⟨?_, rfl⟩, ?_, ?_⟩⟩
  · intro entry hentry
    obtain ⟨part, hpart, hmem⟩ := List.mem_flatten.mp ((hsame entry).mp hentry)
    exact (apply_eq_ok.mp (hcopy part hpart)).1 entry hmem
  · rw [core_applied_congr hclash hsame, htree, core_join_tree hclash]
  · rw [(Psbt.join_head _).2, MergeTree.first_map,
      (apply_eq_ok.mp (hcopy t.first t.first_mem_leaves)).2]
    rfl

end Signer

end Generic

/-! ## A reference run -/

namespace Signer

attribute [local instance] Reference.types Reference.signatureTypes

/-- The signatures of a second party. -/
def otherSigs : InputSigs where
  index := 0
  signatures := .ecdsa [(Reference.publicKey 2, Reference.ecdsaSignature)]

/-- The two parties sign, and the first copy is delivered twice. -/
def deliveries : MergeTree (List InputSigs) :=
  .node (.leaf [Reference.inputSigs])
    (.node (.leaf [otherSigs]) (.leaf [Reference.inputSigs]))

theorem noClash_deliveries : NoClash openSigner.psbt deliveries.leaves.flatten := by
  have hfirst : ∀ (index : Nat) (i : Input), openSigner.psbt.inputs[index]? = some i →
      index = 0 ∧ i = Reference.input 0 := by
    intro index i hi
    cases index with
    | zero => exact ⟨rfl, (Option.some_inj.mp hi).symm⟩
    | succ index => cases hi
  refine ⟨?_, ?_, ?_⟩
  · intro index i hi k v hv
    obtain ⟨rfl, rfl⟩ := hfirst index i hi
    have hsig : ∀ w, (k, w) ∈ ecdsaPairs deliveries.leaves.flatten 0 →
        w = Reference.ecdsaSignature := by
      intro w hw
      have hmem : (k, w) ∈ [(Reference.publicKey 1, Reference.ecdsaSignature),
        (Reference.publicKey 2, Reference.ecdsaSignature),
        (Reference.publicKey 1, Reference.ecdsaSignature)] := hw
      simp only [List.mem_cons, Prod.mk.injEq, List.not_mem_nil, or_false] at hmem
      tauto
    refine ⟨fun w hw => ?_, fun w hw => (hsig v hv).trans (hsig w hw).symm⟩
    have hnone : (Reference.input 0).partialSigs[k]? = none := Std.ExtTreeMap.getElem?_empty
    rw [hnone] at hw
    cases hw
  · intro index i hi v hv
    obtain ⟨rfl, rfl⟩ := hfirst index i hi
    exact absurd hv List.not_mem_nil
  · intro index i hi k v hv
    obtain ⟨rfl, rfl⟩ := hfirst index i hi
    exact absurd hv List.not_mem_nil

theorem parallel_deliveries : ∃ c q,
    (deliveries.map (applied Reference.open_)).run Psbt.combineWith = .ok c ∧
      openSigner.apply [otherSigs, Reference.inputSigs] = .ok q ∧ q.core = c.core := by
  have hcopy : ∀ sigs ∈ deliveries.leaves,
      openSigner.apply sigs = .ok (applied Reference.open_ sigs) := by
    intro sigs hsigs
    refine apply_eq_ok.mpr ⟨?_, rfl⟩
    have hmem : sigs ∈ [[Reference.inputSigs], [otherSigs], [Reference.inputSigs]] :=
      hsigs
    intro entry hentry
    have hindex : entry.index = 0 := by
      simp only [List.mem_cons, List.not_mem_nil, or_false] at hmem
      rcases hmem with rfl | rfl | rfl <;> (rw [List.mem_singleton] at hentry; rw [hentry]; rfl)
    unfold InBounds
    rw [hindex]
    exact ⟨Nat.zero_lt_one, Nat.zero_lt_one⟩
  obtain ⟨c, hc, hall⟩ := parallel noClash_deliveries hcopy
  obtain ⟨q, hq, hcore, _⟩ := hall [otherSigs, Reference.inputSigs] (by
    intro e
    have hflat : deliveries.leaves.flatten =
      [Reference.inputSigs, otherSigs, Reference.inputSigs] := rfl
    rw [hflat]
    simp only [List.mem_cons, List.not_mem_nil, or_false]
    tauto)
  exact ⟨c, q, hc, hq, hcore⟩

end Signer

end RustPsbt
