import RustPsbt.Combine.Spec
import RustPsbt.Reference.Psbt

/-!
# Combining the same PSBTs again, and in other groupings

On every map the merge is an associative and idempotent operation: options keep
the first set value, maps the last one, and an xpub the last of its longest key
sources.

Main results:

- Theorem `Psbt.combineWith_absorbs`: a combination absorbs both of its halves.
- Theorem `Psbt.combineWith_assoc`: combinations can be regrouped.
-/

namespace RustPsbt

section

variable [BitcoinTypes]

/-! ## Key sources -/

namespace Global

/-- The last of the longest key sources. -/
def longerSource (old new : KeySource) : KeySource :=
  if new.2.length < old.2.length then old else new

omit [BitcoinTypes] in
@[simp]
theorem longerSource_self (s : KeySource) : longerSource s s = s := by
  simp [longerSource]

omit [BitcoinTypes] in
theorem longerSource_assoc (s t u : KeySource) :
    longerSource (longerSource s t) u = longerSource s (longerSource t u) := by
  unfold longerSource
  by_cases hts : t.2.length < s.2.length
  · by_cases hut : u.2.length < t.2.length
    · have hus : u.2.length < s.2.length := hut.trans hts
      simp [hts, hut, hus]
    · simp [hts, hut]
  · by_cases hut : u.2.length < t.2.length
    · simp [hts, hut]
    · have hus : ¬u.2.length < s.2.length := by omega
      simp [hts, hut, hus]

instance : Std.Associative longerSource := ⟨longerSource_assoc⟩
instance : Std.IdempotentOp longerSource := ⟨longerSource_self⟩

omit [BitcoinTypes] in
theorem merge_longerSource_assoc (s t u : Option KeySource) :
    Option.merge longerSource (Option.merge longerSource s t) u =
      Option.merge longerSource s (Option.merge longerSource t u) :=
  Std.Associative.assoc s t u

omit [BitcoinTypes] in
@[simp]
theorem merge_longerSource_self (s : Option KeySource) : Option.merge longerSource s s = s :=
  Std.IdempotentOp.idempotent s

/-- Resolved key sources are the longer of the two. -/
theorem resolveKeySource_eq_ok {x : Xpub} {old new v : KeySource}
    (h : resolveKeySource x old new = .ok v) : v = longerSource old new := by
  unfold resolveKeySource at h
  unfold longerSource
  split at h
  · split at h
    · cases h
      simp_all
    · cases h
  · split at h
    · cases h
      simp_all
    · cases h

/-- Merged xpubs hold the longer key source of every xpub. -/
theorem getElem?_combineXpubs {self other : Global} {xpubs : BTreeMap Xpub KeySource}
    (h : combineXpubs self other = .ok xpubs) (x : Xpub) :
    xpubs[x]? = Option.merge longerSource self.xpubs[x]? other.xpubs[x]? := by
  obtain ⟨hnone, hvacant, hboth⟩ := combineXpubs_getElem? h x
  cases ho : other.xpubs[x]? with
  | none => rw [hnone ho, Option.merge_none_right]
  | some t =>
      cases hs : self.xpubs[x]? with
      | none => rw [hvacant t ho hs, Option.merge_none_left]
      | some s =>
          obtain ⟨v, hv, hx⟩ := hboth s t ho hs
          rw [hx, resolveKeySource_eq_ok hv, Option.merge_some_some]

/-- Consistent xpubs merge to `m` exactly if `m` holds the longer key sources. -/
theorem combineXpubs_eq_ok_of_getElem? {self other : Global} {m : BTreeMap Xpub KeySource}
    (hconsistent : XpubsConsistent self other)
    (hm : ∀ x : Xpub, m[x]? = Option.merge longerSource self.xpubs[x]? other.xpubs[x]?) :
    combineXpubs self other = .ok m := by
  obtain ⟨xpubs, h⟩ := combineXpubs_isOk.mpr hconsistent
  have heq : xpubs = m := by
    apply Std.ExtTreeMap.ext_getElem?
    intro x
    rw [getElem?_combineXpubs h, hm]
  rw [h, heq]

omit [BitcoinTypes] in
theorem SourcesConsistent.refl (s : KeySource) : SourcesConsistent s s :=
  Or.inl (List.suffix_refl _)

omit [BitcoinTypes] in
/-- The longer of two consistent key sources is consistent with both. -/
theorem SourcesConsistent.longerSource {s t : KeySource} (h : SourcesConsistent s t) :
    SourcesConsistent s (longerSource s t) ∧ SourcesConsistent (Global.longerSource s t) t := by
  unfold Global.longerSource
  split
  · exact ⟨.refl s, h⟩
  · exact ⟨h, .refl t⟩

/-- Merged xpubs are consistent with both halves. -/
theorem xpubsConsistent_merge {a b : Global} {m : BTreeMap Xpub KeySource}
    (h : combineXpubs a b = .ok m) :
    XpubsConsistent (a.merge b m) b ∧ XpubsConsistent a (a.merge b m) := by
  have hconsistent : XpubsConsistent a b := combineXpubs_isOk.mp ⟨m, h⟩
  have hm : ∀ x : Xpub, (a.merge b m).xpubs[x]? =
      Option.merge longerSource a.xpubs[x]? b.xpubs[x]? := getElem?_combineXpubs h
  constructor
  · intro x s t hs ht
    rw [hm, ht] at hs
    cases ha : a.xpubs[x]? with
    | none =>
        rw [ha, Option.merge_none_left] at hs
        cases hs
        exact .refl _
    | some u =>
        rw [ha, Option.merge_some_some] at hs
        cases hs
        exact (hconsistent x u t ha ht).longerSource.2
  · intro x s t hs ht
    rw [hm, hs] at ht
    cases hb : b.xpubs[x]? with
    | none =>
        rw [hb, Option.merge_none_right] at ht
        cases ht
        exact .refl _
    | some u =>
        rw [hb, Option.merge_some_some] at ht
        cases ht
        exact (hconsistent x s u hs hb).longerSource.1

/-- Merging the xpubs of either half again gives the merged xpubs. -/
theorem combineXpubs_absorbs {a b : Global} {m : BTreeMap Xpub KeySource}
    (h : combineXpubs a b = .ok m) :
    combineXpubs (a.merge b m) b = .ok m ∧ combineXpubs a (a.merge b m) = .ok m := by
  obtain ⟨hright, hleft⟩ := xpubsConsistent_merge h
  have hm : ∀ x : Xpub, m[x]? = Option.merge longerSource a.xpubs[x]? b.xpubs[x]? :=
    getElem?_combineXpubs h
  constructor
  · apply combineXpubs_eq_ok_of_getElem? hright
    intro x
    change m[x]? = Option.merge longerSource m[x]? b.xpubs[x]?
    rw [hm, merge_longerSource_assoc, merge_longerSource_self]
  · apply combineXpubs_eq_ok_of_getElem? hleft
    intro x
    change m[x]? = Option.merge longerSource a.xpubs[x]? m[x]?
    rw [hm, ← merge_longerSource_assoc, merge_longerSource_self]

/-- The xpubs of a global map merge with themselves. -/
theorem combineXpubs_self (a : Global) : combineXpubs a a = .ok a.xpubs := by
  apply combineXpubs_eq_ok_of_getElem?
  · intro x s t hs ht
    rw [hs] at ht
    cases ht
    exact .refl s
  · intro x
    exact (merge_longerSource_self _).symm

/-- Regrouped merges of the xpubs of three maps are equal. -/
theorem combineXpubs_assoc {a b c : Global} {ab bc l r : BTreeMap Xpub KeySource}
    (hab : combineXpubs a b = .ok ab) (hl : combineXpubs (a.merge b ab) c = .ok l)
    (hbc : combineXpubs b c = .ok bc) (hr : combineXpubs a (b.merge c bc) = .ok r) :
    l = r := by
  apply Std.ExtTreeMap.ext_getElem?
  intro x
  rw [getElem?_combineXpubs hl, getElem?_combineXpubs hr]
  change Option.merge longerSource ab[x]? c.xpubs[x]? =
    Option.merge longerSource a.xpubs[x]? bc[x]?
  rw [getElem?_combineXpubs hab, getElem?_combineXpubs hbc, merge_longerSource_assoc]

end Global

namespace Input

@[simp]
theorem merge_self (a : Input) : a.merge a = a := by
  simp [merge]

theorem merge_assoc (a b c : Input) : (a.merge b).merge c = a.merge (b.merge c) := by
  simp [merge, Option.or_assoc, BTreeMap.extend_assoc]

/-- A merged input has the outpoint of its left half. -/
@[simp]
theorem outPoint_merge (a b : Input) : (a.merge b).outPoint = a.outPoint :=
  rfl

end Input

namespace Output

@[simp]
theorem merge_self (a : Output) : a.merge a = a := by
  simp [merge]

theorem merge_assoc (a b c : Output) : (a.merge b).merge c = a.merge (b.merge c) := by
  simp [merge, Option.or_assoc, BTreeMap.extend_assoc]

/-- A merged output has the amount and script of its left half. -/
@[simp]
theorem txOut_merge (a b : Output) : (a.merge b).txOut = a.txOut :=
  rfl

end Output

namespace Psbt

/-! ## Absorption -/

/-- Merging the right half in again changes nothing. -/
theorem merge_merge_right (a b : Psbt) (m : BTreeMap Xpub KeySource) :
    (a.merge b m).merge b m = a.merge b m := by
  have hinputs : (a.merge b m).mergedInputs b = a.mergedInputs b := by
    apply zipMerge_zipMerge_right
    intro x y
    rw [Input.merge_assoc, Input.merge_self]
  have houtputs : (a.merge b m).mergedOutputs b = a.mergedOutputs b := by
    apply zipMerge_zipMerge_right
    intro x y
    rw [Output.merge_assoc, Output.merge_self]
  have hglobal : (a.merge b m).global.merge b.global m = a.global.merge b.global m := by
    simp [merge, Global.merge, BTreeMap.extend_assoc]
  unfold merge at hinputs houtputs hglobal ⊢
  rw [hinputs, houtputs, hglobal]

/-- Merging a combination into its left half gives the combination. -/
theorem merge_merge_left (a b : Psbt) (m : BTreeMap Xpub KeySource) :
    a.merge (a.merge b m) m = a.merge b m := by
  have hinputs : a.mergedInputs (a.merge b m) = a.mergedInputs b := by
    apply zipMerge_zipMerge_left Input.merge_self
    intro x y
    rw [← Input.merge_assoc, Input.merge_self]
  have houtputs : a.mergedOutputs (a.merge b m) = a.mergedOutputs b := by
    apply zipMerge_zipMerge_left Output.merge_self
    intro x y
    rw [← Output.merge_assoc, Output.merge_self]
  have hglobal : a.global.merge (a.merge b m).global m = a.global.merge b.global m := by
    simp [merge, Global.merge, ← BTreeMap.extend_assoc]
  unfold merge at hinputs houtputs hglobal ⊢
  rw [hinputs, houtputs, hglobal]

/-- Merging a PSBT with itself changes nothing. -/
theorem merge_self (a : Psbt) : a.merge a a.global.xpubs = a := by
  have hinputs : a.mergedInputs a = a.inputs := zipMerge_self Input.merge_self _
  have houtputs : a.mergedOutputs a = a.outputs := zipMerge_self Output.merge_self _
  unfold merge
  rw [hinputs, houtputs]
  simp [Global.merge]

/-- The inputs of a combination spend what those of both halves spend. -/
theorem sameInputs_merge {a b : Psbt} (h : SameInputs a b) (m : BTreeMap Xpub KeySource) :
    SameInputs (a.merge b m) b ∧ SameInputs a (a.merge b m) := by
  have hmerge (x y : Input) : (x.merge y).outPoint = x.outPoint := rfl
  exact ⟨h.zipMerge_right hmerge, zipped_zipMerge_left hmerge _ _⟩

/-- The outputs of a combination have the amounts and scripts of both halves. -/
theorem sameOutputs_merge {a b : Psbt} (h : SameOutputs a b) (m : BTreeMap Xpub KeySource) :
    SameOutputs (a.merge b m) b ∧ SameOutputs a (a.merge b m) := by
  have hmerge (x y : Output) : (x.merge y).txOut = x.txOut := rfl
  exact ⟨h.zipMerge_right hmerge, zipped_zipMerge_left hmerge _ _⟩

/-- A combination absorbs a second delivery of its right half. -/
theorem combineWith_right_again {a b c : Psbt} (h : a.combineWith b = .ok c) :
    c.combineWith b = .ok c := by
  obtain ⟨m, hm, hv, hin, hout, hlock, rfl⟩ := combineWith_eq_ok.mp h
  have heq := merge_merge_right a b m
  have hinputs : (a.merge b m).mergedInputs b = a.mergedInputs b := congrArg Psbt.inputs heq
  refine combineWith_eq_ok.mpr ⟨m, (Global.combineXpubs_absorbs hm).1, hv,
    (sameInputs_merge hin m).1, (sameOutputs_merge hout m).1, ?_, heq.symm⟩
  rw [hinputs]
  exact hlock

/-- A combination delivered to its left half is the combination. -/
theorem combineWith_left_again {a b c : Psbt} (h : a.combineWith b = .ok c) :
    a.combineWith c = .ok c := by
  obtain ⟨m, hm, hv, hin, hout, hlock, rfl⟩ := combineWith_eq_ok.mp h
  have heq := merge_merge_left a b m
  have hinputs : a.mergedInputs (a.merge b m) = a.mergedInputs b := congrArg Psbt.inputs heq
  refine combineWith_eq_ok.mpr ⟨m, (Global.combineXpubs_absorbs hm).2, ⟨rfl, rfl⟩,
    (sameInputs_merge hin m).2, (sameOutputs_merge hout m).2, ?_, heq.symm⟩
  rw [hinputs]
  exact hlock

/-- A PSBT with a lock time combined with itself is itself. -/
theorem combineWith_self {a : Psbt} {l : LockTime} (h : a.determineLockTime = .ok l) :
    a.combineWith a = .ok a := by
  have hinputs : a.mergedInputs a = a.inputs := congrArg Psbt.inputs (merge_self a)
  refine combineWith_eq_ok.mpr ⟨a.global.xpubs, Global.combineXpubs_self a.global, ⟨rfl, rfl⟩,
    ?_, ?_, ?_, (merge_self a).symm⟩
  · intro i x y hx hy
    rw [hx] at hy
    cases hy
    rfl
  · intro i x y hx hy
    rw [hx] at hy
    cases hy
    rfl
  · rw [hinputs]
    exact (determineLockTime_eq_ok.mp h).1

/-- Delivering a PSBT again does not change a combination: it absorbs both of its
halves, and a PSBT with a lock time absorbs itself. -/
theorem combineWith_absorbs (a b c : Psbt) :
    (a.combineWith b = .ok c → c.combineWith b = .ok c ∧ a.combineWith c = .ok c) ∧
      ((∃ l, a.determineLockTime = .ok l) → a.combineWith a = .ok a) := by
  constructor
  · intro h
    exact ⟨combineWith_right_again h, combineWith_left_again h⟩
  · rintro ⟨l, h⟩
    exact combineWith_self h

/-! ## Regrouping -/

/-- Both groupings of three PSBTs combine to one PSBT.  Of the numbers of inputs
and outputs it matters only that the middle one has as many as the left one. -/
theorem combineWith_assoc {a b c ab bc l r : Psbt}
    (hinputs : a.inputs.length = b.inputs.length)
    (houtputs : a.outputs.length = b.outputs.length)
    (hab : a.combineWith b = .ok ab) (hl : ab.combineWith c = .ok l)
    (hbc : b.combineWith c = .ok bc) (hr : a.combineWith bc = .ok r) : l = r := by
  obtain ⟨mab, hmab, -, -, -, -, rfl⟩ := combineWith_eq_ok.mp hab
  obtain ⟨mbc, hmbc, -, -, -, -, rfl⟩ := combineWith_eq_ok.mp hbc
  obtain ⟨ml, hml, -, -, -, -, rfl⟩ := combineWith_eq_ok.mp hl
  obtain ⟨mr, hmr, -, -, -, -, rfl⟩ := combineWith_eq_ok.mp hr
  have hxpubs : ml = mr := Global.combineXpubs_assoc hmab hml hmbc hmr
  have hins : (a.merge b mab).mergedInputs c = a.mergedInputs (b.merge c mbc) :=
    zipMerge_assoc Input.merge_assoc hinputs.le c.inputs
  have houts : (a.merge b mab).mergedOutputs c = a.mergedOutputs (b.merge c mbc) :=
    zipMerge_assoc Output.merge_assoc houtputs.le c.outputs
  have hglobal : (a.merge b mab).global.merge c.global ml =
      a.global.merge (b.merge c mbc).global mr := by
    simp [merge, Global.merge, BTreeMap.extend_assoc, hxpubs]
  calc (a.merge b mab).merge c ml
      = { global := (a.merge b mab).global.merge c.global ml
          inputs := (a.merge b mab).mergedInputs c
          outputs := (a.merge b mab).mergedOutputs c } := rfl
    _ = { global := a.global.merge (b.merge c mbc).global mr
          inputs := a.mergedInputs (b.merge c mbc)
          outputs := a.mergedOutputs (b.merge c mbc) } := by rw [hglobal, hins, houts]
    _ = a.merge (b.merge c mbc) mr := rfl

end Psbt

end

/-! ## Reference runs -/

namespace Psbt

attribute [local instance] Reference.types

/-- The signed reference PSBT is absorbed by the unsigned one's combination. -/
theorem combineWith_absorbs_signed :
    (Reference.signed.combineWith Reference.signed = .ok Reference.signed ∧
        Reference.unsigned.combineWith Reference.signed = .ok Reference.signed) ∧
      Reference.unsigned.combineWith Reference.unsigned = .ok Reference.unsigned :=
  ⟨(combineWith_absorbs Reference.unsigned Reference.signed Reference.signed).1 rfl,
    (combineWith_absorbs Reference.unsigned Reference.signed Reference.signed).2 ⟨_, rfl⟩⟩

/-- Both groupings of two unsigned copies around a signed one. -/
theorem combineWith_assoc_signed :
    ∃ ab bc l r, Reference.unsigned.combineWith Reference.signed = .ok ab ∧
      ab.combineWith Reference.unsigned = .ok l ∧
      Reference.signed.combineWith Reference.unsigned = .ok bc ∧
      Reference.unsigned.combineWith bc = .ok r ∧ l = r :=
  ⟨Reference.signed, Reference.signed, Reference.signed, Reference.signed, rfl, rfl, rfl, rfl,
    combineWith_assoc (b := Reference.signed) (c := Reference.unsigned) rfl rfl rfl rfl rfl rfl⟩

end Psbt

end RustPsbt
