import RustPsbt.Combine.Spec
import RustPsbt.Reference.Psbt

/-!
# When combining commutes

Main results:

- Theorem `Psbt.combineWith_comm_iff`: the two orders of a combination agree
  exactly where an identity check fails in both, an inconsistent xpub fails by
  an error in both, or the two PSBTs agree on everything they both hold.
-/

namespace RustPsbt

section

variable [BitcoinTypes]

/-! ## Agreement of maps -/

namespace Input

/-- Two inputs hold equal values wherever both hold one. -/
structure Agree (a b : Input) : Prop where
  sequence : OptionAgree a.sequence b.sequence
  minTime : OptionAgree a.minTime b.minTime
  minHeight : OptionAgree a.minHeight b.minHeight
  nonWitnessUtxo : OptionAgree a.nonWitnessUtxo b.nonWitnessUtxo
  witnessUtxo : OptionAgree a.witnessUtxo b.witnessUtxo
  partialSigs : BTreeMap.Agree a.partialSigs b.partialSigs
  sighashType : OptionAgree a.sighashType b.sighashType
  redeemScript : OptionAgree a.redeemScript b.redeemScript
  witnessScript : OptionAgree a.witnessScript b.witnessScript
  bip32Derivations : BTreeMap.Agree a.bip32Derivations b.bip32Derivations
  finalScriptSig : OptionAgree a.finalScriptSig b.finalScriptSig
  finalScriptWitness : OptionAgree a.finalScriptWitness b.finalScriptWitness
  ripemd160Preimages : BTreeMap.Agree a.ripemd160Preimages b.ripemd160Preimages
  sha256Preimages : BTreeMap.Agree a.sha256Preimages b.sha256Preimages
  hash160Preimages : BTreeMap.Agree a.hash160Preimages b.hash160Preimages
  hash256Preimages : BTreeMap.Agree a.hash256Preimages b.hash256Preimages
  tapKeySig : OptionAgree a.tapKeySig b.tapKeySig
  tapScriptSigs : BTreeMap.Agree a.tapScriptSigs b.tapScriptSigs
  tapScripts : BTreeMap.Agree a.tapScripts b.tapScripts
  tapKeyOrigins : BTreeMap.Agree a.tapKeyOrigins b.tapKeyOrigins
  tapInternalKey : OptionAgree a.tapInternalKey b.tapInternalKey
  tapMerkleRoot : OptionAgree a.tapMerkleRoot b.tapMerkleRoot
  spEcdhShares : BTreeMap.Agree a.spEcdhShares b.spEcdhShares
  spDleqProofs : BTreeMap.Agree a.spDleqProofs b.spDleqProofs
  proprietaries : BTreeMap.Agree a.proprietaries b.proprietaries
  unknowns : BTreeMap.Agree a.unknowns b.unknowns

/-- Inputs that spend one output merge alike in both orders exactly if they
agree. -/
theorem merge_comm_iff {a b : Input} (hpoint : a.outPoint = b.outPoint) :
    a.merge b = b.merge a ↔ Agree a b := by
  obtain ⟨htxid, hvout⟩ := (OutPoint.mk.injEq ..) ▸ hpoint
  simp only [merge, Input.mk.injEq, htxid, hvout, option_or_comm_iff,
    BTreeMap.extend_comm_iff, true_and]
  constructor
  · rintro ⟨h1, h2, h3, h4, h5, h6, h7, h8, h9, h10, h11, h12, h13, h14, h15, h16, h17,
      h18, h19, h20, h21, h22, h23, h24, h25, h26⟩
    exact ⟨h1, h2, h3, h4, h5, h6, h7, h8, h9, h10, h11, h12, h13, h14, h15, h16, h17,
      h18, h19, h20, h21, h22, h23, h24, h25, h26⟩
  · rintro ⟨h1, h2, h3, h4, h5, h6, h7, h8, h9, h10, h11, h12, h13, h14, h15, h16, h17,
      h18, h19, h20, h21, h22, h23, h24, h25, h26⟩
    exact ⟨h1, h2, h3, h4, h5, h6, h7, h8, h9, h10, h11, h12, h13, h14, h15, h16, h17,
      h18, h19, h20, h21, h22, h23, h24, h25, h26⟩

end Input

namespace Output

/-- Two outputs hold equal values wherever both hold one. -/
structure Agree (a b : Output) : Prop where
  redeemScript : OptionAgree a.redeemScript b.redeemScript
  witnessScript : OptionAgree a.witnessScript b.witnessScript
  bip32Derivations : BTreeMap.Agree a.bip32Derivations b.bip32Derivations
  tapInternalKey : OptionAgree a.tapInternalKey b.tapInternalKey
  tapTree : OptionAgree a.tapTree b.tapTree
  tapKeyOrigins : BTreeMap.Agree a.tapKeyOrigins b.tapKeyOrigins
  spV0Info : OptionAgree a.spV0Info b.spV0Info
  spV0Label : OptionAgree a.spV0Label b.spV0Label
  proprietaries : BTreeMap.Agree a.proprietaries b.proprietaries
  unknowns : BTreeMap.Agree a.unknowns b.unknowns

/-- Equal raw outputs merge alike in both orders exactly if they agree. -/
theorem merge_comm_iff {a b : Output} (hraw : a.txOut = b.txOut) :
    a.merge b = b.merge a ↔ Agree a b := by
  obtain ⟨hamount, hscript⟩ := (TxOut.mk.injEq ..) ▸ hraw
  simp only [merge, Output.mk.injEq, hamount, hscript, option_or_comm_iff,
    BTreeMap.extend_comm_iff, true_and]
  constructor
  · rintro ⟨h1, h2, h3, h4, h5, h6, h7, h8, h9, h10⟩
    exact ⟨h1, h2, h3, h4, h5, h6, h7, h8, h9, h10⟩
  · rintro ⟨h1, h2, h3, h4, h5, h6, h7, h8, h9, h10⟩
    exact ⟨h1, h2, h3, h4, h5, h6, h7, h8, h9, h10⟩

end Output

namespace Global

/-- Two global maps hold equal values wherever both hold one; key sources may
differ where one derivation path is strictly longer. -/
structure Agree (a b : Global) : Prop where
  fallbackLockTime : a.fallbackLockTime = b.fallbackLockTime
  txModifiableFlags : a.txModifiableFlags = b.txModifiableFlags
  inputCount : a.inputCount = b.inputCount
  outputCount : a.outputCount = b.outputCount
  xpubs : ∀ (x : Xpub) (s t : KeySource), a.xpubs[x]? = some s → b.xpubs[x]? = some t →
    s.2 = t.2 → s = t
  spEcdhShares : BTreeMap.Agree a.spEcdhShares b.spEcdhShares
  spDleqProofs : BTreeMap.Agree a.spDleqProofs b.spDleqProofs
  proprietaries : BTreeMap.Agree a.proprietaries b.proprietaries
  unknowns : BTreeMap.Agree a.unknowns b.unknowns

/-- Consistent key sources resolve alike in both orders exactly if paths of one
length come with one fingerprint. -/
theorem resolveKeySource_comm {x : Xpub} {s t v w : KeySource}
    (hv : resolveKeySource x s t = .ok v) (hw : resolveKeySource x t s = .ok w) :
    v = w ↔ (s.2 = t.2 → s = t) := by
  unfold resolveKeySource at hv hw
  by_cases hlt : t.2.length < s.2.length
  · have hnot : ¬s.2.length < t.2.length := by omega
    have hne : s.2 ≠ t.2 := by
      intro h
      rw [h] at hlt
      exact lt_irrefl _ hlt
    have hsuf : t.2 <:+ s.2 := by
      by_contra hsuf
      simp [hlt, hsuf] at hv
    simp only [hlt, hsuf, if_true, Except.ok.injEq] at hv
    simp only [hnot, hsuf, if_false, if_true, Except.ok.injEq] at hw
    simp [← hv, ← hw, hne]
  · by_cases hlt' : s.2.length < t.2.length
    · have hne : s.2 ≠ t.2 := by
        intro h
        rw [h] at hlt'
        exact lt_irrefl _ hlt'
      have hsuf : s.2 <:+ t.2 := by
        by_contra hsuf
        simp [hlt, hsuf] at hv
      simp only [hlt, hsuf, if_false, if_true, Except.ok.injEq] at hv
      simp only [hlt', hsuf, if_true, Except.ok.injEq] at hw
      simp [← hv, ← hw, hne]
    · have hsuf : s.2 <:+ t.2 := by
        by_contra hsuf
        simp [hlt, hsuf] at hv
      have hsame : s.2 = t.2 := hsuf.eq_of_length (by omega)
      simp only [hlt, hsuf, if_false, if_true, Except.ok.injEq] at hv
      simp only [hsame, lt_irrefl, List.suffix_refl, if_false, if_true,
        Except.ok.injEq] at hw
      simp [← hv, ← hw, hsame, eq_comm]

/-- Merged xpubs are equal in both orders exactly if paths of one length come
with one fingerprint. -/
theorem combineXpubs_comm_iff {a b : Global} {m m' : BTreeMap Xpub KeySource}
    (hm : combineXpubs a b = .ok m) (hm' : combineXpubs b a = .ok m') :
    m = m' ↔ ∀ (x : Xpub) (s t : KeySource), a.xpubs[x]? = some s → b.xpubs[x]? = some t →
      s.2 = t.2 → s = t := by
  constructor
  · rintro rfl x s t hs ht
    obtain ⟨v, hv, hmv⟩ := (combineXpubs_getElem? hm x).2.2 s t ht hs
    obtain ⟨w, hw, hmw⟩ := (combineXpubs_getElem? hm' x).2.2 t s hs ht
    exact (resolveKeySource_comm hv hw).mp (Option.some_inj.mp (hmv.symm.trans hmw))
  · intro h
    apply Std.ExtTreeMap.ext_getElem?
    intro x
    obtain ⟨hnone, hvacant, hboth⟩ := combineXpubs_getElem? hm x
    obtain ⟨hnone', hvacant', hboth'⟩ := combineXpubs_getElem? hm' x
    cases hs : a.xpubs[x]? with
    | none =>
        rw [hnone' hs]
        cases ht : b.xpubs[x]? with
        | none => rw [hnone ht, hs]
        | some t => exact hvacant t ht hs
    | some s =>
        cases ht : b.xpubs[x]? with
        | none => rw [hnone ht, hs, hvacant' s hs ht]
        | some t =>
            obtain ⟨v, hv, hmv⟩ := hboth s t ht hs
            obtain ⟨w, hw, hmw⟩ := hboth' t s hs ht
            rw [hmv, hmw, (resolveKeySource_comm hv hw).mpr (h x s t hs ht)]

/-- Global maps of one version merge alike in both orders exactly if they agree. -/
theorem merge_comm_iff {a b : Global} {m m' : BTreeMap Xpub KeySource}
    (hversions : SameVersions a b)
    (hm : combineXpubs a b = .ok m) (hm' : combineXpubs b a = .ok m') :
    a.merge b m = b.merge a m' ↔ Agree a b := by
  simp only [merge, Global.mk.injEq, hversions.1, hversions.2, BTreeMap.extend_comm_iff,
    combineXpubs_comm_iff hm hm', true_and]
  constructor
  · rintro ⟨h1, h2, h3, h4, h5, h6, h7, h8, h9⟩
    exact ⟨h1, h2, h3, h4, h5, h6, h7, h8, h9⟩
  · rintro ⟨h1, h2, h3, h4, h5, h6, h7, h8, h9⟩
    exact ⟨h1, h2, h3, h4, h5, h6, h7, h8, h9⟩

/-! ## The first inconsistent xpub -/

/-- The least common xpub whose key sources are inconsistent. -/
structure FirstInconsistent (a b : Global) (x : Xpub) (s t : KeySource) : Prop where
  left : a.xpubs[x]? = some s
  right : b.xpubs[x]? = some t
  inconsistent : ¬SourcesConsistent s t
  least : ∀ (y : Xpub) (s' t' : KeySource), a.xpubs[y]? = some s' → b.xpubs[y]? = some t' →
    compare y x = .lt → SourcesConsistent s' t'

theorem FirstInconsistent.symm {a b : Global} {x : Xpub} {s t : KeySource}
    (h : FirstInconsistent a b x s t) : FirstInconsistent b a x t s where
  left := h.right
  right := h.left
  inconsistent hcons := h.inconsistent hcons.symm
  least y s' t' hs ht hlt := (h.least y t' s' ht hs hlt).symm

/-- Inconsistent xpubs have a first one. -/
theorem exists_firstInconsistent {a b : Global} (h : ¬XpubsConsistent a b) :
    ∃ x s t, FirstInconsistent a b x s t := by
  unfold XpubsConsistent at h
  push Not at h
  obtain ⟨x, s, t, hs, ht, hne⟩ := h
  obtain ⟨x, s, hs, ⟨t, ht, hne⟩, hleast⟩ := BTreeMap.exists_least
    (p := fun y s' => ∃ t', b.xpubs[y]? = some t' ∧ ¬SourcesConsistent s' t')
    ⟨x, s, hs, t, ht, hne⟩
  refine ⟨x, s, t, hs, ht, hne, ?_⟩
  intro y s' t' hs' ht' hlt
  by_contra hcons
  exact hleast y s' hs' hlt ⟨t', ht', hcons⟩

/-- The first inconsistent xpub decides how the merge fails. -/
theorem combineXpubs_of_firstInconsistent {a b : Global} {x : Xpub} {s t : KeySource}
    (h : FirstInconsistent a b x s t) :
    combineXpubs a b =
      if t.2.length < s.2.length then .panicked else .err (.inconsistentKeySources x) := by
  have hleast : ∀ (y : Xpub) (u : KeySource), b.xpubs[y]? = some u → compare y x = .lt →
      BTreeMap.entryFault resolveKeySource a.xpubs (y, u) = none := by
    intro y u hu hlt
    rw [BTreeMap.entryFault_eq_none]
    intro old hold
    exact resolveKeySource_isOk.mpr (h.least y old u hold hu hlt)
  have hentry : ∀ f, resolveKeySource x s t = .error f →
      combineXpubs a b = .error f := by
    intro f hf
    have hx : BTreeMap.entryFault resolveKeySource a.xpubs (x, t) = some f := by
      simp [BTreeMap.entryFault, h.left, hf]
    unfold combineXpubs
    rw [combineXpubs_eq, BTreeMap.foldlM_mergeStep_eq_error (BTreeMap.distinctKeys_toList _)]
    exact BTreeMap.findSome?_toList_of_least h.right hx hleast
  rw [resolveKeySource_of_inconsistent h.inconsistent] at hentry
  split
  · rename_i hlt
    exact hentry _ (if_pos hlt)
  · rename_i hlt
    exact hentry _ (if_neg hlt)

/-- There is one first inconsistent xpub. -/
theorem FirstInconsistent.unique {a b : Global} {x y : Xpub} {s t s' t' : KeySource}
    (h : FirstInconsistent a b x s t) (h' : FirstInconsistent a b y s' t') :
    s = s' ∧ t = t' := by
  have hxy : x = y := by
    apply Std.LawfulEqOrd.eq_of_compare
    cases hcmp : compare x y with
    | eq => rfl
    | lt => exact absurd (h'.least x s t h.left h.right hcmp) h.inconsistent
    | gt =>
        exact absurd (h.least y s' t' h'.left h'.right (Std.OrientedCmp.lt_of_gt hcmp))
          h'.inconsistent
  subst hxy
  exact ⟨Option.some_inj.mp (h.left.symm.trans h'.left),
    Option.some_inj.mp (h.right.symm.trans h'.right)⟩

end Global

/-! ## Whole PSBTs -/

namespace Psbt

/-- Some input of the combination accepts a time and no height. -/
def MergedTimeOnly (a b : Psbt) : Prop :=
  ∃ (i : Nat) (x : Input), a.inputs[i]? = some x ∧
    (x.minTime.isSome ∨ ∃ y ∈ b.inputs[i]?, y.minTime.isSome) ∧
    x.minHeight = none ∧ ∀ y ∈ b.inputs[i]?, y.minHeight = none

/-- Some input of the combination accepts a height and no time. -/
def MergedHeightOnly (a b : Psbt) : Prop :=
  ∃ (i : Nat) (x : Input), a.inputs[i]? = some x ∧
    (x.minHeight.isSome ∨ ∃ y ∈ b.inputs[i]?, y.minHeight.isSome) ∧
    x.minTime = none ∧ ∀ y ∈ b.inputs[i]?, y.minTime = none

/-- The requirements of the inputs of the left PSBT conflict once those of the
right one are added. -/
def MergedConflict (a b : Psbt) : Prop :=
  MergedTimeOnly a b ∧ MergedHeightOnly a b

/-- Membership in a combination, by position. -/
theorem exists_mem_mergedInputs {a b : Psbt} {p : Input → Prop} :
    (∃ m ∈ a.mergedInputs b, p m) ↔
      ∃ (i : Nat) (x : Input), a.inputs[i]? = some x ∧
        p ((b.inputs[i]?.map fun y => x.merge y).getD x) := by
  constructor
  · rintro ⟨m, hm, hp⟩
    obtain ⟨i, hi⟩ := List.mem_iff_getElem?.mp hm
    rw [mergedInputs, getElem?_zipMerge, Option.map_eq_some_iff] at hi
    obtain ⟨x, hx, rfl⟩ := hi
    exact ⟨i, x, hx, hp⟩
  · rintro ⟨i, x, hx, hp⟩
    refine ⟨_, List.mem_of_getElem? (i := i) ?_, hp⟩
    rw [mergedInputs, getElem?_zipMerge, hx]
    rfl

/-- The requirements of a combination, in terms of its halves. -/
theorem lockTimeConflict_mergedInputs_iff {a b : Psbt} :
    LockTimeConflict (a.mergedInputs b) ↔ MergedConflict a b := by
  have htime : (∃ m ∈ a.mergedInputs b, m.TimeOnly) ↔ MergedTimeOnly a b := by
    rw [exists_mem_mergedInputs]
    refine exists_congr fun i => exists_congr fun x => and_congr_right fun _ => ?_
    cases b.inputs[i]? with
    | none => simp [Input.TimeOnly]
    | some y => simp [Input.TimeOnly, Input.merge]
  have hheight : (∃ m ∈ a.mergedInputs b, m.HeightOnly) ↔ MergedHeightOnly a b := by
    rw [exists_mem_mergedInputs]
    refine exists_congr fun i => exists_congr fun x => and_congr_right fun _ => ?_
    cases b.inputs[i]? with
    | none => simp [Input.HeightOnly]
    | some y => simp [Input.HeightOnly, Input.merge]
  unfold LockTimeConflict MergedConflict
  rw [htime, hheight]

/-- Two PSBTs hold equal values wherever both hold one. -/
structure Agree (a b : Psbt) : Prop where
  global : a.global.Agree b.global
  inputCount : a.inputs.length = b.inputs.length
  inputs : Zipped Input.Agree a.inputs b.inputs
  outputCount : a.outputs.length = b.outputs.length
  outputs : Zipped Output.Agree a.outputs b.outputs

/-- The two orders succeed with equal results, or both return an error. -/
def CombineCommutes (a b : Psbt) : Prop :=
  (∃ c, a.combineWith b = .ok c ∧ b.combineWith a = .ok c) ∨
    ((a.combineWith b).IsErr ∧ (b.combineWith a).IsErr)

/-- The PSBTs whose combination commutes: a check fails in both orders, or the
two agree. -/
inductive CommuteCondition (a b : Psbt) : Prop where
  | versions (h : ¬Global.SameVersions a.global b.global)
  | xpubs {x : Xpub} {s t : KeySource}
      (hfirst : Global.FirstInconsistent a.global b.global x s t)
      (hlength : s.2.length = t.2.length)
  | inputs (hxpubs : Global.XpubsConsistent a.global b.global) (h : ¬SameInputs a b)
  | outputs (hxpubs : Global.XpubsConsistent a.global b.global) (h : ¬SameOutputs a b)
  | lockTimes (hxpubs : Global.XpubsConsistent a.global b.global)
      (h : MergedConflict a b) (h' : MergedConflict b a)
  | agree (hxpubs : Global.XpubsConsistent a.global b.global) (h : Agree a b)

theorem SameInputs.symm {a b : Psbt} (h : SameInputs a b) : SameInputs b a :=
  Zipped.symm h fun _ _ => Eq.symm

theorem SameOutputs.symm {a b : Psbt} (h : SameOutputs a b) : SameOutputs b a :=
  Zipped.symm h fun _ _ => Eq.symm

/-- When a combination succeeds. -/
theorem combineWith_isOk {a b : Psbt} :
    (∃ c, a.combineWith b = .ok c) ↔
      Global.SameVersions a.global b.global ∧ Global.XpubsConsistent a.global b.global ∧
        SameInputs a b ∧ SameOutputs a b ∧ ¬MergedConflict a b := by
  simp only [combineWith_eq_ok, ← lockTimeConflict_mergedInputs_iff,
    ← Global.combineXpubs_isOk]
  constructor
  · rintro ⟨c, xpubs, hx, hv, hin, hout, hlock, -⟩
    exact ⟨hv, ⟨xpubs, hx⟩, hin, hout, hlock⟩
  · rintro ⟨hv, ⟨xpubs, hx⟩, hin, hout, hlock⟩
    exact ⟨_, xpubs, hx, hv, hin, hout, hlock, rfl⟩

/-- A combination of PSBTs of one version with consistent xpubs does not panic. -/
theorem returns_combineWith {a b : Psbt}
    (hxpubs : Global.XpubsConsistent a.global b.global) : (a.combineWith b).Returns := by
  unfold combineWith
  refine Result.Returns.bind ?_ fun global _ => ?_
  · rw [Result.returns_mapErr]
    by_cases hv : Global.SameVersions a.global b.global
    · obtain ⟨xpubs, hx⟩ := Global.combineXpubs_isOk.mpr hxpubs
      rw [Global.combine_of_sameVersions hv, hx]
      trivial
    · obtain ⟨e, he⟩ := Global.combine_of_not_sameVersions hv
      rw [he]
      trivial
  · refine Result.Returns.bind ?_ fun inputs _ => Result.Returns.bind ?_ fun outputs _ =>
      Result.Returns.bind ?_ fun _ _ => trivial
    · rw [Result.returns_mapErr]
      exact returns_combineZip Input.returns_combine _ _
    · rw [Result.returns_mapErr]
      exact returns_combineZip Output.returns_combine _ _
    · rw [Result.returns_mapErr]
      rcases determineLockTime_spec { global, inputs, outputs } with
        ⟨-, heq⟩ | ⟨-, l, -, heq⟩
      · rw [heq]
        trivial
      · rw [heq]
        trivial

/-- PSBTs of different versions do not combine. -/
theorem combineWith_of_not_sameVersions {a b : Psbt}
    (h : ¬Global.SameVersions a.global b.global) : (a.combineWith b).IsErr :=
  (Result.isErr_mapErr (Global.combine_of_not_sameVersions h)).bind

/-- The first inconsistent xpub decides how a combination fails. -/
theorem combineWith_of_firstInconsistent {a b : Psbt} {x : Xpub} {s t : KeySource}
    (hv : Global.SameVersions a.global b.global)
    (h : Global.FirstInconsistent a.global b.global x s t) :
    a.combineWith b =
      if t.2.length < s.2.length then .panicked
      else .err (.global (.inconsistentKeySources x)) := by
  unfold combineWith
  rw [Global.combine_of_sameVersions hv, Global.combineXpubs_of_firstInconsistent h]
  split <;> rfl

/-- PSBTs that agree have equal combinations in both orders. -/
theorem merge_comm_iff {a b : Psbt} {m m' : BTreeMap Xpub KeySource}
    (hv : Global.SameVersions a.global b.global)
    (hm : Global.combineXpubs a.global b.global = .ok m)
    (hm' : Global.combineXpubs b.global a.global = .ok m')
    (hin : SameInputs a b) (hout : SameOutputs a b) :
    a.merge b m = b.merge a m' ↔ Agree a b := by
  have hglobal := Global.merge_comm_iff hv hm hm'
  have hinputs : ∀ hlen : a.inputs.length = b.inputs.length,
      a.mergedInputs b = b.mergedInputs a ↔ Zipped Input.Agree a.inputs b.inputs := by
    intro hlen
    rw [mergedInputs, mergedInputs, zipMerge_comm_iff hlen]
    exact forall_congr' fun i => forall₂_congr fun x y => forall₂_congr fun hx hy =>
      Input.merge_comm_iff (hin i x y hx hy)
  have houtputs : ∀ hlen : a.outputs.length = b.outputs.length,
      a.mergedOutputs b = b.mergedOutputs a ↔ Zipped Output.Agree a.outputs b.outputs := by
    intro hlen
    rw [mergedOutputs, mergedOutputs, zipMerge_comm_iff hlen]
    exact forall_congr' fun i => forall₂_congr fun x y => forall₂_congr fun hx hy =>
      Output.merge_comm_iff (hout i x y hx hy)
  simp only [merge, Psbt.mk.injEq, hglobal]
  constructor
  · rintro ⟨hg, hi, ho⟩
    have hilen : a.inputs.length = b.inputs.length := by
      simpa [mergedInputs] using congrArg List.length hi
    have holen : a.outputs.length = b.outputs.length := by
      simpa [mergedOutputs] using congrArg List.length ho
    exact ⟨hg, hilen, (hinputs hilen).mp hi, holen, (houtputs holen).mp ho⟩
  · rintro ⟨hg, hilen, hi, holen, ho⟩
    exact ⟨hg, (hinputs hilen).mpr hi, (houtputs holen).mpr ho⟩

/-- With the checks before the lock time passed, the orders commute exactly if
both find a lock time conflict or the PSBTs agree. -/
theorem combineCommutes_of_checks {a b : Psbt}
    (hv : Global.SameVersions a.global b.global)
    (hxpubs : Global.XpubsConsistent a.global b.global)
    (hin : SameInputs a b) (hout : SameOutputs a b) :
    CombineCommutes a b ↔ (MergedConflict a b ∧ MergedConflict b a) ∨ Agree a b := by
  have hokab : (∃ c, a.combineWith b = .ok c) ↔ ¬MergedConflict a b := by
    simp [combineWith_isOk, hv, hxpubs, hin, hout]
  have hokba : (∃ c, b.combineWith a = .ok c) ↔ ¬MergedConflict b a := by
    simp [combineWith_isOk, hv.symm, hxpubs.symm, hin.symm, hout.symm]
  obtain ⟨m, hm⟩ := Global.combineXpubs_isOk.mpr hxpubs
  obtain ⟨m', hm'⟩ := Global.combineXpubs_isOk.mpr hxpubs.symm
  have hcomm := merge_comm_iff hv hm hm' hin hout
  have hvalue : ∀ c, a.combineWith b = .ok c → c = a.merge b m := by
    intro c hc
    obtain ⟨xpubs, hx, -, -, -, -, rfl⟩ := combineWith_eq_ok.mp hc
    rw [Except.ok.inj (hx.symm.trans hm)]
  have hvalue' : ∀ c, b.combineWith a = .ok c → c = b.merge a m' := by
    intro c hc
    obtain ⟨xpubs, hx, -, -, -, -, rfl⟩ := combineWith_eq_ok.mp hc
    rw [Except.ok.inj (hx.symm.trans hm')]
  unfold CombineCommutes
  rw [(returns_combineWith hxpubs).isErr_iff, (returns_combineWith hxpubs.symm).isErr_iff,
    hokab, hokba, not_not, not_not]
  constructor
  · rintro (⟨c, hc, hc'⟩ | hconflict)
    · exact Or.inr (hcomm.mp ((hvalue c hc).symm.trans (hvalue' c hc')))
    · exact Or.inl hconflict
  · rintro (hconflict | hagree)
    · exact Or.inr hconflict
    · have heq := hcomm.mpr hagree
      have hsame : MergedConflict a b ↔ MergedConflict b a := by
        have hinputs : a.mergedInputs b = b.mergedInputs a := congrArg Psbt.inputs heq
        rw [← lockTimeConflict_mergedInputs_iff, ← lockTimeConflict_mergedInputs_iff, hinputs]
      by_cases hconflict : MergedConflict a b
      · exact Or.inr ⟨hconflict, hsame.mp hconflict⟩
      · obtain ⟨c, hc⟩ := hokab.mpr hconflict
        obtain ⟨c', hc'⟩ := hokba.mpr fun h => hconflict (hsame.mpr h)
        refine Or.inl ⟨c, hc, ?_⟩
        rw [hc', hvalue c hc, hvalue' c' hc', heq]

/-- Combining commutes exactly under the condition. -/
theorem combineWith_comm_iff (a b : Psbt) : CombineCommutes a b ↔ CommuteCondition a b := by
  by_cases hv : Global.SameVersions a.global b.global
  · by_cases hxpubs : Global.XpubsConsistent a.global b.global
    · have hchecked : ∀ hx : CommuteCondition a b, SameInputs a b → SameOutputs a b →
          (MergedConflict a b ∧ MergedConflict b a) ∨ Agree a b := by
        intro hcond hin hout
        cases hcond with
        | versions h => exact absurd hv h
        | xpubs hfirst _ =>
            exact absurd (hxpubs _ _ _ hfirst.left hfirst.right) hfirst.inconsistent
        | inputs _ h => exact absurd hin h
        | outputs _ h => exact absurd hout h
        | lockTimes _ h h' => exact Or.inl ⟨h, h'⟩
        | agree _ h => exact Or.inr h
      by_cases hin : SameInputs a b
      · by_cases hout : SameOutputs a b
        · rw [combineCommutes_of_checks hv hxpubs hin hout]
          constructor
          · rintro (⟨h, h'⟩ | h)
            · exact .lockTimes hxpubs h h'
            · exact .agree hxpubs h
          · exact fun h => hchecked h hin hout
        · refine ⟨fun _ => .outputs hxpubs hout, fun _ => Or.inr ?_⟩
          rw [(returns_combineWith hxpubs).isErr_iff,
            (returns_combineWith hxpubs.symm).isErr_iff, combineWith_isOk, combineWith_isOk]
          exact ⟨fun h => hout h.2.2.2.1, fun h => hout h.2.2.2.1.symm⟩
      · refine ⟨fun _ => .inputs hxpubs hin, fun _ => Or.inr ?_⟩
        rw [(returns_combineWith hxpubs).isErr_iff,
          (returns_combineWith hxpubs.symm).isErr_iff, combineWith_isOk, combineWith_isOk]
        exact ⟨fun h => hin h.2.2.1, fun h => hin h.2.2.1.symm⟩
    · obtain ⟨x, s, t, hfirst⟩ := Global.exists_firstInconsistent hxpubs
      have hab := combineWith_of_firstInconsistent hv hfirst
      have hba := combineWith_of_firstInconsistent hv.symm hfirst.symm
      constructor
      · rintro (⟨c, hc, -⟩ | ⟨⟨e, he⟩, e', he'⟩)
        · rw [hab] at hc
          split at hc <;> cases hc
        · refine .xpubs hfirst ?_
          rw [hab] at he
          rw [hba] at he'
          split at he
          · cases he
          · split at he'
            · cases he'
            · omega
      · intro hcond
        cases hcond with
        | versions h => exact absurd hv h
        | xpubs hfirst' hlength =>
            obtain ⟨rfl, rfl⟩ := hfirst.unique hfirst'
            rw [hlength, if_neg (lt_irrefl _)] at hab
            rw [hlength, if_neg (lt_irrefl _)] at hba
            exact Or.inr ⟨⟨_, hab⟩, ⟨_, hba⟩⟩
        | inputs h _ => exact absurd h hxpubs
        | outputs h _ => exact absurd h hxpubs
        | lockTimes h _ _ => exact absurd h hxpubs
        | agree h _ => exact absurd h hxpubs
  · refine ⟨fun _ => .versions hv, fun _ => Or.inr ⟨combineWith_of_not_sameVersions hv, ?_⟩⟩
    exact combineWith_of_not_sameVersions fun h => hv h.symm

end Psbt

end

/-! ## Reference runs -/

namespace Psbt

attribute [local instance] Reference.types

/-- The unsigned PSBT whose constructor may still add inputs. -/
def modifiable : Psbt :=
  { Reference.unsigned with
    global := { Reference.unsigned.global with txModifiableFlags := ⟨1⟩ } }

/-- The modification flags are those of the left PSBT. -/
theorem combineWith_not_comm : ¬∀ a b : Psbt, CombineCommutes a b := by
  intro h
  rcases h Reference.unsigned modifiable with ⟨c, hc, hc'⟩ | ⟨⟨e, he⟩, -⟩
  · cases hc
    cases hc'
  · cases he

end Psbt

end RustPsbt
