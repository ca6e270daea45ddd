import RustPsbt.Combine.Commute
import RustPsbt.Combine.Semigroup
import RustPsbt.Library.Convergence

/-!
# Merging many copies

Parties merge their copies of a PSBT two by two, in whatever order the copies arrive, and a
copy may arrive more than once.  Copies that hold equal values wherever they hold one lead
to one PSBT, except that its modification flags and its fallback lock time are those of the
copy that was merged first.

Main results:

- Theorem `Psbt.joinLaws`: on compatible copies the Combiner computes a join.
- Theorem `Psbt.merges_converge`: all merges of the same copies have one result, and they
  succeed when the copies require the same lock times.
-/

namespace RustPsbt

/-! ## Agreement with a merge -/

theorem OptionAgree.or {α : Type} {a b c : Option α} (hac : OptionAgree a c)
    (hbc : OptionAgree b c) : OptionAgree (a.or b) c := by
  cases a with
  | none => simpa using hbc
  | some x => simpa using hac

namespace BTreeMap

variable {K V : Type} [OrdKey K]

theorem Agree.symm {a b : BTreeMap K V} (h : Agree a b) : Agree b a :=
  fun k => (h k).symm

theorem Agree.extend {a b c : BTreeMap K V} (hac : Agree a c) (hbc : Agree b c) :
    Agree (a.extend b) c := by
  intro k
  rw [getElem?_extend]
  exact (hbc k).or (hac k)

end BTreeMap

/-- What holds between a third list and both halves of a merge holds of the merge. -/
theorem Zipped.zipMerge {α β γ : Type} {merge : α → β → α} {p r : α → γ → Prop}
    {q : β → γ → Prop} {l : List α} {m : List β} {n : List γ} (hp : Zipped p l n)
    (hq : Zipped q m n) (hlen : l.length = m.length)
    (hmerge : ∀ {a b c}, p a c → q b c → r (merge a b) c) : Zipped r (zipMerge merge l m) n := by
  intro i x c hx hc
  rw [getElem?_zipMerge] at hx
  obtain ⟨a, ha, rfl⟩ := Option.map_eq_some_iff.mp hx
  have hlt : i < m.length := hlen ▸ (List.getElem?_eq_some_iff.mp ha).1
  rw [List.getElem?_eq_getElem hlt]
  exact hmerge (hp i a c ha hc) (hq i m[i] c (List.getElem?_eq_getElem hlt) hc)

section Generic

variable [BitcoinTypes]

namespace Input

theorem Agree.symm {a b : Input} (h : Agree a b) : Agree b a where
  sequence := h.sequence.symm
  minTime := h.minTime.symm
  minHeight := h.minHeight.symm
  nonWitnessUtxo := h.nonWitnessUtxo.symm
  witnessUtxo := h.witnessUtxo.symm
  partialSigs := h.partialSigs.symm
  sighashType := h.sighashType.symm
  redeemScript := h.redeemScript.symm
  witnessScript := h.witnessScript.symm
  bip32Derivations := h.bip32Derivations.symm
  finalScriptSig := h.finalScriptSig.symm
  finalScriptWitness := h.finalScriptWitness.symm
  ripemd160Preimages := h.ripemd160Preimages.symm
  sha256Preimages := h.sha256Preimages.symm
  hash160Preimages := h.hash160Preimages.symm
  hash256Preimages := h.hash256Preimages.symm
  tapKeySig := h.tapKeySig.symm
  tapScriptSigs := h.tapScriptSigs.symm
  tapScripts := h.tapScripts.symm
  tapKeyOrigins := h.tapKeyOrigins.symm
  tapInternalKey := h.tapInternalKey.symm
  tapMerkleRoot := h.tapMerkleRoot.symm
  spEcdhShares := h.spEcdhShares.symm
  spDleqProofs := h.spDleqProofs.symm
  proprietaries := h.proprietaries.symm
  unknowns := h.unknowns.symm

/-- An input that agrees with two inputs agrees with their merge. -/
theorem Agree.merge {a b c : Input} (hac : Agree a c) (hbc : Agree b c) :
    Agree (a.merge b) c where
  sequence := hac.sequence.or hbc.sequence
  minTime := hac.minTime.or hbc.minTime
  minHeight := hac.minHeight.or hbc.minHeight
  nonWitnessUtxo := hac.nonWitnessUtxo.or hbc.nonWitnessUtxo
  witnessUtxo := hac.witnessUtxo.or hbc.witnessUtxo
  partialSigs := hac.partialSigs.extend hbc.partialSigs
  sighashType := hac.sighashType.or hbc.sighashType
  redeemScript := hac.redeemScript.or hbc.redeemScript
  witnessScript := hac.witnessScript.or hbc.witnessScript
  bip32Derivations := hac.bip32Derivations.extend hbc.bip32Derivations
  finalScriptSig := hac.finalScriptSig.or hbc.finalScriptSig
  finalScriptWitness := hac.finalScriptWitness.or hbc.finalScriptWitness
  ripemd160Preimages := hac.ripemd160Preimages.extend hbc.ripemd160Preimages
  sha256Preimages := hac.sha256Preimages.extend hbc.sha256Preimages
  hash160Preimages := hac.hash160Preimages.extend hbc.hash160Preimages
  hash256Preimages := hac.hash256Preimages.extend hbc.hash256Preimages
  tapKeySig := hac.tapKeySig.or hbc.tapKeySig
  tapScriptSigs := hac.tapScriptSigs.extend hbc.tapScriptSigs
  tapScripts := hac.tapScripts.extend hbc.tapScripts
  tapKeyOrigins := hac.tapKeyOrigins.extend hbc.tapKeyOrigins
  tapInternalKey := hac.tapInternalKey.or hbc.tapInternalKey
  tapMerkleRoot := hac.tapMerkleRoot.or hbc.tapMerkleRoot
  spEcdhShares := hac.spEcdhShares.extend hbc.spEcdhShares
  spDleqProofs := hac.spDleqProofs.extend hbc.spDleqProofs
  proprietaries := hac.proprietaries.extend hbc.proprietaries
  unknowns := hac.unknowns.extend hbc.unknowns

end Input

namespace Output

theorem Agree.symm {a b : Output} (h : Agree a b) : Agree b a where
  redeemScript := h.redeemScript.symm
  witnessScript := h.witnessScript.symm
  bip32Derivations := h.bip32Derivations.symm
  tapInternalKey := h.tapInternalKey.symm
  tapTree := h.tapTree.symm
  tapKeyOrigins := h.tapKeyOrigins.symm
  spV0Info := h.spV0Info.symm
  spV0Label := h.spV0Label.symm
  proprietaries := h.proprietaries.symm
  unknowns := h.unknowns.symm

theorem Agree.merge {a b c : Output} (hac : Agree a c) (hbc : Agree b c) :
    Agree (a.merge b) c where
  redeemScript := hac.redeemScript.or hbc.redeemScript
  witnessScript := hac.witnessScript.or hbc.witnessScript
  bip32Derivations := hac.bip32Derivations.extend hbc.bip32Derivations
  tapInternalKey := hac.tapInternalKey.or hbc.tapInternalKey
  tapTree := hac.tapTree.or hbc.tapTree
  tapKeyOrigins := hac.tapKeyOrigins.extend hbc.tapKeyOrigins
  spV0Info := hac.spV0Info.or hbc.spV0Info
  spV0Label := hac.spV0Label.or hbc.spV0Label
  proprietaries := hac.proprietaries.extend hbc.proprietaries
  unknowns := hac.unknowns.extend hbc.unknowns

end Output

namespace Global

/-- The merged xpubs; those of `self` where the xpubs are inconsistent. -/
def joinXpubs (self other : Global) : BTreeMap Xpub KeySource :=
  (combineXpubs self other).toOption.getD self.xpubs

theorem combineXpubs_eq_joinXpubs {a b : Global} (h : XpubsConsistent a b) :
    combineXpubs a b = .ok (joinXpubs a b) := by
  obtain ⟨m, hm⟩ := combineXpubs_isOk.mpr h
  rw [joinXpubs, hm]
  rfl

theorem Agree.symm {a b : Global} (h : Agree a b) : Agree b a where
  fallbackLockTime := h.fallbackLockTime.symm
  txModifiableFlags := h.txModifiableFlags.symm
  inputCount := h.inputCount.symm
  outputCount := h.outputCount.symm
  xpubs x s t hs ht heq := (h.xpubs x t s ht hs heq.symm).symm
  spEcdhShares := h.spEcdhShares.symm
  spDleqProofs := h.spDleqProofs.symm
  proprietaries := h.proprietaries.symm
  unknowns := h.unknowns.symm

/-- A merged key source is one of the two. -/
theorem exists_source_of_merge {a b : Global} {m : BTreeMap Xpub KeySource} {x : Xpub}
    {s : KeySource} (hm : combineXpubs a b = .ok m) (hs : (a.merge b m).xpubs[x]? = some s) :
    a.xpubs[x]? = some s ∨ b.xpubs[x]? = some s := by
  have hmerged : Option.merge longerSource a.xpubs[x]? b.xpubs[x]? = some s := by
    rw [← getElem?_combineXpubs hm]
    exact hs
  cases ha : a.xpubs[x]? with
  | none =>
      rw [ha, Option.merge_none_left] at hmerged
      exact .inr hmerged
  | some u =>
      cases hb : b.xpubs[x]? with
      | none =>
          rw [ha, hb, Option.merge_none_right] at hmerged
          exact .inl hmerged
      | some v =>
          rw [ha, hb, Option.merge_some_some] at hmerged
          unfold longerSource at hmerged
          split at hmerged
          · exact .inl hmerged
          · exact .inr hmerged

theorem XpubsConsistent.merge {a b c : Global} {m : BTreeMap Xpub KeySource}
    (hm : combineXpubs a b = .ok m) (hac : XpubsConsistent a c) (hbc : XpubsConsistent b c) :
    XpubsConsistent (a.merge b m) c := by
  intro x s t hs ht
  rcases exists_source_of_merge hm hs with ha | hb
  · exact hac x s t ha ht
  · exact hbc x s t hb ht

theorem Agree.merge {a b c : Global} {m : BTreeMap Xpub KeySource}
    (hm : combineXpubs a b = .ok m) (hac : Agree a c) (hbc : Agree b c) :
    Agree (a.merge b m) c where
  fallbackLockTime := hac.fallbackLockTime
  txModifiableFlags := hac.txModifiableFlags
  inputCount := hac.inputCount
  outputCount := hac.outputCount
  xpubs := by
    intro x s t hs ht heq
    rcases exists_source_of_merge hm hs with ha | hb
    · exact hac.xpubs x s t ha ht heq
    · exact hbc.xpubs x s t hb ht heq
  spEcdhShares := hac.spEcdhShares.extend hbc.spEcdhShares
  spDleqProofs := hac.spDleqProofs.extend hbc.spDleqProofs
  proprietaries := hac.proprietaries.extend hbc.proprietaries
  unknowns := hac.unknowns.extend hbc.unknowns

end Global

namespace Psbt

/-! ## The join of compatible PSBTs -/

/-- Two PSBTs describe one transaction and hold equal values wherever both hold one. -/
structure Compatible (a b : Psbt) : Prop where
  versions : Global.SameVersions a.global b.global
  xpubs : Global.XpubsConsistent a.global b.global
  inputs : SameInputs a b
  outputs : SameOutputs a b
  agree : Agree a b

/-- The combination, without its checks. -/
def join (a b : Psbt) : Psbt :=
  a.merge b (Global.joinXpubs a.global b.global)

theorem Agree.symm {a b : Psbt} (h : Agree a b) : Agree b a where
  global := h.global.symm
  inputCount := h.inputCount.symm
  inputs := Zipped.symm h.inputs fun _ _ hab => hab.symm
  outputCount := h.outputCount.symm
  outputs := Zipped.symm h.outputs fun _ _ hab => hab.symm

theorem Compatible.symm {a b : Psbt} (h : Compatible a b) : Compatible b a where
  versions := h.versions.symm
  xpubs := h.xpubs.symm
  inputs := h.inputs.symm
  outputs := h.outputs.symm
  agree := h.agree.symm

theorem Compatible.join {a b c : Psbt} (hab : Compatible a b) (hac : Compatible a c)
    (hbc : Compatible b c) : Compatible (a.join b) c where
  versions := hac.versions
  xpubs := .merge (Global.combineXpubs_eq_joinXpubs hab.xpubs) hac.xpubs hbc.xpubs
  inputs := Zipped.zipMerge hac.inputs hbc.inputs hab.agree.inputCount fun hp _ => hp
  outputs := Zipped.zipMerge hac.outputs hbc.outputs hab.agree.outputCount fun hp _ => hp
  agree := by
    refine ⟨.merge (Global.combineXpubs_eq_joinXpubs hab.xpubs) hac.agree.global hbc.agree.global,
      ?_, ?_, ?_, ?_⟩
    · exact (length_zipMerge _ _ _).trans hac.agree.inputCount
    · exact Zipped.zipMerge hac.agree.inputs hbc.agree.inputs hab.agree.inputCount
        fun hp hq => hp.merge hq
    · exact (length_zipMerge _ _ _).trans hac.agree.outputCount
    · exact Zipped.zipMerge hac.agree.outputs hbc.agree.outputs hab.agree.outputCount
        fun hp hq => hp.merge hq

theorem join_self (a : Psbt) : a.join a = a := by
  unfold join Global.joinXpubs
  rw [Global.combineXpubs_self]
  exact merge_self a

theorem join_assoc {a b c : Psbt} (hab : Compatible a b) (hac : Compatible a c)
    (hbc : Compatible b c) : (a.join b).join c = a.join (b.join c) := by
  have hmab := Global.combineXpubs_eq_joinXpubs hab.xpubs
  have hmbc := Global.combineXpubs_eq_joinXpubs hbc.xpubs
  have hml := Global.combineXpubs_eq_joinXpubs (hab.join hac hbc).xpubs
  have hmr := Global.combineXpubs_eq_joinXpubs
    (hbc.join hab.symm hac.symm).symm.xpubs
  have hxpubs : Global.joinXpubs (a.join b).global c.global =
      Global.joinXpubs a.global (b.join c).global :=
    Global.combineXpubs_assoc hmab hml hmbc hmr
  have hins : (a.join b).mergedInputs c = a.mergedInputs (b.join c) :=
    zipMerge_assoc Input.merge_assoc hab.agree.inputCount.le c.inputs
  have houts : (a.join b).mergedOutputs c = a.mergedOutputs (b.join c) :=
    zipMerge_assoc Output.merge_assoc hab.agree.outputCount.le c.outputs
  have hglobal : (a.join b).global.merge c.global (Global.joinXpubs (a.join b).global c.global) =
      a.global.merge (b.join c).global (Global.joinXpubs a.global (b.join c).global) := by
    rw [hxpubs]
    simp [join, merge, Global.merge, BTreeMap.extend_assoc]
  change Psbt.mk _ ((a.join b).mergedInputs c) ((a.join b).mergedOutputs c) = _
  rw [hglobal, hins, houts]
  rfl

/-- On compatible PSBTs the combination is a join. -/
theorem joinLaws : JoinLaws join Compatible where
  symm h := h.symm
  closed hab hac hbc := hab.join hac hbc
  self := join_self
  comm h := (merge_comm_iff h.versions (Global.combineXpubs_eq_joinXpubs h.xpubs)
    (Global.combineXpubs_eq_joinXpubs h.xpubs.symm) h.inputs h.outputs).mpr h.agree
  assoc := join_assoc

/-- What combining returns is the join. -/
theorem eq_join_of_combineWith {a b c : Psbt} (h : a.combineWith b = .ok c) : c = a.join b := by
  obtain ⟨m, hm, _, _, _, _, rfl⟩ := combineWith_eq_ok.mp h
  rw [join, Global.joinXpubs, hm]
  rfl

/-! ## Copies of one PSBT -/

/-- The PSBT without its modification flags and its fallback lock time: combining takes
these from the left PSBT. -/
def core (self : Psbt) : Psbt :=
  { self with
    global := { self.global with fallbackLockTime := none, txModifiableFlags := .new } }

theorem core_join (a b : Psbt) : (a.join b).core = a.core.join b.core :=
  rfl

/-- Two copies hold equal values wherever both hold one, except perhaps their modification
flags and their fallback lock times. -/
def Copies (a b : Psbt) : Prop :=
  Compatible a.core b.core

/-- Inputs at equal positions require equal lock times. -/
def SameRequirements (a b : Psbt) : Prop :=
  a.inputs.map (fun i => (i.minTime, i.minHeight)) =
    b.inputs.map fun i => (i.minTime, i.minHeight)

/-- Who is combined with whom. -/
abbrev Merges : Type :=
  MergeTree Psbt

/-- Run the combinations. -/
def Merges.combineAll (t : Merges) : Result CombineError Psbt :=
  t.run combineWith

theorem core_tree (t : Merges) :
    (t.join join).core = (t.map core).join join := by
  induction t with
  | leaf a => rfl
  | node l r ihl ihr =>
      change ((l.join join).join (r.join join)).core = _
      rw [core_join, ihl, ihr]
      rfl

/-- The flags and the fallback lock time of a combination are those of the first copy. -/
theorem join_head (t : Merges) :
    (t.join join).global.txModifiableFlags = t.first.global.txModifiableFlags ∧
      (t.join join).global.fallbackLockTime = t.first.global.fallbackLockTime := by
  induction t with
  | leaf a => exact ⟨rfl, rfl⟩
  | node l r ihl _ => exact ihl

theorem ext_core {a b : Psbt} (hcore : a.core = b.core)
    (hflags : a.global.txModifiableFlags = b.global.txModifiableFlags)
    (hfallback : a.global.fallbackLockTime = b.global.fallbackLockTime) : a = b := by
  obtain ⟨ga, ia, oa⟩ := a
  obtain ⟨gb, ib, ob⟩ := b
  obtain ⟨⟩ := ga
  obtain ⟨⟩ := gb
  simp_all [core]

/-- Whether the requirements conflict depends on the requirements only. -/
theorem lockTimeConflict_congr {is js : List Input}
    (h : is.map (fun i => (i.minTime, i.minHeight)) = js.map fun i => (i.minTime, i.minHeight)) :
    LockTimeConflict is ↔ LockTimeConflict js := by
  have hmem (p : Option Time × Option RequiredHeightLockTime → Prop) :
      (∃ i ∈ is, p (i.minTime, i.minHeight)) ↔ ∃ j ∈ js, p (j.minTime, j.minHeight) := by
    have hlist : (∃ r ∈ is.map fun i => (i.minTime, i.minHeight), p r) ↔
        ∃ r ∈ js.map fun i => (i.minTime, i.minHeight), p r := by rw [h]
    simpa using hlist
  exact and_congr (hmem fun r => r.1.isSome ∧ r.2 = none) (hmem fun r => r.2.isSome ∧ r.1 = none)

/-- A merge of inputs with equal requirements has these requirements. -/
theorem requirements_mergedInputs {a b : Psbt} (h : SameRequirements a b) :
    (a.mergedInputs b).map (fun i => (i.minTime, i.minHeight)) =
      a.inputs.map fun i => (i.minTime, i.minHeight) := by
  apply List.ext_getElem?
  intro k
  have hk := congrArg (fun l => l[k]?) h
  simp only [List.getElem?_map] at hk
  rw [List.getElem?_map, List.getElem?_map, mergedInputs, getElem?_zipMerge]
  cases hx : a.inputs[k]? with
  | none => rfl
  | some x =>
      cases hy : b.inputs[k]? with
      | none => rfl
      | some y =>
          rw [hx, hy, Option.map_some, Option.map_some, Option.some_inj, Prod.mk.injEq] at hk
          simp [Input.merge, hk.1, hk.2]

/-- Copies with equal requirements that do not conflict are combined. -/
theorem combineWith_of_copies {a b : Psbt} (h : Copies a b) (hreq : SameRequirements a b)
    (hlock : ¬LockTimeConflict a.inputs) : a.combineWith b = .ok (a.join b) := by
  refine combineWith_eq_ok.mpr ⟨_, Global.combineXpubs_eq_joinXpubs h.xpubs, h.versions,
    h.inputs, h.outputs, ?_, rfl⟩
  rwa [lockTimeConflict_congr (requirements_mergedInputs hreq)]

theorem compatible_self (a : Psbt) : Compatible a a := by
  have hxpubs : Global.XpubsConsistent a.global a.global :=
    Global.combineXpubs_isOk.mp ⟨_, Global.combineXpubs_self a.global⟩
  have hinputs : SameInputs a a := by
    intro i x y hx hy
    rw [Option.some_inj.mp (hx.symm.trans hy)]
  have houtputs : SameOutputs a a := by
    intro i x y hx hy
    rw [Option.some_inj.mp (hx.symm.trans hy)]
  have hm := Global.combineXpubs_eq_joinXpubs hxpubs
  exact ⟨⟨rfl, rfl⟩, hxpubs, hinputs, houtputs,
    (merge_comm_iff ⟨rfl, rfl⟩ hm hm hinputs houtputs).mp rfl⟩

/-! ## Convergence -/

namespace Merges

/-- Every two leaves are copies of one PSBT. -/
def OfCopies (t : Merges) : Prop :=
  ∀ a ∈ t.leaves, ∀ b ∈ t.leaves, Copies a b

/-- Some of the leaves were merged into the PSBT, and it requires what they require. -/
structure Yields (t : Merges) (x : Psbt) : Prop where
  merged : ∃ s : Merges, x.core = (s.map core).join Psbt.join ∧ ∀ p ∈ s.leaves, p ∈ t.leaves
  requirements : SameRequirements t.first x

variable {t : Merges}

theorem OfCopies.compatible (h : t.OfCopies) :
    ∀ x ∈ (t.map core).leaves, ∀ y ∈ (t.map core).leaves, Compatible x y := by
  simp only [MergeTree.leaves_map, List.mem_map]
  rintro _ ⟨a, ha, rfl⟩ _ ⟨b, hb, rfl⟩
  exact h a ha b hb

theorem mem_leaves_core {s : Merges} (hsub : ∀ p ∈ s.leaves, p ∈ t.leaves) :
    ∀ x ∈ (s.map core).leaves, x ∈ (t.map core).leaves := by
  simp only [MergeTree.leaves_map, List.mem_map]
  rintro _ ⟨p, hp, rfl⟩
  exact ⟨p, hsub p hp, rfl⟩

/-- What copies were merged into are copies. -/
theorem Yields.copies (h : t.OfCopies) {a b : Psbt} (ha : t.Yields a) (hb : t.Yields b) :
    Copies a b := by
  obtain ⟨s, hs, hsub⟩ := ha.merged
  obtain ⟨s', hs', hsub'⟩ := hb.merged
  unfold Copies
  rw [hs, hs']
  exact joinLaws.compat_join_join (S := fun x => x ∈ (t.map core).leaves)
    (fun x y hx hy => h.compatible x hx y hy) (mem_leaves_core hsub) (mem_leaves_core hsub')

theorem Yields.join {a b : Psbt} (ha : t.Yields a) (hb : t.Yields b) : t.Yields (a.join b) where
  merged := by
    obtain ⟨s, hs, hsub⟩ := ha.merged
    obtain ⟨s', hs', hsub'⟩ := hb.merged
    refine ⟨.node s s', ?_, ?_⟩
    · rw [core_join, hs, hs']
      rfl
    · intro p hp
      rcases List.mem_append.mp hp with hp | hp
      · exact hsub p hp
      · exact hsub' p hp
  requirements :=
    ha.requirements.trans
      (requirements_mergedInputs (ha.requirements.symm.trans hb.requirements)).symm

/-- Merges of the same copies return one PSBT, up to what is taken from the first copy. -/
theorem OfCopies.unique (h : t.OfCopies) {t' : Merges} {c c' : Psbt}
    (hsame : ∀ p, p ∈ t'.leaves ↔ p ∈ t.leaves) (hc : t.combineAll = .ok c)
    (hc' : t'.combineAll = .ok c') : c'.core = c.core ∧ (t'.first = t.first → c' = c) := by
  have hjoin : c = MergeTree.join Psbt.join t := MergeTree.run_eq_join eq_join_of_combineWith hc
  have hjoin' : c' = MergeTree.join Psbt.join t' :=
    MergeTree.run_eq_join eq_join_of_combineWith hc'
  have hcore : c'.core = c.core := by
    rw [hjoin, hjoin', core_tree, core_tree]
    apply joinLaws.join_unique h.compatible
    intro x
    simp only [MergeTree.leaves_map, List.mem_map, hsame]
  refine ⟨hcore, fun hfirst => ext_core hcore ?_ ?_⟩
  · rw [hjoin, hjoin', (join_head t).1, (join_head t').1, hfirst]
  · rw [hjoin, hjoin', (join_head t).2, (join_head t').2, hfirst]

/-- Merges of copies with equal requirements succeed. -/
theorem OfCopies.isOk (h : t.OfCopies)
    (hreq : ∀ a ∈ t.leaves, ∀ b ∈ t.leaves, SameRequirements a b)
    (hlock : ∀ a ∈ t.leaves, ∃ l, a.determineLockTime = .ok l) {t' : Merges}
    (hsame : ∀ p, p ∈ t'.leaves ↔ p ∈ t.leaves) : ∃ c, t'.combineAll = .ok c := by
  have hfirst := t.first_mem_leaves
  have hconflict : ¬LockTimeConflict t.first.inputs := by
    obtain ⟨l, hl⟩ := hlock _ hfirst
    exact (determineLockTime_eq_ok.mp hl).1
  have hmerge : ∀ a b, t.Yields a → t.Yields b → a.combineWith b = .ok (a.join b) := by
    intro a b ha hb
    apply combineWith_of_copies (ha.copies h hb) (ha.requirements.symm.trans hb.requirements)
    rwa [← lockTimeConflict_congr ha.requirements]
  have hleaves : ∀ a ∈ t'.leaves, t.Yields a := by
    intro a ha
    have hat := (hsame a).mp ha
    refine ⟨⟨.leaf a, rfl, fun p hp => ?_⟩, hreq _ hfirst a hat⟩
    rw [List.mem_singleton.mp hp]
    exact hat
  exact ⟨_, MergeTree.run_isOk (fun a b ha hb => ha.join hb) hmerge hleaves⟩

end Merges

/-- All copies are merged into one PSBT, in whatever order and grouping and however often a
copy is merged, up to the flags and the fallback lock time of the first copy.  The merges
succeed when the copies require the same lock times and these do not conflict. -/
theorem merges_converge {t : Merges} (hcopies : t.OfCopies) :
    (∀ {t' : Merges} {c c' : Psbt}, (∀ p, p ∈ t'.leaves ↔ p ∈ t.leaves) →
      t.combineAll = .ok c → t'.combineAll = .ok c' →
        c'.core = c.core ∧ (t'.first = t.first → c' = c)) ∧
      ((∀ a ∈ t.leaves, ∀ b ∈ t.leaves, SameRequirements a b) →
        (∀ a ∈ t.leaves, ∃ l, a.determineLockTime = .ok l) →
          ∀ {t' : Merges}, (∀ p, p ∈ t'.leaves ↔ p ∈ t.leaves) → ∃ c, t'.combineAll = .ok c) :=
  ⟨fun hsame => hcopies.unique hsame, fun hreq hlock {_} hsame => hcopies.isOk hreq hlock hsame⟩

end Psbt

end Generic

/-! ## Reference merges -/

namespace Psbt

attribute [local instance] Reference.types

/-- The unsigned copy, the signed one, and the unsigned one again. -/
def mergesSigned : Merges :=
  .node (.leaf Reference.unsigned) (.node (.leaf Reference.signed) (.leaf Reference.unsigned))

theorem copies_signed : Copies Reference.unsigned Reference.signed := by
  have hxpubs : Global.XpubsConsistent Reference.unsigned.core.global
      Reference.signed.core.global := by
    intro x s t hs _
    have hnone : Reference.unsigned.core.global.xpubs[x]? = none := Std.ExtTreeMap.getElem?_empty
    rw [hnone] at hs
    cases hs
  have hinputs : SameInputs Reference.unsigned.core Reference.signed.core :=
    zipped_cons.mpr ⟨rfl, zipped_nil_left⟩
  have houtputs : SameOutputs Reference.unsigned.core Reference.signed.core :=
    zipped_cons.mpr ⟨rfl, zipped_nil_left⟩
  have hversions : Global.SameVersions Reference.unsigned.core.global
      Reference.signed.core.global := ⟨rfl, rfl⟩
  have hcomm := merge_comm_iff hversions (Global.combineXpubs_eq_joinXpubs hxpubs)
    (Global.combineXpubs_eq_joinXpubs hxpubs.symm) hinputs houtputs
  exact ⟨hversions, hxpubs, hinputs, houtputs, hcomm.mp (by decide +kernel)⟩

theorem merges_converge_signed : ∃ c,
    (MergeTree.node (.leaf Reference.signed) (.leaf Reference.unsigned)).run combineWith = .ok c ∧
      c = Reference.signed := by
  have hleaves : ∀ p ∈ mergesSigned.leaves,
      p = Reference.unsigned ∨ p = Reference.signed := by
    intro p hp
    simp only [mergesSigned, MergeTree.leaves, List.mem_append, List.mem_singleton] at hp
    tauto
  have hcopies : mergesSigned.OfCopies := by
    intro a ha b hb
    rcases hleaves a ha with rfl | rfl <;> rcases hleaves b hb with rfl | rfl
    · exact compatible_self _
    · exact copies_signed
    · exact copies_signed.symm
    · exact compatible_self _
  have hreq : ∀ a ∈ mergesSigned.leaves, ∀ b ∈ mergesSigned.leaves,
      SameRequirements a b := by
    intro a ha b hb
    rcases hleaves a ha with rfl | rfl <;> rcases hleaves b hb with rfl | rfl <;> rfl
  have hlock : ∀ a ∈ mergesSigned.leaves, ∃ l, a.determineLockTime = .ok l := by
    intro a ha
    rcases hleaves a ha with rfl | rfl <;> exact ⟨_, rfl⟩
  have hsame : ∀ p, p ∈ (MergeTree.node (.leaf Reference.signed)
      (.leaf Reference.unsigned)).leaves ↔ p ∈ mergesSigned.leaves := by
    intro p
    simp only [mergesSigned, MergeTree.leaves, List.mem_append, List.mem_singleton]
    tauto
  obtain ⟨c, hc⟩ := (merges_converge hcopies).2 hreq hlock hsame
  exact ⟨c, hc, Except.ok.inj (hc.symm.trans rfl)⟩

end Psbt

end RustPsbt
