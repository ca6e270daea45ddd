import RustPsbt.LockTime
import RustPsbt.Library.ZipMerge

/-!
# When PSBTs combine, and to what

Main results:

- Theorem `Global.combineXpubs_isOk`: the xpubs merge exactly when common xpubs
  have consistent key sources.
- Theorem `Psbt.combineWith_eq_ok`: the guards of the Combiner and its result.
-/

namespace RustPsbt

variable [BitcoinTypes]

/-! ## Global maps -/

namespace Global

/-- One derivation path is a suffix of the other. -/
def SourcesConsistent (s t : KeySource) : Prop :=
  s.2 <:+ t.2 ∨ t.2 <:+ s.2

/-- Every common xpub has consistent key sources. -/
def XpubsConsistent (self other : Global) : Prop :=
  ∀ (x : Xpub) (s t : KeySource), self.xpubs[x]? = some s → other.xpubs[x]? = some t →
    SourcesConsistent s t

omit [BitcoinTypes] in
theorem SourcesConsistent.symm {s t : KeySource} (h : SourcesConsistent s t) :
    SourcesConsistent t s :=
  Or.symm h

theorem XpubsConsistent.symm {self other : Global} (h : XpubsConsistent self other) :
    XpubsConsistent other self :=
  fun x s t hs ht => (h x t s ht hs).symm

/-- Key sources resolve exactly when they are consistent. -/
theorem resolveKeySource_isOk {x : Xpub} {old new : KeySource} :
    (∃ v, resolveKeySource x old new = .ok v) ↔ SourcesConsistent old new := by
  unfold resolveKeySource SourcesConsistent
  by_cases hlt : new.2.length < old.2.length
  · have hnot : ¬old.2 <:+ new.2 := fun h => absurd h.length_le (not_le.mpr hlt)
    by_cases hsuf : new.2 <:+ old.2
    · simp [hlt, hsuf]
    · simp [hlt, hsuf, hnot]
  · by_cases hsuf : old.2 <:+ new.2
    · simp [hlt, hsuf]
    · have hnot : ¬new.2 <:+ old.2 := by
        intro h
        have hlen : new.2.length = old.2.length := le_antisymm h.length_le (not_lt.mp hlt)
        exact hsuf (h.eq_of_length hlen ▸ List.suffix_refl _)
      simp [hlt, hsuf, hnot]

/-- Inconsistent key sources fail by the lengths of their derivation paths. -/
theorem resolveKeySource_of_inconsistent {x : Xpub} {old new : KeySource}
    (h : ¬SourcesConsistent old new) :
    resolveKeySource x old new =
      if new.2.length < old.2.length then .panicked
      else .err (.inconsistentKeySources x) := by
  unfold SourcesConsistent at h
  rw [not_or] at h
  simp [resolveKeySource, h.1, h.2]

/-- The loop of `Global::combine` over the xpubs. -/
def combineXpubs (self other : Global) : Result CombineError (BTreeMap Xpub KeySource) :=
  other.xpubs.toList.foldlM combineXpub self.xpubs

/-- How the entry of an xpub fails. -/
theorem entryFault_eq_none_iff {self other : Global} :
    (∀ entry ∈ other.xpubs.toList,
        BTreeMap.entryFault resolveKeySource self.xpubs entry = none) ↔
      XpubsConsistent self other := by
  simp only [BTreeMap.entryFault_eq_none, resolveKeySource_isOk]
  constructor
  · intro h x s t hs ht
    exact h (x, t) (Std.ExtTreeMap.mem_toList_iff_getElem?_eq_some.mpr ht) s hs
  · rintro h ⟨x, t⟩ hmem s hs
    exact h x s t hs (Std.ExtTreeMap.mem_toList_iff_getElem?_eq_some.mp hmem)

/-- The xpubs merge exactly when common xpubs have consistent key sources. -/
theorem combineXpubs_isOk {self other : Global} :
    (∃ xpubs, combineXpubs self other = .ok xpubs) ↔ XpubsConsistent self other := by
  unfold combineXpubs
  rw [combineXpubs_eq, BTreeMap.foldlM_mergeStep_isOk (BTreeMap.distinctKeys_toList _)]
  exact entryFault_eq_none_iff

/-- The merged xpubs at one xpub. -/
theorem combineXpubs_getElem? {self other : Global} {xpubs : BTreeMap Xpub KeySource}
    (h : combineXpubs self other = .ok xpubs) (x : Xpub) :
    (other.xpubs[x]? = none → xpubs[x]? = self.xpubs[x]?) ∧
      (∀ t, other.xpubs[x]? = some t → self.xpubs[x]? = none → xpubs[x]? = some t) ∧
      ∀ s t, other.xpubs[x]? = some t → self.xpubs[x]? = some s →
        ∃ v, resolveKeySource x s t = .ok v ∧ xpubs[x]? = some v := by
  unfold combineXpubs at h
  rw [combineXpubs_eq] at h
  refine ⟨?_, ?_, ?_⟩
  · intro hnone
    refine BTreeMap.foldlM_mergeStep_getElem?_of_notMem h ?_
    rintro ⟨y, t⟩ hmem rfl
    rw [Std.ExtTreeMap.mem_toList_iff_getElem?_eq_some, hnone] at hmem
    cases hmem
  · intro t ht
    exact (BTreeMap.foldlM_mergeStep_getElem?_of_mem (BTreeMap.distinctKeys_toList _) h
      (Std.ExtTreeMap.mem_toList_iff_getElem?_eq_some.mpr ht)).1
  · intro s t ht
    exact (BTreeMap.foldlM_mergeStep_getElem?_of_mem (BTreeMap.distinctKeys_toList _) h
      (Std.ExtTreeMap.mem_toList_iff_getElem?_eq_some.mpr ht)).2 s

/-- The keys of both xpub maps are keys of the merged one. -/
theorem combineXpubs_keys {self other : Global} {xpubs : BTreeMap Xpub KeySource}
    (h : combineXpubs self other = .ok xpubs) :
    BTreeMap.KeysSubset self.xpubs xpubs ∧ BTreeMap.KeysSubset other.xpubs xpubs := by
  constructor
  all_goals
    intro x hx
    obtain ⟨hnone, hvacant, hboth⟩ := combineXpubs_getElem? h x
    cases ho : other.xpubs[x]? with
    | none =>
        first
        | rw [hnone ho]; exact hx
        | simp [ho] at hx
    | some t =>
        cases hs : self.xpubs[x]? with
        | none => simp [hvacant t ho hs]
        | some s =>
            obtain ⟨v, -, hv⟩ := hboth s t ho hs
            simp [hv]

/-- The global map the Combiner returns around merged xpubs. -/
def merge (self other : Global) (xpubs : BTreeMap Xpub KeySource) : Global :=
  { self with
    xpubs := xpubs
    spEcdhShares := self.spEcdhShares.extend other.spEcdhShares
    spDleqProofs := self.spDleqProofs.extend other.spDleqProofs
    proprietaries := self.proprietaries.extend other.proprietaries
    unknowns := self.unknowns.extend other.unknowns }

/-- Both maps are of one PSBT version and one transaction version. -/
def SameVersions (self other : Global) : Prop :=
  self.version = other.version ∧ self.txVersion = other.txVersion

theorem SameVersions.symm {self other : Global} (h : SameVersions self other) :
    SameVersions other self :=
  ⟨h.1.symm, h.2.symm⟩

/-- Past the version checks, combining is merging the xpubs. -/
theorem combine_of_sameVersions {self other : Global} (h : SameVersions self other) :
    self.combine other =
      (combineXpubs self other >>= fun xpubs => .ok (self.merge other xpubs)) := by
  unfold combine
  rw [if_neg (not_not.mpr h.1), if_neg (not_not.mpr h.2)]
  rfl

/-- Maps of different versions do not combine. -/
theorem combine_of_not_sameVersions {self other : Global} (h : ¬SameVersions self other) :
    (self.combine other).IsErr := by
  unfold combine
  by_cases hversion : self.version = other.version
  · have htx : self.txVersion ≠ other.txVersion := fun htx => h ⟨hversion, htx⟩
    simp [hversion, htx, Result.IsErr]
  · simp [hversion, Result.IsErr]

/-- When two global maps combine, and to what. -/
theorem combine_eq_ok {self other c : Global} :
    self.combine other = .ok c ↔
      SameVersions self other ∧
        ∃ xpubs, combineXpubs self other = .ok xpubs ∧ c = self.merge other xpubs := by
  by_cases h : SameVersions self other
  · rw [combine_of_sameVersions h, Result.bind_eq_ok]
    simp [h, eq_comm]
  · obtain ⟨e, he⟩ := combine_of_not_sameVersions h
    simp [he, h]

end Global

/-! ## Whole PSBTs -/

namespace Psbt

omit [BitcoinTypes] in
/-- The loop of a pairwise combination succeeds exactly when every pair combines,
and then returns the pairwise merge. -/
theorem combineZip_eq_ok {ε α : Type} {combine : α → α → Result ε α} {merge : α → α → α}
    {p : α → α → Prop}
    (hspec : ∀ a b c, combine a b = .ok c ↔ p a b ∧ c = merge a b) {l r m : List α} :
    combineZip combine l r = .ok m ↔ Zipped p l r ∧ m = zipMerge merge l r := by
  induction l generalizing r m with
  | nil => cases r <;> simp [combineZip, zipMerge, eq_comm]
  | cons a l ih =>
      cases r with
      | nil => simp [combineZip, zipMerge, eq_comm]
      | cons b r =>
          simp only [combineZip, Result.bind_eq_ok, hspec, ih, zipped_cons, zipMerge,
            Except.ok.injEq]
          constructor
          · rintro ⟨c, ⟨hp, rfl⟩, rest, ⟨hz, rfl⟩, rfl⟩
            exact ⟨⟨hp, hz⟩, rfl⟩
          · rintro ⟨⟨hp, hz⟩, rfl⟩
            exact ⟨_, ⟨hp, rfl⟩, _, ⟨hz, rfl⟩, rfl⟩

omit [BitcoinTypes] in
/-- A pairwise combination of pairs that return returns. -/
theorem returns_combineZip {ε α : Type} {combine : α → α → Result ε α}
    (h : ∀ a b, (combine a b).Returns) (l r : List α) : (combineZip combine l r).Returns := by
  induction l generalizing r with
  | nil => cases r <;> simp [combineZip]
  | cons a l ih =>
      cases r with
      | nil => simp [combineZip]
      | cons b r =>
          exact (h a b).bind fun c _ => (ih r).bind fun rest _ => trivial

/-- Inputs at equal positions spend the same output. -/
def SameInputs (self other : Psbt) : Prop :=
  Zipped (fun a b => a.outPoint = b.outPoint) self.inputs other.inputs

/-- Outputs at equal positions have equal amounts and raw scripts. -/
def SameOutputs (self other : Psbt) : Prop :=
  Zipped (fun a b => a.txOut = b.txOut) self.outputs other.outputs

/-- The inputs of the combination. -/
def mergedInputs (self other : Psbt) : List Input :=
  zipMerge Input.merge self.inputs other.inputs

/-- The outputs of the combination. -/
def mergedOutputs (self other : Psbt) : List Output :=
  zipMerge Output.merge self.outputs other.outputs

/-- The combination around a merged global map. -/
def merge (self other : Psbt) (xpubs : BTreeMap Xpub KeySource) : Psbt where
  global := self.global.merge other.global xpubs
  inputs := self.mergedInputs other
  outputs := self.mergedOutputs other

/-- The last check of the Combiner passes exactly without conflicting
requirements. -/
theorem mapErr_determineLockTime_eq_ok {self : Psbt} :
    (∃ l, (self.determineLockTime).mapErr CombineError.lockTime = .ok l) ↔
      ¬LockTimeConflict self.inputs := by
  rcases determineLockTime_spec self with ⟨hconflict, heq⟩ | ⟨hconflict, l, -, heq⟩
  · simp [heq, hconflict]
  · simp [heq, hconflict]

/-- When two PSBTs combine, and to what. -/
theorem combineWith_eq_ok {self other c : Psbt} :
    self.combineWith other = .ok c ↔
      ∃ xpubs, Global.combineXpubs self.global other.global = .ok xpubs ∧
        Global.SameVersions self.global other.global ∧
        SameInputs self other ∧ SameOutputs self other ∧
        ¬LockTimeConflict (self.mergedInputs other) ∧ c = self.merge other xpubs := by
  simp only [combineWith, Result.bind_eq_ok, Result.mapErr_eq_ok, Global.combine_eq_ok,
    combineZip_eq_ok fun _ _ _ => Input.combine_eq_ok,
    combineZip_eq_ok fun _ _ _ => Output.combine_eq_ok, Except.ok.injEq]
  constructor
  · rintro ⟨g, ⟨hv, xpubs, hx, rfl⟩, ins, ⟨hin, rfl⟩, outs, ⟨hout, rfl⟩, l, hl, rfl⟩
    refine ⟨xpubs, hx, hv, hin, hout, ?_, rfl⟩
    exact mapErr_determineLockTime_eq_ok.mp ⟨l, Result.mapErr_eq_ok.mpr hl⟩
  · rintro ⟨xpubs, hx, hv, hin, hout, hconflict, rfl⟩
    obtain ⟨l, hl⟩ : ∃ l, (self.merge other xpubs).determineLockTime.mapErr
        CombineError.lockTime = .ok l :=
      mapErr_determineLockTime_eq_ok.mpr hconflict
    exact ⟨_, ⟨hv, xpubs, hx, rfl⟩, _, ⟨hin, rfl⟩, _, ⟨hout, rfl⟩, l,
      Result.mapErr_eq_ok.mp hl, rfl⟩

end Psbt

end RustPsbt
