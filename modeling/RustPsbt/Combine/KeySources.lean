import RustPsbt.Combine.Commute

/-!
# The rule for key sources

The comment in `Global::combine` states which of two key sources of one xpub is kept,
and which pairs of them are an error.

Main results:

- Theorem `Global.selectKeySource_eq_none`: the pairs that the rule rejects.
- Theorem `Global.mergesXpubsByRule_iff`: the code follows the rule exactly where no two
  fingerprints clash and the first inconsistent xpub does not underflow.
-/

namespace RustPsbt

namespace Global

section

variable [BitcoinTypes]

/-! ## The rule -/

omit [BitcoinTypes] in
/-- The key source that the comment in `Global::combine` selects for a common xpub, or
`none` where it asks for an error. -/
def selectKeySource (old new : KeySource) : Option KeySource :=
  -- 1) if everything is equal we do nothing
  if old = new then some old
  -- 2) derivation paths are equal and fingerprints are not
  else if old.2 = new.2 then none
  -- 2) derivation paths are of the same length, but not equal
  else if old.2.length = new.2.length then none
  -- 2) the shorter one is not the suffix of the longer one; 3) the longest otherwise
  else if old.2.length < new.2.length then
    if old.2 <:+ new.2 then some new else none
  else
    if new.2 <:+ old.2 then some old else none

/-- Combining the maps merges their xpubs by the stated rule. -/
structure MergesXpubsByRule (a b : Global) : Prop where
  returns : (a.combine b).Returns
  neither : ∀ {c : Global}, a.combine b = .ok c → ∀ x : Xpub,
    a.xpubs[x]? = none → b.xpubs[x]? = none → c.xpubs[x]? = none
  left : ∀ {c : Global}, a.combine b = .ok c → ∀ (x : Xpub) (s : KeySource),
    a.xpubs[x]? = some s → b.xpubs[x]? = none → c.xpubs[x]? = some s
  right : ∀ {c : Global}, a.combine b = .ok c → ∀ (x : Xpub) (t : KeySource),
    a.xpubs[x]? = none → b.xpubs[x]? = some t → c.xpubs[x]? = some t
  both : ∀ {c : Global}, a.combine b = .ok c → ∀ (x : Xpub) (s t v : KeySource),
    a.xpubs[x]? = some s → b.xpubs[x]? = some t → selectKeySource s t = some v →
    c.xpubs[x]? = some v
  conflict : ∀ (x : Xpub) (s t : KeySource), a.xpubs[x]? = some s →
    b.xpubs[x]? = some t → selectKeySource s t = none → (a.combine b).IsErr
  succeeds : SameVersions a b →
    (∀ (x : Xpub) (s t : KeySource), a.xpubs[x]? = some s → b.xpubs[x]? = some t →
      selectKeySource s t ≠ none) → ∃ c, a.combine b = .ok c

/-- Common xpubs with equal derivation paths have equal fingerprints. -/
def FingerprintsAgree (self other : Global) : Prop :=
  ∀ (x : Xpub) (s t : KeySource), self.xpubs[x]? = some s → other.xpubs[x]? = some t →
    s.2 = t.2 → s = t

/-- The maps on which the code follows the rule. -/
inductive RuleApplies (self other : Global) : Prop where
  | versions (h : ¬SameVersions self other)
  | consistent (h : XpubsConsistent self other) (hprint : FingerprintsAgree self other)
  | inconsistent {x : Xpub} {s t : KeySource} (h : FirstInconsistent self other x s t)
      (hlen : s.2.length ≤ t.2.length)

/-! ## One xpub -/

omit [BitcoinTypes] in
/-- The rule rejects inconsistent paths, and one path with two fingerprints. -/
theorem selectKeySource_eq_none {s t : KeySource} :
    selectKeySource s t = none ↔ ¬SourcesConsistent s t ∨ (s.2 = t.2 ∧ s ≠ t) := by
  unfold selectKeySource SourcesConsistent
  by_cases heq : s = t
  · simp [heq]
  · by_cases hpath : s.2 = t.2
    · simp [heq, hpath]
    · have hself : ¬(s.2.length = t.2.length ∧ (s.2 <:+ t.2 ∨ t.2 <:+ s.2)) := by
        intro ⟨hlen, hsuf⟩
        rcases hsuf with hsuf | hsuf
        · exact hpath (hsuf.eq_of_length hlen)
        · exact hpath (hsuf.eq_of_length hlen.symm).symm
      by_cases hlen : s.2.length = t.2.length
      · have hnot : ¬(s.2 <:+ t.2 ∨ t.2 <:+ s.2) := fun h => hself ⟨hlen, h⟩
        simp [heq, hpath, hlen, hnot]
      · by_cases hlt : s.2.length < t.2.length
        · have hnot : ¬t.2 <:+ s.2 := fun h => absurd h.length_le (not_le.mpr hlt)
          simp [heq, hpath, hlen, hlt, hnot]
        · have hnot : ¬s.2 <:+ t.2 := by
            intro h
            have hle := h.length_le
            omega
          simp [heq, hpath, hlen, hlt, hnot]

/-- What the rule selects, the code selects. -/
theorem resolveKeySource_of_selectKeySource {x : Xpub} {s t v : KeySource}
    (h : selectKeySource s t = some v) : resolveKeySource x s t = .ok v := by
  unfold selectKeySource at h
  unfold resolveKeySource
  split_ifs at h with heq hpath hlen hlt hsuf hsuf
  · have hv : s = v := Option.some_inj.mp h
    simp [← heq, hv]
  · have hv : t = v := Option.some_inj.mp h
    rw [if_neg (not_lt.mpr hlt.le), if_pos hsuf, hv]
  · have hlt' : t.2.length < s.2.length := by omega
    have hv : s = v := Option.some_inj.mp h
    rw [if_pos hlt', if_pos hsuf, hv]

/-! ## Whole maps -/

/-- The merged xpubs of combined maps are those of the loop. -/
theorem xpubs_of_combine {self other c : Global} (h : self.combine other = .ok c) :
    combineXpubs self other = .ok c.xpubs := by
  obtain ⟨-, xpubs, hx, rfl⟩ := combine_eq_ok.mp h
  exact hx

/-- Consistent maps of the same versions combine. -/
theorem exists_combine_of_consistent {self other : Global} (hv : SameVersions self other)
    (hc : XpubsConsistent self other) : ∃ c, self.combine other = .ok c := by
  obtain ⟨xpubs, hx⟩ := combineXpubs_isOk.mpr hc
  exact ⟨_, combine_eq_ok.mpr ⟨hv, xpubs, hx, rfl⟩⟩

/-- The first inconsistent xpub decides how combining fails. -/
theorem combine_of_firstInconsistent {self other : Global} {x : Xpub} {s t : KeySource}
    (hv : SameVersions self other) (h : FirstInconsistent self other x s t) :
    self.combine other =
      if t.2.length < s.2.length then .panicked else .err (.inconsistentKeySources x) := by
  rw [combine_of_sameVersions hv, combineXpubs_of_firstInconsistent h]
  split <;> rfl

/-- A failing combination has nothing to merge by the rule, but a conflict to report. -/
theorem mergesXpubsByRule_of_isErr {self other : Global} (h : (self.combine other).IsErr)
    (hconflict : SameVersions self other → ∃ (x : Xpub) (s t : KeySource),
      self.xpubs[x]? = some s ∧ other.xpubs[x]? = some t ∧ selectKeySource s t = none) :
    MergesXpubsByRule self other := by
  obtain ⟨e, he⟩ := h
  have hnot : ∀ {c : Global}, self.combine other ≠ .ok c := by
    intro c hc
    rw [he] at hc
    cases hc
  constructor
  case returns => simp [he]
  case neither => exact fun hc => absurd hc hnot
  case left => exact fun hc => absurd hc hnot
  case right => exact fun hc => absurd hc hnot
  case both => exact fun hc => absurd hc hnot
  case conflict => exact fun _ _ _ _ _ _ => ⟨e, he⟩
  case succeeds =>
    intro hv hall
    obtain ⟨x, s, t, hs, ht, hnone⟩ := hconflict hv
    exact absurd hnone (hall x s t hs ht)

/-- Consistent xpubs with agreeing fingerprints merge by the rule. -/
theorem mergesXpubsByRule_of_consistent {self other : Global}
    (hv : SameVersions self other) (h : XpubsConsistent self other)
    (hprint : FingerprintsAgree self other) : MergesXpubsByRule self other := by
  obtain ⟨c, hc⟩ := exists_combine_of_consistent hv h
  have hsome : ∀ (x : Xpub) (s t : KeySource), self.xpubs[x]? = some s →
      other.xpubs[x]? = some t → selectKeySource s t ≠ none := by
    intro x s t hs ht hnone
    rcases selectKeySource_eq_none.mp hnone with hnot | ⟨hpath, hne⟩
    · exact hnot (h x s t hs ht)
    · exact hne (hprint x s t hs ht hpath)
  constructor
  case returns => simp [hc]
  case neither =>
    intro c hc x hs ht
    rw [(combineXpubs_getElem? (xpubs_of_combine hc) x).1 ht, hs]
  case left =>
    intro c hc x s hs ht
    rw [(combineXpubs_getElem? (xpubs_of_combine hc) x).1 ht, hs]
  case right =>
    intro c hc x t hs ht
    exact (combineXpubs_getElem? (xpubs_of_combine hc) x).2.1 t ht hs
  case both =>
    intro c hc x s t v hs ht hv
    obtain ⟨w, hw, hget⟩ := (combineXpubs_getElem? (xpubs_of_combine hc) x).2.2 s t ht hs
    rw [resolveKeySource_of_selectKeySource hv] at hw
    rw [hget, Except.ok.inj hw]
  case conflict => exact fun x s t hs ht hnone => absurd hnone (hsome x s t hs ht)
  case succeeds => exact fun _ _ => ⟨c, hc⟩

/-- Exactly when the xpubs of two maps merge by the stated rule. -/
theorem mergesXpubsByRule_iff (self other : Global) :
    MergesXpubsByRule self other ↔ RuleApplies self other := by
  constructor
  · intro h
    by_cases hv : SameVersions self other
    · by_cases hc : XpubsConsistent self other
      · refine .consistent hc fun x s t hs ht hpath => ?_
        by_contra hne
        obtain ⟨c, hok⟩ := exists_combine_of_consistent hv hc
        obtain ⟨e, he⟩ :=
          h.conflict x s t hs ht (selectKeySource_eq_none.mpr (Or.inr ⟨hpath, hne⟩))
        rw [hok] at he
        cases he
      · obtain ⟨x, s, t, hfirst⟩ := exists_firstInconsistent hc
        refine .inconsistent hfirst (not_lt.mp fun hlt => ?_)
        have hreturns := h.returns
        rw [combine_of_firstInconsistent hv hfirst, if_pos hlt] at hreturns
        exact hreturns
    · exact .versions hv
  · intro h
    by_cases hv : SameVersions self other
    · cases h with
      | versions h => exact absurd hv h
      | consistent h hprint => exact mergesXpubsByRule_of_consistent hv h hprint
      | @inconsistent x s t h hlen =>
          have hfail := combine_of_firstInconsistent hv h
          rw [if_neg (not_lt.mpr hlen)] at hfail
          have hnone : selectKeySource s t = none :=
            selectKeySource_eq_none.mpr (Or.inl h.inconsistent)
          exact mergesXpubsByRule_of_isErr ⟨_, hfail⟩
            fun _ => ⟨x, s, t, h.left, h.right, hnone⟩
    · exact mergesXpubsByRule_of_isErr (combine_of_not_sameVersions hv)
        fun hv' => absurd hv' hv

end

/-! ## Reference runs -/

section

attribute [local instance] Reference.types

/-- The global map of a PSBT that holds one xpub with a key source. -/
def withKeySource (source : KeySource) : Global :=
  { Reference.unsigned.global with xpubs := ({} : BTreeMap _ _).insert Reference.xpub source }

/-- One path with two fingerprints is no error: the second key source is kept. -/
theorem withKeySource_clash :
    ¬∀ self other : Global, MergesXpubsByRule self other := by
  intro h
  let old : KeySource := (⟨[0, 0, 0, 0], rfl⟩, [])
  let new : KeySource := (⟨[0, 0, 0, 1], rfl⟩, [])
  obtain ⟨e, he⟩ := (h (withKeySource old) (withKeySource new)).conflict Reference.xpub old new
    (by decide +kernel) (by decide +kernel) (by decide +kernel)
  have hok : ((withKeySource old).combine (withKeySource new)).toOption ≠ none := by
    decide +kernel
  rw [he] at hok
  exact hok rfl

end

end Global

end RustPsbt
