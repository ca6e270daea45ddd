import RustPsbt.Map.Key

/-!
# The global map

The global map of a PSBT and how the Combiner merges two of them.

Main results:

- Theorem `Global.combineXpubs_eq`: merging the xpubs is a resolved merge.
-/

namespace RustPsbt

variable [BitcoinTypes]

/-- The global key-value map. -/
structure Global where
  version : Version
  txVersion : TxVersion
  fallbackLockTime : Option LockTime
  txModifiableFlags : TxModifiableFlags
  inputCount : Count
  outputCount : Count
  xpubs : BTreeMap Xpub KeySource
  spEcdhShares : BTreeMap CompressedPublicKey CompressedPublicKey
  spDleqProofs : BTreeMap CompressedPublicKey DleqProof
  proprietaries : BTreeMap ProprietaryKey Bytes
  unknowns : BTreeMap Key Bytes
deriving DecidableEq

namespace Global

/-- `Global::new`. -/
def new : Global where
  version := .two
  txVersion := 2
  fallbackLockTime := none
  txModifiableFlags := .new
  inputCount := 0
  outputCount := 0
  xpubs := {}
  spEcdhShares := {}
  spDleqProofs := {}
  proprietaries := {}
  unknowns := {}

/-- `global::CombineError`. -/
inductive CombineError where
  | versionMismatch (this that : Version)
  | txVersionMismatch (this that : TxVersion)
  | inconsistentKeySources (xpub : Xpub)

/-- One round of the loop of `Global::combine` over the xpubs of `other`. -/
def combineXpub (xpubs : BTreeMap Xpub KeySource) (entry : Xpub × KeySource) :
    Result CombineError (BTreeMap Xpub KeySource) :=
  let (xpub, (fingerprint1, derivation1)) := entry
  match xpubs[xpub]? with
  | none => .ok (xpubs.insert xpub (fingerprint1, derivation1))
  | some (fingerprint2, derivation2) =>
      if (derivation1 = derivation2 ∧ fingerprint1 = fingerprint2) ∨
          (derivation1.length < derivation2.length ∧
            derivation1 = derivation2.drop (derivation2.length - derivation1.length)) then
        .ok xpubs
      -- `derivation1.len() - derivation2.len()` underflows, or the slice starts out of range
      else if derivation1.length < derivation2.length then
        .panicked
      else if derivation2 = derivation1.drop (derivation1.length - derivation2.length) then
        .ok (xpubs.insert xpub (fingerprint1, derivation1))
      else
        .err (.inconsistentKeySources xpub)

/-- `Global::combine`. -/
def combine (self other : Global) : Result CombineError Global := do
  if self.version ≠ other.version then
    .err (.versionMismatch self.version other.version)
  else if self.txVersion ≠ other.txVersion then
    .err (.txVersionMismatch self.txVersion other.txVersion)
  else do
    let xpubs ← other.xpubs.toList.foldlM combineXpub self.xpubs
    .ok { self with
      xpubs := xpubs
      spEcdhShares := self.spEcdhShares.extend other.spEcdhShares
      spDleqProofs := self.spDleqProofs.extend other.spDleqProofs
      proprietaries := self.proprietaries.extend other.proprietaries
      unknowns := self.unknowns.extend other.unknowns }

/-! ## Key sources of one xpub -/

/-- What the loop of `Global::combine` makes of two key sources of one xpub. -/
def resolveKeySource (xpub : Xpub) (old new : KeySource) : Result CombineError KeySource :=
  if new.2.length < old.2.length then
    if new.2 <:+ old.2 then .ok old else .panicked
  else
    if old.2 <:+ new.2 then .ok new else .err (.inconsistentKeySources xpub)

omit [BitcoinTypes] in
/-- A slice taken from the end is the whole list exactly for suffixes. -/
theorem eq_drop_iff_isSuffix {α : Type} {l₁ l₂ : List α} :
    l₁ = l₂.drop (l₂.length - l₁.length) ↔ l₁ <:+ l₂ :=
  List.suffix_iff_eq_drop.symm

/-- The loop body is one step of a resolved merge. -/
theorem combineXpub_eq_mergeStep (xpubs : BTreeMap Xpub KeySource)
    (entry : Xpub × KeySource) :
    combineXpub xpubs entry = BTreeMap.mergeStep resolveKeySource xpubs entry := by
  obtain ⟨xpub, fingerprint1, derivation1⟩ := entry
  unfold combineXpub BTreeMap.mergeStep
  dsimp only
  cases hget : xpubs[xpub]? with
  | none => rfl
  | some old =>
      obtain ⟨fingerprint2, derivation2⟩ := old
      simp only [eq_drop_iff_isSuffix, resolveKeySource]
      by_cases hlt : derivation1.length < derivation2.length
      · have hne : derivation1 ≠ derivation2 := by
          rintro rfl
          exact lt_irrefl _ hlt
        by_cases hsuf : derivation1 <:+ derivation2
        · simp [hlt, hsuf, BTreeMap.insert_self_of_getElem? hget]
        · simp [hlt, hsuf, hne]
      · by_cases hsuf : derivation2 <:+ derivation1
        · by_cases heq : derivation1 = derivation2 ∧ fingerprint1 = fingerprint2
          · obtain ⟨rfl, rfl⟩ := heq
            simp [BTreeMap.insert_self_of_getElem? hget]
          · simp [hlt, hsuf, heq]
        · have hne : derivation1 ≠ derivation2 := by
            rintro rfl
            exact hsuf (List.suffix_refl _)
          simp [hlt, hsuf, hne]

/-- Merging the xpubs of `other` into those of `self` is a resolved merge. -/
theorem combineXpubs_eq (self other : Global) :
    other.xpubs.toList.foldlM combineXpub self.xpubs =
      other.xpubs.toList.foldlM (BTreeMap.mergeStep resolveKeySource) self.xpubs := by
  congr 1
  funext xpubs entry
  exact combineXpub_eq_mergeStep xpubs entry

end Global

end RustPsbt
