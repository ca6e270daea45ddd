import RustPsbt.Combine.Identity
import RustPsbt.Reference.Psbt

/-!
# What a combination keeps

Main results:

- Theorem `Psbt.combineWith_lossless_iff`: a combination describes the
  transaction of both PSBTs and holds every entry of both exactly when both have
  equally many inputs and outputs, one lock time, one id script per output, and
  no fallback lock time set in the right one only.
-/

namespace RustPsbt

section

variable [BitcoinTypes]

/-- Every entry of the left global map has a place in the right one. -/
structure Global.Covered (a c : Global) : Prop where
  fallbackLockTime : a.fallbackLockTime.isSome → c.fallbackLockTime.isSome
  xpubs : BTreeMap.KeysSubset a.xpubs c.xpubs
  spEcdhShares : BTreeMap.KeysSubset a.spEcdhShares c.spEcdhShares
  spDleqProofs : BTreeMap.KeysSubset a.spDleqProofs c.spDleqProofs
  proprietaries : BTreeMap.KeysSubset a.proprietaries c.proprietaries
  unknowns : BTreeMap.KeysSubset a.unknowns c.unknowns

/-- Every entry of the left input map has a place in the right one. -/
structure Input.Covered (a c : Input) : Prop where
  sequence : a.sequence.isSome → c.sequence.isSome
  minTime : a.minTime.isSome → c.minTime.isSome
  minHeight : a.minHeight.isSome → c.minHeight.isSome
  nonWitnessUtxo : a.nonWitnessUtxo.isSome → c.nonWitnessUtxo.isSome
  witnessUtxo : a.witnessUtxo.isSome → c.witnessUtxo.isSome
  partialSigs : BTreeMap.KeysSubset a.partialSigs c.partialSigs
  sighashType : a.sighashType.isSome → c.sighashType.isSome
  redeemScript : a.redeemScript.isSome → c.redeemScript.isSome
  witnessScript : a.witnessScript.isSome → c.witnessScript.isSome
  bip32Derivations : BTreeMap.KeysSubset a.bip32Derivations c.bip32Derivations
  finalScriptSig : a.finalScriptSig.isSome → c.finalScriptSig.isSome
  finalScriptWitness : a.finalScriptWitness.isSome → c.finalScriptWitness.isSome
  ripemd160Preimages : BTreeMap.KeysSubset a.ripemd160Preimages c.ripemd160Preimages
  sha256Preimages : BTreeMap.KeysSubset a.sha256Preimages c.sha256Preimages
  hash160Preimages : BTreeMap.KeysSubset a.hash160Preimages c.hash160Preimages
  hash256Preimages : BTreeMap.KeysSubset a.hash256Preimages c.hash256Preimages
  tapKeySig : a.tapKeySig.isSome → c.tapKeySig.isSome
  tapScriptSigs : BTreeMap.KeysSubset a.tapScriptSigs c.tapScriptSigs
  tapScripts : BTreeMap.KeysSubset a.tapScripts c.tapScripts
  tapKeyOrigins : BTreeMap.KeysSubset a.tapKeyOrigins c.tapKeyOrigins
  tapInternalKey : a.tapInternalKey.isSome → c.tapInternalKey.isSome
  tapMerkleRoot : a.tapMerkleRoot.isSome → c.tapMerkleRoot.isSome
  spEcdhShares : BTreeMap.KeysSubset a.spEcdhShares c.spEcdhShares
  spDleqProofs : BTreeMap.KeysSubset a.spDleqProofs c.spDleqProofs
  proprietaries : BTreeMap.KeysSubset a.proprietaries c.proprietaries
  unknowns : BTreeMap.KeysSubset a.unknowns c.unknowns

/-- Every entry of the left output map has a place in the right one. -/
structure Output.Covered (a c : Output) : Prop where
  redeemScript : a.redeemScript.isSome → c.redeemScript.isSome
  witnessScript : a.witnessScript.isSome → c.witnessScript.isSome
  bip32Derivations : BTreeMap.KeysSubset a.bip32Derivations c.bip32Derivations
  tapInternalKey : a.tapInternalKey.isSome → c.tapInternalKey.isSome
  tapTree : a.tapTree.isSome → c.tapTree.isSome
  tapKeyOrigins : BTreeMap.KeysSubset a.tapKeyOrigins c.tapKeyOrigins
  spV0Info : a.spV0Info.isSome → c.spV0Info.isSome
  spV0Label : a.spV0Label.isSome → c.spV0Label.isSome
  proprietaries : BTreeMap.KeysSubset a.proprietaries c.proprietaries
  unknowns : BTreeMap.KeysSubset a.unknowns c.unknowns

omit [BitcoinTypes] in
theorem isSome_or_left {α : Type} {a b : Option α} (h : a.isSome) : (a.or b).isSome := by
  simp [h]

omit [BitcoinTypes] in
theorem isSome_or_right {α : Type} {a b : Option α} (h : b.isSome) : (a.or b).isSome := by
  simp [h]

namespace Input

theorem covered_refl (a : Input) : Covered a a := by
  constructor
  all_goals
    first
    | exact fun h => h
    | exact BTreeMap.keysSubset_refl _

/-- A merged input covers its left half. -/
theorem covered_merge_left (a b : Input) : Covered a (a.merge b) := by
  constructor
  all_goals
    first
    | exact isSome_or_left
    | exact BTreeMap.keysSubset_extend_left _ _

/-- A merged input covers its right half. -/
theorem covered_merge_right (a b : Input) : Covered b (a.merge b) := by
  constructor
  all_goals
    first
    | exact isSome_or_right
    | exact BTreeMap.keysSubset_extend_right _ _

end Input

namespace Output

theorem covered_refl (a : Output) : Covered a a := by
  constructor
  all_goals
    first
    | exact fun h => h
    | exact BTreeMap.keysSubset_refl _

/-- A merged output covers its left half. -/
theorem covered_merge_left (a b : Output) : Covered a (a.merge b) := by
  constructor
  all_goals
    first
    | exact isSome_or_left
    | exact BTreeMap.keysSubset_extend_left _ _

/-- A merged output covers its right half. -/
theorem covered_merge_right (a b : Output) : Covered b (a.merge b) := by
  constructor
  all_goals
    first
    | exact isSome_or_right
    | exact BTreeMap.keysSubset_extend_right _ _

end Output

namespace Global

/-- A merged global map covers its left half. -/
theorem covered_merge_left {a b : Global} {xpubs : BTreeMap Xpub KeySource}
    (h : combineXpubs a b = .ok xpubs) : Covered a (a.merge b xpubs) where
  fallbackLockTime h := h
  xpubs := (combineXpubs_keys h).1
  spEcdhShares := BTreeMap.keysSubset_extend_left _ _
  spDleqProofs := BTreeMap.keysSubset_extend_left _ _
  proprietaries := BTreeMap.keysSubset_extend_left _ _
  unknowns := BTreeMap.keysSubset_extend_left _ _

/-- A merged global map covers its right half exactly if the fallback lock time,
which is not merged, is covered. -/
theorem covered_merge_right_iff {a b : Global} {xpubs : BTreeMap Xpub KeySource}
    (h : combineXpubs a b = .ok xpubs) :
    Covered b (a.merge b xpubs) ↔
      (b.fallbackLockTime.isSome → a.fallbackLockTime.isSome) := by
  constructor
  · exact fun hcov => hcov.fallbackLockTime
  · intro hfallback
    exact {
      fallbackLockTime := hfallback
      xpubs := (combineXpubs_keys h).2
      spEcdhShares := BTreeMap.keysSubset_extend_right _ _
      spDleqProofs := BTreeMap.keysSubset_extend_right _ _
      proprietaries := BTreeMap.keysSubset_extend_right _ _
      unknowns := BTreeMap.keysSubset_extend_right _ _ }

end Global

namespace Psbt

/-- Every entry of every map of the left PSBT has a place in the map of the right
one at the same position. -/
structure Covered (a c : Psbt) : Prop where
  global : a.global.Covered c.global
  inputs : ∀ (i : Nat) (x : Input), a.inputs[i]? = some x →
    ∃ y, c.inputs[i]? = some y ∧ x.Covered y
  outputs : ∀ (j : Nat) (x : Output), a.outputs[j]? = some x →
    ∃ y, c.outputs[j]? = some y ∧ x.Covered y

/-- Both PSBTs describe one transaction. -/
structure SameTransaction [TxidHash] (a b : Psbt) : Prop where
  inputs : a.inputs.length = b.inputs.length
  outputs : a.outputs.length = b.outputs.length
  id : a.id = b.id

/-- The inputs and outputs on which a combination loses nothing of the right PSBT
and mixes no two transactions. -/
structure LosslessCondition (a b : Psbt) : Prop where
  inputs : a.inputs.length = b.inputs.length
  outputs : a.outputs.length = b.outputs.length
  lockTime : a.determineLockTime = b.determineLockTime
  idScripts : ¬LockTimeConflict a.inputs →
    a.outputs.map Output.idTxOut = b.outputs.map Output.idTxOut
  fallbackLockTime : b.global.fallbackLockTime.isSome → a.global.fallbackLockTime.isSome

omit [BitcoinTypes] in
/-- A pairwise merge covers the left list. -/
theorem zipMerge_covers_left {α : Type} {covered : α → α → Prop} {merge : α → α → α}
    (hrefl : ∀ a, covered a a) (hleft : ∀ a b, covered a (merge a b))
    {l r : List α} {i : Nat} {a : α} (ha : l[i]? = some a) :
    ∃ c, (zipMerge merge l r)[i]? = some c ∧ covered a c := by
  rw [getElem?_zipMerge, ha]
  cases hb : r[i]? with
  | none => exact ⟨a, rfl, hrefl a⟩
  | some b => exact ⟨merge a b, rfl, hleft a b⟩

omit [BitcoinTypes] in
/-- A pairwise merge covers a right list that is not longer. -/
theorem zipMerge_covers_right {α : Type} {covered : α → α → Prop} {merge : α → α → α}
    (hright : ∀ a b, covered b (merge a b)) {l r : List α} (hlen : r.length ≤ l.length)
    {i : Nat} {b : α} (hb : r[i]? = some b) :
    ∃ c, (zipMerge merge l r)[i]? = some c ∧ covered b c := by
  have hi : i < l.length := by
    have := (List.getElem?_eq_some_iff.mp hb).1
    omega
  exact ⟨_, getElem?_zipMerge_of_some (List.getElem?_eq_getElem hi) hb, hright _ _⟩

/-- A combination covers its left half. -/
theorem covered_merge_left {a b : Psbt} {xpubs : BTreeMap Xpub KeySource}
    (h : Global.combineXpubs a.global b.global = .ok xpubs) : Covered a (a.merge b xpubs) where
  global := Global.covered_merge_left h
  inputs _ _ := zipMerge_covers_left Input.covered_refl Input.covered_merge_left
  outputs _ _ := zipMerge_covers_left Output.covered_refl Output.covered_merge_left

/-- A combination covers its right half if that is not longer and the fallback
lock time is covered. -/
theorem covered_merge_right {a b : Psbt} {xpubs : BTreeMap Xpub KeySource}
    (h : Global.combineXpubs a.global b.global = .ok xpubs)
    (hinputs : b.inputs.length ≤ a.inputs.length)
    (houtputs : b.outputs.length ≤ a.outputs.length)
    (hfallback : b.global.fallbackLockTime.isSome → a.global.fallbackLockTime.isSome) :
    Covered b (a.merge b xpubs) where
  global := (Global.covered_merge_right_iff h).mpr hfallback
  inputs _ _ := zipMerge_covers_right Input.covered_merge_right hinputs
  outputs _ _ := zipMerge_covers_right Output.covered_merge_right houtputs

/-- A combination is of one transaction and holds every entry of both PSBTs
exactly under the condition. -/
theorem combineWith_lossless_iff [TxidHash] {a b c : Psbt}
    (hinj : TxidInjectiveOn (idTxs a b)) (hok : a.combineWith b = .ok c) :
    (SameTransaction a b ∧ Covered a c ∧ Covered b c) ↔ LosslessCondition a b := by
  obtain ⟨xpubs, hxpubs, hversions, hin, hout, -, rfl⟩ := combineWith_eq_ok.mp hok
  constructor
  · rintro ⟨hsame, -, hcovered⟩
    obtain ⟨hlock, hrest⟩ := idTx_eq_iff.mp ((id_eq_iff hinj).mp hsame.id)
    exact {
      inputs := hsame.inputs
      outputs := hsame.outputs
      lockTime := hlock
      idScripts := fun hconflict => (hrest hconflict).2.2
      fallbackLockTime := (Global.covered_merge_right_iff hxpubs).mp hcovered.global }
  · intro hcond
    have hid : a.idTx = b.idTx := by
      refine idTx_eq_iff.mpr ⟨hcond.lockTime, fun hconflict => ?_⟩
      exact ⟨hversions.2, (zipped_eq_iff_map_eq hcond.inputs).mp hin, hcond.idScripts hconflict⟩
    refine ⟨⟨hcond.inputs, hcond.outputs, id_eq_of_idTx_eq hid⟩, covered_merge_left hxpubs, ?_⟩
    exact covered_merge_right hxpubs hcond.inputs.ge hcond.outputs.ge hcond.fallbackLockTime

end Psbt

end

/-! ## Reference runs -/

namespace Psbt

attribute [local instance] Reference.types Reference.txidHash

/-- The unsigned PSBT with an explicit fallback lock time, which is the default. -/
def withFallback : Psbt :=
  { Reference.unsigned with
    global := { Reference.unsigned.global with fallbackLockTime := some .zero } }

theorem combineWith_lossless_signed :
    ∃ c, Reference.unsigned.combineWith Reference.signed = .ok c ∧
      (SameTransaction Reference.unsigned Reference.signed ∧
          Covered Reference.unsigned c ∧ Covered Reference.signed c ↔
        LosslessCondition Reference.unsigned Reference.signed) := by
  refine ⟨_, rfl, ?_⟩
  exact combineWith_lossless_iff (txidInjectiveOn_of_idTx_eq rfl) rfl

/-- A fallback lock time set in the right PSBT only is lost without an error. -/
theorem combineWith_loses_fallback :
    ¬∀ a b c : Psbt, a.combineWith b = .ok c →
      SameTransaction a b ∧ Covered a c ∧ Covered b c := by
  intro h
  obtain ⟨-, -, hcovered⟩ := h Reference.unsigned withFallback _ rfl
  have hset := hcovered.global.fallbackLockTime rfl
  cases hset

end Psbt

end RustPsbt
