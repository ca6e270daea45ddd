import RustPsbt.Roles.Apply
import RustPsbt.Roles.Creator
import RustPsbt.Roles.Refinalize

/-!
# Constructing after signing

A Constructor may take over a PSBT that is signed in part, if the flags still allow it.
The flags guard the inputs and the outputs; the lock time that every signature commits
to is determined from all inputs anew.  An input may also be finalized already: then its
signatures stand in its final scripts, and which parts of these are signatures is for an
interpreter of scripts to say.

Main results:

- Theorem `Psbt.AppendsInputs.determineLockTime_eq_iff`: when appended inputs leave the lock
  time as it is.
- Theorems `Psbt.FlagsFitSignatures.of_apply` and `Psbt.FlagsFitSignatures.of_finalize`:
  signing and finalizing keep flags that fit the signatures.
- Theorem `Stage.keepsCommitted_iff`: what the signatures commit to is kept exactly where
  the appended inputs leave the lock time as it is.
-/

namespace RustPsbt

section Generic

variable [BitcoinTypes]

namespace Psbt

/-! ## Appending inputs -/

/-- The appended inputs leave the lock time as it is. -/
inductive KeepsLockTime (p : Psbt) (added : List Input) : Prop where
  /-- They require nothing. -/
  | unconstrained (h : ∀ i ∈ added, ¬i.HasLock)
  /-- They require no more than the inputs that are there. -/
  | within {l : LockTime} (hl : p.LockTimeIs l) (hlock : ∃ i ∈ p.inputs, i.HasLock)
      (h : ∀ i ∈ added, i.HasLock → HasUnit l i ∧ AtLeast l i)
  /-- They happen to require the fallback, a height. -/
  | fallbackHeight {h : RequiredHeightLockTime} (hnone : ∀ i ∈ p.inputs, ¬i.HasLock)
      (hall : ∀ i ∈ added, ¬i.TimeOnly) (hmax : IsGreatest (heights added) h)
      (hfallback : p.global.fallbackLockTime.getD .zero = .blocks h.height)
  /-- They happen to require the fallback, a time. -/
  | fallbackTime {t : Time} (hnone : ∀ i ∈ p.inputs, ¬i.HasLock)
      (htime : ∃ i ∈ added, i.TimeOnly) (hmax : IsGreatest (times added) t)
      (hfallback : p.global.fallbackLockTime.getD .zero = .seconds t)

/-- The right PSBT has these inputs more, and the same fallback. -/
structure AppendsInputs (p : Psbt) (added : List Input) (q : Psbt) : Prop where
  inputs : q.inputs = p.inputs ++ added
  fallbackLockTime : q.global.fallbackLockTime = p.global.fallbackLockTime

namespace AppendsInputs

variable {p q : Psbt} {added : List Input} {l : LockTime}

theorem mem_iff (h : AppendsInputs p added q) {i : Input} :
    i ∈ q.inputs ↔ i ∈ p.inputs ∨ i ∈ added := by
  rw [h.inputs, List.mem_append]

/-- Requirements that do not conflict did not do so before. -/
theorem not_lockTimeConflict (h : AppendsInputs p added q)
    (hq : ¬LockTimeConflict q.inputs) : ¬LockTimeConflict p.inputs := by
  rintro ⟨⟨i, hi, htime⟩, j, hj, hheight⟩
  exact hq ⟨⟨i, h.mem_iff.mpr (.inl hi), htime⟩, j, h.mem_iff.mpr (.inl hj), hheight⟩

/-- Inputs without requirements add none. -/
theorem required_eq {α : Type} {field : Input → Option α}
    (hfield : ∀ i v, field i = some v → i.HasLock) (h : AppendsInputs p added q)
    (hnone : ∀ i ∈ p.inputs, ¬i.HasLock) :
    {v | ∃ i ∈ q.inputs, field i = some v} = {v | ∃ i ∈ added, field i = some v} := by
  ext v
  constructor
  · rintro ⟨i, hi, hv⟩
    rcases h.mem_iff.mp hi with hp | hadded
    · exact absurd (hfield i v hv) (hnone i hp)
    · exact ⟨i, hadded, hv⟩
  · rintro ⟨i, hi, hv⟩
    exact ⟨i, h.mem_iff.mpr (.inr hi), hv⟩

theorem heights_eq (h : AppendsInputs p added q) (hnone : ∀ i ∈ p.inputs, ¬i.HasLock) :
    heights q.inputs = heights added :=
  required_eq (fun _ _ hheight => .inr (by simp [hheight])) h hnone

theorem times_eq (h : AppendsInputs p added q) (hnone : ∀ i ∈ p.inputs, ¬i.HasLock) :
    times q.inputs = times added :=
  required_eq (fun _ _ htime => .inl (by simp [htime])) h hnone

/-- Requirements within those that are there do not move the lock time. -/
theorem lockTimeIs_of_within (h : AppendsInputs p added q) (hl : p.LockTimeIs l)
    (hlock : ∃ i ∈ p.inputs, i.HasLock)
    (hwithin : ∀ i ∈ added, i.HasLock → HasUnit l i ∧ AtLeast l i) : q.LockTimeIs l := by
  cases hl with
  | fallback hnone =>
      obtain ⟨i, hi, hhas⟩ := hlock
      exact absurd hhas (hnone i hi)
  | @height height _ hall hmax =>
      obtain ⟨i, hi, hhas⟩ := hlock
      refine .height ⟨i, h.mem_iff.mpr (.inl hi), hhas⟩ (fun j hj => ?_) ⟨?_, ?_⟩
      · rcases h.mem_iff.mp hj with hp | hadded
        · exact hall j hp
        · intro htime
          have hunit := (hwithin j hadded htime.hasLock).1
          simp [HasUnit, htime.2] at hunit
      · obtain ⟨j, hj, hheight⟩ := hmax.1
        exact ⟨j, h.mem_iff.mpr (.inl hj), hheight⟩
      · rintro height' ⟨j, hj, hheight⟩
        rcases h.mem_iff.mp hj with hp | hadded
        · exact hmax.2 ⟨j, hp, hheight⟩
        · exact (hwithin j hadded (.inr (by simp [hheight]))).2 height' hheight
  | @time t htime hall hmax =>
      obtain ⟨i, hi, hhas⟩ := htime
      refine .time ⟨i, h.mem_iff.mpr (.inl hi), hhas⟩ (fun j hj => ?_) ⟨?_, ?_⟩
      · rcases h.mem_iff.mp hj with hp | hadded
        · exact hall j hp
        · intro hheight
          have hunit := (hwithin j hadded hheight.hasLock).1
          simp [HasUnit, hheight.2] at hunit
      · obtain ⟨j, hj, ht⟩ := hmax.1
        exact ⟨j, h.mem_iff.mpr (.inl hj), ht⟩
      · rintro t' ⟨j, hj, ht⟩
        rcases h.mem_iff.mp hj with hp | hadded
        · exact hmax.2 ⟨j, hp, ht⟩
        · exact (hwithin j hadded (.inl (by simp [ht]))).2 t' ht

/-- Without requirements the lock time stays as it is. -/
theorem lockTimeIs_of_unconstrained (h : AppendsInputs p added q) (hl : p.LockTimeIs l)
    (hnone : ∀ i ∈ added, ¬i.HasLock) : q.LockTimeIs l := by
  by_cases hlock : ∃ i ∈ p.inputs, i.HasLock
  · exact h.lockTimeIs_of_within hl hlock fun i hi hhas => absurd hhas (hnone i hi)
  · push Not at hlock
    have hq : ∀ i ∈ q.inputs, ¬i.HasLock := fun i hi =>
      (h.mem_iff.mp hi).elim (hlock i) (hnone i)
    rw [hl.unique (.fallback hlock), ← h.fallbackLockTime]
    exact .fallback hq

/-- The lock time that is kept. -/
theorem lockTimeIs_of_keepsLockTime (h : AppendsInputs p added q)
    (hq : ¬LockTimeConflict q.inputs) (hl : p.LockTimeIs l) (hkeeps : p.KeepsLockTime added) :
    q.LockTimeIs l := by
  cases hkeeps with
  | unconstrained hnone => exact h.lockTimeIs_of_unconstrained hl hnone
  | within hl' hlock hwithin =>
      rw [hl.unique hl']
      exact h.lockTimeIs_of_within hl' hlock hwithin
  | fallbackHeight hnone hall hmax hfallback =>
      rw [hl.unique (.fallback hnone), hfallback]
      obtain ⟨i, hi, hheight⟩ := hmax.1
      refine .height ⟨i, h.mem_iff.mpr (.inr hi), .inr (by simp [hheight])⟩ (fun j hj => ?_) ?_
      · rcases h.mem_iff.mp hj with hp | hadded
        · exact fun htime => hnone j hp htime.hasLock
        · exact hall j hadded
      · rw [h.heights_eq hnone]
        exact hmax
  | fallbackTime hnone htime hmax hfallback =>
      rw [hl.unique (.fallback hnone), hfallback]
      obtain ⟨i, hi, honly⟩ := htime
      have htime' : ∃ i ∈ q.inputs, i.TimeOnly := ⟨i, h.mem_iff.mpr (.inr hi), honly⟩
      refine .time htime' (fun j hj hheight => hq ⟨htime', j, hj, hheight⟩) ?_
      rw [h.times_eq hnone]
      exact hmax

/-- The inputs that keep the lock time. -/
theorem keepsLockTime_of_lockTimeIs (h : AppendsInputs p added q) (hl : p.LockTimeIs l)
    (hq : q.LockTimeIs l) : p.KeepsLockTime added := by
  by_cases hlock : ∃ i ∈ p.inputs, i.HasLock
  · refine .within hl hlock fun i hi hhas => ?_
    have hmem : i ∈ q.inputs := h.mem_iff.mpr (.inr hi)
    exact ⟨hq.hasUnit hmem hhas, hq.atLeast hmem⟩
  · push Not at hlock
    have hfallback : l = p.global.fallbackLockTime.getD .zero := hl.unique (.fallback hlock)
    cases hq with
    | fallback hnone => exact .unconstrained fun i hi => hnone i (h.mem_iff.mpr (.inr hi))
    | height _ hall hmax =>
        rw [h.heights_eq hlock] at hmax
        exact .fallbackHeight hlock (fun i hi => hall i (h.mem_iff.mpr (.inr hi))) hmax
          hfallback.symm
    | time htime _ hmax =>
        rw [h.times_eq hlock] at hmax
        obtain ⟨i, hi, honly⟩ := htime
        have hadded : i ∈ added :=
          (h.mem_iff.mp hi).resolve_left fun hp => hlock i hp honly.hasLock
        exact .fallbackTime hlock ⟨i, hadded, honly⟩ hmax hfallback.symm

/-- When appended inputs leave the lock time as it is. -/
theorem determineLockTime_eq_iff (h : AppendsInputs p added q)
    (hok : ∃ l, q.determineLockTime = .ok l) :
    q.determineLockTime = p.determineLockTime ↔ p.KeepsLockTime added := by
  obtain ⟨l, hl⟩ := hok
  obtain ⟨hconflict, hq⟩ := determineLockTime_eq_ok.mp hl
  rcases p.determineLockTime_spec with ⟨hp, -⟩ | ⟨-, l', hl', heq⟩
  · exact absurd hp (h.not_lockTimeConflict hconflict)
  · rw [hl, heq]
    constructor
    · intro hll
      cases hll
      exact h.keepsLockTime_of_lockTimeIs hl' hq
    · intro hkeeps
      rw [hq.unique (h.lockTimeIs_of_keepsLockTime hconflict hl' hkeeps)]

end AppendsInputs

end Psbt

/-! ## Signatures -/

/-- The signatures in final scripts, as an interpreter of scripts finds them. -/
class FinalSignatures where
  /-- The sighash types of the signatures in a script sig and a witness, given the script of
  the output that these spend, where it is known. -/
  sighashTypes : Option ScriptBuf → Option ScriptBuf → Option Witness → List PsbtSighashType

namespace Input

variable [FinalSignatures] [TxidHash]

/-- The sighash types of the signatures in the final scripts of an input. -/
def finalSighashTypes (self : Input) : List PsbtSighashType :=
  FinalSignatures.sighashTypes (self.fundingUtxo.toOption.map fun utxo => utxo.scriptPubkey)
    self.finalScriptSig self.finalScriptWitness

/-- Signatures in the signature maps leave those in the final scripts as they are. -/
theorem finalSighashTypes_of_sameButSigs {i j : Input} (h : SameButSigs i j) :
    j.finalSighashTypes = i.finalSighashTypes := by
  rw [h]
  rfl

end Input

namespace Psbt

variable [SignatureTypes] [FinalSignatures] [TxidHash]

/-- The PSBT carries a signature of the sighash type for the input at the index, in one of
the signature maps or in the final scripts. -/
inductive Carries (p : Psbt) (index : Nat) : PsbtSighashType → Prop where
  | ecdsa {i : Input} {pk : PublicKey} {sig : EcdsaSignature} (hi : p.inputs[index]? = some i)
      (hsig : i.partialSigs[pk]? = some sig) :
      Carries p index (.ofEcdsa (ecdsaSighashType sig))
  | keyPath {i : Input} {sig : TaprootSignature} (hi : p.inputs[index]? = some i)
      (hsig : i.tapKeySig = some sig) : Carries p index (.ofTaproot (taprootSighashType sig))
  | scriptPath {i : Input} {key : XOnlyPublicKey × TapLeafHash} {sig : TaprootSignature}
      (hi : p.inputs[index]? = some i) (hsig : i.tapScriptSigs[key]? = some sig) :
      Carries p index (.ofTaproot (taprootSighashType sig))
  | final {i : Input} {ty : PsbtSighashType} (hi : p.inputs[index]? = some i)
      (hty : ty ∈ i.finalSighashTypes) : Carries p index ty

/-- The flags allow nothing that a signature on the PSBT rules out. -/
structure FlagsFitSignatures (p : Psbt) : Prop where
  inputs : ∀ index ty, p.Carries index ty → p.global.txModifiableFlags.isInputsModifiable →
    ty.isAnyoneCanPay
  outputs : ∀ index ty, p.Carries index ty → p.global.txModifiableFlags.isOutputsModifiable →
    ty.isNone
  single : ∀ index ty, p.Carries index ty → ty.isSingle →
    p.global.txModifiableFlags.hasSighashSingle

/-- What a signature of the sighash type for the input at the index commits to is the same
in both PSBTs.  A signature for a single output commits to one of all the outputs. -/
structure SameCommitted (p q : Psbt) (index : Nat) (ty : PsbtSighashType) : Prop where
  txVersion : q.global.txVersion = p.global.txVersion
  lockTime : q.determineLockTime = p.determineLockTime
  input : q.inputs[index]? = p.inputs[index]?
  inputs : ¬ty.isAnyoneCanPay → q.inputs = p.inputs
  outputs : ¬ty.isNone → q.outputs = p.outputs

/-- Everything that the signatures on the PSBT commit to is kept. -/
def KeepsCommitted (p q : Psbt) : Prop :=
  ∀ index ty, p.Carries index ty → SameCommitted p q index ty

/-! ### What applying signatures leaves -/

end Psbt

/-- Some of the signatures have the sighash type. -/
def TypedSigs.Contains [SignatureTypes] (ty : PsbtSighashType) : TypedSigs → Prop
  | .ecdsa signatures => ∃ entry ∈ signatures, .ofEcdsa (ecdsaSighashType entry.2) = ty
  | .taproot signatures => ∃ entry ∈ signatures, .ofTaproot (taprootSighashType entry.2) = ty

namespace TypedSigs

variable [SignatureTypes] {self : TypedSigs} {ty : PsbtSighashType}

theorem IsAnyoneCanPay.of_contains (h : self.IsAnyoneCanPay) (hty : self.Contains ty) :
    ty.isAnyoneCanPay := by
  cases self with
  | ecdsa signatures =>
      obtain ⟨entry, hentry, rfl⟩ := hty
      simpa using h entry hentry
  | taproot signatures =>
      obtain ⟨entry, hentry, rfl⟩ := hty
      simpa using h entry hentry

theorem IsNone.of_contains (h : self.IsNone) (hty : self.Contains ty) : ty.isNone := by
  cases self with
  | ecdsa signatures =>
      obtain ⟨entry, hentry, rfl⟩ := hty
      simpa using h entry hentry
  | taproot signatures =>
      obtain ⟨entry, hentry, rfl⟩ := hty
      simpa using h entry hentry

/-- Signatures of one sighash type are all for a single output if one of them is. -/
theorem isSingle_of_contains (h : self.SharesSighashType) (hty : self.Contains ty)
    (hsingle : ty.isSingle) : self.IsSingle := by
  cases self with
  | ecdsa signatures =>
      obtain ⟨entry, hentry, rfl⟩ := hty
      obtain ⟨shared, hshared⟩ := h
      have hempty : (ecdsa signatures).isEmpty = false := by
        simp [isEmpty, len, List.ne_nil_of_mem hentry]
      refine ⟨hempty, fun other hother => ?_⟩
      rw [hshared other hother, ← hshared entry hentry]
      simpa using hsingle
  | taproot signatures =>
      obtain ⟨entry, hentry, rfl⟩ := hty
      obtain ⟨shared, hshared⟩ := h
      have hempty : (taproot signatures).isEmpty = false := by
        simp [isEmpty, len, List.ne_nil_of_mem hentry]
      refine ⟨hempty, fun other hother => ?_⟩
      rw [hshared other hother, ← hshared entry hentry]
      simpa using hsingle

end TypedSigs

omit [BitcoinTypes] in
/-- An entry of an updated map was there before or is one of the pairs. -/
theorem BTreeMap.mem_of_getElem?_insertAll {K V : Type} [OrdKey K] {m : BTreeMap K V}
    {pairs : List (K × V)} {k : K} {v : V} (h : (m.insertAll pairs)[k]? = some v) :
    (k, v) ∈ pairs ∨ m[k]? = some v := by
  induction pairs generalizing m with
  | nil => exact .inr h
  | cons pair pairs ih =>
      rcases ih (m := m.insert pair.1 pair.2) h with hmem | hget
      · exact .inl (List.mem_cons_of_mem _ hmem)
      · rw [getElem?_insert_eq] at hget
        split at hget
        · rename_i hk
          cases hget
          subst hk
          exact .inl List.mem_cons_self
        · exact .inr hget

namespace Psbt

variable [SignatureTypes] [FinalSignatures] [TxidHash] {p q : Psbt} {sigs : List InputSigs}
  {index : Nat} {ty : PsbtSighashType}

omit [SignatureTypes] [FinalSignatures] [TxidHash] in
theorem exists_of_mem_ecdsaPairs {pair : PublicKey × EcdsaSignature}
    (h : pair ∈ ecdsaPairs sigs index) :
    ∃ entry ∈ sigs, ∃ signatures, entry.signatures = .ecdsa signatures ∧ pair ∈ signatures := by
  obtain ⟨entry, hentry, hpair⟩ := List.mem_flatMap.mp h
  split at hpair
  · cases hsigs : entry.signatures with
    | ecdsa signatures => exact ⟨entry, hentry, signatures, hsigs, by simpa [hsigs, TypedSigs.ecdsaPairs] using hpair⟩
    | taproot signatures => simp [hsigs, TypedSigs.ecdsaPairs] at hpair
  · cases hpair

omit [SignatureTypes] [FinalSignatures] [TxidHash] in
theorem exists_of_mem_taprootPairs {pair : TapKeyMaterial × TaprootSignature}
    (h : pair ∈ taprootPairs sigs index) :
    ∃ entry ∈ sigs, ∃ signatures, entry.signatures = .taproot signatures ∧
      pair ∈ signatures := by
  obtain ⟨entry, hentry, hpair⟩ := List.mem_flatMap.mp h
  split at hpair
  · cases hsigs : entry.signatures with
    | ecdsa signatures => simp [hsigs, TypedSigs.taprootPairs] at hpair
    | taproot signatures =>
        exact ⟨entry, hentry, signatures, hsigs, by simpa [hsigs, TypedSigs.taprootPairs] using hpair⟩
  · cases hpair

/-- A signature after applying entries was there before or is in one of the entries. -/
theorem Carries.of_reflects (h : Signer.Reflects p sigs q) (hq : q.Carries index ty) :
    p.Carries index ty ∨ ∃ entry ∈ sigs, entry.signatures.Contains ty := by
  have hinput {j : Input} (hj : q.inputs[index]? = some j) :
      ∃ i, p.inputs[index]? = some i ∧
        Input.UpdatedBy (ecdsaPairs sigs index) (taprootPairs sigs index) i j := by
    obtain ⟨hlt, -⟩ := List.getElem?_eq_some_iff.mp hj
    have hlt' : index < p.inputs.length := h.length ▸ hlt
    have hi : p.inputs[index]? = some p.inputs[index] := List.getElem?_eq_getElem hlt'
    exact ⟨_, hi, h.inputs index _ j hi hj⟩
  cases hq with
  | @ecdsa j pk sig hj hsig =>
      obtain ⟨i, hi, hij⟩ := hinput hj
      rw [hij.partialSigs] at hsig
      rcases BTreeMap.mem_of_getElem?_insertAll hsig with hmem | hold
      · obtain ⟨entry, hentry, signatures, hsigs, hpair⟩ := exists_of_mem_ecdsaPairs hmem
        exact .inr ⟨entry, hentry, hsigs ▸ ⟨(pk, sig), hpair, rfl⟩⟩
      · exact .inl (.ecdsa hi hold)
  | @keyPath j sig hj hsig =>
      obtain ⟨i, hi, hij⟩ := hinput hj
      rw [hij.tapKeySig, Option.or_eq_some_iff] at hsig
      rcases hsig with hlast | ⟨-, hold⟩
      · obtain ⟨pair, hpair, hkey⟩ := List.mem_filterMap.mp (List.mem_of_getLast? hlast)
        obtain ⟨entry, hentry, signatures, hsigs, hmem⟩ := exists_of_mem_taprootPairs hpair
        obtain ⟨material, sig'⟩ := pair
        cases material with
        | keyPath key =>
            cases hkey
            exact .inr ⟨entry, hentry, hsigs ▸ ⟨_, hmem, rfl⟩⟩
        | scriptPath key => cases hkey
      · exact .inl (.keyPath hi hold)
  | @scriptPath j key sig hj hsig =>
      obtain ⟨i, hi, hij⟩ := hinput hj
      rw [hij.tapScriptSigs] at hsig
      rcases BTreeMap.mem_of_getElem?_insertAll hsig with hmem | hold
      · obtain ⟨pair, hpair, hscript⟩ := List.mem_filterMap.mp hmem
        obtain ⟨entry, hentry, signatures, hsigs, hpair⟩ := exists_of_mem_taprootPairs hpair
        obtain ⟨material, sig'⟩ := pair
        cases material with
        | keyPath key => cases hscript
        | scriptPath key =>
            cases hscript
            exact .inr ⟨entry, hentry, hsigs ▸ ⟨_, hpair, rfl⟩⟩
      · exact .inl (.scriptPath hi hold)
  | @final j _ hj hty =>
      obtain ⟨i, hi, hij⟩ := hinput hj
      rw [Input.finalSighashTypes_of_sameButSigs hij.frame] at hty
      exact .inl (.final hi hty)

/-- Applying signatures leaves flags that fit all the signatures. -/
theorem FlagsFitSignatures.of_apply {signer : Signer} (h : signer.psbt.FlagsFitSignatures)
    (hshared : ∀ entry ∈ sigs, entry.signatures.SharesSighashType)
    (happly : signer.apply sigs = .ok q) : q.FlagsFitSignatures := by
  have hreflects := (Signer.apply_exact hshared).1 q happly
  have hflags := hreflects.flags
  refine ⟨fun index ty hq hopen => ?_, fun index ty hq hopen => ?_,
    fun index ty hq hsingle => ?_⟩
  · obtain ⟨hold, hall⟩ := hflags.inputs.mp hopen
    rcases hq.of_reflects hreflects with hp | ⟨entry, hentry, hty⟩
    · exact h.inputs index ty hp hold
    · exact (hall entry hentry).of_contains hty
  · obtain ⟨hold, hall⟩ := hflags.outputs.mp hopen
    rcases hq.of_reflects hreflects with hp | ⟨entry, hentry, hty⟩
    · exact h.outputs index ty hp hold
    · exact (hall entry hentry).of_contains hty
  · rcases hq.of_reflects hreflects with hp | ⟨entry, hentry, hty⟩
    · exact hflags.single.mpr (.inl (h.single index ty hp hsingle))
    · exact hflags.single.mpr
        (.inr ⟨entry, hentry, TypedSigs.isSingle_of_contains (hshared entry hentry) hty hsingle⟩)

/-! ### What finalizing leaves -/

end Psbt

namespace Input.Finalizes

variable {i j : Input}

/-- An input that is finalized now has no signatures in its maps any more. -/
theorem partialSigs_eq (h : Finalizes i j) (hfresh : ¬i.isFinalized) : j.partialSigs = {} := by
  rw [h.fresh hfresh]
  rfl

theorem tapKeySig_eq (h : Finalizes i j) (hfresh : ¬i.isFinalized) : j.tapKeySig = none := by
  rw [h.fresh hfresh]
  rfl

theorem tapScriptSigs_eq (h : Finalizes i j) (hfresh : ¬i.isFinalized) :
    j.tapScriptSigs = {} := by
  rw [h.fresh hfresh]
  rfl

end Input.Finalizes

namespace Psbt

variable [SignatureTypes] [FinalSignatures] [TxidHash] {p q : Psbt} {index : Nat}
  {ty : PsbtSighashType}

/-- The signatures in new final scripts are those that the input carried: a satisfaction is
built of what the satisfier hands out. -/
def MovesSignatures (p f : Psbt) : Prop :=
  ∀ index i j, p.inputs[index]? = some i → f.inputs[index]? = some j → ¬i.isFinalized →
    ∀ ty ∈ j.finalSighashTypes, p.Carries index ty

/-- A signature after finalizing was there before. -/
theorem Carries.of_finalizes (h : Finalizes p q) (hmoves : p.MovesSignatures q)
    (hq : q.Carries index ty) : p.Carries index ty := by
  cases hq with
  | ecdsa hj hsig =>
      obtain ⟨i, hi, hij⟩ := h.exists_getElem?_eq hj
      by_cases hfinal : i.isFinalized
      · exact .ecdsa (hij.passed hfinal ▸ hi) hsig
      · simp [hij.partialSigs_eq hfinal] at hsig
  | keyPath hj hsig =>
      obtain ⟨i, hi, hij⟩ := h.exists_getElem?_eq hj
      by_cases hfinal : i.isFinalized
      · exact .keyPath (hij.passed hfinal ▸ hi) hsig
      · simp [hij.tapKeySig_eq hfinal] at hsig
  | scriptPath hj hsig =>
      obtain ⟨i, hi, hij⟩ := h.exists_getElem?_eq hj
      by_cases hfinal : i.isFinalized
      · exact .scriptPath (hij.passed hfinal ▸ hi) hsig
      · simp [hij.tapScriptSigs_eq hfinal] at hsig
  | final hj hty =>
      obtain ⟨i, hi, hij⟩ := h.exists_getElem?_eq hj
      by_cases hfinal : i.isFinalized
      · exact .final (hij.passed hfinal ▸ hi) hty
      · exact hmoves index i _ hi hj hfinal ty hty

/-- Finalizing leaves flags that fit all the signatures. -/
theorem FlagsFitSignatures.of_finalize [KeyHashes] [ScriptHashes] [Miniscript]
    [ScriptInterpreter] {finalizer : Finalizer} (h : finalizer.psbt.FlagsFitSignatures)
    (hfinalize : finalizer.finalize = .ok q) (hmoves : finalizer.psbt.MovesSignatures q) :
    q.FlagsFitSignatures := by
  have hfinalizes := (Finalizer.finalizes_of_finalize hfinalize).1
  have hglobal := hfinalizes.global
  refine ⟨fun index ty hq hopen => ?_, fun index ty hq hopen => ?_,
    fun index ty hq hsingle => ?_⟩
  · rw [hglobal] at hopen
    exact h.inputs index ty (hq.of_finalizes hfinalizes hmoves) hopen
  · rw [hglobal] at hopen
    exact h.outputs index ty (hq.of_finalizes hfinalizes hmoves) hopen
  · rw [hglobal]
    exact h.single index ty (hq.of_finalizes hfinalizes hmoves) hsingle

end Psbt

/-! ## Constructing -/

namespace Side

variable {s t : Stage}

/-- The flag of a side is one of the PSBT. -/
theorem modifiable_congr (side : Side) (h : s.psbt = t.psbt) :
    side.modifiable s = side.modifiable t := by
  cases side with
  | inputs => exact congrArg (fun p => p.global.txModifiableFlags.isInputsModifiable) h
  | outputs => exact congrArg (fun p => p.global.txModifiableFlags.isOutputsModifiable) h

/-- So is the number of its entries. -/
theorem count_congr (side : Side) (h : s.psbt = t.psbt) : side.count s = side.count t := by
  cases side with
  | inputs => exact congrArg (fun p => p.inputs.length) h
  | outputs => exact congrArg (fun p => p.outputs.length) h

end Side

namespace Stage

/-- The inputs that the operations append. -/
def addedInputs (ops : List ConstructorOp) : List Input :=
  ops.filterMap fun op =>
    match op with
    | .input i => some i
    | _ => none

/-- The outputs that the operations append. -/
def addedOutputs (ops : List ConstructorOp) : List Output :=
  ops.filterMap fun op =>
    match op with
    | .output o => some o
    | _ => none

/-- The stages differ by the appended entries; the version and the fallback are the same. -/
structure Extends (s : Stage) (ops : List ConstructorOp) (t : Stage) : Prop where
  inputs : t.psbt.inputs = s.psbt.inputs ++ addedInputs ops
  outputs : t.psbt.outputs = s.psbt.outputs ++ addedOutputs ops
  txVersion : t.psbt.global.txVersion = s.psbt.global.txVersion
  fallbackLockTime : t.psbt.global.fallbackLockTime = s.psbt.global.fallbackLockTime

variable {s t u : Stage} {op : ConstructorOp} {ops ops' : List ConstructorOp}

theorem Extends.refl (s : Stage) : Extends s [] s :=
  ⟨by simp [addedInputs], by simp [addedOutputs], rfl, rfl⟩

theorem Extends.trans (h : Extends s ops t) (h' : Extends t ops' u) :
    Extends s (ops ++ ops') u where
  inputs := by
    rw [h'.inputs, h.inputs, List.append_assoc, addedInputs, addedInputs, addedInputs,
      List.filterMap_append]
  outputs := by
    rw [h'.outputs, h.outputs, List.append_assoc, addedOutputs, addedOutputs, addedOutputs,
      List.filterMap_append]
  txVersion := h'.txVersion.trans h.txVersion
  fallbackLockTime := h'.fallbackLockTime.trans h.fallbackLockTime

/-- One operation appends its entry. -/
theorem extends_step (h : s.step op = some t) : Extends s [op] t := by
  have hpsbt := psbt_step h
  cases op with
  | input i => exact ⟨by simp [hpsbt, addedInputs], by simp [hpsbt, addedOutputs],
      by simp [hpsbt], by simp [hpsbt]⟩
  | output o => exact ⟨by simp [hpsbt, addedInputs], by simp [hpsbt, addedOutputs],
      by simp [hpsbt], by simp [hpsbt]⟩
  | noMoreInputs => exact ⟨by simp [hpsbt, addedInputs], by simp [hpsbt, addedOutputs],
      by simp [hpsbt], by simp [hpsbt]⟩
  | noMoreOutputs => exact ⟨by simp [hpsbt, addedInputs], by simp [hpsbt, addedOutputs],
      by simp [hpsbt], by simp [hpsbt]⟩
  | psbt => exact ⟨by simp [hpsbt, addedInputs], by simp [hpsbt, addedOutputs],
      by simp [hpsbt], by simp [hpsbt]⟩
  | new T => exact ⟨by simp [hpsbt, addedInputs], by simp [hpsbt, addedOutputs],
      by simp [hpsbt], by simp [hpsbt]⟩

/-- A run appends the entries of its operations. -/
theorem extends_run (h : Runs.run step s ops = some t) : Extends s ops t := by
  induction ops generalizing s with
  | nil =>
      cases h
      exact .refl _
  | cons op ops ih =>
      rw [Runs.run_cons, Option.bind_eq_some_iff] at h
      obtain ⟨u, hu, hrest⟩ := h
      exact (extends_step hu).trans (ih hrest)

/-- A Constructor takes over the PSBT, appends entries and releases the other PSBT. -/
structure Constructs (p : Psbt) (ops : List ConstructorOp) (q : Psbt) : Prop where
  adds : ∀ op ∈ ops, ∃ side : Side, side.Appends op
  run : ∃ T s, takeOver p T = some s ∧
    Runs.run step s (ops ++ [.psbt]) = some (.released q)

/-- What a Constructor releases has a lock time. -/
theorem exists_lockTime_of_step_psbt {q : Psbt} (h : s.step .psbt = some (.released q)) :
    ∃ l, q.determineLockTime = .ok l := by
  cases s with
  | released p => cases h
  | constructor c =>
      obtain ⟨p, hp, hpq⟩ := Option.map_eq_some_iff.mp h
      cases hpq
      obtain ⟨hok, rfl⟩ := Constructor.release_eq_ok.mp (Result.toOption_eq_some.mp hp)
      exact hok

namespace Constructs

variable {p q : Psbt}

theorem exists_lockTime (h : Constructs p ops q) : ∃ l, q.determineLockTime = .ok l := by
  obtain ⟨T, s, -, hrun⟩ := h.run
  obtain ⟨t, -, hstep⟩ := Runs.run_concat_eq_some.mp hrun
  exact exists_lockTime_of_step_psbt hstep

/-- The PSBTs differ by the appended entries. -/
theorem extendsPsbt (h : Constructs p ops q) : Extends (.released p) ops (.released q) := by
  obtain ⟨T, s, htake, hrun⟩ := h.run
  have hext := extends_run hrun
  have hpsbt : s.psbt = p := (takeOver_eq_some htake).1
  have hinputs : addedInputs (ops ++ [.psbt]) = addedInputs ops := by simp [addedInputs]
  have houtputs : addedOutputs (ops ++ [.psbt]) = addedOutputs ops := by simp [addedOutputs]
  refine ⟨?_, ?_, ?_, ?_⟩
  · rw [hext.inputs, hpsbt, hinputs]
    rfl
  · rw [hext.outputs, hpsbt, houtputs]
    rfl
  · rw [hext.txVersion, hpsbt]
    rfl
  · rw [hext.fallbackLockTime, hpsbt]
    rfl

theorem appendsInputs (h : Constructs p ops q) : p.AppendsInputs (addedInputs ops) q :=
  ⟨h.extendsPsbt.inputs, h.extendsPsbt.fallbackLockTime⟩

/-- No entry is appended to a side whose flag is not set. -/
theorem count_eq_of_not_modifiable (h : Constructs p ops q) {side : Side}
    (hclosed : side.modifiable (.released p) = false) :
    side.count (.released q) = side.count (.released p) := by
  obtain ⟨T, s, htake, hrun⟩ := h.run
  have hpsbt : s.psbt = (released p).psbt := (takeOver_eq_some htake).1
  have hnever : NeverAppendsAfter side (ops ++ [.psbt]) := by
    intro pre mid post op op' hops hrules _
    have hop : op ∈ ops ++ [.psbt] := by simp [hops]
    -- neither `input` nor `output` nor `psbt` rules anything out
    rcases List.mem_append.mp hop with hop | hop
    · obtain ⟨side', hside'⟩ := h.adds op hop
      cases side' <;> cases side <;> obtain ⟨_, rfl⟩ := hside' <;> cases hrules
    · obtain rfl := List.mem_singleton.mp hop
      cases side <;> cases hrules
  have hclosed' : side.modifiable s = false := (side.modifiable_congr hpsbt).trans hclosed
  have hcount := ((hnever.keepsFlag (.new htake)).closed [] (ops ++ [.psbt]) [] s
    (.released q) (by simp) rfl hrun hclosed').2
  exact hcount.trans (side.count_congr hpsbt)

end Constructs

variable [SignatureTypes] [FinalSignatures] [TxidHash] {p q : Psbt}

/-- Apart from the lock time, everything signed is kept. -/
theorem keepsCommitted_of_keepsLockTime (hrun : Constructs p ops q)
    (hflags : p.FlagsFitSignatures) (hkeeps : p.KeepsLockTime (addedInputs ops)) :
    p.KeepsCommitted q := by
  intro index ty hcarries
  have hext := hrun.extendsPsbt
  have hinputs : q.inputs = p.inputs ++ addedInputs ops := hext.inputs
  have houtputs : q.outputs = p.outputs ++ addedOutputs ops := hext.outputs
  refine ⟨hext.txVersion,
    (hrun.appendsInputs.determineLockTime_eq_iff hrun.exists_lockTime).mpr hkeeps, ?_, ?_, ?_⟩
  · obtain ⟨i, hi⟩ : ∃ i, p.inputs[index]? = some i := by
      cases hcarries with
      | ecdsa hi _ => exact ⟨_, hi⟩
      | keyPath hi _ => exact ⟨_, hi⟩
      | scriptPath hi _ => exact ⟨_, hi⟩
      | final hi _ => exact ⟨_, hi⟩
    obtain ⟨hlt, -⟩ := List.getElem?_eq_some_iff.mp hi
    rw [hinputs, List.getElem?_append_left hlt]
  · intro hacp
    have hclosed : Side.inputs.modifiable (.released p) = false :=
      Bool.eq_false_iff.mpr fun hopen => hacp (hflags.inputs index ty hcarries hopen)
    have hcount : q.inputs.length = p.inputs.length := hrun.count_eq_of_not_modifiable hclosed
    rw [hinputs, List.length_append, Nat.add_eq_left, List.length_eq_zero_iff] at hcount
    rw [hinputs, hcount, List.append_nil]
  · intro hnone
    have hclosed : Side.outputs.modifiable (.released p) = false :=
      Bool.eq_false_iff.mpr fun hopen => hnone (hflags.outputs index ty hcarries hopen)
    have hcount : q.outputs.length = p.outputs.length := hrun.count_eq_of_not_modifiable hclosed
    rw [houtputs, List.length_append, Nat.add_eq_left, List.length_eq_zero_iff] at hcount
    rw [houtputs, hcount, List.append_nil]

/-- What the signatures commit to is kept exactly if there are none or if the appended
inputs leave the lock time as it is. -/
theorem keepsCommitted_iff (hrun : Constructs p ops q) (hflags : p.FlagsFitSignatures) :
    p.KeepsCommitted q ↔
      (∀ index ty, ¬p.Carries index ty) ∨ p.KeepsLockTime (addedInputs ops) := by
  constructor
  · intro hkeeps
    by_cases hsigned : ∃ index ty, p.Carries index ty
    · obtain ⟨index, ty, hcarries⟩ := hsigned
      have hlockTime := (hkeeps index ty hcarries).lockTime
      exact .inr ((hrun.appendsInputs.determineLockTime_eq_iff hrun.exists_lockTime).mp
        hlockTime)
    · push Not at hsigned
      exact .inl hsigned
  · rintro (hnone | hkeeps)
    · exact fun index ty hcarries => absurd hcarries (hnone index ty)
    · exact keepsCommitted_of_keepsLockTime hrun hflags hkeeps

end Stage

end Generic

/-! ## Reference runs -/

section

attribute [local instance] Reference.types Reference.signatureTypes Reference.txidHash

/-- The witness of a pay-to-witness-pubkey-hash output starts with the signature. -/
@[reducible]
def Reference.finalSignatures : FinalSignatures where
  sighashTypes scriptPubkey _ witness :=
    match scriptPubkey, witness with
    | some script, some (sig :: _) =>
        if ScriptBuf.isP2wpkh script then
          ((Reference.Shaped.ofBytes Reference.isEcdsaSignature sig).map fun sig =>
            PsbtSighashType.ofEcdsa (Reference.ecdsaSighash sig)).toList
        else []
    | _, _ => []

attribute [local instance] Reference.finalSignatures

/-- The final witness of the signed input holds its signature. -/
theorem Psbt.movesSignatures_wpkh :
    Reference.wpkhSigned.MovesSignatures Reference.wpkhFinalized := by
  intro index i j hi hj _ ty hty
  obtain rfl : i = _ := List.mem_singleton.mp (List.mem_of_getElem? hi)
  obtain rfl : j = _ := List.mem_singleton.mp (List.mem_of_getElem? hj)
  have htypes : Input.finalSighashTypes
      { Reference.wpkhInput with
        finalScriptWitness := some [[0x30, 0x01], 2 :: List.replicate 32 1] } =
      [.ofEcdsa (ecdsaSighashType Reference.ecdsaSignature)] := by
    decide +kernel
  rw [htypes] at hty
  obtain rfl := List.mem_singleton.mp hty
  have hsig : (({} : BTreeMap _ _).insert (Reference.publicKey 1)
      Reference.ecdsaSignature)[Reference.publicKey 1]? = some Reference.ecdsaSignature := by
    simp
  exact .ecdsa hi hsig

namespace Stage

/-- A signature for one input and all outputs. -/
def anyoneCanPaySignature : EcdsaSignature :=
  (⟨[0x30, 0x81], by decide⟩ : Reference.Shaped Reference.isEcdsaSignature)

/-- The PSBT with these inputs, to which inputs may be added. -/
def openPsbt (inputs : List Input) : Psbt :=
  let psbt := Reference.psbt inputs [Reference.output [0x51]]
  { psbt with
    global := { psbt.global with
      txModifiableFlags := psbt.global.txModifiableFlags.setInputsModifiable } }

/-- An input that is signed. -/
def signedInput : Input :=
  { Reference.wpkhInput with
    partialSigs := ({} : BTreeMap _ _).insert (Reference.publicKey 1) anyoneCanPaySignature }

/-- The same input, finalized. -/
def finalizedInput : Input :=
  { Reference.wpkhInput with
    finalScriptWitness := some [[0x30, 0x81], 2 :: List.replicate 32 1] }

/-- An input that requires a height. -/
def heightInput : Input :=
  { Reference.input 1 with minHeight := some Reference.height }

/-- The Constructor appends the input. -/
theorem constructs_openPsbt {i j : Input} {l : LockTime}
    (h : (openPsbt [i, j]).determineLockTime = .ok l) :
    Constructs (openPsbt [i]) [.input j] (openPsbt [i, j]) := by
  let start : Constructor .inputsOnlyModifiable := ⟨openPsbt [i]⟩
  let c : Constructor .inputsOnlyModifiable := ⟨openPsbt [i, j]⟩
  have hopen : (openPsbt [i]).global.txModifiableFlags.isInputsModifiable := by
    change (TxModifiableFlags.setInputsModifiable ⟨0⟩).isInputsModifiable
    decide
  have hnew : Constructor.newInputsOnly (openPsbt [i]) = .ok start :=
    Constructor.newInputsOnly_eq_ok.mpr ⟨rfl, hopen⟩
  have htake : takeOver (openPsbt [i]) .inputsOnlyModifiable = some (.constructor start) :=
    congrArg (fun r => r.toOption.map constructor) hnew
  refine ⟨List.forall_mem_singleton.mpr ⟨.inputs, j, rfl⟩, .inputsOnlyModifiable,
    .constructor start, htake, ?_⟩
  have hrelease : c.release = .ok (openPsbt [i, j]) :=
    Constructor.release_eq_ok.mpr ⟨⟨l, h⟩, rfl⟩
  have hinput : step (.constructor start) (.input j) =
      some (.constructor c) := rfl
  have hpsbt : step (.constructor c) .psbt = some (.released (openPsbt [i, j])) :=
    congrArg (fun r => r.toOption.map released) hrelease
  exact Runs.run_concat_eq_some.mpr ⟨.constructor c, by simp [hinput], hpsbt⟩

/-- Flags that let inputs be added fit signatures for one input. -/
theorem flagsFitSignatures_openPsbt {i : Input}
    (hty : ∀ index ty, (openPsbt [i]).Carries index ty → ty = .ofEcdsa .allPlusAnyoneCanPay) :
    (openPsbt [i]).FlagsFitSignatures := by
  have houtputs : ¬(openPsbt [i]).global.txModifiableFlags.isOutputsModifiable := by
    change ¬(TxModifiableFlags.setInputsModifiable ⟨0⟩).isOutputsModifiable
    decide
  refine ⟨fun index ty h _ => ?_, fun index ty h hopen => absurd hopen houtputs,
    fun index ty h hsingle => ?_⟩
  · rw [hty index ty h]
    rfl
  · rw [hty index ty h] at hsingle
    exact absurd hsingle (by decide)

/-- The only signature of the signed input. -/
theorem eq_of_carries_signedInput (index : Nat) (ty : PsbtSighashType)
    (h : (openPsbt [signedInput]).Carries index ty) : ty = .ofEcdsa .allPlusAnyoneCanPay := by
  have hinput {i : Input} (hi : (openPsbt [signedInput]).inputs[index]? = some i) :
      i = signedInput := List.mem_singleton.mp (List.mem_of_getElem? hi)
  cases h with
  | ecdsa hi hsig =>
      obtain rfl := hinput hi
      rw [signedInput, BTreeMap.getElem?_insert_eq] at hsig
      split at hsig
      · cases hsig
        rfl
      · cases hsig
  | keyPath hi hsig =>
      obtain rfl := hinput hi
      cases hsig
  | scriptPath hi hsig =>
      obtain rfl := hinput hi
      cases hsig
  | final hi hmem =>
      obtain rfl := hinput hi
      cases hmem

/-- The only signature of the finalized input. -/
theorem eq_of_carries_finalizedInput (index : Nat) (ty : PsbtSighashType)
    (h : (openPsbt [finalizedInput]).Carries index ty) :
    ty = .ofEcdsa .allPlusAnyoneCanPay := by
  have hinput {i : Input} (hi : (openPsbt [finalizedInput]).inputs[index]? = some i) :
      i = finalizedInput := List.mem_singleton.mp (List.mem_of_getElem? hi)
  cases h with
  | ecdsa hi hsig =>
      obtain rfl := hinput hi
      cases hsig
  | keyPath hi hsig =>
      obtain rfl := hinput hi
      cases hsig
  | scriptPath hi hsig =>
      obtain rfl := hinput hi
      cases hsig
  | final hi hmem =>
      obtain rfl := hinput hi
      have htypes : finalizedInput.finalSighashTypes = [.ofEcdsa .allPlusAnyoneCanPay] := by
        decide +kernel
      rw [htypes] at hmem
      exact List.mem_singleton.mp hmem

theorem keepsCommitted_iff_input :
    (openPsbt [finalizedInput]).KeepsCommitted (openPsbt [finalizedInput, heightInput]) ↔
      (∀ index ty, ¬(openPsbt [finalizedInput]).Carries index ty) ∨
        (openPsbt [finalizedInput]).KeepsLockTime [heightInput] :=
  keepsCommitted_iff (constructs_openPsbt rfl)
    (flagsFitSignatures_openPsbt eq_of_carries_finalizedInput)

/-- An appended input changes the lock time of a signed PSBT. -/
theorem not_keepsCommitted_heightInput :
    ¬∀ (p q : Psbt) (ops : List ConstructorOp), Constructs p ops q → p.FlagsFitSignatures →
      p.KeepsCommitted q := by
  intro h
  have hsig : signedInput.partialSigs[Reference.publicKey 1]? = some anyoneCanPaySignature := by
    simp [signedInput]
  have hcarries : (openPsbt [signedInput]).Carries 0
      (.ofEcdsa (ecdsaSighashType anyoneCanPaySignature)) := .ecdsa rfl hsig
  have hkeeps := h _ _ _ (constructs_openPsbt (j := heightInput) rfl)
    (flagsFitSignatures_openPsbt eq_of_carries_signedInput) 0 _ hcarries
  have hlockTime := congrArg Except.toOption hkeeps.lockTime
  exact absurd hlockTime (by decide +kernel)

end Stage

end

end RustPsbt
