import RustPsbt.Psbt

/-!
# Determining the lock time

The lock time of a PSBT in terms of what its inputs require.

Main results:

- Theorem `Psbt.determineLockTime_eq_ok`: the lock time, rule by rule.
- Theorem `Psbt.determineLockTime_eq_err`: the only failure is that some input accepts
  a time only and another a height only.
- Theorem `Psbt.lockTimeRule`: the whole rule, with what the result guarantees to every
  input.
-/

namespace RustPsbt

variable [BitcoinTypes]

namespace Input

/-- The input accepts a time and no height. -/
def TimeOnly (self : Input) : Prop :=
  self.minTime.isSome ∧ self.minHeight = none

/-- The input accepts a height and no time. -/
def HeightOnly (self : Input) : Prop :=
  self.minHeight.isSome ∧ self.minTime = none

/-- The input requires a lock time. -/
def HasLock (self : Input) : Prop :=
  self.minTime.isSome ∨ self.minHeight.isSome

instance : DecidablePred TimeOnly := fun _ => inferInstanceAs (Decidable (_ ∧ _))
instance : DecidablePred HeightOnly := fun _ => inferInstanceAs (Decidable (_ ∧ _))
instance : DecidablePred HasLock := fun _ => inferInstanceAs (Decidable (_ ∨ _))

@[simp]
theorem requiresTimeBasedLockTime_iff (self : Input) :
    self.requiresTimeBasedLockTime ↔ self.TimeOnly := by
  simp [requiresTimeBasedLockTime, TimeOnly]

@[simp]
theorem requiresHeightBasedLockTime_iff (self : Input) :
    self.requiresHeightBasedLockTime ↔ self.HeightOnly := by
  simp [requiresHeightBasedLockTime, HeightOnly]

@[simp]
theorem hasLockTime_iff (self : Input) : self.hasLockTime ↔ self.HasLock := by
  simp [hasLockTime, HasLock]

@[simp]
theorem isSatisfiedWithHeightBasedLockTime_iff (self : Input) :
    self.isSatisfiedWithHeightBasedLockTime ↔ ¬self.TimeOnly := by
  unfold isSatisfiedWithHeightBasedLockTime requiresHeightBasedLockTime TimeOnly
  cases self.minTime <;> cases self.minHeight <;> simp

/-- An input that does not accept a time only has a height if it requires any. -/
theorem HasLock.minHeight_isSome {self : Input} (h : self.HasLock) (hnot : ¬self.TimeOnly) :
    self.minHeight.isSome := by
  unfold TimeOnly HasLock at *
  cases hheight : self.minHeight with
  | some _ => rfl
  | none => simp_all

/-- An input that does not accept a height only has a time if it requires any. -/
theorem HasLock.minTime_isSome {self : Input} (h : self.HasLock) (hnot : ¬self.HeightOnly) :
    self.minTime.isSome := by
  unfold HeightOnly HasLock at *
  cases htime : self.minTime with
  | some _ => rfl
  | none => simp_all

theorem TimeOnly.hasLock {self : Input} (h : self.TimeOnly) : self.HasLock :=
  Or.inl h.1

theorem HeightOnly.hasLock {self : Input} (h : self.HeightOnly) : self.HasLock :=
  Or.inr h.1

end Input

namespace Psbt

/-- The heights required by the inputs. -/
def heights (inputs : List Input) : Set RequiredHeightLockTime :=
  {h | ∃ i ∈ inputs, i.minHeight = some h}

/-- The times required by the inputs. -/
def times (inputs : List Input) : Set Time :=
  {t | ∃ i ∈ inputs, i.minTime = some t}

/-- The lock time rules: without requirements the fallback, with heights where
every requirement has one, else with times where every requirement has one. -/
inductive LockTimeIs (self : Psbt) : LockTime → Prop where
  | fallback (hnone : ∀ i ∈ self.inputs, ¬i.HasLock) :
      LockTimeIs self (self.global.fallbackLockTime.getD .zero)
  | height {h : RequiredHeightLockTime} (hlock : ∃ i ∈ self.inputs, i.HasLock)
      (hall : ∀ i ∈ self.inputs, ¬i.TimeOnly) (hmax : IsGreatest (heights self.inputs) h) :
      LockTimeIs self (.blocks h.height)
  | time {t : Time} (htime : ∃ i ∈ self.inputs, i.TimeOnly)
      (hall : ∀ i ∈ self.inputs, ¬i.HeightOnly) (hmax : IsGreatest (times self.inputs) t) :
      LockTimeIs self (.seconds t)

/-- Some input accepts a time only, another a height only. -/
def LockTimeConflict (inputs : List Input) : Prop :=
  (∃ i ∈ inputs, i.TimeOnly) ∧ ∃ i ∈ inputs, i.HeightOnly

/-- The greatest height, as the source computes it. -/
theorem expect_max_heights {ε : Type} {inputs : List Input}
    (hlock : ∃ i ∈ inputs, i.HasLock) (hall : ∀ i ∈ inputs, ¬i.TimeOnly) :
    ∃ h, IsGreatest (heights inputs) h ∧
      (do expect (← expect (inputs.map Input.minHeight).max?)) = (.ok h : Result ε _) := by
  obtain ⟨i, hi, hhas⟩ := hlock
  obtain ⟨h, hh⟩ := Option.isSome_iff_exists.mp (hhas.minHeight_isSome (hall i hi))
  obtain ⟨m, hm, hgreatest⟩ := max?_eq_some_some (l := inputs.map Input.minHeight)
    ⟨h, List.mem_map.mpr ⟨i, hi, hh⟩⟩
  refine ⟨m, ?_, by simp [hm, expect]⟩
  simpa [heights] using hgreatest

/-- The greatest time, as the source computes it. -/
theorem expect_max_times {ε : Type} {inputs : List Input}
    (htime : ∃ i ∈ inputs, i.TimeOnly) :
    ∃ t, IsGreatest (times inputs) t ∧
      (do expect (← expect (inputs.map Input.minTime).max?)) = (.ok t : Result ε _) := by
  obtain ⟨i, hi, hhas, -⟩ := htime
  obtain ⟨t, ht⟩ := Option.isSome_iff_exists.mp hhas
  obtain ⟨m, hm, hgreatest⟩ := max?_eq_some_some (l := inputs.map Input.minTime)
    ⟨t, List.mem_map.mpr ⟨i, hi, ht⟩⟩
  refine ⟨m, ?_, by simp [hm, expect]⟩
  simpa [times] using hgreatest

/-- Conflicting requirements are the only failure, and nothing panics. -/
theorem determineLockTime_spec (self : Psbt) :
    (LockTimeConflict self.inputs ∧ self.determineLockTime = .err .conflict) ∨
      (¬LockTimeConflict self.inputs ∧
        ∃ l, self.LockTimeIs l ∧ self.determineLockTime = .ok l) := by
  unfold determineLockTime
  simp only [Bool.and_eq_true, List.any_eq_true, List.all_eq_true,
    Input.requiresTimeBasedLockTime_iff, Input.requiresHeightBasedLockTime_iff,
    Input.hasLockTime_iff, Input.isSatisfiedWithHeightBasedLockTime_iff]
  by_cases hconflict : LockTimeConflict self.inputs
  · left
    exact ⟨hconflict, if_pos hconflict⟩
  · right
    refine ⟨hconflict, ?_⟩
    have hcond : ¬((∃ i ∈ self.inputs, i.TimeOnly) ∧ ∃ i ∈ self.inputs, i.HeightOnly) :=
      hconflict
    rw [if_neg hcond]
    by_cases hlock : ∃ i ∈ self.inputs, i.HasLock
    · rw [if_pos hlock]
      by_cases hall : ∀ i ∈ self.inputs, ¬i.TimeOnly
      · obtain ⟨h, hmax, heval⟩ :=
          expect_max_heights (ε := DetermineLockTimeError) hlock hall
        refine ⟨.blocks h.height, .height hlock hall hmax, ?_⟩
        rw [if_pos hall]
        obtain ⟨o, ho, hoh⟩ := Result.bind_eq_ok.mp heval
        simp only [ho, hoh, Result.ok_bind]
      · have htime : ∃ i ∈ self.inputs, i.TimeOnly := by
          simpa using hall
        obtain ⟨t, hmax, heval⟩ :=
          expect_max_times (ε := DetermineLockTimeError) htime
        refine ⟨.seconds t, .time htime ?_ hmax, ?_⟩
        · intro i hi hheight
          exact hconflict ⟨htime, i, hi, hheight⟩
        · rw [if_neg hall]
          obtain ⟨o, ho, hot⟩ := Result.bind_eq_ok.mp heval
          simp only [ho, hot, Result.ok_bind]
    · rw [if_neg hlock]
      refine ⟨_, .fallback ?_, rfl⟩
      simpa using hlock

/-- A determined lock time follows the rules. -/
theorem LockTimeIs.unique {self : Psbt} {l l' : LockTime}
    (h : self.LockTimeIs l) (h' : self.LockTimeIs l') : l = l' := by
  cases h with
  | fallback hnone =>
      cases h' with
      | fallback _ => rfl
      | height hlock _ _ =>
          obtain ⟨i, hi, hhas⟩ := hlock
          exact absurd hhas (hnone i hi)
      | time htime _ _ =>
          obtain ⟨i, hi, hhas⟩ := htime
          exact absurd hhas.hasLock (hnone i hi)
  | height hlock hall hmax =>
      cases h' with
      | fallback hnone =>
          obtain ⟨i, hi, hhas⟩ := hlock
          exact absurd hhas (hnone i hi)
      | height _ _ hmax' => rw [hmax.unique hmax']
      | time htime _ _ =>
          obtain ⟨i, hi, hhas⟩ := htime
          exact absurd hhas (hall i hi)
  | time htime _ hmax =>
      obtain ⟨i, hi, hhas⟩ := htime
      cases h' with
      | fallback hnone => exact absurd hhas.hasLock (hnone i hi)
      | height _ hall _ => exact absurd hhas (hall i hi)
      | time _ _ hmax' => rw [hmax.unique hmax']

/-- The lock times that are determined, rule by rule. -/
theorem determineLockTime_eq_ok {self : Psbt} {l : LockTime} :
    self.determineLockTime = .ok l ↔ ¬LockTimeConflict self.inputs ∧ self.LockTimeIs l := by
  rcases determineLockTime_spec self with ⟨hconflict, heq⟩ | ⟨hconflict, l', hl', heq⟩
  · simp [heq, hconflict]
  · simp only [heq, hconflict, not_false_eq_true, true_and, Except.ok.injEq]
    exact ⟨fun h => h ▸ hl', fun h => hl'.unique h⟩

/-- The lock time cannot be determined exactly when requirements conflict. -/
theorem determineLockTime_eq_err {self : Psbt} :
    self.determineLockTime = .err .conflict ↔ LockTimeConflict self.inputs := by
  rcases determineLockTime_spec self with ⟨hconflict, heq⟩ | ⟨hconflict, l', -, heq⟩
  · simp [heq, hconflict]
  · simp [heq, hconflict]

/-! ## The rule as a whole -/

/-- The lock time reaches what the input requires in the unit of the lock time. -/
def AtLeast (l : LockTime) (i : Input) : Prop :=
  match l with
  | .blocks height => ∀ h, i.minHeight = some h → h.height ≤ height
  | .seconds time => ∀ t, i.minTime = some t → t ≤ time

/-- The input has a requirement in the unit of the lock time. -/
def HasUnit (l : LockTime) (i : Input) : Prop :=
  match l with
  | .blocks _ => i.minHeight.isSome
  | .seconds _ => i.minTime.isSome

/-- The rule for the lock time of a transaction. -/
structure LockTimeRule (p : Psbt) : Prop where
  /-- No `expect` is reached. -/
  returns : p.determineLockTime.Returns
  isErr_iff : p.determineLockTime.IsErr ↔
    (∃ i ∈ p.inputs, i.minTime.isSome ∧ i.minHeight = none) ∧
      ∃ i ∈ p.inputs, i.minHeight.isSome ∧ i.minTime = none
  height : ∀ l, p.determineLockTime = .ok l → (∃ i ∈ p.inputs, i.HasLock) →
    (∀ i ∈ p.inputs, i.HasLock → i.minHeight.isSome) →
    ∃ h, IsGreatest (heights p.inputs) h ∧ l = .blocks h.height
  time : ∀ l, p.determineLockTime = .ok l →
    ¬(∀ i ∈ p.inputs, i.HasLock → i.minHeight.isSome) →
    ∃ t, IsGreatest (times p.inputs) t ∧ l = .seconds t
  fallback : ∀ l, p.determineLockTime = .ok l → (∀ i ∈ p.inputs, ¬i.HasLock) →
    l = p.global.fallbackLockTime.getD .zero
  atLeast : ∀ l, p.determineLockTime = .ok l → ∀ i ∈ p.inputs, AtLeast l i
  hasUnit : ∀ l, p.determineLockTime = .ok l → ∀ i ∈ p.inputs, i.HasLock → HasUnit l i
  perm : ∀ other : Psbt, other.global.fallbackLockTime = p.global.fallbackLockTime →
    other.inputs.Perm p.inputs → other.determineLockTime = p.determineLockTime

/-- Every requirement has a height exactly when no input accepts a time only. -/
theorem forall_minHeight_isSome_iff {inputs : List Input} :
    (∀ i ∈ inputs, i.HasLock → i.minHeight.isSome) ↔ ∀ i ∈ inputs, ¬i.TimeOnly := by
  constructor
  · intro h i hi htime
    have hheight := h i hi htime.hasLock
    rw [htime.2] at hheight
    cases hheight
  · intro h i hi hlock
    exact hlock.minHeight_isSome (h i hi)

/-- A lock time of the rules reaches every requirement of its unit. -/
theorem LockTimeIs.atLeast {self : Psbt} {l : LockTime} (h : self.LockTimeIs l)
    {i : Input} (hi : i ∈ self.inputs) : AtLeast l i := by
  cases h with
  | fallback hnone =>
      have hno := hnone i hi
      unfold AtLeast
      split
      · intro m hm
        exact absurd (Or.inr (by simp [hm])) hno
      · intro m hm
        exact absurd (Or.inl (by simp [hm])) hno
  | height _ _ hmax =>
      intro m hm
      exact hmax.2 ⟨i, hi, hm⟩
  | time _ _ hmax =>
      intro m hm
      exact hmax.2 ⟨i, hi, hm⟩

/-- Every constrained input has a requirement in the unit of the lock time. -/
theorem LockTimeIs.hasUnit {self : Psbt} {l : LockTime} (h : self.LockTimeIs l)
    {i : Input} (hi : i ∈ self.inputs) (hlock : i.HasLock) : HasUnit l i := by
  cases h with
  | fallback hnone => exact absurd hlock (hnone i hi)
  | height _ hall _ => exact hlock.minHeight_isSome (hall i hi)
  | time _ hall _ => exact hlock.minTime_isSome (hall i hi)

/-- The rules do not depend on the order of the inputs. -/
theorem LockTimeIs.perm {p q : Psbt} {l : LockTime}
    (hfallback : p.global.fallbackLockTime = q.global.fallbackLockTime)
    (hperm : p.inputs.Perm q.inputs) (h : p.LockTimeIs l) : q.LockTimeIs l := by
  have hmem : ∀ i, i ∈ p.inputs ↔ i ∈ q.inputs := fun i => hperm.mem_iff
  have hheights : heights p.inputs = heights q.inputs := by simp [heights, hmem]
  have htimes : times p.inputs = times q.inputs := by simp [times, hmem]
  cases h with
  | fallback hnone =>
      rw [hfallback]
      exact .fallback fun i hi => hnone i ((hmem i).mpr hi)
  | height hlock hall hmax =>
      obtain ⟨i, hi, hhas⟩ := hlock
      refine .height ⟨i, (hmem i).mp hi, hhas⟩ (fun i hi => hall i ((hmem i).mpr hi)) ?_
      rw [← hheights]
      exact hmax
  | time htime hall hmax =>
      obtain ⟨i, hi, hhas⟩ := htime
      refine .time ⟨i, (hmem i).mp hi, hhas⟩ (fun i hi => hall i ((hmem i).mpr hi)) ?_
      rw [← htimes]
      exact hmax

/-- The lock time does not depend on the order of the inputs. -/
theorem determineLockTime_perm {p q : Psbt}
    (hfallback : p.global.fallbackLockTime = q.global.fallbackLockTime)
    (hperm : p.inputs.Perm q.inputs) : p.determineLockTime = q.determineLockTime := by
  have hmem : ∀ i, i ∈ p.inputs ↔ i ∈ q.inputs := fun i => hperm.mem_iff
  have hconflict : LockTimeConflict p.inputs ↔ LockTimeConflict q.inputs := by
    simp [LockTimeConflict, hmem]
  rcases determineLockTime_spec p with ⟨hp, heq⟩ | ⟨hp, l, hl, heq⟩
  · rw [heq, determineLockTime_eq_err.mpr (hconflict.mp hp)]
  · rw [heq, determineLockTime_eq_ok.mpr ⟨fun hq => hp (hconflict.mpr hq), ?_⟩]
    exact hl.perm hfallback hperm

/-- Determining the lock time returns. -/
theorem returns_determineLockTime (self : Psbt) : self.determineLockTime.Returns := by
  rcases determineLockTime_spec self with ⟨-, heq⟩ | ⟨-, l, -, heq⟩
  · rw [heq]
    trivial
  · rw [heq]
    trivial

/-- Determining the lock time follows the rule. -/
theorem lockTimeRule (self : Psbt) : LockTimeRule self where
  returns := returns_determineLockTime self
  isErr_iff := by
    change _ ↔ LockTimeConflict self.inputs
    rw [(returns_determineLockTime self).isErr_iff]
    rcases determineLockTime_spec self with ⟨hconflict, heq⟩ | ⟨hconflict, l, -, heq⟩
    · simp [heq, hconflict]
    · simp [heq, hconflict]
  height l h hlock hall := by
    have hnot : ∀ i ∈ self.inputs, ¬i.TimeOnly := forall_minHeight_isSome_iff.mp hall
    cases (determineLockTime_eq_ok.mp h).2 with
    | fallback hnone =>
        obtain ⟨i, hi, hhas⟩ := hlock
        exact absurd hhas (hnone i hi)
    | height _ _ hmax => exact ⟨_, hmax, rfl⟩
    | time htime _ _ =>
        obtain ⟨i, hi, hhas⟩ := htime
        exact absurd hhas (hnot i hi)
  time l h hall := by
    rw [forall_minHeight_isSome_iff] at hall
    cases (determineLockTime_eq_ok.mp h).2 with
    | fallback hnone =>
        exact absurd (fun i hi htime => hnone i hi htime.hasLock) hall
    | height _ hnot _ => exact absurd hnot hall
    | time _ _ hmax => exact ⟨_, hmax, rfl⟩
  fallback l h hnone := (determineLockTime_eq_ok.mp h).2.unique (.fallback hnone)
  atLeast l h i hi := (determineLockTime_eq_ok.mp h).2.atLeast hi
  hasUnit l h i hi hlock := (determineLockTime_eq_ok.mp h).2.hasUnit hi hlock
  perm other hfallback hperm := determineLockTime_perm hfallback hperm

/-! ## The unsigned transaction -/

/-- The unsigned transaction with the given lock time. -/
def unsignedTxAt (self : Psbt) (lockTime : LockTime) : Transaction where
  version := self.global.txVersion
  lockTime := lockTime
  input := self.inputs.map Input.unsignedTxIn
  output := self.outputs.map Output.txOut

/-- The unsigned transaction has the determined lock time. -/
theorem unsignedTx_eq_ok {self : Psbt} {tx : Transaction} :
    self.unsignedTx = .ok tx ↔
      ∃ l, self.determineLockTime = .ok l ∧ tx = self.unsignedTxAt l := by
  unfold unsignedTx unsignedTxAt
  rw [Result.bind_eq_ok]
  simp [eq_comm]

end Psbt

/-- The fields of an input that the unsigned transaction is made of. -/
def Input.txFields (self : Input) : OutPoint × Option Sequence × Option Time ×
    Option RequiredHeightLockTime :=
  (self.outPoint, self.sequence, self.minTime, self.minHeight)

/-- What is read from the transaction fields only is equal where these are. -/
theorem Input.map_eq_map_of_txFields {β : Type} {f : Input → β}
    (hf : ∀ i j : Input, i.txFields = j.txFields → f i = f j) {l m : List Input}
    (h : l.map Input.txFields = m.map Input.txFields) : l.map f = m.map f := by
  induction l generalizing m with
  | nil =>
      cases m with
      | nil => rfl
      | cons j m => cases h
  | cons i l ih =>
      cases m with
      | nil => cases h
      | cons j m =>
          rw [List.map_cons, List.map_cons, List.cons.injEq] at h
          rw [List.map_cons, List.map_cons, hf i j h.1, ih h.2]

namespace Psbt

/-- The PSBTs agree on all fields that the unsigned transaction is made of. -/
structure SameTx (p q : Psbt) : Prop where
  txVersion : q.global.txVersion = p.global.txVersion
  fallbackLockTime : q.global.fallbackLockTime = p.global.fallbackLockTime
  inputs : q.inputs.map Input.txFields = p.inputs.map Input.txFields
  outputs : q.outputs = p.outputs

namespace SameTx

variable {p q r : Psbt}

theorem trans (hpq : SameTx p q) (hqr : SameTx q r) : SameTx p r where
  txVersion := hqr.txVersion.trans hpq.txVersion
  fallbackLockTime := hqr.fallbackLockTime.trans hpq.fallbackLockTime
  inputs := hqr.inputs.trans hpq.inputs
  outputs := hqr.outputs.trans hpq.outputs

/-- A test of the transaction fields passes on as many inputs. -/
theorem map_inputs {β : Type} {f : Input → β} (h : SameTx p q)
    (hf : ∀ i j : Input, i.txFields = j.txFields → f i = f j) :
    q.inputs.map f = p.inputs.map f :=
  Input.map_eq_map_of_txFields hf h.inputs

/-- The lock time is determined by the transaction fields. -/
theorem determineLockTime_eq (h : SameTx p q) :
    q.determineLockTime = p.determineLockTime := by
  have hminTime : q.inputs.map Input.minTime = p.inputs.map Input.minTime :=
    h.map_inputs fun i j hij => congrArg (fun fields => fields.2.2.1) hij
  have hminHeight : q.inputs.map Input.minHeight = p.inputs.map Input.minHeight :=
    h.map_inputs fun i j hij => congrArg (fun fields => fields.2.2.2) hij
  have htest : ∀ test : Option Time → Option RequiredHeightLockTime → Bool,
      q.inputs.map (fun i => test i.minTime i.minHeight) =
        p.inputs.map fun i => test i.minTime i.minHeight := fun test =>
    h.map_inputs fun i j hij =>
      congrArg (fun fields => test fields.2.2.1 fields.2.2.2) hij
  have hany : ∀ test : Option Time → Option RequiredHeightLockTime → Bool,
      q.inputs.any (fun i => test i.minTime i.minHeight) =
        p.inputs.any fun i => test i.minTime i.minHeight := by
    intro test
    have hmap := congrArg (fun l => l.any fun b => b) (htest test)
    rw [List.any_map, List.any_map] at hmap
    exact hmap
  have hall : ∀ test : Option Time → Option RequiredHeightLockTime → Bool,
      q.inputs.all (fun i => test i.minTime i.minHeight) =
        p.inputs.all fun i => test i.minTime i.minHeight := by
    intro test
    have hmap := congrArg (fun l => l.all fun b => b) (htest test)
    rw [List.all_map, List.all_map] at hmap
    exact hmap
  have htime : q.inputs.any Input.requiresTimeBasedLockTime =
      p.inputs.any Input.requiresTimeBasedLockTime :=
    hany fun time height => time.isSome && height.isNone
  have hheight : q.inputs.any Input.requiresHeightBasedLockTime =
      p.inputs.any Input.requiresHeightBasedLockTime :=
    hany fun time height => height.isSome && time.isNone
  have hlock : q.inputs.any Input.hasLockTime = p.inputs.any Input.hasLockTime :=
    hany fun time height => time.isSome || height.isSome
  have hsatisfied : q.inputs.all Input.isSatisfiedWithHeightBasedLockTime =
      p.inputs.all Input.isSatisfiedWithHeightBasedLockTime :=
    hall fun time height => height.isSome && time.isNone || time.isSome && height.isSome ||
      time.isNone && height.isNone
  unfold determineLockTime
  rw [htime, hheight, hlock, hsatisfied, hminTime, hminHeight, h.fallbackLockTime]

/-- The unsigned transaction is determined by the transaction fields. -/
theorem unsignedTx_eq (h : SameTx p q) : q.unsignedTx = p.unsignedTx := by
  have hinputs : q.inputs.map Input.unsignedTxIn = p.inputs.map Input.unsignedTxIn :=
    h.map_inputs fun i j hij =>
      congrArg (fun fields => TxIn.mk fields.1 [] (fields.2.1.getD Sequence.max) []) hij
  unfold unsignedTx
  rw [h.determineLockTime_eq, h.txVersion, hinputs, h.outputs]

/-- So is the unique id. -/
theorem id_eq [TxidHash] (h : SameTx p q) : q.id = p.id := by
  unfold Psbt.id idTx
  rw [h.unsignedTx_eq, h.outputs]

end SameTx

end Psbt

end RustPsbt
