import RustPsbt.Roles.Satisfier
import RustPsbt.Reference.Psbt

/-!
# Timelocks of the finalizer and of the network

The satisfier and the interpreter look at one input, while the lock time of the
transaction is chosen over all of them.

Main results:

- Theorem `Psbt.timelocksSound_iff`: every timelock that the finalizer accepts holds
  in the transaction exactly if all inputs have a sequence that is not final, agree
  on the unit of the lock time, and no relative lock is in a transaction without
  relative locks.
-/

namespace RustPsbt

section

variable [BitcoinTypes]

namespace Psbt

/-- Every timelock that the finalizer accepts for an input holds for this input in
the transaction: those that the satisfier claims, and those below the lock time that
the interpreter is given. -/
structure TimelocksSound (p : Psbt) (tx : Transaction) : Prop where
  absolute : ∀ (index : Nat) (i : Input), p.inputs[index]? = some i → ∀ n : LockTime,
    (i.checkAfter n ∨ n.isImpliedBy i.lockTime) → tx.CheckLockTimeVerify index n
  relative : ∀ (index : Nat) (i : Input), p.inputs[index]? = some i →
    ∀ n : RelativeLockTime, i.checkOlder n → tx.CheckSequenceVerify index n

/-- No input accepts a time, and the lock time is a height. -/
def HeightLocked (p : Psbt) : Prop :=
  (∀ i ∈ p.inputs, i.minTime = none) ∧
    ((∃ i ∈ p.inputs, i.minHeight.isSome) ∨
      LockTime.SameUnit .zero (p.global.fallbackLockTime.getD .zero))

/-- No input is final, all accept one unit only, and relative locks need a
transaction of version 2. -/
structure TimelockCondition (p : Psbt) : Prop where
  sequence : ∀ i ∈ p.inputs, ∃ seq, i.sequence = some seq ∧ seq ≠ .max
  unit : (∀ i ∈ p.inputs, i.TimeOnly) ∨ p.HeightLocked
  version : 2 ≤ p.global.txVersion ∨ ∀ i ∈ p.inputs, ∀ seq, i.sequence = some seq →
    seq &&& Sequence.lockTimeDisableFlagMask ≠ 0

variable {p : Psbt} {l : LockTime}

/-- When an absolute timelock holds for an input. -/
theorem checkLockTimeVerify_iff {index : Nat} {i : Input} {n : LockTime}
    (hi : p.inputs[index]? = some i) :
    (p.unsignedTxAt l).CheckLockTimeVerify index n ↔
      n.isImpliedBy l ∧ ∃ seq, i.sequence = some seq ∧ seq ≠ .max := by
  have hinput : (p.unsignedTxAt l).input[index]? = some i.unsignedTxIn := by
    simp [unsignedTxAt, hi]
  have hseq : i.unsignedTxIn.sequence ≠ .max ↔
      ∃ seq, i.sequence = some seq ∧ seq ≠ .max := by
    cases hs : i.sequence <;> simp [Input.unsignedTxIn, hs]
  rw [LockTime.isImpliedBy_iff, ← hseq]
  unfold Transaction.CheckLockTimeVerify
  rw [hinput]
  simp [unsignedTxAt, and_assoc]

/-- When a relative timelock holds for an input with a sequence. -/
theorem checkSequenceVerify_iff {index : Nat} {i : Input} {seq : Sequence}
    {n : RelativeLockTime} (hi : p.inputs[index]? = some i) (hs : i.sequence = some seq) :
    (p.unsignedTxAt l).CheckSequenceVerify index n ↔
      2 ≤ p.global.txVersion ∧ seq.Reaches n := by
  have hinput : (p.unsignedTxAt l).input[index]? = some i.unsignedTxIn := by
    simp [unsignedTxAt, hi]
  unfold Transaction.CheckSequenceVerify
  rw [hinput]
  simp [unsignedTxAt, Input.unsignedTxIn, hs]

/-! ## The lock time of an input and of the transaction -/

/-- The lock time of an input is a time exactly if the input accepts a time only. -/
theorem lockTime_eq_seconds {i : Input} {t : Time} :
    i.lockTime = .seconds t ↔ i.minTime = some t ∧ i.minHeight = none := by
  unfold Input.lockTime
  cases i.minHeight <;> cases i.minTime <;> simp [LockTime.zero]

/-- Where all inputs accept a time only, the lock time reaches each of them. -/
theorem lockTimeIs_of_timeOnly (hl : p.LockTimeIs l) (hall : ∀ i ∈ p.inputs, i.TimeOnly)
    {i : Input} (hi : i ∈ p.inputs) :
    ∃ t m, i.minTime = some t ∧ i.minHeight = none ∧ l = .seconds m ∧ t ≤ m := by
  obtain ⟨hsome, hheight⟩ := hall i hi
  obtain ⟨t, ht⟩ := Option.isSome_iff_exists.mp hsome
  cases hl with
  | fallback hnone => exact absurd (hall i hi).hasLock (hnone i hi)
  | height _ hnot _ => exact absurd (hall i hi) (hnot i hi)
  | time _ _ hmax => exact ⟨t, _, ht, hheight, rfl, hmax.2 ⟨i, hi, ht⟩⟩

/-- Where no input accepts a time and the fallback is a height, so is the lock time. -/
theorem lockTimeIs_of_heightLocked (hl : p.LockTimeIs l) (hall : p.HeightLocked) :
    ∃ m, l = .blocks m := by
  obtain ⟨hnotime, hunit⟩ := hall
  cases hl with
  | fallback hnone =>
      rcases hunit with ⟨i, hi, hheight⟩ | hunit
      · exact absurd (Or.inr hheight) (hnone i hi)
      · cases hf : p.global.fallbackLockTime.getD .zero with
        | blocks m => exact ⟨m, rfl⟩
        | seconds m =>
            rw [hf] at hunit
            exact hunit.elim
  | height _ _ _ => exact ⟨_, rfl⟩
  | time htime _ _ =>
      obtain ⟨i, hi, hsome, -⟩ := htime
      rw [hnotime i hi] at hsome
      cases hsome

/-- Where every accepted timelock holds, the inputs agree on the unit. -/
theorem TimelocksSound.unit (hl : p.LockTimeIs l)
    (h : p.TimelocksSound (p.unsignedTxAt l)) :
    (∀ i ∈ p.inputs, i.TimeOnly) ∨ p.HeightLocked := by
  have hsame : ∀ i ∈ p.inputs, ∀ n : LockTime, (i.checkAfter n ∨ n.isImpliedBy i.lockTime) →
      n.SameUnit l := by
    intro i hi n hn
    obtain ⟨index, hindex⟩ := List.mem_iff_getElem?.mp hi
    have hverify := h.absolute index i hindex n hn
    exact (LockTime.isImpliedBy_iff.mp ((checkLockTimeVerify_iff hindex).mp hverify).1).1
  cases hl' : l with
  | seconds m =>
      left
      intro i hi
      -- the lock time given to the interpreter must itself be a time
      have hunit := hsame i hi i.lockTime (Or.inr i.lockTime.isImpliedBy_self)
      cases hlock : i.lockTime with
      | blocks b =>
          rw [hl', hlock] at hunit
          exact hunit.elim
      | seconds t =>
          obtain ⟨htime, hheight⟩ := lockTime_eq_seconds.mp hlock
          exact ⟨by simp [htime], hheight⟩
  | blocks m =>
      right
      constructor
      · intro i hi
        cases htime : i.minTime with
        | none => rfl
        | some t =>
            have hunit := hsame i hi (.seconds t)
              (Or.inl (Input.checkAfter_iff.mpr (Or.inr ⟨t, htime, by simp⟩)))
            rw [hl'] at hunit
            exact hunit.elim
      · rw [hl'] at hl
        generalize hb : LockTime.blocks m = b at hl
        cases hl with
        | fallback _ =>
            right
            rw [← hb]
            trivial
        | @height h' hlock hnot hmax =>
            left
            obtain ⟨i, hi, hih⟩ := hmax.1
            exact ⟨i, hi, by simp [hih]⟩
        | time _ _ _ => cases hb

/-- An input that requires one unit only claims what its lock time implies. -/
theorem isImpliedBy_lockTime_of_accepted {i : Input} {n : LockTime}
    (hone : i.minTime = none ∨ i.minHeight = none)
    (hn : i.checkAfter n ∨ n.isImpliedBy i.lockTime) : n.isImpliedBy i.lockTime := by
  rcases hn with hn | hn
  · rcases Input.checkAfter_iff.mp hn with ⟨r, hr, hn⟩ | ⟨t, ht, hn⟩
    · have hlock : i.lockTime = .blocks r.height := by
        unfold Input.lockTime
        cases i.minTime <;> simp [hr]
      rwa [hlock]
    · have hheight : i.minHeight = none := by
        rcases hone with hone | hone
        · rw [ht] at hone
          cases hone
        · exact hone
      rwa [lockTime_eq_seconds.mpr ⟨ht, hheight⟩]
  · exact hn

/-- Where the inputs agree on the unit, the lock time reaches that of each input. -/
theorem lockTime_isImpliedBy (hl : p.LockTimeIs l)
    (hunit : (∀ i ∈ p.inputs, i.TimeOnly) ∨ p.HeightLocked) {i : Input}
    (hi : i ∈ p.inputs) : i.lockTime.isImpliedBy l := by
  rcases hunit with hall | hall
  · obtain ⟨t, m, htime, hheight, rfl, hle⟩ := lockTimeIs_of_timeOnly hl hall hi
    rw [lockTime_eq_seconds.mpr ⟨htime, hheight⟩]
    simpa [LockTime.isImpliedBy] using hle
  · obtain ⟨m, rfl⟩ := lockTimeIs_of_heightLocked hl hall
    have htime := hall.1 i hi
    cases hheight : i.minHeight with
    | some r =>
        have hle : r.height ≤ m := hl.atLeast hi r hheight
        simpa [Input.lockTime, htime, hheight, LockTime.isImpliedBy] using hle
    | none =>
        have hle : (0 : UInt32).toNat ≤ m.value.toNat := Nat.zero_le _
        have hzero : (⟨0, by decide⟩ : Height) ≤ m := hle
        simpa [Input.lockTime, htime, hheight, LockTime.isImpliedBy, LockTime.zero] using hzero

/-- Every timelock that the finalizer accepts holds in the transaction exactly under
the condition. -/
theorem timelocksSound_iff {tx : Transaction} (h : p.unsignedTx = .ok tx) :
    p.TimelocksSound tx ↔ p.TimelockCondition := by
  obtain ⟨l, hdet, rfl⟩ := unsignedTx_eq_ok.mp h
  have hl : p.LockTimeIs l := (determineLockTime_eq_ok.mp hdet).2
  constructor
  · intro hsound
    have hsequence : ∀ i ∈ p.inputs, ∃ seq, i.sequence = some seq ∧ seq ≠ .max := by
      intro i hi
      obtain ⟨index, hindex⟩ := List.mem_iff_getElem?.mp hi
      have hverify := hsound.absolute index i hindex i.lockTime
        (Or.inr i.lockTime.isImpliedBy_self)
      exact ((checkLockTimeVerify_iff hindex).mp hverify).2
    refine ⟨hsequence, hsound.unit hl, ?_⟩
    by_cases hversion : 2 ≤ p.global.txVersion
    · exact Or.inl hversion
    · right
      intro i hi seq hseq hdisable
      obtain ⟨index, hindex⟩ := List.mem_iff_getElem?.mp hi
      obtain ⟨lock, hlock⟩ := Sequence.fromSequence_isOk.mpr hdisable
      have hreaches : seq.Reaches lock :=
        (Sequence.isImpliedBy_fromSequence_iff hlock).mp lock.isImpliedBy_self
      have hverify := hsound.relative index i hindex lock
        (Input.checkOlder_iff.mpr ⟨seq, hseq, hreaches⟩)
      exact hversion ((checkSequenceVerify_iff hindex hseq).mp hverify).1
  · intro hcond
    constructor
    · intro index i hindex n hn
      have hi : i ∈ p.inputs := List.mem_of_getElem? hindex
      have hone : i.minTime = none ∨ i.minHeight = none := by
        rcases hcond.unit with hall | hall
        · exact Or.inr (hall i hi).2
        · exact Or.inl (hall.1 i hi)
      refine (checkLockTimeVerify_iff hindex).mpr ⟨?_, hcond.sequence i hi⟩
      exact LockTime.isImpliedBy_trans (isImpliedBy_lockTime_of_accepted hone hn)
        (lockTime_isImpliedBy hl hcond.unit hi)
    · intro index i hindex n hn
      have hi : i ∈ p.inputs := List.mem_of_getElem? hindex
      obtain ⟨seq, hseq, hreaches⟩ := Input.checkOlder_iff.mp hn
      refine (checkSequenceVerify_iff hindex hseq).mpr ⟨?_, hreaches⟩
      rcases hcond.version with hversion | hdisabled
      · exact hversion
      · exact absurd hreaches.1 (hdisabled i hi seq hseq)

end Psbt

end

/-! ## Reference runs -/

namespace Psbt

attribute [local instance] Reference.types

/-- A PSBT whose input requires height 800000, with the given sequence. -/
def heightLocked (sequence : Option Sequence) : Psbt :=
  Reference.psbt
    [{ Reference.input 0 with
        sequence := sequence
        minHeight := some ⟨⟨800000, by decide⟩, by decide⟩ }]
    [Reference.output [0x51]]

/-- With a sequence that is not final the accepted timelocks hold. -/
theorem timelocksSound_heightLocked :
    ∃ tx, (heightLocked (some 0xfffffffe)).TimelocksSound tx :=
  ⟨_, (timelocksSound_iff (p := heightLocked (some 0xfffffffe)) rfl).mpr
    ⟨by simp [heightLocked, Reference.psbt, Sequence.max],
      Or.inr ⟨by simp [heightLocked, Reference.psbt, Reference.input, Input.new],
        Or.inl (by simp [heightLocked, Reference.psbt])⟩,
      Or.inl (by decide)⟩⟩

/-- Without a sequence the input is final and its height lock fails in the network,
although the satisfier claims it. -/
theorem not_timelocksSound_heightLocked :
    ¬∀ (p : Psbt) (tx : Transaction), p.unsignedTx = .ok tx → p.TimelocksSound tx := by
  intro h
  have hsound := h (heightLocked none) _ rfl
  have hafter : ({ Reference.input 0 with
      minHeight := some ⟨⟨800000, by decide⟩, by decide⟩ } : Input).checkAfter
      (.blocks ⟨800000, by decide⟩) := by
    decide
  obtain ⟨txIn, htxIn, -, -, hfinal⟩ := hsound.absolute 0 _ rfl _ (Or.inl hafter)
  cases htxIn
  exact hfinal rfl

end Psbt

end RustPsbt
