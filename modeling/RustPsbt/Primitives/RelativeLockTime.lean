import RustPsbt.Primitives.Bitcoin

/-!
# Relative lock times and timelock opcodes

What a sequence number says about relative lock times, and when the timelock
opcodes of a transaction succeed.

Main results:

- Theorem `LockTime.isImpliedBy_iff`: an absolute lock time implies the smaller ones
  of its unit.
- Theorem `Sequence.isImpliedBy_fromSequence_iff`: the relative lock time of a
  sequence implies what the sequence reaches in its unit.
-/

namespace RustPsbt

/-! ## Absolute lock times -/

/-- `absolute::LockTime::is_implied_by`. -/
def LockTime.isImpliedBy (self lock : LockTime) : Bool :=
  match self, lock with
  | .blocks this, .blocks other => this ≤ other
  | .seconds this, .seconds other => this ≤ other
  | _, _ => false

/-- Both lock times are heights or both are times. -/
def LockTime.SameUnit (a b : LockTime) : Prop :=
  match a, b with
  | .blocks _, .blocks _ => True
  | .seconds _, .seconds _ => True
  | _, _ => False

instance (a b : LockTime) : Decidable (a.SameUnit b) := by
  unfold LockTime.SameUnit
  split <;> infer_instance

/-- A lock time implies the lock times of its unit up to its own value. -/
theorem LockTime.isImpliedBy_iff {n l : LockTime} :
    n.isImpliedBy l ↔ n.SameUnit l ∧ n.toConsensusU32 ≤ l.toConsensusU32 := by
  cases n <;> cases l
  · simp only [isImpliedBy, SameUnit, toConsensusU32, decide_eq_true_eq, true_and]
    rfl
  · simp [isImpliedBy, SameUnit]
  · simp [isImpliedBy, SameUnit]
  · simp only [isImpliedBy, SameUnit, toConsensusU32, decide_eq_true_eq, true_and]
    rfl

@[simp]
theorem LockTime.isImpliedBy_self (l : LockTime) : l.isImpliedBy l := by
  cases l <;> simp [isImpliedBy]

theorem LockTime.isImpliedBy_trans {a b c : LockTime} (hab : a.isImpliedBy b)
    (hbc : b.isImpliedBy c) : a.isImpliedBy c := by
  cases a <;> cases b <;> cases c <;> simp only [isImpliedBy, decide_eq_true_eq] at *
  · exact hab.trans hbc
  · cases hbc
  · cases hab
  · cases hab
  · cases hab
  · cases hab
  · cases hbc
  · exact hab.trans hbc

/-! ## Sequence numbers -/

/-- `relative::LockTime`: blocks, or intervals of 512 seconds. -/
inductive RelativeLockTime where
  | blocks (height : UInt16)
  | time (intervals : UInt16)
deriving DecidableEq

/-- `relative::DisabledLockTimeError`. -/
structure DisabledLockTimeError where
  sequence : UInt32
deriving DecidableEq

namespace Sequence

/-- `Sequence::LOCK_TIME_DISABLE_FLAG_MASK`. -/
def lockTimeDisableFlagMask : UInt32 := 0x80000000

/-- `Sequence::LOCK_TYPE_MASK`. -/
def lockTypeMask : UInt32 := 0x00400000

/-- `Sequence::is_relative_lock_time`. -/
def isRelativeLockTime (self : Sequence) : Bool :=
  self &&& lockTimeDisableFlagMask = 0

/-- `Sequence::is_time_locked`. -/
def isTimeLocked (self : Sequence) : Bool :=
  isRelativeLockTime self && self &&& lockTypeMask > 0

/-- `Sequence::low_u16`. -/
def lowU16 (self : Sequence) : UInt16 :=
  self.toUInt16

/-- `Sequence::to_relative_lock_time`. -/
def toRelativeLockTime (self : Sequence) : Option RelativeLockTime :=
  if !isRelativeLockTime self then
    none
  else if isTimeLocked self then
    some (.time (lowU16 self))
  else
    some (.blocks (lowU16 self))

end Sequence

namespace RelativeLockTime

/-- `relative::LockTime::from_sequence`. -/
def fromSequence (n : Sequence) : Except DisabledLockTimeError RelativeLockTime :=
  match Sequence.toRelativeLockTime n with
  | some lock => .ok lock
  | none => .error ⟨n⟩

/-- `relative::LockTime::is_implied_by`. -/
def isImpliedBy (self other : RelativeLockTime) : Bool :=
  match self, other with
  | .blocks this, .blocks other => this ≤ other
  | .time this, .time other => this ≤ other
  | _, _ => false

@[simp]
theorem isImpliedBy_self (l : RelativeLockTime) : l.isImpliedBy l := by
  cases l <;> simp [isImpliedBy]

end RelativeLockTime

/-! ## Timelock opcodes -/

namespace Sequence

/-- The sequence reaches the relative lock time: its lock is not disabled, is of the
same unit and at least as long. -/
def Reaches (self : Sequence) (n : RelativeLockTime) : Prop :=
  self &&& lockTimeDisableFlagMask = 0 ∧
    match n with
    | .blocks height => self &&& lockTypeMask = 0 ∧ height ≤ self.toUInt16
    | .time intervals => self &&& lockTypeMask ≠ 0 ∧ intervals ≤ self.toUInt16

/-- A sequence has a relative lock time unless it is disabled. -/
theorem fromSequence_isOk {seq : Sequence} :
    (∃ lock, RelativeLockTime.fromSequence seq = .ok lock) ↔
      seq &&& lockTimeDisableFlagMask = 0 := by
  unfold RelativeLockTime.fromSequence toRelativeLockTime isRelativeLockTime
  by_cases h : seq &&& lockTimeDisableFlagMask = 0
  · cases htime : isTimeLocked seq <;> simp [h]
  · simp [h]

/-- The relative lock time of a sequence implies what the sequence reaches. -/
theorem isImpliedBy_fromSequence_iff {seq : Sequence} {lock n : RelativeLockTime}
    (h : RelativeLockTime.fromSequence seq = .ok lock) :
    n.isImpliedBy lock ↔ Reaches seq n := by
  have hdisable : seq &&& lockTimeDisableFlagMask = 0 := fromSequence_isOk.mp ⟨lock, h⟩
  have hpos : seq &&& lockTypeMask > 0 ↔ seq &&& lockTypeMask ≠ 0 := by
    rw [gt_iff_lt, UInt32.pos_iff_ne_zero]
  unfold RelativeLockTime.fromSequence toRelativeLockTime isTimeLocked isRelativeLockTime at h
  by_cases htime : seq &&& lockTypeMask = 0
  · have hlock : lock = .blocks (lowU16 seq) := by
      simpa [hdisable, htime, eq_comm] using h
    subst hlock
    cases n with
    | blocks height =>
        simp only [RelativeLockTime.isImpliedBy, Reaches, hdisable, htime, lowU16, true_and]
        exact decide_eq_true_iff
    | time intervals => simp [RelativeLockTime.isImpliedBy, Reaches, htime]
  · have hlock : lock = .time (lowU16 seq) := by
      simpa [hdisable, hpos, htime, eq_comm] using h
    subst hlock
    cases n with
    | blocks height => simp [RelativeLockTime.isImpliedBy, Reaches, htime]
    | time intervals =>
        simp only [RelativeLockTime.isImpliedBy, Reaches, hdisable, ne_eq, htime,
          not_false_eq_true, lowU16, true_and]
        exact decide_eq_true_iff

end Sequence

namespace Transaction

variable [BitcoinTypes]

/-- `OP_CHECKLOCKTIMEVERIFY n` succeeds in the input of the index: the lock time of the
transaction has the unit of `n` and reaches it, and the input is not final. -/
def CheckLockTimeVerify (tx : Transaction) (index : Nat) (n : LockTime) : Prop :=
  ∃ txIn, tx.input[index]? = some txIn ∧
    n.SameUnit tx.lockTime ∧ n.toConsensusU32 ≤ tx.lockTime.toConsensusU32 ∧
    txIn.sequence ≠ .max

/-- `OP_CHECKSEQUENCEVERIFY n` succeeds in the input of the index: the transaction has
relative lock times, and the sequence of the input reaches `n`. -/
def CheckSequenceVerify (tx : Transaction) (index : Nat) (n : RelativeLockTime) : Prop :=
  ∃ txIn, tx.input[index]? = some txIn ∧ 2 ≤ tx.version ∧ txIn.sequence.Reaches n

end Transaction

end RustPsbt
