import RustPsbt.Psbt

/-!
# Checked access to inputs

The errors of the signer and the bounds check every signing step starts with.

Main results:

- Theorem `Psbt.checkedInput_eq_ok`: the check passes exactly below the number of
  inputs and below the input count.
-/

namespace RustPsbt

/-- `IndexOutOfBoundsError`. -/
inductive IndexOutOfBoundsError where
  | inputs (index length : Nat)
  | count (index count : Nat)
deriving DecidableEq

/-- `FundingUtxoError`. -/
inductive FundingUtxoError where
  | outOfBounds (vout len : Nat)
  | missingUtxo
  | mismatchingUtxos
  | unverifiableUtxo
  | mismatchingTxid
deriving DecidableEq

/-- `SignError`, as far as signing reports it. -/
inductive SignError where
  | indexOutOfBounds (e : IndexOutOfBoundsError)
  | invalidSighashType
  | missingRedeemScript
  | fundingUtxo (e : FundingUtxoError)
  | missingWitnessScript
  | unknownOutputType
  | nonWitnessSig
  | redeemScriptMismatch
  | witnessScriptMismatchWsh
  | witnessScriptMismatchShWsh
  | sighashMismatch
  | sighashSingleMissingOutput
  | allPrevoutsRequired
  | taprootInternalKeyMismatch
deriving DecidableEq

variable [BitcoinTypes]

namespace Psbt

/-- `Psbt::checked_input`. -/
def checkedInput (self : Psbt) (index : Nat) : Result IndexOutOfBoundsError Input :=
  if index ≥ self.inputs.length then
    .err (.inputs index self.inputs.length)
  else if index ≥ self.global.inputCount then
    .err (.count index self.global.inputCount)
  else
    -- `&self.inputs[index]`
    expect self.inputs[index]?

/-- The check passes exactly for the inputs that are there and counted. -/
theorem checkedInput_eq_ok {self : Psbt} {index : Nat} {i : Input} :
    self.checkedInput index = .ok i ↔
      index < self.global.inputCount ∧ self.inputs[index]? = some i := by
  unfold checkedInput
  by_cases hlen : index ≥ self.inputs.length
  · simp [hlen]
  · have hlt : index < self.inputs.length := not_le.mp hlen
    by_cases hcount : index ≥ self.global.inputCount
    · have hnot : ¬index < self.global.inputCount := not_lt.mpr hcount
      simp [hlen, hcount, hnot]
    · have hlt' : index < self.global.inputCount := not_le.mp hcount
      simp [hlen, hcount, hlt', List.getElem?_eq_getElem hlt, expect]

/-- The bounds check returns. -/
theorem returns_checkedInput (self : Psbt) (index : Nat) :
    (self.checkedInput index).Returns := by
  unfold checkedInput
  split
  · trivial
  · rename_i hlen
    split
    · trivial
    · rw [List.getElem?_eq_getElem (not_le.mp hlen)]
      trivial

/-- Counted alike, inputs that are related in pairs pass the bounds check alike. -/
theorem checkedInput_cases {R : Input → Input → Prop} {p q : Psbt}
    (hinputs : List.Forall₂ R p.inputs q.inputs)
    (hcount : q.global.inputCount = p.global.inputCount) (index : Nat) :
    (∃ e, p.checkedInput index = .err e ∧ q.checkedInput index = .err e) ∨
      ∃ i j, R i j ∧ p.checkedInput index = .ok i ∧ q.checkedInput index = .ok j := by
  have hlength : q.inputs.length = p.inputs.length := hinputs.length_eq.symm
  unfold checkedInput
  rw [hlength, hcount]
  by_cases hlen : index ≥ p.inputs.length
  · left
    simp [hlen]
  · by_cases hover : index ≥ p.global.inputCount
    · left
      simp [hlen, hover]
    · right
      have hp : index < p.inputs.length := not_le.mp hlen
      have hq : index < q.inputs.length := hlength.symm ▸ hp
      rw [if_neg hlen, if_neg hover, if_neg hlen, if_neg hover, List.getElem?_eq_getElem hp,
        List.getElem?_eq_getElem hq]
      exact ⟨_, _, hinputs.get hp hq, rfl, rfl⟩

end Psbt

end RustPsbt
