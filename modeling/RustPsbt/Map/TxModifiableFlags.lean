import RustPsbt.Map.SighashType

/-!
# Modification flags

The three flags of `PSBT_GLOBAL_TX_MODIFIABLE` and what a signature does to them.

Main results:

- Theorem `TxModifiableFlags.atMost_applySighash`: a signature never allows a
  modification and never forgets a `SIGHASH_SINGLE` signature.
-/

namespace RustPsbt

namespace TxModifiableFlags

/-- `INPUTS_MODIFIABLE`. -/
def INPUTS_MODIFIABLE : UInt8 := 0x01

/-- `OUTPUTS_MODIFIABLE`. -/
def OUTPUTS_MODIFIABLE : UInt8 := (0x01 : UInt8) <<< 1

/-- `SIGHASH_SINGLE`. -/
def SIGHASH_SINGLE : UInt8 := (0x01 : UInt8) <<< 2

/-- `TxModifiableFlags::set_inputs_modifiable`. -/
def setInputsModifiable (self : TxModifiableFlags) : TxModifiableFlags :=
  ⟨self.bits ||| INPUTS_MODIFIABLE⟩

/-- `TxModifiableFlags::set_outputs_modifiable`. -/
def setOutputsModifiable (self : TxModifiableFlags) : TxModifiableFlags :=
  ⟨self.bits ||| OUTPUTS_MODIFIABLE⟩

/-- `TxModifiableFlags::set_sighash_single`. -/
def setSighashSingle (self : TxModifiableFlags) : TxModifiableFlags :=
  ⟨self.bits ||| SIGHASH_SINGLE⟩

/-- `TxModifiableFlags::clear_inputs_modifiable`. -/
def clearInputsModifiable (self : TxModifiableFlags) : TxModifiableFlags :=
  ⟨self.bits &&& ~~~INPUTS_MODIFIABLE⟩

/-- `TxModifiableFlags::clear_outputs_modifiable`. -/
def clearOutputsModifiable (self : TxModifiableFlags) : TxModifiableFlags :=
  ⟨self.bits &&& ~~~OUTPUTS_MODIFIABLE⟩

/-- `TxModifiableFlags::is_inputs_modifiable`. -/
def isInputsModifiable (self : TxModifiableFlags) : Bool :=
  self.bits &&& INPUTS_MODIFIABLE > 0

/-- `TxModifiableFlags::is_outputs_modifiable`. -/
def isOutputsModifiable (self : TxModifiableFlags) : Bool :=
  self.bits &&& OUTPUTS_MODIFIABLE > 0

/-- `TxModifiableFlags::has_sighash_single`. -/
def hasSighashSingle (self : TxModifiableFlags) : Bool :=
  self.bits &&& SIGHASH_SINGLE > 0

/-- `TxModifiableFlags::apply_sighash`. -/
def applySighash (self : TxModifiableFlags) (sighashType : PsbtSighashType) :
    TxModifiableFlags :=
  let self := if !sighashType.isAnyoneCanPay then self.clearInputsModifiable else self
  let self := if !sighashType.isNone then self.clearOutputsModifiable else self
  if sighashType.isSingle then self.setSighashSingle else self

/-! ## The flags after each update -/

/-- Testing a byte against a power of two reads one bit. -/
theorem and_twoPow_pos (x : UInt8) (i : Nat) (hi : i < 8) :
    x &&& ⟨BitVec.twoPow 8 i⟩ > 0 ↔ x.toBitVec.getLsbD i := by
  have hand : (x &&& ⟨BitVec.twoPow 8 i⟩).toBitVec =
      if x.toBitVec.getLsbD i then BitVec.twoPow 8 i else 0#8 :=
    BitVec.and_twoPow x.toBitVec i
  rw [gt_iff_lt, UInt8.lt_iff_toBitVec_lt, hand]
  split
  · rename_i hbit
    have hlt : 2 ^ i < 256 := Nat.pow_lt_pow_right (m := i) (n := 8) (by omega) hi
    have hmod : 2 ^ i % 256 = 2 ^ i := Nat.mod_eq_of_lt hlt
    simp [hbit, BitVec.lt_def, BitVec.toNat_twoPow, hmod]
  · simp_all

theorem isInputsModifiable_eq (f : TxModifiableFlags) :
    f.isInputsModifiable = f.bits.toBitVec.getLsbD 0 := by
  rw [Bool.eq_iff_iff, ← and_twoPow_pos f.bits 0 (by omega)]
  exact decide_eq_true_iff

theorem isOutputsModifiable_eq (f : TxModifiableFlags) :
    f.isOutputsModifiable = f.bits.toBitVec.getLsbD 1 := by
  rw [Bool.eq_iff_iff, ← and_twoPow_pos f.bits 1 (by omega)]
  exact decide_eq_true_iff

theorem hasSighashSingle_eq (f : TxModifiableFlags) :
    f.hasSighashSingle = f.bits.toBitVec.getLsbD 2 := by
  rw [Bool.eq_iff_iff, ← and_twoPow_pos f.bits 2 (by omega)]
  exact decide_eq_true_iff

@[simp]
theorem isInputsModifiable_clearInputsModifiable (f : TxModifiableFlags) :
    f.clearInputsModifiable.isInputsModifiable = false := by
  simp [isInputsModifiable_eq, clearInputsModifiable, INPUTS_MODIFIABLE]

@[simp]
theorem isOutputsModifiable_clearInputsModifiable (f : TxModifiableFlags) :
    f.clearInputsModifiable.isOutputsModifiable = f.isOutputsModifiable := by
  simp [isOutputsModifiable_eq, clearInputsModifiable, INPUTS_MODIFIABLE]

@[simp]
theorem hasSighashSingle_clearInputsModifiable (f : TxModifiableFlags) :
    f.clearInputsModifiable.hasSighashSingle = f.hasSighashSingle := by
  simp [hasSighashSingle_eq, clearInputsModifiable, INPUTS_MODIFIABLE]

@[simp]
theorem isInputsModifiable_clearOutputsModifiable (f : TxModifiableFlags) :
    f.clearOutputsModifiable.isInputsModifiable = f.isInputsModifiable := by
  simp [isInputsModifiable_eq, clearOutputsModifiable, OUTPUTS_MODIFIABLE]

@[simp]
theorem isOutputsModifiable_clearOutputsModifiable (f : TxModifiableFlags) :
    f.clearOutputsModifiable.isOutputsModifiable = false := by
  simp [isOutputsModifiable_eq, clearOutputsModifiable, OUTPUTS_MODIFIABLE]

@[simp]
theorem hasSighashSingle_clearOutputsModifiable (f : TxModifiableFlags) :
    f.clearOutputsModifiable.hasSighashSingle = f.hasSighashSingle := by
  simp [hasSighashSingle_eq, clearOutputsModifiable, OUTPUTS_MODIFIABLE]

@[simp]
theorem isInputsModifiable_setInputsModifiable (f : TxModifiableFlags) :
    f.setInputsModifiable.isInputsModifiable = true := by
  simp [isInputsModifiable_eq, setInputsModifiable, INPUTS_MODIFIABLE]

@[simp]
theorem isInputsModifiable_setOutputsModifiable (f : TxModifiableFlags) :
    f.setOutputsModifiable.isInputsModifiable = f.isInputsModifiable := by
  simp [isInputsModifiable_eq, setOutputsModifiable, OUTPUTS_MODIFIABLE]

@[simp]
theorem isOutputsModifiable_setOutputsModifiable (f : TxModifiableFlags) :
    f.setOutputsModifiable.isOutputsModifiable = true := by
  simp [isOutputsModifiable_eq, setOutputsModifiable, OUTPUTS_MODIFIABLE]

@[simp]
theorem isInputsModifiable_setSighashSingle (f : TxModifiableFlags) :
    f.setSighashSingle.isInputsModifiable = f.isInputsModifiable := by
  simp [isInputsModifiable_eq, setSighashSingle, SIGHASH_SINGLE]

@[simp]
theorem isOutputsModifiable_setSighashSingle (f : TxModifiableFlags) :
    f.setSighashSingle.isOutputsModifiable = f.isOutputsModifiable := by
  simp [isOutputsModifiable_eq, setSighashSingle, SIGHASH_SINGLE]

@[simp]
theorem hasSighashSingle_setSighashSingle (f : TxModifiableFlags) :
    f.setSighashSingle.hasSighashSingle = true := by
  simp [hasSighashSingle_eq, setSighashSingle, SIGHASH_SINGLE]

/-! ## The order of restrictions -/

/-- The left flags allow every modification that the right ones allow, and the
right ones report every `SIGHASH_SINGLE` signature that the left ones report. -/
structure AtMost (g f : TxModifiableFlags) : Prop where
  inputs : g.isInputsModifiable → f.isInputsModifiable
  outputs : g.isOutputsModifiable → f.isOutputsModifiable
  single : f.hasSighashSingle → g.hasSighashSingle

theorem AtMost.refl (f : TxModifiableFlags) : AtMost f f :=
  ⟨fun h => h, fun h => h, fun h => h⟩

theorem AtMost.trans {f g h : TxModifiableFlags} (hgf : AtMost h g) (hfg : AtMost g f) :
    AtMost h f where
  inputs hi := hfg.inputs (hgf.inputs hi)
  outputs ho := hfg.outputs (hgf.outputs ho)
  single hs := hgf.single (hfg.single hs)

/-- A signature only restricts: it allows no modification that was not allowed
and keeps the report of a `SIGHASH_SINGLE` signature. -/
theorem atMost_applySighash (f : TxModifiableFlags) (ty : PsbtSighashType) :
    AtMost (f.applySighash ty) f := by
  unfold applySighash
  constructor
  all_goals
    cases ty.isAnyoneCanPay <;> cases ty.isNone <;> cases ty.isSingle <;> simp

end TxModifiableFlags

end RustPsbt
