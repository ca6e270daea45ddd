import RustPsbt.Map.Key

/-!
# Sighash types

The sighash type of an input is a raw number that may or may not be one of the
ECDSA or taproot sighash types.

Main results:

- Theorem `PsbtSighashType.isSingle_iff_taproot`: on taproot sighash types, the
  test for `SIGHASH_SINGLE` is the test on the taproot type.
- Theorem `PsbtSighashType.isAnyoneCanPay_iff_taproot`: likewise for
  `SIGHASH_ANYONECANPAY`.
-/

namespace RustPsbt

/-! ## Sighash types of `bitcoin` -/

/-- `bitcoin::sighash::EcdsaSighashType`. -/
inductive EcdsaSighashType where
  | all
  | none
  | single
  | allPlusAnyoneCanPay
  | nonePlusAnyoneCanPay
  | singlePlusAnyoneCanPay
deriving DecidableEq

/-- `bitcoin::sighash::TapSighashType`. -/
inductive TapSighashType where
  | default
  | all
  | none
  | single
  | allPlusAnyoneCanPay
  | nonePlusAnyoneCanPay
  | singlePlusAnyoneCanPay
deriving DecidableEq

/-- `bitcoin::sighash::NonStandardSighashTypeError`. -/
structure NonStandardSighashTypeError where
  value : UInt32
deriving DecidableEq

/-- `bitcoin::sighash::InvalidSighashTypeError`. -/
structure InvalidSighashTypeError where
  value : UInt32
deriving DecidableEq

namespace EcdsaSighashType

/-- `EcdsaSighashType::to_u32`, also `as u32`. -/
def toU32 : EcdsaSighashType → UInt32
  | all => 0x01
  | none => 0x02
  | single => 0x03
  | allPlusAnyoneCanPay => 0x81
  | nonePlusAnyoneCanPay => 0x82
  | singlePlusAnyoneCanPay => 0x83

/-- `EcdsaSighashType::from_standard`. -/
def fromStandard (n : UInt32) : Except NonStandardSighashTypeError EcdsaSighashType :=
  if n = 0x01 then .ok all
  else if n = 0x02 then .ok none
  else if n = 0x03 then .ok single
  else if n = 0x81 then .ok allPlusAnyoneCanPay
  else if n = 0x82 then .ok nonePlusAnyoneCanPay
  else if n = 0x83 then .ok singlePlusAnyoneCanPay
  else .error ⟨n⟩

/-- `EcdsaSighashType::is_single`. -/
def isSingle : EcdsaSighashType → Bool
  | single => true
  | singlePlusAnyoneCanPay => true
  | _ => false

@[simp]
theorem fromStandard_toU32 (ty : EcdsaSighashType) : fromStandard ty.toU32 = .ok ty := by
  cases ty <;> rfl

/-- The numbers of the standard types are the standard numbers. -/
theorem fromStandard_eq_ok {n : UInt32} {ty : EcdsaSighashType} :
    fromStandard n = .ok ty ↔ n = ty.toU32 := by
  constructor
  · intro h
    unfold fromStandard at h
    split_ifs at h
    all_goals
      cases h
      assumption
  · rintro rfl
    exact fromStandard_toU32 ty

end EcdsaSighashType

namespace TapSighashType

/-- `TapSighashType as u8`, widened to `u32`. -/
def toU32 : TapSighashType → UInt32
  | default => 0x00
  | all => 0x01
  | none => 0x02
  | single => 0x03
  | allPlusAnyoneCanPay => 0x81
  | nonePlusAnyoneCanPay => 0x82
  | singlePlusAnyoneCanPay => 0x83

/-- `TapSighashType::from_consensus_u8`. -/
def fromConsensusU8 (n : UInt8) : Except InvalidSighashTypeError TapSighashType :=
  if n = 0x00 then .ok default
  else if n = 0x01 then .ok all
  else if n = 0x02 then .ok none
  else if n = 0x03 then .ok single
  else if n = 0x81 then .ok allPlusAnyoneCanPay
  else if n = 0x82 then .ok nonePlusAnyoneCanPay
  else if n = 0x83 then .ok singlePlusAnyoneCanPay
  else .error ⟨n.toUInt32⟩

/-- The numbers of the taproot types are the consensus numbers. -/
theorem fromConsensusU8_eq_ok {n : UInt8} {ty : TapSighashType} :
    fromConsensusU8 n = .ok ty → n.toUInt32 = ty.toU32 := by
  intro h
  unfold fromConsensusU8 at h
  split_ifs at h
  all_goals
    cases h
    subst n
    rfl

/-- The types that commit to one input only, as matched in `taproot_sighash`. -/
def isAnyoneCanPay : TapSighashType → Bool
  | allPlusAnyoneCanPay => true
  | nonePlusAnyoneCanPay => true
  | singlePlusAnyoneCanPay => true
  | _ => false

/-- The types that commit to the output of the input's index only. -/
def isSingle : TapSighashType → Bool
  | single => true
  | singlePlusAnyoneCanPay => true
  | _ => false

end TapSighashType

/-! ## Sighash types of PSBT inputs -/

namespace PsbtSighashType

/-- `SIGHASH_ANYONECANPAY`. -/
def sighashAnyonecanpay : UInt32 := 0x80

/-- `PsbtSighashType::ALL`. -/
def ALL : PsbtSighashType := ⟨0x01⟩

/-- `impl From<EcdsaSighashType> for PsbtSighashType`. -/
def ofEcdsa (ty : EcdsaSighashType) : PsbtSighashType := ⟨ty.toU32⟩

/-- `impl From<TapSighashType> for PsbtSighashType`. -/
def ofTaproot (ty : TapSighashType) : PsbtSighashType := ⟨ty.toU32⟩

/-- `PsbtSighashType::ecdsa_hash_ty`. -/
def ecdsaHashTy (self : PsbtSighashType) :
    Except NonStandardSighashTypeError EcdsaSighashType :=
  EcdsaSighashType.fromStandard self.inner

/-- `PsbtSighashType::taproot_hash_ty`. -/
def taprootHashTy (self : PsbtSighashType) : Except InvalidSighashTypeError TapSighashType :=
  if self.inner < 0x100 then TapSighashType.fromConsensusU8 self.inner.toUInt8
  else .error ⟨self.inner⟩

/-- `PsbtSighashType::is_anyone_can_pay`. -/
def isAnyoneCanPay (self : PsbtSighashType) : Bool :=
  self.inner &&& sighashAnyonecanpay ≠ 0

/-- `PsbtSighashType::is_none`. -/
def isNone (self : PsbtSighashType) : Bool :=
  match self.ecdsaHashTy with
  | .ok .none => true
  | .ok .nonePlusAnyoneCanPay => true
  | _ => false

/-- `PsbtSighashType::is_single`. -/
def isSingle (self : PsbtSighashType) : Bool :=
  match self.ecdsaHashTy with
  | .ok ty => ty.isSingle
  | .error _ => false

@[simp]
theorem ecdsaHashTy_ofEcdsa (ty : EcdsaSighashType) : (ofEcdsa ty).ecdsaHashTy = .ok ty :=
  EcdsaSighashType.fromStandard_toU32 ty

@[simp]
theorem taprootHashTy_ofTaproot (ty : TapSighashType) :
    (ofTaproot ty).taprootHashTy = .ok ty := by
  cases ty <;> rfl

/-- The numbers with an ECDSA type are those of the ECDSA types. -/
theorem ecdsaHashTy_eq_ok {self : PsbtSighashType} {ty : EcdsaSighashType} :
    self.ecdsaHashTy = .ok ty ↔ self = ofEcdsa ty := by
  unfold ecdsaHashTy ofEcdsa
  rw [EcdsaSighashType.fromStandard_eq_ok]
  cases self
  simp

/-- The numbers with a taproot type are those of the taproot types. -/
theorem taprootHashTy_eq_ok {self : PsbtSighashType} {ty : TapSighashType} :
    self.taprootHashTy = .ok ty ↔ self = ofTaproot ty := by
  constructor
  · intro h
    obtain ⟨n⟩ := self
    unfold taprootHashTy at h
    dsimp only at h
    split at h
    · rename_i hlt
      have hn : n.toUInt8.toUInt32 = n := by
        apply UInt32.toNat_inj.mp
        have hlt' : n.toNat < 256 := hlt
        simp
        omega
      have hty := TapSighashType.fromConsensusU8_eq_ok h
      rw [hn] at hty
      rw [hty]
      rfl
    · cases h
  · rintro rfl
    exact taprootHashTy_ofTaproot ty

/-- On taproot types the test for `SIGHASH_SINGLE` is the one on the type. -/
theorem isSingle_iff_taproot {self : PsbtSighashType} {ty : TapSighashType}
    (h : self.taprootHashTy = .ok ty) : self.isSingle = ty.isSingle := by
  rw [taprootHashTy_eq_ok.mp h]
  cases ty <;> rfl

/-- On taproot types the flag for `SIGHASH_ANYONECANPAY` is the one of the type. -/
theorem isAnyoneCanPay_iff_taproot {self : PsbtSighashType} {ty : TapSighashType}
    (h : self.taprootHashTy = .ok ty) : self.isAnyoneCanPay = ty.isAnyoneCanPay := by
  rw [taprootHashTy_eq_ok.mp h]
  cases ty <;> rfl

end PsbtSighashType

end RustPsbt
