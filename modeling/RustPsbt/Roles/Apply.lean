import RustPsbt.Reference.Signing

/-!
# What applying signatures does

`Signer::apply` is a loop over entries of signatures.  Its effect is one pure update of
the signed inputs, and one of the modification flags.

Main results:

- Theorem `Signer.apply_eq_ok`: when applying succeeds, and with which PSBT.
- Theorem `Signer.apply_exact`: the flags and the signature maps afterwards, and when it fails.
-/

namespace RustPsbt

/-! ## Sighash types -/

namespace EcdsaSighashType

/-- The types that commit to one input only. -/
def isAnyoneCanPay : EcdsaSighashType → Bool
  | allPlusAnyoneCanPay => true
  | nonePlusAnyoneCanPay => true
  | singlePlusAnyoneCanPay => true
  | _ => false

/-- The types that commit to no output. -/
def isNone : EcdsaSighashType → Bool
  | none => true
  | nonePlusAnyoneCanPay => true
  | _ => false

end EcdsaSighashType

/-- The types that commit to no output. -/
def TapSighashType.isNone : TapSighashType → Bool
  | none => true
  | nonePlusAnyoneCanPay => true
  | _ => false

namespace PsbtSighashType

@[simp]
theorem isAnyoneCanPay_ofEcdsa (ty : EcdsaSighashType) :
    (ofEcdsa ty).isAnyoneCanPay = ty.isAnyoneCanPay := by
  cases ty <;> rfl

@[simp]
theorem isNone_ofEcdsa (ty : EcdsaSighashType) : (ofEcdsa ty).isNone = ty.isNone := by
  cases ty <;> rfl

@[simp]
theorem isSingle_ofEcdsa (ty : EcdsaSighashType) : (ofEcdsa ty).isSingle = ty.isSingle := by
  cases ty <;> rfl

@[simp]
theorem isAnyoneCanPay_ofTaproot (ty : TapSighashType) :
    (ofTaproot ty).isAnyoneCanPay = ty.isAnyoneCanPay := by
  cases ty <;> rfl

@[simp]
theorem isNone_ofTaproot (ty : TapSighashType) : (ofTaproot ty).isNone = ty.isNone := by
  cases ty <;> rfl

@[simp]
theorem isSingle_ofTaproot (ty : TapSighashType) :
    (ofTaproot ty).isSingle = ty.isSingle := by
  cases ty <;> rfl

end PsbtSighashType

/-! ## Flags -/

namespace TxModifiableFlags

@[simp]
theorem isInputsModifiable_applySighash (f : TxModifiableFlags) (ty : PsbtSighashType) :
    (f.applySighash ty).isInputsModifiable = (f.isInputsModifiable && ty.isAnyoneCanPay) := by
  unfold applySighash
  cases ty.isAnyoneCanPay <;> cases ty.isNone <;> cases ty.isSingle <;> simp

@[simp]
theorem isOutputsModifiable_applySighash (f : TxModifiableFlags) (ty : PsbtSighashType) :
    (f.applySighash ty).isOutputsModifiable = (f.isOutputsModifiable && ty.isNone) := by
  unfold applySighash
  cases ty.isAnyoneCanPay <;> cases ty.isNone <;> cases ty.isSingle <;> simp

@[simp]
theorem hasSighashSingle_applySighash (f : TxModifiableFlags) (ty : PsbtSighashType) :
    (f.applySighash ty).hasSighashSingle = (f.hasSighashSingle || ty.isSingle) := by
  unfold applySighash
  cases ty.isAnyoneCanPay <;> cases ty.isNone <;> cases ty.isSingle <;> simp

/-- The flags have equal bits from the fourth on. -/
def SameOtherBits (f g : TxModifiableFlags) : Prop :=
  ∀ b, 3 ≤ b → g.bits.toBitVec.getLsbD b = f.bits.toBitVec.getLsbD b

theorem SameOtherBits.refl (f : TxModifiableFlags) : SameOtherBits f f :=
  fun _ _ => rfl

theorem SameOtherBits.trans {f g h : TxModifiableFlags} (hfg : SameOtherBits f g)
    (hgh : SameOtherBits g h) : SameOtherBits f h :=
  fun b hb => (hgh b hb).trans (hfg b hb)

/-- The mask of one of the three flags has none of the other bits. -/
theorem getLsbD_mask (mask : UInt8) (hmask : mask.toNat < 8) {b : Nat} (hb : 3 ≤ b) :
    mask.toBitVec.getLsbD b = false := by
  have hpow : 2 ^ 3 ≤ 2 ^ b := Nat.pow_le_pow_right (by omega) hb
  exact Nat.testBit_lt_two_pow (hmask.trans_le hpow)

/-- Clearing a mask keeps the bits outside of it. -/
theorem getLsbD_clear (x mask : UInt8) {b : Nat} (hmask : mask.toBitVec.getLsbD b = false) :
    (x &&& ~~~mask).toBitVec.getLsbD b = x.toBitVec.getLsbD b := by
  rw [UInt8.toBitVec_and, UInt8.toBitVec_not, BitVec.getLsbD_and, BitVec.getLsbD_not, hmask]
  by_cases hlt : b < 8
  · simp [hlt]
  · simp [BitVec.getLsbD_of_ge _ _ (not_lt.mp hlt)]

theorem sameOtherBits_clearInputsModifiable (f : TxModifiableFlags) :
    SameOtherBits f f.clearInputsModifiable :=
  fun _ hb => getLsbD_clear _ _ (getLsbD_mask INPUTS_MODIFIABLE (by decide) hb)

theorem sameOtherBits_clearOutputsModifiable (f : TxModifiableFlags) :
    SameOtherBits f f.clearOutputsModifiable :=
  fun _ hb => getLsbD_clear _ _ (getLsbD_mask OUTPUTS_MODIFIABLE (by decide) hb)

theorem sameOtherBits_setSighashSingle (f : TxModifiableFlags) :
    SameOtherBits f f.setSighashSingle := by
  intro b hb
  have hmask := getLsbD_mask SIGHASH_SINGLE (by decide) hb
  simp [setSighashSingle, hmask]

/-- A signature touches the first three bits only. -/
theorem sameOtherBits_applySighash (f : TxModifiableFlags) (ty : PsbtSighashType) :
    SameOtherBits f (f.applySighash ty) := by
  have hinputs : SameOtherBits f
      (if !ty.isAnyoneCanPay then f.clearInputsModifiable else f) := by
    split
    · exact sameOtherBits_clearInputsModifiable f
    · exact .refl f
  have houtputs (g : TxModifiableFlags) : SameOtherBits g
      (if !ty.isNone then g.clearOutputsModifiable else g) := by
    split
    · exact sameOtherBits_clearOutputsModifiable g
    · exact .refl g
  have hsingle (g : TxModifiableFlags) : SameOtherBits g
      (if ty.isSingle then g.setSighashSingle else g) := by
    split
    · exact sameOtherBits_setSighashSingle g
    · exact .refl g
  exact (hinputs.trans (houtputs _)).trans (hsingle _)

/-- Flags are their three flags and their other bits. -/
theorem ext_flags {f g : TxModifiableFlags}
    (hinputs : f.isInputsModifiable = g.isInputsModifiable)
    (houtputs : f.isOutputsModifiable = g.isOutputsModifiable)
    (hsingle : f.hasSighashSingle = g.hasSighashSingle) (hother : SameOtherBits g f) :
    f = g := by
  rw [isInputsModifiable_eq, isInputsModifiable_eq] at hinputs
  rw [isOutputsModifiable_eq, isOutputsModifiable_eq] at houtputs
  rw [hasSighashSingle_eq, hasSighashSingle_eq] at hsingle
  have hbits : f.bits.toBitVec = g.bits.toBitVec := by
    apply BitVec.eq_of_getLsbD_eq
    intro b hb
    match b with
    | 0 => exact hinputs
    | 1 => exact houtputs
    | 2 => exact hsingle
    | b + 3 => exact hother (b + 3) (by omega)
  cases f
  cases g
  exact congrArg TxModifiableFlags.mk (UInt8.toBitVec_inj.mp hbits)

end TxModifiableFlags

section Generic

variable [BitcoinTypes]

/-! ## The signatures of one entry -/

section

variable [SignatureTypes]

namespace TypedSigs

/-- Every signature has a sighash type with the property. -/
def Every (pe : EcdsaSighashType → Prop) (pt : TapSighashType → Prop) : TypedSigs → Prop
  | .ecdsa signatures => ∀ entry ∈ signatures, pe (ecdsaSighashType entry.2)
  | .taproot signatures => ∀ entry ∈ signatures, pt (taprootSighashType entry.2)

/-- The signatures have one sighash type. -/
def SharesSighashType : TypedSigs → Prop
  | .ecdsa signatures => ∃ ty, ∀ entry ∈ signatures, ecdsaSighashType entry.2 = ty
  | .taproot signatures => ∃ ty, ∀ entry ∈ signatures, taprootSighashType entry.2 = ty

/-- The sighash type that `Signer::apply` takes for all of the signatures. -/
def firstSighashType : TypedSigs → Option PsbtSighashType
  | .ecdsa signatures =>
      signatures.head?.map fun entry => .ofEcdsa (ecdsaSighashType entry.2)
  | .taproot signatures =>
      signatures.head?.map fun entry => .ofTaproot (taprootSighashType entry.2)

/-- Every signature is for one input only. -/
def IsAnyoneCanPay (self : TypedSigs) : Prop :=
  self.Every (·.isAnyoneCanPay) (·.isAnyoneCanPay)

/-- Every signature is for no output. -/
def IsNone (self : TypedSigs) : Prop :=
  self.Every (·.isNone) (·.isNone)

/-- There are signatures, each for the output of the input's index. -/
def IsSingle (self : TypedSigs) : Prop :=
  self.isEmpty = false ∧ self.Every (·.isSingle) (·.isSingle)

/-- A property of all the signatures is one of the first. -/
theorem every_iff_firstSighashType {self : TypedSigs} (h : self.SharesSighashType)
    {pe : EcdsaSighashType → Prop} {pt : TapSighashType → Prop} {p : PsbtSighashType → Prop}
    (hpe : ∀ ty, p (.ofEcdsa ty) ↔ pe ty) (hpt : ∀ ty, p (.ofTaproot ty) ↔ pt ty) :
    self.Every pe pt ↔ ∀ ty, self.firstSighashType = some ty → p ty := by
  cases self with
  | ecdsa signatures =>
      obtain ⟨shared, hshared⟩ := h
      cases signatures with
      | nil => simp [Every, firstSighashType]
      | cons first rest =>
          have hfirst : ecdsaSighashType first.2 = shared := hshared first List.mem_cons_self
          simp only [firstSighashType, List.head?_cons, Option.map_some, Option.some_inj,
            forall_eq', hpe, hfirst]
          constructor
          · intro hall
            exact hfirst ▸ hall first List.mem_cons_self
          · intro hp entry hentry
            exact (hshared entry hentry).symm ▸ hp
  | taproot signatures =>
      obtain ⟨shared, hshared⟩ := h
      cases signatures with
      | nil => simp [Every, firstSighashType]
      | cons first rest =>
          have hfirst : taprootSighashType first.2 = shared := hshared first List.mem_cons_self
          simp only [firstSighashType, List.head?_cons, Option.map_some, Option.some_inj,
            forall_eq', hpt, hfirst]
          constructor
          · intro hall
            exact hfirst ▸ hall first List.mem_cons_self
          · intro hp entry hentry
            exact (hshared entry hentry).symm ▸ hp

/-- The flags after the signatures were applied. -/
def restrict (self : TypedSigs) (flags : TxModifiableFlags) : TxModifiableFlags :=
  match self.firstSighashType with
  | some ty => flags.applySighash ty
  | none => flags

variable {self : TypedSigs}

/-- Inputs stay modifiable exactly under signatures for one input. -/
theorem isInputsModifiable_restrict (h : self.SharesSighashType) (flags : TxModifiableFlags) :
    (self.restrict flags).isInputsModifiable ↔
      flags.isInputsModifiable ∧ self.IsAnyoneCanPay := by
  have hevery : self.IsAnyoneCanPay ↔
      ∀ ty, self.firstSighashType = some ty → ty.isAnyoneCanPay :=
    every_iff_firstSighashType h (by simp) (by simp)
  rw [hevery]
  unfold restrict
  cases self.firstSighashType <;> simp

/-- Outputs stay modifiable exactly under signatures for no output. -/
theorem isOutputsModifiable_restrict (h : self.SharesSighashType)
    (flags : TxModifiableFlags) :
    (self.restrict flags).isOutputsModifiable ↔ flags.isOutputsModifiable ∧ self.IsNone := by
  have hevery : self.IsNone ↔ ∀ ty, self.firstSighashType = some ty → ty.isNone :=
    every_iff_firstSighashType h (by simp) (by simp)
  rw [hevery]
  unfold restrict
  cases self.firstSighashType <;> simp

/-- The first sighash type is missing exactly without signatures. -/
theorem isEmpty_iff_firstSighashType :
    self.isEmpty = true ↔ self.firstSighashType = none := by
  cases self with
  | ecdsa signatures => cases signatures <;> simp [isEmpty, len, firstSighashType]
  | taproot signatures => cases signatures <;> simp [isEmpty, len, firstSighashType]

/-- A signature for one output is remembered. -/
theorem hasSighashSingle_restrict (h : self.SharesSighashType) (flags : TxModifiableFlags) :
    (self.restrict flags).hasSighashSingle ↔ flags.hasSighashSingle ∨ self.IsSingle := by
  have hevery : self.Every (·.isSingle) (·.isSingle) ↔
      ∀ ty, self.firstSighashType = some ty → ty.isSingle :=
    every_iff_firstSighashType h (by simp) (by simp)
  unfold IsSingle restrict
  rw [hevery]
  cases hfirst : self.firstSighashType with
  | none =>
      have hempty : self.isEmpty = true := isEmpty_iff_firstSighashType.mpr hfirst
      simp [hempty]
  | some ty =>
      have hempty : self.isEmpty = false := by
        rw [Bool.eq_false_iff, ne_eq, isEmpty_iff_firstSighashType, hfirst]
        exact Option.some_ne_none ty
      simp [hempty]

/-- Signatures touch the first three bits of the flags only. -/
theorem sameOtherBits_restrict (self : TypedSigs) (flags : TxModifiableFlags) :
    flags.SameOtherBits (self.restrict flags) := by
  unfold restrict
  split
  · exact TxModifiableFlags.sameOtherBits_applySighash flags _
  · exact .refl flags

end TypedSigs

/-! ## Entries one after another -/

/-- The flags after all entries were applied. -/
def restrictAll (sigs : List InputSigs) (flags : TxModifiableFlags) : TxModifiableFlags :=
  sigs.foldl (fun flags entry => entry.signatures.restrict flags) flags

/-- What entries of signatures make of the flags. -/
structure FlagsReflect (sigs : List InputSigs) (f g : TxModifiableFlags) : Prop where
  inputs : g.isInputsModifiable ↔
    f.isInputsModifiable ∧ ∀ entry ∈ sigs, entry.signatures.IsAnyoneCanPay
  outputs : g.isOutputsModifiable ↔
    f.isOutputsModifiable ∧ ∀ entry ∈ sigs, entry.signatures.IsNone
  single : g.hasSighashSingle ↔
    f.hasSighashSingle ∨ ∃ entry ∈ sigs, entry.signatures.IsSingle
  others : f.SameOtherBits g

/-- The flags reflect the entries that were applied. -/
theorem flagsReflect_restrictAll {sigs : List InputSigs}
    (h : ∀ entry ∈ sigs, entry.signatures.SharesSighashType) (f : TxModifiableFlags) :
    FlagsReflect sigs f (restrictAll sigs f) := by
  induction sigs generalizing f with
  | nil => exact ⟨by simp [restrictAll], by simp [restrictAll], by simp [restrictAll], .refl f⟩
  | cons entry sigs ih =>
      rw [List.forall_mem_cons] at h
      have hrest := ih h.2 (entry.signatures.restrict f)
      refine ⟨?_, ?_, ?_, (entry.signatures.sameOtherBits_restrict f).trans hrest.others⟩
      · rw [List.forall_mem_cons, ← and_assoc, ← TypedSigs.isInputsModifiable_restrict h.1]
        exact hrest.inputs
      · rw [List.forall_mem_cons, ← and_assoc, ← TypedSigs.isOutputsModifiable_restrict h.1]
        exact hrest.outputs
      · rw [List.exists_mem_cons_iff, ← or_assoc, ← TypedSigs.hasSighashSingle_restrict h.1]
        exact hrest.single

/-- Flags that reflect the same entries, in whatever order, are equal. -/
theorem FlagsReflect.unique {sigs sigs' : List InputSigs} {f g g' : TxModifiableFlags}
    (hperm : sigs'.Perm sigs) (h : FlagsReflect sigs f g) (h' : FlagsReflect sigs' f g') :
    g' = g := by
  have hmem (p : InputSigs → Prop) : (∀ entry ∈ sigs', p entry) ↔ ∀ entry ∈ sigs, p entry :=
    forall_congr' fun _ => imp_congr_left hperm.mem_iff
  have hex (p : InputSigs → Prop) : (∃ entry ∈ sigs', p entry) ↔ ∃ entry ∈ sigs, p entry :=
    exists_congr fun _ => and_congr_left fun _ => hperm.mem_iff
  apply TxModifiableFlags.ext_flags
  · rw [Bool.eq_iff_iff, h'.inputs, h.inputs, hmem]
  · rw [Bool.eq_iff_iff, h'.outputs, h.outputs, hmem]
  · rw [Bool.eq_iff_iff, h'.single, h.single, hex]
  · exact fun b hb => (h'.others b hb).trans (h.others b hb).symm

end

/-! ## The signature maps -/

/-- The ECDSA signatures. -/
def TypedSigs.ecdsaPairs : TypedSigs → List (PublicKey × EcdsaSignature)
  | .ecdsa signatures => signatures
  | .taproot _ => []

/-- The taproot signatures. -/
def TypedSigs.taprootPairs : TypedSigs → List (TapKeyMaterial × TaprootSignature)
  | .ecdsa _ => []
  | .taproot signatures => signatures

/-- The pairs of ECDSA entries with the index, in order. -/
def ecdsaPairs (sigs : List InputSigs) (index : Nat) : List (PublicKey × EcdsaSignature) :=
  sigs.flatMap fun entry => if entry.index = index then entry.signatures.ecdsaPairs else []

/-- The pairs of taproot entries with the index, in order. -/
def taprootPairs (sigs : List InputSigs) (index : Nat) :
    List (TapKeyMaterial × TaprootSignature) :=
  sigs.flatMap fun entry => if entry.index = index then entry.signatures.taprootPairs else []

/-- The signature of a pair for the key path. -/
def keyPathSig (entry : TapKeyMaterial × TaprootSignature) : Option TaprootSignature :=
  match entry.1 with
  | .keyPath _ => some entry.2
  | .scriptPath _ => none

/-- The pair as the map of script path signatures holds it. -/
def scriptPathPair (entry : TapKeyMaterial × TaprootSignature) :
    Option ((XOnlyPublicKey × TapLeafHash) × TaprootSignature) :=
  match entry.1 with
  | .keyPath _ => none
  | .scriptPath keyMaterial => some (keyMaterial, entry.2)

namespace BTreeMap

/-- The map after the pairs are inserted one after another. -/
def insertAll {K V : Type} [OrdKey K] (self : BTreeMap K V) (pairs : List (K × V)) :
    BTreeMap K V :=
  pairs.foldl (fun m pair => m.insert pair.1 pair.2) self

end BTreeMap

namespace Input

/-- The input with signatures written into it. -/
def insertSigs (self : Input) : TypedSigs → Input
  | .ecdsa signatures => signatures.foldl insertPartialSig self
  | .taproot signatures => signatures.foldl insertTapSig self

/-- The right input is the left one, its signature maps updated by these pairs. -/
structure UpdatedBy (ecdsa : List (PublicKey × EcdsaSignature))
    (taproot : List (TapKeyMaterial × TaprootSignature)) (i j : Input) : Prop where
  frame : SameButSigs i j
  partialSigs : j.partialSigs = i.partialSigs.insertAll ecdsa
  tapKeySig : j.tapKeySig = (taproot.filterMap keyPathSig).getLast?.or i.tapKeySig
  tapScriptSigs : j.tapScriptSigs = i.tapScriptSigs.insertAll (taproot.filterMap scriptPathPair)

theorem UpdatedBy.refl (i : Input) : UpdatedBy [] [] i i :=
  ⟨.refl i, rfl, rfl, rfl⟩

/-- Updates one after another are one update. -/
theorem UpdatedBy.trans {ecdsa ecdsa' : List (PublicKey × EcdsaSignature)}
    {taproot taproot' : List (TapKeyMaterial × TaprootSignature)} {i j k : Input}
    (h : UpdatedBy ecdsa taproot i j) (h' : UpdatedBy ecdsa' taproot' j k) :
    UpdatedBy (ecdsa ++ ecdsa') (taproot ++ taproot') i k where
  frame := h.frame.trans h'.frame
  partialSigs := by
    rw [h'.partialSigs, h.partialSigs, BTreeMap.insertAll, BTreeMap.insertAll,
      BTreeMap.insertAll, List.foldl_append]
  tapKeySig := by
    rw [h'.tapKeySig, h.tapKeySig, List.filterMap_append, List.getLast?_append, Option.or_assoc]
  tapScriptSigs := by
    rw [h'.tapScriptSigs, h.tapScriptSigs, List.filterMap_append, BTreeMap.insertAll,
      BTreeMap.insertAll, BTreeMap.insertAll, List.foldl_append]

/-- The loop over ECDSA signatures. -/
theorem updatedBy_foldl_insertPartialSig (l : List (PublicKey × EcdsaSignature)) (i : Input) :
    UpdatedBy l [] i (l.foldl insertPartialSig i) := by
  induction l generalizing i with
  | nil => exact .refl i
  | cons entry l ih =>
      have hstep : UpdatedBy [entry] [] i (i.insertPartialSig entry) := ⟨rfl, rfl, rfl, rfl⟩
      exact hstep.trans (ih _)

/-- The loop over taproot signatures. -/
theorem updatedBy_foldl_insertTapSig (l : List (TapKeyMaterial × TaprootSignature))
    (i : Input) : UpdatedBy [] l i (l.foldl insertTapSig i) := by
  induction l generalizing i with
  | nil => exact .refl i
  | cons entry l ih =>
      obtain ⟨material, sig⟩ := entry
      have hstep : UpdatedBy [] [(material, sig)] i (i.insertTapSig (material, sig)) := by
        cases material with
        | keyPath key => exact ⟨rfl, rfl, rfl, rfl⟩
        | scriptPath keyMaterial => exact ⟨rfl, rfl, rfl, rfl⟩
      exact hstep.trans (ih _)

/-- The signatures of one entry. -/
theorem updatedBy_insertSigs (i : Input) (signatures : TypedSigs) :
    UpdatedBy signatures.ecdsaPairs signatures.taprootPairs i (i.insertSigs signatures) := by
  cases signatures with
  | ecdsa signatures => exact updatedBy_foldl_insertPartialSig signatures i
  | taproot signatures => exact updatedBy_foldl_insertTapSig signatures i

/-- The entries with the index, written into the input one after another. -/
def insertAllSigs (self : Input) (sigs : List InputSigs) (index : Nat) : Input :=
  sigs.foldl
    (fun input entry => if entry.index = index then input.insertSigs entry.signatures else input)
    self

/-- All entries update the input by the pairs of those that have its index. -/
theorem updatedBy_insertAllSigs (i : Input) (sigs : List InputSigs) (index : Nat) :
    UpdatedBy (ecdsaPairs sigs index) (taprootPairs sigs index) i
      (i.insertAllSigs sigs index) := by
  unfold ecdsaPairs taprootPairs
  induction sigs generalizing i with
  | nil => exact .refl i
  | cons entry sigs ih =>
      rw [List.flatMap_cons, List.flatMap_cons]
      by_cases hindex : entry.index = index
      · have hrest := ih (i.insertSigs entry.signatures)
        simpa [insertAllSigs, hindex] using (updatedBy_insertSigs i entry.signatures).trans hrest
      · simpa [insertAllSigs, hindex] using ih i

end Input

/-! ## The whole call -/

namespace Signer

variable [SignatureTypes]

/-- The PSBT after all entries were applied. -/
def applied (psbt : Psbt) (sigs : List InputSigs) : Psbt :=
  { psbt with
    global := { psbt.global with
      txModifiableFlags := restrictAll sigs psbt.global.txModifiableFlags }
    inputs := psbt.inputs.mapIdx fun index input => input.insertAllSigs sigs index }

/-- The entry belongs to an input that is there and counted. -/
def InBounds (psbt : Psbt) (entry : InputSigs) : Prop :=
  entry.index < psbt.inputs.length ∧ entry.index < psbt.global.inputCount

/-- One entry replaces one input. -/
theorem applied_singleton {p : Psbt} {entry : InputSigs} {i : Input}
    (hi : p.inputs[entry.index]? = some i) :
    applied p [entry] =
      { p with
        global := { p.global with
          txModifiableFlags := entry.signatures.restrict p.global.txModifiableFlags }
        inputs := p.inputs.set entry.index (i.insertSigs entry.signatures) } := by
  have hinputs : p.inputs.mapIdx (fun index input => input.insertAllSigs [entry] index) =
      p.inputs.set entry.index (i.insertSigs entry.signatures) := by
    apply List.ext_getElem?
    intro k
    rw [List.getElem?_mapIdx, List.getElem?_set]
    by_cases hk : entry.index = k
    · subst hk
      have hlt : entry.index < p.inputs.length := (List.getElem?_eq_some_iff.mp hi).1
      rw [hi, if_pos rfl, if_pos hlt]
      simp [Input.insertAllSigs]
    · simp [hk, Input.insertAllSigs]
  unfold applied
  rw [hinputs]
  rfl

/-- An entry without signatures changes nothing. -/
theorem applied_singleton_of_isEmpty {p : Psbt} {entry : InputSigs}
    (h : entry.signatures.isEmpty = true) : applied p [entry] = p := by
  have hnone := TypedSigs.isEmpty_iff_firstSighashType.mp h
  have hinsert (i : Input) : i.insertSigs entry.signatures = i := by
    cases hsigs : entry.signatures with
    | ecdsa signatures =>
        rw [hsigs] at h
        rw [List.eq_nil_of_length_eq_zero (beq_iff_eq.mp h)]
        rfl
    | taproot signatures =>
        rw [hsigs] at h
        rw [List.eq_nil_of_length_eq_zero (beq_iff_eq.mp h)]
        rfl
  have hinputs : p.inputs.mapIdx (fun index input => input.insertAllSigs [entry] index) =
      p.inputs := by
    apply List.ext_getElem?
    intro k
    simp [Input.insertAllSigs, hinsert]
  have hflags : restrictAll [entry] p.global.txModifiableFlags = p.global.txModifiableFlags := by
    simp [restrictAll, TypedSigs.restrict, hnone]
  unfold applied
  rw [hinputs, hflags]

omit [SignatureTypes] in
/-- The index of an entry in bounds is the index of an input. -/
theorem InBounds.exists_checkedInput {p : Psbt} {entry : InputSigs} (h : InBounds p entry) :
    ∃ i, p.inputs[entry.index]? = some i ∧ p.checkedInput entry.index = .ok i := by
  have hget := List.getElem?_eq_getElem h.1
  exact ⟨_, hget, Psbt.checkedInput_eq_ok.mpr ⟨h.2, hget⟩⟩

/-- An entry in bounds is applied. -/
theorem applyInputSigs_of_inBounds {p : Psbt} {entry : InputSigs} (h : InBounds p entry) :
    applyInputSigs p entry = .ok (applied p [entry]) := by
  obtain ⟨i, hi, hchecked⟩ := h.exists_checkedInput
  unfold applyInputSigs
  rw [hchecked, Result.mapErr_ok, Result.ok_bind]
  by_cases hempty : entry.signatures.isEmpty = true
  · rw [if_pos hempty, applied_singleton_of_isEmpty hempty]
  · rw [if_neg hempty, applied_singleton hi]
    cases hsigs : entry.signatures with
    | ecdsa signatures =>
        cases signatures with
        | nil => exact absurd (hsigs ▸ rfl) hempty
        | cons first rest => rfl
    | taproot signatures =>
        cases signatures with
        | nil => exact absurd (hsigs ▸ rfl) hempty
        | cons first rest => rfl

/-- One round of the loop of `Signer::apply`. -/
theorem applyInputSigs_eq_ok {p q : Psbt} {entry : InputSigs} :
    applyInputSigs p entry = .ok q ↔ InBounds p entry ∧ q = applied p [entry] := by
  constructor
  · intro h
    obtain ⟨i, hi, -⟩ := Result.bind_eq_ok.mp h
    obtain ⟨hcount, hget⟩ := Psbt.checkedInput_eq_ok.mp (Result.mapErr_eq_ok.mp hi)
    have hbounds : InBounds p entry := ⟨(List.getElem?_eq_some_iff.mp hget).1, hcount⟩
    rw [applyInputSigs_of_inBounds hbounds] at h
    exact ⟨hbounds, (Except.ok.inj h).symm⟩
  · intro ⟨hbounds, hq⟩
    rw [hq, applyInputSigs_of_inBounds hbounds]

/-- Applying no entry changes nothing. -/
theorem applied_nil (p : Psbt) : applied p [] = p := by
  have hinputs : p.inputs.mapIdx (fun index input => input.insertAllSigs [] index) =
      p.inputs := by
    apply List.ext_getElem?
    intro k
    simp [Input.insertAllSigs]
  unfold applied
  rw [hinputs]
  rfl

/-- Entries are applied one after another. -/
theorem applied_cons (p : Psbt) (entry : InputSigs) (sigs : List InputSigs) :
    applied p (entry :: sigs) = applied (applied p [entry]) sigs := by
  simp [applied, restrictAll, Input.insertAllSigs, List.mapIdx_mapIdx, Function.comp_def]

/-- Applying an entry keeps every bound. -/
theorem inBounds_applied {p : Psbt} {sigs : List InputSigs} {entry : InputSigs} :
    InBounds (applied p sigs) entry ↔ InBounds p entry := by
  simp [InBounds, applied]

/-- When applying succeeds, and with which PSBT. -/
theorem apply_eq_ok {signer : Signer} {sigs : List InputSigs} {q : Psbt} :
    signer.apply sigs = .ok q ↔
      (∀ entry ∈ sigs, InBounds signer.psbt entry) ∧ q = applied signer.psbt sigs := by
  unfold apply
  generalize signer.psbt = p
  induction sigs generalizing p with
  | nil => simp [applied_nil, eq_comm]
  | cons entry sigs ih =>
      rw [List.foldlM_cons, Result.bind_eq_ok, List.forall_mem_cons, applied_cons]
      simp only [applyInputSigs_eq_ok, ih]
      constructor
      · intro ⟨r, ⟨hentry, hr⟩, hsigs, hq⟩
        subst hr
        exact ⟨⟨hentry, fun e he => inBounds_applied.mp (hsigs e he)⟩, hq⟩
      · intro ⟨⟨hentry, hsigs⟩, hq⟩
        exact ⟨_, ⟨hentry, rfl⟩, fun e he => inBounds_applied.mpr (hsigs e he), hq⟩

/-- The PSBT reflects the signatures, and is as before in everything else. -/
structure Reflects (p : Psbt) (sigs : List InputSigs) (q : Psbt) : Prop where
  global : q.global = { p.global with txModifiableFlags := q.global.txModifiableFlags }
  flags : FlagsReflect sigs p.global.txModifiableFlags q.global.txModifiableFlags
  length : q.inputs.length = p.inputs.length
  inputs : ∀ (index : Nat) (i j : Input), p.inputs[index]? = some i →
    q.inputs[index]? = some j →
    Input.UpdatedBy (ecdsaPairs sigs index) (taprootPairs sigs index) i j
  outputs : q.outputs = p.outputs

/-- Applied entries are reflected. -/
theorem reflects_applied {p : Psbt} {sigs : List InputSigs}
    (h : ∀ entry ∈ sigs, entry.signatures.SharesSighashType) :
    Reflects p sigs (applied p sigs) where
  global := rfl
  flags := flagsReflect_restrictAll h _
  length := List.length_mapIdx
  inputs index i j hi hj := by
    have hget : (applied p sigs).inputs[index]? = some (i.insertAllSigs sigs index) := by
      simp [applied, hi]
    rw [hget, Option.some_inj] at hj
    exact hj ▸ i.updatedBy_insertAllSigs sigs index
  outputs := rfl

/-- Applying fails exactly for an entry out of bounds. -/
theorem isErr_apply_iff {signer : Signer} {sigs : List InputSigs} :
    (signer.apply sigs).IsErr ↔ ∃ entry ∈ sigs,
      signer.psbt.inputs.length ≤ entry.index ∨ signer.psbt.global.inputCount ≤ entry.index := by
  have hbounds (entry : InputSigs) : InBounds signer.psbt entry ↔
      ¬(signer.psbt.inputs.length ≤ entry.index ∨
        signer.psbt.global.inputCount ≤ entry.index) := by
    rw [not_or, not_le, not_le]
    rfl
  rw [(returns_apply signer sigs).isErr_iff]
  simp only [apply_eq_ok, exists_and_left, exists_eq, and_true, hbounds]
  push Not
  rfl

/-- Applying signatures updates the signature maps by them, makes the flags reflect
them, in whatever order they come, and changes nothing else. -/
theorem apply_exact {signer : Signer} {sigs : List InputSigs}
    (h : ∀ entry ∈ sigs, entry.signatures.SharesSighashType) :
    (∀ q, signer.apply sigs = .ok q → Reflects signer.psbt sigs q) ∧
      (∀ (q q' : Psbt) (sigs' : List InputSigs), sigs'.Perm sigs →
        signer.apply sigs = .ok q → signer.apply sigs' = .ok q' →
        q'.global.txModifiableFlags = q.global.txModifiableFlags) ∧
      ((signer.apply sigs).IsErr ↔ ∃ entry ∈ sigs,
        signer.psbt.inputs.length ≤ entry.index ∨
          signer.psbt.global.inputCount ≤ entry.index) := by
  refine ⟨?_, ?_, isErr_apply_iff⟩
  · intro q hq
    rw [(apply_eq_ok.mp hq).2]
    exact reflects_applied h
  · intro q q' sigs' hperm hq hq'
    have h' : ∀ entry ∈ sigs', entry.signatures.SharesSighashType :=
      fun entry hentry => h entry (hperm.mem_iff.mp hentry)
    rw [(apply_eq_ok.mp hq).2, (apply_eq_ok.mp hq').2]
    exact (flagsReflect_restrictAll h _).unique hperm (flagsReflect_restrictAll h' _)

end Signer

end Generic

/-! ## A reference run -/

namespace Signer

attribute [local instance] Reference.types Reference.signatureTypes

/-- The signer of the PSBT that may still be modified. -/
def openSigner : Signer where
  psbt := Reference.open_
  cache := Reference.open_.unsignedTxAt .zero
  unsignedTx_eq := rfl

theorem apply_exact_open :
    Reflects Reference.open_ [Reference.inputSigs]
      (applied Reference.open_ [Reference.inputSigs]) := by
  have hshared : ∀ entry ∈ [Reference.inputSigs], entry.signatures.SharesSighashType :=
    List.forall_mem_singleton.mpr ⟨.all, List.forall_mem_singleton.mpr rfl⟩
  have hbounds : ∀ entry ∈ [Reference.inputSigs], InBounds Reference.open_ entry :=
    List.forall_mem_singleton.mpr ⟨Nat.zero_lt_one, Nat.zero_lt_one⟩
  have happly : openSigner.apply [Reference.inputSigs] =
      .ok (applied Reference.open_ [Reference.inputSigs]) := apply_eq_ok.mpr ⟨hbounds, rfl⟩
  exact (apply_exact hshared).1 _ happly

end Signer

end RustPsbt
