import RustPsbt.Combine.Spec
import RustPsbt.Roles.Constructor
import RustPsbt.Reference.Signing

/-!
# Combining signed and unsigned copies

The Combiner keeps the modification flags of the left PSBT.

Main results:

- Theorem `Psbt.combineWith_flags_iff`: a combination is as restricted as both of
  its halves exactly if the left one is as restricted as the right one.
-/

namespace RustPsbt

section

variable [BitcoinTypes] [SignatureTypes]

namespace Psbt

/-- A combination allows what both halves allow and reports the `SIGHASH_SINGLE`
signatures of either, so that of an unsigned and a signed copy is rejected by
Constructors exactly if the signed copy is. -/
structure FlagsMerged (a b c : Psbt) : Prop where
  inputs : c.global.txModifiableFlags.isInputsModifiable →
    a.global.txModifiableFlags.isInputsModifiable ∧
      b.global.txModifiableFlags.isInputsModifiable
  outputs : c.global.txModifiableFlags.isOutputsModifiable →
    a.global.txModifiableFlags.isOutputsModifiable ∧
      b.global.txModifiableFlags.isOutputsModifiable
  single : a.global.txModifiableFlags.hasSighashSingle ∨
      b.global.txModifiableFlags.hasSighashSingle →
    c.global.txModifiableFlags.hasSighashSingle
  signedRight : SignedFrom a b → Constructor.RejectedAlike c b
  signedLeft : SignedFrom b a → Constructor.RejectedAlike c a

omit [SignatureTypes] in
/-- A combination has the flags of its left half. -/
theorem combineWith_flags {a b c : Psbt} (h : a.combineWith b = .ok c) :
    c.global.txModifiableFlags = a.global.txModifiableFlags := by
  obtain ⟨xpubs, -, -, -, -, -, rfl⟩ := combineWith_eq_ok.mp h
  rfl

/-- Flags merge exactly if the left half is at least as restricted. -/
theorem combineWith_flags_iff {a b c : Psbt} (h : a.combineWith b = .ok c) :
    FlagsMerged a b c ↔
      a.global.txModifiableFlags.AtMost b.global.txModifiableFlags := by
  have hflags := combineWith_flags h
  constructor
  · intro hmerged
    refine ⟨?_, ?_, ?_⟩
    · intro hin
      exact (hmerged.inputs (by rwa [hflags])).2
    · intro hout
      exact (hmerged.outputs (by rwa [hflags])).2
    · intro hsingle
      rw [← hflags]
      exact hmerged.single (Or.inr hsingle)
  · intro hle
    refine ⟨?_, ?_, ?_, ?_, ?_⟩
    · rw [hflags]
      exact fun hin => ⟨hin, hle.inputs hin⟩
    · rw [hflags]
      exact fun hout => ⟨hout, hle.outputs hout⟩
    · rw [hflags]
      rintro (hsingle | hsingle)
      · exact hsingle
      · exact hle.single hsingle
    · intro hsigned
      -- the signer of the right half restricted what the left half already restricts
      have hge := hsigned.spec.flags
      rw [Constructor.rejectedAlike_iff, hflags]
      exact ⟨⟨hle.inputs, hge.inputs⟩, ⟨hle.outputs, hge.outputs⟩⟩
    · intro _
      rw [Constructor.rejectedAlike_iff, hflags]
      exact ⟨Iff.rfl, Iff.rfl⟩

end Psbt

end

/-! ## Reference runs -/

namespace Psbt

attribute [local instance] Reference.types Reference.signatureTypes

/-- The signed copy of the reference PSBT that may still be extended. -/
def openSigned : Psbt :=
  { Reference.signed with global := Reference.unsigned.global }

/-- A signer makes the signed copy. -/
theorem signs_openSigned : Signs Reference.open_ openSigned :=
  ⟨⟨Reference.open_, _, rfl⟩, [Reference.inputSigs], rfl, rfl⟩

/-- With the signed copy on the left the flags merge. -/
theorem combineWith_flags_openSigned : FlagsMerged openSigned Reference.open_ openSigned :=
  (combineWith_flags_iff rfl).mpr ⟨by decide, by decide, by decide⟩

/-- With the unsigned copy on the left the result can be extended again. -/
theorem combineWith_reopens :
    ¬∀ a b c : Psbt, a.combineWith b = .ok c → FlagsMerged a b c := by
  intro h
  have hmerged := h Reference.open_ openSigned
    { openSigned with global := Reference.open_.global } rfl
  have hrejected := hmerged.signedRight (.single signs_openSigned)
  have herr := hrejected.1.mpr ⟨_, rfl⟩
  obtain ⟨e, he⟩ := herr
  cases he

end Psbt

end RustPsbt
