import RustPsbt.Combine.Spec
import RustPsbt.Reference.Miniscript
import RustPsbt.Roles.Finalizer
import RustPsbt.Serialization.V2

/-!
# What the roles hand on

The Combiner, the Signer and the Finalizer of a well-formed PSBT make a well-formed PSBT,
which the next party can decode.

Main results:

- Theorem `Psbt.WellFormed.combineWith`: a combination of well-formed PSBTs is well-formed.
- Theorem `Psbt.WellFormed.of_sameButSigs`: signing keeps a PSBT well-formed.
- Theorem `Psbt.WellFormed.of_finalizedFrom`: finalizing keeps a PSBT well-formed.
- Theorem `Psbt.roles_keep_transportable`: what the roles make is decoded again.
-/

namespace RustPsbt

section Generic

variable [BitcoinTypes]

/-! ## Combining maps -/

omit [BitcoinTypes] in
/-- Two maps of unknown keys merge into one of unknown keys. -/
theorem forall_mem_extend {α β : Type} [OrdKey α] {a b : BTreeMap α β} {p : α → Prop}
    (ha : ∀ k ∈ a, p k) (hb : ∀ k ∈ b, p k) : ∀ k ∈ a.extend b, p k := by
  intro k hk
  have hsome := Std.ExtTreeMap.mem_iff_isSome_getElem?.mp hk
  rw [BTreeMap.getElem?_extend, Option.isSome_or, Bool.or_eq_true] at hsome
  rcases hsome with h | h
  · exact hb k (Std.ExtTreeMap.mem_iff_isSome_getElem?.mpr h)
  · exact ha k (Std.ExtTreeMap.mem_iff_isSome_getElem?.mpr h)

/-- Paired maps merge into paired maps. -/
theorem SpPaired.extend {α β : Type} {shares shares' : BTreeMap CompressedPublicKey α}
    {proofs proofs' : BTreeMap CompressedPublicKey β} (h : SpPaired shares proofs)
    (h' : SpPaired shares' proofs') :
    SpPaired (shares.extend shares') (proofs.extend proofs') := by
  unfold SpPaired at h h' ⊢
  rw [BTreeMap.isEmpty_extend, BTreeMap.isEmpty_extend, h, h']

/-- Valid outputs merge into a valid output: a label comes with its info. -/
theorem Output.validate_merge {a b : Output} (ha : a.validate = .ok ())
    (hb : b.validate = .ok ()) : (a.merge b).validate = .ok () := by
  unfold validate at ha hb ⊢
  unfold merge
  cases hla : a.spV0Label <;> cases hia : a.spV0Info <;> cases hlb : b.spV0Label <;>
    cases hib : b.spV0Info <;> simp_all

variable [BitcoinCodecs]

namespace Global

theorem WellFormed.merge {a b : Global} (ha : a.WellFormed) (hb : b.WellFormed)
    (xpubs : BTreeMap Xpub KeySource) : (a.merge b xpubs).WellFormed where
  version := ha.version
  spPaired := SpPaired.extend ha.spPaired hb.spPaired
  unknownKeys := forall_mem_extend ha.unknownKeys hb.unknownKeys

end Global

namespace Input

theorem WellFormed.merge [TxidHash] {a b : Input} (ha : a.WellFormed) (hb : b.WellFormed)
    (hpoint : a.outPoint = b.outPoint) : (a.merge b).WellFormed where
  nonWitnessUtxo := by
    intro tx htx
    have htxid : a.previousTxid = b.previousTxid := congrArg OutPoint.txid hpoint
    rcases Option.or_eq_some_iff.mp htx with htx | ⟨_, htx⟩
    · exact ha.nonWitnessUtxo tx htx
    · exact (hb.nonWitnessUtxo tx htx).trans htxid.symm
  spPaired := SpPaired.extend ha.spPaired hb.spPaired
  unknownKeys := forall_mem_extend ha.unknownKeys hb.unknownKeys

end Input

namespace Output

theorem WellFormed.merge {a b : Output} (ha : a.WellFormed) (hb : b.WellFormed) :
    (a.merge b).WellFormed where
  valid := validate_merge ha.valid hb.valid
  unknownKeys := forall_mem_extend ha.unknownKeys hb.unknownKeys

end Output

/-! ## The roles -/

namespace Psbt

variable [TxidHash]

/-- A combination of well-formed PSBTs is well-formed. -/
theorem WellFormed.combineWith {a b c : Psbt} (ha : a.WellFormed) (hb : b.WellFormed)
    (h : a.combineWith b = .ok c) : c.WellFormed := by
  rcases combineWith_eq_ok.mp h with ⟨xpubs, _, _, hinputs, _, _, rfl⟩
  rcases wellFormed_iff.mp ha with ⟨hga, hia, hoa, hin, hout⟩
  rcases wellFormed_iff.mp hb with ⟨hgb, hib, hob, _, _⟩
  apply wellFormed_iff.mpr
  refine ⟨hga.merge hgb xpubs, ?_, ?_, ?_, ?_⟩
  · apply forall_mem_zipMerge hia
    intro i x y hx hy
    exact (hia x (List.mem_of_getElem? hx)).merge (hib y (List.mem_of_getElem? hy))
      (hinputs i x y hx hy)
  · apply forall_mem_zipMerge hoa
    intro i x y hx hy
    exact (hoa x (List.mem_of_getElem? hx)).merge (hob y (List.mem_of_getElem? hy))
  · exact hin.trans (length_zipMerge _ _ _).symm
  · exact hout.trans (length_zipMerge _ _ _).symm

/-- Signing keeps a PSBT well-formed. -/
theorem WellFormed.of_sameButSigs {p q : Psbt} (hp : p.WellFormed) (h : SameButSigs p q) :
    q.WellFormed := by
  rcases wellFormed_iff.mp hp with ⟨hglobal, hinputs, houtputs, hin, hout⟩
  apply wellFormed_iff.mpr
  rw [h.outputs, h.global, ← h.inputs.length_eq]
  refine ⟨⟨hglobal.version, hglobal.spPaired, hglobal.unknownKeys⟩, ?_, houtputs, hin, hout⟩
  intro j hj
  rcases Result.exists_of_mem_right h.inputs hj with ⟨i, hi, hij⟩
  have hwf := hinputs i hi
  rw [hij]
  exact ⟨hwf.nonWitnessUtxo, hwf.spPaired, hwf.unknownKeys⟩

/-- Finalizing keeps a PSBT well-formed. -/
theorem WellFormed.of_finalizedFrom {p f : Psbt} (hp : p.WellFormed) (h : FinalizedFrom p f) :
    f.WellFormed := by
  rcases wellFormed_iff.mp hp with ⟨hglobal, hinputs, houtputs, hin, hout⟩
  apply wellFormed_iff.mpr
  rw [h.outputs, h.global, ← h.inputs.length_eq]
  refine ⟨hglobal, ?_, houtputs, hin, hout⟩
  intro j hj
  rcases Result.exists_of_mem_right h.inputs hj with ⟨i, hi, hij⟩
  have hkept : i.kept.WellFormed := by
    have hwf := hinputs i hi
    exact ⟨hwf.nonWitnessUtxo, hwf.spPaired, hwf.unknownKeys⟩
  rw [← hij.kept] at hkept
  exact ⟨hkept.nonWitnessUtxo, hkept.spPaired, hkept.unknownKeys⟩

/-- A PSBT that the next party can decode, up to the limits of the decoder. -/
structure Transportable (p : Psbt) : Prop where
  wellFormed : p.WellFormed
  roundTrip : p.Fits → deserialize p.serialize = .ok p

theorem WellFormed.transportable [LawfulCodecs] {p : Psbt} (h : p.WellFormed) :
    p.Transportable where
  wellFormed := h
  roundTrip := deserialize_serialize_of_fits h

/-- What the Combiner, the Signer and the Finalizer make of well-formed PSBTs is decoded
again from its serialization. -/
theorem roles_keep_transportable [LawfulCodecs] [SignatureTypes] [Miniscript]
    [ScriptInterpreter] [KeyHashes] [ScriptHashes] {a b : Psbt} (ha : a.WellFormed)
    (hb : b.WellFormed) :
    (∀ c, a.combineWith b = .ok c → c.Transportable) ∧
      (∀ signer sigs q, Signer.new a = .ok signer → signer.apply sigs = .ok q →
        q.Transportable) ∧
      (∀ finalizer f, Finalizer.new a = .ok finalizer → finalizer.finalize = .ok f →
        f.Transportable) := by
  refine ⟨?_, ?_, ?_⟩
  · intro c hc
    exact (ha.combineWith hb hc).transportable
  · intro signer sigs q hnew happly
    have hsigs := Signer.apply_spec happly
    rw [Signer.new_eq_ok.mp hnew] at hsigs
    exact (ha.of_sameButSigs hsigs).transportable
  · intro finalizer f hnew hfinalize
    have hfinal := Finalizer.finalize_spec hfinalize
    rw [Finalizer.new_eq_ok.mp hnew] at hfinal
    exact (ha.of_finalizedFrom hfinal).transportable

end Psbt

end Generic

/-! ## Reference runs -/

namespace Psbt

section

attribute [local instance] Reference.types Reference.codecs Reference.lawfulCodecs
  Reference.txidHash Reference.signatureTypes Reference.keyHashes Reference.scriptHashes
  Reference.miniscript Reference.scriptInterpreter

theorem roles_keep_transportable_signed :
    Reference.unsigned.combineWith Reference.signed = .ok Reference.signed ∧
      Reference.signed.Transportable := by
  have hcombine : Reference.unsigned.combineWith Reference.signed = .ok Reference.signed :=
    Result.toOption_eq_some.mp (by decide +kernel)
  refine ⟨hcombine, (roles_keep_transportable ?_ ?_).1 _ hcombine⟩
  · exact (wellFormed_of_deserialize deserialize_unsigned).1
  · exact (wellFormed_of_deserialize deserialize_signed).1

end

end Psbt

end RustPsbt
