import RustPsbt.Map.V0.Promotion
import RustPsbt.Serialization.Framed
import RustPsbt.Serialization.RoundTripV0

/-!
# Promotion of version 0

A PSBT of version 0 that is deserialized is promoted to version 2 as it is.  The decoder of
version 0 leaves out checks of version 2, so not every promoted PSBT is one.

Main results:

- Theorem `PsbtV0.promotes_iff`: which byte strings of version 0 are promoted to a PSBT that
  round trips in version 2.
- Theorem `PsbtV0.not_promotes_labeled`: a label without an address is promoted.
-/

namespace RustPsbt

/-! ## Rows of maps -/

/-- What holds of rows that are zipped, by rows of pairs. -/
theorem forall_zipWith_iff {α β γ : Type} {f : α → β → γ} {W : γ → Prop}
    {P : β → List Pair → Prop} {pss : List (List Pair)} {as : List α} {bs : List β}
    (hall : List.Forall₂ (fun ps a => ∀ b, W (f a b) ↔ P b ps) pss as)
    (hlen : as.length = bs.length) :
    (∀ c ∈ as.zipWith f bs, W c) ↔ List.Forall₂ P bs pss := by
  induction hall generalizing bs with
  | nil =>
      cases bs with
      | nil => simp
      | cons b bs => cases hlen
  | cons hhead _ ih =>
      cases bs with
      | nil => cases hlen
      | cons b bs =>
          rw [List.zipWith_cons_cons, List.forall_mem_cons, List.forall₂_cons, hhead b,
            ih (Nat.succ.inj hlen)]

theorem forall_mem_zipWith {α β γ : Type} {f : α → β → γ} {W : γ → Prop} {as : List α}
    {bs : List β} (h : ∀ a ∈ as, ∀ b ∈ bs, W (f a b)) : ∀ c ∈ as.zipWith f bs, W c := by
  intro c hc
  rw [← List.map_uncurry_zip_eq_zipWith] at hc
  rcases List.mem_map.mp hc with ⟨⟨a, b⟩, hzip, rfl⟩
  exact h a (List.of_mem_zip hzip).1 b (List.of_mem_zip hzip).2

section Generic

variable [BitcoinTypes] [BitcoinCodecs]

section

variable [LawfulCodecs]

/-- A decoded global map of version 0 with what it is promoted to. -/
theorem GlobalV0.promotes {w : Bytes} {info : V0GlobalInfo} (h : GlobalV0.decoder.Decodes w info) :
    ∃ ps tx, w = mapBytes ps ∧ (GlobalV0.codec.Follows ps info ∧ GlobalV0.Mandatory ps) ∧
      (∃ p ∈ ps, p.1.typeValue = 0x00 ∧ unsignedTxDecoder.Decodes p.2 tx) ∧ tx.InLimits ∧
        info.2 = (tx.inputs, tx.outputs) ∧ info.1.Fits ∧
          (info.1.WellFormed ↔ ∀ p ∈ ps, p.1.typeValue ∉ GlobalV0.promotedTypes) := by
  rcases GlobalV0.lawful_codec.follows h with ⟨ps, m, hw, hcollects, hout, hfollows⟩
  rcases Result.bind_eq_ok.mp hout with ⟨out, hfinish, hend⟩
  cases hend
  rcases GlobalV0.finish_eq_ok.mp hfinish with ⟨tx, htx, hpaired, rfl⟩
  have hentry : (⟨.unsignedTx, (), tx⟩ : GlobalV0.table.Entry) ∈ GlobalV0.table.entries m :=
    GlobalV0.lawful_table.mem_entries.mpr htx
  rcases hcollects.exists_pair hentry with ⟨p, hp, hpair⟩
  have hvalue : unsignedTxDecoder.Decodes p.2 tx :=
    (decodes_valueDecoder UnsignedTxDecoder.lawful_unsignedTx hpair.value_le).mp
      (PushDecoder.decodes_mapErr.mp hpair.decodes)
  have hlimits : tx.InLimits :=
    UnsignedTx.inLimits ((UnsignedTxDecoder.length_unsignedTxBytes_le hvalue).trans hpair.value_le)
  have hadmits : ∀ e ∈ GlobalV0.table.entries m, GlobalV0.codec.Admits e := by
    intro e he
    rcases hcollects.exists_pair he with ⟨q, _, hq⟩
    exact hq.admits GlobalV0.lawful_codec
  exact ⟨ps, tx, hw, ⟨hfollows, GlobalV0.mandatory hcollects hfinish⟩,
    ⟨p, hp, (GlobalV0.selectsByType.fromKey_iff (c := GlobalV0.Field.unsignedTx) nofun ()).mp hpair.readsKey.fromKey, hvalue⟩,
    hlimits, rfl, GlobalV0.fits_intoGlobal hadmits hlimits,
    GlobalV0.wellFormed_iff hcollects hpaired⟩

theorem InputV0.promotes [TxidHash] {w : Bytes} {self : InputV0}
    (h : InputV0.decoder.Decodes w self) :
    ∃ ps, w = mapBytes ps ∧ InputV0.codec.Follows ps self ∧
      ∀ t : Txid × UInt32 × Sequence, (self.intoInput t.1 t.2.1 t.2.2).WellFormed ↔
        InputV0.Promotes t.1 ps := by
  rcases InputV0.lawful_codec.follows h with ⟨ps, m, hw, hcollects, hout, hfollows⟩
  rcases Result.bind_eq_ok.mp hout with ⟨out, hfinish, hend⟩
  cases hend
  exact ⟨ps, hw, hfollows, fun _ => InputV0.wellFormed_iff hcollects hfinish⟩

theorem OutputV0.promotes {w : Bytes} {self : OutputV0} (h : OutputV0.decoder.Decodes w self) :
    ∃ ps, w = mapBytes ps ∧ OutputV0.codec.Follows ps self ∧
      ∀ t : Amount × ScriptBuf, (self.intoOutput t.1 t.2).WellFormed ↔ OutputV0.Promotes ps := by
  rcases OutputV0.lawful_codec.follows h with ⟨ps, m, hw, hcollects, hout, hfollows⟩
  rcases Result.bind_eq_ok.mp hout with ⟨out, hfinish, hend⟩
  cases hend
  exact ⟨ps, hw, hfollows, fun _ => OutputV0.wellFormed_iff hcollects hfinish⟩

namespace PsbtV0

/-- The checks of version 2 on the pairs of a PSBT of version 0. -/
structure Promotes [TxidHash] (tx : UnsignedTx) (global : List Pair)
    (inputs outputs : List (List Pair)) : Prop where
  global : ∀ p ∈ global, p.1.typeValue ∉ GlobalV0.promotedTypes
  inputs : List.Forall₂ (fun input ps => InputV0.Promotes input.1 ps) tx.inputs inputs
  outputs : List.Forall₂ (fun _ ps => OutputV0.Promotes ps) tx.outputs outputs

/-- A PSBT of version 0 that is deserialized is promoted to a well-formed PSBT that round
trips in version 2 exactly when its pairs meet the checks of version 2. -/
theorem promotes_iff [TxidHash] {b : Bytes} {v0 : PsbtV0} (h : deserialize b = .ok v0) :
    ∃ tx global inputs outputs, v0.FollowsGrammar b global inputs outputs ∧
      (∃ p ∈ global, p.1.typeValue = 0x00 ∧ unsignedTxDecoder.Decodes p.2 tx) ∧
        ((Psbt.deserialize v0.intoPsbt.serialize = .ok v0.intoPsbt ∧ v0.intoPsbt.WellFormed) ↔
          Promotes tx global inputs outputs) := by
  have hcounts := counts_of_deserialize h
  rcases decodes_iff.mp (lawful_format.deserialize_eq_ok.mp h) with
    ⟨⟨g, ts, os⟩, is, outs, wg, wi, wo, rfl, hg, ⟨hlenIn, hallIn⟩, ⟨hlenOut, hallOut⟩, rfl⟩
  rcases GlobalV0.counts_of_accepts hg with ⟨hcountIn, hcountOut⟩
  rcases GlobalV0.promotes hg with ⟨global, tx, hwg, hglobal, htx, hlimits, heq, hfits, hwf⟩
  cases heq
  rcases exists_maps hallIn fun _ _ => InputV0.promotes with ⟨inputs, hwi, hinputs⟩
  rcases exists_maps hallOut fun _ _ => OutputV0.promotes with ⟨outputs, hwo, houtputs⟩
  refine ⟨tx, global, inputs, outputs, .of_maps ?_ hglobal (hinputs.imp fun _ _ hq => hq.1)
    (houtputs.imp fun _ _ hq => hq.1) (hlenIn.trans hcountIn.symm) (hlenOut.trans hcountOut.symm),
    htx, ?_⟩
  · rw [hwg, hwi, hwo]
  · have hfitsIn : ∀ i ∈ takeInputs (g, tx.inputs, tx.outputs) is, i.Fits := by
      apply forall_mem_zipWith
      intro v hv t ht
      rcases Result.exists_of_mem_right hallIn hv with ⟨w, _, hw⟩
      exact InputV0.fits_intoInput (InputV0.admits_of_accepts hw) (hlimits.sequence t ht)
    have hfitsOut : ∀ o ∈ takeOutputs (g, tx.inputs, tx.outputs) outs, o.Fits := by
      apply forall_mem_zipWith
      intro v hv t ht
      rcases Result.exists_of_mem_right hallOut hv with ⟨w, _, hw⟩
      exact OutputV0.fits_intoOutput (OutputV0.admits_of_accepts hw) (hlimits.amount t ht)
        (hlimits.script t ht)
    have hwellIn : (∀ i ∈ takeInputs (g, tx.inputs, tx.outputs) is, i.WellFormed) ↔
        List.Forall₂ (fun input ps => InputV0.Promotes input.1 ps) tx.inputs inputs :=
      forall_zipWith_iff (hinputs.imp fun _ _ hq => hq.2) hlenIn
    have hwellOut : (∀ o ∈ takeOutputs (g, tx.inputs, tx.outputs) outs, o.WellFormed) ↔
        List.Forall₂ (fun _ ps => OutputV0.Promotes ps) tx.outputs outputs :=
      forall_zipWith_iff (houtputs.imp fun _ _ hq => hq.2) hlenOut
    constructor
    · rintro ⟨_, hq⟩
      rcases Psbt.wellFormed_iff.mp hq with ⟨hq, hqIn, hqOut, _⟩
      exact ⟨hwf.mp hq, hwellIn.mp hqIn, hwellOut.mp hqOut⟩
    · intro hps
      have hq := Psbt.wellFormed_iff.mpr ⟨hwf.mpr hps.global, hwellIn.mpr hps.inputs,
        hwellOut.mpr hps.outputs, hcounts⟩
      exact ⟨Psbt.deserialize_serialize_of_fits hq ⟨hfits, hfitsIn, hfitsOut⟩, hq⟩

end PsbtV0

end

end Generic

/-! ## Reference promotions -/

namespace PsbtV0

section

attribute [local instance] Reference.types Reference.codecs Reference.lawfulCodecs
  Reference.txidHash

theorem promotes_signed : ∃ (v0 : PsbtV0) (tx : UnsignedTx) (global : List Pair)
    (inputs outputs : List (List Pair)),
    v0.FollowsGrammar (Reference.unlocked Reference.signed).serialize global inputs outputs ∧
      (∃ p ∈ global, p.1.typeValue = 0x00 ∧ unsignedTxDecoder.Decodes p.2 tx) ∧
        ((Psbt.deserialize v0.intoPsbt.serialize = .ok v0.intoPsbt ∧ v0.intoPsbt.WellFormed) ↔
          Promotes tx global inputs outputs) := by
  have hsome : (deserialize (Reference.unlocked Reference.signed).serialize).toOption.isSome := by
    decide +kernel
  rcases Option.isSome_iff_exists.mp hsome with ⟨v0, h⟩
  exact ⟨v0, promotes_iff (Result.toOption_eq_some.mp h)⟩

/-- A PSBT of version 0 with one input and one output, which has a silent payment label and
no address. -/
def labeledBytes : Bytes :=
  (Reference.unlocked Reference.unsigned).serialize.dropLast ++
    (frame [0x0A] ++ frame [0, 0, 0, 0] ++ [psbtSeparator])

/-- The label is promoted, and the promoted PSBT is refused by version 2. -/
theorem not_promotes_labeled : ∃ v0, deserialize labeledBytes = .ok v0 ∧
    Psbt.deserialize v0.intoPsbt.serialize ≠ .ok v0.intoPsbt ∧
      ∃ o ∈ v0.intoPsbt.outputs, o.validate ≠ .ok () := by
  have hsome : (deserialize labeledBytes).toOption.isSome := by decide +kernel
  rcases Option.isSome_iff_exists.mp hsome with ⟨v0, h⟩
  have hdec : deserialize labeledBytes = .ok v0 := Result.toOption_eq_some.mp h
  have hrefused : (deserialize labeledBytes).toOption.all fun v0 =>
      (Psbt.deserialize v0.intoPsbt.serialize).toOption.isNone &&
        v0.intoPsbt.outputs.any fun o => o.validate.toOption.isNone := by decide +kernel
  rw [h, Option.all_some, Bool.and_eq_true, List.any_eq_true] at hrefused
  rcases hrefused with ⟨hnone, o, ho, hinvalid⟩
  refine ⟨v0, hdec, fun hback => ?_, o, ho, fun hvalid => ?_⟩
  · rw [hback] at hnone
    cases hnone
  · rw [hvalid] at hinvalid
    cases hinvalid

end

end PsbtV0

end RustPsbt
