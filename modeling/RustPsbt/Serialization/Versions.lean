import RustPsbt.Library.PrefixFree
import RustPsbt.Serialization.Framed
import RustPsbt.Serialization.RoundTripV0

/-!
# Streams of PSBTs

PSBTs of both versions may follow one another in a stream.  The unsigned transaction of
version 0 is a key that version 2 excludes, so no stream starts with a PSBT of both.

Main results:

- Theorem `MapCodec.Follows.mem_of_raw`: the grammar of a map fixes its pairs.
- Theorem `not_decodes_both`: no stream starts with a PSBT of both versions.
- Theorem `streams_unique`: a stream of PSBTs is cut into them in one way.
-/

namespace RustPsbt

/-- The raw pairs of a map, and what is behind it, are read off the stream. -/
theorem Grammar.raw_unique {ps qs : List Pair} {r r' : Bytes} (hps : ∀ p ∈ ps, PairFits p)
    (hqs : ∀ q ∈ qs, PairFits q) (heq : mapBytes ps ++ r = mapBytes qs ++ r') :
    ps.map Pair.raw = qs.map Pair.raw := by
  let fuel := ps.length + qs.length + 1
  have hp : readMap fuel (mapBytes ps ++ r) = some (ps.map Pair.raw, r) :=
    readMap_mapBytes hps r (by omega)
  have hq : readMap fuel (mapBytes qs ++ r') = some (qs.map Pair.raw, r') :=
    readMap_mapBytes hqs r' (by omega)
  rw [heq, hq] at hp
  exact (congrArg Prod.fst (Option.some.inj hp)).symm

section Generic

variable [BitcoinTypes] [BitcoinCodecs]

/-- Maps of the same raw pairs have the same pairs, whatever their codecs. -/
theorem MapCodec.Follows.mem_of_raw [LawfulCodecs] {ε ε' M M' α α' : Type} {C : MapCodec ε M α}
    {C' : MapCodec ε' M' α'} {ps qs : List Pair} {a : α} {a' : α'} (h : C.Follows ps a)
    (h' : C'.Follows qs a') (heq : ps.map Pair.raw = qs.map Pair.raw) {q : Pair} (hq : q ∈ qs) :
    q ∈ ps := by
  have hraw : q.raw ∈ ps.map Pair.raw := by
    rw [heq]
    exact List.mem_map_of_mem hq
  obtain ⟨p, hp, hsame⟩ := List.mem_map.mp hraw
  have hkey := (h.takes p hp).1
  rw [hsame] at hkey
  have hone := hkey.symm.trans (h'.takes q hq).1
  have hfst : p.1 = q.1 := (Prod.mk.inj (Except.ok.inj hone)).1
  have hsnd : p.2 = q.2 := (Prod.mk.inj hsame).2
  rwa [← Prod.ext hfst hsnd]

omit [BitcoinTypes] [BitcoinCodecs] in
/-- A type that is there once is there. -/
theorem MapCodec.Once.exists_mem {ps : List Pair} {t : UInt64} (h : MapCodec.Once ps t) :
    ∃ p ∈ ps, p.1.typeValue = t := by
  have hpos : 0 < ps.countP fun p => decide (p.1.typeValue = t) := by
    rw [show ps.countP (fun p => decide (p.1.typeValue = t)) = 1 from h]
    exact Nat.one_pos
  obtain ⟨p, hp, htype⟩ := List.countP_pos_iff.mp hpos
  exact ⟨p, hp, of_decide_eq_true htype⟩

theorem Global.fromKey_unsignedTx {key : Key} (h : key.typeValue = 0x00) (c : Global.Field) :
    Global.fromKey key ≠ .ok c := by
  unfold Global.fromKey
  rw [h]
  exact fun heq => by cases heq

section

variable [LawfulCodecs]

/-- No stream starts with a global map of both versions. -/
theorem Global.not_decodes_both {w w' r r' : Bytes} {self : Global} {info : V0GlobalInfo}
    (h : Global.decoder.Decodes w self) (h' : GlobalV0.decoder.Decodes w' info) :
    w ++ r ≠ w' ++ r' := by
  intro heq
  obtain ⟨ps, rfl, hps, _⟩ := Global.followsGrammar h
  obtain ⟨qs, rfl, hqs, hmandatory⟩ := GlobalV0.followsGrammar h'
  have hraw := Grammar.raw_unique hps.pairFits hqs.pairFits heq
  -- the unsigned transaction would be a key of version 2
  obtain ⟨q, hq, htype⟩ := MapCodec.Once.exists_mem hmandatory.unsignedTx
  obtain ⟨_, c, v, hc, _⟩ := hps.takes q (hps.mem_of_raw hqs hraw hq)
  exact Global.fromKey_unsignedTx htype c hc

/-- No stream starts with a PSBT of both versions. -/
theorem not_decodes_both [TxidHash] {w w' r r' : Bytes} {p : Psbt} {v0 : PsbtV0}
    (h : Psbt.decoder.Decodes w p) (h' : PsbtV0.decoder.Decodes w' v0) : w ++ r ≠ w' ++ r' := by
  intro heq
  obtain ⟨wg, wi, wo, rfl, hg, _⟩ := Psbt.decodes_iff.mp h
  obtain ⟨info, inputs, outputs, wg', wi', wo', rfl, hg', _⟩ := PsbtV0.decodes_iff.mp h'
  simp only [List.append_assoc] at heq
  exact Global.not_decodes_both hg hg' (List.append_cancel_left heq)

/-- The bytes of a PSBT of either version. -/
abbrev DecodesEither [TxidHash] : Bytes → Psbt ⊕ PsbtV0 → Prop :=
  EitherWord Psbt.decoder.Decodes PsbtV0.decoder.Decodes

theorem prefixFree_either [TxidHash] : PrefixFree DecodesEither := by
  apply PrefixFree.sum
  · exact Psbt.lawful_format.lawful_decoder.prefixFree Psbt.lawful_format.strict_decoder
  · exact PsbtV0.lawful_format.lawful_decoder.prefixFree PsbtV0.lawful_format.strict_decoder
  · exact not_decodes_both

/-- A stream of PSBTs, each of either version, is cut into PSBTs in one way, and each is of
one version and has one value; and no stream starts with a PSBT of both versions. -/
theorem streams_unique [TxidHash] :
    (∀ {ws ws' : List Bytes} {xs xs' : List (Psbt ⊕ PsbtV0)}, List.Forall₂ DecodesEither ws xs →
      List.Forall₂ DecodesEither ws' xs' → ws.flatten = ws'.flatten → ws = ws' ∧ xs = xs') ∧
    ∀ {b w w' : Bytes} {p : Psbt} {v0 : PsbtV0}, Psbt.decoder.Decodes w p →
      PsbtV0.decoder.Decodes w' v0 → w <+: b → ¬w' <+: b := by
  constructor
  · intro ws ws' xs xs' h h' heq
    exact prefixFree_either.rows_unique h h' heq
  · intro b w w' p v0 h h' hw hw'
    obtain ⟨r, rfl⟩ := hw
    obtain ⟨r', heq⟩ := hw'
    exact not_decodes_both h h' heq.symm

end

end Generic

/-! ## A reference stream -/

section

attribute [local instance] Reference.types Reference.codecs Reference.lawfulCodecs
  Reference.txidHash

/-- A PSBT in version 2 and then in version 0 is cut in no other way. -/
theorem streams_unique_signed : ¬∃ ws xs, List.Forall₂ DecodesEither ws xs ∧
    ws.flatten = [Reference.signed.serialize,
      (PsbtV0.Reference.unlocked Reference.signed).serialize].flatten ∧ ws.length ≠ 2 := by
  have hsome : (PsbtV0.deserialize
      (PsbtV0.Reference.unlocked Reference.signed).serialize).toOption.isSome := by decide +kernel
  obtain ⟨v0, h⟩ := Option.isSome_iff_exists.mp hsome
  have hv2 : Psbt.decoder.Decodes Reference.signed.serialize Reference.signed :=
    Psbt.lawful_format.deserialize_eq_ok.mp Psbt.deserialize_signed
  have hv0 : PsbtV0.decoder.Decodes _ v0 :=
    PsbtV0.lawful_format.deserialize_eq_ok.mp (Result.toOption_eq_some.mp h)
  rintro ⟨ws, xs, hrow, heq, hlen⟩
  have hcut := streams_unique.1 hrow (.cons (.left hv2) (.cons (.right hv0) .nil)) heq
  rw [hcut.1] at hlen
  exact hlen rfl

end

end RustPsbt
