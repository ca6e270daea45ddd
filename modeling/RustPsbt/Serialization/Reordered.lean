import RustPsbt.Serialization.Framed

/-!
# The order of the pairs

The pairs of a map may come in any order: what is decoded from them is the same, in version 2
as in version 0.

Main results:

- Theorem `PsbtFormat.Lawful.deserialize_of_reorders`: map decoders that do not look at the
  order of the pairs make a decoder that does not.
- Theorem `deserialize_reordered`: the order of the pairs does not matter.
-/

namespace RustPsbt

/-- The bytes have the same maps, with the pairs of each in another order. -/
inductive Reordered : Bytes → Bytes → Prop where
  | maps {pss pss' : List (List Pair)} (hfits : ∀ ps ∈ pss, ∀ p ∈ ps, PairFits p)
      (hperm : List.Forall₂ List.Perm pss' pss) :
      Reordered (psbtMagicBytes ++ pss.flatMap mapBytes) (psbtMagicBytes ++ pss'.flatMap mapBytes)

namespace Reordered

/-- Permuted maps have the same pairs. -/
theorem pairFits {pss pss' : List (List Pair)} (hfits : ∀ ps ∈ pss, ∀ p ∈ ps, PairFits p)
    (hperm : List.Forall₂ List.Perm pss' pss) : ∀ ps ∈ pss', ∀ p ∈ ps, PairFits p := by
  intro ps hps p hp
  obtain ⟨ps', hps', hsame⟩ := Result.exists_of_mem_left hperm hps
  exact hfits ps' hps' p (hsame.mem_iff.mp hp)

theorem symm {b b' : Bytes} (h : Reordered b b') : Reordered b' b := by
  cases h with
  | maps hfits hperm =>
      exact .maps (pairFits hfits hperm) (hperm.flip.imp fun _ _ hsame => hsame.symm)

/-- Maps in a row are cut in one way. -/
theorem flatMap_mapBytes_inj {pss qss : List (List Pair)}
    (hpss : ∀ ps ∈ pss, ∀ p ∈ ps, PairFits p) (hqss : ∀ qs ∈ qss, ∀ q ∈ qs, PairFits q)
    (h : pss.flatMap mapBytes = qss.flatMap mapBytes) : pss = qss := by
  induction pss generalizing qss with
  | nil =>
      cases qss with
      | nil => rfl
      | cons qs qss => simp [mapBytes] at h
  | cons ps pss ih =>
      cases qss with
      | nil => simp [mapBytes] at h
      | cons qs qss =>
          rw [List.forall_mem_cons] at hpss hqss
          rw [List.flatMap_cons, List.flatMap_cons] at h
          obtain ⟨hhead, htail⟩ := mapBytes_append_inj hpss.1 hqss.1 h
          rw [hhead, ih hpss.2 hqss.2 htail]

end Reordered

section Generic

variable [BitcoinTypes] [BitcoinCodecs]

/-- The decoder takes maps, and does not look at the order of their pairs. -/
def Reorders {ε α : Type} (D : PushDecoder UInt8 ε α) (ps : List Pair) (a : α) : Prop :=
  (∀ p ∈ ps, PairFits p) ∧ ∀ ps' : List Pair, ps'.Perm ps → D.Decodes (mapBytes ps') a

/-- A map decoder collects the same entries from the same pairs. -/
theorem MapCodec.Lawful.reorders [LawfulCodecs] {ε M α : Type} {C : MapCodec ε M α}
    (h : C.Lawful) {w : Bytes} {a : α} (hdec : C.mapDecoder.Decodes w a) :
    ∃ ps, w = mapBytes ps ∧ Reorders C.mapDecoder ps a := by
  obtain ⟨ps, es, m, hw, hpairs, hentries, hout⟩ := h.accepts_iff.mp hdec
  rw [List.append_nil] at hw
  refine ⟨ps, hw, fun p hp => ?_, fun ps' hperm => ?_⟩
  · obtain ⟨e, -, hpair⟩ := Result.exists_of_mem_left hpairs hp
    exact ⟨hpair.key_le, hpair.value_le⟩
  · obtain ⟨es', hpairs', hperm'⟩ := List.perm_comp_forall₂ hperm hpairs
    exact h.accepts_iff.mpr ⟨ps', es', m, (List.append_nil _).symm, hpairs',
      hperm'.trans hentries, hout⟩

omit [BitcoinTypes] [BitcoinCodecs] in
/-- Reordered rows of maps are decoded into the same rows. -/
theorem exists_decodes_of_reorders {ε α : Type} {D : PushDecoder UInt8 ε α}
    {pss pss' : List (List Pair)} {as : List α} (hperm : List.Forall₂ List.Perm pss' pss)
    (hall : List.Forall₂ (Reorders D) pss as) :
    List.Forall₂ D.Decodes (pss'.map mapBytes) as := by
  rw [List.forall₂_map_left_iff]
  induction hperm generalizing as with
  | nil =>
      cases hall
      exact .nil
  | cons hsame _ ih =>
      cases hall with
      | cons hhead htail => exact .cons (hhead.2 _ hsame) (ih htail)

namespace PsbtFormat.Lawful

variable [LawfulCodecs] {G I O α : Type} {F : PsbtFormat G I O α}

/-- Map decoders that do not look at the order of the pairs make a decoder that does not. -/
theorem deserialize_of_reorders (h : F.Lawful)
    (hglobal : ∀ w g, F.globalDecoder.Decodes w g → ∃ ps, w = mapBytes ps ∧
      Reorders F.globalDecoder ps g)
    (hinput : ∀ w i, F.inputDecoder.Decodes w i → ∃ ps, w = mapBytes ps ∧
      Reorders F.inputDecoder ps i)
    (houtput : ∀ w o, F.outputDecoder.Decodes w o → ∃ ps, w = mapBytes ps ∧
      Reorders F.outputDecoder ps o)
    {b b' : Bytes} (hb : Reordered b b') {a : α} (hdec : F.deserialize b = .ok a) :
    F.deserialize b' = .ok a := by
  obtain ⟨g, inputs, outputs, wg, wi, wo, hbytes, hg, ⟨hlenIn, hallIn⟩, ⟨hlenOut, hallOut⟩,
    rfl⟩ := h.decodes_iff.mp (h.deserialize_eq_ok.mp hdec)
  obtain ⟨global, rfl, hglobalMap⟩ := hglobal wg g hg
  obtain ⟨ins, hins, hinMaps⟩ := exists_maps hallIn hinput
  obtain ⟨outs, houts, houtMaps⟩ := exists_maps hallOut houtput
  cases hb with
  | @maps pss pss' hfits hperm =>
      -- the maps that are decoded are the ones that are reordered
      have hdecoded : ∀ ps ∈ global :: (ins ++ outs), ∀ p ∈ ps, PairFits p := by
        intro ps hps
        rcases List.mem_cons.mp hps with rfl | hps
        · exact hglobalMap.1
        · rcases List.mem_append.mp hps with hps | hps
          · exact pairFits_of_forall₂ (fun hmap => hmap.1) hinMaps ps hps
          · exact pairFits_of_forall₂ (fun hmap => hmap.1) houtMaps ps hps
      have hsame : pss = global :: (ins ++ outs) := by
        apply Reordered.flatMap_mapBytes_inj hfits hdecoded
        rw [List.flatMap_cons, List.flatMap_append, ← hins, ← houts]
        exact List.append_cancel_left hbytes
      subst hsame
      obtain ⟨global', rest, rfl, hglobal', hrest⟩ : ∃ global' rest, pss' = global' :: rest ∧
          global'.Perm global ∧ List.Forall₂ List.Perm rest (ins ++ outs) := by
        cases hperm with
        | cons hhead htail => exact ⟨_, _, rfl, hhead, htail⟩
      obtain ⟨ins', outs', rfl, hins', houts'⟩ : ∃ ins' outs', rest = ins' ++ outs' ∧
          List.Forall₂ List.Perm ins' ins ∧ List.Forall₂ List.Perm outs' outs :=
        ⟨rest.take ins.length, rest.drop ins.length, (List.take_append_drop _ _).symm,
          by simpa using List.forall₂_take ins.length hrest,
          by simpa using List.forall₂_drop ins.length hrest⟩
      apply h.deserialize_eq_ok.mpr
      apply h.decodes_iff.mpr
      refine ⟨g, inputs, outputs, mapBytes global', ins'.map mapBytes, outs'.map mapBytes, ?_,
        hglobalMap.2 _ hglobal', ⟨hlenIn, ?_⟩, ⟨hlenOut, ?_⟩, rfl⟩
      · rw [List.flatMap_cons, List.flatMap_append, List.flatMap_def, List.flatMap_def]
      · exact exists_decodes_of_reorders hins' hinMaps
      · exact exists_decodes_of_reorders houts' houtMaps

end PsbtFormat.Lawful

section

variable [LawfulCodecs]

theorem PsbtV0.deserialize_of_reordered {b b' : Bytes} (hb : Reordered b b') {v0 : PsbtV0}
    (hdec : PsbtV0.deserialize b = .ok v0) : PsbtV0.deserialize b' = .ok v0 :=
  PsbtV0.lawful_format.deserialize_of_reorders
    (fun _ _ => GlobalV0.lawful_codec.reorders) (fun _ _ => InputV0.lawful_codec.reorders)
    (fun _ _ => OutputV0.lawful_codec.reorders) hb hdec

theorem Psbt.deserialize_of_reordered [TxidHash] {b b' : Bytes} (hb : Reordered b b') {p : Psbt}
    (hdec : Psbt.deserialize b = .ok p) : Psbt.deserialize b' = .ok p :=
  Psbt.lawful_format.deserialize_of_reorders
    (fun _ _ => Global.lawful_codec.reorders) (fun _ _ => Input.lawful_codec.reorders)
    (fun _ _ => Output.lawful_codec.reorders) hb hdec

/-- The order of the pairs does not matter: reordered maps are the same PSBT in each version,
or no PSBT in either order. -/
theorem deserialize_reordered [TxidHash] {b b' : Bytes} (hb : Reordered b b') :
    (∀ p, Psbt.deserialize b = .ok p ↔ Psbt.deserialize b' = .ok p) ∧
      ∀ v0, PsbtV0.deserialize b = .ok v0 ↔ PsbtV0.deserialize b' = .ok v0 :=
  ⟨fun _ => ⟨Psbt.deserialize_of_reordered hb, Psbt.deserialize_of_reordered hb.symm⟩,
    fun _ => ⟨PsbtV0.deserialize_of_reordered hb, PsbtV0.deserialize_of_reordered hb.symm⟩⟩

end

end Generic

/-! ## A reference PSBT in two orders -/

section

attribute [local instance] Reference.types Reference.codecs Reference.lawfulCodecs
  Reference.txidHash

/-- The pairs of a PSBT with an input and an output: those of the global map are the version
of the transaction, the counts and the version of the PSBT. -/
def Reference.pairsOfMaps : List (List Pair) :=
  [[(⟨0x02, []⟩, [2, 0, 0, 0]), (⟨0x04, []⟩, [1]), (⟨0x05, []⟩, [1]),
      (⟨0xfb, []⟩, [2, 0, 0, 0])],
    [(⟨0x0e, []⟩, List.replicate 32 7), (⟨0x0f, []⟩, [3, 0, 0, 0])],
    [(⟨0x03, []⟩, [9, 0, 0, 0, 0, 0, 0, 0]), (⟨0x04, []⟩, [0x51])]]

theorem deserialize_reordered_maps :
    (∀ ps ∈ Reference.pairsOfMaps, ps.reverse ≠ ps) ∧
      ∃ p, Psbt.deserialize (psbtMagicBytes ++
          Reference.pairsOfMaps.flatMap mapBytes) = .ok p ∧
        Psbt.deserialize (psbtMagicBytes ++
          (Reference.pairsOfMaps.map List.reverse).flatMap mapBytes) = .ok p := by
  have hsome : (Psbt.deserialize (psbtMagicBytes ++
      Reference.pairsOfMaps.flatMap mapBytes)).toOption.isSome := by decide +kernel
  have hfits : ∀ ps ∈ Reference.pairsOfMaps, ∀ p ∈ ps, PairFits p := by
    unfold PairFits
    decide
  have hreversed : List.Forall₂ List.Perm (Reference.pairsOfMaps.map List.reverse)
      Reference.pairsOfMaps := by
    rw [List.forall₂_map_left_iff, List.forall₂_same]
    exact fun ps _ => List.reverse_perm ps
  have hreordered := Reordered.maps hfits hreversed
  obtain ⟨p, hp⟩ := Option.isSome_iff_exists.mp hsome
  have hdec := Result.toOption_eq_some.mp hp
  exact ⟨by decide, p, hdec, ((deserialize_reordered hreordered).1 p).mp hdec⟩

end

end RustPsbt
