import RustPsbt.Map.KeptKeys
import RustPsbt.Serialization.Framed

/-!
# Keys that a PSBT keeps

What is read from a PSBT and what is written for it are compared key by key, map by map.

Main results:

- Theorem `Psbt.keepsKeys_iff`: no key is lost or rewritten unless a key of a type without
  key data has some.
- Theorem `Psbt.not_keepsKeys_keyed`: the key data of a transaction version is lost.
-/

namespace RustPsbt

/-! ## Maps that are written again -/

/-- The pairs and the pairs that are written for the map have the property `P`, and one is
kept by the other exactly when the pairs that were read meet a condition. -/
def Rewritten {α : Type} (encode : α → Bytes) (P : List Pair → α → Prop)
    (Keeps : List Pair → List Pair → Prop) (Meets : List Pair → Prop) (read : List Pair) (a : α) :
    Prop :=
  P read a ∧ ∃ written, encode a = mapBytes written ∧ P written a ∧
    (Keeps read written ↔ Meets read)

/-- Maps that are written again one after the other. -/
theorem exists_rewritten {α : Type} {encode : α → Bytes} {P : List Pair → α → Prop}
    {Keeps : List Pair → List Pair → Prop} {Meets : List Pair → Prop} {reads : List (List Pair)}
    {as : List α} (hall : List.Forall₂ (Rewritten encode P Keeps Meets) reads as) :
    List.Forall₂ P reads as ∧ ∃ writtens, as.flatMap encode = writtens.flatMap mapBytes ∧
      List.Forall₂ P writtens as ∧
        (List.Forall₂ Keeps reads writtens ↔ ∀ read ∈ reads, Meets read) := by
  induction hall with
  | nil => exact ⟨.nil, [], rfl, .nil, by simp⟩
  | cons hhead _ ih =>
      rcases hhead with ⟨hread, written, hencode, hwritten, hkeeps⟩
      rcases ih with ⟨hreads, writtens, hencodes, hwrittens, hkept⟩
      refine ⟨.cons hread hreads, written :: writtens, ?_, .cons hwritten hwrittens, ?_⟩
      · rw [List.flatMap_cons, List.flatMap_cons, hencode, hencodes]
      · rw [List.forall₂_cons, List.forall_mem_cons, hkeeps, hkept]

section Generic

variable [BitcoinTypes] [BitcoinCodecs]

section

variable [LawfulCodecs]

theorem Global.rewritten {w : Bytes} {self : Global} (h : Global.decoder.Decodes w self) :
    ∃ read, w = mapBytes read ∧ Rewritten Global.encode
      (fun ps g => Global.codec.Follows ps g ∧ Global.Mandatory ps) Global.KeepsKeys
        Global.keyTypes.NoKeyData read self := by
  rcases Global.wellFormed_of_accepts h with ⟨hwf, hfits⟩
  rcases Global.lawful_codec.follows h with ⟨read, m, hw, hread, hout, hfollows⟩
  rcases Result.bind_eq_ok.mp hout with ⟨out, hfinish, hend⟩
  cases hend
  have hadmits := Global.admits_iff.mpr ⟨hwf.version, hwf.unknownKeys, hfits⟩
  rcases Global.lawful_codec.collects_encode self.visits hadmits with
    ⟨written, hencode, hwritten, hmem⟩
  have hfields := Global.finish_fields hwf
  refine ⟨read, hw, ⟨hfollows, Global.mandatory hread hfinish⟩, written, hencode,
    ⟨hwritten.follows Global.lawful_codec hfields, ?_⟩,
    Global.keepsKeys hread hfinish hmem hadmits⟩
  rcases Result.bind_eq_ok.mp hfields with ⟨out, hfinish, hend⟩
  cases hend
  exact Global.mandatory hwritten hfinish

theorem Input.rewritten [TxidHash] {w : Bytes} {self : Input}
    (h : Input.decoder.Decodes w self) :
    ∃ read, w = mapBytes read ∧ Rewritten Input.encode
      (fun ps i => Input.codec.Follows ps i ∧ Input.Mandatory ps) Input.KeepsKeys
        Input.keyTypes.NoKeyData read self := by
  rcases Input.wellFormed_of_accepts h with ⟨hwf, hfits⟩
  rcases Input.lawful_codec.follows h with ⟨read, m, hw, hread, hout, hfollows⟩
  have hfinish : m.finish = .ok self := by
    rcases Result.bind_eq_ok.mp hout with ⟨out, hfinish, hend⟩
    rw [(Input.checkNonWitnessUtxo_eq_ok.mp hend).2] at hfinish
    exact hfinish
  have hm : m = self.fields := (Input.finish_eq_ok.mp hfinish).2
  subst hm
  have hadmits := Input.admits_iff.mpr ⟨hwf.unknownKeys, hfits⟩
  rcases Input.lawful_codec.collects_encode self.visits hadmits with
    ⟨written, hencode, hwritten, hmem⟩
  exact ⟨read, hw, ⟨hfollows, Input.mandatory hread hfinish⟩, written, hencode,
    ⟨hwritten.follows Input.lawful_codec (Input.finish_fields hwf),
      Input.mandatory hwritten hfinish⟩, Input.keepsKeys hread hmem hadmits⟩

theorem Output.rewritten {w : Bytes} {self : Output} (h : Output.decoder.Decodes w self) :
    ∃ read, w = mapBytes read ∧ Rewritten Output.encode
      (fun ps o => Output.codec.Follows ps o ∧ Output.Mandatory ps) Output.KeepsKeys
        Output.keyTypes.NoKeyData read self := by
  rcases Output.wellFormed_of_accepts h with ⟨hwf, hfits⟩
  rcases Output.lawful_codec.follows h with ⟨read, m, hw, hread, hout, hfollows⟩
  rcases Result.bind_eq_ok.mp hout with ⟨out, hfinish, hend⟩
  cases hend
  have hadmits := Output.admits_iff.mpr ⟨hwf.unknownKeys, hfits⟩
  rcases Output.lawful_codec.collects_encode self.visits hadmits with
    ⟨written, hencode, hwritten, hmem⟩
  have hfields := Output.finish_fields hwf
  refine ⟨read, hw, ⟨hfollows, Output.mandatory hread hfinish⟩, written, hencode,
    ⟨hwritten.follows Output.lawful_codec hfields, ?_⟩,
    Output.keepsKeys hread hfinish hmem hadmits⟩
  rcases Result.bind_eq_ok.mp hfields with ⟨out, hfinish, hend⟩
  cases hend
  exact Output.mandatory hwritten hfinish

/-! ## PSBTs -/

/-- The keys of every map are kept. -/
structure Psbt.KeepsKeys (global global' : List Pair)
    (inputs inputs' outputs outputs' : List (List Pair)) : Prop where
  global : Global.KeepsKeys global global'
  inputs : List.Forall₂ Input.KeepsKeys inputs inputs'
  outputs : List.Forall₂ Output.KeepsKeys outputs outputs'

/-- No key of any map has key data that its type does not have. -/
structure Psbt.NoKeyData (global : List Pair) (inputs outputs : List (List Pair)) : Prop where
  global : Global.keyTypes.NoKeyData global
  inputs : ∀ ps ∈ inputs, Input.keyTypes.NoKeyData ps
  outputs : ∀ ps ∈ outputs, Output.keyTypes.NoKeyData ps

omit [LawfulCodecs] in
/-- The raw keys of the global map are the ones that the grammar reads. -/
theorem Psbt.FollowsGrammar.mem_rawKeys [TxidHash] {b : Bytes} {p : Psbt} {global : List Pair}
    {inputs outputs : List (List Pair)} (h : p.FollowsGrammar b global inputs outputs)
    (key : Key) : (∃ q ∈ global, q.1 = key) ↔ ((Grammar.parse (1 + p.global.inputCount +
      p.global.outputCount) b).bind List.head?).any fun map => key.body ∈ map.map Prod.fst := by
  rw [h.parse]
  simp only [List.map_cons, Option.bind_some, List.head?_cons, Option.any_some, decide_eq_true_eq,
    List.mem_map]
  constructor
  · rintro ⟨q, hq, rfl⟩
    exact ⟨q.raw, ⟨q, hq, rfl⟩, rfl⟩
  · rintro ⟨_, ⟨q, hq, rfl⟩, hkey⟩
    exact ⟨q, hq, Key.body_injective hkey⟩

/-- The keys in each map of a PSBT that is deserialized are the keys of what is serialized
for it, but for modifiable flags that are added, an empty script that is dropped, and the
form of public keys; unless a key of a type without key data has some. -/
theorem Psbt.keepsKeys_iff [TxidHash] {b : Bytes} {p : Psbt} (h : Psbt.deserialize b = .ok p) :
    ∃ global inputs outputs global' inputs' outputs',
      p.FollowsGrammar b global inputs outputs ∧
        p.FollowsGrammar p.serialize global' inputs' outputs' ∧
          (Psbt.KeepsKeys global global' inputs inputs' outputs outputs' ↔
            Psbt.NoKeyData global inputs outputs) := by
  rcases Psbt.decodes_iff.mp (Psbt.lawful_format.deserialize_eq_ok.mp h) with
    ⟨wg, wi, wo, rfl, hg, ⟨hlenIn, hallIn⟩, hlenOut, hallOut⟩
  rcases Global.rewritten hg with ⟨global, rfl, hglobal, global', hencode, hglobal', hkeeps⟩
  rcases exists_maps hallIn fun _ _ => Input.rewritten with ⟨inputs, hwi, hinputs⟩
  rcases exists_maps hallOut fun _ _ => Output.rewritten with ⟨outputs, hwo, houtputs⟩
  rcases exists_rewritten hinputs with ⟨hin, inputs', hencodeIn, hin', hkeepsIn⟩
  rcases exists_rewritten houtputs with ⟨hout, outputs', hencodeOut, hout', hkeepsOut⟩
  refine ⟨global, inputs, outputs, global', inputs', outputs',
    .of_maps ?_ hglobal hin hout hlenIn hlenOut,
    .of_maps ?_ hglobal' hin' hout' hlenIn hlenOut, ?_⟩
  · rw [hwi, hwo]
  · rw [Psbt.serialize, hencode, hencodeIn, hencodeOut]
  · constructor
    · intro hkept
      exact ⟨hkeeps.mp hkept.global, hkeepsIn.mp hkept.inputs, hkeepsOut.mp hkept.outputs⟩
    · intro hno
      exact ⟨hkeeps.mpr hno.global, hkeepsIn.mpr hno.inputs, hkeepsOut.mpr hno.outputs⟩

end

end Generic

/-! ## Reference key data -/

section

attribute [local instance] Reference.types Reference.codecs Reference.lawfulCodecs
  Reference.txidHash

theorem Psbt.keepsKeys_signed : ∃ global inputs outputs global' inputs' outputs',
    Reference.signed.FollowsGrammar Reference.signed.serialize global inputs outputs ∧
      Reference.signed.FollowsGrammar Reference.signed.serialize global' inputs' outputs' ∧
        (Psbt.KeepsKeys global global' inputs inputs' outputs outputs' ↔
          Psbt.NoKeyData global inputs outputs) :=
  Psbt.keepsKeys_iff Psbt.deserialize_signed

/-- The reference PSBT, with key data behind the type of its transaction version. -/
def keyedBytes : Bytes :=
  psbtMagicBytes ++ (frame [0xFB] ++ frame [2, 0, 0, 0] ++ (frame [0x02, 0xAA] ++
    frame [2, 0, 0, 0]) ++ (frame [0x04] ++ frame [1]) ++ (frame [0x05] ++ frame [1]) ++
      [psbtSeparator]) ++
    (Reference.unsigned.inputs.flatMap Input.encode ++
      Reference.unsigned.outputs.flatMap Output.encode)

/-- The key data of the transaction version is lost. -/
theorem Psbt.not_keepsKeys_keyed : ∃ b p, Psbt.deserialize b = .ok p ∧
    ∀ {global inputs outputs global' inputs' outputs'},
      p.FollowsGrammar b global inputs outputs →
        p.FollowsGrammar p.serialize global' inputs' outputs' →
          ¬Psbt.KeepsKeys global global' inputs inputs' outputs outputs' := by
  refine ⟨keyedBytes, Reference.unsigned, Result.toOption_eq_some.mp (by decide +kernel), ?_⟩
  intro global inputs outputs global' inputs' outputs' hread hwritten hkept
  have hin : ∃ q ∈ global, q.1 = ⟨0x02, [0xAA]⟩ :=
    (hread.mem_rawKeys _).mpr (by decide +kernel)
  have hout : ¬∃ q ∈ global', q.1 = ⟨0x02, [0xAA]⟩ :=
    (hwritten.mem_rawKeys _).not.mpr (by decide +kernel)
  rcases hin with ⟨q, hq, hkey⟩
  refine hout ((hkept.global _).mpr (.inr ⟨q, hq, not_false, ?_⟩))
  rw [hkey]
  exact KeyTypes.standard_of_not_mem (by decide)

end

end RustPsbt
