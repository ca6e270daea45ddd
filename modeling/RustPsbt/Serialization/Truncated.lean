import RustPsbt.Library.ReadLimit
import RustPsbt.Serialization.V0
import RustPsbt.Serialization.V2

/-!
# Bytes that are cut off or go on

A valid PSBT that is cut off anywhere is refused, and the error names the stage that the
decoder was in.  A valid PSBT with bytes behind it is refused because of these bytes.

Main results:

- Theorem `PushDecoder.Stage.endsEarly`: where a stream ends inside of a stage.
- Theorem `PsbtFormat.Lawful.deserialize_part`: the error of a PSBT that is cut off.
- Theorem `PsbtFormat.Lawful.deserialize_append`: the error of a PSBT that goes on.
- Theorem `deserialize_cut`: both versions refuse every other length of a valid PSBT.
-/

namespace RustPsbt

/-! ## Streams that end early -/

namespace PushDecoder

variable {β ε ε₁ α γ : Type}

/-- The decoder takes all of `x` and needs more; a stream that ends there fails with `e`. -/
def EndsEarly (D : PushDecoder β ε α) (s : D.State) (x : List β) (e : ε) : Prop :=
  ∃ t, D.push s x = .ok (t, [], .needsMore) ∧ D.finish t = .err e

theorem EndsEarly.run {D : PushDecoder β ε α} {x : List β} {e : ε}
    (h : D.EndsEarly D.init x e) : D.run x = .err e := by
  obtain ⟨t, hpush, hfin⟩ := h
  unfold PushDecoder.run runFrom
  rw [hpush, Result.ok_bind, hfin]
  rfl

/-- A stream ends inside of what a stage decodes, or the next stage sees it end. -/
theorem Stage.endsEarly {P : PushDecoder β ε α} {D : PushDecoder β ε₁ γ} {W : D.State → Prop}
    {emb : D.State → P.State} {k : γ → Result ε P.State} (h : P.Stage D W emb k)
    (hD : D.LawfulOn W) {w m x y : List β} {a : γ} {s : P.State} {e : ε}
    (hdec : D.Decodes w a) (hk : k a = .ok s) (heq : x ++ y = w ++ m)
    (hinside : x.length < w.length → ∀ p, P.finish (emb p) = .err e)
    (hbehind : ∀ {x'}, x = w ++ x' → m = x' ++ y → P.EndsEarly s x' e) :
    P.EndsEarly (emb D.init) x e := by
  rcases split_cases heq with ⟨rest, hrest, rfl, rfl⟩ | ⟨x', rfl, rfl⟩
  · obtain ⟨p, hpush⟩ := h.push_part hD hdec hrest
    refine ⟨emb p, hpush, hinside ?_ p⟩
    have hpos := List.length_pos_iff.mpr hrest
    rw [List.length_append]
    omega
  · obtain ⟨t, hpush, hfin⟩ := hbehind rfl rfl
    refine ⟨t, ?_, hfin⟩
    have hnext := h.push_decoded hD hdec hk x'
    rw [hpush, Result.erase_ok] at hnext
    exact Result.erase_eq_ok.mp hnext

end PushDecoder

open PushDecoder

/-- The stage that the decoder is in behind `n` bytes of a PSBT whose global map has `global`
bytes and whose input maps have `inputs` bytes. -/
def stageBehind (global inputs n : Nat) : String :=
  if n < 4 then "magic"
  else if n < 5 then "separator"
  else if n < 5 + global then "global"
  else if n < 5 + global + inputs then "inputs"
  else "outputs"

section Generic

variable [BitcoinTypes] [BitcoinCodecs] [LawfulCodecs]

namespace PsbtFormat

variable {G I O α : Type} {F : PsbtFormat G I O α}

/-- The bytes of the maps of a PSBT. -/
structure Maps (F : PsbtFormat G I O α) (b wg wi wo : Bytes) (g : G) (inputs : List I)
    (outputs : List O) : Prop where
  bytes : b = psbtMagicBytes ++ (wg ++ (wi ++ wo))
  global : F.globalDecoder.Decodes wg g
  inputs : (F.inputsDecoder g).Decodes wi inputs
  outputs : (F.outputsDecoder g).Decodes wo outputs

namespace Lawful

theorem exists_maps (h : F.Lawful) {b : Bytes} {a : α} (hdec : F.deserialize b = .ok a) :
    ∃ wg wi wo g inputs outputs, F.Maps b wg wi wo g inputs outputs ∧
      a = F.atEnd ⟨F.global g, F.takeInputs g inputs, F.takeOutputs g outputs⟩ := by
  obtain ⟨g, inputs, outputs, wg, wi, wo, hb, hg, hin, hout, ha⟩ :=
    h.decodes_iff.mp (h.deserialize_eq_ok.mp hdec)
  refine ⟨wg, wi.flatten, wo.flatten, g, inputs, outputs, ⟨hb, hg, ?_, ?_⟩, ha⟩
  · exact h.accepts_inputsDecoder.mpr ⟨hin.1, wi, (List.append_nil _).symm, hin.2⟩
  · exact h.accepts_outputsDecoder.mpr ⟨hout.1, wo, (List.append_nil _).symm, hout.2⟩

section

variable {W : F.Waits} (h : F.Lawful) (hW : W.Lawful) {g : G} {x y wi wo : Bytes}
  {inputs : List I} {outputs : List O}

include h hW

/-- A stream that ends before its last output. -/
theorem endsEarly_afterInputs {ins : List Input} (hdec : (F.outputsDecoder g).Decodes wo outputs)
    (heq : x ++ y = wo) (hy : y ≠ []) :
    F.decoder.EndsEarly (F.afterInputs g ins) x (.earlyEnd "outputs") := by
  have hne : x ++ y ≠ [] := by simp [hy]
  by_cases hskip : (F.skipsEmpty && F.outputCount g = 0) = true
  · -- without outputs there is nothing to cut off
    have hcount : F.outputCount g = 0 := by simpa using (Bool.and_eq_true_iff.mp hskip).2
    obtain ⟨hlen, ws, hws, hall⟩ := h.accepts_outputsDecoder.mp hdec
    rw [hcount, List.length_eq_zero_iff] at hlen
    subst hlen
    cases hall
    rw [List.flatten_nil, List.append_nil] at hws
    exact absurd (heq.trans hws) hne
  · rw [afterInputs, if_neg hskip]
    apply (stage_outputs hW g ins).endsEarly (hW.outputs g) hdec rfl
      (heq.trans (List.append_nil wo).symm)
    · exact fun _ _ => rfl
    · intro x' _ hnil
      exact absurd (List.append_eq_nil_iff.mp hnil.symm).2 hy

/-- A stream that ends in the inputs or in the outputs. -/
theorem endsEarly_afterGlobal (hin : (F.inputsDecoder g).Decodes wi inputs)
    (hout : (F.outputsDecoder g).Decodes wo outputs) (heq : x ++ y = wi ++ wo) (hy : y ≠ []) :
    F.decoder.EndsEarly (F.afterGlobal g) x
      (.earlyEnd (if x.length < wi.length then "inputs" else "outputs")) := by
  by_cases hskip : (F.skipsEmpty && F.inputCount g = 0) = true
  · have hcount : F.inputCount g = 0 := by simpa using (Bool.and_eq_true_iff.mp hskip).2
    obtain ⟨hlen, ws, hws, hall⟩ := h.accepts_inputsDecoder.mp hin
    rw [hcount, List.length_eq_zero_iff] at hlen
    subst hlen
    cases hall
    rw [List.flatten_nil, List.append_nil] at hws
    subst hws
    rw [List.nil_append] at heq
    rw [afterGlobal, if_pos hskip, List.length_nil, if_neg (Nat.not_lt_zero _)]
    exact endsEarly_afterInputs h hW hout heq hy
  · rw [afterGlobal, if_neg hskip]
    apply (stage_inputs hW g).endsEarly (hW.inputs g) hin rfl heq
    · intro hlt _
      rw [if_pos hlt]
      rfl
    · intro x' hx hwo
      have hle : ¬x.length < wi.length := by
        rw [hx, List.length_append]
        omega
      rw [if_neg hle]
      exact endsEarly_afterInputs h hW hout hwo.symm hy

end

/-- A PSBT that is cut off ends in the stage behind what is left of it. -/
theorem deserialize_part (h : F.Lawful) {b wg wi wo x y : Bytes} {g : G} {inputs : List I}
    {outputs : List O} (hmaps : F.Maps b wg wi wo g inputs outputs) (heq : b = x ++ y)
    (hy : y ≠ []) :
    F.deserialize x = .err (.earlyEnd (stageBehind wg.length wi.length x.length)) := by
  obtain ⟨W, hW⟩ := h.exists_waits
  have hmagic : magicDecoder.Decodes psbtMagic.bytes psbtMagic :=
    LawfulCodecs.array_accepts.mpr (List.append_nil _).symm
  have hfour : psbtMagic.bytes.length = 4 := rfl
  have hb : x ++ y = psbtMagic.bytes ++ (psbtHeaderSeparator :: (wg ++ (wi ++ wo))) :=
    heq.symm.trans hmaps.bytes
  have hearly : F.decoder.EndsEarly (.magic magicDecoder.init) x
      (.earlyEnd (stageBehind wg.length wi.length x.length)) := by
    apply (stage_magic hW).endsEarly hW.magic hmagic (afterMagic_eq_ok.mpr ⟨rfl, rfl⟩) hb
    · intro hlt _
      rw [hfour] at hlt
      rw [stageBehind, if_pos hlt]
      rfl
    · intro x₁ hx₁ hm₁
      have hlen₁ := congrArg List.length hx₁
      rw [List.length_append, hfour] at hlen₁
      cases x₁ with
      | nil =>
          refine ⟨.separator, push_separator_nil, ?_⟩
          rw [List.length_nil] at hlen₁
          rw [stageBehind, if_neg (by omega), if_pos (by omega)]
          rfl
      | cons sep x₂ =>
          obtain ⟨rfl, hm₂⟩ := List.cons.inj hm₁
          rw [List.length_cons] at hlen₁
          have hglobal : F.decoder.EndsEarly (.global F.globalDecoder.init) x₂
              (.earlyEnd (stageBehind wg.length wi.length x.length)) := by
            apply (stage_global hW).endsEarly hW.global hmaps.global rfl hm₂.symm
            · intro hlt _
              rw [stageBehind, if_neg (by omega), if_neg (by omega), if_pos (by omega)]
              rfl
            · intro x₃ hx₃ hm₃
              have hlen₃ := congrArg List.length hx₃
              rw [List.length_append] at hlen₃
              have hstage : stageBehind wg.length wi.length x.length =
                  if x₃.length < wi.length then "inputs" else "outputs" := by
                rw [stageBehind, if_neg (by omega), if_neg (by omega), if_neg (by omega)]
                by_cases hlt : x₃.length < wi.length
                · rw [if_pos hlt, if_pos (by omega)]
                · rw [if_neg hlt, if_neg (by omega)]
              rw [hstage]
              exact endsEarly_afterGlobal h hW hmaps.inputs hmaps.outputs hm₃.symm hy
          obtain ⟨t, hpush, hfin⟩ := hglobal
          exact ⟨t, (push_separator hW x₂).trans hpush, hfin⟩
  have hrun : F.decoder.run x = _ := hearly.run
  unfold deserialize
  rw [LawfulCodecs.decodeFromSlice_eq x h.lawful_decoder h.strict_decoder, hrun]
  rfl

/-- Bytes behind a PSBT are left over. -/
theorem deserialize_append (h : F.Lawful) {b c : Bytes} {a : α} (hdec : F.deserialize b = .ok a)
    (hc : c ≠ []) : F.deserialize (b ++ c) = .err .unconsumed := by
  have hacc := h.lawful_decoder.accepts_append (h.deserialize_eq_ok.mp hdec) c
  have hrun : F.decoder.run (b ++ c) = .ok (a, c) := hacc
  unfold deserialize
  rw [LawfulCodecs.decodeFromSlice_eq _ h.lawful_decoder h.strict_decoder, hrun]
  cases c with
  | nil => exact absurd rfl hc
  | cons byte c => rfl

end Lawful

end PsbtFormat

/-- Of a valid PSBT with its maps, every shorter and every longer length is refused. -/
structure PsbtFormat.OnlyWhole {G I O α : Type} (F : PsbtFormat G I O α)
    (b wg wi : Bytes) : Prop where
  shorter : ∀ x y, b = x ++ y → y ≠ [] →
    F.deserialize x = .err (.earlyEnd (stageBehind wg.length wi.length x.length))
  longer : ∀ c, c ≠ [] → F.deserialize (b ++ c) = .err .unconsumed

theorem PsbtFormat.Lawful.onlyWhole {G I O α : Type} {F : PsbtFormat G I O α} (h : F.Lawful)
    {b wg wi wo : Bytes} {a : α} {g : G} {inputs : List I} {outputs : List O}
    (hmaps : F.Maps b wg wi wo g inputs outputs) (hdec : F.deserialize b = .ok a) :
    F.OnlyWhole b wg wi where
  shorter _ _ heq hy := h.deserialize_part hmaps heq hy
  longer _ hc := h.deserialize_append hdec hc

/-- A valid PSBT of either version that is cut off is refused with the stage that it was cut
off in, and one that goes on is refused as not consumed. -/
theorem deserialize_cut [TxidHash] :
    (∀ {b : Bytes} {p : Psbt}, Psbt.deserialize b = .ok p → ∃ wg wi wo,
      Psbt.format.Maps b wg wi wo p.global p.inputs p.outputs ∧ Psbt.format.OnlyWhole b wg wi) ∧
      ∀ {b : Bytes} {v0 : PsbtV0}, PsbtV0.deserialize b = .ok v0 →
        ∃ wg wi wo info inputs outputs, PsbtV0.format.Maps b wg wi wo info inputs outputs ∧
          v0.psbt.global = info.1 ∧ PsbtV0.format.OnlyWhole b wg wi := by
  constructor
  · intro b p hdec
    obtain ⟨wg, wi, wo, g, inputs, outputs, hmaps, rfl⟩ := Psbt.lawful_format.exists_maps hdec
    exact ⟨wg, wi, wo, hmaps, Psbt.lawful_format.onlyWhole hmaps hdec⟩
  · intro b v0 hdec
    obtain ⟨wg, wi, wo, info, inputs, outputs, hmaps, rfl⟩ :=
      PsbtV0.lawful_format.exists_maps hdec
    exact ⟨wg, wi, wo, info, inputs, outputs, hmaps, rfl,
      PsbtV0.lawful_format.onlyWhole hmaps hdec⟩

end Generic

/-! ## A reference PSBT that is cut off -/

section

attribute [local instance] Reference.types Reference.codecs Reference.lawfulCodecs
  Reference.txidHash

theorem deserialize_cut_signed : ∃ wg wi wo,
    Psbt.format.Maps Reference.signed.serialize wg wi wo Reference.signed.global
      Reference.signed.inputs Reference.signed.outputs ∧
        Psbt.format.OnlyWhole Reference.signed.serialize wg wi :=
  deserialize_cut.1 Psbt.deserialize_signed

end

end RustPsbt
