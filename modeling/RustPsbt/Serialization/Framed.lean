import RustPsbt.Map.Boundaries
import RustPsbt.Map.KeyTypes
import RustPsbt.Serialization.V0
import RustPsbt.Serialization.V2

/-!
# Typed decoding follows the framing grammar

What the decoders of both versions take is the magic bytes and maps of the grammar, and
nothing behind them.  The map decoders move on where the grammar does.

Main results:

- Theorem `Grammar.parse_eq`: the parser of the grammar reads a PSBT back from its maps.
- Theorem `deserialize_followsGrammar`: what is deserialized follows the grammar, with the
  mandatory keys of its version.
-/

namespace RustPsbt

/-! ## The grammar of a PSBT -/

/-- Read the magic bytes and `n` maps; nothing may follow. -/
def Grammar.parse (n : Nat) (b : Bytes) : Option (List (List RawPair)) :=
  if b.take psbtMagicBytes.length = psbtMagicBytes then
    match readMaps n (b.drop psbtMagicBytes.length) with
    | some (maps, []) => some maps
    | _ => none
  else none

/-- A PSBT is read back from its maps. -/
theorem Grammar.parse_eq {pss : List (List Pair)} (hpss : ∀ ps ∈ pss, ∀ p ∈ ps, PairFits p) :
    parse pss.length (psbtMagicBytes ++ pss.flatMap mapBytes) =
      some (pss.map fun ps => ps.map Pair.raw) := by
  have hread := readMaps_eq hpss []
  rw [List.append_nil] at hread
  unfold parse
  rw [List.take_left, List.drop_left, if_pos rfl, hread]

/-- Maps that follow the grammar are read back. -/
theorem parse_maps {n : Nat} {wg wi wo : Bytes} {global : List Pair}
    {inputs outputs : List (List Pair)} (hg : wg = mapBytes global)
    (hin : wi = inputs.flatMap mapBytes) (hout : wo = outputs.flatMap mapBytes)
    (hfits : ∀ ps ∈ global :: (inputs ++ outputs), ∀ p ∈ ps, PairFits p)
    (hn : n = 1 + inputs.length + outputs.length) :
    Grammar.parse n (psbtMagicBytes ++ (wg ++ (wi ++ wo))) =
      some ((global :: (inputs ++ outputs)).map fun ps => ps.map Pair.raw) := by
  have hlen : n = (global :: (inputs ++ outputs)).length := by
    rw [hn, List.length_cons, List.length_append]
    omega
  rw [hlen, hg, hin, hout, ← List.flatMap_append, ← List.flatMap_cons]
  exact Grammar.parse_eq hfits

/-- Pairs of maps that follow the grammar are inside of the limits. -/
theorem pairFits_of_forall₂ {α : Type} {Q : List Pair → α → Prop}
    (hQ : ∀ {ps a}, Q ps a → ∀ p ∈ ps, PairFits p) {pss : List (List Pair)} {as : List α}
    (hall : List.Forall₂ Q pss as) : ∀ ps ∈ pss, ∀ p ∈ ps, PairFits p := by
  intro ps hps
  rcases Result.exists_of_mem_left hall hps with ⟨a, _, hq⟩
  exact hQ hq

/-- Rows of maps are maps of the grammar. -/
theorem exists_maps {α : Type} {R : Bytes → α → Prop} {Q : List Pair → α → Prop}
    {ws : List Bytes} {as : List α} (hall : List.Forall₂ R ws as)
    (hmap : ∀ w a, R w a → ∃ ps, w = mapBytes ps ∧ Q ps a) :
    ∃ pss, ws.flatten = pss.flatMap mapBytes ∧ List.Forall₂ Q pss as := by
  induction hall with
  | nil => exact ⟨[], rfl, .nil⟩
  | cons hw _ ih =>
      rcases hmap _ _ hw with ⟨ps, rfl, hq⟩
      rcases ih with ⟨pss, heq, hall⟩
      refine ⟨ps :: pss, ?_, .cons hq hall⟩
      rw [List.flatten_cons, List.flatMap_cons, heq]

section Generic

variable [BitcoinTypes] [BitcoinCodecs]

open MapCodec

/-! ## Mandatory keys -/

/-- The keys that a global map of version 2 holds. -/
structure Global.Mandatory (ps : List Pair) : Prop where
  version : Once ps 0xFB
  versionTwo : ∃ p ∈ ps, p.1.typeValue = 0xFB ∧ p.2 = (u32ToLeBytes 2).bytes
  txVersion : Once ps 0x02
  inputCount : Once ps 0x04
  outputCount : Once ps 0x05

/-- The keys that an input map of version 2 holds. -/
structure Input.Mandatory (ps : List Pair) : Prop where
  previousTxid : Once ps 0x0E
  spentOutputIndex : Once ps 0x0F

/-- The keys that an output map of version 2 holds. -/
structure Output.Mandatory (ps : List Pair) : Prop where
  amount : Once ps 0x03
  /-- A script or a silent payment address. -/
  script : Once ps 0x04 ∨ Once ps 0x09

/-- The key that a global map of version 0 holds. -/
structure GlobalV0.Mandatory (ps : List Pair) : Prop where
  unsignedTx : Once ps 0x00
  /-- Its raw key has no key data. -/
  unsignedTxKey : ((ps.map Pair.raw).map Prod.fst).count [0x00] = 1

section

variable [LawfulCodecs]

/-- The bytes of a version. -/
theorem decodes_version {w : Bytes} {v : Version} (h : versionDecoder.Decodes w v) :
    w = (u32ToLeBytes v.toU32).bytes := by
  rcases PushDecoder.decodes_wrap.mp h with ⟨a, ha, hv⟩
  rw [Result.mapErr_eq_ok, Result.okOr_eq_ok] at hv
  have hw := LawfulCodecs.array_accepts.mp ha
  rw [List.append_nil] at hw
  have hnum : u32FromLeBytes a = v.toU32 := by
    unfold Version.tryFrom at hv
    split at hv
    · rename_i hzero
      cases hv
      exact hzero
    · split at hv
      · rename_i htwo
        cases hv
        exact htwo
      · cases hv
  rw [hw, ← hnum, u32ToLeBytes_fromLeBytes]

theorem Global.mandatory {ps : List Pair} {m : Global.Fields} {self : Global}
    (h : Global.codec.Collects ps m) (hfinish : m.finish = .ok self) : Global.Mandatory ps := by
  have hfields := (Global.finish_eq_ok.mp hfinish).2
  have hversion : m.version = some self.version := congrArg Global.Fields.version hfields
  have honce (c : Global.Field) (hc : c ≠ .unknowns) (k : Global.FieldKey c)
      {v : Global.FieldValue c} (hset : Global.table.lookup m c k = some v)
      (hunit : ∀ k', k' = k) : Once ps (Global.rawKey c k).typeValue :=
    h.once Global.lawful_codec hset hunit fun _ => Global.selectsByType.fromKey_iff hc k
  refine ⟨honce .version nofun () hversion fun _ => rfl, ?_,
    honce .txVersion nofun () (congrArg Global.Fields.txVersion hfields) fun _ => rfl,
    honce .inputCount nofun () (congrArg Global.Fields.inputCount hfields) fun _ => rfl,
    honce .outputCount nofun () (congrArg Global.Fields.outputCount hfields) fun _ => rfl⟩
  have hentry : (⟨.version, (), self.version⟩ : Global.table.Entry) ∈ Global.table.entries m :=
    Global.lawful_table.mem_entries.mpr hversion
  rcases h.exists_pair hentry with ⟨p, hp, hpair⟩
  have htwo : self.version = .two := hpair.allowed
  have hvalue := PushDecoder.decodes_mapErr.mp hpair.decodes
  have hdec := (decodes_valueDecoder (LawfulCodecs.array_sound (by decide)).lawful.wrap
    hpair.value_le).mp hvalue
  have hw := decodes_version hdec
  rw [htwo] at hw
  exact ⟨p, hp, (Global.selectsByType.fromKey_iff (c := Global.Field.version) nofun ()).mp hpair.readsKey.fromKey, hw⟩

theorem Input.mandatory [TxidHash] {ps : List Pair} {m : Input.Fields} {self : Input}
    (h : Input.codec.Collects ps m) (hfinish : m.finish = .ok self) : Input.Mandatory ps := by
  have hfields := (Input.finish_eq_ok.mp hfinish).2
  have honce (c : Input.Field) (hc : c ≠ .unknowns) (k : Input.FieldKey c)
      {v : Input.FieldValue c} (hset : Input.table.lookup m c k = some v)
      (hunit : ∀ k', k' = k) : Once ps (Input.rawKey c k).typeValue :=
    h.once Input.lawful_codec hset hunit fun _ => Input.selectsByType.fromKey_iff hc k
  exact ⟨honce .previousTxid nofun () (congrArg Input.Fields.previousTxid hfields) fun _ => rfl,
    honce .spentOutputIndex nofun () (congrArg Input.Fields.spentOutputIndex hfields)
      fun _ => rfl⟩

theorem Output.mandatory {ps : List Pair} {m : Output.Fields} {self : Output}
    (h : Output.codec.Collects ps m) (hfinish : m.finish = .ok self) : Output.Mandatory ps := by
  have hfields := (Output.finish_eq_ok.mp hfinish).2
  have honce (c : Output.Field) (hc : c ≠ .unknowns) (k : Output.FieldKey c)
      {v : Output.FieldValue c} (hset : Output.table.lookup m c k = some v)
      (hunit : ∀ k', k' = k) : Once ps (Output.rawKey c k).typeValue :=
    h.once Output.lawful_codec hset hunit fun _ => Output.selectsByType.fromKey_iff hc k
  refine ⟨honce .amount nofun () (congrArg Output.Fields.amount hfields) fun _ => rfl, ?_⟩
  rcases Result.bind_eq_ok.mp hfinish with ⟨amount, _, hrest⟩
  rcases Result.bind_eq_ok.mp hrest with ⟨script, hscript, _⟩
  unfold Output.Fields.takeScriptPubkey at hscript
  split at hscript
  · rename_i s hs
    exact .inl (honce .scriptPubkey nofun () hs fun _ => rfl)
  · split at hscript
    · rename_i hinfo
      rcases Option.isSome_iff_exists.mp hinfo with ⟨info, hinfo⟩
      exact .inr (honce .spV0Info nofun () hinfo fun _ => rfl)
    · cases hscript

theorem GlobalV0.mandatory {ps : List Pair} {m : GlobalV0.Fields} {info : V0GlobalInfo}
    (h : GlobalV0.codec.Collects ps m) (hfinish : m.finish = .ok info) :
    GlobalV0.Mandatory ps := by
  rcases Result.bind_eq_ok.mp hfinish with ⟨tx, htx, _⟩
  rw [Result.okOr_eq_ok] at htx
  have htype : ∀ key, GlobalV0.fromKey key = .ok .unsignedTx ↔ key.typeValue = 0x00 :=
    fun _ => GlobalV0.selectsByType.fromKey_iff (c := GlobalV0.Field.unsignedTx) nofun ()
  have hset : GlobalV0.table.lookup m .unsignedTx () = some tx := htx
  refine ⟨h.once GlobalV0.lawful_codec hset (fun _ => rfl) htype, ?_⟩
  have hentry : (⟨.unsignedTx, (), tx⟩ : GlobalV0.table.Entry) ∈ GlobalV0.table.entries m :=
    GlobalV0.lawful_table.mem_entries.mpr htx
  rcases h.exists_pair hentry with ⟨p, hp, hpair⟩
  have hnum : p.1.typeValue = 0x00 := (htype p.1).mp hpair.readsKey.fromKey
  have hread : noKeyData Global.invalidKeyData p.1 = .ok () := hpair.readsKey.entryKey
  have hdata := List.isEmpty_iff.mp ((Output.noKeyData_eq_ok ()).mp hread).1
  have hbody : p.raw.1 = [0x00] := by
    rw [Pair.raw, Key.body, hnum, hdata]
    rfl
  refine List.count_eq_one_of_mem (h.nodup_keys GlobalV0.lawful_codec) ?_
  rw [List.map_map, ← hbody]
  exact List.mem_map.mpr ⟨p, hp, rfl⟩

/-! ## Maps -/

theorem Global.followsGrammar {w : Bytes} {self : Global} (h : Global.decoder.Decodes w self) :
    ∃ ps, w = mapBytes ps ∧ Global.codec.Follows ps self ∧ Global.Mandatory ps := by
  rcases Global.lawful_codec.follows h with ⟨ps, m, hw, hcollects, hout, hfollows⟩
  rcases Result.bind_eq_ok.mp hout with ⟨out, hfinish, hend⟩
  cases hend
  exact ⟨ps, hw, hfollows, Global.mandatory hcollects hfinish⟩

theorem Input.followsGrammar [TxidHash] {w : Bytes} {self : Input}
    (h : Input.decoder.Decodes w self) :
    ∃ ps, w = mapBytes ps ∧ Input.codec.Follows ps self ∧ Input.Mandatory ps := by
  rcases Input.lawful_codec.follows h with ⟨ps, m, hw, hcollects, hout, hfollows⟩
  rcases Result.bind_eq_ok.mp hout with ⟨out, hfinish, _⟩
  exact ⟨ps, hw, hfollows, Input.mandatory hcollects hfinish⟩

theorem Output.followsGrammar {w : Bytes} {self : Output} (h : Output.decoder.Decodes w self) :
    ∃ ps, w = mapBytes ps ∧ Output.codec.Follows ps self ∧ Output.Mandatory ps := by
  rcases Output.lawful_codec.follows h with ⟨ps, m, hw, hcollects, hout, hfollows⟩
  rcases Result.bind_eq_ok.mp hout with ⟨out, hfinish, _⟩
  exact ⟨ps, hw, hfollows, Output.mandatory hcollects hfinish⟩

theorem GlobalV0.followsGrammar {w : Bytes} {info : V0GlobalInfo}
    (h : GlobalV0.decoder.Decodes w info) :
    ∃ ps, w = mapBytes ps ∧ GlobalV0.codec.Follows ps info ∧ GlobalV0.Mandatory ps := by
  rcases GlobalV0.lawful_codec.follows h with ⟨ps, m, hw, hcollects, hout, hfollows⟩
  rcases Result.bind_eq_ok.mp hout with ⟨out, hfinish, hend⟩
  cases hend
  exact ⟨ps, hw, hfollows, GlobalV0.mandatory hcollects hfinish⟩

theorem InputV0.followsGrammar {w : Bytes} {self : InputV0} (h : InputV0.decoder.Decodes w self) :
    ∃ ps, w = mapBytes ps ∧ InputV0.codec.Follows ps self := by
  rcases InputV0.lawful_codec.follows h with ⟨ps, m, hw, _, _, hfollows⟩
  exact ⟨ps, hw, hfollows⟩

theorem OutputV0.followsGrammar {w : Bytes} {self : OutputV0}
    (h : OutputV0.decoder.Decodes w self) :
    ∃ ps, w = mapBytes ps ∧ OutputV0.codec.Follows ps self := by
  rcases OutputV0.lawful_codec.follows h with ⟨ps, m, hw, _, _, hfollows⟩
  exact ⟨ps, hw, hfollows⟩

/-! ## PSBTs -/

/-- The maps of a version 2 PSBT follow the grammar on these pairs. -/
structure Psbt.FollowsGrammar [TxidHash] (b : Bytes) (p : Psbt) (global : List Pair)
    (inputs outputs : List (List Pair)) : Prop where
  parse : Grammar.parse (1 + p.global.inputCount + p.global.outputCount) b =
    some ((global :: (inputs ++ outputs)).map fun ps => ps.map Pair.raw)
  global : Global.codec.Follows global p.global ∧ Global.Mandatory global
  inputs_length : inputs.length = p.global.inputCount
  inputs : List.Forall₂ (fun ps i => Input.codec.Follows ps i ∧ Input.Mandatory ps)
    inputs p.inputs
  outputs_length : outputs.length = p.global.outputCount
  outputs : List.Forall₂ (fun ps o => Output.codec.Follows ps o ∧ Output.Mandatory ps)
    outputs p.outputs

/-- The maps of a version 0 PSBT follow the grammar on these pairs. -/
structure PsbtV0.FollowsGrammar (b : Bytes) (v0 : PsbtV0) (global : List Pair)
    (inputs outputs : List (List Pair)) : Prop where
  parse : Grammar.parse (1 + v0.psbt.global.inputCount + v0.psbt.global.outputCount) b =
    some ((global :: (inputs ++ outputs)).map fun ps => ps.map Pair.raw)
  inputs_length : inputs.length = v0.psbt.global.inputCount
  outputs_length : outputs.length = v0.psbt.global.outputCount
  /-- The PSBT is made of what the map decoders take. -/
  maps : ∃ (info : V0GlobalInfo) (is : List InputV0) (os : List OutputV0),
    (GlobalV0.codec.Follows global info ∧ GlobalV0.Mandatory global) ∧
      List.Forall₂ InputV0.codec.Follows inputs is ∧
        List.Forall₂ OutputV0.codec.Follows outputs os ∧
          v0 = ofDecoded ⟨info.1, takeInputs info is, takeOutputs info os⟩

omit [LawfulCodecs] in
/-- Maps behind the magic bytes that are decoded follow the grammar. -/
theorem Psbt.FollowsGrammar.of_maps [TxidHash] {b : Bytes} {p : Psbt} {global : List Pair}
    {inputs outputs : List (List Pair)}
    (hb : b = psbtMagicBytes ++
      (mapBytes global ++ (inputs.flatMap mapBytes ++ outputs.flatMap mapBytes)))
    (hglobal : Global.codec.Follows global p.global ∧ Global.Mandatory global)
    (hinputs : List.Forall₂ (fun ps i => Input.codec.Follows ps i ∧ Input.Mandatory ps)
      inputs p.inputs)
    (houtputs : List.Forall₂ (fun ps o => Output.codec.Follows ps o ∧ Output.Mandatory ps)
      outputs p.outputs)
    (hlenIn : p.inputs.length = p.global.inputCount)
    (hlenOut : p.outputs.length = p.global.outputCount) :
    p.FollowsGrammar b global inputs outputs := by
  have hin := hinputs.length_eq.trans hlenIn
  have hout := houtputs.length_eq.trans hlenOut
  refine ⟨?_, hglobal, hin, hinputs, hout, houtputs⟩
  rw [hb]
  apply parse_maps rfl rfl rfl
  · intro ps hps
    rcases List.mem_cons.mp hps with rfl | hps
    · exact hglobal.1.pairFits
    · rcases List.mem_append.mp hps with hps | hps
      · exact pairFits_of_forall₂ (fun hq => hq.1.pairFits) hinputs ps hps
      · exact pairFits_of_forall₂ (fun hq => hq.1.pairFits) houtputs ps hps
  · rw [hin, hout]

omit [LawfulCodecs] in
/-- Maps of version 0 behind the magic bytes that are decoded follow the grammar. -/
theorem PsbtV0.FollowsGrammar.of_maps {b : Bytes} {global : List Pair}
    {inputs outputs : List (List Pair)} {info : V0GlobalInfo} {is : List InputV0}
    {os : List OutputV0}
    (hb : b = psbtMagicBytes ++
      (mapBytes global ++ (inputs.flatMap mapBytes ++ outputs.flatMap mapBytes)))
    (hglobal : GlobalV0.codec.Follows global info ∧ GlobalV0.Mandatory global)
    (hinputs : List.Forall₂ InputV0.codec.Follows inputs is)
    (houtputs : List.Forall₂ OutputV0.codec.Follows outputs os)
    (hlenIn : is.length = info.1.inputCount) (hlenOut : os.length = info.1.outputCount) :
    (ofDecoded ⟨info.1, takeInputs info is, takeOutputs info os⟩).FollowsGrammar b global inputs
      outputs := by
  have hin : inputs.length = info.1.inputCount := hinputs.length_eq.trans hlenIn
  have hout : outputs.length = info.1.outputCount := houtputs.length_eq.trans hlenOut
  refine ⟨?_, hin, hout, info, is, os, hglobal, hinputs, houtputs, rfl⟩
  rw [hb]
  apply parse_maps rfl rfl rfl
  · intro ps hps
    rcases List.mem_cons.mp hps with rfl | hps
    · exact hglobal.1.pairFits
    · rcases List.mem_append.mp hps with hps | hps
      · exact pairFits_of_forall₂ (fun hq => hq.pairFits) hinputs ps hps
      · exact pairFits_of_forall₂ (fun hq => hq.pairFits) houtputs ps hps
  · change 1 + info.1.inputCount + info.1.outputCount = _
    rw [hin, hout]

/-- Everything that is deserialized is the magic bytes, one global map, as many input and
output maps as it counts, and nothing behind them.  In each map the typed decoders take the
keys and values of the grammar, no raw key is there twice, and the mandatory keys are
there. -/
theorem deserialize_followsGrammar [TxidHash] :
    (∀ {b : Bytes} {p : Psbt}, Psbt.deserialize b = .ok p →
      ∃ global inputs outputs, p.FollowsGrammar b global inputs outputs) ∧
      ∀ {b : Bytes} {v0 : PsbtV0}, PsbtV0.deserialize b = .ok v0 →
        ∃ global inputs outputs, v0.FollowsGrammar b global inputs outputs := by
  constructor
  · intro b p h
    rcases Psbt.decodes_iff.mp (Psbt.lawful_format.deserialize_eq_ok.mp h) with
      ⟨wg, wi, wo, rfl, hg, ⟨hlenIn, hallIn⟩, hlenOut, hallOut⟩
    rcases Global.followsGrammar hg with ⟨global, hwg, hglobal⟩
    rcases exists_maps hallIn fun _ _ => Input.followsGrammar with ⟨inputs, hwi, hinputs⟩
    rcases exists_maps hallOut fun _ _ => Output.followsGrammar with ⟨outputs, hwo, houtputs⟩
    refine ⟨global, inputs, outputs, .of_maps ?_ hglobal hinputs houtputs hlenIn hlenOut⟩
    rw [hwg, hwi, hwo]
  · intro b v0 h
    rcases PsbtV0.decodes_iff.mp (PsbtV0.lawful_format.deserialize_eq_ok.mp h) with
      ⟨info, is, os, wg, wi, wo, rfl, hg, ⟨hlenIn, hallIn⟩, ⟨hlenOut, hallOut⟩, rfl⟩
    rcases GlobalV0.followsGrammar hg with ⟨global, hwg, hglobal⟩
    rcases exists_maps hallIn fun _ _ => InputV0.followsGrammar with ⟨inputs, hwi, hinputs⟩
    rcases exists_maps hallOut fun _ _ => OutputV0.followsGrammar with ⟨outputs, hwo, houtputs⟩
    rcases GlobalV0.counts_of_accepts hg with ⟨hcountIn, hcountOut⟩
    refine ⟨global, inputs, outputs, .of_maps ?_ hglobal hinputs houtputs
      (hlenIn.trans hcountIn.symm) (hlenOut.trans hcountOut.symm)⟩
    rw [hwg, hwi, hwo]

end

end Generic

/-! ## Reference grammar -/

section

attribute [local instance] Reference.types Reference.codecs Reference.lawfulCodecs
  Reference.txidHash

theorem followsGrammar_signed : ∃ global inputs outputs,
    Reference.signed.FollowsGrammar Reference.signed.serialize global inputs outputs :=
  deserialize_followsGrammar.1 Psbt.deserialize_signed

end

end RustPsbt
