import RustPsbt.Reference.Miniscript

/-!
# Descriptors and output types

The finalizer classifies the output of an input twice: `get_descriptor` decides which
descriptor is satisfied, and `output_type` which parts of the satisfaction are kept.

Main results:

- Theorem `Finalizer.outputTypeFromSpk_of_described`: the output type is that of the
  descriptor, if there is one.
- Theorem `Finalizer.finalScriptSigAndWitness_keeps`: no part of a satisfaction is dropped,
  and the scripts behind it have the hashes of the output.
-/

namespace RustPsbt

section Generic

variable [BitcoinTypes] [Miniscript]

/-! ## What is assumed of `miniscript` -/

/-- The satisfactions of a descriptor, non-malleable or not. -/
def Satisfies (desc : Miniscript.Descriptor) (sat : Satisfier PublicKey)
    (satisfied : List Bytes × ScriptBuf) : Prop :=
  Miniscript.getSatisfaction desc sat = .ok satisfied ∨
    Miniscript.getSatisfactionMall desc sat = .ok satisfied

/-- The descriptor is satisfied without a witness. -/
def WithoutWitness (desc : Miniscript.Descriptor) : Prop :=
  ∀ sat witness scriptSig, Satisfies desc sat (witness, scriptSig) → witness = []

/-- The descriptor is satisfied without a script signature. -/
def WithoutScriptSig (desc : Miniscript.Descriptor) : Prop :=
  ∀ sat witness scriptSig, Satisfies desc sat (witness, scriptSig) → scriptSig = []

/-- Legacy descriptors give an empty witness, segwit descriptors an empty script
signature. -/
class LawfulMiniscript : Prop where
  pk : ∀ pk, WithoutWitness (Miniscript.newPk pk)
  pkh : ∀ pk desc, Miniscript.newPkh pk = .ok desc → WithoutWitness desc
  sh : ∀ ms desc, Miniscript.newSh ms = .ok desc → WithoutWitness desc
  bare : ∀ ms desc, Miniscript.newBare ms = .ok desc → WithoutWitness desc
  wpkh : ∀ pk desc, Miniscript.newWpkh pk = .ok desc → WithoutScriptSig desc
  wsh : ∀ ms desc, Miniscript.newWsh ms = .ok desc → WithoutScriptSig desc

/-! ## Keeping a satisfaction -/

/-- The final scripts are the witness and the script signature, but for empty parts. -/
structure FinalScripts.Keeps (scripts : FinalScripts) (witness : List Bytes)
    (scriptSig : ScriptBuf) : Prop where
  witness : scripts.witness.getD [] = witness
  scriptSig : scripts.scriptSig.getD [] = scriptSig

/-- What `final_script_sig_and_witness` keeps for an output type. -/
def OutputType.finalScripts (self : OutputType) (witness : List Bytes)
    (scriptSig : ScriptBuf) : FinalScripts :=
  match self with
  | .wpkh | .wsh | .tr => .segwit witness
  | .shWpkh | .shWsh => .wrapped scriptSig witness
  | .bare | .sh => .legacy scriptSig

/-- The part that the final scripts of the output type have no place for is empty. -/
def OutputType.HasPlaceFor (self : OutputType) (witness : List Bytes)
    (scriptSig : ScriptBuf) : Prop :=
  match self with
  | .wpkh | .wsh | .tr => scriptSig = []
  | .shWpkh | .shWsh => True
  | .bare | .sh => witness = []

omit [BitcoinTypes] [Miniscript] in
theorem OutputType.keeps_finalScripts {ty : OutputType} {witness : List Bytes}
    {scriptSig : ScriptBuf} (h : ty.HasPlaceFor witness scriptSig) :
    (ty.finalScripts witness scriptSig).Keeps witness scriptSig := by
  cases ty with
  | wpkh => exact ⟨rfl, h.symm⟩
  | wsh => exact ⟨rfl, h.symm⟩
  | tr => exact ⟨rfl, h.symm⟩
  | shWpkh => exact ⟨rfl, rfl⟩
  | shWsh => exact ⟨rfl, rfl⟩
  | bare => exact ⟨h.symm, rfl⟩
  | sh => exact ⟨h.symm, rfl⟩

variable [KeyHashes] [ScriptHashes]

/-! ## The descriptor of an input -/

/-- The redeem and witness scripts that an input of the output type uses have the hashes
that the output, or the redeem script, commits to. -/
def Input.ScriptsMatch (self : Input) (spk : ScriptBuf) : OutputType → Prop
  | .bare | .wpkh | .tr => True
  | .wsh => ∃ witnessScript, self.witnessScript = some witnessScript ∧
      ScriptBuf.newP2wsh (wscriptHash witnessScript) = spk
  | .sh | .shWpkh => ∃ redeemScript, self.redeemScript = some redeemScript ∧
      ScriptBuf.newP2sh (scriptHash redeemScript) = spk
  | .shWsh => ∃ redeemScript witnessScript, self.redeemScript = some redeemScript ∧
      self.witnessScript = some witnessScript ∧
      ScriptBuf.newP2sh (scriptHash redeemScript) = spk ∧
      ScriptBuf.newP2wsh (wscriptHash witnessScript) = redeemScript

namespace Finalizer

/-- The descriptors that `get_descriptor` makes, by the type of the output. -/
inductive Described (input : Input) (spk : ScriptBuf) : OutputType → Miniscript.Descriptor → Prop where
  | pk (pk : PublicKey) (hspk : ScriptBuf.isP2pk spk) :
      Described input spk .bare (Miniscript.newPk pk)
  | pkh {desc : Miniscript.Descriptor} (pk : PublicKey) (hspk : ScriptBuf.isP2pkh spk)
      (hdesc : Miniscript.newPkh pk = .ok desc) : Described input spk .bare desc
  | wpkh {desc : Miniscript.Descriptor} (pk : PublicKey) (hspk : ScriptBuf.isP2wpkh spk)
      (hdesc : Miniscript.newWpkh pk = .ok desc) : Described input spk .wpkh desc
  | wsh {desc : Miniscript.Descriptor} (ms : Miniscript.Ms .segwitv0)
      (hspk : ScriptBuf.isP2wsh spk) (hscripts : input.ScriptsMatch spk .wsh)
      (hdesc : Miniscript.newWsh ms = .ok desc) : Described input spk .wsh desc
  | shWsh {desc : Miniscript.Descriptor} (redeemScript : ScriptBuf)
      (hspk : ScriptBuf.isP2sh spk) (hredeem : input.redeemScript = some redeemScript)
      (hwsh : ScriptBuf.isP2wsh redeemScript) (hscripts : input.ScriptsMatch spk .shWsh) :
      Described input spk .shWsh desc
  | shWpkh {desc : Miniscript.Descriptor} (redeemScript : ScriptBuf)
      (hspk : ScriptBuf.isP2sh spk) (hredeem : input.redeemScript = some redeemScript)
      (hwpkh : ScriptBuf.isP2wpkh redeemScript) (hscripts : input.ScriptsMatch spk .shWpkh) :
      Described input spk .shWpkh desc
  | sh {desc : Miniscript.Descriptor} (ms : Miniscript.Ms .legacy) (redeemScript : ScriptBuf)
      (hspk : ScriptBuf.isP2sh spk) (hredeem : input.redeemScript = some redeemScript)
      (hnot : ScriptBuf.isP2wsh redeemScript = false ∧ ScriptBuf.isP2wpkh redeemScript = false)
      (hscripts : input.ScriptsMatch spk .sh) (hdesc : Miniscript.newSh ms = .ok desc) :
      Described input spk .sh desc
  | bare {desc : Miniscript.Descriptor} (ms : Miniscript.Ms .bareCtx)
      (hnot : ScriptBuf.isP2wpkh spk = false ∧ ScriptBuf.isP2wsh spk = false ∧
        ScriptBuf.isP2sh spk = false)
      (hdesc : Miniscript.newBare ms = .ok desc) : Described input spk .bare desc

omit [KeyHashes] in
/-- The output type, where there is one, is that of the descriptor. -/
theorem outputTypeFromSpk_of_described {input : Input} {spk : ScriptBuf} {ty ty' : OutputType}
    {desc : Miniscript.Descriptor} (h : Described input spk ty desc)
    (htr : ScriptBuf.isP2tr spk = false) (htype : input.outputTypeFromSpk spk = .ok ty') :
    ty' = ty := by
  have hsh (hspk : ScriptBuf.isP2sh spk) :
      input.outputTypeFromSpk spk =
        if input.redeemScriptIs ScriptBuf.isP2wpkh then .ok .shWpkh
        else if input.redeemScriptIs ScriptBuf.isP2wsh then .ok .shWsh
        else .ok .sh := by
    obtain ⟨hwpkh, hwsh, -⟩ :=
      ScriptBuf.isP2w_eq_false (ScriptBuf.isWitnessProgram_of_isP2sh hspk)
    simp [Input.outputTypeFromSpk, hspk, hwpkh, hwsh]
  have hbare (hprogram : ScriptBuf.isWitnessProgram spk = false)
      (hspk : ScriptBuf.isP2sh spk = false) : input.outputTypeFromSpk spk = .ok .bare := by
    simp [Input.outputTypeFromSpk, hprogram, hspk]
  have hok {ty'' : OutputType} (heq : input.outputTypeFromSpk spk = .ok ty'') : ty' = ty'' := by
    rw [heq] at htype
    exact (Except.ok.inj htype).symm
  cases h with
  | pk pk hspk =>
      exact hok (hbare (ScriptBuf.isWitnessProgram_of_isP2pk hspk)
        (ScriptBuf.isP2sh_of_isP2pk hspk))
  | pkh pk hspk =>
      exact hok (hbare (ScriptBuf.isWitnessProgram_of_isP2pkh hspk)
        (ScriptBuf.isP2sh_of_isP2pkh hspk))
  | wpkh pk hspk =>
      have hprogram := ScriptBuf.isWitnessProgram_of_isP2wpkh hspk
      exact hok (by simp [Input.outputTypeFromSpk, hprogram, hspk])
  | wsh ms hspk =>
      have hprogram := ScriptBuf.isWitnessProgram_of_isP2wsh hspk
      have hwpkh := ScriptBuf.isP2wpkh_of_isP2wsh hspk
      exact hok (by simp [Input.outputTypeFromSpk, hprogram, hspk, hwpkh])
  | shWsh redeemScript hspk hredeem hwsh =>
      have hwpkh := ScriptBuf.isP2wpkh_of_isP2wsh hwsh
      exact hok (by simp [hsh hspk, Input.redeemScriptIs, hredeem, hwsh, hwpkh])
  | shWpkh redeemScript hspk hredeem hwpkh =>
      exact hok (by simp [hsh hspk, Input.redeemScriptIs, hredeem, hwpkh])
  | sh ms redeemScript hspk hredeem hnot =>
      exact hok (by simp [hsh hspk, Input.redeemScriptIs, hredeem, hnot.1, hnot.2])
  | bare ms hnot =>
      -- a witness program of another version has no output type
      by_cases hprogram : ScriptBuf.isWitnessProgram spk
      · simp [Input.outputTypeFromSpk, hprogram, hnot.1, hnot.2.1, hnot.2.2, htr] at htype
      · exact hok (hbare (Bool.eq_false_iff.mpr hprogram) hnot.2.2)

omit [KeyHashes] in
/-- Whatever scripts a descriptor is made of match the output. -/
theorem scriptsMatch_of_described {input : Input} {spk : ScriptBuf} {ty : OutputType}
    {desc : Miniscript.Descriptor} (h : Described input spk ty desc) :
    input.ScriptsMatch spk ty := by
  cases h with
  | wsh ms hspk hscripts => exact hscripts
  | shWsh redeemScript hspk hredeem hwsh hscripts => exact hscripts
  | shWpkh redeemScript hspk hredeem hwpkh hscripts => exact hscripts
  | sh ms redeemScript hspk hredeem hnot hscripts => exact hscripts
  | _ => trivial

omit [KeyHashes] in
/-- A satisfaction of a descriptor has no part that is dropped. -/
theorem hasPlaceFor_of_described [LawfulMiniscript] {input : Input} {spk : ScriptBuf}
    {ty : OutputType} {desc : Miniscript.Descriptor} {sat : Satisfier PublicKey}
    {witness : List Bytes} {scriptSig : ScriptBuf} (h : Described input spk ty desc)
    (hsat : Satisfies desc sat (witness, scriptSig)) : ty.HasPlaceFor witness scriptSig := by
  cases h with
  | pk pk hspk => exact LawfulMiniscript.pk pk sat witness scriptSig hsat
  | pkh pk hspk hdesc => exact LawfulMiniscript.pkh pk desc hdesc sat witness scriptSig hsat
  | wpkh pk hspk hdesc => exact LawfulMiniscript.wpkh pk desc hdesc sat witness scriptSig hsat
  | wsh ms hspk hscripts hdesc =>
      exact LawfulMiniscript.wsh ms desc hdesc sat witness scriptSig hsat
  | shWsh => trivial
  | shWpkh => trivial
  | sh ms redeemScript hspk hredeem hnot hscripts hdesc =>
      exact LawfulMiniscript.sh ms desc hdesc sat witness scriptSig hsat
  | bare ms hnot hdesc => exact LawfulMiniscript.bare ms desc hdesc sat witness scriptSig hsat

omit [KeyHashes] [ScriptHashes] in
theorem ofMiniscript_eq_ok {α : Type} {r : Except Miniscript.Error α} {a : α} :
    ofMiniscript r = .ok a ↔ r = .ok a := by
  unfold ofMiniscript
  rw [Result.mapErr_eq_ok, Result.ofExcept_eq_ok]

omit [KeyHashes] [ScriptHashes] in
/-- The descriptor of a key is that of some key. -/
theorem exists_of_descriptorOfKey {key : Option PublicKey}
    {new : PublicKey → Except Miniscript.Error Miniscript.Descriptor}
    {desc : Miniscript.Descriptor} (h : descriptorOfKey key new = .ok desc) :
    ∃ pk, new pk = .ok desc := by
  cases key with
  | none => cases h
  | some pk => exact ⟨pk, ofMiniscript_eq_ok.mp h⟩

omit [KeyHashes] [ScriptHashes] in
/-- The descriptor of a script is that of what it decodes to. -/
theorem exists_of_descriptorOfScript {ctx : ScriptContext} {script : ScriptBuf}
    {new : Miniscript.Ms ctx → Except Miniscript.Error Miniscript.Descriptor}
    {desc : Miniscript.Descriptor} (h : descriptorOfScript ctx script new = .ok desc) :
    ∃ ms, new ms = .ok desc := by
  obtain ⟨ms, -, hnew⟩ := Result.bind_eq_ok.mp h
  exact ⟨ms, ofMiniscript_eq_ok.mp hnew⟩

omit [KeyHashes] in
/-- The descriptor of a witness script is that of one with the hash. -/
theorem exists_of_descriptorOfWitnessScript {witnessScript : Option ScriptBuf}
    {script : ScriptBuf}
    {new : Miniscript.Ms .segwitv0 → Except Miniscript.Error Miniscript.Descriptor}
    {desc : Miniscript.Descriptor}
    (h : descriptorOfWitnessScript witnessScript script new = .ok desc) :
    ∃ ws, witnessScript = some ws ∧ ScriptBuf.newP2wsh (wscriptHash ws) = script ∧
      ∃ ms, new ms = .ok desc := by
  cases witnessScript with
  | none => cases h
  | some ws =>
      unfold descriptorOfWitnessScript at h
      dsimp only at h
      split_ifs at h with hhash
      exact ⟨ws, rfl, not_not.mp hhash, exists_of_descriptorOfScript h⟩

omit [KeyHashes] in
/-- The descriptors of pay-to-script-hash outputs. -/
theorem described_of_shDescriptor {map : BTreeMap (U8Array 20) PublicKey} {input : Input}
    {spk : ScriptBuf} {desc : Miniscript.Descriptor} (hspk : ScriptBuf.isP2sh spk)
    (h : shDescriptor map input spk = .ok desc) : ∃ ty, Described input spk ty desc := by
  unfold shDescriptor at h
  cases hredeem : input.redeemScript with
  | none =>
      rw [hredeem] at h
      cases h
  | some redeemScript =>
      simp only [hredeem] at h
      split_ifs at h with hhash hwsh hwpkh hwitness
      · have hsh := not_not.mp hhash
        obtain ⟨ws, hws, hwshash, ms, -⟩ := exists_of_descriptorOfWitnessScript h
        exact ⟨.shWsh, .shWsh redeemScript hspk hredeem hwsh
          ⟨redeemScript, ws, hredeem, hws, hsh, hwshash⟩⟩
      · exact ⟨.shWpkh, .shWpkh redeemScript hspk hredeem hwpkh
          ⟨redeemScript, hredeem, not_not.mp hhash⟩⟩
      · obtain ⟨ms, hms⟩ := exists_of_descriptorOfScript h
        exact ⟨.sh, .sh ms redeemScript hspk hredeem
          ⟨Bool.eq_false_iff.mpr hwsh, Bool.eq_false_iff.mpr hwpkh⟩
          ⟨redeemScript, hredeem, not_not.mp hhash⟩ hms⟩

variable [TxidHash]

/-- What `get_descriptor` finds is one of the descriptors. -/
theorem described_of_getDescriptor {psbtInputs : List Input} {input : Input} {utxo : TxOut}
    {desc : Miniscript.Descriptor} (hutxo : input.fundingUtxo = .ok utxo)
    (h : getDescriptor psbtInputs input = .ok desc) :
    ∃ ty, Described input utxo.scriptPubkey ty desc := by
  unfold getDescriptor at h
  rw [hutxo] at h
  dsimp only [Except.toOption, Psbt.expect, Result.ok_bind] at h
  split_ifs at h with hpk hpkh hwpkh hwsh hredeem hsh hwitness hredeem
  · obtain ⟨pk, -, hdesc⟩ := Result.bind_eq_ok.mp h
    cases hdesc
    exact ⟨.bare, .pk pk hpk⟩
  · obtain ⟨pk, hdesc⟩ := exists_of_descriptorOfKey h
    exact ⟨.bare, .pkh pk hpkh hdesc⟩
  · obtain ⟨pk, hdesc⟩ := exists_of_descriptorOfKey h
    exact ⟨.wpkh, .wpkh pk hwpkh hdesc⟩
  · obtain ⟨ws, hws, hhash, ms, hdesc⟩ := exists_of_descriptorOfWitnessScript h
    exact ⟨.wsh, .wsh _ hwsh ⟨ws, hws, hhash⟩ hdesc⟩
  · exact described_of_shDescriptor hsh h
  · obtain ⟨ms, hdesc⟩ := exists_of_descriptorOfScript h
    exact ⟨.bare, .bare _ ⟨Bool.eq_false_iff.mpr hwpkh, Bool.eq_false_iff.mpr hwsh,
      Bool.eq_false_iff.mpr hsh⟩ hdesc⟩

/-! ## The final scripts -/

variable [SignatureTypes] [ScriptInterpreter]

omit [ScriptInterpreter] in
/-- A satisfaction is a taproot witness or one of the descriptor. -/
theorem satisfaction_eq_ok {self : Finalizer} {input : Input} {utxo : TxOut} {allowMall : Bool}
    {satisfied : List Bytes × ScriptBuf} (hutxo : input.fundingUtxo = .ok utxo)
    (h : self.satisfaction input allowMall = .ok satisfied) :
    ScriptBuf.isP2tr utxo.scriptPubkey ∧ satisfied.2 = [] ∨
      ScriptBuf.isP2tr utxo.scriptPubkey = false ∧
        ∃ desc, getDescriptor self.psbt.inputs input = .ok desc ∧
          Satisfies desc input.satisfier satisfied := by
  unfold satisfaction at h
  rw [hutxo] at h
  dsimp only [Except.toOption, Psbt.expect, Result.ok_bind] at h
  split at h
  · rename_i htr
    obtain ⟨wit, -, hok⟩ := Result.bind_eq_ok.mp h
    cases hok
    exact .inl ⟨htr, rfl⟩
  · rename_i htr
    obtain ⟨desc, hdesc, hsat⟩ := Result.bind_eq_ok.mp h
    refine .inr ⟨Bool.eq_false_iff.mpr htr, desc, hdesc, ?_⟩
    split at hsat
    · exact .inl (ofMiniscript_eq_ok.mp hsat)
    · exact .inr (ofMiniscript_eq_ok.mp hsat)

/-- The final scripts hold the whole satisfaction of the output that the input spends. -/
structure Agrees (self : Finalizer) (input : Input) (allowMall : Bool)
    (scripts : FinalScripts) (spk : ScriptBuf) (ty : OutputType) : Prop where
  outputType : input.outputType = .ok ty
  keeps : ∃ witness scriptSig,
    self.satisfaction input allowMall = .ok (witness, scriptSig) ∧
      scripts.Keeps witness scriptSig
  scriptsMatch : input.ScriptsMatch spk ty
  /-- The two classifications agree: the descriptor is one of this type. -/
  described : ScriptBuf.isP2tr spk ∧ ty = .tr ∨
    ∃ desc, getDescriptor self.psbt.inputs input = .ok desc ∧ Described input spk ty desc

omit [ScriptInterpreter] in
/-- No part of a satisfaction is dropped, and the scripts used match the output. -/
theorem finalScriptSigAndWitness_keeps [LawfulMiniscript] {self : Finalizer} {input : Input}
    {allowMall : Bool} {scripts : FinalScripts}
    (h : self.finalScriptSigAndWitness input allowMall = .ok scripts) :
    ∃ utxo ty, input.fundingUtxo = .ok utxo ∧
      self.Agrees input allowMall scripts utxo.scriptPubkey ty := by
  obtain ⟨⟨witness, scriptSig⟩, hsat, hrest⟩ := Result.bind_eq_ok.mp h
  obtain ⟨ty, htype, hok⟩ := Result.bind_eq_ok.mp hrest
  have htype : input.outputType = .ok ty := Result.mapErr_eq_ok.mp htype
  have hscripts : ty.finalScripts witness scriptSig = scripts := Except.ok.inj hok
  obtain ⟨utxo, hutxo, hspk⟩ := Result.bind_eq_ok.mp htype
  have hutxo : input.fundingUtxo = .ok utxo := Result.mapErr_eq_ok.mp hutxo
  refine ⟨utxo, ty, hutxo, ?_⟩
  rcases satisfaction_eq_ok hutxo hsat with ⟨htr, hempty⟩ | ⟨htr, desc, hdesc, hsatisfies⟩
  · obtain rfl : OutputType.tr = ty :=
      Except.ok.inj ((Input.outputTypeFromSpk_of_isP2tr htr).symm.trans hspk)
    have hplace : OutputType.tr.HasPlaceFor witness scriptSig := hempty
    exact ⟨htype, ⟨witness, scriptSig, hsat, hscripts ▸ OutputType.keeps_finalScripts hplace⟩,
      trivial, .inl ⟨htr, rfl⟩⟩
  · obtain ⟨ty', hdescribed⟩ := described_of_getDescriptor hutxo hdesc
    obtain rfl := outputTypeFromSpk_of_described hdescribed htr hspk
    have hplace := hasPlaceFor_of_described hdescribed hsatisfies
    exact ⟨htype, ⟨witness, scriptSig, hsat, hscripts ▸ OutputType.keeps_finalScripts hplace⟩,
      scriptsMatch_of_described hdescribed, .inr ⟨desc, hdesc, hdescribed⟩⟩

end Finalizer

end Generic

/-! ## Reference runs -/

section

attribute [local instance] Reference.types Reference.txidHash Reference.signatureTypes
  Reference.keyHashes Reference.scriptHashes Reference.miniscript

/-- The reference descriptors are satisfied as `miniscript` satisfies them. -/
theorem Reference.satisfies_eq {desc : Reference.KeyDescriptor} {sat : Satisfier PublicKey}
    {satisfied : List Bytes × ScriptBuf} (h : Satisfies desc sat satisfied) :
    ∃ sig key, satisfied = desc.satisfy sig key := by
  rcases h with h | h
  all_goals
    simp only [Miniscript.getSatisfaction, Miniscript.getSatisfactionMall] at h
    split at h
    · exact ⟨_, _, (Except.ok.inj h).symm⟩
    · cases h

theorem Reference.lawfulMiniscript : LawfulMiniscript where
  pk pk sat witness scriptSig h := by
    obtain ⟨sig, key, heq⟩ := Reference.satisfies_eq h
    exact congrArg Prod.fst heq
  pkh pk desc hdesc sat witness scriptSig h := by
    cases hdesc
    obtain ⟨sig, key, heq⟩ := Reference.satisfies_eq h
    exact congrArg Prod.fst heq
  sh ms := ms.elim
  bare ms := ms.elim
  wpkh pk desc hdesc sat witness scriptSig h := by
    cases hdesc
    obtain ⟨sig, key, heq⟩ := Reference.satisfies_eq h
    exact congrArg Prod.snd heq
  wsh ms := ms.elim

attribute [local instance] Reference.lawfulMiniscript

namespace Finalizer

set_option maxRecDepth 4000 in
theorem finalScriptSigAndWitness_keeps_wpkh :
    let input := Reference.wpkhSigned.inputs.head (by decide)
    ∃ utxo ty, input.fundingUtxo = .ok utxo ∧
      Reference.wpkhFinalizer.Agrees input true
        (.segwit [[0x30, 0x01], 2 :: List.replicate 32 1]) utxo.scriptPubkey ty := by
  intro input
  have hscripts : Reference.wpkhFinalizer.finalScriptSigAndWitness input true =
      .ok (.segwit [[0x30, 0x01], 2 :: List.replicate 32 1]) := rfl
  exact finalScriptSigAndWitness_keeps hscripts

end Finalizer

end

end RustPsbt
