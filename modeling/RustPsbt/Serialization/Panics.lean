import RustPsbt.Map.Boundaries
import RustPsbt.Serialization.RoundTripV0

/-!
# Panics of the decoders

The decoder of a tap tree slices by the length that a leaf announces, and the decoder of a
tap key origin subtracts the sizes of its items from the announced length.  Neither checks
the length first.  All other decoders return.

Main results:

- Theorem `PsbtFormat.Lawful.returns_deserialize`: a PSBT is decoded without a panic when
  none of its maps panics where everything before it is decoded.
- Theorem `returns_deserialize_iff`: decoding panics exactly at a cut leaf or a cut item.
- Theorem `not_returns_malsized`: both are reached.
-/

namespace RustPsbt

open PushDecoder

section Generic

variable [BitcoinTypes] [BitcoinCodecs]

/-! ## Formats -/

namespace PsbtFormat

variable {G I O α : Type}

/-- Everything before an input or an output is decoded, and `BadI` or `BadO` holds of what
starts with it. -/
inductive Reaches (F : PsbtFormat G I O α) (BadI BadO : Bytes → Prop) : Bytes → Prop where
  | input {wg m : Bytes} {g : G} (global : F.globalDecoder.Decodes wg g)
      (row : F.inputDecoder.RowReaches BadI (F.inputCount g) m) :
      Reaches F BadI BadO (psbtMagicBytes ++ (wg ++ m))
  | output {wg wi m : Bytes} {g : G} {inputs : List I} (global : F.globalDecoder.Decodes wg g)
      (before : (F.inputsDecoder g).Decodes wi inputs)
      (row : F.outputDecoder.RowReaches BadO (F.outputCount g) m) :
      Reaches F BadI BadO (psbtMagicBytes ++ (wg ++ (wi ++ m)))

section Stages

variable {F : PsbtFormat G I O α} {W : F.Waits} (hW : W.Lawful)

include hW

theorem returns_separator {b : Bytes} : (F.decoder.meaningFrom .separator b).Returns ↔
    ∀ {m}, b = psbtHeaderSeparator :: m →
      (F.decoder.meaningFrom (.global F.globalDecoder.init) m).Returns := by
  unfold PushDecoder.meaningFrom PushDecoder.runFrom
  cases b with
  | nil =>
      rw [push_separator_nil]
      exact iff_of_true trivial nofun
  | cons sep m =>
      by_cases hsep : sep = psbtHeaderSeparator
      · subst hsep
        rw [push_separator hW]
        simp
      · rw [push_separator_of_ne hsep]
        simp [hsep]

theorem returns_outputs {g : G} {inputs : List Input} {b : Bytes} :
    (F.decoder.meaningFrom (.outputs g inputs (F.outputsDecoder g).init) b).Returns ↔
      ((F.outputsDecoder g).meaning b).Returns := by
  have hearly : ∀ {d}, W.outputs g d → (F.decoder.finish (.outputs g inputs d)).IsErr :=
    fun {d} hd => isErr_finish (s := .outputs g inputs d) hd
  rw [(stage_outputs hW g inputs).returns_meaningFrom (hW.outputs g) hearly]
  constructor
  · exact And.left
  · intro hreturns
    refine ⟨hreturns, fun _ => ⟨trivial, fun hk => ?_⟩⟩
    cases hk
    rw [meaningFrom_done]
    trivial

variable [LawfulCodecs] (h : F.Lawful)

include h

/-- No row of outputs is decoded where it is skipped. -/
theorem returns_afterInputs {g : G} {inputs : List Input} {b : Bytes} :
    (F.decoder.meaningFrom (F.afterInputs g inputs) b).Returns ↔
      ((F.outputsDecoder g).meaning b).Returns := by
  unfold afterInputs
  split
  · rename_i hskip
    have hcount : F.outputCount g = 0 := by simpa using (Bool.and_eq_true_iff.mp hskip).2
    rw [meaningFrom_done, outputsDecoder,
      LawfulCodecs.exactVec_meaning h.output_lawful h.output_strict, hcount]
    exact iff_of_true trivial trivial
  · exact returns_outputs hW

theorem returns_inputs {g : G} {b : Bytes} :
    (F.decoder.meaningFrom (.inputs g (F.inputsDecoder g).init) b).Returns ↔
      ((F.inputsDecoder g).meaning b).Returns ∧
        ∀ {inputs m}, (F.inputsDecoder g).Accepts b inputs m →
          ((F.outputsDecoder g).meaning m).Returns := by
  have hearly : ∀ {d}, W.inputs g d → (F.decoder.finish (.inputs g d)).IsErr :=
    fun {d} hd => isErr_finish (s := .inputs g d) hd
  rw [(stage_inputs hW g).returns_meaningFrom (hW.inputs g) hearly]
  constructor
  · rintro ⟨hreturns, hall⟩
    exact ⟨hreturns, fun hacc => (returns_afterInputs hW h).mp ((hall hacc).2 rfl)⟩
  · rintro ⟨hreturns, hall⟩
    refine ⟨hreturns, fun hacc => ⟨trivial, fun hk => ?_⟩⟩
    cases hk
    exact (returns_afterInputs hW h).mpr (hall hacc)

theorem returns_afterGlobal {g : G} {b : Bytes} :
    (F.decoder.meaningFrom (F.afterGlobal g) b).Returns ↔
      ((F.inputsDecoder g).meaning b).Returns ∧
        ∀ {inputs m}, (F.inputsDecoder g).Accepts b inputs m →
          ((F.outputsDecoder g).meaning m).Returns := by
  unfold afterGlobal
  split
  · rename_i hskip
    have hcount : F.inputCount g = 0 := by simpa using (Bool.and_eq_true_iff.mp hskip).2
    have hmeaning : (F.inputsDecoder g).meaning b = .ok ([], b) := by
      rw [inputsDecoder, LawfulCodecs.exactVec_meaning h.input_lawful h.input_strict, hcount]
      rfl
    rw [returns_afterInputs hW h, hmeaning]
    constructor
    · intro hreturns
      refine ⟨trivial, fun hacc => ?_⟩
      rw [← meaning_eq_ok, hmeaning] at hacc
      cases hacc
      exact hreturns
    · rintro ⟨_, hall⟩
      exact hall (meaning_eq_ok.mp hmeaning)
  · exact returns_inputs hW h

theorem returns_global {b : Bytes} :
    (F.decoder.meaningFrom (.global F.globalDecoder.init) b).Returns ↔
      (F.globalDecoder.meaning b).Returns ∧ ∀ {g m₁}, F.globalDecoder.Accepts b g m₁ →
        ((F.inputsDecoder g).meaning m₁).Returns ∧
          ∀ {inputs m₂}, (F.inputsDecoder g).Accepts m₁ inputs m₂ →
            ((F.outputsDecoder g).meaning m₂).Returns := by
  have hearly : ∀ {d}, W.global d → (F.decoder.finish (.global d)).IsErr :=
    fun {d} hd => isErr_finish (s := .global d) hd
  rw [(stage_global hW).returns_meaningFrom hW.global hearly]
  constructor
  · rintro ⟨hreturns, hall⟩
    exact ⟨hreturns, fun hacc => (returns_afterGlobal hW h).mp ((hall hacc).2 rfl)⟩
  · rintro ⟨hreturns, hall⟩
    refine ⟨hreturns, fun hacc => ⟨trivial, fun hk => ?_⟩⟩
    cases hk
    exact (returns_afterGlobal hW h).mpr (hall hacc)

end Stages

namespace Lawful

variable [LawfulCodecs] {F : PsbtFormat G I O α}

/-- Every part is decoded without a panic when the parts before it are decoded. -/
theorem returns_iff (h : F.Lawful) {b : Bytes} : (F.decoder.meaning b).Returns ↔
    ∀ {m}, b = psbtMagicBytes ++ m → (F.globalDecoder.meaning m).Returns ∧
      ∀ {g m₁}, F.globalDecoder.Accepts m g m₁ → ((F.inputsDecoder g).meaning m₁).Returns ∧
        ∀ {inputs m₂}, (F.inputsDecoder g).Accepts m₁ inputs m₂ →
          ((F.outputsDecoder g).meaning m₂).Returns := by
  rcases h.exists_waits with ⟨W, hW⟩
  have hearly : ∀ {d}, W.magic d → (F.decoder.finish (.magic d)).IsErr :=
    fun {d} hd => isErr_finish (s := .magic d) hd
  change (F.decoder.meaningFrom (.magic magicDecoder.init) b).Returns ↔ _
  rw [(stage_magic hW).returns_meaningFrom hW.magic hearly]
  constructor
  · rintro ⟨_, hall⟩ m rfl
    have hmagic : magicDecoder.Accepts (psbtMagicBytes ++ m) psbtMagic (psbtHeaderSeparator :: m) :=
      LawfulCodecs.array_accepts.mpr rfl
    have hsep := (hall hmagic).2 (afterMagic_eq_ok.mpr ⟨rfl, rfl⟩)
    exact (returns_global hW h).mp ((returns_separator hW).mp hsep rfl)
  · intro hall
    refine ⟨safe_iff.mp (LawfulCodecs.array_sound (by decide)).safe b, ?_⟩
    intro magic m hmagic
    constructor
    · unfold afterMagic
      split <;> trivial
    · intro s hs
      rcases afterMagic_eq_ok.mp hs with ⟨rfl, rfl⟩
      apply (returns_separator hW).mpr
      rintro m' rfl
      exact (returns_global hW h).mpr (hall (LawfulCodecs.array_accepts.mp hmagic))

/-- Decoding a slice returns when the decoder does. -/
theorem returns_decodeFromSlice (h : F.Lawful) {b : Bytes} :
    (F.deserialize b).Returns ↔ (F.decoder.meaning b).Returns := by
  unfold deserialize
  rw [Result.returns_mapErr, LawfulCodecs.decodeFromSlice_eq b h.lawful_decoder h.strict_decoder,
    Result.returns_bind, Result.returns_mapErr, ← Result.returns_erase]
  constructor
  · exact And.left
  · intro hreturns
    refine ⟨hreturns, ?_⟩
    rintro ⟨a, r⟩ _
    exact Result.Returns.ite trivial trivial

/-- A PSBT is decoded without a panic when none of its maps panics where everything before
it is decoded. -/
theorem returns_deserialize (h : F.Lawful) (hglobal : F.globalDecoder.Safe)
    {BadI BadO : Bytes → Prop} (hinput : ∀ m, (F.inputDecoder.meaning m).Returns ↔ ¬BadI m)
    (houtput : ∀ m, (F.outputDecoder.meaning m).Returns ↔ ¬BadO m) {b : Bytes} :
    (F.deserialize b).Returns ↔ ¬F.Reaches BadI BadO b := by
  have hinputs : ∀ {g m}, ((F.inputsDecoder g).meaning m).Returns ↔
      ¬F.inputDecoder.RowReaches BadI (F.inputCount g) m := by
    intro g m
    rw [inputsDecoder, LawfulCodecs.exactVec_meaning h.input_lawful h.input_strict]
    exact returns_replicate_iff h.input_lawful hinput
  have houtputs : ∀ {g m}, ((F.outputsDecoder g).meaning m).Returns ↔
      ¬F.outputDecoder.RowReaches BadO (F.outputCount g) m := by
    intro g m
    rw [outputsDecoder, LawfulCodecs.exactVec_meaning h.output_lawful h.output_strict]
    exact returns_replicate_iff h.output_lawful houtput
  have hinLaw : ∀ g, (F.inputsDecoder g).Lawful := fun _ =>
    LawfulCodecs.exactVec_lawful h.input_lawful h.input_strict
  rw [h.returns_decodeFromSlice, h.returns_iff]
  constructor
  · intro hall hreach
    cases hreach with
    | @input wg m g global row =>
        have hmaps := (hall rfl).2 (h.global_lawful.accepts_append global m)
        exact hinputs.mp hmaps.1 row
    | @output wg wi m g inputs global before row =>
        have hmaps := (hall rfl).2 (h.global_lawful.accepts_append global (wi ++ m))
        exact houtputs.mp (hmaps.2 ((hinLaw g).accepts_append before m)) row
  · rintro hnot m rfl
    refine ⟨safe_iff.mp hglobal m, ?_⟩
    intro g m₁ hacc
    rcases h.global_lawful.accepts_iff.mp hacc with ⟨wg, rfl, hg⟩
    refine ⟨hinputs.mpr fun row => hnot (.input hg row), ?_⟩
    intro inputs m₂ haccIn
    rcases (hinLaw g).accepts_iff.mp haccIn with ⟨wi, rfl, hin⟩
    exact houtputs.mpr fun row => hnot (.output hg hin row)

end Lawful

end PsbtFormat

/-! ## Maps -/

namespace MapCodec

variable {ε M α : Type} {C : MapCodec ε M α}

/-- The pairs before a value are collected, and `Bad` holds of the field of the value and of
what starts with the value. -/
def Reaches (C : MapCodec ε M α) (Bad : C.table.Col → Bytes → Prop) (b : Bytes) : Prop :=
  ∃ (ps : List Pair) (m : M) (key : Key) (c : C.table.Col) (rest : Bytes),
    b = pairsBytes ps ++ (key.bytes ++ rest) ∧ C.Collects ps m ∧
      key.body.length ≤ compactSizeLimit ∧ C.fromKey key = .ok c ∧ Bad c rest

variable [LawfulCodecs]

/-- A map is decoded without a panic when none of its values panics where the pairs before
it are collected. -/
theorem Lawful.returns_mapDecoder (h : C.Lawful) {Bad : C.table.Col → Bytes → Prop}
    (hbad : ∀ c rest, ((C.decoder c).meaning rest).Returns ↔ ¬Bad c rest) (b : Bytes) :
    (C.mapDecoder.meaning b).Returns ↔ ¬C.Reaches Bad b := by
  refine h.spec.returns_iff.trans (not_congr ?_)
  constructor
  · rintro ⟨ps, m, key, c, rest, hb, hsteps, hkey, hfrom, hcut⟩
    exact ⟨ps, m, key, c, rest, hb, (steps_empty_iff h).mp hsteps, hkey, hfrom,
      not_not.mp ((hbad c rest).not.mp hcut)⟩
  · rintro ⟨ps, m, key, c, rest, hb, hcollects, hkey, hfrom, hcut⟩
    exact ⟨ps, m, key, c, rest, hb, (steps_empty_iff h).mpr hcollects, hkey, hfrom,
      (hbad c rest).not.mpr (not_not.mpr hcut)⟩

theorem Lawful.safe_mapDecoder (h : C.Lawful) (hsafe : ∀ c, (C.decoder c).Safe) :
    C.mapDecoder.Safe := by
  rw [safe_iff]
  intro b
  apply (h.returns_mapDecoder (fun c rest => iff_of_true (safe_iff.mp (hsafe c) rest) id) b).mpr
  rintro ⟨_, _, _, _, _, _, _, _, _, hbad⟩
  exact hbad

end MapCodec

/-! ## Values -/

/-- A leaf of the tap tree that the bytes start with announces a longer script than is left
of the tree. -/
def TreeMalsized (b : Bytes) : Prop :=
  ∃ value r, b = frame value ++ r ∧ value.length ≤ compactSizeLimit ∧
    CutLeaf taprootBuilder value

/-- The announced length of the tap key origin that the bytes start with cuts an item. -/
def OriginMalsized (b : Bytes) : Prop :=
  ∃ declared v, b = compactSize declared ++ v ∧ declared ≤ compactSizeLimit ∧
    CutOrigin declared v

/-- The value of the field is a malsized tap key origin. -/
def Input.ValueMalsized (c : Input.Field) (b : Bytes) : Prop :=
  c = .tapKeyOrigins ∧ OriginMalsized b

/-- The value of the field is a malsized tap tree or tap key origin. -/
def Output.ValueMalsized (c : Output.Field) (b : Bytes) : Prop :=
  c = .tapTree ∧ TreeMalsized b ∨ c = .tapKeyOrigins ∧ OriginMalsized b

section Values

variable [LawfulCodecs]

theorem returns_tapTree {b : Bytes} :
    (tapTreeDecoder.meaning b).Returns ↔ ¬TreeMalsized b := by
  rw [tapTreeDecoder, meaning_wrap, Parser.returns_andThen]
  simp only [Parser.returns_ofResult, meaning_eq_ok, LawfulCodecs.byteVec_accepts,
    returns_tapTreeOfValue]
  constructor
  · rintro ⟨_, hall⟩ ⟨value, r, rfl, hlimit, hcut⟩
    exact hall ⟨frame_append value r, hlimit⟩ hcut
  · intro hnot
    refine ⟨safe_iff.mp LawfulCodecs.byteVec_sound.safe b, ?_⟩
    rintro value r ⟨hb, hlimit⟩ hcut
    exact hnot ⟨value, r, hb.trans (frame_append value r).symm, hlimit, hcut⟩

/-- The values of a global map are decoded without a panic. -/
theorem Global.safe_value (c : Global.Field) : (Global.valueDecoderOf c).Safe := by
  cases c with
  | version => exact (safe_arrayValueDecoder (by decide) fun _ => Result.returns_okOr _ _).mapErr
  | txVersion => exact (safe_valueDecoder LawfulCodecs.txVersion_lawful.sound.safe).mapErr
  | fallbackLockTime => exact (safe_valueDecoder LawfulCodecs.lockTime_lawful.sound.safe).mapErr
  | inputCount => exact safe_count.mapErr
  | outputCount => exact safe_count.mapErr
  | txModifiableFlags => exact (safe_array (by decide) fun _ => Result.returns_ok _).mapErr
  | xpubs => exact safe_keySource.mapErr
  | spEcdhShares =>
      exact (safe_arrayValueDecoder (by decide) fun _ => Result.returns_ofExcept _).mapErr
  | spDleqProofs => exact (safe_array (by decide) fun _ => Result.returns_ok _).mapErr
  | proprietaries => exact LawfulCodecs.byteVec_sound.safe.mapErr
  | unknowns => exact LawfulCodecs.byteVec_sound.safe.mapErr

theorem GlobalV0.safe_value (c : GlobalV0.Field) : (GlobalV0.valueDecoderOf c).Safe := by
  cases c with
  | unsignedTx => exact safe_unsignedTxValue.mapErr
  | version =>
      apply (safe_arrayValueDecoder (by decide) fun _ => Result.returns_okOr _ _).wrap
      intro version
      exact Result.Returns.ite trivial trivial
  | xpubs => exact safe_keySource.mapErr
  | spEcdhShares =>
      exact (safe_arrayValueDecoder (by decide) fun _ => Result.returns_ofExcept _).mapErr
  | spDleqProofs => exact (safe_array (by decide) fun _ => Result.returns_ok _).mapErr
  | proprietaries => exact LawfulCodecs.byteVec_sound.safe.mapErr
  | unknowns => exact LawfulCodecs.byteVec_sound.safe.mapErr

/-- Of the values of an input only a tap key origin may panic. -/
theorem Input.safe_value {c : Input.Field} (hc : c ≠ .tapKeyOrigins) :
    (Input.valueDecoderOf c).Safe := by
  have hvec : byteVecDecoder.Safe := LawfulCodecs.byteVec_sound.safe
  cases c with
  | previousTxid =>
      exact (safe_arrayValueDecoder (by decide) fun _ => returns_hashFromSlice _ _).mapErr
  | spentOutputIndex => exact (safe_array (by decide) fun _ => Result.returns_ok _).mapErr
  | sequence => exact (safe_valueDecoder LawfulCodecs.sequence_lawful.sound.safe).mapErr
  | minTime => exact (safe_arrayValueDecoder (by decide) fun _ => Result.returns_okOr _ _).mapErr
  | minHeight =>
      exact (safe_arrayValueDecoder (by decide) fun _ =>
        RequiredHeightLockTime.returns_fromConsensus _).mapErr
  | nonWitnessUtxo => exact (safe_valueDecoder LawfulCodecs.transaction_lawful.sound.safe).mapErr
  | witnessUtxo => exact (safe_valueDecoder LawfulCodecs.txOut_lawful.sound.safe).mapErr
  | partialSigs => exact safe_ecdsaSignature.mapErr
  | sighashType => exact (safe_array (by decide) fun _ => Result.returns_ok _).mapErr
  | redeemScript => exact hvec.mapErr
  | witnessScript => exact hvec.mapErr
  | bip32Derivations => exact safe_keySource.mapErr
  | finalScriptSig => exact hvec.mapErr
  | finalScriptWitness => exact (safe_valueDecoder LawfulCodecs.witness_lawful.sound.safe).mapErr
  | ripemd160Preimages => exact hvec.mapErr
  | sha256Preimages => exact hvec.mapErr
  | hash160Preimages => exact hvec.mapErr
  | hash256Preimages => exact hvec.mapErr
  | tapKeySig => exact safe_taprootSignature.mapErr
  | tapScriptSigs => exact safe_taprootSignature.mapErr
  | tapScripts => exact safe_leafScript.mapErr
  | tapKeyOrigins => exact absurd rfl hc
  | tapInternalKey =>
      exact (safe_arrayValueDecoder (by decide) fun _ => Result.returns_ofExcept _).mapErr
  | tapMerkleRoot =>
      exact (safe_arrayValueDecoder (by decide) fun _ => returns_hashFromSlice _ _).mapErr
  | spEcdhShares =>
      exact (safe_arrayValueDecoder (by decide) fun _ => Result.returns_ofExcept _).mapErr
  | spDleqProofs => exact (safe_array (by decide) fun _ => Result.returns_ok _).mapErr
  | proprietaries => exact hvec.mapErr
  | unknowns => exact hvec.mapErr

/-- Of the values of an output only a tap tree or a tap key origin may panic. -/
theorem Output.safe_value {c : Output.Field} (htree : c ≠ .tapTree) (horigin : c ≠ .tapKeyOrigins) :
    (Output.valueDecoderOf c).Safe := by
  have hvec : byteVecDecoder.Safe := LawfulCodecs.byteVec_sound.safe
  cases c with
  | amount => exact (safe_valueDecoder LawfulCodecs.amount_lawful.sound.safe).mapErr
  | scriptPubkey => exact hvec.mapErr
  | redeemScript => exact hvec.mapErr
  | witnessScript => exact hvec.mapErr
  | bip32Derivations => exact safe_keySource.mapErr
  | tapInternalKey =>
      exact (safe_arrayValueDecoder (by decide) fun _ => Result.returns_ofExcept _).mapErr
  | tapTree => exact absurd rfl htree
  | tapKeyOrigins => exact absurd rfl horigin
  | spV0Info =>
      exact (safe_arrayValueDecoder (by decide) SpV0Info.returns_fromByteArray).mapErr
  | spV0Label => exact (safe_array (by decide) fun _ => Result.returns_ok _).mapErr
  | proprietaries => exact hvec.mapErr
  | unknowns => exact hvec.mapErr

theorem Input.returns_value (c : Input.Field) (b : Bytes) :
    ((Input.valueDecoderOf c).meaning b).Returns ↔ ¬Input.ValueMalsized c b := by
  by_cases hc : c = .tapKeyOrigins
  · subst hc
    rw [Input.valueDecoderOf, meaning_mapErr, returns_tapKeyOrigin]
    exact not_congr (and_iff_right rfl).symm
  · exact iff_of_true (safe_iff.mp (Input.safe_value hc) b) fun hbad => hc hbad.1

theorem Output.returns_value (c : Output.Field) (b : Bytes) :
    ((Output.valueDecoderOf c).meaning b).Returns ↔ ¬Output.ValueMalsized c b := by
  by_cases htree : c = .tapTree
  · subst htree
    rw [Output.valueDecoderOf, meaning_mapErr, returns_tapTree]
    simp [Output.ValueMalsized]
  · by_cases horigin : c = .tapKeyOrigins
    · subst horigin
      rw [Output.valueDecoderOf, meaning_mapErr, returns_tapKeyOrigin]
      simp [Output.ValueMalsized, OriginMalsized]
    · refine iff_of_true (safe_iff.mp (Output.safe_value htree horigin) b) ?_
      rintro (⟨hc, _⟩ | ⟨hc, _⟩)
      · exact htree hc
      · exact horigin hc

end Values

/-! ## PSBTs -/

/-- The pairs before a malsized value of an input are collected. -/
def Input.ReachesMalsized [TxidHash] : Bytes → Prop :=
  Input.codec.Reaches Input.ValueMalsized

/-- The pairs before a malsized value of an output are collected. -/
def Output.ReachesMalsized : Bytes → Prop :=
  Output.codec.Reaches Output.ValueMalsized

/-- The pairs before a malsized value of an input are collected. -/
def InputV0.ReachesMalsized : Bytes → Prop :=
  InputV0.codec.Reaches Input.ValueMalsized

/-- The pairs before a malsized value of an output are collected. -/
def OutputV0.ReachesMalsized : Bytes → Prop :=
  OutputV0.codec.Reaches Output.ValueMalsized

/-- Everything before a malsized value of a PSBT of version 2 is decoded. -/
def Psbt.ReachesMalsized [TxidHash] : Bytes → Prop :=
  Psbt.format.Reaches Input.ReachesMalsized Output.ReachesMalsized

/-- Everything before a malsized value of a PSBT of version 0 is decoded. -/
def PsbtV0.ReachesMalsized : Bytes → Prop :=
  PsbtV0.format.Reaches InputV0.ReachesMalsized OutputV0.ReachesMalsized

section

variable [LawfulCodecs]

theorem Psbt.returns_deserialize [TxidHash] {b : Bytes} :
    (Psbt.deserialize b).Returns ↔ ¬Psbt.ReachesMalsized b :=
  Psbt.lawful_format.returns_deserialize (Global.lawful_codec.safe_mapDecoder Global.safe_value)
    (Input.lawful_codec.returns_mapDecoder Input.returns_value)
    (Output.lawful_codec.returns_mapDecoder Output.returns_value)

theorem PsbtV0.returns_deserialize {b : Bytes} :
    (PsbtV0.deserialize b).Returns ↔ ¬PsbtV0.ReachesMalsized b :=
  PsbtV0.lawful_format.returns_deserialize
    (GlobalV0.lawful_codec.safe_mapDecoder GlobalV0.safe_value)
    (InputV0.lawful_codec.returns_mapDecoder Input.returns_value)
    (OutputV0.lawful_codec.returns_mapDecoder Output.returns_value)

/-- Decoding panics in a tap tree with a leaf that announces a longer script than is left and
in a tap key origin with a length that cuts an item, when everything before it is decoded, and
nowhere else. -/
theorem returns_deserialize_iff [TxidHash] (b : Bytes) :
    ((Psbt.deserialize b).Returns ↔ ¬Psbt.ReachesMalsized b) ∧
      ((PsbtV0.deserialize b).Returns ↔ ¬PsbtV0.ReachesMalsized b) :=
  ⟨Psbt.returns_deserialize, PsbtV0.returns_deserialize⟩

end

end Generic

/-! ## Reference panics -/

section

attribute [local instance] Reference.types Reference.codecs Reference.lawfulCodecs
  Reference.txidHash

/-- The serialization of a PSBT, with a pair and a redeem script added to the last map. -/
def Reference.withPair (b pair : Bytes) : Bytes :=
  b.dropLast ++ (pair ++ (frame [0x00] ++ frame [0x51] ++ [psbtSeparator]))

/-- A tap tree of one leaf, which announces five bytes of script and has one. -/
def Reference.cutTree : Bytes :=
  frame [0x06] ++ frame [0, 0xC0, 5, 0x51]

/-- A tap key origin of which the announced length ends inside of the fingerprint. -/
def Reference.cutOrigin : Bytes :=
  frame (0x07 :: List.replicate 32 0x02) ++ frame [0, 0xAA, 0xBB]

theorem returns_deserialize_reference :
    ¬Psbt.ReachesMalsized Reference.signed.serialize ∧
      Psbt.ReachesMalsized (Reference.withPair Reference.unsigned.serialize Reference.cutTree) ∧
        PsbtV0.ReachesMalsized
          (Reference.withPair (PsbtV0.Reference.unlocked Reference.unsigned).serialize
            Reference.cutOrigin) := by
  refine ⟨?_, ?_, ?_⟩
  · exact (returns_deserialize_iff _).1.mp (by decide +kernel)
  · exact not_not.mp ((returns_deserialize_iff _).1.not.mp (by decide +kernel))
  · exact not_not.mp ((returns_deserialize_iff _).2.not.mp (by decide +kernel))

/-- Both versions panic in the cut tap tree and in the cut tap key origin. -/
theorem not_returns_malsized :
    (¬(Psbt.deserialize
        (Reference.withPair Reference.unsigned.serialize Reference.cutTree)).Returns ∧
      ¬(Psbt.deserialize
        (Reference.withPair Reference.unsigned.serialize Reference.cutOrigin)).Returns) ∧
      ¬(PsbtV0.deserialize (Reference.withPair
        (PsbtV0.Reference.unlocked Reference.unsigned).serialize Reference.cutTree)).Returns ∧
      ¬(PsbtV0.deserialize (Reference.withPair
        (PsbtV0.Reference.unlocked Reference.unsigned).serialize Reference.cutOrigin)).Returns := by
  decide +kernel

end

end RustPsbt
