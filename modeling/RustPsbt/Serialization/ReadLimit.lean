import RustPsbt.Encoding.OriginLimit
import RustPsbt.Map.ReadLimit
import RustPsbt.Reference.ReadLimit
import RustPsbt.Serialization.Chunks

/-!
# Read limits of a PSBT

The decoder of a PSBT reports the limit of the stage it is in.  All of its parts suit what
is left, except the decoder of tap key origins inside of an item.

Main results:

- Theorem `PsbtFormat.Lawful.limits_decoder`: the limits of a PSBT suit when those of its
  maps do.
- Theorem `readLimit_suits`: no decoder asks for more than is left where no item is cut.
- Theorem `Part.exists_cuts`: which decoders these are.
-/

namespace RustPsbt

open PushDecoder

section Generic

variable [BitcoinTypes] [BitcoinCodecs]

namespace PsbtFormat

variable {G I O α : Type}

/-- The position is in a row of maps, in an input where `BadI` holds or in an output where
`BadO` holds. -/
inductive InMap (F : PsbtFormat G I O α) (BadI BadO : Bytes → Bytes → Prop) :
    Bytes → Bytes → Prop where
  | input {wg x y m : Bytes} {g : G} {inputs : List I} {outputs : List O}
      (global : F.globalDecoder.Decodes wg g) (row : (F.inputsDecoder g).Decodes (x ++ y) inputs)
      (behind : (F.outputsDecoder g).Decodes m outputs) (bad : F.inputDecoder.InRow BadI x y) :
      InMap F BadI BadO (psbtMagicBytes ++ (wg ++ x)) (y ++ m)
  | output {wg wi x y : Bytes} {g : G} {inputs : List I} {outputs : List O}
      (global : F.globalDecoder.Decodes wg g) (before : (F.inputsDecoder g).Decodes wi inputs)
      (row : (F.outputsDecoder g).Decodes (x ++ y) outputs)
      (bad : F.outputDecoder.InRow BadO x y) :
      InMap F BadI BadO (psbtMagicBytes ++ (wg ++ (wi ++ x))) y

section Laws

variable {F : PsbtFormat G I O α} {BadI BadO : Bytes → Bytes → Prop}

/-- The last bytes before the position are the first of an input or of an output. -/
theorem InMap.exists_suffix {x y : Bytes} (h : F.InMap BadI BadO x y) :
    ∃ x' y', x' <:+ x ∧ (BadI x' y' ∨ BadO x' y') := by
  cases h with
  | input _ _ _ bad =>
      obtain ⟨ws, x', y', r, rfl, -, -, -, hbad⟩ := bad
      exact ⟨x', y', by simp only [← List.append_assoc]; exact List.suffix_append _ _, .inl hbad⟩
  | output _ _ _ bad =>
      obtain ⟨ws, x', y', r, rfl, -, -, -, hbad⟩ := bad
      exact ⟨x', y', by simp only [← List.append_assoc]; exact List.suffix_append _ _, .inr hbad⟩

theorem limitsFrom_done (psbt : Psbt) (x : Bytes) : F.decoder.LimitsFrom (.done psbt) x [] := by
  intro t r st hpush
  rw [push_done] at hpush
  cases hpush
  exact limitAt_nil.mpr rfl

variable {W : F.Waits} (hW : W.Lawful)

include hW

/-- The limit of the separator is one byte. -/
theorem limitsFrom_separator {x y m : Bytes} (heq : x ++ y = psbtHeaderSeparator :: m)
    (hnext : ∀ {x'}, m = x' ++ y → x = psbtHeaderSeparator :: x' →
      F.decoder.LimitsFrom (.global F.globalDecoder.init) x' y) :
    F.decoder.LimitsFrom .separator x y := by
  intro t r st hpush
  cases x with
  | nil =>
      rw [push_separator_nil] at hpush
      cases hpush
      rw [List.nil_append] at heq
      subst heq
      exact ⟨Nat.succ_pos _, iff_of_false Nat.one_ne_zero (List.cons_ne_nil _ _)⟩
  | cons sep x' =>
      obtain ⟨rfl, hm⟩ := List.cons.inj heq
      rw [push_separator hW] at hpush
      exact hnext hm.symm rfl hpush

variable [LawfulCodecs] [LawfulReadLimits] (h : F.Lawful)

include h

theorem limitsFrom_afterInputs (hlimits : F.outputDecoder.LimitsExcept BadO)
    (hfresh : ∀ y, ¬BadO [] y) {g : G} {inputs : List Input} {outputs : List O} {x y : Bytes}
    (hdec : (F.outputsDecoder g).Decodes (x ++ y) outputs)
    (hgood : ¬F.outputDecoder.InRow BadO x y) :
    F.decoder.LimitsFrom (F.afterInputs g inputs) x y := by
  unfold afterInputs
  split
  · rename_i hskip
    have hcount : F.outputCount g = 0 := by simpa using (Bool.and_eq_true_iff.mp hskip).2
    rcases h.accepts_outputsDecoder.mp hdec with ⟨hlen, ws, heq, hall⟩
    rw [hcount, List.length_eq_zero_iff] at hlen
    subst hlen
    cases hall
    rw [List.flatten_nil, List.append_nil] at heq
    obtain ⟨rfl, rfl⟩ := List.append_eq_nil_iff.mp heq
    exact limitsFrom_done _ _
  · have hrow := LawfulReadLimits.exactVec (n := F.outputCount g) h.output_lawful
      h.output_strict hlimits hfresh
    refine (stage_outputs hW g inputs).limitsFrom (hW.outputs g) (fun _ => rfl) hdec rfl
      (m := []) (List.append_nil _).symm ?_ ?_
    · rintro rest _ hw hy
      obtain rfl := List.append_cancel_left hw
      exact hrow.push hdec hgood
    · rintro x' hx hnil
      obtain ⟨rfl, rfl⟩ := List.append_eq_nil_iff.mp hnil.symm
      exact limitsFrom_done _ _

theorem limitsFrom_afterGlobal (hinput : F.inputDecoder.LimitsExcept BadI)
    (hfreshI : ∀ y, ¬BadI [] y) (houtput : F.outputDecoder.LimitsExcept BadO)
    (hfreshO : ∀ y, ¬BadO [] y) {g : G} {inputs : List I} {outputs : List O} {w m x y : Bytes}
    (hin : (F.inputsDecoder g).Decodes w inputs) (hout : (F.outputsDecoder g).Decodes m outputs)
    (heq : x ++ y = w ++ m)
    (hgoodI : ∀ {rest}, w = x ++ rest → y = rest ++ m → ¬F.inputDecoder.InRow BadI x rest)
    (hgoodO : ∀ {x'}, x = w ++ x' → m = x' ++ y → ¬F.outputDecoder.InRow BadO x' y) :
    F.decoder.LimitsFrom (F.afterGlobal g) x y := by
  unfold afterGlobal
  split
  · rename_i hskip
    have hcount : F.inputCount g = 0 := by simpa using (Bool.and_eq_true_iff.mp hskip).2
    rcases h.accepts_inputsDecoder.mp hin with ⟨hlen, ws, hw, hall⟩
    rw [hcount, List.length_eq_zero_iff] at hlen
    subst hlen
    cases hall
    rw [List.flatten_nil, List.append_nil] at hw
    subst hw
    rw [List.nil_append] at heq
    subst heq
    exact limitsFrom_afterInputs hW h houtput hfreshO hout (hgoodO rfl rfl)
  · have hrow := LawfulReadLimits.exactVec (n := F.inputCount g) h.input_lawful
      h.input_strict hinput hfreshI
    refine (stage_inputs hW g).limitsFrom (hW.inputs g) (fun _ => rfl) hin rfl heq ?_ ?_
    · rintro rest _ hw hy
      rw [hw] at hin
      exact hrow.push hin (hgoodI hw hy)
    · rintro x' hx hm
      rw [hm] at hout
      exact limitsFrom_afterInputs hW h houtput hfreshO hout (hgoodO hx hm)

end Laws

/-- The limits of a PSBT suit except where those of an input or an output do not. -/
theorem Lawful.limits_decoder [LawfulCodecs] [LawfulReadLimits] {F : PsbtFormat G I O α}
    {BadI BadO : Bytes → Bytes → Prop} (h : F.Lawful) (hglobal : F.globalDecoder.Limits)
    (hinput : F.inputDecoder.LimitsExcept BadI) (hfreshI : ∀ y, ¬BadI [] y)
    (houtput : F.outputDecoder.LimitsExcept BadO) (hfreshO : ∀ y, ¬BadO [] y) :
    F.decoder.LimitsExcept (F.InMap BadI BadO) := by
  rcases h.exists_waits with ⟨W, hW⟩
  apply LimitsExcept.of_strict h.strict_decoder
  intro x y a hdec hgood
  rcases h.decodes_iff.mp hdec with ⟨g, inputs, outputs, wg, wi, wo, heq, hg, hin, hout, _⟩
  have hin : (F.inputsDecoder g).Decodes wi.flatten inputs :=
    h.accepts_inputsDecoder.mpr ⟨hin.1, wi, (List.append_nil _).symm, hin.2⟩
  have hout : (F.outputsDecoder g).Decodes wo.flatten outputs :=
    h.accepts_outputsDecoder.mpr ⟨hout.1, wo, (List.append_nil _).symm, hout.2⟩
  have hmagic : magicDecoder.Decodes psbtMagic.bytes psbtMagic :=
    LawfulCodecs.array_accepts.mpr (List.append_nil _).symm
  -- one stage after the other
  refine (stage_magic hW).limitsFrom hW.magic (fun _ => rfl) hmagic
    (afterMagic_eq_ok.mpr ⟨rfl, rfl⟩) heq ?_ ?_
  · rintro rest _ hw _
    rw [hw] at hmagic
    exact (LawfulReadLimits.array (by decide)).push hmagic id
  rintro x₁ hx₁ hm₁
  refine limitsFrom_separator hW hm₁.symm ?_
  rintro x₂ hm₂ rfl
  refine (stage_global hW).limitsFrom hW.global (fun _ => rfl) hg rfl hm₂.symm ?_ ?_
  · rintro rest _ hw _
    rw [hw] at hg
    exact hglobal.push hg id
  rintro x₃ rfl hm₃
  refine limitsFrom_afterGlobal hW h hinput hfreshI houtput hfreshO hin hout hm₃.symm ?_ ?_
  · rintro rest hw rfl hbad
    rw [hw] at hin
    rw [hx₁] at hgood
    exact hgood (.input hg hin hout hbad)
  · rintro x₄ rfl hm₄ hbad
    rw [hm₄] at hout
    rw [hx₁] at hgood
    exact hgood (.output hg hin hout hbad)

end PsbtFormat

/-! ## Values -/

section Values

variable [LawfulCodecs] [LawfulReadLimits]

theorem Global.limits_value (c : Global.Field) : (Global.valueDecoderOf c).Limits := by
  cases c with
  | version => exact (limits_valueDecoder (limits_array (by decide))).mapErr
  | txVersion => exact (limits_valueDecoder LawfulReadLimits.txVersion).mapErr
  | fallbackLockTime => exact (limits_valueDecoder LawfulReadLimits.lockTime).mapErr
  | inputCount => exact (limits_valueDecoder LawfulReadLimits.compactSize.wrap).mapErr
  | outputCount => exact (limits_valueDecoder LawfulReadLimits.compactSize.wrap).mapErr
  | txModifiableFlags => exact (limits_valueDecoder (limits_array (by decide))).mapErr
  | xpubs => exact limits_keySource.mapErr
  | spEcdhShares => exact (limits_valueDecoder (limits_array (by decide))).mapErr
  | spDleqProofs => exact (limits_valueDecoder (limits_array (by decide))).mapErr
  | proprietaries => exact LawfulReadLimits.byteVec.mapErr
  | unknowns => exact LawfulReadLimits.byteVec.mapErr

theorem GlobalV0.limits_value (c : GlobalV0.Field) : (GlobalV0.valueDecoderOf c).Limits := by
  cases c with
  | unsignedTx => exact (limits_valueDecoder limits_unsignedTx).mapErr
  | version => exact (limits_valueDecoder (limits_array (by decide))).wrap
  | xpubs => exact limits_keySource.mapErr
  | spEcdhShares => exact (limits_valueDecoder (limits_array (by decide))).mapErr
  | spDleqProofs => exact (limits_valueDecoder (limits_array (by decide))).mapErr
  | proprietaries => exact LawfulReadLimits.byteVec.mapErr
  | unknowns => exact LawfulReadLimits.byteVec.mapErr

/-- The value is a tap key origin, and the position is in an item of it. -/
def Input.CutsValue (c : Input.Field) (x y : Bytes) : Prop :=
  c = .tapKeyOrigins ∧ CutsOrigin x y

/-- The value is a tap key origin, and the position is in an item of it. -/
def Output.CutsValue (c : Output.Field) (x y : Bytes) : Prop :=
  c = .tapKeyOrigins ∧ CutsOrigin x y

theorem Input.limits_value (c : Input.Field) :
    (Input.valueDecoderOf c).LimitsExcept (Input.CutsValue c) := by
  by_cases hc : c = .tapKeyOrigins
  · subst hc
    exact limits_tapKeyOrigin.mapErr.mono fun hcut => ⟨rfl, hcut⟩
  · have hplain : (Input.valueDecoderOf c).Limits := by
      cases c with
      | previousTxid => exact (limits_valueDecoder (limits_array (by decide))).mapErr
      | spentOutputIndex => exact (limits_valueDecoder (limits_array (by decide))).mapErr
      | sequence => exact (limits_valueDecoder LawfulReadLimits.sequence).mapErr
      | minTime => exact (limits_valueDecoder (limits_array (by decide))).mapErr
      | minHeight => exact (limits_valueDecoder (limits_array (by decide))).mapErr
      | nonWitnessUtxo => exact (limits_valueDecoder LawfulReadLimits.transaction).mapErr
      | witnessUtxo => exact (limits_valueDecoder LawfulReadLimits.txOut).mapErr
      | partialSigs => exact limits_ecdsaSignature.mapErr
      | sighashType => exact (limits_valueDecoder (limits_array (by decide))).mapErr
      | redeemScript => exact LawfulReadLimits.byteVec.mapErr
      | witnessScript => exact LawfulReadLimits.byteVec.mapErr
      | bip32Derivations => exact limits_keySource.mapErr
      | finalScriptSig => exact LawfulReadLimits.byteVec.mapErr
      | finalScriptWitness => exact (limits_valueDecoder LawfulReadLimits.witness).mapErr
      | ripemd160Preimages => exact LawfulReadLimits.byteVec.mapErr
      | sha256Preimages => exact LawfulReadLimits.byteVec.mapErr
      | hash160Preimages => exact LawfulReadLimits.byteVec.mapErr
      | hash256Preimages => exact LawfulReadLimits.byteVec.mapErr
      | tapKeySig => exact limits_taprootSignature.mapErr
      | tapScriptSigs => exact limits_taprootSignature.mapErr
      | tapScripts => exact LawfulReadLimits.byteVec.wrap.mapErr
      | tapKeyOrigins => exact absurd rfl hc
      | tapInternalKey => exact (limits_valueDecoder (limits_array (by decide))).mapErr
      | tapMerkleRoot => exact (limits_valueDecoder (limits_array (by decide))).mapErr
      | spEcdhShares => exact (limits_valueDecoder (limits_array (by decide))).mapErr
      | spDleqProofs => exact (limits_valueDecoder (limits_array (by decide))).mapErr
      | proprietaries => exact LawfulReadLimits.byteVec.mapErr
      | unknowns => exact LawfulReadLimits.byteVec.mapErr
    exact hplain.except _

theorem Output.limits_value (c : Output.Field) :
    (Output.valueDecoderOf c).LimitsExcept (Output.CutsValue c) := by
  by_cases hc : c = .tapKeyOrigins
  · subst hc
    exact limits_tapKeyOrigin.mapErr.mono fun hcut => ⟨rfl, hcut⟩
  · have hplain : (Output.valueDecoderOf c).Limits := by
      cases c with
      | amount => exact (limits_valueDecoder LawfulReadLimits.amount).mapErr
      | scriptPubkey => exact LawfulReadLimits.byteVec.mapErr
      | redeemScript => exact LawfulReadLimits.byteVec.mapErr
      | witnessScript => exact LawfulReadLimits.byteVec.mapErr
      | bip32Derivations => exact limits_keySource.mapErr
      | tapInternalKey => exact (limits_valueDecoder (limits_array (by decide))).mapErr
      | tapTree => exact LawfulReadLimits.byteVec.wrap.mapErr
      | tapKeyOrigins => exact absurd rfl hc
      | spV0Info => exact (limits_valueDecoder (limits_array (by decide))).mapErr
      | spV0Label => exact (limits_valueDecoder (limits_array (by decide))).mapErr
      | proprietaries => exact LawfulReadLimits.byteVec.mapErr
      | unknowns => exact LawfulReadLimits.byteVec.mapErr
    exact hplain.except _

end Values

/-! ## Maps -/

section Maps

/-- The position is in an item of a tap key origin of the input. -/
def Input.CutsItem [TxidHash] : Bytes → Bytes → Prop :=
  Input.codec.spec.InPair Input.CutsValue Input.codec.spec.empty

/-- The position is in an item of a tap key origin of the output. -/
def Output.CutsItem : Bytes → Bytes → Prop :=
  Output.codec.spec.InPair Output.CutsValue Output.codec.spec.empty

/-- The position is in an item of a tap key origin of the input. -/
def InputV0.CutsItem : Bytes → Bytes → Prop :=
  InputV0.codec.spec.InPair Input.CutsValue InputV0.codec.spec.empty

/-- The position is in an item of a tap key origin of the output. -/
def OutputV0.CutsItem : Bytes → Bytes → Prop :=
  OutputV0.codec.spec.InPair Output.CutsValue OutputV0.codec.spec.empty

/-- The position is in an item of a tap key origin of the PSBT. -/
def Psbt.CutsItem [TxidHash] : Bytes → Bytes → Prop :=
  Psbt.format.InMap Input.CutsItem Output.CutsItem

/-- The position is in an item of a tap key origin of the PSBT. -/
def PsbtV0.CutsItem : Bytes → Bytes → Prop :=
  PsbtV0.format.InMap InputV0.CutsItem OutputV0.CutsItem

omit [BitcoinTypes] [BitcoinCodecs] in
/-- The type of a key, when it is a single byte, is among the bytes of the key. -/
theorem mem_bytes_of_typeValue {key : Key} {t : UInt64} (ht : t.toNat < 0xfd)
    (h : key.typeValue = t) : t.toUInt8 ∈ key.bytes := by
  subst h
  have hsize : compactSize key.typeValue.toNat = [key.typeValue.toUInt8] := by
    rw [compactSize, if_pos ht]
    rfl
  simp [Key.bytes, frame, Key.body, hsize]

/-- Before the position there is the type of the key of a tap key origin. -/
theorem Input.mem_of_cutsItem [TxidHash] {x y : Bytes} (h : Input.CutsItem x y) : 0x16 ∈ x := by
  obtain ⟨ps, m, key, f, v, x', y', r, rfl, -, -, hfrom, -, rfl, -⟩ := h
  have htype : key.typeValue = 0x16 := by
    refine (?_ : ∀ c, Input.fromKey key = .ok c → c = .tapKeyOrigins → key.typeValue = 0x16)
      _ hfrom rfl
    unfold Input.fromKey
    repeat' refine Result.forall_ok_ite (fun hkey => ?_) fun _ => ?_
    all_goals
      intro c heq hc
      cases heq
    all_goals first | exact hkey | cases hc
  have hmem : (0x16 : UInt64).toUInt8 ∈ key.bytes := mem_bytes_of_typeValue (by decide) htype
  exact List.mem_append_right _ (List.mem_append_left _ hmem)

theorem Output.mem_of_cutsItem {x y : Bytes} (h : Output.CutsItem x y) : 0x07 ∈ x := by
  obtain ⟨ps, m, key, f, v, x', y', r, rfl, -, -, hfrom, -, rfl, -⟩ := h
  have htype : key.typeValue = 0x07 := by
    refine (?_ : ∀ c, Output.fromKey key = .ok c → c = .tapKeyOrigins → key.typeValue = 0x07)
      _ hfrom rfl
    unfold Output.fromKey
    repeat' refine Result.forall_ok_ite (fun hkey => ?_) fun _ => ?_
    all_goals
      intro c heq hc
      cases heq
    all_goals first | exact hkey | cases hc
  have hmem : (0x07 : UInt64).toUInt8 ∈ key.bytes := mem_bytes_of_typeValue (by decide) htype
  exact List.mem_append_right _ (List.mem_append_left _ hmem)

theorem Psbt.mem_of_cutsItem [TxidHash] {x y : Bytes} (h : Psbt.CutsItem x y) :
    0x16 ∈ x ∨ 0x07 ∈ x := by
  obtain ⟨x', y', hsuffix, hinput | houtput⟩ := h.exists_suffix
  · exact .inl (hsuffix.subset (Input.mem_of_cutsItem hinput))
  · exact .inr (hsuffix.subset (Output.mem_of_cutsItem houtput))

variable [LawfulCodecs] [LawfulReadLimits]

theorem Global.limits : Global.decoder.Limits :=
  Global.lawful_codec.spec.limits_of_values Global.limits_value

theorem GlobalV0.limits : GlobalV0.decoder.Limits :=
  GlobalV0.lawful_codec.spec.limits_of_values GlobalV0.limits_value

theorem Input.limits [TxidHash] : Input.decoder.LimitsExcept Input.CutsItem :=
  Input.lawful_codec.spec.limits_mapDecoder Input.limits_value

theorem Output.limits : Output.decoder.LimitsExcept Output.CutsItem :=
  Output.lawful_codec.spec.limits_mapDecoder Output.limits_value

theorem InputV0.limits : InputV0.decoder.LimitsExcept InputV0.CutsItem :=
  InputV0.lawful_codec.spec.limits_mapDecoder Input.limits_value

theorem OutputV0.limits : OutputV0.decoder.LimitsExcept OutputV0.CutsItem :=
  OutputV0.lawful_codec.spec.limits_mapDecoder Output.limits_value

theorem Psbt.limits [TxidHash] : Psbt.decoder.LimitsExcept Psbt.CutsItem :=
  Psbt.lawful_format.limits_decoder Global.limits Input.limits MapSpec.not_inPair_nil
    Output.limits MapSpec.not_inPair_nil

theorem PsbtV0.limits : PsbtV0.decoder.LimitsExcept PsbtV0.CutsItem :=
  PsbtV0.lawful_format.limits_decoder GlobalV0.limits InputV0.limits MapSpec.not_inPair_nil
    OutputV0.limits MapSpec.not_inPair_nil

end Maps

/-! ## All decoders -/

section Parts

variable [TxidHash]

/-- The decoders that decoding a PSBT runs and that never come to a tap key origin. -/
inductive PlainPart : {ε α : Type} → PushDecoder UInt8 ε α → Prop where
  | global : PlainPart Global.decoder
  | globalV0 : PlainPart GlobalV0.decoder
  | key : PlainPart keyDecoder
  | globalValue (c : Global.Field) : PlainPart (Global.valueDecoderOf c)
  | globalValueV0 (c : GlobalV0.Field) : PlainPart (GlobalV0.valueDecoderOf c)
  | unsignedTx : PlainPart unsignedTxDecoder
  | txid : PlainPart txidDecoder
  | tapNodeHash : PlainPart tapNodeHashDecoder
  | xOnlyPublicKey : PlainPart xOnlyPublicKeyDecoder
  | compressedPublicKey : PlainPart compressedPublicKeyDecoder
  | spV0Info : PlainPart spV0InfoDecoder
  | spV0Label : PlainPart spV0LabelDecoder
  | dleqProof : PlainPart dleqProofDecoder
  | version : PlainPart versionDecoder
  | time : PlainPart timeDecoder
  | requiredHeightLockTime : PlainPart requiredHeightLockTimeDecoder
  | vout : PlainPart voutDecoder
  | sighashType : PlainPart sighashTypeDecoder
  | txModifiableFlags : PlainPart txModifiableFlagsDecoder
  | count : PlainPart countDecoder

/-- The decoders that decoding a PSBT runs, each with the positions where an item of a tap
key origin is cut. -/
inductive CuttingPart : {ε α : Type} → PushDecoder UInt8 ε α → (Bytes → Bytes → Prop) → Prop where
  | psbt : CuttingPart Psbt.decoder Psbt.CutsItem
  | psbtV0 : CuttingPart PsbtV0.decoder PsbtV0.CutsItem
  | input : CuttingPart Input.decoder Input.CutsItem
  | output : CuttingPart Output.decoder Output.CutsItem
  | inputV0 : CuttingPart InputV0.decoder InputV0.CutsItem
  | outputV0 : CuttingPart OutputV0.decoder OutputV0.CutsItem
  | inputs (count : Nat) :
      CuttingPart (exactVecDecoderWith Input.decoder count) (Input.decoder.InRow Input.CutsItem)
  | outputs (count : Nat) :
      CuttingPart (exactVecDecoderWith Output.decoder count) (Output.decoder.InRow Output.CutsItem)
  | inputsV0 (count : Nat) :
      CuttingPart (exactVecDecoderWith InputV0.decoder count)
        (InputV0.decoder.InRow InputV0.CutsItem)
  | outputsV0 (count : Nat) :
      CuttingPart (exactVecDecoderWith OutputV0.decoder count)
        (OutputV0.decoder.InRow OutputV0.CutsItem)
  | inputValue (c : Input.Field) : CuttingPart (Input.valueDecoderOf c) (Input.CutsValue c)
  | outputValue (c : Output.Field) : CuttingPart (Output.valueDecoderOf c) (Output.CutsValue c)
  | tapKeyOrigin : CuttingPart tapKeyOriginDecoder CutsOrigin
  | plain {ε α : Type} {D : PushDecoder UInt8 ε α} (h : PlainPart D) :
      CuttingPart D fun _ _ => False

variable [LawfulCodecs] {ε α : Type} {D : PushDecoder UInt8 ε α} {Cuts : Bytes → Bytes → Prop}

omit [LawfulCodecs] in
theorem PlainPart.part (h : PlainPart D) : Part D := by
  cases h <;> constructor

/-- All of these decoders are chunk independent. -/
theorem CuttingPart.lawful (h : CuttingPart D Cuts) : D.Lawful := by
  cases h with
  | psbt => exact Part.psbt.lawful
  | psbtV0 => exact Part.psbtV0.lawful
  | input => exact Part.input.lawful
  | output => exact Part.output.lawful
  | inputV0 => exact Part.inputV0.lawful
  | outputV0 => exact Part.outputV0.lawful
  | inputs count => exact (Part.inputs count).lawful
  | outputs count => exact (Part.outputs count).lawful
  | inputsV0 count => exact (Part.inputsV0 count).lawful
  | outputsV0 count => exact (Part.outputsV0 count).lawful
  | inputValue c => exact (Part.inputValue c).lawful
  | outputValue c => exact (Part.outputValue c).lawful
  | tapKeyOrigin => exact framed_tapKeyOrigin.lawful
  | plain h => exact h.part.lawful

omit [LawfulCodecs] in
/-- Decoding runs no other decoders. -/
theorem Part.exists_cuts (h : Part D) : ∃ Cuts, CuttingPart D Cuts := by
  cases h with
  | psbt => exact ⟨_, .psbt⟩
  | psbtV0 => exact ⟨_, .psbtV0⟩
  | input => exact ⟨_, .input⟩
  | output => exact ⟨_, .output⟩
  | inputV0 => exact ⟨_, .inputV0⟩
  | outputV0 => exact ⟨_, .outputV0⟩
  | inputs count => exact ⟨_, .inputs count⟩
  | outputs count => exact ⟨_, .outputs count⟩
  | inputsV0 count => exact ⟨_, .inputsV0 count⟩
  | outputsV0 count => exact ⟨_, .outputsV0 count⟩
  | inputValue c => exact ⟨_, .inputValue c⟩
  | outputValue c => exact ⟨_, .outputValue c⟩
  | _ => exact ⟨_, .plain (by constructor)⟩

variable [LawfulReadLimits]

omit [TxidHash] in
theorem PlainPart.limits (h : PlainPart D) : D.Limits := by
  cases h with
  | global => exact Global.limits
  | globalV0 => exact GlobalV0.limits
  | key => exact limits_keyDecoder
  | globalValue c => exact Global.limits_value c
  | globalValueV0 c => exact GlobalV0.limits_value c
  | unsignedTx => exact limits_unsignedTx
  | count => exact LawfulReadLimits.compactSize.wrap
  | _ => exact limits_array (by decide)

theorem CuttingPart.limits (h : CuttingPart D Cuts) : D.LimitsExcept Cuts := by
  cases h with
  | psbt => exact Psbt.limits
  | psbtV0 => exact PsbtV0.limits
  | input => exact Input.limits
  | output => exact Output.limits
  | inputV0 => exact InputV0.limits
  | outputV0 => exact OutputV0.limits
  | inputs count =>
      have hlaw := Psbt.lawful_format
      exact LawfulReadLimits.exactVec hlaw.input_lawful hlaw.input_strict Input.limits
        MapSpec.not_inPair_nil
  | outputs count =>
      have hlaw := Psbt.lawful_format
      exact LawfulReadLimits.exactVec hlaw.output_lawful hlaw.output_strict Output.limits
        MapSpec.not_inPair_nil
  | inputsV0 count =>
      have hlaw := PsbtV0.lawful_format
      exact LawfulReadLimits.exactVec hlaw.input_lawful hlaw.input_strict InputV0.limits
        MapSpec.not_inPair_nil
  | outputsV0 count =>
      have hlaw := PsbtV0.lawful_format
      exact LawfulReadLimits.exactVec hlaw.output_lawful hlaw.output_strict OutputV0.limits
        MapSpec.not_inPair_nil
  | inputValue c => exact Input.limits_value c
  | outputValue c => exact Output.limits_value c
  | tapKeyOrigin => exact limits_tapKeyOrigin
  | plain h => exact h.limits

/-- Wherever no item of a tap key origin is cut, the limit is no more than what is left and
zero at the end only.  A reader that comes to such positions only takes nothing behind the
value and goes on until it has all of it.  For tap key origins the limit suits nowhere
else. -/
theorem readLimit_suits :
    (∀ {ε α : Type} {D : PushDecoder UInt8 ε α} {Cuts : Bytes → Bytes → Prop},
      CuttingPart D Cuts → ∀ {chunks : List Bytes} {y r : Bytes} {a : α} {s : D.State},
        D.Decodes (chunks.flatten ++ y) a → ¬Cuts chunks.flatten y →
          D.feed D.init [] chunks = .ok (s, r) →
            r = [] ∧ D.readLimit s ≤ y.length ∧ (D.readLimit s = 0 ↔ y = [])) ∧
      (∀ {ε α : Type} {D : PushDecoder UInt8 ε α} {Cuts : Bytes → Bytes → Prop},
        CuttingPart D Cuts → ∀ {b x rest behind : Bytes} {a : α} {s : D.State},
          D.Decodes b a → D.Fetched (fun x => ∀ y, b = x ++ y → ¬Cuts x y) x s →
            x ++ rest = b ++ behind → ∃ y, b = x ++ y ∧ rest = y ++ behind ∧
              D.readLimit s ≤ y.length ∧ (D.readLimit s = 0 ↔ y = [])) ∧
        ∀ {chunks : List Bytes} {y r : Bytes} {origin : TapKeyOrigin}
          {s : tapKeyOriginDecoder.State},
          tapKeyOriginDecoder.Decodes (chunks.flatten ++ y) origin →
            tapKeyOriginDecoder.feed tapKeyOriginDecoder.init [] chunks = .ok (s, r) →
              (tapKeyOriginDecoder.readLimit s ≤ y.length ∧
                (tapKeyOriginDecoder.readLimit s = 0 ↔ y = []) ↔
                  ¬CutsOrigin chunks.flatten y) := by
  refine ⟨?_, ?_, ?_⟩
  · intro ε α D Cuts h chunks y r a s hdec hcuts hfeed
    exact h.limits.feed h.lawful hdec hcuts hfeed
  · intro ε α D Cuts h b x rest behind a s hdec hfetched hstream
    exact h.limits.fetched h.lawful hdec hfetched hstream
  · intro chunks y r origin s hdec hfeed
    exact limitAt_tapKeyOrigin_feed hdec hfeed

end Parts

end Generic

/-! ## Reference limits -/

section

attribute [local instance] Reference.types Reference.codecs Reference.lawfulCodecs
  Reference.lawfulReadLimits Reference.txidHash

theorem exists_feed {ε α : Type} {D : PushDecoder UInt8 ε α} {chunks : List Bytes}
    {limit : Nat} {r : Bytes}
    (h : (D.feed D.init [] chunks).toOption.map (fun x => (D.readLimit x.1, x.2)) =
      some (limit, r)) :
    ∃ s, D.feed D.init [] chunks = .ok (s, r) ∧ D.readLimit s = limit := by
  rcases Option.map_eq_some_iff.mp h with ⟨⟨s, r'⟩, hfeed, heq⟩
  cases heq
  exact ⟨s, Result.toOption_eq_some.mp hfeed, rfl⟩

theorem exists_decodes {ε α : Type} {D : PushDecoder UInt8 ε α} {b : Bytes}
    (h : (D.run b).toOption.map Prod.snd = some []) : ∃ a, D.Decodes b a := by
  rcases Option.map_eq_some_iff.mp h with ⟨⟨a, r⟩, hrun, heq⟩
  cases heq
  exact ⟨a, PushDecoder.meaning_eq_ok.mp
    (congrArg Result.erase (Result.toOption_eq_some.mp hrun))⟩

/-- The first bytes of the signed PSBT, up to the txid of its input, in two chunks. -/
def Reference.signedChunks : List Bytes :=
  [Reference.signed.serialize.take 20, (Reference.signed.serialize.take 50).drop 20]

theorem readLimit_signed : ∃ s,
    Psbt.decoder.feed Psbt.decoder.init [] Reference.signedChunks = .ok (s, []) ∧
      Psbt.decoder.readLimit s ≤ (Reference.signed.serialize.drop 50).length ∧
        (Psbt.decoder.readLimit s = 0 ↔ Reference.signed.serialize.drop 50 = []) := by
  have hfeed : ∃ s,
      Psbt.decoder.feed Psbt.decoder.init [] Reference.signedChunks = .ok (s, []) ∧
        Psbt.decoder.readLimit s = 1 := exists_feed (by decide +kernel)
  rcases hfeed with ⟨s, hfeed, _⟩
  have hdec : Psbt.decoder.Decodes
      (Reference.signedChunks.flatten ++ Reference.signed.serialize.drop 50) Reference.signed :=
    Psbt.lawful_format.deserialize_eq_ok.mp Psbt.deserialize_signed
  have hcuts : ¬Psbt.CutsItem Reference.signedChunks.flatten
      (Reference.signed.serialize.drop 50) := by
    intro hcut
    exact absurd (Psbt.mem_of_cutsItem hcut) (by decide +kernel)
  exact ⟨s, hfeed, (readLimit_suits.1 .psbt hdec hcuts hfeed).2⟩

/-- An output map up to the third byte of the fingerprint of its tap key origin. -/
def Reference.cutOutput : Bytes :=
  [0x01, 0x03, 0x08, 0, 0, 0, 0, 0, 0, 0, 0, 0x01, 0x04, 0x00, 0x21, 0x07] ++
    List.replicate 32 0x02 ++ [0x05, 0x00, 0xaa, 0xbb, 0xcc]

/-- Inside of a fingerprint four bytes are asked for: of the value two are left, and of the
output map the last byte of the value and the separator. -/
theorem overAsks_cutOutput :
    (∃ origin s, tapKeyOriginDecoder.Decodes
        ([[0x05, 0x00, 0xaa], [0xbb]].flatten ++ [0xcc, 0xdd]) origin ∧
      tapKeyOriginDecoder.feed tapKeyOriginDecoder.init [] [[0x05, 0x00, 0xaa], [0xbb]] =
          .ok (s, []) ∧
        ¬tapKeyOriginDecoder.readLimit s ≤ [0xcc, 0xdd].length) ∧
      ∃ output s, Output.decoder.Decodes ([Reference.cutOutput].flatten ++ [0xdd, 0x00]) output ∧
        Output.decoder.feed Output.decoder.init [] [Reference.cutOutput] = .ok (s, []) ∧
          ¬Output.decoder.readLimit s ≤ [0xdd, 0x00].length := by
  constructor
  · have hdec : ∃ origin, tapKeyOriginDecoder.Decodes
        ([[0x05, 0x00, 0xaa], [0xbb]].flatten ++ [0xcc, 0xdd]) origin :=
      exists_decodes (by decide +kernel)
    have hfeed : ∃ s, tapKeyOriginDecoder.feed tapKeyOriginDecoder.init []
        [[0x05, 0x00, 0xaa], [0xbb]] = .ok (s, []) ∧ tapKeyOriginDecoder.readLimit s = 4 :=
      exists_feed (by decide +kernel)
    rcases hdec with ⟨origin, hdec⟩
    rcases hfeed with ⟨s, hfeed, hlimit⟩
    refine ⟨origin, s, hdec, hfeed, ?_⟩
    rw [hlimit]
    decide
  · have hdec : ∃ output, Output.decoder.Decodes
        ([Reference.cutOutput].flatten ++ [0xdd, 0x00]) output :=
      exists_decodes (by decide +kernel)
    have hfeed : ∃ s, Output.decoder.feed Output.decoder.init [] [Reference.cutOutput] =
        .ok (s, []) ∧ Output.decoder.readLimit s = 4 := exists_feed (by decide +kernel)
    rcases hdec with ⟨output, hdec⟩
    rcases hfeed with ⟨s, hfeed, hlimit⟩
    refine ⟨output, s, hdec, hfeed, ?_⟩
    rw [hlimit]
    decide

end

end RustPsbt
