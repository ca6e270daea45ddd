import RustPsbt.Roles.Keys
import RustPsbt.Roles.SignableInput

/-!
# Signing sessions

A session checks inputs of a frozen PSBT and then signs the checked ones.  Checking
may fail, signing is meant not to.

Main results:

- Theorem `AllSignableInputs.new_spec`: what a complete set of signable inputs holds.
- Theorem `SigningSession.returns_inputSigs`: signing a checked input reaches no
  `expect`, given its prevouts.
-/

namespace RustPsbt

section Generic

variable [BitcoinTypes]

/-! ## The sighash engine -/

/-- `bitcoin::sighash::Prevouts`. -/
inductive Prevouts where
  | one (index : Nat) (prevout : TxOut)
  | all (prevouts : List TxOut)

/-- `bitcoin::sighash::SighashCache`, given the transaction of the cache. -/
class SighashEngine where
  /-- The errors of the sighash computations. -/
  SighashError : Type
  /-- `legacy_signature_hash`. -/
  legacySignatureHash : Transaction → Nat → ScriptBuf → UInt32 → Except SighashError Message
  /-- `p2wpkh_signature_hash`. -/
  p2wpkhSignatureHash : Transaction → Nat → ScriptBuf → Amount → EcdsaSighashType →
    Except SighashError Message
  /-- `p2wsh_signature_hash`. -/
  p2wshSignatureHash : Transaction → Nat → ScriptBuf → Amount → EcdsaSighashType →
    Except SighashError Message
  /-- `taproot_key_spend_signature_hash`. -/
  taprootKeySpendSignatureHash : Transaction → Nat → Prevouts → TapSighashType →
    Except SighashError Message
  /-- `taproot_script_spend_signature_hash`. -/
  taprootScriptSpendSignatureHash : Transaction → Nat → Prevouts → TapLeafHash →
    TapSighashType → Except SighashError Message

/-- The prevouts are as many as the transaction has inputs, or the one that a
signature over a single input needs. -/
def Prevouts.Fit (tx : Transaction) (index : Nat) (ty : TapSighashType) : Prevouts → Prop
  | one k _ => k = index ∧ ty.isAnyoneCanPay
  | all prevouts => prevouts.length = tx.input.length

/-- A taproot sighash exists: the input does, the prevouts fit, and so does the output
that `SIGHASH_SINGLE` commits to. -/
structure TaprootSighashExists (tx : Transaction) (index : Nat) (prevouts : Prevouts)
    (ty : TapSighashType) : Prop where
  index_lt : index < tx.input.length
  fit : prevouts.Fit tx index ty
  single : ty.isSingle → index < tx.output.length

/-- The sighash computations fail for no other reason than a missing input, prevouts
that do not fit, a missing output of `SIGHASH_SINGLE`, or a script that is not
pay-to-witness-pubkey-hash where one is required. -/
structure SighashEngine.Documented [SighashEngine] : Prop where
  legacy : ∀ tx index script ty, index < tx.input.length →
    ∃ msg, legacySignatureHash tx index script ty = .ok msg
  p2wpkh : ∀ tx index script value ty, index < tx.input.length → ScriptBuf.isP2wpkh script →
    ∃ msg, p2wpkhSignatureHash tx index script value ty = .ok msg
  p2wsh : ∀ tx index script value ty, index < tx.input.length →
    ∃ msg, p2wshSignatureHash tx index script value ty = .ok msg
  taprootKeySpend : ∀ tx index prevouts ty, TaprootSighashExists tx index prevouts ty →
    ∃ msg, taprootKeySpendSignatureHash tx index prevouts ty = .ok msg
  taprootScriptSpend : ∀ tx index prevouts leafHash ty,
    TaprootSighashExists tx index prevouts ty →
      ∃ msg, taprootScriptSpendSignatureHash tx index prevouts leafHash ty = .ok msg

/-! ## Checking inputs -/

/-- `AllSignableInputs`. -/
structure AllSignableInputs where
  inputs : List SignableInput
  prevouts : List TxOut
deriving DecidableEq

namespace AllSignableInputs

variable [TxidHash]

/-- The state of the loop of `AllSignableInputs::new`. -/
structure Building where
  signableInputs : List SignableInput
  prevouts : List TxOut
  errors : BTreeMap Nat SignError

/-- One round of the loop of `AllSignableInputs::new`. -/
def newRound {ε : Type} (psbt : Psbt)
    (check : Psbt → Nat → Result SignError SignableInput)
    (state : Building) (index : Nat) : Result ε Building := do
  match ← (check psbt index).attempt with
  | .ok input => do
      let psbtInput ← Psbt.expect (psbt.checkedInput index).toOption
      let prevout ← Psbt.expect psbtInput.fundingUtxo.toOption
      .ok { state with
        signableInputs := state.signableInputs ++ [input]
        prevouts := state.prevouts ++ [prevout] }
  | .error e => .ok { state with errors := state.errors.insert index e }

/-- `AllSignableInputs::new`. -/
def new (psbt : Psbt) (check : Psbt → Nat → Result SignError SignableInput) :
    Result (BTreeMap Nat SignError) AllSignableInputs := do
  let state ← (List.range psbt.global.inputCount).foldlM (newRound psbt check)
    { signableInputs := [], prevouts := [], errors := {} }
  if state.errors.isEmpty then
    .ok { inputs := state.signableInputs, prevouts := state.prevouts }
  else
    .err state.errors

end AllSignableInputs

/-- `SigningSession`: while it lives, the PSBT is frozen. -/
structure SigningSession where
  psbt : Psbt
  cache : Transaction
  unsignedTx_eq : psbt.unsignedTx = .ok cache

/-- `Signer::session`: the session that is lent to the closure. -/
def Signer.session (self : Signer) : SigningSession where
  psbt := self.psbt
  cache := self.cache
  unsignedTx_eq := self.unsignedTx_eq

namespace SigningSession

section Checks

variable [TxidHash] [ScriptHashes] [SignatureTypes]

omit [TxidHash] [ScriptHashes] [SignatureTypes] in
/-- The rejection of inputs that need all prevouts. -/
def rejectAllPrevouts (signableInput : SignableInput) : Result SignError SignableInput :=
  if signableInput.outputType = .tr ∧ !signableInput.sighashTy.isAnyoneCanPay then
    .err .allPrevoutsRequired
  else
    .ok signableInput

/-- `SigningSession::signable_input`. -/
def signableInput (self : SigningSession) (index : Nat) : Result SignError SignableInput := do
  let signableInput ← SignableInput.verify self.psbt index
  rejectAllPrevouts signableInput

/-- `SigningSession::assume_checked_input`. -/
def assumeCheckedInput (self : SigningSession) (index : Nat) :
    Result SignError SignableInput := do
  let signableInput ← SignableInput.assumeChecked self.psbt index
  rejectAllPrevouts signableInput

/-- `SigningSession::signable_inputs`. -/
def signableInputs (self : SigningSession) :
    Result (BTreeMap Nat SignError) AllSignableInputs :=
  AllSignableInputs.new self.psbt SignableInput.verify

/-- `SigningSession::assume_checked_inputs`. -/
def assumeCheckedInputs (self : SigningSession) :
    Result (BTreeMap Nat SignError) AllSignableInputs :=
  AllSignableInputs.new self.psbt SignableInput.assumeChecked

end Checks

/-! ## Signing inputs -/

variable [SighashEngine]

/-- `SigningSession::taproot_sighash`. -/
def taprootSighash (self : SigningSession) (input : SignableInput)
    (allPrevouts : List TxOut) (leafHash : Option TapLeafHash) :
    Result Empty (Message × TapSighashType) := do
  let tapTy ← Psbt.expect input.sighashTy.taprootHashTy.toOption
  let prevOuts : Prevouts :=
    if tapTy.isAnyoneCanPay then .one input.index input.prevout else .all allPrevouts
  let sighash ←
    match leafHash with
    | some leafHash =>
        Psbt.expect (SighashEngine.taprootScriptSpendSignatureHash self.cache input.index
          prevOuts leafHash tapTy).toOption
    | none =>
        Psbt.expect (SighashEngine.taprootKeySpendSignatureHash self.cache input.index
          prevOuts tapTy).toOption
  .ok (sighash, tapTy)

/-- `SigningSession::ecdsa_sighash`. -/
def ecdsaSighash (self : SigningSession) (input : SignableInput) :
    Result Empty (Message × EcdsaSighashType) := do
  let ecdsaTy ← Psbt.expect input.sighashTy.ecdsaHashTy.toOption
  let sighash ←
    match input.outputType with
    | .bare | .sh =>
        Psbt.expect (SighashEngine.legacySignatureHash self.cache input.index
          input.scriptCode ecdsaTy.toU32).toOption
    | .wpkh | .shWpkh =>
        Psbt.expect (SighashEngine.p2wpkhSignatureHash self.cache input.index
          input.scriptCode input.prevout.value ecdsaTy).toOption
    | .wsh | .shWsh =>
        Psbt.expect (SighashEngine.p2wshSignatureHash self.cache input.index
          input.scriptCode input.prevout.value ecdsaTy).toOption
    | .tr => .panicked
  .ok (sighash, ecdsaTy)

variable [Secp]

/-- The signature for the key path, where the key is the internal key. -/
def keyPathSigs (self : SigningSession) (input : SignableInput) (psbtInput : Input)
    (allPrevouts : List TxOut) (xonly : XOnlyPublicKey) (leafHashes : List TapLeafHash)
    (sk : PrivateKey) : Result Empty (List (TapKeyMaterial × TaprootSignature)) :=
  match psbtInput.tapInternalKey with
  | some internalKey =>
      -- an internal key has no leaf hashes
      if internalKey = xonly ∧ leafHashes = [] ∧ psbtInput.tapKeySig = none then do
        let keyPair :=
          Secp.tapTweak (Secp.fromSecretKey (Secp.inner sk)) psbtInput.tapMerkleRoot
        let (msg, sighashType) ← self.taprootSighash input allPrevouts none
        .ok [(.keyPath internalKey, Secp.taproot (Secp.signSchnorr msg keyPair) sighashType)]
      else
        .ok []
  | none => .ok []

/-- The leaves of a key that are not signed yet. -/
def unsignedLeaves (psbtInput : Input) (xonly : XOnlyPublicKey)
    (leafHashes : List TapLeafHash) : List TapLeafHash :=
  leafHashes.filter fun lh => !psbtInput.tapScriptSigs.contains (xonly, lh)

/-- The signatures for the script paths of a key. -/
def scriptPathSigs (self : SigningSession) (input : SignableInput) (psbtInput : Input)
    (allPrevouts : List TxOut) (xonly : XOnlyPublicKey) (sk : PrivateKey) :
    Result Empty (List (TapKeyMaterial × TaprootSignature)) :=
  match psbtInput.tapKeyOrigins[xonly]? with
  | some (leafHashes, _) =>
      let keyPair := Secp.fromSecretKey (Secp.inner sk)
      (unsignedLeaves psbtInput xonly leafHashes).mapM fun lh => do
        let (msg, sighashType) ← self.taprootSighash input allPrevouts (some lh)
        .ok (.scriptPath (xonly, lh),
          Secp.taproot (Secp.signSchnorr msg keyPair) sighashType)
  | none => .ok []

/-- One round of the loop of `taproot_signatures`. -/
def taprootRound (self : SigningSession) (input : SignableInput) (psbtInput : Input)
    (allPrevouts : List TxOut) (k : GetKey) (entry : XOnlyPublicKey × TapKeyOrigin) :
    Result Empty (List (TapKeyMaterial × TaprootSignature)) :=
  let (xonly, (leafHashes, keySource)) := entry
  match k.keyFor keySource (.xOnlyPubkey xonly) with
  | some sk => do
      let keyPath ← self.keyPathSigs input psbtInput allPrevouts xonly leafHashes sk
      let scriptPath ← self.scriptPathSigs input psbtInput allPrevouts xonly sk
      .ok (keyPath ++ scriptPath)
  | none => .ok []

/-- `SigningSession::taproot_signatures`. -/
def taprootSignatures (self : SigningSession) (input : SignableInput)
    (allPrevouts : List TxOut) (k : GetKey) : Result Empty InputSigs := do
  let psbtInput ← Psbt.expect (self.psbt.checkedInput input.index).toOption
  let signatures ← psbtInput.tapKeyOrigins.toList.mapM
    (self.taprootRound input psbtInput allPrevouts k)
  .ok { index := input.index, signatures := .taproot signatures.flatten }

/-- `SigningSession::ecdsa_signatures`. -/
def ecdsaSignatures (self : SigningSession) (input : SignableInput) (k : GetKey) :
    Result Empty InputSigs := do
  let psbtInput ← Psbt.expect (self.psbt.checkedInput input.index).toOption
  let (msg, sighashType) ← self.ecdsaSighash input
  let signatures := psbtInput.bip32Derivations.toList.filterMap fun (pk, keySource) =>
    (k.keyFor keySource (.pubkey pk)).map fun sk =>
      -- the signature is filed under the key that made it
      (Secp.publicKey sk, Secp.ecdsa (Secp.signEcdsa msg (Secp.inner sk)) sighashType)
  .ok { index := input.index, signatures := .ecdsa signatures }

/-- `SigningSession::input_sigs`. -/
def inputSigs (self : SigningSession) (input : SignableInput) (allPrevouts : List TxOut)
    (k : GetKey) : Result Empty InputSigs :=
  match input.outputType with
  | .tr => self.taprootSignatures input allPrevouts k
  | _ => self.ecdsaSignatures input k

/-- `SigningSession::get_input_sigs`. -/
def getInputSigs (self : SigningSession) (input : SignableInput) (k : GetKey) :
    Result Empty InputSigs :=
  self.inputSigs input [] k

/-- `SigningSession::get_some`. -/
def getSome (self : SigningSession) (inputs : List SignableInput) (k : GetKey) :
    Result Empty (List InputSigs) :=
  inputs.mapM fun input => self.inputSigs input [] k

/-- `SigningSession::get_all`. -/
def getAll (self : SigningSession) (inputs : AllSignableInputs) (k : GetKey) :
    Result Empty (List InputSigs) :=
  inputs.inputs.mapM fun input => self.inputSigs input inputs.prevouts k

end SigningSession

/-! ## Complete sets -/

namespace AllSignableInputs

variable [TxidHash] {psbt : Psbt} {check : Psbt → Nat → Result SignError SignableInput}

/-- A round adds a checked input with its prevout, or an error. -/
theorem newRound_spec {ε : Type} {state state' : Building} {index : Nat}
    (h : (newRound psbt check state index : Result ε Building) = .ok state') :
    (∃ s i o, check psbt index = .ok s ∧ psbt.checkedInput index = .ok i ∧
        i.fundingUtxo = .ok o ∧
        state' = { state with
          signableInputs := state.signableInputs ++ [s]
          prevouts := state.prevouts ++ [o] }) ∨
      ∃ e, state' = { state with errors := state.errors.insert index e } := by
  unfold newRound at h
  rcases hcheck : check psbt index with f | s
  · rw [hcheck] at h
    cases f with
    | error e =>
        right
        cases h
        exact ⟨e, rfl⟩
    | panic => cases h
    | diverge => cases h
  · left
    rw [hcheck, Result.attempt_ok, Result.ok_bind] at h
    obtain ⟨i, hi, h⟩ := Result.bind_eq_ok.mp h
    obtain ⟨o, ho, h⟩ := Result.bind_eq_ok.mp h
    cases h
    exact ⟨s, i, o, rfl, Psbt.expect_toOption_eq_ok.mp hi,
      Psbt.expect_toOption_eq_ok.mp ho, rfl⟩

/-- Rounds without errors add one checked input and one prevout each. -/
theorem newRounds_spec {ε : Type} {indices : List Nat} {state state' : Building}
    (h : indices.foldlM (newRound psbt check) state = (.ok state' : Result ε Building))
    (hnone : state'.errors.isEmpty) :
    state.errors.isEmpty ∧
      (∃ inputs, state'.signableInputs = state.signableInputs ++ inputs ∧
        List.Forall₂ (fun k s => check psbt k = .ok s) indices inputs) ∧
      ∃ prevouts, state'.prevouts = state.prevouts ++ prevouts ∧
        List.Forall₂ (fun k o => ∃ i, psbt.checkedInput k = .ok i ∧ i.fundingUtxo = .ok o)
          indices prevouts := by
  induction indices generalizing state with
  | nil =>
      cases h
      exact ⟨hnone, ⟨[], by simp⟩, ⟨[], by simp⟩⟩
  | cons k indices ih =>
      rw [List.foldlM_cons] at h
      obtain ⟨state₁, hround, hrest⟩ := Result.bind_eq_ok.mp h
      obtain ⟨hnone₁, ⟨inputs, hinputs, hall⟩, prevouts, hprevouts, hfunded⟩ := ih hrest
      rcases newRound_spec hround with ⟨s, i, o, hs, hi, ho, rfl⟩ | ⟨e, rfl⟩
      · refine ⟨hnone₁, ⟨s :: inputs, ?_, .cons hs hall⟩, o :: prevouts, ?_,
          .cons ⟨i, hi, ho⟩ hfunded⟩
        · rw [hinputs, List.append_assoc]
          rfl
        · rw [hprevouts, List.append_assoc]
          rfl
      · simp at hnone₁

/-- A complete set holds one checked input and one prevout for every counted index. -/
theorem new_spec {all : AllSignableInputs} (h : new psbt check = .ok all) :
    List.Forall₂ (fun k s => check psbt k = .ok s) (List.range psbt.global.inputCount)
        all.inputs ∧
      List.Forall₂ (fun k o => ∃ i, psbt.checkedInput k = .ok i ∧ i.fundingUtxo = .ok o)
        (List.range psbt.global.inputCount) all.prevouts := by
  obtain ⟨state, hloop, h⟩ := Result.bind_eq_ok.mp h
  split at h
  · rename_i hnone
    cases h
    obtain ⟨-, ⟨inputs, hinputs, hall⟩, prevouts, hprevouts, hfunded⟩ :=
      newRounds_spec hloop hnone
    rw [List.nil_append] at hinputs hprevouts
    rw [hinputs, hprevouts]
    exact ⟨hall, hfunded⟩
  · cases h

end AllSignableInputs

/-! ## Signing does not fail -/

omit [BitcoinTypes] in
/-- What is there is expected without a panic. -/
theorem returns_expect_ok {ε ε' α : Type} {r : Except ε α} (h : ∃ a, r = .ok a) :
    (Psbt.expect r.toOption : Result ε' α).Returns := by
  obtain ⟨a, rfl⟩ := h
  trivial

namespace SigningSession

/-- The cached transaction has one input for every input of the PSBT. -/
theorem length_cache_input (self : SigningSession) :
    self.cache.input.length = self.psbt.inputs.length := by
  obtain ⟨l, -, hcache⟩ := Psbt.unsignedTx_eq_ok.mp self.unsignedTx_eq
  simp [hcache, Psbt.unsignedTxAt]

/-- The cached transaction has one output for every output of the PSBT. -/
theorem length_cache_output (self : SigningSession) :
    self.cache.output.length = self.psbt.outputs.length := by
  obtain ⟨l, -, hcache⟩ := Psbt.unsignedTx_eq_ok.mp self.unsignedTx_eq
  simp [hcache, Psbt.unsignedTxAt]

variable [TxidHash] [SighashEngine]

/-- The prevouts suffice to sign the input: all are there, or one is enough. -/
def EnoughPrevouts (self : SigningSession) (s : SignableInput) (allPrevouts : List TxOut) :
    Prop :=
  s.outputType = .tr →
    s.sighashTy.isAnyoneCanPay ∨ allPrevouts.length = self.cache.input.length

section

variable {self : SigningSession} {i : Input} {s : SignableInput} {allPrevouts : List TxOut}

omit [SighashEngine] in
/-- A checked input is an input of the cached transaction. -/
theorem index_lt_cache (hchecked : SignableInput.Checked self.psbt s.index i s) :
    s.index < self.cache.input.length := by
  rw [self.length_cache_input]
  exact (List.getElem?_eq_some_iff.mp
    (Psbt.checkedInput_eq_ok.mp hchecked.checkedInput).2).1

/-- The sighash of a checked taproot input exists. -/
theorem returns_taprootSighash (hengine : SighashEngine.Documented)
    (hchecked : SignableInput.Checked self.psbt s.index i s) (htype : s.outputType = .tr)
    (henough : self.EnoughPrevouts s allPrevouts) (leafHash : Option TapLeafHash) :
    (self.taprootSighash s allPrevouts leafHash).Returns := by
  have hvalid := hchecked.validFor
  rw [htype] at hvalid
  obtain ⟨ty, hty⟩ : ∃ ty, s.sighashTy.taprootHashTy = .ok ty := hvalid
  unfold taprootSighash
  rw [hty]
  dsimp only [Except.toOption, Psbt.expect, Result.ok_bind]
  have hexists : TaprootSighashExists self.cache s.index
      (if ty.isAnyoneCanPay then .one s.index s.prevout else .all allPrevouts) ty := by
    refine ⟨index_lt_cache hchecked, ?_, ?_⟩
    · split
      · rename_i hacp
        exact ⟨rfl, hacp⟩
      · rename_i hacp
        rcases henough htype with hflag | hlength
        · rw [PsbtSighashType.isAnyoneCanPay_iff_taproot hty] at hflag
          exact absurd hflag hacp
        · exact hlength
    · intro hsingle
      rw [self.length_cache_output]
      apply hchecked.single
      rw [PsbtSighashType.isSingle_iff_taproot hty]
      exact hsingle
  cases leafHash with
  | none =>
      exact (returns_expect_ok (hengine.taprootKeySpend _ _ _ _ hexists)).bind
        fun _ _ => trivial
  | some leafHash =>
      exact (returns_expect_ok (hengine.taprootScriptSpend _ _ _ _ _ hexists)).bind
        fun _ _ => trivial

omit [SighashEngine] in
/-- The script code of a checked pay-to-witness-pubkey-hash input is such a script. -/
theorem isP2wpkh_scriptCode (hchecked : SignableInput.Checked self.psbt s.index i s)
    (htype : s.outputType = .wpkh ∨ s.outputType = .shWpkh) :
    ScriptBuf.isP2wpkh s.scriptCode := by
  have hcode := hchecked.scriptCode
  have hspk := hchecked.outputType
  rcases htype with htype | htype
  · rw [htype] at hcode hspk
    rw [← Except.ok.inj hcode]
    exact Input.outputTypeFromSpk_spec hspk
  · rw [htype] at hcode hspk
    obtain ⟨-, redeem, hredeem, hpattern⟩ := Input.outputTypeFromSpk_spec hspk
    have hsome := Result.okOr_eq_ok.mp hcode
    rw [hredeem] at hsome
    cases hsome
    exact hpattern

/-- The sighash of a checked input of another type exists. -/
theorem returns_ecdsaSighash (hengine : SighashEngine.Documented)
    (hchecked : SignableInput.Checked self.psbt s.index i s) (htype : s.outputType ≠ .tr) :
    (self.ecdsaSighash s).Returns := by
  have hindex := index_lt_cache hchecked
  have hvalid : ∃ ty, s.sighashTy.ecdsaHashTy = .ok ty := by
    have hvalid := hchecked.validFor
    unfold PsbtSighashType.ValidFor at hvalid
    cases hty : s.outputType with
    | tr => exact absurd hty htype
    | _ =>
        rw [hty] at hvalid
        exact hvalid
  obtain ⟨ty, hty⟩ := hvalid
  unfold ecdsaSighash
  rw [hty]
  dsimp only [Except.toOption, Psbt.expect, Result.ok_bind]
  cases hout : s.outputType with
  | bare =>
      exact (returns_expect_ok (hengine.legacy _ _ _ _ hindex)).bind fun _ _ => trivial
  | sh =>
      exact (returns_expect_ok (hengine.legacy _ _ _ _ hindex)).bind fun _ _ => trivial
  | wpkh =>
      have hscript := isP2wpkh_scriptCode hchecked (.inl hout)
      exact (returns_expect_ok (hengine.p2wpkh _ _ _ _ _ hindex hscript)).bind
        fun _ _ => trivial
  | shWpkh =>
      have hscript := isP2wpkh_scriptCode hchecked (.inr hout)
      exact (returns_expect_ok (hengine.p2wpkh _ _ _ _ _ hindex hscript)).bind
        fun _ _ => trivial
  | wsh =>
      exact (returns_expect_ok (hengine.p2wsh _ _ _ _ _ hindex)).bind fun _ _ => trivial
  | shWsh =>
      exact (returns_expect_ok (hengine.p2wsh _ _ _ _ _ hindex)).bind fun _ _ => trivial
  | tr => exact absurd hout htype

variable [Secp]

omit [TxidHash] in
/-- A round over the taproot keys returns if the sighashes do. -/
theorem returns_taprootRound {psbtInput : Input}
    (hsighash : ∀ leafHash, (self.taprootSighash s allPrevouts leafHash).Returns)
    (k : GetKey) (entry : XOnlyPublicKey × TapKeyOrigin) :
    (self.taprootRound s psbtInput allPrevouts k entry).Returns := by
  unfold taprootRound
  dsimp only
  split
  · rename_i sk _
    apply Result.Returns.bind
    · unfold keyPathSigs
      split
      · split
        · exact (hsighash none).bind fun _ _ => trivial
        · trivial
      · trivial
    · intro keyPath _
      refine Result.Returns.bind ?_ fun _ _ => trivial
      unfold scriptPathSigs
      split
      · exact Result.returns_mapM fun lh _ =>
          (hsighash (some lh)).bind fun _ _ => trivial
      · trivial
  · trivial

/-- Signing a checked input reaches no `expect`. -/
theorem returns_inputSigs (hengine : SighashEngine.Documented)
    (hchecked : SignableInput.Checked self.psbt s.index i s)
    (henough : self.EnoughPrevouts s allPrevouts) (k : GetKey) :
    (self.inputSigs s allPrevouts k).Returns := by
  unfold inputSigs
  split
  · rename_i htype
    unfold taprootSignatures
    rw [hchecked.checkedInput]
    dsimp only [Except.toOption, Psbt.expect, Result.ok_bind]
    refine Result.Returns.bind ?_ fun _ _ => trivial
    exact Result.returns_mapM fun entry _ => returns_taprootRound
      (returns_taprootSighash hengine hchecked htype henough) k entry
  · rename_i htype
    unfold ecdsaSignatures
    rw [hchecked.checkedInput]
    dsimp only [Except.toOption, Psbt.expect, Result.ok_bind]
    exact (returns_ecdsaSighash hengine hchecked htype).bind fun _ _ => trivial

end

end SigningSession

end Generic

end RustPsbt
