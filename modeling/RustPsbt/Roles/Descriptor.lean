import RustPsbt.Map.Funding
import RustPsbt.Roles.Satisfier

/-!
# Descriptors of inputs

How the finalizer finds the descriptor of an input and asks `miniscript` for a
witness and a script signature.  The descriptors and their satisfaction are those of
`miniscript`; which of them is asked, and with what, is decided here.

Main results:

- Theorems `Finalizer.returns_getDescriptor` and `Finalizer.returns_constructTapWitness`:
  for a funded input neither panics.
-/

namespace RustPsbt

/-- The script contexts of `miniscript`. -/
inductive ScriptContext where
  | bareCtx
  | legacy
  | segwitv0

/-- `miniscript`, and the key and signature serializations of `bitcoin`. -/
class Miniscript [BitcoinTypes] where
  /-- `miniscript::Error`. -/
  Error : Type
  /-- `bitcoin::key::FromSliceError`. -/
  FromSliceError : Type
  /-- `Miniscript<bitcoin::PublicKey, Ctx>`. -/
  Ms : ScriptContext → Type
  /-- `Miniscript<XOnlyPublicKey, Tap>`. -/
  TapMs : Type
  /-- `Descriptor<bitcoin::PublicKey>`. -/
  Descriptor : Type
  /-- `to_x_only_pubkey` of a public key. -/
  toXOnly : PublicKey → XOnlyPublicKey
  /-- `to_public_key` of an x-only public key. -/
  ofXOnly : XOnlyPublicKey → PublicKey
  /-- `PublicKey::from_slice`. -/
  publicKeyFromSlice : Bytes → Except FromSliceError PublicKey
  /-- `CompressedPublicKey::try_from(pk)`, and the hash of the key. -/
  wpubkeyHash : PublicKey → Option (U8Array 20)
  /-- `taproot::Signature::to_vec`. -/
  taprootSignatureToVec : TaprootSignature → Bytes
  /-- `ControlBlock::serialize`. -/
  serializeControlBlock : ControlBlock → Bytes
  /-- `*ver == LeafVersion::TapScript`. -/
  isTapScript : LeafVersion → Bool
  /-- `Miniscript::decode_consensus`. -/
  decodeConsensus : (ctx : ScriptContext) → ScriptBuf → Except Error (Ms ctx)
  /-- `Miniscript::substitute_raw_pkh`. -/
  substituteRawPkh : {ctx : ScriptContext} → Ms ctx → BTreeMap (U8Array 20) PublicKey → Ms ctx
  /-- `Miniscript::decode_consensus` for tapscripts. -/
  decodeConsensusTap : ScriptBuf → Except Error TapMs
  /-- `Miniscript::substitute_raw_pkh` for tapscripts. -/
  substituteRawPkhTap : TapMs → BTreeMap (U8Array 20) XOnlyPublicKey → TapMs
  /-- `Miniscript::encode` for tapscripts. -/
  encodeTap : TapMs → ScriptBuf
  /-- `Miniscript::satisfy` for tapscripts. -/
  satisfyTap : TapMs → Satisfier XOnlyPublicKey → Except Error (List Bytes)
  /-- `Miniscript::satisfy_malleable` for tapscripts. -/
  satisfyMalleableTap : TapMs → Satisfier XOnlyPublicKey → Except Error (List Bytes)
  /-- `Descriptor::new_pk`. -/
  newPk : PublicKey → Descriptor
  /-- `Descriptor::new_pkh`. -/
  newPkh : PublicKey → Except Error Descriptor
  /-- `Descriptor::new_wpkh`. -/
  newWpkh : PublicKey → Except Error Descriptor
  /-- `Descriptor::new_sh_wpkh`. -/
  newShWpkh : PublicKey → Except Error Descriptor
  /-- `Descriptor::new_wsh`. -/
  newWsh : Ms .segwitv0 → Except Error Descriptor
  /-- `Descriptor::new_sh_wsh`. -/
  newShWsh : Ms .segwitv0 → Except Error Descriptor
  /-- `Descriptor::new_sh`. -/
  newSh : Ms .legacy → Except Error Descriptor
  /-- `Descriptor::new_bare`. -/
  newBare : Ms .bareCtx → Except Error Descriptor
  /-- `Descriptor::get_satisfaction`. -/
  getSatisfaction : Descriptor → Satisfier PublicKey → Except Error (List Bytes × ScriptBuf)
  /-- `Descriptor::get_satisfaction_mall`. -/
  getSatisfactionMall : Descriptor → Satisfier PublicKey → Except Error (List Bytes × ScriptBuf)

variable [BitcoinTypes] [Miniscript]

instance : ToPublicKey PublicKey where
  toPublicKey pk := pk
  toXOnlyPubkey := Miniscript.toXOnly

instance : ToPublicKey XOnlyPublicKey where
  toPublicKey := Miniscript.ofXOnly
  toXOnlyPubkey pk := pk

/-- `finalizer::InputError`, as far as finalizing reports it. -/
inductive InputError where
  | keyErr (e : Miniscript.FromSliceError)
  | couldNotSatisfyTr
  | invalidRedeemScript (redeem p2shExpected : ScriptBuf)
  | invalidWitnessScript (witnessScript p2wshExpected : ScriptBuf)
  | miniscriptError (e : Miniscript.Error)
  | missingRedeemScript
  | missingPubkey
  | missingWitnessScript
  | nonEmptyWitnessScript
  | nonEmptyRedeemScript
  | unknownOutputType

/-- `?` on a result of `miniscript`. -/
def ofMiniscript {α : Type} (r : Except Miniscript.Error α) : Result InputError α :=
  (Result.ofExcept r).mapErr .miniscriptError

theorem returns_ofMiniscript {α : Type} (r : Except Miniscript.Error α) :
    (ofMiniscript r).Returns := by
  unfold ofMiniscript
  rw [Result.returns_mapErr]
  exact Result.returns_ofExcept r

namespace Finalizer

variable [TxidHash] [KeyHashes] [ScriptHashes]

/-! ## The descriptor -/

/-- The keys of all inputs by their hashes, as collected by `get_descriptor`. -/
def keysByHash (inputs : List Input) : BTreeMap (U8Array 20) PublicKey :=
  (inputs.flatMap fun psbtInput => psbtInput.bip32Derivations.keys).foldl
    (fun map key => map.insert (pubkeyHash key) key) {}

/-- The first key that signed and passes the test. -/
def signingKey (input : Input) (test : PublicKey → Bool) : Option PublicKey :=
  (input.partialSigs.toList.find? fun entry => test entry.1).map fun entry => entry.1

/-- The script is the pay-to-witness-pubkey-hash script of the key. -/
def isWpkhOf (script : ScriptBuf) (pk : PublicKey) : Bool :=
  match Miniscript.wpubkeyHash pk with
  | some hash => script = ScriptBuf.newP2wpkh hash
  | none => false

/-- The descriptor of the key that signed. -/
def descriptorOfKey (key : Option PublicKey)
    (new : PublicKey → Except Miniscript.Error Miniscript.Descriptor) :
    Result InputError Miniscript.Descriptor :=
  match key with
  | some pk => ofMiniscript (new pk)
  | none => .err .missingPubkey

/-- The descriptor of a script that decodes. -/
def descriptorOfScript (ctx : ScriptContext) (script : ScriptBuf)
    (new : Miniscript.Ms ctx → Except Miniscript.Error Miniscript.Descriptor) :
    Result InputError Miniscript.Descriptor := do
  let ms ← ofMiniscript (Miniscript.decodeConsensus ctx script)
  ofMiniscript (new ms)

/-- The descriptor of a witness script whose hash is in the given script. -/
def descriptorOfWitnessScript (witnessScript : Option ScriptBuf) (script : ScriptBuf)
    (new : Miniscript.Ms .segwitv0 → Except Miniscript.Error Miniscript.Descriptor) :
    Result InputError Miniscript.Descriptor :=
  match witnessScript with
  | some witnessScript =>
      if ScriptBuf.newP2wsh (wscriptHash witnessScript) ≠ script then
        .err (.invalidWitnessScript witnessScript script)
      else
        descriptorOfScript .segwitv0 witnessScript new
  | none => .err .missingWitnessScript

/-- The arm of `get_descriptor` for pay-to-script-hash outputs. -/
def shDescriptor (map : BTreeMap (U8Array 20) PublicKey) (input : Input)
    (scriptPubkey : ScriptBuf) : Result InputError Miniscript.Descriptor :=
  match input.redeemScript with
  | none => .err .missingRedeemScript
  | some redeemScript =>
      if ScriptBuf.newP2sh (scriptHash redeemScript) ≠ scriptPubkey then
        .err (.invalidRedeemScript redeemScript scriptPubkey)
      else if ScriptBuf.isP2wsh redeemScript then
        descriptorOfWitnessScript input.witnessScript redeemScript fun ms =>
          Miniscript.newShWsh (Miniscript.substituteRawPkh ms map)
      else if ScriptBuf.isP2wpkh redeemScript then
        descriptorOfKey (signingKey input (isWpkhOf redeemScript)) Miniscript.newShWpkh
      else if input.witnessScript.isSome then
        .err .nonEmptyWitnessScript
      else
        descriptorOfScript .legacy redeemScript Miniscript.newSh

/-- `Finalizer::get_descriptor`, given the inputs of the PSBT. -/
def getDescriptor (psbtInputs : List Input) (input : Input) :
    Result InputError Miniscript.Descriptor := do
  let map := keysByHash psbtInputs
  let utxo ← Psbt.expect input.fundingUtxo.toOption
  let scriptPubkey := utxo.scriptPubkey
  if ScriptBuf.isP2pk scriptPubkey then do
    let pkBytes := (scriptPubkey.take (scriptPubkey.length - 1)).drop 1
    let pk ← (Result.ofExcept (Miniscript.publicKeyFromSlice pkBytes)).mapErr .keyErr
    .ok (Miniscript.newPk pk)
  else if ScriptBuf.isP2pkh scriptPubkey then
    let signed := signingKey input fun pk =>
      scriptPubkey = ScriptBuf.newP2pkh (pubkeyHash pk)
    descriptorOfKey signed Miniscript.newPkh
  else if ScriptBuf.isP2wpkh scriptPubkey then
    descriptorOfKey (signingKey input (isWpkhOf scriptPubkey)) Miniscript.newWpkh
  else if ScriptBuf.isP2wsh scriptPubkey then
    if input.redeemScript.isSome then
      .err .nonEmptyRedeemScript
    else
      descriptorOfWitnessScript input.witnessScript scriptPubkey fun ms =>
        Miniscript.newWsh (Miniscript.substituteRawPkh ms map)
  else if ScriptBuf.isP2sh scriptPubkey then
    shDescriptor map input scriptPubkey
  else if input.witnessScript.isSome then
    .err .nonEmptyWitnessScript
  else if input.redeemScript.isSome then
    .err .nonEmptyRedeemScript
  else
    descriptorOfScript .bareCtx scriptPubkey fun ms =>
      Miniscript.newBare (Miniscript.substituteRawPkh ms map)

omit [TxidHash] [KeyHashes] [ScriptHashes] in
theorem returns_descriptorOfKey (key : Option PublicKey)
    (new : PublicKey → Except Miniscript.Error Miniscript.Descriptor) :
    (descriptorOfKey key new).Returns := by
  cases key with
  | none => trivial
  | some pk => exact returns_ofMiniscript (new pk)

omit [TxidHash] [KeyHashes] [ScriptHashes] in
theorem returns_descriptorOfScript (ctx : ScriptContext) (script : ScriptBuf)
    (new : Miniscript.Ms ctx → Except Miniscript.Error Miniscript.Descriptor) :
    (descriptorOfScript ctx script new).Returns :=
  (returns_ofMiniscript _).bind fun ms _ => returns_ofMiniscript (new ms)

omit [TxidHash] [KeyHashes] in
theorem returns_descriptorOfWitnessScript (witnessScript : Option ScriptBuf)
    (script : ScriptBuf)
    (new : Miniscript.Ms .segwitv0 → Except Miniscript.Error Miniscript.Descriptor) :
    (descriptorOfWitnessScript witnessScript script new).Returns := by
  cases witnessScript with
  | none => trivial
  | some witnessScript =>
      unfold descriptorOfWitnessScript
      dsimp only
      split
      · trivial
      · exact returns_descriptorOfScript _ _ _

omit [TxidHash] [KeyHashes] in
theorem returns_shDescriptor (map : BTreeMap (U8Array 20) PublicKey) (input : Input)
    (scriptPubkey : ScriptBuf) : (shDescriptor map input scriptPubkey).Returns := by
  unfold shDescriptor
  cases input.redeemScript with
  | none => trivial
  | some redeemScript =>
      dsimp only
      split_ifs
      · trivial
      · exact returns_descriptorOfWitnessScript _ _ _
      · exact returns_descriptorOfKey _ _
      · trivial
      · exact returns_descriptorOfScript _ _ _

/-- A funded input has a descriptor or an error. -/
theorem returns_getDescriptor (psbtInputs : List Input) {input : Input} {utxo : TxOut}
    (h : input.fundingUtxo = .ok utxo) : (getDescriptor psbtInputs input).Returns := by
  unfold getDescriptor
  rw [h]
  dsimp only [Except.toOption, Psbt.expect, Result.ok_bind]
  split_ifs
  · apply Result.Returns.bind
    · rw [Result.returns_mapErr]
      exact Result.returns_ofExcept _
    · intro pk _
      trivial
  · exact returns_descriptorOfKey _ _
  · exact returns_descriptorOfKey _ _
  · trivial
  · exact returns_descriptorOfWitnessScript _ _ _
  · exact returns_shDescriptor _ _ _
  · trivial
  · trivial
  · exact returns_descriptorOfScript _ _ _

/-! ## Taproot witnesses -/

/-- `varint_len`. -/
def varintLen (n : Nat) : Nat :=
  if n < 0xfd then 1
  else if n < 2 ^ 16 then 3
  else if n < 2 ^ 32 then 5
  else 9

/-- `witness_size`. -/
def witnessSize (wit : List Bytes) : Nat :=
  (wit.map List.length).sum + varintLen wit.length

/-- The keys of a taproot input by their hashes. -/
def tapKeysByHash (input : Input) : BTreeMap (U8Array 20) XOnlyPublicKey :=
  input.tapKeyOrigins.keys.foldl (fun map key => map.insert (xOnlyPubkeyHash key) key) {}

/-- One round of the loop of `construct_tap_witness` over the control blocks: the
smallest witness so far and its size. -/
def tapScriptRound (map : BTreeMap (U8Array 20) XOnlyPublicKey)
    (sat : Satisfier XOnlyPublicKey) (allowMall : Bool) (minWit : Option (List Bytes × Nat))
    (entry : ControlBlock × TapLeafScript) : Option (List Bytes × Nat) :=
  let (controlBlock, (script, ver)) := entry
  if !Miniscript.isTapScript ver then
    minWit
  else
    match Miniscript.decodeConsensusTap script with
    | .error _ => minWit
    | .ok ms =>
        let ms := Miniscript.substituteRawPkhTap ms map
        let satisfied :=
          if allowMall then Miniscript.satisfyMalleableTap ms sat
          else Miniscript.satisfyTap ms sat
        match satisfied with
        | .error _ => minWit
        | .ok wit =>
            let wit := wit ++
              [Miniscript.encodeTap ms, Miniscript.serializeControlBlock controlBlock]
            let witLen := witnessSize wit
            match minWit with
            | some (minWit, minWitLen) =>
                if witLen > minWitLen then some (minWit, minWitLen) else some (wit, witLen)
            | none => some (wit, witLen)

/-- `construct_tap_witness`. -/
def constructTapWitness (spk : ScriptBuf) (input : Input) (allowMall : Bool) :
    Result InputError (List Bytes) := do
  -- `assert!(spk.is_p2tr())`
  if !ScriptBuf.isP2tr spk then
    .panicked
  else
    let sat : Satisfier XOnlyPublicKey := input.satisfier
    match input.tapInternalKey.bind sat.lookupTapKeySpendSig with
    | some sig => .ok [Miniscript.taprootSignatureToVec sig]
    | none =>
        match sat.lookupTapControlBlockMap with
        | none => .err .couldNotSatisfyTr
        | some blockMap => do
            let minWit := blockMap.toList.foldl
              (tapScriptRound (tapKeysByHash input) sat allowMall) none
            Result.okOr .couldNotSatisfyTr (minWit.map fun min => min.1)

omit [TxidHash] [ScriptHashes] in
/-- Pay-to-taproot scripts pass the assertion. -/
theorem returns_constructTapWitness {spk : ScriptBuf} (input : Input) (allowMall : Bool)
    (h : ScriptBuf.isP2tr spk) : (constructTapWitness spk input allowMall).Returns := by
  unfold constructTapWitness
  simp only [h, Bool.not_true, Bool.false_eq_true, if_false]
  split
  · trivial
  · split
    · trivial
    · exact Result.returns_okOr _ _

end Finalizer

end RustPsbt
