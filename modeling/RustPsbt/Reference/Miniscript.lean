import RustPsbt.Reference.Hashes
import RustPsbt.Reference.Signing
import RustPsbt.Roles.Extractor

/-!
# A reference `miniscript`

As much of `miniscript` and of its interpreter as a pay-to-witness-pubkey-hash input
needs.
-/

namespace RustPsbt
namespace Reference

attribute [local instance] Reference.types Reference.txidHash Reference.signatureTypes

/-- The descriptors of a single key. -/
inductive KeyDescriptor where
  | pk (key : Shaped fun b => isCompressed b || isUncompressed b)
  | pkh (key : Shaped fun b => isCompressed b || isUncompressed b)
  | wpkh (key : Shaped fun b => isCompressed b || isUncompressed b)
  | shWpkh (key : Shaped fun b => isCompressed b || isUncompressed b)

/-- The bytes of a signature. -/
def ecdsaSignatureBytes (sig : Shaped isEcdsaSignature) : Bytes :=
  sig.bytes

/-- The key that the descriptor asks a signature of. -/
def KeyDescriptor.key :
    KeyDescriptor → Shaped fun b => isCompressed b || isUncompressed b
  | pk key | pkh key | wpkh key | shWpkh key => key

/-- The witness and script signature of a signed key. -/
def KeyDescriptor.satisfy (desc : KeyDescriptor) (sig key : Bytes) :
    List Bytes × ScriptBuf :=
  match desc with
  | pk _ => ([], UInt8.ofNat sig.length :: sig)
  | pkh _ => ([], UInt8.ofNat sig.length :: sig ++ UInt8.ofNat key.length :: key)
  | wpkh _ => ([sig, key], [])
  | shWpkh _ => ([sig, key], 0x16 :: ScriptBuf.newP2wpkh (digest20 key))

/-- Descriptors of a single key are understood, scripts are not. -/
@[reducible]
def miniscript : Miniscript where
  Error := Unit
  FromSliceError := Unit
  Ms _ := Empty
  TapMs := Empty
  Descriptor := KeyDescriptor
  toXOnly pk := xOnlyOf pk
  ofXOnly := evenKey
  publicKeyFromSlice b :=
    match Shaped.ofBytes (fun b => isCompressed b || isUncompressed b) b with
    | some pk => .ok pk
    | none => .error ()
  wpubkeyHash pk :=
    if isCompressed (publicKeyBytes pk) then some (digest20 (publicKeyBytes pk)) else none
  taprootSignatureToVec := fun (sig : Shaped isTaprootSignature) => sig.bytes
  serializeControlBlock _ := []
  isTapScript := fun (ver : Shaped isLeafVersion) => ver.bytes == [0xc0]
  decodeConsensus _ _ := .error ()
  substituteRawPkh ms _ := ms
  decodeConsensusTap _ := .error ()
  substituteRawPkhTap ms _ := ms
  encodeTap ms := ms.elim
  satisfyTap ms _ := ms.elim
  satisfyMalleableTap ms _ := ms.elim
  newPk := .pk
  newPkh key := .ok (.pkh key)
  newWpkh key := .ok (.wpkh key)
  newShWpkh key := .ok (.shWpkh key)
  newWsh ms := ms.elim
  newShWsh ms := ms.elim
  newSh ms := ms.elim
  newBare ms := ms.elim
  getSatisfaction desc sat :=
    match sat.lookupEcdsaSig desc.key with
    | some sig => .ok (desc.satisfy (ecdsaSignatureBytes sig) desc.key.bytes)
    | none => .error ()
  getSatisfactionMall desc sat :=
    match sat.lookupEcdsaSig desc.key with
    | some sig => .ok (desc.satisfy (ecdsaSignatureBytes sig) desc.key.bytes)
    | none => .error ()

/-- The interpreter accepts a signature and a key of the right hash. -/
@[reducible]
def scriptInterpreter : ScriptInterpreter where
  InterpreterError := Unit
  Interpreter := Bytes
  fromTxdata spk _ witness _ _ :=
    match witness with
    | [sig, key] =>
        if spk = ScriptBuf.newP2wpkh (digest20 key) then .ok sig else .error ()
    | _ => .error ()
  iter sig _ _ _ :=
    if isEcdsaSignature sig then [.ok ()] else [.error ()]

/-- The witness of a transaction input. -/
def witnessBytes (i : TxIn) : Bytes :=
  compactSize i.witness.length ++ i.witness.flatMap fun e => compactSize e.length ++ e

/-- Amounts are numbers of satoshis; witnesses weigh a quarter. -/
@[reducible]
def weights : Weights where
  toSat := fun (amount : UInt64) => amount
  weight tx :=
    let stripped := 4 * (strippedTxBytes tx).length
    if tx.input.all fun i => i.witness.isEmpty then UInt64.ofNat stripped
    else UInt64.ofNat (stripped + 2 + (tx.input.flatMap witnessBytes).length)

/-- An input that spends a pay-to-witness-pubkey-hash output. -/
def wpkhInput : Input :=
  { input 0 with
    witnessUtxo := some
      { value := (2000 : UInt64)
        scriptPubkey := ScriptBuf.newP2wpkh (digest20 (publicKeyBytes (publicKey 1))) } }

/-- A PSBT that spends a pay-to-witness-pubkey-hash output. -/
def wpkhUnsigned : Psbt :=
  psbt [wpkhInput] [output [0x51]]

/-- The same PSBT with the signature of its only input. -/
def wpkhSigned : Psbt :=
  psbt
    [{ wpkhInput with
        partialSigs := ({} : BTreeMap _ _).insert (publicKey 1) ecdsaSignature }]
    [output [0x51]]

/-- The signer of the PSBT. -/
def wpkhSigner : Signer where
  psbt := wpkhUnsigned
  cache := wpkhUnsigned.unsignedTxAt .zero
  unsignedTx_eq := rfl

/-- The finalizer of the signed PSBT. -/
def wpkhFinalizer : Finalizer where
  psbt := wpkhSigned
  checked := rfl

/-- The same PSBT with its only input finalized. -/
def wpkhFinalized : Psbt :=
  psbt
    [{ wpkhInput with
        finalScriptWitness := some [[0x30, 0x01], 2 :: List.replicate 32 1] }]
    [output [0x51]]

end Reference
end RustPsbt
