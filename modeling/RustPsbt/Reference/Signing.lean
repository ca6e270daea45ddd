import RustPsbt.Reference.Hashes
import RustPsbt.Roles.Signer
import RustPsbt.Reference.Psbt

/-!
# Reference signatures

The sighash types of the reference signatures, and PSBTs that may be signed.
-/

namespace RustPsbt
namespace Reference

attribute [local instance] Reference.types

/-- The sighash type in the last byte of an ECDSA signature. -/
def ecdsaSighash (sig : Shaped isEcdsaSignature) : EcdsaSighashType :=
  match EcdsaSighashType.fromStandard (sig.bytes.getLast?.getD 1).toUInt32 with
  | .ok ty => ty
  | .error _ => .all

/-- The sighash type in the last byte of a taproot signature, if it has one. -/
def taprootSighash (sig : Shaped isTaprootSignature) : TapSighashType :=
  match TapSighashType.fromConsensusU8 (sig.bytes[64]?.getD 0) with
  | .ok ty => ty
  | .error _ => .default

/-- The reference signatures. -/
@[reducible]
def signatureTypes : SignatureTypes where
  ecdsaSighashType := ecdsaSighash
  taprootSighashType := taprootSighash

/-- The unsigned PSBT while inputs and outputs may still be added. -/
def open_ : Psbt :=
  { unsigned with global := { unsigned.global with txModifiableFlags := ⟨3⟩ } }

/-- The signatures of the only input. -/
def inputSigs : InputSigs where
  index := 0
  signatures := .ecdsa [(publicKey 1, ecdsaSignature)]

/-- The witness script of the reference inputs. -/
def witnessScript : ScriptBuf := [0x51]

/-- The redeem script that commits to the witness script. -/
def redeemScript : ScriptBuf :=
  ScriptBuf.newP2wsh (digest witnessScript)

/-- A transaction with an output that commits to the redeem script. -/
def shWshFunding : Transaction where
  version := 2
  lockTime := .zero
  input := []
  output := [{
    value := (2000 : UInt64)
    scriptPubkey := ScriptBuf.newP2sh (digest20 redeemScript) }]

/-- An input that spends a nested pay-to-witness-script-hash output. -/
def shWshInput : Input :=
  { Input.new { txid := txidHash.computeTxid shWshFunding, vout := 0 } with
    nonWitnessUtxo := some shWshFunding
    redeemScript := some redeemScript
    witnessScript := some witnessScript }

/-- A PSBT that spends a nested pay-to-witness-script-hash output. -/
def shWshUnsigned : Psbt :=
  psbt [shWshInput] [output [0x51]]

end Reference
end RustPsbt
