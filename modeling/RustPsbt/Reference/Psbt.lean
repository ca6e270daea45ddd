import RustPsbt.Psbt
import RustPsbt.Reference.Types

/-!
# A reference PSBT

A small PSBT over the reference types, from which the examples of the other
modules are built.
-/

namespace RustPsbt
namespace Reference

attribute [local instance] Reference.types Reference.txidHash

/-- The input that spends output `vout` of the transaction with an all-zero txid. -/
def input (vout : Vout) : Input :=
  .new { txid := .zero 32, vout := vout }

/-- The output of 1000 satoshis to the script. -/
def output (script : ScriptBuf) : Output :=
  .new { value := (1000 : UInt64), scriptPubkey := script }

/-- The PSBT with the given inputs and outputs and nothing else. -/
def psbt (inputs : List Input) (outputs : List Output) : Psbt where
  global := { Global.new with inputCount := inputs.length, outputCount := outputs.length }
  inputs := inputs
  outputs := outputs

/-- A compressed public key. -/
def compressedKey (x : UInt8) : CompressedPublicKey :=
  (⟨2 :: List.replicate 32 x, by simp [isCompressed]⟩ : Shaped isCompressed)

/-- A public key. -/
def publicKey (x : UInt8) : PublicKey :=
  (⟨2 :: List.replicate 32 x, by simp [isCompressed]⟩ :
    Shaped fun b => isCompressed b || isUncompressed b)

/-- An ECDSA signature. -/
def ecdsaSignature : EcdsaSignature :=
  (⟨[0x30, 0x01], by decide⟩ : Shaped isEcdsaSignature)

/-- An extended public key. -/
def xpub : Xpub :=
  (U8Array.zero 78 : U8Array 78)

/-- A height lock time. -/
def height : RequiredHeightLockTime :=
  ⟨⟨700000, by decide⟩, by decide⟩

/-- A time lock time. -/
def time : Time :=
  ⟨600000000, by decide⟩

/-- A PSBT with one input and one output. -/
def unsigned : Psbt :=
  psbt [input 0] [output [0x51]]

/-- The same PSBT after one party signed. -/
def signed : Psbt :=
  psbt
    [{ input 0 with
        partialSigs := ({} : BTreeMap _ _).insert (publicKey 1) ecdsaSignature }]
    [output [0x51]]

end Reference
end RustPsbt
