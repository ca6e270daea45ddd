import RustPsbt.Primitives.Script
import RustPsbt.Reference.Types
import RustPsbt.Roles.Satisfier

/-!
# Reference hashes

Polynomial digests in the place of the hashes of keys and scripts.
-/

namespace RustPsbt
namespace Reference

attribute [local instance] Reference.types

/-- A 20-byte digest. -/
def digest20 (b : Bytes) : U8Array 20 :=
  ⟨leBytes 20 (b.foldl (fun acc byte => (acc * 257 + byte.toNat + 1) % 2 ^ 160) 0),
    length_leBytes _ _⟩

/-- The bytes of a public key. -/
def publicKeyBytes (pk : Shaped fun b => isCompressed b || isUncompressed b) : Bytes :=
  pk.bytes

/-- The x coordinate of a public key. -/
def xOnlyOf (pk : Shaped fun b => isCompressed b || isUncompressed b) : U8Array 32 :=
  (U8Array.ofSlice 32 (((publicKeyBytes pk).drop 1).take 32)).getD (.zero 32)

/-- The public key with an even y coordinate. -/
def evenKey (key : U8Array 32) : Shaped fun b => isCompressed b || isUncompressed b :=
  ⟨2 :: key.bytes, isPublicKey_even key⟩

/-- The reference hashes of keys. -/
@[reducible]
def keyHashes : KeyHashes where
  pubkeyHash pk := digest20 (publicKeyBytes pk)
  xOnlyPubkeyHash := fun (pk : U8Array 32) => digest20 pk.bytes

/-- The reference hashes of scripts. -/
@[reducible]
def scriptHashes : ScriptHashes where
  scriptHash := digest20
  wscriptHash := digest
  taprootOutputKey := fun (key : U8Array 32) root =>
    digest (key.bytes ++ (root.map U8Array.bytes).getD [])

end Reference
end RustPsbt
