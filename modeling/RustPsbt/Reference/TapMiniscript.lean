import RustPsbt.Reference.Codecs
import RustPsbt.Reference.Miniscript

/-!
# A reference `miniscript` for tapscripts

As much of `miniscript` as two leaves with two keys each need.
-/

namespace RustPsbt
namespace Reference

attribute [local instance] Reference.types Reference.codecs Reference.keyHashes

/-- Tapscripts that ask for the signature of one of two keys: `or_d(pk(A),pk(B))` and
`multi_a(1,A,B)`. -/
inductive TapFragment where
  | orD (first second : U8Array 32)
  | multiA (first second : U8Array 32)

/-- The script of a fragment. -/
def TapFragment.script : TapFragment → ScriptBuf
  -- `<A> OP_CHECKSIG OP_IFDUP OP_NOTIF <B> OP_CHECKSIG OP_ENDIF`
  | orD a b => 0x20 :: (a.bytes ++ ([0xac, 0x73, 0x64, 0x20] ++ (b.bytes ++ [0xac, 0x68])))
  -- `<A> OP_CHECKSIG <B> OP_CHECKSIGADD 1 OP_NUMEQUAL`
  | multiA a b => 0x20 :: (a.bytes ++ ([0xac, 0x20] ++ (b.bytes ++ [0xba, 0x51, 0x9c])))

/-- The 32 bytes of the script from the position on. -/
def keyAt (script : ScriptBuf) (n : Nat) : U8Array 32 :=
  (U8Array.ofSlice 32 ((script.drop n).take 32)).getD (.zero 32)

/-- The fragment of a script. -/
def TapFragment.ofScript (script : ScriptBuf) : Option TapFragment :=
  [orD (keyAt script 1) (keyAt script 37), multiA (keyAt script 1) (keyAt script 35)].find?
    fun fragment => fragment.script == script

/-- The stack that satisfies a fragment: a signature of the first key that signed. -/
def TapFragment.satisfy (fragment : TapFragment) (sat : Satisfier (U8Array 32)) :
    Option (List Bytes) :=
  let sig (key : U8Array 32) : Option Bytes :=
    (sat.lookupTapLeafScriptSig key (digest fragment.script)).map fun
      (sig : Shaped isTaprootSignature) => sig.bytes
  match fragment with
  | orD a b => (sig a).elim ((sig b).map fun sig => [sig, []]) fun sig => some [sig]
  -- the signature of the first key is on the top of the stack
  | multiA a b => (sig a).elim ((sig b).map fun sig => [sig, []]) fun sig => some [[], sig]

/-- Tapscripts of two keys are understood. -/
@[reducible]
def tapMiniscript : Miniscript :=
  { miniscript with
    TapMs := TapFragment
    serializeControlBlock := controlBlockBytes
    decodeConsensusTap := fun script => parsed (TapFragment.ofScript script)
    substituteRawPkhTap := fun ms _ => ms
    encodeTap := TapFragment.script
    satisfyTap := fun ms sat => parsed (ms.satisfy sat)
    satisfyMalleableTap := fun ms sat => parsed (ms.satisfy sat) }

/-- A key of the leaves. -/
def leafKey (n : UInt8) : U8Array 32 :=
  ⟨List.replicate 32 n, List.length_replicate⟩

/-- The first leaf. -/
def orLeaf : TapFragment :=
  .orD (leafKey 1) (leafKey 2)

/-- The second leaf. -/
def multiLeaf : TapFragment :=
  .multiA (leafKey 5) (leafKey 6)

/-- The version of tapscripts. -/
def tapscriptVersion : Shaped isLeafVersion :=
  ⟨[0xc0], rfl⟩

/-- The control block of a leaf whose sibling has the hash. -/
def leafControlBlock (sibling : U8Array 32) : ControlBlock where
  leafVersion := tapscriptVersion
  outputKeyParity := false
  internalKey := leafKey 9
  merkleBranch := ⟨[sibling], by simp⟩

/-- A signature with the default sighash type. -/
def defaultSig : Shaped isTaprootSignature :=
  ⟨List.replicate 64 7, by decide⟩

/-- A signature that commits to all inputs and outputs in so many words. -/
def allSig : Shaped isTaprootSignature :=
  ⟨List.replicate 64 7 ++ [1], by decide⟩

/-- A pay-to-taproot script. -/
def tapScriptPubkey : ScriptBuf :=
  0x51 :: 0x20 :: List.replicate 32 8

/-- A taproot input with two leaves.  A key of each has signed. -/
def tapInput : Input :=
  { input 0 with
    witnessUtxo := some { value := (2000 : UInt64), scriptPubkey := tapScriptPubkey }
    tapInternalKey := some (leafKey 9)
    tapScripts := (({} : BTreeMap ControlBlock TapLeafScript).insert
      (leafControlBlock (digest multiLeaf.script)) (orLeaf.script, tapscriptVersion)).insert
      (leafControlBlock (digest orLeaf.script)) (multiLeaf.script, tapscriptVersion)
    tapScriptSigs := (({} : BTreeMap (XOnlyPublicKey × TapLeafHash) TaprootSignature).insert
      (leafKey 1, digest orLeaf.script) defaultSig).insert
      (leafKey 5, digest multiLeaf.script) allSig }

end Reference
end RustPsbt
