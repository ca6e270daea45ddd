import RustPsbt.Primitives.Bitcoin

/-!
# Script patterns

The standard output scripts, how they are recognised, and the hashes they commit
to.

Main results:

- Theorems `ScriptBuf.isP2sh_newP2sh`, `ScriptBuf.isP2wsh_newP2wsh`,
  `ScriptBuf.isP2wpkh_newP2wpkh` and `ScriptBuf.isP2tr_newP2trTweaked`: the scripts that are
  built are recognised.
-/

namespace RustPsbt

namespace ScriptBuf

/-! ## Recognising scripts -/

/-- `Script::is_p2sh`. -/
def isP2sh (self : ScriptBuf) : Bool :=
  self.length == 23 && self[0]? == some 0xa9 && self[1]? == some 0x14 &&
    self[22]? == some 0x87

/-- `Script::is_p2pkh`. -/
def isP2pkh (self : ScriptBuf) : Bool :=
  self.length == 25 && self[0]? == some 0x76 && self[1]? == some 0xa9 &&
    self[2]? == some 0x14 && self[23]? == some 0x88 && self[24]? == some 0xac

/-- `Script::is_p2pk`: the push of a key and a signature check. -/
def isP2pk (self : ScriptBuf) : Bool :=
  self.length == 67 && self[0]? == some 0x41 && self[66]? == some 0xac ||
    self.length == 35 && self[0]? == some 0x21 && self[34]? == some 0xac

/-- `WitnessVersion::try_from` on the version opcode. -/
def witnessVersionOfOpcode (opcode : UInt8) : Option Nat :=
  if opcode = 0x00 then some 0
  else if 0x51 ≤ opcode ∧ opcode ≤ 0x60 then some (opcode.toNat - 0x50)
  else none

/-- `Script::witness_version`. -/
def witnessVersion (self : ScriptBuf) : Option Nat :=
  match self with
  | verOpcode :: pushOpbyte :: program =>
      if self.length < 4 ∨ 42 < self.length then none
      else if pushOpbyte < 0x02 ∨ 0x28 < pushOpbyte then none
      else if program.length ≠ pushOpbyte.toNat then none
      else witnessVersionOfOpcode verOpcode
  | _ => none

/-- `Script::is_witness_program`. -/
def isWitnessProgram (self : ScriptBuf) : Bool :=
  (witnessVersion self).isSome

/-- `Script::is_p2wsh`. -/
def isP2wsh (self : ScriptBuf) : Bool :=
  self.length == 34 && witnessVersion self == some 0 && self[1]? == some 0x20

/-- `Script::is_p2wpkh`. -/
def isP2wpkh (self : ScriptBuf) : Bool :=
  self.length == 22 && witnessVersion self == some 0 && self[1]? == some 0x14

/-- `Script::is_p2tr`. -/
def isP2tr (self : ScriptBuf) : Bool :=
  self.length == 34 && witnessVersion self == some 1 && self[1]? == some 0x20

theorem isWitnessProgram_of_isP2wpkh {s : ScriptBuf} (h : isP2wpkh s) :
    isWitnessProgram s := by
  simp only [isP2wpkh, Bool.and_eq_true, beq_iff_eq] at h
  simp [isWitnessProgram, h.1.2]

theorem isWitnessProgram_of_isP2wsh {s : ScriptBuf} (h : isP2wsh s) :
    isWitnessProgram s := by
  simp only [isP2wsh, Bool.and_eq_true, beq_iff_eq] at h
  simp [isWitnessProgram, h.1.2]

theorem isWitnessProgram_of_isP2tr {s : ScriptBuf} (h : isP2tr s) : isWitnessProgram s := by
  simp only [isP2tr, Bool.and_eq_true, beq_iff_eq] at h
  simp [isWitnessProgram, h.1.2]

/-- A script whose first opcode is no witness version is no witness program. -/
theorem isWitnessProgram_of_getElem?_zero {s : ScriptBuf} {opcode : UInt8}
    (h : s[0]? = some opcode) (hopcode : witnessVersionOfOpcode opcode = none) :
    isWitnessProgram s = false := by
  unfold isWitnessProgram witnessVersion
  rcases s with _ | ⟨op, _ | ⟨push, program⟩⟩
  · rfl
  · rfl
  · have hop : op = opcode := by simpa using h
    subst hop
    simp [hopcode]

theorem isWitnessProgram_of_isP2sh {s : ScriptBuf} (h : isP2sh s) :
    isWitnessProgram s = false := by
  simp only [isP2sh, Bool.and_eq_true, beq_iff_eq] at h
  exact isWitnessProgram_of_getElem?_zero h.1.1.2 rfl

theorem isWitnessProgram_of_isP2pkh {s : ScriptBuf} (h : isP2pkh s) :
    isWitnessProgram s = false := by
  simp only [isP2pkh, Bool.and_eq_true, beq_iff_eq] at h
  exact isWitnessProgram_of_getElem?_zero h.1.1.1.1.2 rfl

theorem isWitnessProgram_of_isP2pk {s : ScriptBuf} (h : isP2pk s) :
    isWitnessProgram s = false := by
  simp only [isP2pk, Bool.or_eq_true, Bool.and_eq_true, beq_iff_eq] at h
  rcases h with h | h
  · exact isWitnessProgram_of_getElem?_zero h.1.2 rfl
  · exact isWitnessProgram_of_getElem?_zero h.1.2 rfl

/-- A script that is no witness program is of no witness version. -/
theorem isP2w_eq_false {s : ScriptBuf} (h : isWitnessProgram s = false) :
    isP2wpkh s = false ∧ isP2wsh s = false ∧ isP2tr s = false := by
  refine ⟨?_, ?_, ?_⟩
  · exact Bool.eq_false_iff.mpr fun hwpkh => by
      simp [isWitnessProgram_of_isP2wpkh hwpkh] at h
  · exact Bool.eq_false_iff.mpr fun hwsh => by
      simp [isWitnessProgram_of_isP2wsh hwsh] at h
  · exact Bool.eq_false_iff.mpr fun htr => by
      simp [isWitnessProgram_of_isP2tr htr] at h

theorem isP2wpkh_of_isP2wsh {s : ScriptBuf} (h : isP2wsh s) : isP2wpkh s = false := by
  simp only [isP2wsh, Bool.and_eq_true, beq_iff_eq] at h
  simp [isP2wpkh, h.1.1]

/-- Key scripts are no script hashes. -/
theorem isP2sh_of_isP2pk {s : ScriptBuf} (h : isP2pk s) : isP2sh s = false := by
  simp only [isP2pk, Bool.or_eq_true, Bool.and_eq_true, beq_iff_eq] at h
  rcases h with h | h <;> simp [isP2sh, h.1.1]

theorem isP2sh_of_isP2pkh {s : ScriptBuf} (h : isP2pkh s) : isP2sh s = false := by
  simp only [isP2pkh, Bool.and_eq_true, beq_iff_eq] at h
  simp [isP2sh, h.1.1.1.1.1]

/-- A pay-to-taproot script is none of the other scripts with a pattern. -/
theorem isP2tr_disjoint {s : ScriptBuf} (h : isP2tr s) :
    isP2wpkh s = false ∧ isP2wsh s = false ∧ isP2sh s = false := by
  simp only [isP2tr, Bool.and_eq_true, beq_iff_eq] at h
  simp [isP2wpkh, isP2wsh, isP2sh, h.1.1, h.1.2]

/-! ## Building scripts -/

/-- `ScriptBuf::new_p2sh`. -/
def newP2sh (scriptHash : U8Array 20) : ScriptBuf :=
  [0xa9, 0x14] ++ scriptHash.bytes ++ [0x87]

/-- `ScriptBuf::new_p2pkh`, also `Address::p2pkh(..).script_pubkey()`. -/
def newP2pkh (pubkeyHash : U8Array 20) : ScriptBuf :=
  [0x76, 0xa9, 0x14] ++ pubkeyHash.bytes ++ [0x88, 0xac]

/-- `ScriptBuf::new_p2wpkh`, also `Address::p2wpkh(..).script_pubkey()`. -/
def newP2wpkh (wpubkeyHash : U8Array 20) : ScriptBuf :=
  [0x00, 0x14] ++ wpubkeyHash.bytes

/-- `ScriptBuf::new_p2wsh`. -/
def newP2wsh (wscriptHash : U8Array 32) : ScriptBuf :=
  [0x00, 0x20] ++ wscriptHash.bytes

/-- `ScriptBuf::new_p2tr_tweaked`. -/
def newP2trTweaked (outputKey : U8Array 32) : ScriptBuf :=
  [0x51, 0x20] ++ outputKey.bytes

@[simp]
theorem isP2sh_newP2sh (hash : U8Array 20) : isP2sh (newP2sh hash) := by
  simp [isP2sh, newP2sh]

@[simp]
theorem isP2wsh_newP2wsh (hash : U8Array 32) : isP2wsh (newP2wsh hash) := by
  simp [isP2wsh, newP2wsh, witnessVersion, witnessVersionOfOpcode]

@[simp]
theorem isP2wpkh_newP2wpkh (hash : U8Array 20) : isP2wpkh (newP2wpkh hash) := by
  simp [isP2wpkh, newP2wpkh, witnessVersion, witnessVersionOfOpcode]

@[simp]
theorem isP2tr_newP2trTweaked (key : U8Array 32) : isP2tr (newP2trTweaked key) := by
  simp [isP2tr, newP2trTweaked, witnessVersion, witnessVersionOfOpcode]

end ScriptBuf

/-! ## Hashes -/

/-- The hashes and key tweaks that output scripts commit to. -/
class ScriptHashes [BitcoinTypes] where
  /-- `Script::script_hash`. -/
  scriptHash : ScriptBuf → U8Array 20
  /-- `Script::wscript_hash`. -/
  wscriptHash : ScriptBuf → U8Array 32
  /-- The x-only bytes of the internal key tweaked with the merkle root. -/
  taprootOutputKey : XOnlyPublicKey → Option TapNodeHash → U8Array 32

export ScriptHashes (scriptHash wscriptHash taprootOutputKey)

/-- `ScriptBuf::new_p2tr`. -/
def ScriptBuf.newP2tr [BitcoinTypes] [ScriptHashes] (internalKey : XOnlyPublicKey)
    (merkleRoot : Option TapNodeHash) : ScriptBuf :=
  newP2trTweaked (taprootOutputKey internalKey merkleRoot)

end RustPsbt
