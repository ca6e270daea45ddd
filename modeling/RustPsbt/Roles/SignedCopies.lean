import RustPsbt.Roles.Labels
import RustPsbt.Roles.SignAll
import RustPsbt.Roles.Workflow
import RustPsbt.Roles.Parallel

/-!
# Sessions over signed copies

Copies of a PSBT with other signatures pass the same structural checks, have the same
sighashes and get the same ECDSA signatures.  Only taproot signing and the strict check of
the sighash types look at signatures that are already there.

Main results:

- Theorem `SignableInput.verify_of_sameButSigs`: when a signed copy passes the strict checks.
- Theorem `SigningSession.inputSigs_of_sameDue`: when a signed copy gets the same signatures.
-/

namespace RustPsbt

/-- Collecting loops with equal rounds are equal. -/
theorem Result.mapM_congr {ε α β : Type} {f g : α → Result ε β} {l : List α}
    (h : ∀ a ∈ l, f a = g a) : l.mapM f = l.mapM g := by
  induction l with
  | nil => rfl
  | cons a l ih =>
      rw [List.forall_mem_cons] at h
      rw [List.mapM_cons, List.mapM_cons, h.1, ih h.2]

section Generic

variable [BitcoinTypes]

/-! ## Checks of signed copies -/

/-- Inputs that differ in their signatures only pass the bounds check alike. -/
theorem Psbt.SameButSigs.checkedInput_cases {p q : Psbt} (h : Psbt.SameButSigs p q)
    (index : Nat) :
    (∃ e, p.checkedInput index = .err e ∧ q.checkedInput index = .err e) ∨
      ∃ i j, Input.SameButSigs i j ∧ p.checkedInput index = .ok i ∧
        q.checkedInput index = .ok j := by
  have hcount : q.global.inputCount = p.global.inputCount := by rw [h.global]
  exact Psbt.checkedInput_cases h.inputs hcount index

theorem Psbt.SameButSigs.checkedInput {p q : Psbt} (h : Psbt.SameButSigs p q) {index : Nat}
    {i : Input} (hi : p.checkedInput index = .ok i) :
    ∃ j, Input.SameButSigs i j ∧ q.checkedInput index = .ok j := by
  rcases h.checkedInput_cases index with ⟨e, he, -⟩ | ⟨i', j, hij, hi', hj⟩
  · rw [he] at hi
    cases hi
  · rw [hi'] at hi
    cases hi
    exact ⟨j, hij, hj⟩

namespace SignableInput

variable [TxidHash]

/-- The structural checks do not look at signatures. -/
theorem checkData_of_sameButSigs {p q : Psbt} (h : Psbt.SameButSigs p q) (index : Nat) :
    checkData q index = checkData p index := by
  have houtputs : q.outputs = p.outputs := h.outputs
  unfold checkData
  rcases h.checkedInput_cases index with ⟨e, hp, hq⟩ | ⟨i, j, hij, hp, hq⟩
  · rw [hp, hq]
    rfl
  · rw [hp, hq, houtputs, hij]
    rfl

variable [ScriptHashes] [SignatureTypes]

/-- When the strict checks pass. -/
theorem verify_eq_ok {psbt : Psbt} {index : Nat} {s : SignableInput} :
    verify psbt index = .ok s ↔
      checkData psbt index = .ok s ∧ ∃ i utxo, psbt.checkedInput index = .ok i ∧
        i.fundingUtxoUntrusted = .ok utxo ∧
        i.checkRedeemScript s.prevout.scriptPubkey = .ok ⟨⟩ ∧
        i.checkWitnessScript s.outputType s.prevout.scriptPubkey = .ok ⟨⟩ ∧
        i.checkInternalKey s.outputType s.prevout.scriptPubkey = .ok ⟨⟩ ∧
        i.hasMismatch s.sighashTy = false := by
  constructor
  · intro h
    have hdata := checkData_of_verify h
    unfold verify at h
    rw [hdata, Result.ok_bind] at h
    obtain ⟨i, hi, h⟩ := Result.bind_eq_ok.mp h
    obtain ⟨utxo, hutxo, h⟩ := Result.bind_eq_ok.mp h
    obtain ⟨⟨⟩, hredeem, h⟩ := Result.bind_eq_ok.mp h
    obtain ⟨⟨⟩, hwitness, h⟩ := Result.bind_eq_ok.mp h
    obtain ⟨⟨⟩, hkey, h⟩ := Result.bind_eq_ok.mp h
    refine ⟨hdata, i, utxo, Result.mapErr_eq_ok.mp hi, Result.mapErr_eq_ok.mp hutxo, hredeem,
      hwitness, hkey, ?_⟩
    split at h
    · cases h
    · rename_i hmismatch
      exact Bool.eq_false_iff.mpr hmismatch
  · rintro ⟨hdata, i, utxo, hi, hutxo, hredeem, hwitness, hkey, hmismatch⟩
    unfold verify
    rw [hdata, Result.ok_bind, hi, Result.mapErr_ok, Result.ok_bind, hutxo, Result.mapErr_ok,
      Result.ok_bind]
    dsimp only
    rw [hredeem, Result.ok_bind, hwitness, Result.ok_bind, hkey, Result.ok_bind, hmismatch]
    rfl

/-- The strict checks look at the sighash types of the signatures only. -/
theorem verify_of_sameButSigs {p q : Psbt} (h : Psbt.SameButSigs p q) {index : Nat}
    {s : SignableInput} (hp : verify p index = .ok s)
    (hmismatch : ∀ j, q.inputs[index]? = some j → j.hasMismatch s.sighashTy = false) :
    verify q index = .ok s := by
  obtain ⟨hdata, i, utxo, hi, hutxo, hredeem, hwitness, hkey, -⟩ := verify_eq_ok.mp hp
  obtain ⟨j, hij, hj⟩ := h.checkedInput hi
  refine verify_eq_ok.mpr ⟨?_, j, utxo, hj, ?_, ?_, ?_, ?_, ?_⟩
  · rw [checkData_of_sameButSigs h]
    exact hdata
  · rw [hij]
    exact hutxo
  · rw [hij]
    exact hredeem
  · rw [hij]
    exact hwitness
  · rw [hij]
    exact hkey
  · exact hmismatch j (Psbt.checkedInput_eq_ok.mp hj).2

end SignableInput

/-! ## Signatures of signed copies -/

namespace SigningSession

variable [SighashEngine]

section

variable {self other : SigningSession} {s : SignableInput} {i j : Input}

/-- Sighashes are those of the transaction. -/
theorem taprootSighash_of_cache (hcache : other.cache = self.cache) (s : SignableInput)
    (allPrevouts : List TxOut) (leafHash : Option TapLeafHash) :
    other.taprootSighash s allPrevouts leafHash = self.taprootSighash s allPrevouts leafHash := by
  unfold taprootSighash
  rw [hcache]

theorem ecdsaSighash_of_cache (hcache : other.cache = self.cache) (s : SignableInput) :
    other.ecdsaSighash s = self.ecdsaSighash s := by
  unfold ecdsaSighash
  rw [hcache]

variable [Secp]

/-- The same taproot signatures are due of the keys that the provider holds. -/
def SameDue (i j : Input) (k : GetKey) : Prop :=
  ∀ xonly leafHashes keySource, i.tapKeyOrigins[xonly]? = some (leafHashes, keySource) →
    (k.keyFor keySource (.xOnlyPubkey xonly)).isSome →
    (j.KeyPathDue xonly leafHashes ↔ i.KeyPathDue xonly leafHashes) ∧
      unsignedLeaves j xonly leafHashes = unsignedLeaves i xonly leafHashes

/-- A round signs the same where the same is due. -/
theorem taprootRound_of_sameDue (hcache : other.cache = self.cache)
    (hij : Input.SameButSigs i j) {k : GetKey} (hdue : SameDue i j k)
    (allPrevouts : List TxOut) {entry : XOnlyPublicKey × TapKeyOrigin}
    (hentry : entry ∈ i.tapKeyOrigins.toList) :
    other.taprootRound s j allPrevouts k entry = self.taprootRound s i allPrevouts k entry := by
  obtain ⟨xonly, leafHashes, keySource⟩ := entry
  have horigin := Std.ExtTreeMap.mem_toList_iff_getElem?_eq_some.mp hentry
  have hinternal : j.tapInternalKey = i.tapInternalKey := by rw [hij]
  have hroot : j.tapMerkleRoot = i.tapMerkleRoot := by rw [hij]
  have horigins : j.tapKeyOrigins = i.tapKeyOrigins := by rw [hij]
  unfold taprootRound
  dsimp only
  cases hkey : k.keyFor keySource (.xOnlyPubkey xonly) with
  | none => rfl
  | some sk =>
      obtain ⟨hpath, hleaves⟩ := hdue xonly leafHashes keySource horigin (by rw [hkey]; rfl)
      have hkeyPath : other.keyPathSigs s j allPrevouts xonly leafHashes sk =
          self.keyPathSigs s i allPrevouts xonly leafHashes sk := by
        unfold keyPathSigs
        rw [hinternal, hroot]
        cases hsome : i.tapInternalKey with
        | none => rfl
        | some internalKey =>
            unfold Input.KeyPathDue at hpath
            rw [hinternal, hsome, Option.some_inj] at hpath
            dsimp only
            rw [taprootSighash_of_cache hcache]
            exact if_congr hpath rfl rfl
      have hscriptPath : other.scriptPathSigs s j allPrevouts xonly sk =
          self.scriptPathSigs s i allPrevouts xonly sk := by
        unfold scriptPathSigs
        rw [horigins, horigin]
        dsimp only
        rw [hleaves]
        simp only [taprootSighash_of_cache hcache]
      dsimp only
      rw [hkeyPath, hscriptPath]

/-- A signed copy gets the signatures that the original gets, where the same taproot
signatures are due. -/
theorem inputSigs_of_sameDue (hcache : other.cache = self.cache)
    (hi : self.psbt.checkedInput s.index = .ok i)
    (hj : other.psbt.checkedInput s.index = .ok j) (hij : Input.SameButSigs i j) {k : GetKey}
    (hdue : SameDue i j k) (allPrevouts : List TxOut) :
    other.inputSigs s allPrevouts k = self.inputSigs s allPrevouts k := by
  have horigins : j.tapKeyOrigins = i.tapKeyOrigins := by rw [hij]
  have hderivations : j.bip32Derivations = i.bip32Derivations := by rw [hij]
  unfold inputSigs
  cases htype : s.outputType with
  | tr =>
      unfold taprootSignatures
      rw [hi, hj]
      dsimp only [Except.toOption, Psbt.expect, Result.ok_bind]
      rw [horigins]
      have hrounds : i.tapKeyOrigins.toList.mapM (other.taprootRound s j allPrevouts k) =
          i.tapKeyOrigins.toList.mapM (self.taprootRound s i allPrevouts k) :=
        Result.mapM_congr fun entry hentry =>
          taprootRound_of_sameDue hcache hij hdue allPrevouts hentry
      rw [hrounds]
  | _ =>
      unfold ecdsaSignatures
      rw [hi, hj, ecdsaSighash_of_cache hcache]
      dsimp only [Except.toOption, Psbt.expect, Result.ok_bind]
      rw [hderivations]

end

end SigningSession

end Generic

end RustPsbt
