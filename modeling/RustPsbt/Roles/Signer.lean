import RustPsbt.LockTime
import RustPsbt.Map.TxModifiableFlags
import RustPsbt.Roles.Checked

/-!
# The Signer

A Signer freezes a PSBT together with its unsigned transaction, and writes
signatures back into the PSBT afterwards.

Main results:

- Theorem `Signer.apply_spec`: writing signatures changes signatures and restricts
  the modification flags, and nothing else.
- Theorem `Psbt.SignedFrom.spec`: so do any number of signers one after another.
-/

namespace RustPsbt

/-- The sighash types that signatures carry. -/
class SignatureTypes [BitcoinTypes] where
  /-- `ecdsa::Signature::sighash_type`. -/
  ecdsaSighashType : EcdsaSignature → EcdsaSighashType
  /-- `taproot::Signature::sighash_type`. -/
  taprootSighashType : TaprootSignature → TapSighashType

export SignatureTypes (ecdsaSighashType taprootSighashType)

variable [BitcoinTypes]

/-! ## Signatures of one input -/

/-- `TapKeyMaterial`. -/
inductive TapKeyMaterial where
  | keyPath (internalKey : XOnlyPublicKey)
  | scriptPath (keyMaterial : XOnlyPublicKey × TapLeafHash)
deriving DecidableEq

/-- `TypedSigs`. -/
inductive TypedSigs where
  | ecdsa (signatures : List (PublicKey × EcdsaSignature))
  | taproot (signatures : List (TapKeyMaterial × TaprootSignature))
deriving DecidableEq

/-- `TypedSigs::len`. -/
def TypedSigs.len : TypedSigs → Nat
  | .ecdsa items => items.length
  | .taproot items => items.length

/-- `TypedSigs::is_empty`. -/
def TypedSigs.isEmpty (self : TypedSigs) : Bool :=
  self.len == 0

/-- `InputSigs`. -/
structure InputSigs where
  index : Nat
  signatures : TypedSigs
deriving DecidableEq

/-! ## The signer -/

/-- `Signer`: a PSBT and the transaction its sighash cache was built from. -/
structure Signer where
  psbt : Psbt
  cache : Transaction
  unsignedTx_eq : psbt.unsignedTx = .ok cache

/-- `Psbt::clear_tx_modifiable`. -/
def Psbt.clearTxModifiable (self : Psbt) (sighashType : PsbtSighashType) : Psbt :=
  { self with
    global := { self.global with
      txModifiableFlags := self.global.txModifiableFlags.applySighash sighashType } }

namespace Input

/-- `partial_sigs.insert(pk, sig)`. -/
def insertPartialSig (self : Input) (entry : PublicKey × EcdsaSignature) : Input :=
  { self with partialSigs := self.partialSigs.insert entry.1 entry.2 }

/-- One round of the loop of `Signer::apply` over taproot signatures. -/
def insertTapSig (self : Input) (entry : TapKeyMaterial × TaprootSignature) : Input :=
  match entry.1 with
  | .keyPath _ => { self with tapKeySig := some entry.2 }
  | .scriptPath keyMaterial =>
      { self with tapScriptSigs := self.tapScriptSigs.insert keyMaterial entry.2 }

end Input

namespace Signer

/-- `Signer::new`. -/
def new (psbt : Psbt) : Result DetermineLockTimeError Signer :=
  match h : psbt.unsignedTx with
  | .ok cache => .ok { psbt := psbt, cache := cache, unsignedTx_eq := h }
  | .error e => .error e

/-- `Signer::unsigned_tx`. -/
def unsignedTx (self : Signer) : Result Empty Transaction :=
  Psbt.expect self.psbt.unsignedTx.toOption

/-- One round of the loop of `Signer::apply`. -/
def applyInputSigs [SignatureTypes] (psbt : Psbt) (sigs : InputSigs) :
    Result SignError Psbt := do
  let psbtInput ← (psbt.checkedInput sigs.index).mapErr .indexOutOfBounds
  if sigs.signatures.isEmpty then
    .ok psbt
  else
    match sigs.signatures with
    | .ecdsa signatures => do
        let first ← Psbt.expect signatures.head?
        let psbtInput := signatures.foldl Input.insertPartialSig psbtInput
        let psbt := { psbt with inputs := psbt.inputs.set sigs.index psbtInput }
        .ok (psbt.clearTxModifiable (.ofEcdsa (ecdsaSighashType first.2)))
    | .taproot signatures => do
        let first ← Psbt.expect signatures.head?
        let psbtInput := signatures.foldl Input.insertTapSig psbtInput
        let psbt := { psbt with inputs := psbt.inputs.set sigs.index psbtInput }
        .ok (psbt.clearTxModifiable (.ofTaproot (taprootSighashType first.2)))

/-- `Signer::apply`. -/
def apply [SignatureTypes] (self : Signer) (sigs : List InputSigs) : Result SignError Psbt :=
  sigs.foldlM applyInputSigs self.psbt

/-- A signer is made exactly of PSBTs that have an unsigned transaction. -/
theorem new_eq_ok {psbt : Psbt} {signer : Signer} :
    new psbt = .ok signer ↔ signer.psbt = psbt := by
  unfold new
  constructor
  · intro h
    split at h
    · cases h
      rfl
    · cases h
  · rintro rfl
    split
    · rename_i cache h
      have hcache : cache = signer.cache := by
        rw [signer.unsignedTx_eq] at h
        exact (Except.ok.inj h).symm
      subst hcache
      rfl
    · rename_i e h
      rw [signer.unsignedTx_eq] at h
      cases h

/-- The `expect` of `Signer::unsigned_tx` is never reached. -/
theorem unsignedTx_eq_ok (self : Signer) : self.unsignedTx = .ok self.cache := by
  unfold unsignedTx
  rw [self.unsignedTx_eq]
  rfl

end Signer

/-! ## What signing changes -/

namespace Input

/-- The inputs differ in their signatures only. -/
def SameButSigs (self other : Input) : Prop :=
  other = { self with
    partialSigs := other.partialSigs
    tapKeySig := other.tapKeySig
    tapScriptSigs := other.tapScriptSigs }

theorem SameButSigs.refl (i : Input) : SameButSigs i i :=
  rfl

theorem SameButSigs.trans {i j k : Input} (hij : SameButSigs i j) (hjk : SameButSigs j k) :
    SameButSigs i k := by
  unfold SameButSigs at *
  rw [hjk, hij]

theorem sameButSigs_insertPartialSig (i : Input) (entry : PublicKey × EcdsaSignature) :
    SameButSigs i (i.insertPartialSig entry) :=
  rfl

theorem sameButSigs_insertTapSig (i : Input) (entry : TapKeyMaterial × TaprootSignature) :
    SameButSigs i (i.insertTapSig entry) := by
  unfold insertTapSig
  split <;> rfl

/-- A loop whose rounds change signatures only changes signatures only. -/
theorem sameButSigs_foldl {α : Type} {f : Input → α → Input}
    (hf : ∀ i a, SameButSigs i (f i a)) (l : List α) (i : Input) :
    SameButSigs i (l.foldl f i) := by
  induction l generalizing i with
  | nil => exact .refl i
  | cons a l ih => exact (hf i a).trans (ih (f i a))

end Input

namespace Psbt

/-- The right PSBT is the left one with other signatures and with more restrictive
modification flags. -/
structure SameButSigs (p q : Psbt) : Prop where
  global : q.global =
    { p.global with txModifiableFlags := q.global.txModifiableFlags }
  flags : q.global.txModifiableFlags.AtMost p.global.txModifiableFlags
  inputs : List.Forall₂ Input.SameButSigs p.inputs q.inputs
  outputs : q.outputs = p.outputs

theorem SameButSigs.refl (p : Psbt) : SameButSigs p p where
  global := rfl
  flags := .refl _
  inputs := List.forall₂_same.mpr fun i _ => .refl i
  outputs := rfl

theorem SameButSigs.trans {p q r : Psbt} (hpq : SameButSigs p q) (hqr : SameButSigs q r) :
    SameButSigs p r where
  global := by rw [hqr.global, hpq.global]
  flags := hqr.flags.trans hpq.flags
  inputs := by
    have hlen : p.inputs.length = r.inputs.length :=
      hpq.inputs.length_eq.trans hqr.inputs.length_eq
    refine List.forall₂_iff_get.mpr ⟨hlen, fun i hp hr => ?_⟩
    have hq : i < q.inputs.length := hpq.inputs.length_eq ▸ hp
    exact (hpq.inputs.get hp hq).trans (hqr.inputs.get hq hr)
  outputs := hqr.outputs.trans hpq.outputs

/-- Replacing the signatures of one input and restricting the flags. -/
theorem sameButSigs_set {p : Psbt} {index : Nat} {i j : Input} (ty : PsbtSighashType)
    (hi : p.inputs[index]? = some i) (hij : Input.SameButSigs i j) :
    SameButSigs p ({ p with inputs := p.inputs.set index j }.clearTxModifiable ty) where
  global := rfl
  flags := TxModifiableFlags.atMost_applySighash _ ty
  inputs := by
    change List.Forall₂ Input.SameButSigs p.inputs (p.inputs.set index j)
    refine List.forall₂_iff_get.mpr ⟨(List.length_set).symm, fun k hk hk' => ?_⟩
    simp only [List.get_eq_getElem, List.getElem_set]
    split
    · rename_i heq
      subst heq
      obtain ⟨_, hget⟩ := List.getElem?_eq_some_iff.mp hi
      rw [hget]
      exact hij
    · exact .refl _
  outputs := rfl

/-- Inputs that differ in their signatures only have equal transaction inputs and
lock time requirements. -/
theorem SameButSigs.map_inputs {β : Type} {p q : Psbt} (h : SameButSigs p q) {f : Input → β}
    (hf : ∀ i j, Input.SameButSigs i j → f j = f i) : q.inputs.map f = p.inputs.map f := by
  have hmap : List.Forall₂ Input.SameButSigs p.inputs q.inputs := h.inputs
  generalize p.inputs = l at hmap ⊢
  generalize q.inputs = m at hmap ⊢
  induction hmap with
  | nil => rfl
  | cons hij _ ih => rw [List.map_cons, List.map_cons, hf _ _ hij, ih]

end Psbt

namespace Signer

variable [SignatureTypes]

/-- Applying the signatures of one input changes signatures and restricts the
flags. -/
theorem applyInputSigs_spec {p q : Psbt} {sigs : InputSigs}
    (h : applyInputSigs p sigs = .ok q) : Psbt.SameButSigs p q := by
  obtain ⟨i, hi, hrest⟩ := Result.bind_eq_ok.mp h
  have hget : p.inputs[sigs.index]? = some i :=
    (Psbt.checkedInput_eq_ok.mp (Result.mapErr_eq_ok.mp hi)).2
  split at hrest
  · cases hrest
    exact .refl p
  · split at hrest
    · rename_i signatures _
      obtain ⟨first, -, hset⟩ := Result.bind_eq_ok.mp hrest
      cases hset
      exact Psbt.sameButSigs_set _ hget
        (Input.sameButSigs_foldl Input.sameButSigs_insertPartialSig signatures i)
    · rename_i signatures _
      obtain ⟨first, -, hset⟩ := Result.bind_eq_ok.mp hrest
      cases hset
      exact Psbt.sameButSigs_set _ hget
        (Input.sameButSigs_foldl Input.sameButSigs_insertTapSig signatures i)

/-- Applying signatures changes signatures and restricts the flags. -/
theorem apply_spec {signer : Signer} {sigs : List InputSigs} {q : Psbt}
    (h : signer.apply sigs = .ok q) : Psbt.SameButSigs signer.psbt q := by
  unfold apply at h
  generalize signer.psbt = p at h
  induction sigs generalizing p with
  | nil =>
      cases h
      exact .refl _
  | cons s sigs ih =>
      rw [List.foldlM_cons] at h
      obtain ⟨r, hr, hrest⟩ := Result.bind_eq_ok.mp h
      exact (applyInputSigs_spec hr).trans (ih r hrest)

/-- Applying the signatures of one input returns. -/
theorem returns_applyInputSigs (p : Psbt) (sigs : InputSigs) :
    (applyInputSigs p sigs).Returns := by
  apply Result.Returns.bind
  · rw [Result.returns_mapErr]
    exact p.returns_checkedInput sigs.index
  · intro i _
    split
    · trivial
    · rename_i hempty
      -- the emptiness check above keeps `first` from failing
      cases hs : sigs.signatures with
      | ecdsa signatures =>
          cases signatures with
          | nil => simp [hs, TypedSigs.isEmpty, TypedSigs.len] at hempty
          | cons s signatures => trivial
      | taproot signatures =>
          cases signatures with
          | nil => simp [hs, TypedSigs.isEmpty, TypedSigs.len] at hempty
          | cons s signatures => trivial

/-- Applying signatures returns: no `expect` is reached. -/
theorem returns_apply (signer : Signer) (sigs : List InputSigs) :
    (signer.apply sigs).Returns := by
  unfold apply
  generalize signer.psbt = p
  induction sigs generalizing p with
  | nil => trivial
  | cons s sigs ih =>
      rw [List.foldlM_cons]
      exact (returns_applyInputSigs p s).bind fun q _ => ih q

end Signer

/-! ## Signed copies -/

namespace Psbt

variable [SignatureTypes]

/-- One signer made `q` of `p`. -/
def Signs (p q : Psbt) : Prop :=
  ∃ (signer : Signer) (sigs : List InputSigs),
    Signer.new p = .ok signer ∧ signer.apply sigs = .ok q

/-- Signers made `q` of `p`, one after another. -/
def SignedFrom : Psbt → Psbt → Prop :=
  Relation.ReflTransGen Signs

theorem Signs.spec {p q : Psbt} (h : Signs p q) : SameButSigs p q := by
  obtain ⟨signer, sigs, hnew, happly⟩ := h
  have hpsbt : signer.psbt = p := Signer.new_eq_ok.mp hnew
  rw [← hpsbt]
  exact Signer.apply_spec happly

/-- Signers change signatures and restrict the flags. -/
theorem SignedFrom.spec {p q : Psbt} (h : SignedFrom p q) : SameButSigs p q := by
  induction h with
  | refl => exact .refl p
  | tail _ hstep ih => exact ih.trans hstep.spec

end Psbt

end RustPsbt
