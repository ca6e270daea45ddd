import Mathlib.Data.Vector.Basic
import RustPsbt.Reference.Signing
import RustPsbt.Roles.Creator
import RustPsbt.Roles.Extractor

/-!
# The Updater and the lock time

An Updater lends the inputs, the outputs and some global fields of its PSBT to a closure.
Updater, Signer, Finalizer and Extractor check once that the lock time can be determined,
and later expect it to be.

Main results:

- Theorem `Updater.sameShape_update`: what an update cannot change.
- Theorem `Role.lockTimeOk_iff`: the lock time stays determinable exactly where no update
  makes requirements conflict.
-/

namespace RustPsbt

section Generic

variable [BitcoinTypes]

/-! ## The Updater -/

/-- `UpdaterGlobalView`. -/
structure UpdaterGlobalView where
  xpubs : BTreeMap Xpub KeySource
  spEcdhShares : BTreeMap CompressedPublicKey CompressedPublicKey
  spDleqProofs : BTreeMap CompressedPublicKey DleqProof
  proprietaries : BTreeMap ProprietaryKey Bytes
  unknowns : BTreeMap Key Bytes

/-- `UpdaterView`: the slices have the lengths of the vectors they are taken from. -/
structure UpdaterView (inputCount outputCount : Nat) where
  global : UpdaterGlobalView
  inputs : List.Vector Input inputCount
  outputs : List.Vector Output outputCount

/-- What a closure makes of the view it is lent. -/
abbrev Update := (inputCount outputCount : Nat) →
  UpdaterView inputCount outputCount → UpdaterView inputCount outputCount

/-- `Updater`. -/
structure Updater where
  psbt : Psbt

namespace Updater

/-- `Updater::new`. -/
def new (psbt : Psbt) : Result DetermineLockTimeError Updater := do
  let _ ← psbt.determineLockTime
  .ok ⟨psbt⟩

/-- The view that `Updater::update` lends out. -/
def view (self : Updater) : UpdaterView self.psbt.inputs.length self.psbt.outputs.length where
  global := {
    xpubs := self.psbt.global.xpubs
    spEcdhShares := self.psbt.global.spEcdhShares
    spDleqProofs := self.psbt.global.spDleqProofs
    proprietaries := self.psbt.global.proprietaries
    unknowns := self.psbt.global.unknowns }
  inputs := ⟨self.psbt.inputs, rfl⟩
  outputs := ⟨self.psbt.outputs, rfl⟩

/-- `Updater::update`. -/
def update (self : Updater) (f : Update) : Updater :=
  let view := f _ _ self.view
  ⟨{ global := { self.psbt.global with
      xpubs := view.global.xpubs
      spEcdhShares := view.global.spEcdhShares
      spDleqProofs := view.global.spDleqProofs
      proprietaries := view.global.proprietaries
      unknowns := view.global.unknowns }
     inputs := view.inputs.toList
     outputs := view.outputs.toList }⟩

/-- `Updater::psbt`. -/
def release (self : Updater) : Result DetermineLockTimeError Psbt := do
  let _ ← self.psbt.determineLockTime
  .ok self.psbt

/-- `Updater::signer`. -/
def signer (self : Updater) : Result DetermineLockTimeError Signer := do
  Signer.new (← self.release)

/-- An Updater accepts a PSBT exactly if its lock time can be determined. -/
theorem new_eq_ok {p : Psbt} {u : Updater} :
    new p = .ok u ↔ (∃ l, p.determineLockTime = .ok l) ∧ u.psbt = p := by
  obtain ⟨psbt⟩ := u
  unfold new
  rw [Result.bind_eq_ok]
  simp [eq_comm]

/-- An Updater hands its PSBT to a Signer. -/
theorem psbt_of_signer {self : Updater} {signer : Signer} (h : self.signer = .ok signer) :
    signer.psbt = self.psbt := by
  obtain ⟨p, hp, hsigner⟩ := Result.bind_eq_ok.mp h
  obtain ⟨l, -, heq⟩ := Result.bind_eq_ok.mp hp
  rw [Signer.new_eq_ok.mp hsigner, ← Except.ok.inj heq]

/-- The PSBTs agree on what only Creator, Constructor and Signer may change. -/
structure SameShape (p q : Psbt) : Prop where
  version : q.global.version = p.global.version
  txVersion : q.global.txVersion = p.global.txVersion
  fallbackLockTime : q.global.fallbackLockTime = p.global.fallbackLockTime
  txModifiableFlags : q.global.txModifiableFlags = p.global.txModifiableFlags
  inputCount : q.global.inputCount = p.global.inputCount
  outputCount : q.global.outputCount = p.global.outputCount
  inputs_length : q.inputs.length = p.inputs.length
  outputs_length : q.outputs.length = p.outputs.length

/-- An update adds and removes nothing, and keeps the structural fields. -/
theorem sameShape_update (self : Updater) (f : Update) :
    SameShape self.psbt (self.update f).psbt where
  version := rfl
  txVersion := rfl
  fallbackLockTime := rfl
  txModifiableFlags := rfl
  inputCount := rfl
  outputCount := rfl
  inputs_length := List.Vector.toList_length _
  outputs_length := List.Vector.toList_length _

end Updater

/-- `Constructor::updater`. -/
def Constructor.updater {T : Mod} (self : Constructor T) :
    Result DetermineLockTimeError Updater := do
  let psbt ← self.noMoreInputs.noMoreOutputs.release
  .ok ⟨psbt⟩

/-! ## The roles that expect a lock time -/

variable [TxidHash] [SignatureTypes]

/-- `Signer::ecdsa_clear_tx_modifiable`: the cached transaction does not depend on the flags. -/
def Signer.ecdsaClearTxModifiable (self : Signer) (ty : EcdsaSighashType) : Signer where
  psbt := self.psbt.clearTxModifiable (.ofEcdsa ty)
  cache := self.cache
  unsignedTx_eq := self.unsignedTx_eq

/-- The roles that check the lock time when they are made. -/
inductive Role where
  | updater (self : Updater)
  | signer (self : Signer)
  | finalizer (self : Finalizer)
  | extractor (self : Extractor)

/-- The public operations after which the role goes on. -/
inductive RoleOp where
  /-- `id`, `unsigned_tx`, `as_psbt`, `session`, `finalize` and the extracting functions:
  they read the PSBT only. -/
  | read
  /-- `Signer::ecdsa_clear_tx_modifiable`. -/
  | ecdsaClearTxModifiable (ty : EcdsaSighashType)
  /-- `Updater::update`. -/
  | update (f : Update)
  /-- `Updater::signer`. -/
  | signer

namespace Role

/-- The PSBT of the role. -/
def psbt : Role → Psbt
  | .updater self => self.psbt
  | .signer self => self.psbt
  | .finalizer self => self.psbt
  | .extractor self => self.psbt

/-- `id`, the same for all roles. -/
def id (self : Role) : Result Empty Txid :=
  Psbt.expect self.psbt.id.toOption

/-- One operation. -/
def step : Role → RoleOp → Option Role
  | r, .read => some r
  | .updater self, .update f => some (.updater (self.update f))
  | .updater self, .signer => self.signer.toOption.map .signer
  | .signer self, .ecdsaClearTxModifiable ty => some (.signer (self.ecdsaClearTxModifiable ty))
  | _, _ => none

/-- The ways to obtain a role, apart from `Updater::signer`. -/
inductive Obtained : Role → Prop where
  | updater {p : Psbt} {u : Updater} (h : Updater.new p = .ok u) : Obtained (.updater u)
  | constructor {T : Mod} {c : Constructor T} {u : Updater} (h : c.updater = .ok u) :
      Obtained (.updater u)
  | signer {p : Psbt} {s : Signer} (h : Signer.new p = .ok s) : Obtained (.signer s)
  | finalizer {p : Psbt} {f : Finalizer} (h : Finalizer.new p = .ok f) :
      Obtained (.finalizer f)
  | extractor {p : Psbt} {e : Extractor} (h : Extractor.new p = .ok e) :
      Obtained (.extractor e)

/-- The lock time can be determined, and no `expect` of that is reached. -/
structure LockTimeOk (r : Role) : Prop where
  lockTime : ∃ l, r.psbt.determineLockTime = .ok l
  id : ∃ txid, r.id = .ok txid
  unsignedTx : ∀ s, r = .signer s → ∃ tx, s.unsignedTx = .ok tx

/-- The operation is no update that leaves one input with a time only and another with a
height only. -/
def KeepsLockTime : Role → RoleOp → Prop
  | .updater self, .update f => ¬Psbt.LockTimeConflict (f _ _ self.view).inputs.toList
  | _, _ => True

/-- A role is in order exactly while no requirements conflict. -/
theorem lockTimeOk_iff_not_conflict {r : Role} :
    r.LockTimeOk ↔ ¬Psbt.LockTimeConflict r.psbt.inputs := by
  rcases r.psbt.determineLockTime_spec with ⟨hconflict, herr⟩ | ⟨hconflict, l, -, hok⟩
  · refine ⟨fun h => ?_, fun h => absurd hconflict h⟩
    obtain ⟨l, hl⟩ := h.lockTime
    rw [herr] at hl
    cases hl
  · refine ⟨fun _ => hconflict, fun _ => ⟨⟨l, hok⟩, ?_, fun s _ => ⟨s.cache, s.unsignedTx_eq_ok⟩⟩⟩
    have htx : r.psbt.unsignedTx = .ok (r.psbt.unsignedTxAt l) :=
      Psbt.unsignedTx_eq_ok.mpr ⟨l, hok, rfl⟩
    simp [Role.id, Psbt.id, Psbt.idTx, htx, Psbt.expect]

/-- Every role is made with a lock time. -/
theorem Obtained.lockTimeOk {r : Role} (h : Obtained r) : r.LockTimeOk := by
  have hok {p : Psbt} {l : LockTime} (hl : p.determineLockTime = .ok l) :
      ¬Psbt.LockTimeConflict p.inputs := (Psbt.determineLockTime_eq_ok.mp hl).1
  rw [lockTimeOk_iff_not_conflict]
  cases h with
  | updater hnew =>
      obtain ⟨⟨l, hl⟩, rfl⟩ := Updater.new_eq_ok.mp hnew
      exact hok hl
  | constructor hupdater =>
      obtain ⟨p, hp, hu⟩ := Result.bind_eq_ok.mp hupdater
      obtain ⟨⟨l, hl⟩, rfl⟩ := Constructor.release_eq_ok.mp hp
      cases hu
      exact hok hl
  | @signer p s hnew =>
      obtain ⟨l, hl, -⟩ := Psbt.unsignedTx_eq_ok.mp s.unsignedTx_eq
      exact hok hl
  | @finalizer p f hnew =>
      obtain ⟨-, -, hrest⟩ := Result.bind_eq_ok.mp f.checked
      obtain ⟨l, hl, -⟩ := Result.bind_eq_ok.mp hrest
      exact hok (Result.mapErr_eq_ok.mp hl)
  | extractor hnew =>
      obtain ⟨rfl, -, ⟨l, hl⟩, -⟩ := Extractor.new_eq_ok.mp hnew
      exact hok hl

/-- One operation keeps the lock time exactly if it is no conflicting update. -/
theorem lockTimeOk_step {r r' : Role} {op : RoleOp} (h : r.LockTimeOk)
    (hstep : r.step op = some r') : r'.LockTimeOk ↔ r.KeepsLockTime op := by
  cases op with
  | read =>
      obtain rfl : r = r' := by
        cases r <;> exact Option.some_inj.mp hstep
      have hkeeps : r.KeepsLockTime .read := by
        cases r <;> trivial
      exact ⟨fun _ => hkeeps, fun _ => h⟩
  | update f =>
      cases r with
      | updater self =>
          obtain rfl := Option.some_inj.mp hstep
          exact lockTimeOk_iff_not_conflict
      | _ => cases hstep
  | ecdsaClearTxModifiable ty =>
      cases r with
      | signer self =>
          obtain rfl := Option.some_inj.mp hstep
          have hok : ¬Psbt.LockTimeConflict self.psbt.inputs := lockTimeOk_iff_not_conflict.mp h
          exact ⟨fun _ => trivial, fun _ => lockTimeOk_iff_not_conflict.mpr hok⟩
      | _ => cases hstep
  | signer =>
      cases r with
      | updater self =>
          obtain ⟨signer, hsigner, rfl⟩ := Option.map_eq_some_iff.mp hstep
          have hpsbt := Updater.psbt_of_signer (Result.toOption_eq_some.mp hsigner)
          have hok : ¬Psbt.LockTimeConflict signer.psbt.inputs :=
            hpsbt ▸ lockTimeOk_iff_not_conflict.mp h
          exact ⟨fun _ => trivial, fun _ => lockTimeOk_iff_not_conflict.mpr hok⟩
      | _ => cases hstep

/-- The lock time stays determinable in every state of a role exactly if no update makes
requirements conflict. -/
theorem lockTimeOk_iff {r : Role} {ops : List RoleOp} (h : Obtained r) :
    (∀ t, Runs.Reaches step r ops t → t.LockTimeOk) ↔
      ∀ t op t', Runs.Takes step r ops t op t' → t.KeepsLockTime op :=
  Runs.forall_reaches_iff h.lockTimeOk fun _ _ _ hok hstep => lockTimeOk_step hok hstep

end Role

end Generic

/-! ## Reference runs -/

namespace Role

attribute [local instance] Reference.types Reference.txidHash Reference.signatureTypes

/-- The update that sets a time on the first input and a height on the others. -/
def conflictingUpdate : Update := fun _ _ view =>
  { view with
    inputs := ⟨view.inputs.toList.mapIdx fun index i =>
        if index = 0 then { i with minTime := some Reference.time }
        else { i with minHeight := some Reference.height },
      by simp⟩ }

theorem lockTimeOk_iff_unsigned :
    (∀ t, Runs.Reaches step (.updater ⟨Reference.unsigned⟩) [.update conflictingUpdate] t →
        t.LockTimeOk) ↔
      ∀ t op t', Runs.Takes step (.updater ⟨Reference.unsigned⟩) [.update conflictingUpdate]
        t op t' → t.KeepsLockTime op :=
  lockTimeOk_iff (.updater (Updater.new_eq_ok.mpr ⟨⟨.zero, rfl⟩, rfl⟩))

/-- An update makes the lock time undeterminable. -/
theorem not_lockTimeOk_conflictingUpdate :
    ¬∀ (r : Role) (ops : List RoleOp), Obtained r →
      ∀ t, Runs.Reaches step r ops t → t.LockTimeOk := by
  intro h
  let psbt := Reference.psbt [Reference.input 0, Reference.input 1] [Reference.output [0x51]]
  have hobtained : Obtained (.updater ⟨psbt⟩) :=
    .updater (Updater.new_eq_ok.mpr ⟨⟨.zero, rfl⟩, rfl⟩)
  have hok := h _ [.update conflictingUpdate] hobtained _ (Runs.reaches_of_run rfl)
  have hconflict := lockTimeOk_iff_not_conflict.mp hok
  refine hconflict ⟨⟨_, List.mem_cons_self, ?_⟩, ⟨_, List.mem_cons_of_mem _ List.mem_cons_self, ?_⟩⟩
  · exact ⟨rfl, rfl⟩
  · exact ⟨rfl, rfl⟩

end Role

end RustPsbt
