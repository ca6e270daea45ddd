import RustPsbt.Psbt
import RustPsbt.Map.TxModifiableFlags

/-!
# The Constructor

Which PSBTs a Constructor accepts, by the modification flags, and what it does to them.

Main results:

- Theorem `Constructor.rejectedAlike_iff`: PSBTs are rejected alike exactly if they allow
  the same modifications.
-/

namespace RustPsbt

variable [BitcoinTypes]

/-- `InputsNotModifiableError`. -/
inductive InputsNotModifiableError where
  | mk
deriving DecidableEq

/-- `OutputsNotModifiableError`. -/
inductive OutputsNotModifiableError where
  | mk
deriving DecidableEq

/-- `PsbtNotModifiableError`. -/
inductive PsbtNotModifiableError where
  | outputs (e : OutputsNotModifiableError)
  | inputs (e : InputsNotModifiableError)
deriving DecidableEq

/-- The markers that implement `Mod`. -/
inductive Mod where
  | modifiable
  | inputsOnlyModifiable
  | outputsOnlyModifiable

/-- The Constructor has a method that adds inputs. -/
def Mod.addsInputs : Mod → Bool
  | modifiable | inputsOnlyModifiable => true
  | outputsOnlyModifiable => false

/-- The Constructor has a method that adds outputs. -/
def Mod.addsOutputs : Mod → Bool
  | modifiable | outputsOnlyModifiable => true
  | inputsOnlyModifiable => false

/-- `Constructor<T>`. -/
structure Constructor (T : Mod) where
  psbt : Psbt

namespace Constructor

/-- `Constructor::<Modifiable>::new`. -/
def new (psbt : Psbt) : Result PsbtNotModifiableError (Constructor .modifiable) :=
  if !psbt.global.txModifiableFlags.isInputsModifiable then
    .err (.inputs .mk)
  else if !psbt.global.txModifiableFlags.isOutputsModifiable then
    .err (.outputs .mk)
  else
    .ok ⟨psbt⟩

/-- `Constructor::<InputsOnlyModifiable>::new`. -/
def newInputsOnly (psbt : Psbt) :
    Result InputsNotModifiableError (Constructor .inputsOnlyModifiable) :=
  if psbt.global.txModifiableFlags.isInputsModifiable then .ok ⟨psbt⟩ else .err .mk

/-- `Constructor::<OutputsOnlyModifiable>::new`. -/
def newOutputsOnly (psbt : Psbt) :
    Result OutputsNotModifiableError (Constructor .outputsOnlyModifiable) :=
  if psbt.global.txModifiableFlags.isOutputsModifiable then .ok ⟨psbt⟩ else .err .mk

/-- The PSBTs that a Constructor of both markers takes over. -/
theorem new_eq_ok {p : Psbt} {c : Constructor .modifiable} :
    new p = .ok c ↔ c.psbt = p ∧ p.global.txModifiableFlags.isInputsModifiable ∧
      p.global.txModifiableFlags.isOutputsModifiable := by
  obtain ⟨psbt⟩ := c
  unfold new
  cases p.global.txModifiableFlags.isInputsModifiable <;>
    cases p.global.txModifiableFlags.isOutputsModifiable <;> simp [eq_comm]

/-- The PSBTs that a Constructor of inputs takes over. -/
theorem newInputsOnly_eq_ok {p : Psbt} {c : Constructor .inputsOnlyModifiable} :
    newInputsOnly p = .ok c ↔
      c.psbt = p ∧ p.global.txModifiableFlags.isInputsModifiable := by
  obtain ⟨psbt⟩ := c
  unfold newInputsOnly
  cases p.global.txModifiableFlags.isInputsModifiable <;> simp [eq_comm]

/-- The PSBTs that a Constructor of outputs takes over. -/
theorem newOutputsOnly_eq_ok {p : Psbt} {c : Constructor .outputsOnlyModifiable} :
    newOutputsOnly p = .ok c ↔
      c.psbt = p ∧ p.global.txModifiableFlags.isOutputsModifiable := by
  obtain ⟨psbt⟩ := c
  unfold newOutputsOnly
  cases p.global.txModifiableFlags.isOutputsModifiable <;> simp [eq_comm]

variable {T : Mod}

/-- `Constructor::no_more_inputs`. -/
def noMoreInputs (self : Constructor T) : Constructor T :=
  ⟨{ self.psbt with
    global := { self.psbt.global with
      txModifiableFlags := self.psbt.global.txModifiableFlags.clearInputsModifiable } }⟩

/-- `Constructor::no_more_outputs`. -/
def noMoreOutputs (self : Constructor T) : Constructor T :=
  ⟨{ self.psbt with
    global := { self.psbt.global with
      txModifiableFlags := self.psbt.global.txModifiableFlags.clearOutputsModifiable } }⟩

/-- `Constructor::psbt`. -/
def release (self : Constructor T) : Result DetermineLockTimeError Psbt := do
  let _ ← self.psbt.determineLockTime
  .ok self.psbt

/-- `input`, the same for both markers that have it. -/
def input (self : Constructor T) (_ : T.addsInputs) (input : Input) : Constructor T :=
  ⟨{ self.psbt with
    inputs := self.psbt.inputs ++ [input]
    global := { self.psbt.global with inputCount := self.psbt.global.inputCount + 1 } }⟩

/-- `output`, the same for both markers that have it. -/
def output (self : Constructor T) (_ : T.addsOutputs) (output : Output) :
    Result Output.ValidationError (Constructor T) := do
  output.validate
  .ok ⟨{ self.psbt with
    outputs := self.psbt.outputs ++ [output]
    global := { self.psbt.global with outputCount := self.psbt.global.outputCount + 1 } }⟩

/-- A Constructor releases its PSBT exactly if the lock time can be determined. -/
theorem release_eq_ok {self : Constructor T} {p : Psbt} :
    self.release = .ok p ↔ (∃ l, self.psbt.determineLockTime = .ok l) ∧ p = self.psbt := by
  unfold release
  rw [Result.bind_eq_ok]
  simp [eq_comm]

/-- An output is added exactly if it is valid. -/
theorem output_eq_ok {self c : Constructor T} {h : T.addsOutputs} {output : Output} :
    self.output h output = .ok c ↔ output.validate = .ok () ∧ c.psbt =
      { self.psbt with
        outputs := self.psbt.outputs ++ [output]
        global := { self.psbt.global with outputCount := self.psbt.global.outputCount + 1 } } := by
  unfold Constructor.output
  rw [Result.bind_eq_ok]
  obtain ⟨psbt⟩ := c
  constructor
  · intro ⟨⟨⟩, hvalid, hc⟩
    cases hc
    exact ⟨hvalid, rfl⟩
  · intro ⟨hvalid, hc⟩
    exact ⟨⟨⟩, hvalid, congrArg _ (congrArg _ hc.symm)⟩

/-- The Constructors of all three kinds reject the one PSBT exactly if they
reject the other. -/
def RejectedAlike (p q : Psbt) : Prop :=
  ((new p).IsErr ↔ (new q).IsErr) ∧
    ((newInputsOnly p).IsErr ↔ (newInputsOnly q).IsErr) ∧
    ((newOutputsOnly p).IsErr ↔ (newOutputsOnly q).IsErr)

theorem isErr_new {p : Psbt} :
    (new p).IsErr ↔ ¬(p.global.txModifiableFlags.isInputsModifiable ∧
      p.global.txModifiableFlags.isOutputsModifiable) := by
  unfold new
  cases p.global.txModifiableFlags.isInputsModifiable <;>
    cases p.global.txModifiableFlags.isOutputsModifiable <;> simp [Result.IsErr]

theorem isErr_newInputsOnly {p : Psbt} :
    (newInputsOnly p).IsErr ↔ ¬p.global.txModifiableFlags.isInputsModifiable := by
  unfold newInputsOnly
  by_cases h : p.global.txModifiableFlags.isInputsModifiable
  · simp [h, Result.IsErr]
  · rw [if_neg h]
    exact ⟨fun _ => h, fun _ => ⟨_, rfl⟩⟩

theorem isErr_newOutputsOnly {p : Psbt} :
    (newOutputsOnly p).IsErr ↔ ¬p.global.txModifiableFlags.isOutputsModifiable := by
  unfold newOutputsOnly
  by_cases h : p.global.txModifiableFlags.isOutputsModifiable
  · simp [h, Result.IsErr]
  · rw [if_neg h]
    exact ⟨fun _ => h, fun _ => ⟨_, rfl⟩⟩

/-- PSBTs are rejected alike exactly if they allow the same modifications. -/
theorem rejectedAlike_iff {p q : Psbt} :
    RejectedAlike p q ↔
      (p.global.txModifiableFlags.isInputsModifiable ↔
        q.global.txModifiableFlags.isInputsModifiable) ∧
      (p.global.txModifiableFlags.isOutputsModifiable ↔
        q.global.txModifiableFlags.isOutputsModifiable) := by
  unfold RejectedAlike
  rw [isErr_new, isErr_new, isErr_newInputsOnly, isErr_newInputsOnly, isErr_newOutputsOnly,
    isErr_newOutputsOnly, not_iff_not, not_iff_not, not_iff_not]
  constructor
  · rintro ⟨-, hin, hout⟩
    exact ⟨hin, hout⟩
  · rintro ⟨hin, hout⟩
    exact ⟨and_congr hin hout, hin, hout⟩

end Constructor

end RustPsbt
