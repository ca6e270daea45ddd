import RustPsbt.Library.Runs
import RustPsbt.Reference.Psbt
import RustPsbt.Roles.Constructor

/-!
# Creating and constructing

A Creator makes an empty PSBT and may become a Constructor, which appends inputs and
outputs.  A Constructor releases its PSBT, and another one may take it over.

Main results:

- Theorem `Stage.psbt_step`: what one operation does to the PSBT.
- Theorem `Stage.keepsFlag_iff`: inputs and outputs are appended under their flags
  exactly where none is appended after it was ruled out.
-/

namespace RustPsbt

section Generic

variable [BitcoinTypes]

/-! ## The Creator -/

/-- `Creator`. -/
structure Creator where
  released : Psbt

namespace Creator

/-- `Creator::new`. -/
def new : Creator :=
  ⟨{ global := .new, inputs := [], outputs := [] }⟩

/-- The Creator with other modification flags. -/
def mapFlags (self : Creator) (f : TxModifiableFlags → TxModifiableFlags) : Creator :=
  ⟨{ self.released with
    global := { self.released.global with
      txModifiableFlags := f self.released.global.txModifiableFlags } }⟩

/-- `Creator::fallback_lock_time`. -/
def fallbackLockTime (self : Creator) (fallback : LockTime) : Creator :=
  ⟨{ self.released with
    global := { self.released.global with fallbackLockTime := some fallback } }⟩

/-- `Creator::sighash_single`. -/
def sighashSingle (self : Creator) : Creator :=
  self.mapFlags .setSighashSingle

/-- `Creator::inputs_modifiable`. -/
def inputsModifiable (self : Creator) : Creator :=
  self.mapFlags .setInputsModifiable

/-- `Creator::outputs_modifiable`. -/
def outputsModifiable (self : Creator) : Creator :=
  self.mapFlags .setOutputsModifiable

/-- `Creator::transaction_version`. -/
def transactionVersion (self : Creator) (version : TxVersion) : Creator :=
  ⟨{ self.released with global := { self.released.global with txVersion := version } }⟩

/-- `Creator::constructor_modifiable`. -/
def constructorModifiable (self : Creator) : Constructor .modifiable :=
  ⟨((self.mapFlags .setInputsModifiable).mapFlags .setOutputsModifiable).released⟩

/-- `Creator::constructor_inputs_only_modifiable`. -/
def constructorInputsOnlyModifiable (self : Creator) : Constructor .inputsOnlyModifiable :=
  ⟨((self.mapFlags .setInputsModifiable).mapFlags .clearOutputsModifiable).released⟩

/-- `Creator::constructor_outputs_only_modifiable`. -/
def constructorOutputsOnlyModifiable (self : Creator) : Constructor .outputsOnlyModifiable :=
  ⟨((self.mapFlags .clearInputsModifiable).mapFlags .setOutputsModifiable).released⟩

/-- `Creator::psbt`. -/
def psbt (self : Creator) : Psbt :=
  self.released

/-- The Creators that the public operations build. -/
inductive Built : Creator → Prop where
  | new : Built .new
  | fallbackLockTime {c : Creator} (h : Built c) (fallback : LockTime) :
      Built (c.fallbackLockTime fallback)
  | sighashSingle {c : Creator} (h : Built c) : Built c.sighashSingle
  | inputsModifiable {c : Creator} (h : Built c) : Built c.inputsModifiable
  | outputsModifiable {c : Creator} (h : Built c) : Built c.outputsModifiable
  | transactionVersion {c : Creator} (h : Built c) (version : TxVersion) :
      Built (c.transactionVersion version)

end Creator

/-- `Default for Constructor<T>`. -/
def Constructor.default : (T : Mod) → Constructor T
  | .modifiable => Creator.new.constructorModifiable
  | .inputsOnlyModifiable => Creator.new.constructorInputsOnlyModifiable
  | .outputsOnlyModifiable => Creator.new.constructorOutputsOnlyModifiable

/-! ## Runs of Constructors -/

/-- A PSBT under construction, or between two Constructors. -/
inductive Stage where
  | constructor {T : Mod} (c : Constructor T)
  | released (p : Psbt)

/-- The operations of a Constructor, and taking over a PSBT. -/
inductive ConstructorOp where
  | input (i : Input)
  | output (o : Output)
  | noMoreInputs
  | noMoreOutputs
  | psbt
  | new (T : Mod)

namespace Stage

/-- The PSBT so far. -/
def psbt : Stage → Psbt
  | .constructor c => c.psbt
  | .released p => p

/-- The Constructor of the marker that takes over the PSBT. -/
def takeOver (p : Psbt) : Mod → Option Stage
  | .modifiable => (Constructor.new p).toOption.map .constructor
  | .inputsOnlyModifiable => (Constructor.newInputsOnly p).toOption.map .constructor
  | .outputsOnlyModifiable => (Constructor.newOutputsOnly p).toOption.map .constructor

/-- One operation; there is no next stage where the types rule the operation out or
where it returns an error. -/
def step : Stage → ConstructorOp → Option Stage
  | .constructor (T := T) c, .input i =>
      if h : T.addsInputs then some (.constructor (c.input h i)) else none
  | .constructor (T := T) c, .output o =>
      if h : T.addsOutputs then (c.output h o).toOption.map .constructor else none
  | .constructor c, .noMoreInputs => some (.constructor c.noMoreInputs)
  | .constructor c, .noMoreOutputs => some (.constructor c.noMoreOutputs)
  | .constructor c, .psbt => c.release.toOption.map .released
  | .released p, .new T => takeOver p T
  | _, _ => none

/-- The ways to obtain a Constructor. -/
inductive Obtained : Stage → Prop where
  | modifiable {c : Creator} (h : c.Built) : Obtained (.constructor c.constructorModifiable)
  | inputsOnlyModifiable {c : Creator} (h : c.Built) :
      Obtained (.constructor c.constructorInputsOnlyModifiable)
  | outputsOnlyModifiable {c : Creator} (h : c.Built) :
      Obtained (.constructor c.constructorOutputsOnlyModifiable)
  | default (T : Mod) : Obtained (.constructor (Constructor.default T))
  | new {p : Psbt} {T : Mod} {s : Stage} (h : takeOver p T = some s) : Obtained s

end Stage

/-! ## The two sides of a transaction -/

/-- Inputs or outputs. -/
inductive Side where
  | inputs
  | outputs

namespace Side

/-- The flag of the side. -/
def modifiable : Side → Stage → Bool
  | inputs, s => s.psbt.global.txModifiableFlags.isInputsModifiable
  | outputs, s => s.psbt.global.txModifiableFlags.isOutputsModifiable

/-- How many inputs or outputs there are. -/
def count : Side → Stage → Nat
  | inputs, s => s.psbt.inputs.length
  | outputs, s => s.psbt.outputs.length

omit [BitcoinTypes] in
/-- The Constructor has the method that appends to the side. -/
def adds : Side → Mod → Bool
  | inputs, T => T.addsInputs
  | outputs, T => T.addsOutputs

/-- The operation appends to the side. -/
def Appends : Side → ConstructorOp → Prop
  | inputs, op => ∃ i, op = .input i
  | outputs, op => ∃ o, op = .output o

/-- The operation rules out further appending. -/
def RulesOut : Side → ConstructorOp → Prop
  | inputs, op => op = .noMoreInputs
  | outputs, op => op = .noMoreOutputs

/-- A Constructor that has the method has the flag. -/
def FlagFitsType (side : Side) : Stage → Prop
  | .constructor (T := T) c => side.adds T → side.modifiable (.constructor c)
  | .released _ => True

end Side

namespace Stage

variable {s s' : Stage} {op : ConstructorOp}

/-- What one operation does. -/
theorem step_cases (h : s.step op = some s') :
    match op with
    | .input i => ∃ (T : Mod) (c : Constructor T) (hT : T.addsInputs),
        s = .constructor c ∧ s' = .constructor (c.input hT i)
    | .output o => ∃ (T : Mod) (c c' : Constructor T) (hT : T.addsOutputs),
        s = .constructor c ∧ c.output hT o = .ok c' ∧ s' = .constructor c'
    | .noMoreInputs => ∃ (T : Mod) (c : Constructor T),
        s = .constructor c ∧ s' = .constructor c.noMoreInputs
    | .noMoreOutputs => ∃ (T : Mod) (c : Constructor T),
        s = .constructor c ∧ s' = .constructor c.noMoreOutputs
    | .psbt => ∃ (T : Mod) (c : Constructor T), s = .constructor c ∧ s' = .released c.psbt
    | .new T => ∃ p, s = .released p ∧ takeOver p T = some s' := by
  cases s with
  | released p =>
      cases op with
      | new T => exact ⟨p, rfl, h⟩
      | _ => cases h
  | @constructor T c =>
      cases op with
      | input i =>
          by_cases hT : T.addsInputs
          · have hs' : some (constructor (c.input hT i)) = some s' := by simpa [step, hT] using h
            exact ⟨T, c, hT, rfl, (Option.some_inj.mp hs').symm⟩
          · simp [step, hT] at h
      | output o =>
          by_cases hT : T.addsOutputs
          · have hsome : (c.output hT o).toOption.map constructor = some s' := by
              simpa [step, hT] using h
            obtain ⟨c', hc', hs'⟩ := Option.map_eq_some_iff.mp hsome
            exact ⟨T, c, c', hT, rfl, Result.toOption_eq_some.mp hc', hs'.symm⟩
          · simp [step, hT] at h
      | noMoreInputs => exact ⟨T, c, rfl, (Option.some_inj.mp h).symm⟩
      | noMoreOutputs => exact ⟨T, c, rfl, (Option.some_inj.mp h).symm⟩
      | psbt =>
          obtain ⟨p, hp, hs'⟩ := Option.map_eq_some_iff.mp h
          obtain ⟨-, hpsbt⟩ := Constructor.release_eq_ok.mp (Result.toOption_eq_some.mp hp)
          exact ⟨T, c, rfl, hpsbt ▸ hs'.symm⟩
      | new T => cases h

/-- A Constructor that took over a PSBT holds it, and has the flags of its methods. -/
theorem takeOver_eq_some {p : Psbt} {T : Mod} (h : takeOver p T = some s) :
    s.psbt = p ∧ ∀ side : Side, side.FlagFitsType s := by
  cases T with
  | modifiable =>
      obtain ⟨c, hc, hs⟩ := Option.map_eq_some_iff.mp h
      obtain ⟨hpsbt, hinputs, houtputs⟩ := Constructor.new_eq_ok.mp (Result.toOption_eq_some.mp hc)
      subst hs hpsbt
      refine ⟨rfl, fun side => ?_⟩
      cases side with
      | inputs => exact fun _ => hinputs
      | outputs => exact fun _ => houtputs
  | inputsOnlyModifiable =>
      obtain ⟨c, hc, hs⟩ := Option.map_eq_some_iff.mp h
      obtain ⟨hpsbt, hinputs⟩ := Constructor.newInputsOnly_eq_ok.mp (Result.toOption_eq_some.mp hc)
      subst hs hpsbt
      refine ⟨rfl, fun side => ?_⟩
      cases side with
      | inputs => exact fun _ => hinputs
      | outputs => exact fun hadds => nomatch hadds
  | outputsOnlyModifiable =>
      obtain ⟨c, hc, hs⟩ := Option.map_eq_some_iff.mp h
      obtain ⟨hpsbt, houtputs⟩ :=
        Constructor.newOutputsOnly_eq_ok.mp (Result.toOption_eq_some.mp hc)
      subst hs hpsbt
      refine ⟨rfl, fun side => ?_⟩
      cases side with
      | inputs => exact fun hadds => nomatch hadds
      | outputs => exact fun _ => houtputs

/-- What one operation does to the PSBT. -/
theorem psbt_step (h : s.step op = some s') :
    match op with
    | .input i => s'.psbt =
        { s.psbt with
          inputs := s.psbt.inputs ++ [i]
          global := { s.psbt.global with inputCount := s.psbt.global.inputCount + 1 } }
    | .output o => s'.psbt =
        { s.psbt with
          outputs := s.psbt.outputs ++ [o]
          global := { s.psbt.global with outputCount := s.psbt.global.outputCount + 1 } }
    | .noMoreInputs => s'.psbt =
        { s.psbt with
          global := { s.psbt.global with
            txModifiableFlags := s.psbt.global.txModifiableFlags.clearInputsModifiable } }
    | .noMoreOutputs => s'.psbt =
        { s.psbt with
          global := { s.psbt.global with
            txModifiableFlags := s.psbt.global.txModifiableFlags.clearOutputsModifiable } }
    | .psbt | .new _ => s'.psbt = s.psbt := by
  have hcases := step_cases h
  cases op with
  | input i =>
      obtain ⟨T, c, hT, rfl, rfl⟩ := hcases
      rfl
  | output o =>
      obtain ⟨T, c, c', hT, rfl, hc', rfl⟩ := hcases
      exact (Constructor.output_eq_ok.mp hc').2
  | noMoreInputs =>
      obtain ⟨T, c, rfl, rfl⟩ := hcases
      rfl
  | noMoreOutputs =>
      obtain ⟨T, c, rfl, rfl⟩ := hcases
      rfl
  | psbt =>
      obtain ⟨T, c, rfl, rfl⟩ := hcases
      rfl
  | new T =>
      obtain ⟨p, rfl, htake⟩ := hcases
      exact (takeOver_eq_some htake).1

/-- An appending operation appends one entry. -/
theorem count_of_appends {side : Side} (h : s.step op = some s') (hop : side.Appends op) :
    side.count s' = side.count s + 1 := by
  cases side with
  | inputs =>
      obtain ⟨i, rfl⟩ := hop
      simp [Side.count, psbt_step h]
  | outputs =>
      obtain ⟨o, rfl⟩ := hop
      simp [Side.count, psbt_step h]

/-- Appending goes with the flag, where the flag fits the type. -/
theorem modifiable_of_appends {side : Side} (h : s.step op = some s') (hop : side.Appends op)
    (hfits : side.FlagFitsType s) : side.modifiable s := by
  cases side with
  | inputs =>
      obtain ⟨i, rfl⟩ := hop
      obtain ⟨T, c, hT, rfl, rfl⟩ := step_cases h
      exact hfits hT
  | outputs =>
      obtain ⟨o, rfl⟩ := hop
      obtain ⟨T, c, c', hT, rfl, -, rfl⟩ := step_cases h
      exact hfits hT

/-- No other operation appends. -/
theorem count_of_not_appends {side : Side} (h : s.step op = some s')
    (hop : ¬side.Appends op) : side.count s' = side.count s := by
  have hpsbt := psbt_step h
  cases side with
  | inputs =>
      cases op with
      | input i => exact absurd ⟨i, rfl⟩ hop
      | _ => simp [Side.count, hpsbt]
  | outputs =>
      cases op with
      | output o => exact absurd ⟨o, rfl⟩ hop
      | _ => simp [Side.count, hpsbt]

/-- Ruling out further appending clears the flag. -/
theorem not_modifiable_of_rulesOut {side : Side} (h : s.step op = some s')
    (hop : side.RulesOut op) : side.modifiable s' = false := by
  cases side with
  | inputs =>
      obtain rfl : op = .noMoreInputs := hop
      simp [Side.modifiable, psbt_step h]
  | outputs =>
      obtain rfl : op = .noMoreOutputs := hop
      simp [Side.modifiable, psbt_step h]

/-- No other operation changes the flag. -/
theorem modifiable_of_not_rulesOut {side : Side} (h : s.step op = some s')
    (hop : ¬side.RulesOut op) : side.modifiable s' = side.modifiable s := by
  have hpsbt := psbt_step h
  cases side with
  | inputs =>
      cases op with
      | noMoreInputs => exact absurd rfl hop
      | _ => simp [Side.modifiable, hpsbt]
  | outputs =>
      cases op with
      | noMoreOutputs => exact absurd rfl hop
      | _ => simp [Side.modifiable, hpsbt]

/-- No operation sets the flag. -/
theorem not_modifiable_step {side : Side} (h : s.step op = some s')
    (hclosed : side.modifiable s = false) : side.modifiable s' = false := by
  by_cases hop : side.RulesOut op
  · exact not_modifiable_of_rulesOut h hop
  · rw [modifiable_of_not_rulesOut h hop, hclosed]

/-- Only ruling out makes a flag disagree with the type. -/
theorem flagFitsType_step {side : Side} (h : s.step op = some s') (hop : ¬side.RulesOut op)
    (hfits : side.FlagFitsType s) : side.FlagFitsType s' := by
  have hflag := modifiable_of_not_rulesOut h hop
  have hcases := step_cases h
  cases op with
  | input i =>
      obtain ⟨T, c, hT, rfl, rfl⟩ := hcases
      exact fun hadds => hflag.trans (hfits hadds)
  | output o =>
      obtain ⟨T, c, c', hT, rfl, hc', rfl⟩ := hcases
      exact fun hadds => hflag.trans (hfits hadds)
  | noMoreInputs =>
      obtain ⟨T, c, rfl, rfl⟩ := hcases
      exact fun hadds => hflag.trans (hfits hadds)
  | noMoreOutputs =>
      obtain ⟨T, c, rfl, rfl⟩ := hcases
      exact fun hadds => hflag.trans (hfits hadds)
  | psbt =>
      obtain ⟨T, c, rfl, rfl⟩ := hcases
      trivial
  | new T =>
      obtain ⟨p, rfl, htake⟩ := hcases
      exact (takeOver_eq_some htake).2 side

/-- Every Constructor starts with the flags of its methods. -/
theorem Obtained.flagFitsType (h : Obtained s) (side : Side) : side.FlagFitsType s := by
  have hmodifiable (c : Creator) :
      side.FlagFitsType (.constructor c.constructorModifiable) := by
    cases side with
    | inputs => exact fun _ => by simp [Side.modifiable, psbt, Creator.constructorModifiable,
        Creator.mapFlags]
    | outputs => exact fun _ => by simp [Side.modifiable, psbt, Creator.constructorModifiable,
        Creator.mapFlags]
  have hinputs (c : Creator) :
      side.FlagFitsType (.constructor c.constructorInputsOnlyModifiable) := by
    cases side with
    | inputs => exact fun _ => by simp [Side.modifiable, psbt,
        Creator.constructorInputsOnlyModifiable, Creator.mapFlags]
    | outputs => exact fun hadds => nomatch hadds
  have houtputs (c : Creator) :
      side.FlagFitsType (.constructor c.constructorOutputsOnlyModifiable) := by
    cases side with
    | inputs => exact fun hadds => nomatch hadds
    | outputs => exact fun _ => by simp [Side.modifiable, psbt,
        Creator.constructorOutputsOnlyModifiable, Creator.mapFlags]
  cases h with
  | modifiable _ => exact hmodifiable _
  | inputsOnlyModifiable _ => exact hinputs _
  | outputsOnlyModifiable _ => exact houtputs _
  | default T =>
      cases T with
      | modifiable => exact hmodifiable _
      | inputsOnlyModifiable => exact hinputs _
      | outputsOnlyModifiable => exact houtputs _
  | new htake => exact (takeOver_eq_some htake).2 side

/-! ## Whole runs -/

/-- Entries of the side are appended only under its flag, and a cleared flag stays
cleared with no entry appended afterwards. -/
structure KeepsFlag (side : Side) (s₀ : Stage) (ops : List ConstructorOp) : Prop where
  appends : ∀ s op s', Runs.Takes step s₀ ops s op s' → side.count s' ≠ side.count s →
    side.modifiable s
  closed : ∀ (pre mid post : List ConstructorOp) (s s' : Stage), ops = pre ++ (mid ++ post) →
    Runs.run step s₀ pre = some s → Runs.run step s mid = some s' →
    side.modifiable s = false → side.modifiable s' = false ∧ side.count s' = side.count s

/-- Nothing is appended to the side after that was ruled out. -/
def NeverAppendsAfter (side : Side) (ops : List ConstructorOp) : Prop :=
  ∀ (pre mid post : List ConstructorOp) (op op' : ConstructorOp),
    ops = pre ++ op :: (mid ++ op' :: post) → side.RulesOut op → ¬side.Appends op'

variable {side : Side} {s₀ : Stage} {ops : List ConstructorOp}

/-- Until further appending is ruled out, the flag fits the type. -/
theorem flagFitsType_of_run (h₀ : Obtained s₀) (hrun : Runs.run step s₀ ops = some s)
    (hnone : ∀ op ∈ ops, ¬side.RulesOut op) : side.FlagFitsType s := by
  refine (Runs.reaches_of_run hrun).invariant (h₀.flagFitsType side) fun u op u' htakes hu => ?_
  exact flagFitsType_step htakes.step_eq (hnone op htakes.mem) hu

/-- A cleared flag stays cleared, and with it the entries as they are, where appending
goes with the flag. -/
theorem closed_of_run
    (happends : ∀ u op u', Runs.Takes step s ops u op u' → side.count u' ≠ side.count u →
      side.modifiable u)
    (hrun : Runs.run step s ops = some s') (hclosed : side.modifiable s = false) :
    side.modifiable s' = false ∧ side.count s' = side.count s := by
  refine (Runs.reaches_of_run hrun).invariant
    (P := fun u => side.modifiable u = false ∧ side.count u = side.count s) ⟨hclosed, rfl⟩
    fun u op u' htakes hu => ?_
  refine ⟨not_modifiable_step htakes.step_eq hu.1, ?_⟩
  by_contra hne
  have hopen := happends u op u' htakes fun heq => hne (heq.trans hu.2)
  rw [hu.1] at hopen
  cases hopen

/-- The flag is kept where nothing is appended after that was ruled out. -/
theorem NeverAppendsAfter.keepsFlag (h₀ : Obtained s₀) (h : NeverAppendsAfter side ops) :
    KeepsFlag side s₀ ops := by
  have happends : ∀ u op u', Runs.Takes step s₀ ops u op u' →
      side.count u' ≠ side.count u → side.modifiable u := by
    intro u op u' htakes hne
    have hop : side.Appends op := by
      by_contra hop
      exact hne (count_of_not_appends htakes.step_eq hop)
    obtain ⟨pre, post, hops, hrun, hstep⟩ := htakes
    refine modifiable_of_appends hstep hop (flagFitsType_of_run h₀ hrun fun a ha hrules => ?_)
    obtain ⟨before, after, rfl⟩ := List.append_of_mem ha
    exact h before after post a op (by simp [hops]) hrules hop
  refine ⟨happends, fun pre mid post s s' hops hpre hmid hclosed => ?_⟩
  exact closed_of_run (fun u op u' htakes => happends u op u' (htakes.of_part hops hpre))
    hmid hclosed

/-- Nothing is appended after that was ruled out where the flag is kept. -/
theorem KeepsFlag.neverAppendsAfter (h : KeepsFlag side s₀ ops)
    (hrun : Runs.run step s₀ ops = some s) : NeverAppendsAfter side ops := by
  intro pre mid post op op' hops hrules hop'
  rw [hops, Runs.run_append, Option.bind_eq_some_iff] at hrun
  obtain ⟨t, ht, hrun⟩ := hrun
  rw [Runs.run_cons, Option.bind_eq_some_iff] at hrun
  obtain ⟨u, hu, hrun⟩ := hrun
  rw [Runs.run_append, Option.bind_eq_some_iff] at hrun
  obtain ⟨v, hv, hrun⟩ := hrun
  rw [Runs.run_cons, Option.bind_eq_some_iff] at hrun
  obtain ⟨w, hw, -⟩ := hrun
  have hpre : Runs.run step s₀ (pre ++ [op]) = some u :=
    Runs.run_concat_eq_some.mpr ⟨t, ht, hu⟩
  have hmid : Runs.run step u (mid ++ [op']) = some w :=
    Runs.run_concat_eq_some.mpr ⟨v, hv, hw⟩
  have hclosed := not_modifiable_of_rulesOut hu hrules
  have hfirst := (h.closed (pre ++ [op]) mid (op' :: post) u v (by simp [hops]) hpre hv
    hclosed).2
  have hboth := (h.closed (pre ++ [op]) (mid ++ [op']) post u w (by simp [hops]) hpre hmid
    hclosed).2
  have happend := count_of_appends hw hop'
  omega

/-- However a Constructor is obtained, the operations keep both flags exactly if no input
is appended after `no_more_inputs` and no output after `no_more_outputs`. -/
theorem keepsFlag_iff (h₀ : Obtained s₀) (hrun : Runs.run step s₀ ops = some s) :
    (∀ side, KeepsFlag side s₀ ops) ↔ ∀ side, NeverAppendsAfter side ops :=
  ⟨fun h side => (h side).neverAppendsAfter hrun, fun h side => (h side).keepsFlag h₀⟩

end Stage

end Generic

/-! ## Reference runs -/

namespace Stage

attribute [local instance] Reference.types

theorem keepsFlag_iff_output :
    (∀ side, KeepsFlag side (.constructor (Constructor.default .modifiable))
        [.noMoreInputs, .output (Reference.output [0x51])]) ↔
      ∀ side, NeverAppendsAfter side [.noMoreInputs, .output (Reference.output [0x51])] :=
  keepsFlag_iff (.default .modifiable) rfl

/-- An input is appended after it was ruled out. -/
theorem not_keepsFlag_input :
    ¬∀ (s₀ : Stage) (ops : List ConstructorOp) (side : Side), Obtained s₀ →
      KeepsFlag side s₀ ops := by
  intro h
  have hkeeps := h (.constructor (Constructor.default .modifiable))
    [.noMoreInputs, .input (Reference.input 0)] .inputs (.default .modifiable)
  have hnever := hkeeps.neverAppendsAfter rfl
  exact hnever [] [] [] .noMoreInputs (.input (Reference.input 0)) rfl rfl ⟨_, rfl⟩

end Stage

end RustPsbt
