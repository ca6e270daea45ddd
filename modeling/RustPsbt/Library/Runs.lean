import Mathlib.Data.List.Induction
import Mathlib.Tactic.Common

/-!
# Runs of a machine

A machine takes operations one after another.  An operation may be impossible in a
state, and then it ends the run.

Main results:

- Theorem `Runs.Reaches.invariant`: what the steps taken preserve holds in every state
  reached.
- Theorem `Runs.forall_reaches_iff`: a property holds in every state reached exactly if
  every step taken meets its condition.
-/

namespace RustPsbt
namespace Runs

variable {σ ο : Type} (step : σ → ο → Option σ)

/-- The state after the operations, if all of them are possible. -/
def run (s : σ) (ops : List ο) : Option σ :=
  ops.foldlM step s

/-- The state occurs in the run. -/
def Reaches (s : σ) (ops : List ο) (t : σ) : Prop :=
  ∃ pre post, ops = pre ++ post ∧ run step s pre = some t

/-- The step occurs in the run. -/
def Takes (s : σ) (ops : List ο) (t : σ) (op : ο) (t' : σ) : Prop :=
  ∃ pre post, ops = pre ++ op :: post ∧ run step s pre = some t ∧ step t op = some t'

variable {step} {s t u : σ} {op : ο} {ops ops' : List ο}

@[simp]
theorem run_nil : run step s [] = some s :=
  rfl

@[simp]
theorem run_cons : run step s (op :: ops) = (step s op).bind fun t => run step t ops := by
  unfold run
  rw [List.foldlM_cons]
  rfl

/-- The operations of one list come before those of the other. -/
theorem run_append :
    run step s (ops ++ ops') = (run step s ops).bind fun t => run step t ops' := by
  unfold run
  rw [List.foldlM_append]
  rfl

/-- One more operation is one more step. -/
theorem run_concat_eq_some :
    run step s (ops ++ [op]) = some u ↔ ∃ t, run step s ops = some t ∧ step t op = some u := by
  rw [run_append, Option.bind_eq_some_iff]
  simp

/-! ## Invariants -/

/-- The run ends in its last state. -/
theorem reaches_of_run (h : run step s ops = some t) : Reaches step s ops t :=
  ⟨ops, [], (List.append_nil ops).symm, h⟩

theorem Takes.step_eq (h : Takes step s ops t op u) : step t op = some u := by
  obtain ⟨_, _, _, _, hstep⟩ := h
  exact hstep

theorem Takes.mem (h : Takes step s ops t op u) : op ∈ ops := by
  obtain ⟨pre, post, hops, -, -⟩ := h
  simp [hops]

/-- The steps of a part of the run are steps of the run. -/
theorem Takes.of_part {v : σ} {pre mid post : List ο} (h : Takes step t mid u op v)
    (hops : ops = pre ++ (mid ++ post)) (hpre : run step s pre = some t) :
    Takes step s ops u op v := by
  obtain ⟨pre', post', rfl, hrun, hstep⟩ := h
  refine ⟨pre ++ pre', post' ++ post, by simp [hops], ?_, hstep⟩
  rw [run_append, hpre]
  exact hrun

/-- A step that is taken leads from one state of the run to another. -/
theorem Takes.reaches (h : Takes step s ops t op u) :
    Reaches step s ops t ∧ Reaches step s ops u := by
  obtain ⟨pre, post, rfl, hrun, hstep⟩ := h
  refine ⟨⟨pre, op :: post, rfl, hrun⟩, pre ++ [op], post, by simp, ?_⟩
  exact run_concat_eq_some.mpr ⟨t, hrun, hstep⟩

/-- What the steps taken preserve holds in every state reached. -/
theorem Reaches.invariant {P : σ → Prop} (h : Reaches step s ops t) (hinit : P s)
    (hstep : ∀ u op u', Takes step s ops u op u' → P u → P u') : P t := by
  obtain ⟨pre, post, hops, hrun⟩ := h
  -- the states are followed backwards, so that the steps stay steps of this run
  induction pre using List.reverseRecOn generalizing post t with
  | nil =>
      cases hrun
      exact hinit
  | append_singleton pre op ih =>
      obtain ⟨u, hu, hop⟩ := run_concat_eq_some.mp hrun
      have hops' : ops = pre ++ op :: post := by simpa using hops
      exact hstep u op t ⟨pre, post, hops', hu, hop⟩ (ih (op :: post) hops' hu)

/-- A property holds in every state reached exactly if every step taken meets the
condition under which it keeps the property. -/
theorem forall_reaches_iff {P : σ → Prop} {C : σ → ο → Prop} (hinit : P s)
    (hstep : ∀ u op u', P u → step u op = some u' → (P u' ↔ C u op)) :
    (∀ t, Reaches step s ops t → P t) ↔ ∀ t op t', Takes step s ops t op t' → C t op := by
  constructor
  · intro h t op t' htakes
    have hkeeps := hstep t op t' (h t htakes.reaches.1) htakes.step_eq
    exact hkeeps.mp (h t' htakes.reaches.2)
  · intro h t ht
    refine ht.invariant hinit fun u op u' htakes hu => ?_
    exact (hstep u op u' hu htakes.step_eq).mpr (h u op u' htakes)

end Runs
end RustPsbt
