import Mathlib.Tactic.Common

/-!
# Encoders that walk through groups

An encoder of a record is in a group of the record or at the separator behind the last
group; a transition function says which group comes next.  It is drained state by state.

Main results:

- Theorem `EncoderState.drain_eq`: transitions along a list of groups write every group of
  the list, as a group that is left out is empty.
-/

namespace RustPsbt

/-- The state of an encoder. -/
inductive EncoderState (Col : Type) where
  | group (c : Col)
  | separator
deriving DecidableEq

namespace EncoderState

variable {Col β : Type}

/-- Drain an encoder: the symbols of its state and of all states after it.  It is `none`
when the encoder takes more than `fuel` steps. -/
def drain (next : EncoderState Col → Option (EncoderState Col))
    (chunk : EncoderState Col → List β) : Nat → EncoderState Col → Option (List β)
  | 0, _ => none
  | fuel + 1, s =>
      match next s with
      | none => some (chunk s)
      | some s' => (drain next chunk fuel s').map (chunk s ++ ·)

/-- The first of the groups that is present, or the separator. -/
def firstOf (present : Col → Bool) : List Col → Option (EncoderState Col)
  | [] => some .separator
  | c :: cs => if present c then some (.group c) else firstOf present cs

/-- Every group leads to the first present group after it, and the separator is the end. -/
def Chained (next : EncoderState Col → Option (EncoderState Col)) (present : Col → Bool) :
    List Col → Prop
  | [] => next .separator = none
  | c :: cs => next (.group c) = firstOf present cs ∧ Chained next present cs

/-- There is always a first state. -/
theorem firstOf_ne_none (present : Col → Bool) (cs : List Col) : firstOf present cs ≠ none := by
  induction cs with
  | nil => simp [firstOf]
  | cons c cs ih =>
      rw [firstOf]
      split
      · simp
      · exact ih

/-- Draining along a list of groups ends. -/
theorem isSome_drain {next : EncoderState Col → Option (EncoderState Col)}
    {chunk : EncoderState Col → List β} {present : Col → Bool} {cs : List Col}
    (hchain : Chained next present cs) {fuel : Nat} (hfuel : cs.length < fuel)
    {s : EncoderState Col} (hs : firstOf present cs = some s) :
    (drain next chunk fuel s).isSome := by
  induction cs generalizing fuel s with
  | nil =>
      cases hs
      cases fuel with
      | zero => exact absurd hfuel (Nat.not_lt_zero _)
      | succ fuel =>
          rw [drain, hchain]
          rfl
  | cons c cs ih =>
      cases fuel with
      | zero => exact absurd hfuel (Nat.not_lt_zero _)
      | succ fuel =>
          have htail : cs.length < fuel := Nat.lt_of_succ_lt_succ hfuel
          by_cases hpresent : present c
          · rw [firstOf, if_pos hpresent] at hs
            cases hs
            obtain ⟨s', hs'⟩ := Option.ne_none_iff_exists'.mp (firstOf_ne_none present cs)
            have hstep : next (.group c) = some s' := hchain.1.trans hs'
            simpa only [drain, hstep, Option.isSome_map] using ih hchain.2 htail hs'
          · rw [firstOf, if_neg hpresent] at hs
            exact ih hchain.2 (Nat.lt_succ_of_lt htail) hs

/-- Draining along a list of groups writes all of them. -/
theorem drain_eq {next : EncoderState Col → Option (EncoderState Col)}
    {chunk : EncoderState Col → List β} {present : Col → Bool} {cs : List Col}
    (hchain : Chained next present cs) (hempty : ∀ c, present c = false → chunk (.group c) = [])
    {fuel : Nat} (hfuel : cs.length < fuel) {s : EncoderState Col}
    (hs : firstOf present cs = some s) :
    drain next chunk fuel s =
      some (cs.flatMap (fun c => chunk (.group c)) ++ chunk .separator) := by
  induction cs generalizing fuel s with
  | nil =>
      cases hs
      cases fuel with
      | zero => exact absurd hfuel (Nat.not_lt_zero _)
      | succ fuel =>
          rw [drain, hchain]
          rfl
  | cons c cs ih =>
      cases fuel with
      | zero => exact absurd hfuel (Nat.not_lt_zero _)
      | succ fuel =>
          have htail : cs.length < fuel := Nat.lt_of_succ_lt_succ hfuel
          rw [List.flatMap_cons, List.append_assoc]
          cases hpresent : present c with
          | true =>
              rw [firstOf, if_pos hpresent] at hs
              cases hs
              cases hnext : firstOf present cs with
              | none => exact absurd hnext (firstOf_ne_none present cs)
              | some s' =>
                  have hrest := ih hchain.2 htail hnext
                  have hstep : next (.group c) = some s' := hchain.1.trans hnext
                  simp only [drain, hstep, hrest, Option.map_some]
          | false =>
              rw [firstOf, hpresent, if_neg Bool.false_ne_true] at hs
              rw [hempty c hpresent, List.nil_append]
              exact ih hchain.2 (Nat.lt_succ_of_lt htail) hs

end EncoderState

end RustPsbt
