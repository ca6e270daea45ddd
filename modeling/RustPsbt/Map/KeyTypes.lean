import RustPsbt.Map.GlobalCodec
import RustPsbt.Map.InputCodec
import RustPsbt.Map.OutputCodec
import RustPsbt.Map.V0.Global

/-!
# Key types

A map decoder goes through the arms of its `from_key`.  The decoders of version 2, and the
one of the global map of version 0, select the field of a key by its type alone.

Main results:

- Theorem `MapCodec.Arms.typeValue_eq`: a field other than the unknown keys is selected by
  keys of the type that is written for it.
- Theorem `MapCodec.SelectsByType.fromKey_iff`: by all keys of this type, if the arms look at
  nothing else.
-/

namespace RustPsbt

variable [BitcoinTypes] [BitcoinCodecs]

namespace MapCodec

variable {ε M α : Type}

/-- The arms of a `from_key`: a field is selected by keys of the type that is written for it,
some keys are refused, and the others go to the field `other`. -/
inductive Arms (C : MapCodec ε M α) (other : C.table.Col) (key : Key) :
    Result ε C.table.Col → Prop where
  | field {p : Prop} [Decidable p] {c : C.table.Col} {rest : Result ε C.table.Col}
      (h : p → ∀ k, key.typeValue = (C.rawKey c k).typeValue) (hrest : Arms C other key rest) :
      Arms C other key (if p then .ok c else rest)
  | refuse {p : Prop} [Decidable p] {e : ε} {rest : Result ε C.table.Col}
      (hrest : Arms C other key rest) : Arms C other key (if p then .err e else rest)
  | other : Arms C other key (.ok other)

/-- The arms look at nothing but the type of the key. -/
structure SelectsByType (C : MapCodec ε M α) (other : C.table.Col) : Prop where
  arms : ∀ key, C.Arms other key (C.fromKey key)
  ignoresData : ∀ t data data', C.fromKey ⟨t, data⟩ = C.fromKey ⟨t, data'⟩
  fromKey_rawKey : ∀ c, c ≠ other → ∀ k, C.fromKey (C.rawKey c k) = .ok c

variable {C : MapCodec ε M α} {c other : C.table.Col} {key : Key}

/-- A selected field is the one of the type of the key. -/
theorem Arms.typeValue_eq {selected : Result ε C.table.Col} (h : C.Arms other key selected)
    (hselected : selected = .ok c) (hc : c ≠ other) (k : C.table.K c) :
    key.typeValue = (C.rawKey c k).typeValue := by
  induction h with
  | field harm _ ih =>
      split at hselected
      · rename_i hp
        cases hselected
        exact harm hp k
      · exact ih hselected
  | refuse _ ih =>
      split at hselected
      · cases hselected
      · exact ih hselected
  | other =>
      cases hselected
      exact absurd rfl hc

/-- A field is selected by the keys of its type, whatever their key data. -/
theorem SelectsByType.fromKey_iff (h : C.SelectsByType other) (hc : c ≠ other)
    (k : C.table.K c) : C.fromKey key = .ok c ↔ key.typeValue = (C.rawKey c k).typeValue := by
  constructor
  · intro hselected
    exact (h.arms key).typeValue_eq hselected hc k
  · intro htype
    rw [← h.fromKey_rawKey c hc k]
    change C.fromKey ⟨key.typeValue, key.key⟩ = _
    rw [htype]
    exact h.ignoresData _ _ _

end MapCodec

theorem Global.selectsByType : Global.codec.SelectsByType .unknowns where
  arms key := by
    change Global.codec.Arms .unknowns key (Global.fromKey key)
    unfold Global.fromKey
    repeat first | refine .field (fun hkey _ => hkey) ?_ | refine .refuse ?_
    exact .other
  ignoresData _ _ _ := rfl
  fromKey_rawKey c hc k := by
    cases c with
    | unknowns => exact absurd rfl hc
    | _ => rfl

theorem Input.selectsByType [TxidHash] : Input.codec.SelectsByType .unknowns where
  arms key := by
    change Input.codec.Arms .unknowns key (Input.fromKey key)
    unfold Input.fromKey
    repeat first | refine .field (fun hkey _ => hkey) ?_ | refine .refuse ?_
    exact .other
  ignoresData _ _ _ := rfl
  fromKey_rawKey c hc k := by
    cases c with
    | unknowns => exact absurd rfl hc
    | _ => rfl

theorem Output.selectsByType : Output.codec.SelectsByType .unknowns where
  arms key := by
    change Output.codec.Arms .unknowns key (Output.fromKey key)
    unfold Output.fromKey
    repeat first | refine .field (fun hkey _ => hkey) ?_ | refine .refuse ?_
    exact .other
  ignoresData _ _ _ := rfl
  fromKey_rawKey c hc k := by
    cases c with
    | unknowns => exact absurd rfl hc
    | _ => rfl

theorem GlobalV0.selectsByType : GlobalV0.codec.SelectsByType .unknowns where
  arms key := by
    change GlobalV0.codec.Arms .unknowns key (GlobalV0.fromKey key)
    unfold GlobalV0.fromKey
    repeat first | refine .field (fun hkey _ => hkey) ?_ | refine .refuse ?_
    exact .other
  ignoresData _ _ _ := rfl
  fromKey_rawKey c hc k := by
    cases c with
    | unknowns => exact absurd rfl hc
    | _ => rfl

end RustPsbt
