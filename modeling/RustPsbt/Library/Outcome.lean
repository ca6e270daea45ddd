import Mathlib.Data.List.Forall2
import Mathlib.Tactic.Common

/-!
# Outcomes of fallible code

A call of the code under study returns a value, returns an error, panics, or
never returns.  `Result ε α` is `Except` over these four endings, so that `do`
notation models the early returns of the source.

Main results:

- Theorem `Result.bind_eq_ok`: a sequence succeeds exactly when both halves do.
- Theorem `Result.mapM_eq_ok`: a collecting loop collects one result for every element.
-/

namespace RustPsbt

/-- How a call can end without a value. -/
inductive Fault (ε : Type) where
  /-- The call returns the error `e`. -/
  | error (e : ε)
  /-- The call panics. -/
  | panic
  /-- The call never returns. -/
  | diverge
deriving DecidableEq, Repr

/-- The ending of a call that returns `α` or the error `ε`. -/
abbrev Result (ε α : Type) := Except (Fault ε) α

namespace Result

variable {ε ε' α β γ : Type}

/-- Return a value. -/
@[match_pattern]
abbrev ok (a : α) : Result ε α :=
  Except.ok a

/-- Return an error. -/
@[match_pattern]
abbrev err (e : ε) : Result ε α :=
  Except.error (Fault.error e)

/-- Panic. -/
@[match_pattern]
abbrev panicked : Result ε α :=
  Except.error Fault.panic

/-- Return nothing, ever. -/
@[match_pattern]
abbrev diverged : Result ε α :=
  Except.error Fault.diverge

/-- `Result::map_err`: errors are mapped, values and panics are kept. -/
def mapErr (f : ε → ε') : Result ε α → Result ε' α
  | .ok a => .ok a
  | .error (.error e) => .err (f e)
  | .error .panic => .panicked
  | .error .diverge => .diverged

/-- `Option::ok_or`. -/
def okOr (e : ε) : Option α → Result ε α
  | some a => .ok a
  | none => .err e

/-- A call that neither panics nor loops. -/
def ofExcept : Except ε α → Result ε α
  | .ok a => .ok a
  | .error e => .err e

/-- A subtraction of unsigned numbers: it panics when it underflows. -/
def checkedSub (n m : Nat) : Result ε Nat :=
  if m ≤ n then .ok (n - m) else .panicked

/-- The value or error of a call, to be matched on; panics go on. -/
def attempt : Result ε α → Result ε' (Except ε α)
  | .ok a => .ok (.ok a)
  | .error (.error e) => .ok (.error e)
  | .error .panic => .panicked
  | .error .diverge => .diverged

/-- `Result::expect`: an error panics. -/
def expect : Result ε α → Result ε' α
  | .ok a => .ok a
  | .error (.error _) => .panicked
  | .error .panic => .panicked
  | .error .diverge => .diverged

/-- The call returned: a value or an error, no panic. -/
def Returns : Result ε α → Prop
  | .ok _ => True
  | .error (.error _) => True
  | .error .panic => False
  | .error .diverge => False

/-- The call returned an error. -/
def IsErr (r : Result ε α) : Prop :=
  ∃ e, r = .err e

instance : DecidablePred (Returns (ε := ε) (α := α))
  | .ok _ => isTrue trivial
  | .error (.error _) => isTrue trivial
  | .error .panic => isFalse id
  | .error .diverge => isFalse id

@[simp]
theorem pure_eq_ok (a : α) : (pure a : Result ε α) = .ok a :=
  rfl

@[simp]
theorem ok_bind (a : α) (f : α → Result ε β) : ((.ok a : Result ε α) >>= f) = f a :=
  rfl

@[simp]
theorem error_bind (e : Fault ε) (f : α → Result ε β) :
    ((.error e : Result ε α) >>= f) = .error e :=
  rfl

/-- A sequence returns a value exactly when both halves do. -/
theorem bind_eq_ok {r : Result ε α} {f : α → Result ε β} {b : β} :
    (r >>= f) = .ok b ↔ ∃ a, r = .ok a ∧ f a = .ok b := by
  cases r with
  | error e => simp
  | ok a => simp

@[simp]
theorem mapErr_ok (f : ε → ε') (a : α) : mapErr f (.ok a : Result ε α) = .ok a :=
  rfl

@[simp]
theorem mapErr_err (f : ε → ε') (e : ε) :
    mapErr f (.err e : Result ε α) = .err (f e) :=
  rfl

@[simp]
theorem mapErr_id (r : Result ε α) : mapErr (fun e => e) r = r := by
  cases r with
  | ok x => rfl
  | error e => cases e <;> rfl

@[simp]
theorem expect_eq_ok {r : Result ε α} {a : α} :
    (expect r : Result ε' α) = .ok a ↔ r = .ok a := by
  cases r with
  | ok b => simp [expect]
  | error e => cases e <;> simp [expect]

@[simp]
theorem mapErr_eq_ok {f : ε → ε'} {r : Result ε α} {a : α} :
    mapErr f r = .ok a ↔ r = .ok a := by
  cases r with
  | ok x => simp
  | error e => cases e <;> simp [mapErr]

@[simp]
theorem mapErr_eq_panicked {f : ε → ε'} {r : Result ε α} :
    mapErr f r = .panicked ↔ r = .panicked := by
  cases r with
  | ok x => simp [mapErr]
  | error e => cases e <;> simp [mapErr]

@[simp]
theorem returns_mapErr {f : ε → ε'} {r : Result ε α} :
    (mapErr f r).Returns ↔ r.Returns := by
  cases r with
  | ok x => simp [mapErr, Returns]
  | error e => cases e <;> simp [mapErr, Returns]

@[simp]
theorem okOr_eq_ok {e : ε} {o : Option α} {a : α} :
    okOr e o = .ok a ↔ o = some a := by
  cases o <;> simp [okOr]

@[simp]
theorem returns_ok (a : α) : (.ok a : Result ε α).Returns :=
  trivial

@[simp]
theorem returns_err (e : ε) : (.err e : Result ε α).Returns :=
  trivial

@[simp]
theorem returns_okOr (e : ε) (o : Option α) : (okOr e o).Returns := by
  cases o <;> simp [okOr, Returns]

@[simp]
theorem ofExcept_eq_ok {r : Except ε α} {a : α} : ofExcept r = .ok a ↔ r = .ok a := by
  cases r <;> simp [ofExcept]

@[simp]
theorem returns_ofExcept (r : Except ε α) : (ofExcept r).Returns := by
  cases r <;> simp [ofExcept, Returns]

@[simp]
theorem checkedSub_eq_ok {n m k : Nat} :
    (checkedSub n m : Result ε Nat) = .ok k ↔ m ≤ n ∧ n - m = k := by
  unfold checkedSub
  split_ifs with h <;> simp [h]

theorem checkedSub_bind_eq_ok {n m : Nat} {f : Nat → α} {a : α} :
    ((checkedSub n m : Result ε Nat) >>= fun k => .ok (f k)) = .ok a ↔
      m ≤ n ∧ a = f (n - m) := by
  rw [bind_eq_ok]
  simp only [checkedSub_eq_ok, Except.ok.injEq]
  constructor
  · rintro ⟨k, ⟨hle, rfl⟩, rfl⟩
    exact ⟨hle, rfl⟩
  · rintro ⟨hle, rfl⟩
    exact ⟨n - m, ⟨hle, rfl⟩, rfl⟩

theorem checkedSub_of_le {n m : Nat} (h : m ≤ n) :
    (checkedSub n m : Result ε Nat) = .ok (n - m) :=
  if_pos h

theorem checkedSub_of_lt {n m : Nat} (h : n < m) :
    (checkedSub n m : Result ε Nat) = .panicked :=
  if_neg (by omega)

/-- A sequence whose halves return returns. -/
theorem Returns.bind {r : Result ε α} {f : α → Result ε β}
    (hr : r.Returns) (hf : ∀ a, r = .ok a → (f a).Returns) : (r >>= f).Returns := by
  cases r with
  | ok a => exact hf a rfl
  | error e => cases e <;> simp_all [Returns]

/-- A sequence returns exactly when its first half does, and its second half where it
starts. -/
theorem returns_bind {r : Result ε α} {f : α → Result ε β} :
    (r >>= f).Returns ↔ r.Returns ∧ ∀ {a}, r = .ok a → (f a).Returns := by
  cases r with
  | ok a => simp
  | error e => cases e <;> simp [Returns]

/-- A property of what a choice returns is one of what its branches return. -/
theorem forall_ok_ite {p : Prop} [Decidable p] {x y : Result ε α} {P : α → Prop}
    (hx : p → ∀ a, x = .ok a → P a) (hy : ¬p → ∀ a, y = .ok a → P a) :
    ∀ a, (if p then x else y) = .ok a → P a := by
  intro a h
  split at h
  · rename_i hp
    exact hx hp a h
  · rename_i hp
    exact hy hp a h

/-- A branch returns if both sides do. -/
theorem Returns.ite {p : Prop} [Decidable p] {r s : Result ε α} (hr : r.Returns)
    (hs : s.Returns) : (if p then r else s).Returns := by
  split
  · exact hr
  · exact hs

/-- A call that returns fails exactly if it returns no value. -/
theorem Returns.isErr_iff {r : Result ε α} (h : r.Returns) :
    r.IsErr ↔ ¬∃ a, r = .ok a := by
  cases r with
  | ok a => simp [IsErr]
  | error f =>
      cases f with
      | error e => simp [IsErr]
      | panic => exact absurd h id
      | diverge => exact absurd h id

theorem isErr_mapErr {f : ε → ε'} {r : Result ε α} (h : r.IsErr) : (mapErr f r).IsErr := by
  obtain ⟨e, rfl⟩ := h
  exact ⟨f e, rfl⟩

theorem IsErr.bind {r : Result ε α} {f : α → Result ε β} (h : r.IsErr) :
    (r >>= f).IsErr := by
  obtain ⟨e, rfl⟩ := h
  exact ⟨e, rfl⟩

/-! ## Results without their errors -/

/-- The ending of a call when the error it returns does not matter. -/
def erase (r : Result ε α) : Result Unit α :=
  r.mapErr fun _ => ()

@[simp]
theorem erase_ok (a : α) : (.ok a : Result ε α).erase = .ok a :=
  rfl

@[simp]
theorem erase_err (e : ε) : (.err e : Result ε α).erase = .err () :=
  rfl

@[simp]
theorem erase_panicked : (.panicked : Result ε α).erase = .panicked :=
  rfl

@[simp]
theorem erase_diverged : (.diverged : Result ε α).erase = .diverged :=
  rfl

@[simp]
theorem erase_eq_ok {r : Result ε α} {a : α} : r.erase = .ok a ↔ r = .ok a :=
  mapErr_eq_ok

@[simp]
theorem returns_erase {r : Result ε α} : r.erase.Returns ↔ r.Returns :=
  returns_mapErr

@[simp]
theorem erase_mapErr (f : ε → ε') (r : Result ε α) : (r.mapErr f).erase = r.erase := by
  cases r with
  | ok a => rfl
  | error e => cases e <;> rfl

@[simp]
theorem erase_erase (r : Result ε α) : r.erase.erase = r.erase :=
  erase_mapErr _ r

/-- Forgetting errors commutes with sequencing. -/
theorem erase_bind (r : Result ε α) (f : α → Result ε β) :
    (r >>= f).erase = r.erase >>= fun a => (f a).erase := by
  cases r with
  | ok a => rfl
  | error e => cases e <;> rfl

@[simp]
theorem toOption_ok (a : α) : Except.toOption (.ok a : Result ε α) = some a :=
  rfl

@[simp]
theorem toOption_error (e : Fault ε) : Except.toOption (.error e : Result ε α) = none :=
  rfl

@[simp]
theorem toOption_eq_some {r : Result ε α} {a : α} : r.toOption = some a ↔ r = .ok a := by
  cases r <;> simp

theorem toOption_eq_none {r : Result ε α} : r.toOption = none ↔ ∃ e, r = .error e := by
  cases r <;> simp

@[simp]
theorem toOption_mapErr (f : ε → ε') (r : Result ε α) :
    (r.mapErr f).toOption = r.toOption := by
  cases r with
  | ok a => rfl
  | error e => cases e <;> rfl

@[simp]
theorem toOption_erase (r : Result ε α) : r.erase.toOption = r.toOption :=
  toOption_mapErr _ r

/-- The value of a sequence is the value of its second half at the value of the first. -/
theorem toOption_bind (r : Result ε α) (f : α → Result ε β) :
    (r >>= f).toOption = r.toOption.bind fun a => (f a).toOption := by
  cases r <;> rfl

@[simp]
theorem attempt_ok (a : α) : attempt (.ok a : Result ε α) = (.ok (.ok a) : Result ε' _) :=
  rfl

@[simp]
theorem attempt_err (e : ε) :
    attempt (.err e : Result ε α) = (.ok (.error e) : Result ε' _) :=
  rfl

/-! ### Loops -/

/-- A loop over a list passes exactly if every round does. -/
theorem forM_eq_ok {f : α → Result ε PUnit} {l : List α} :
    forM l f = .ok ⟨⟩ ↔ ∀ a ∈ l, f a = .ok ⟨⟩ := by
  induction l with
  | nil => simp
  | cons a l ih =>
      rw [List.forM_cons, bind_eq_ok, List.forall_mem_cons, ← ih]
      exact ⟨fun ⟨_, ha, hl⟩ => ⟨ha, hl⟩, fun ⟨ha, hl⟩ => ⟨⟨⟩, ha, hl⟩⟩

/-- A collecting loop collects one result for every element, in order. -/
theorem mapM_eq_ok {f : α → Result ε β} {l : List α} {m : List β} :
    l.mapM f = .ok m ↔ List.Forall₂ (fun a b => f a = .ok b) l m := by
  induction l generalizing m with
  | nil =>
      rw [List.mapM_nil, List.forall₂_nil_left_iff]
      exact ⟨fun h => (Except.ok.inj h).symm, fun h => h ▸ rfl⟩
  | cons a l ih =>
      rw [List.mapM_cons, bind_eq_ok, List.forall₂_cons_left_iff]
      constructor
      · rintro ⟨b, hb, hrest⟩
        obtain ⟨m', hm', heq⟩ := bind_eq_ok.mp hrest
        cases heq
        exact ⟨b, m', hb, ih.mp hm', rfl⟩
      · rintro ⟨b, m', hb, hm', rfl⟩
        exact ⟨b, hb, bind_eq_ok.mpr ⟨m', ih.mpr hm', rfl⟩⟩

/-- A collecting loop collected something for every element. -/
theorem exists_of_mem_left {R : α → β → Prop} {l : List α} {m : List β}
    (h : List.Forall₂ R l m) {a : α} (ha : a ∈ l) : ∃ b ∈ m, R a b := by
  obtain ⟨i, hi, rfl⟩ := List.getElem_of_mem ha
  have hm : i < m.length := h.length_eq ▸ hi
  exact ⟨m[i], List.getElem_mem hm, h.get hi hm⟩

/-- What a collecting loop collected comes from an element. -/
theorem exists_of_mem_right {R : α → β → Prop} {l : List α} {m : List β}
    (h : List.Forall₂ R l m) {b : β} (hb : b ∈ m) : ∃ a ∈ l, R a b := by
  obtain ⟨i, hi, rfl⟩ := List.getElem_of_mem hb
  have hl : i < l.length := h.length_eq ▸ hi
  exact ⟨l[i], List.getElem_mem hl, h.get hl hi⟩

/-- Everything that was collected is as it should be exactly if every element is. -/
theorem forall_mem_iff {R : α → β → Prop} {p : α → Prop} {q : β → Prop} {l : List α}
    {m : List β} (h : List.Forall₂ R l m) (hR : ∀ a b, R a b → (q b ↔ p a)) :
    (∀ b ∈ m, q b) ↔ ∀ a ∈ l, p a := by
  induction h with
  | nil => simp
  | cons hab _ ih => rw [List.forall_mem_cons, List.forall_mem_cons, ih, hR _ _ hab]

/-- A loop returns if its rounds do. -/
theorem returns_forM {f : α → Result ε PUnit} {l : List α} (h : ∀ a ∈ l, (f a).Returns) :
    (forM l f).Returns := by
  induction l with
  | nil => trivial
  | cons a l ih =>
      rw [List.forall_mem_cons] at h
      rw [List.forM_cons]
      exact h.1.bind fun _ _ => ih h.2

/-- A collecting loop returns if its rounds do. -/
theorem returns_mapM {f : α → Result ε β} {l : List α} (h : ∀ a ∈ l, (f a).Returns) :
    (l.mapM f).Returns := by
  induction l with
  | nil => trivial
  | cons a l ih =>
      rw [List.forall_mem_cons] at h
      rw [List.mapM_cons]
      exact h.1.bind fun b _ => (ih h.2).bind fun _ _ => trivial

end Result

end RustPsbt
