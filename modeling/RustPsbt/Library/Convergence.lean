import RustPsbt.Library.Outcome

/-!
# Merging in any order

Values are merged two by two, in any grouping and any order, and the same value may be
merged more than once.  Where the values are compatible and the merge is a join on
compatible values, all of these merges have one result.

Main results:

- Theorem `JoinLaws.join_absorbs`: a merge absorbs every merge of some of its leaves.
- Theorem `JoinLaws.join_unique`: merges of the same leaves are equal.
- Theorem `MergeTree.run_eq_join`: what a run of fallible merges returns.
-/

namespace RustPsbt

variable {α ε γ : Type}

/-- Who is merged with whom. -/
inductive MergeTree (α : Type) where
  | leaf (a : α)
  | node (l r : MergeTree α)

namespace MergeTree

/-- The merged values, from left to right. -/
def leaves : MergeTree α → List α
  | leaf a => [a]
  | node l r => l.leaves ++ r.leaves

/-- The leftmost value. -/
def first : MergeTree α → α
  | leaf a => a
  | node l _ => l.first

/-- The result of merges that cannot fail. -/
def join (op : α → α → α) : MergeTree α → α
  | leaf a => a
  | node l r => op (l.join op) (r.join op)

/-- Run the merges, the left part before the right one. -/
def run (merge : α → α → Result ε α) : MergeTree α → Result ε α
  | leaf a => .ok a
  | node l r => do
      let a ← l.run merge
      let b ← r.run merge
      merge a b

/-- The same merges of other values. -/
def map (f : α → γ) : MergeTree α → MergeTree γ
  | leaf a => leaf (f a)
  | node l r => node (l.map f) (r.map f)

@[simp]
theorem leaves_map (f : α → γ) (t : MergeTree α) : (t.map f).leaves = t.leaves.map f := by
  induction t with
  | leaf a => rfl
  | node l r ihl ihr => simp [map, leaves, ihl, ihr]

@[simp]
theorem first_map (f : α → γ) (t : MergeTree α) : (t.map f).first = f t.first := by
  induction t with
  | leaf a => rfl
  | node l r ihl _ => simpa [map, first] using ihl

theorem map_congr {f g : α → γ} {t : MergeTree α} (h : ∀ a ∈ t.leaves, f a = g a) :
    t.map f = t.map g := by
  induction t with
  | leaf a => exact congrArg leaf (h a (by simp [leaves]))
  | node l r ihl ihr =>
      have hl := ihl fun a ha => h a (by simp [leaves, ha])
      have hr := ihr fun a ha => h a (by simp [leaves, ha])
      rw [map, map, hl, hr]

theorem first_mem_leaves (t : MergeTree α) : t.first ∈ t.leaves := by
  induction t with
  | leaf a => simp [first, leaves]
  | node l r ihl _ => simp [first, leaves, ihl]

/-- What every leaf has and every merge keeps, the result has. -/
theorem join_induction {op : α → α → α} {P : α → Prop} (hop : ∀ a b, P a → P b → P (op a b))
    {t : MergeTree α} (h : ∀ a ∈ t.leaves, P a) : P (t.join op) := by
  induction t with
  | leaf a => exact h a (by simp [leaves])
  | node l r ihl ihr =>
      have hl : ∀ a ∈ l.leaves, P a := fun a ha => h a (by simp [leaves, ha])
      have hr : ∀ a ∈ r.leaves, P a := fun a ha => h a (by simp [leaves, ha])
      exact hop _ _ (ihl hl) (ihr hr)

/-- Merges that succeed return the join. -/
theorem run_eq_join {merge : α → α → Result ε α} {op : α → α → α}
    (hmerge : ∀ {a b c}, merge a b = .ok c → c = op a b) {t : MergeTree α} {c : α}
    (h : t.run merge = .ok c) : c = t.join op := by
  induction t generalizing c with
  | leaf a => exact (Except.ok.inj h).symm
  | node l r ihl ihr =>
      obtain ⟨a, ha, hrest⟩ := Result.bind_eq_ok.mp h
      obtain ⟨b, hb, hc⟩ := Result.bind_eq_ok.mp hrest
      rw [hmerge hc, ihl ha, ihr hb]
      rfl

/-- Merges of values that all can be merged succeed. -/
theorem run_isOk {merge : α → α → Result ε α} {op : α → α → α} {P : α → Prop}
    (hop : ∀ a b, P a → P b → P (op a b))
    (hmerge : ∀ a b, P a → P b → merge a b = .ok (op a b)) {t : MergeTree α}
    (h : ∀ a ∈ t.leaves, P a) : t.run merge = .ok (t.join op) := by
  induction t with
  | leaf a => rfl
  | node l r ihl ihr =>
      have hl : ∀ a ∈ l.leaves, P a := fun a ha => h a (by simp [leaves, ha])
      have hr : ∀ a ∈ r.leaves, P a := fun a ha => h a (by simp [leaves, ha])
      rw [run, ihl hl, Result.ok_bind, ihr hr, Result.ok_bind]
      exact hmerge _ _ (join_induction hop hl) (join_induction hop hr)

end MergeTree

/-! ## Joins of compatible values -/

/-- On compatible values the operation is a join. -/
structure JoinLaws (op : α → α → α) (Compat : α → α → Prop) : Prop where
  symm : ∀ {a b}, Compat a b → Compat b a
  /-- What is compatible with two compatible values is compatible with their merge. -/
  closed : ∀ {a b c}, Compat a b → Compat a c → Compat b c → Compat (op a b) c
  self : ∀ a, op a a = a
  comm : ∀ {a b}, Compat a b → op a b = op b a
  assoc : ∀ {a b c}, Compat a b → Compat a c → Compat b c → op (op a b) c = op a (op b c)

namespace JoinLaws

variable {op : α → α → α} {Compat : α → α → Prop} (h : JoinLaws op Compat)

include h

/-- A value that is compatible with all leaves is compatible with their merge. -/
theorem compat_join {t : MergeTree α} {b : α}
    (hleaves : ∀ x ∈ t.leaves, ∀ y ∈ t.leaves, Compat x y) (hb : ∀ x ∈ t.leaves, Compat x b) :
    Compat (t.join op) b := by
  induction t generalizing b with
  | leaf a => exact hb a (by simp [MergeTree.leaves])
  | node l r ihl ihr =>
      simp only [MergeTree.leaves, List.mem_append] at hleaves hb
      have hl := ihl (b := r.join op) (fun x hx y hy => hleaves x (.inl hx) y (.inl hy)) fun x hx =>
        h.symm (ihr (fun y hy z hz => hleaves y (.inr hy) z (.inr hz))
          fun y hy => hleaves y (.inr hy) x (.inl hx))
      exact h.closed hl (ihl (fun x hx y hy => hleaves x (.inl hx) y (.inl hy))
        fun x hx => hb x (.inl hx))
        (ihr (fun x hx y hy => hleaves x (.inr hx) y (.inr hy)) fun x hx => hb x (.inr hx))

/-- Merges of compatible leaves are compatible. -/
theorem compat_join_join {t t' : MergeTree α} {S : α → Prop}
    (hS : ∀ x y, S x → S y → Compat x y) (ht : ∀ x ∈ t.leaves, S x)
    (ht' : ∀ x ∈ t'.leaves, S x) : Compat (t.join op) (t'.join op) := by
  apply h.compat_join fun x hx y hy => hS x y (ht x hx) (ht y hy)
  intro x hx
  apply h.symm
  apply h.compat_join fun y hy z hz => hS y z (ht' y hy) (ht' z hz)
  exact fun y hy => hS y x (ht' y hy) (ht x hx)

/-- A merge absorbs each of its leaves. -/
theorem join_absorbs_leaf {t : MergeTree α} {a : α}
    (hleaves : ∀ x ∈ t.leaves, ∀ y ∈ t.leaves, Compat x y) (ha : a ∈ t.leaves) :
    op (t.join op) a = t.join op := by
  induction t with
  | leaf b =>
      simp only [MergeTree.leaves, List.mem_singleton] at ha
      subst ha
      exact h.self a
  | node l r ihl ihr =>
      simp only [MergeTree.leaves, List.mem_append] at hleaves ha
      have hl : ∀ x ∈ l.leaves, ∀ y ∈ l.leaves, Compat x y :=
        fun x hx y hy => hleaves x (.inl hx) y (.inl hy)
      have hr : ∀ x ∈ r.leaves, ∀ y ∈ r.leaves, Compat x y :=
        fun x hx y hy => hleaves x (.inr hx) y (.inr hy)
      have hlr : Compat (l.join op) (r.join op) :=
        h.compat_join_join (S := fun x => x ∈ l.leaves ∨ x ∈ r.leaves)
          (fun x y hx hy => hleaves x hx y hy) (fun x hx => .inl hx) fun x hx => .inr hx
      have hla : Compat (l.join op) a :=
        h.compat_join hl fun x hx => hleaves x (.inl hx) a ha
      have hra : Compat (r.join op) a :=
        h.compat_join hr fun x hx => hleaves x (.inr hx) a ha
      change op (op (l.join op) (r.join op)) a = op (l.join op) (r.join op)
      rcases ha with ha | ha
      · calc op (op (l.join op) (r.join op)) a
            = op (l.join op) (op (r.join op) a) := h.assoc hlr hla hra
          _ = op (l.join op) (op a (r.join op)) := by rw [h.comm hra]
          _ = op (op (l.join op) a) (r.join op) := (h.assoc hla hlr (h.symm hra)).symm
          _ = op (l.join op) (r.join op) := by rw [ihl hl ha]
      · rw [h.assoc hlr hla hra, ihr hr ha]

/-- A merge absorbs every merge of some of its leaves. -/
theorem join_absorbs {t t' : MergeTree α}
    (hleaves : ∀ x ∈ t.leaves, ∀ y ∈ t.leaves, Compat x y)
    (hsub : ∀ x ∈ t'.leaves, x ∈ t.leaves) : op (t.join op) (t'.join op) = t.join op := by
  induction t' with
  | leaf a => exact h.join_absorbs_leaf hleaves (hsub a (by simp [MergeTree.leaves]))
  | node l r ihl ihr =>
      simp only [MergeTree.leaves, List.mem_append] at hsub
      have hl : ∀ x ∈ l.leaves, x ∈ t.leaves := fun x hx => hsub x (.inl hx)
      have hr : ∀ x ∈ r.leaves, x ∈ t.leaves := fun x hx => hsub x (.inr hx)
      have hS : ∀ x y, x ∈ t.leaves → y ∈ t.leaves → Compat x y :=
        fun x y hx hy => hleaves x hx y hy
      calc op (t.join op) (op (l.join op) (r.join op))
          = op (op (t.join op) (l.join op)) (r.join op) :=
            (h.assoc (h.compat_join_join hS (fun _ hx => hx) hl)
              (h.compat_join_join hS (fun _ hx => hx) hr) (h.compat_join_join hS hl hr)).symm
        _ = op (t.join op) (r.join op) := by rw [ihl hl]
        _ = t.join op := ihr hr

/-- Merges of the same leaves are equal, whatever their order, grouping and repetitions. -/
theorem join_unique {t t' : MergeTree α}
    (hleaves : ∀ x ∈ t.leaves, ∀ y ∈ t.leaves, Compat x y)
    (hsame : ∀ x, x ∈ t'.leaves ↔ x ∈ t.leaves) : t'.join op = t.join op := by
  have hleaves' : ∀ x ∈ t'.leaves, ∀ y ∈ t'.leaves, Compat x y :=
    fun x hx y hy => hleaves x ((hsame x).mp hx) y ((hsame y).mp hy)
  have hcompat : Compat (t.join op) (t'.join op) :=
    h.compat_join_join (S := fun x => x ∈ t.leaves) (fun x y hx hy => hleaves x hx y hy)
      (fun _ hx => hx) fun x hx => (hsame x).mp hx
  calc t'.join op = op (t'.join op) (t.join op) :=
        (h.join_absorbs hleaves' fun x hx => (hsame x).mpr hx).symm
    _ = op (t.join op) (t'.join op) := (h.comm hcompat).symm
    _ = t.join op := h.join_absorbs hleaves fun x hx => (hsame x).mp hx

end JoinLaws

end RustPsbt
