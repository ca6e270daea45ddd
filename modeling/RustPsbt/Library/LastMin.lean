import Mathlib.Data.List.Induction

/-!
# The last of the smallest

A loop that keeps the smallest value so far, and the later one of two values of equal size.

Main results:

- Theorem `lastMin_eq_some`: the loop returns the last of the smallest values.
- Theorem `lastMin_least_iff`: when that value is also a least one of another measure.
-/

namespace RustPsbt

variable {α : Type} (size : α → Nat)

/-- The smaller of the value so far and the next one, the next one if they are as large. -/
def keepMin : Option α → α → Option α
  | none, a => some a
  | some best, a => if size a > size best then some best else some a

/-- The value that the loop ends with. -/
def lastMin (l : List α) : Option α :=
  l.foldl (keepMin size) none

@[simp]
theorem lastMin_nil : lastMin size [] = none :=
  rfl

theorem lastMin_append_singleton (l : List α) (a : α) :
    lastMin size (l ++ [a]) = keepMin size (lastMin size l) a := by
  rw [lastMin, List.foldl_append]
  rfl

/-- No later value is preferred to the last of the smallest. -/
theorem foldl_keepMin_of_lt {a : α} {post : List α} (h : ∀ b ∈ post, size a < size b) :
    post.foldl (keepMin size) (some a) = some a := by
  induction post with
  | nil => rfl
  | cons b post ih =>
      have hb : size b > size a := h b List.mem_cons_self
      have hkeep : keepMin size (some a) b = some a := if_pos hb
      rw [List.foldl_cons, hkeep]
      exact ih fun c hc => h c (List.mem_cons_of_mem b hc)

variable {size} {l : List α} {a : α}

theorem mem_of_lastMin (h : lastMin size l = some a) : a ∈ l := by
  induction l using List.reverseRecOn generalizing a with
  | nil => cases h
  | append_singleton l b ih =>
      rw [lastMin_append_singleton] at h
      cases hl : lastMin size l with
      | none =>
          rw [hl] at h
          cases h
          simp
      | some c =>
          rw [hl, keepMin] at h
          split at h
          · cases h
            exact List.mem_append_left _ (ih hl)
          · cases h
            simp

/-- A value is kept when those before it are no smaller and those after it are larger. -/
theorem lastMin_of_split {pre post : List α} (hpre : ∀ b ∈ pre, size a ≤ size b)
    (hpost : ∀ b ∈ post, size a < size b) : lastMin size (pre ++ a :: post) = some a := by
  have hkeep : keepMin size (lastMin size pre) a = some a := by
    cases h : lastMin size pre with
    | none => rfl
    | some c => exact if_neg (Nat.not_lt.mpr (hpre c (mem_of_lastMin h)))
  rw [lastMin, List.foldl_append, List.foldl_cons]
  change post.foldl (keepMin size) (keepMin size (lastMin size pre) a) = some a
  rw [hkeep]
  exact foldl_keepMin_of_lt size hpost

theorem lastMin_eq_none : lastMin size l = none ↔ l = [] := by
  constructor
  · intro h
    induction l using List.reverseRecOn with
    | nil => rfl
    | append_singleton l b ih =>
        rw [lastMin_append_singleton] at h
        cases hl : lastMin size l with
        | none => rw [hl] at h; cases h
        | some c =>
            rw [hl, keepMin] at h
            split at h <;> cases h
  · rintro rfl
    rfl

/-- The loop returns the last of the smallest values. -/
theorem lastMin_eq_some : lastMin size l = some a ↔ ∃ pre post, l = pre ++ a :: post ∧
    (∀ b ∈ pre, size a ≤ size b) ∧ ∀ b ∈ post, size a < size b := by
  constructor
  · intro h
    induction l using List.reverseRecOn generalizing a with
    | nil => cases h
    | append_singleton l b ih =>
        rw [lastMin_append_singleton] at h
        cases hl : lastMin size l with
        | none =>
            rw [hl] at h
            cases h
            obtain rfl := lastMin_eq_none.mp hl
            exact ⟨[], [], rfl, by simp, by simp⟩
        | some c =>
            obtain ⟨pre, post, rfl, hpre, hpost⟩ := ih hl
            rw [hl, keepMin] at h
            split at h
            · rename_i hlt
              cases h
              refine ⟨pre, post ++ [b], by simp, hpre, ?_⟩
              intro d hd
              rcases List.mem_append.mp hd with hd | hd
              · exact hpost d hd
              · rw [List.mem_singleton.mp hd]
                exact hlt
            · rename_i hnot
              cases h
              have hle : size b ≤ size c := Nat.not_lt.mp hnot
              refine ⟨pre ++ c :: post, [], rfl, ?_, by simp⟩
              intro d hd
              rcases List.mem_append.mp hd with hd | hd
              · exact Nat.le_trans hle (hpre d hd)
              · rcases List.mem_cons.mp hd with rfl | hd
                · exact hle
                · exact Nat.le_trans hle (Nat.le_of_lt (hpost d hd))
  · rintro ⟨pre, post, rfl, hpre, hpost⟩
    exact lastMin_of_split hpre hpost

/-! ## Another measure -/

/-- The loop returns a least value of another measure exactly if every value that is not one
of these is passed over: some value before it is smaller, or one after it no larger. -/
theorem lastMin_least_iff {measure : α → Nat} :
    (∀ a, lastMin size l = some a → ∀ b ∈ l, measure a ≤ measure b) ↔
      ∀ pre a post, l = pre ++ a :: post → (∃ b ∈ l, measure b < measure a) →
        (∃ c ∈ pre, size c < size a) ∨ ∃ c ∈ post, size c ≤ size a := by
  constructor
  · rintro h pre a post hl ⟨b, hb, hlt⟩
    by_contra hkept
    simp only [not_or, not_exists, not_and, Nat.not_lt, Nat.not_le] at hkept
    have hmin : lastMin size l = some a := lastMin_eq_some.mpr ⟨pre, post, hl, hkept⟩
    exact absurd (h a hmin b hb) (Nat.not_le.mpr hlt)
  · intro h a hmin b hb
    obtain ⟨pre, post, hl, hpre, hpost⟩ := lastMin_eq_some.mp hmin
    by_contra hlt
    rcases h pre a post hl ⟨b, hb, Nat.not_le.mp hlt⟩ with ⟨c, hc, hsmall⟩ | ⟨c, hc, hsmall⟩
    · exact absurd hsmall (Nat.not_lt.mpr (hpre c hc))
    · exact absurd (hpost c hc) (Nat.not_lt.mpr hsmall)

end RustPsbt
