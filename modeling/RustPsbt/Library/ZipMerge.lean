import RustPsbt.Library.OrderedMap

/-!
# Merging lists in pairs

A left list is merged with a right one element by element; the rest of the left
list is kept and the rest of the right one is ignored.

Main results:

- Theorem `getElem?_zipMerge`: the elements of a merge.
- Theorem `zipMerge_comm_iff`: pairwise merges of lists of one length commute exactly when
  the merge of each pair does.
-/

namespace RustPsbt

variable {α β : Type}

/-- The relation holds between elements at equal positions. -/
def Zipped (p : α → β → Prop) (l : List α) (r : List β) : Prop :=
  ∀ (i : Nat) (a : α) (b : β), l[i]? = some a → r[i]? = some b → p a b

theorem zipped_cons {p : α → β → Prop} {a : α} {l : List α} {b : β} {r : List β} :
    Zipped p (a :: l) (b :: r) ↔ p a b ∧ Zipped p l r := by
  constructor
  · intro h
    exact ⟨h 0 a b rfl rfl, fun i x y hx hy => h (i + 1) x y hx hy⟩
  · rintro ⟨hhead, htail⟩ i x y hx hy
    cases i with
    | zero =>
        cases Option.some_inj.mp hx
        cases Option.some_inj.mp hy
        exact hhead
    | succ i => exact htail i x y hx hy

@[simp]
theorem zipped_nil_right {p : α → β → Prop} {l : List α} : Zipped p l ([] : List β) := by
  intro i a b _ hb
  simp at hb

@[simp]
theorem zipped_nil_left {p : α → β → Prop} {r : List β} : Zipped p ([] : List α) r := by
  intro i a b ha _
  simp at ha

theorem Zipped.symm {p : α → β → Prop} {q : β → α → Prop} {l : List α} {r : List β}
    (h : Zipped p l r) (hpq : ∀ a b, p a b → q b a) : Zipped q r l :=
  fun i b a hb ha => hpq a b (h i a b ha hb)

/-- Lists of one length with equal images are zipped by equality of the images. -/
theorem zipped_eq_iff_map_eq {γ : Type} {f : α → γ} {g : β → γ} {l : List α} {r : List β}
    (hlen : l.length = r.length) :
    Zipped (fun a b => f a = g b) l r ↔ l.map f = r.map g := by
  induction l generalizing r with
  | nil =>
      cases r with
      | nil => simp
      | cons b r => simp at hlen
  | cons a l ih =>
      cases r with
      | nil => simp at hlen
      | cons b r =>
          rw [zipped_cons, ih (by simpa using hlen)]
          simp

/-- Elements at equal positions are merged, the rest of the left list is kept. -/
def zipMerge (merge : α → β → α) : List α → List β → List α
  | a :: l, b :: r => merge a b :: zipMerge merge l r
  | l, [] => l
  | [], _ :: _ => []

@[simp]
theorem length_zipMerge (merge : α → β → α) (l : List α) (r : List β) :
    (zipMerge merge l r).length = l.length := by
  induction l generalizing r with
  | nil => cases r <;> rfl
  | cons a l ih =>
      cases r with
      | nil => rfl
      | cons b r => simp [zipMerge, ih]

/-- The element of a merge at a position. -/
theorem getElem?_zipMerge (merge : α → β → α) (l : List α) (r : List β) (i : Nat) :
    (zipMerge merge l r)[i]? =
      l[i]?.map fun a => (r[i]?.map fun b => merge a b).getD a := by
  induction l generalizing r i with
  | nil => cases r <;> simp [zipMerge]
  | cons a l ih =>
      cases r with
      | nil => cases h : (a :: l)[i]? <;> simp [zipMerge, h]
      | cons b r =>
          cases i with
          | zero => simp [zipMerge]
          | succ i => simpa [zipMerge] using ih r i

/-- What is merged at a position where both lists have an element. -/
theorem getElem?_zipMerge_of_some {merge : α → β → α} {l : List α} {r : List β} {i : Nat}
    {a : α} {b : β} (ha : l[i]? = some a) (hb : r[i]? = some b) :
    (zipMerge merge l r)[i]? = some (merge a b) := by
  rw [getElem?_zipMerge, ha, hb]
  rfl

/-- A merge that keeps what `f` sees of the left elements agrees in it with a right list that
the left one agrees with. -/
theorem Zipped.zipMerge_right {γ : Type} {f : α → γ} {g : β → γ} {merge : α → β → α}
    (hmerge : ∀ a b, f (merge a b) = f a) {l : List α} {r : List β}
    (h : Zipped (fun a b => f a = g b) l r) :
    Zipped (fun a b => f a = g b) (zipMerge merge l r) r := by
  intro i c b hc hb
  rw [getElem?_zipMerge, hb] at hc
  obtain ⟨a, ha, rfl⟩ := Option.map_eq_some_iff.mp hc
  exact (hmerge a b).trans (h i a b ha hb)

/-- It agrees in it with the left list. -/
theorem zipped_zipMerge_left {γ : Type} {f : α → γ} {merge : α → β → α}
    (hmerge : ∀ a b, f (merge a b) = f a) (l : List α) (r : List β) :
    Zipped (fun a c => f a = f c) l (zipMerge merge l r) := by
  intro i a c ha hc
  rw [getElem?_zipMerge, ha] at hc
  cases hb : r[i]? with
  | none =>
      rw [hb] at hc
      cases hc
      rfl
  | some b =>
      rw [hb] at hc
      cases hc
      exact (hmerge a b).symm

/-- What holds of the left elements and of the merged pairs holds of a merge. -/
theorem forall_mem_zipMerge {merge : α → β → α} {p : α → Prop} {l : List α} {r : List β}
    (hl : ∀ a ∈ l, p a)
    (hmerge : ∀ (i : Nat) (a : α) (b : β), l[i]? = some a → r[i]? = some b → p (merge a b)) :
    ∀ c ∈ zipMerge merge l r, p c := by
  intro c hc
  rcases List.mem_iff_getElem?.mp hc with ⟨i, hi⟩
  rw [getElem?_zipMerge] at hi
  rcases Option.map_eq_some_iff.mp hi with ⟨a, ha, rfl⟩
  cases hb : r[i]? with
  | none => exact hl a (List.mem_of_getElem? ha)
  | some b => exact hmerge i a b ha hb

/-- In a list of the same length an element has a partner. -/
theorem exists_partner {l : List α} {r : List β} {a : α} (hlen : l.length = r.length)
    (ha : a ∈ l) : ∃ (i : Nat) (b : β), l[i]? = some a ∧ r[i]? = some b := by
  obtain ⟨i, hi⟩ := List.mem_iff_getElem?.mp ha
  have hlt : i < r.length := hlen ▸ (List.getElem?_eq_some_iff.mp hi).1
  exact ⟨i, r[i], hi, List.getElem?_eq_getElem hlt⟩

/-- The elements of a merge of lists of one length are the merged pairs. -/
theorem mem_zipMerge_iff {merge : α → β → α} {l : List α} {r : List β} {c : α}
    (hlen : l.length = r.length) :
    c ∈ zipMerge merge l r ↔
      ∃ (i : Nat) (a : α) (b : β), l[i]? = some a ∧ r[i]? = some b ∧ c = merge a b := by
  constructor
  · intro hc
    obtain ⟨i, hi⟩ := List.mem_iff_getElem?.mp hc
    have hlt : i < l.length := by
      simpa using (List.getElem?_eq_some_iff.mp hi).1
    have hltr : i < r.length := hlen ▸ hlt
    have ha : l[i]? = some l[i] := List.getElem?_eq_getElem hlt
    have hb : r[i]? = some r[i] := List.getElem?_eq_getElem hltr
    rw [getElem?_zipMerge_of_some ha hb] at hi
    exact ⟨i, l[i], r[i], ha, hb, (Option.some_inj.mp hi).symm⟩
  · rintro ⟨i, a, b, ha, hb, rfl⟩
    exact List.mem_of_getElem? (getElem?_zipMerge_of_some ha hb)

/-- A merge is the list that holds the merged pairs position by position. -/
theorem zipMerge_ext {merge : α → β → α} {l : List α} {r : List β} {m : List α}
    (h : ∀ i : Nat, l[i]?.map (fun a => (r[i]?.map fun b => merge a b).getD a) = m[i]?) :
    zipMerge merge l r = m :=
  List.ext_getElem? fun i => (getElem?_zipMerge merge l r i).trans (h i)

/-- Merging the same list in again changes nothing if merging does not. -/
theorem zipMerge_zipMerge_right {merge : α → β → α}
    (hmerge : ∀ a b, merge (merge a b) b = merge a b) (l : List α) (r : List β) :
    zipMerge merge (zipMerge merge l r) r = zipMerge merge l r := by
  apply zipMerge_ext
  intro i
  rw [getElem?_zipMerge]
  cases l[i]? <;> cases r[i]? <;> simp [hmerge]

/-- Merging a merge into its left half gives the merge. -/
theorem zipMerge_zipMerge_left {merge : α → α → α} (hself : ∀ a, merge a a = a)
    (hmerge : ∀ a b, merge a (merge a b) = merge a b) (l r : List α) :
    zipMerge merge l (zipMerge merge l r) = zipMerge merge l r := by
  apply zipMerge_ext
  intro i
  rw [getElem?_zipMerge]
  cases l[i]? <;> cases r[i]? <;> simp [hself, hmerge]

/-- Merging a list into itself changes nothing. -/
theorem zipMerge_self {merge : α → α → α} (hself : ∀ a, merge a a = a) (l : List α) :
    zipMerge merge l l = l := by
  apply zipMerge_ext
  intro i
  cases l[i]? <;> simp [hself]

/-- Pairwise merges can be regrouped unless the middle list is the shortest. -/
theorem zipMerge_assoc {merge : α → α → α}
    (hmerge : ∀ a b c, merge (merge a b) c = merge a (merge b c)) {l r : List α}
    (hlen : l.length ≤ r.length) (s : List α) :
    zipMerge merge (zipMerge merge l r) s = zipMerge merge l (zipMerge merge r s) := by
  apply zipMerge_ext
  intro i
  rw [getElem?_zipMerge, getElem?_zipMerge, getElem?_zipMerge]
  cases hl : l[i]? with
  | none => rfl
  | some a =>
      have hlt : i < r.length := (List.getElem?_eq_some_iff.mp hl).1.trans_le hlen
      rw [List.getElem?_eq_getElem hlt]
      cases s[i]? <;> simp [hmerge]

/-- Merges of lists of one length are equal exactly when each pair merges
equally. -/
theorem zipMerge_comm_iff {merge : α → α → α} {l r : List α} (hlen : l.length = r.length) :
    zipMerge merge l r = zipMerge merge r l ↔
      Zipped (fun a b => merge a b = merge b a) l r := by
  induction l generalizing r with
  | nil =>
      cases r with
      | nil => simp [zipMerge]
      | cons b r => simp at hlen
  | cons a l ih =>
      cases r with
      | nil => simp at hlen
      | cons b r =>
          rw [zipped_cons, ← ih (by simpa using hlen)]
          simp [zipMerge]

end RustPsbt
