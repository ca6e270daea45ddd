import Mathlib
import RustPsbt.Library.Outcome

/-!
# Ordered maps and their merges

`BTreeMap` is the extensional ordered map of the standard library.  A merge of
two maps either lets one side win (`extend`), or resolves every common key with
a fallible rule (`mergeStep`, folded over the entries in key order).

Main results:

- Theorem `BTreeMap.extend_comm_iff`: one-sided merges commute exactly when the maps
  agree on their common keys.
- Theorems `BTreeMap.foldlM_mergeStep_isOk` and `BTreeMap.foldlM_mergeStep_getElem?_of_mem`:
  a resolved merge succeeds exactly when every common key resolves, and holds the resolved
  value there.
- Theorem `BTreeMap.foldlM_mergeStep_eq_error`: otherwise it fails as its least failing
  key does.
-/

set_option linter.unusedSectionVars false

namespace RustPsbt

open Std

/-! ## Key types -/

/-- A type of map keys: a total order whose equality is decidable equality. -/
class OrdKey (α : Type) extends Ord α where
  [decEq : DecidableEq α]
  [trans : TransOrd α]
  [lawful : LawfulEqOrd α]

attribute [reducible, instance] OrdKey.decEq
attribute [instance] OrdKey.trans OrdKey.lawful

/-- Keys compared through an injective view of them. -/
@[reducible]
def OrdKey.ofInjective {α β : Type} [DecidableEq α] [OrdKey β] (f : α → β)
    (hf : Function.Injective f) : OrdKey α :=
  letI : Ord α := ⟨compareOn f⟩
  haveI htrans : TransOrd α := inferInstanceAs (TransCmp (compareOn f))
  { trans := htrans
    lawful := { htrans with eq_of_compare := fun h => hf (LawfulEqOrd.eq_of_compare h) } }

instance : OrdKey Nat := {}
instance : OrdKey UInt8 := {}
instance : OrdKey UInt32 := {}
instance : OrdKey UInt64 := {}
instance {α : Type} [OrdKey α] : OrdKey (List α) := {}

/-- Pairs are compared lexicographically. -/
instance {α β : Type} [OrdKey α] [OrdKey β] : OrdKey (α × β) :=
  letI : Ord (α × β) := lexOrd
  { trans := inferInstance, lawful := inferInstance }

/-! ## Maps -/

/-- Maps iterated in key order. -/
abbrev BTreeMap (K V : Type) [OrdKey K] :=
  ExtTreeMap K V compare

instance {K V : Type} [OrdKey K] [DecidableEq V] : DecidableEq (BTreeMap K V) :=
  inferInstanceAs (DecidableEq (ExtTreeMap K V compare))

/-- Merge of optional values in which the left one wins. -/
def OptionAgree {α : Type} (a b : Option α) : Prop :=
  ∀ x y, a = some x → b = some y → x = y

/-- Keeping the first set option commutes exactly when set options agree. -/
theorem option_or_comm_iff {α : Type} {a b : Option α} :
    a.or b = b.or a ↔ OptionAgree a b := by
  cases a <;> cases b <;> simp [OptionAgree, eq_comm]

theorem OptionAgree.symm {α : Type} {a b : Option α} (h : OptionAgree a b) :
    OptionAgree b a :=
  fun x y hx hy => (h y x hy hx).symm

/-- A maximum over optional values that starts at a set value is the greatest of
the set values. -/
theorem foldl_max_some {α : Type} [LinearOrder α] (l : List (Option α)) (a : α) :
    ∃ m, l.foldl max (some a) = some m ∧ IsGreatest {x | x = a ∨ some x ∈ l} m := by
  induction l generalizing a with
  | nil => exact ⟨a, rfl, Or.inl rfl, by simp [upperBounds]⟩
  | cons o l ih =>
      cases o with
      | none =>
          obtain ⟨m, hm, hgreatest⟩ := ih a
          exact ⟨m, by simpa using hm, by simpa using hgreatest⟩
      | some b =>
          obtain ⟨m, hm, hmem, hub⟩ := ih (max a b)
          refine ⟨m, by simpa using hm, ?_, ?_⟩
          · rcases hmem with rfl | hmem
            · rcases max_choice a b with hc | hc <;> simp [hc]
            · exact Or.inr (List.mem_cons_of_mem _ hmem)
          · have hmax : max a b ≤ m := hub (Or.inl rfl)
            rintro x (rfl | hx)
            · exact (le_max_left _ _).trans hmax
            · rcases List.mem_cons.mp hx with heq | hx
              · cases heq
                exact (le_max_right _ _).trans hmax
              · exact hub (Or.inr hx)

/-- A maximum over optional values, one of them set, is the greatest set value. -/
theorem max?_eq_some_some {α : Type} [LinearOrder α] {l : List (Option α)}
    (hsome : ∃ x, some x ∈ l) :
    ∃ m, l.max? = some (some m) ∧ IsGreatest {x | some x ∈ l} m := by
  induction l with
  | nil => simp at hsome
  | cons o l ih =>
      cases o with
      | some a =>
          obtain ⟨m, hm, hgreatest⟩ := foldl_max_some l a
          refine ⟨m, by rw [List.max?_cons', hm], ?_⟩
          simpa using hgreatest
      | none =>
          obtain ⟨m, hm, hgreatest⟩ := ih (by simpa using hsome)
          refine ⟨m, ?_, by simpa using hgreatest⟩
          cases l with
          | nil => simp at hm
          | cons o' l => simpa [List.max?_cons'] using hm

namespace BTreeMap

variable {K V : Type} [OrdKey K]

/-- `BTreeMap::extend`: the entries of `other` are inserted one after another. -/
def extend (self other : BTreeMap K V) : BTreeMap K V :=
  self ∪ other

theorem getElem?_extend (self other : BTreeMap K V) (k : K) :
    (extend self other)[k]? = other[k]?.or self[k]? :=
  ExtTreeMap.getElem?_union

/-- The maps hold equal values at their common keys. -/
def Agree (self other : BTreeMap K V) : Prop :=
  ∀ k : K, OptionAgree self[k]? other[k]?

/-- Every key of `self` is a key of `other`. -/
def KeysSubset (self other : BTreeMap K V) : Prop :=
  ∀ k : K, self[k]?.isSome → other[k]?.isSome

/-- Letting the right map win commutes exactly when the maps agree. -/
theorem extend_comm_iff (self other : BTreeMap K V) :
    extend self other = extend other self ↔ Agree self other := by
  constructor
  · intro heq k
    have hk : other[k]?.or self[k]? = self[k]?.or other[k]? := by
      rw [← getElem?_extend, heq, getElem?_extend]
    exact option_or_comm_iff.mp hk.symm
  · intro hagree
    apply ExtTreeMap.ext_getElem?
    intro k
    rw [getElem?_extend, getElem?_extend]
    exact (option_or_comm_iff.mpr (hagree k)).symm

/-- Extending a map with itself changes nothing. -/
@[simp]
theorem extend_self (self : BTreeMap K V) : extend self self = self := by
  apply ExtTreeMap.ext_getElem?
  intro k
  rw [getElem?_extend, Option.or_self]

theorem extend_assoc (a b c : BTreeMap K V) :
    extend (extend a b) c = extend a (extend b c) := by
  apply ExtTreeMap.ext_getElem?
  intro k
  simp only [getElem?_extend, Option.or_assoc]

/-- An empty map has no value at any key. -/
theorem isEmpty_iff_getElem? {self : BTreeMap K V} :
    self.isEmpty ↔ ∀ k : K, self[k]? = none := by
  rw [ExtTreeMap.isEmpty_iff, ExtTreeMap.ext_getElem?_iff]
  simp only [ExtTreeMap.getElem?_empty]

/-- A map is not empty when it has an entry. -/
theorem isEmpty_eq_false_iff {self : BTreeMap K V} :
    self.isEmpty = false ↔ ∃ (k : K) (v : V), self[k]? = some v := by
  rw [← Bool.not_eq_true, isEmpty_iff_getElem?, not_forall]
  exact exists_congr fun k => Option.ne_none_iff_exists'

theorem not_mem_of_isEmpty {self : BTreeMap K V} (h : self.isEmpty) (k : K) : k ∉ self := by
  rw [ExtTreeMap.isEmpty_iff.mp h]
  exact ExtTreeMap.not_mem_empty

theorem toList_eq_nil {self : BTreeMap K V} (h : self.isEmpty) : self.toList = [] := by
  rw [ExtTreeMap.isEmpty_iff.mp h]
  rfl

/-- An extended map is empty exactly when both maps are. -/
theorem isEmpty_extend (self other : BTreeMap K V) :
    (extend self other).isEmpty = (self.isEmpty && other.isEmpty) := by
  rw [Bool.eq_iff_iff, Bool.and_eq_true]
  simp only [ExtTreeMap.isEmpty_iff, ExtTreeMap.ext_getElem?_iff]
  simp [getElem?_extend, forall_and, and_comm]

theorem keysSubset_refl (self : BTreeMap K V) : KeysSubset self self :=
  fun _ h => h

theorem keysSubset_extend_left (self other : BTreeMap K V) :
    KeysSubset self (extend self other) := by
  intro k hk
  rw [getElem?_extend]
  simp [hk]

theorem keysSubset_extend_right (self other : BTreeMap K V) :
    KeysSubset other (extend self other) := by
  intro k hk
  rw [getElem?_extend]
  simp [hk]

/-- Inserting the value a map already holds changes nothing. -/
theorem insert_self_of_getElem? {m : BTreeMap K V} {k : K} {v : V}
    (h : m[k]? = some v) : m.insert k v = m := by
  apply ExtTreeMap.ext_getElem?
  intro a
  rw [ExtTreeMap.getElem?_insert]
  split
  · rename_i hcmp
    rw [← LawfulEqOrd.eq_of_compare hcmp, h]
  · rfl

/-- Lookup in an extended map, with the key test as an equation. -/
theorem getElem?_insert_eq (m : BTreeMap K V) (k a : K) (v : V) :
    (m.insert k v)[a]? = if k = a then some v else m[a]? := by
  rw [ExtTreeMap.getElem?_insert]
  simp

/-- The keys of an entry list are pairwise distinct. -/
def DistinctKeys (l : List (K × V)) : Prop :=
  l.Pairwise fun a b => a.1 ≠ b.1

theorem distinctKeys_toList (m : BTreeMap K V) : DistinctKeys m.toList := by
  have h : m.toList.Pairwise fun a b => ¬compare a.1 b.1 = .eq :=
    ExtTreeMap.distinct_keys_toList
  refine h.imp ?_
  intro a b hne heq
  exact hne (by rw [heq]; exact ReflCmp.compare_self)

/-! ## Merges that resolve common keys -/

/-- One entry of a resolved merge: a vacant key takes the entry, an occupied key
takes what `resolve key old new` returns. -/
def mergeStep {ε : Type} (resolve : K → V → V → Result ε V)
    (m : BTreeMap K V) (entry : K × V) : Result ε (BTreeMap K V) :=
  match m[entry.1]? with
  | none => .ok (m.insert entry.1 entry.2)
  | some old => do
      let v ← resolve entry.1 old entry.2
      .ok (m.insert entry.1 v)

/-- How one entry resolves against a map it does not change. -/
def entryFault {ε : Type} (resolve : K → V → V → Result ε V)
    (m : BTreeMap K V) (entry : K × V) : Option (Fault ε) :=
  match m[entry.1]? with
  | none => none
  | some old =>
      match resolve entry.1 old entry.2 with
      | .ok _ => none
      | .error f => some f

section Resolve

variable {ε : Type} {resolve : K → V → V → Result ε V}

theorem entryFault_eq_none {m : BTreeMap K V} {entry : K × V} :
    entryFault resolve m entry = none ↔
      ∀ old, m[entry.1]? = some old → ∃ v, resolve entry.1 old entry.2 = .ok v := by
  unfold entryFault
  cases hm : m[entry.1]? with
  | none => simp
  | some old =>
      cases hr : resolve entry.1 old entry.2 with
      | ok v => simp [hr]
      | error f => simp [hr]

/-- A resolved entry changes its own key only. -/
theorem mergeStep_getElem?_of_ne {m m' : BTreeMap K V} {entry : K × V} {k : K}
    (hstep : mergeStep resolve m entry = .ok m') (hne : entry.1 ≠ k) :
    m'[k]? = m[k]? := by
  unfold mergeStep at hstep
  cases hm : m[entry.1]? with
  | none =>
      simp only [hm, Except.ok.injEq] at hstep
      rw [← hstep, getElem?_insert_eq, if_neg hne]
  | some old =>
      simp only [hm] at hstep
      obtain ⟨v, -, hv⟩ := Result.bind_eq_ok.mp hstep
      simp only [Except.ok.injEq] at hv
      rw [← hv, getElem?_insert_eq, if_neg hne]

/-- The value a resolved entry leaves at its key. -/
theorem mergeStep_getElem?_self {m m' : BTreeMap K V} {entry : K × V}
    (hstep : mergeStep resolve m entry = .ok m') :
    (m[entry.1]? = none → m'[entry.1]? = some entry.2) ∧
      ∀ old, m[entry.1]? = some old →
        ∃ v, resolve entry.1 old entry.2 = .ok v ∧ m'[entry.1]? = some v := by
  unfold mergeStep at hstep
  cases hm : m[entry.1]? with
  | none =>
      simp only [hm, Except.ok.injEq] at hstep
      refine ⟨fun _ => ?_, by simp⟩
      rw [← hstep, getElem?_insert_eq, if_pos rfl]
  | some old =>
      simp only [hm] at hstep
      obtain ⟨v, hr, hv⟩ := Result.bind_eq_ok.mp hstep
      simp only [Except.ok.injEq] at hv
      refine ⟨by simp, ?_⟩
      intro old' hold
      rw [Option.some_inj.mp hold] at hr
      exact ⟨v, hr, by rw [← hv, getElem?_insert_eq, if_pos rfl]⟩

theorem mergeStep_eq_error {m : BTreeMap K V} {entry : K × V} {f : Fault ε} :
    mergeStep resolve m entry = .error f ↔ entryFault resolve m entry = some f := by
  unfold mergeStep entryFault
  cases hm : m[entry.1]? with
  | none => simp
  | some old => cases hr : resolve entry.1 old entry.2 <;> simp [hr]

/-- Entries with other keys resolve the same after a step. -/
theorem entryFault_mergeStep {m m' : BTreeMap K V} {entry other : K × V}
    (hstep : mergeStep resolve m entry = .ok m') (hne : entry.1 ≠ other.1) :
    entryFault resolve m' other = entryFault resolve m other := by
  unfold entryFault
  rw [mergeStep_getElem?_of_ne hstep hne]

/-- Searches that agree on the listed elements find the same. -/
theorem findSome?_congr_mem {α β : Type} {p q : α → Option β} {l : List α}
    (h : ∀ a ∈ l, p a = q a) : l.findSome? p = l.findSome? q := by
  induction l with
  | nil => rfl
  | cons a l ih =>
      rw [List.findSome?_cons, List.findSome?_cons, h a List.mem_cons_self,
        ih fun b hb => h b (List.mem_cons_of_mem _ hb)]

/-- A resolved merge fails exactly as its first failing entry. -/
theorem foldlM_mergeStep_eq_error {l : List (K × V)} (hdist : DistinctKeys l)
    {m : BTreeMap K V} {f : Fault ε} :
    l.foldlM (mergeStep resolve) m = .error f ↔
      l.findSome? (entryFault resolve m) = some f := by
  induction l generalizing m with
  | nil => simp [pure, Except.pure]
  | cons entry l ih =>
      obtain ⟨hhead, htail⟩ := List.pairwise_cons.mp hdist
      rw [List.foldlM_cons, List.findSome?_cons]
      cases hstep : mergeStep resolve m entry with
      | error g =>
          rw [mergeStep_eq_error.mp hstep]
          simp
      | ok m' =>
          have hnone : entryFault resolve m entry = none := by
            cases hf : entryFault resolve m entry with
            | none => rfl
            | some g =>
                rw [mergeStep_eq_error.mpr hf] at hstep
                cases hstep
          have hsame : l.findSome? (entryFault resolve m') =
              l.findSome? (entryFault resolve m) := by
            apply findSome?_congr_mem
            intro other hmem
            exact entryFault_mergeStep hstep (hhead other hmem)
          simp only [Result.ok_bind, hnone]
          rw [ih htail, hsame]

/-- A resolved merge succeeds exactly when every entry resolves. -/
theorem foldlM_mergeStep_isOk {l : List (K × V)} (hdist : DistinctKeys l)
    {m : BTreeMap K V} :
    (∃ m', l.foldlM (mergeStep resolve) m = .ok m') ↔
      ∀ entry ∈ l, entryFault resolve m entry = none := by
  rw [← List.findSome?_eq_none_iff]
  cases hfold : l.foldlM (mergeStep resolve) m with
  | error f =>
      rw [foldlM_mergeStep_eq_error hdist] at hfold
      simp [hfold]
  | ok m' =>
      cases hfind : l.findSome? (entryFault resolve m) with
      | none => simp
      | some f =>
          rw [← foldlM_mergeStep_eq_error hdist, hfold] at hfind
          cases hfind

/-- A resolved merge leaves keys without an entry as they were. -/
theorem foldlM_mergeStep_getElem?_of_notMem {l : List (K × V)} {m m' : BTreeMap K V}
    (hfold : l.foldlM (mergeStep resolve) m = .ok m') {k : K}
    (hk : ∀ entry ∈ l, entry.1 ≠ k) : m'[k]? = m[k]? := by
  induction l generalizing m with
  | nil =>
      simp only [List.foldlM_nil, Result.pure_eq_ok, Except.ok.injEq] at hfold
      rw [hfold]
  | cons entry l ih =>
      rw [List.foldlM_cons] at hfold
      obtain ⟨mid, hstep, hrest⟩ := Result.bind_eq_ok.mp hfold
      rw [ih hrest (fun e he => hk e (List.mem_cons_of_mem _ he))]
      exact mergeStep_getElem?_of_ne hstep (hk entry List.mem_cons_self)

/-- What a resolved merge leaves at the key of an entry. -/
theorem foldlM_mergeStep_getElem?_of_mem {l : List (K × V)} (hdist : DistinctKeys l)
    {m m' : BTreeMap K V} (hfold : l.foldlM (mergeStep resolve) m = .ok m')
    {entry : K × V} (hmem : entry ∈ l) :
    (m[entry.1]? = none → m'[entry.1]? = some entry.2) ∧
      ∀ old, m[entry.1]? = some old →
        ∃ v, resolve entry.1 old entry.2 = .ok v ∧ m'[entry.1]? = some v := by
  induction l generalizing m with
  | nil => simp at hmem
  | cons head l ih =>
      obtain ⟨hhead, htail⟩ := List.pairwise_cons.mp hdist
      rw [List.foldlM_cons] at hfold
      obtain ⟨mid, hstep, hrest⟩ := Result.bind_eq_ok.mp hfold
      rcases List.mem_cons.mp hmem with rfl | hmem'
      · have hkeep : m'[entry.1]? = mid[entry.1]? :=
          foldlM_mergeStep_getElem?_of_notMem hrest
            (fun e he => (hhead e he).symm)
        rw [hkeep]
        exact mergeStep_getElem?_self hstep
      · have hmid : mid[entry.1]? = m[entry.1]? :=
          mergeStep_getElem?_of_ne hstep (hhead entry hmem')
        rw [← hmid]
        exact ih htail hrest hmem'

end Resolve

/-! ## Least keys -/

/-- A search through a map in key order finds the least key it accepts. -/
theorem findSome?_toList_of_least {β : Type} {m : BTreeMap K V} {p : K × V → Option β}
    {k : K} {v : V} {b : β} (hk : m[k]? = some v) (hp : p (k, v) = some b)
    (hleast : ∀ k' v', m[k']? = some v' → compare k' k = .lt → p (k', v') = none) :
    m.toList.findSome? p = some b := by
  have hsorted : m.toList.Pairwise fun a b => compare a.1 b.1 = .lt :=
    ExtTreeMap.ordered_keys_toList
  have hmem : (k, v) ∈ m.toList := ExtTreeMap.mem_toList_iff_getElem?_eq_some.mpr hk
  obtain ⟨before, after, hsplit⟩ := List.append_of_mem hmem
  rw [hsplit, List.pairwise_append] at hsorted
  have hbefore : before.findSome? p = none := by
    rw [List.findSome?_eq_none_iff]
    rintro ⟨k', v'⟩ hin
    refine hleast k' v' ?_ (hsorted.2.2 (k', v') hin (k, v) List.mem_cons_self)
    rw [← ExtTreeMap.mem_toList_iff_getElem?_eq_some, hsplit]
    exact List.mem_append_left _ hin
  rw [hsplit, List.findSome?_append, hbefore]
  simp [hp]

/-- An accepted entry of a map implies a least one. -/
theorem exists_least {m : BTreeMap K V} {p : K → V → Prop}
    (h : ∃ (k : K) (v : V), m[k]? = some v ∧ p k v) :
    ∃ (k : K) (v : V), m[k]? = some v ∧ p k v ∧
      ∀ (k' : K) (v' : V), m[k']? = some v' → compare k' k = .lt → ¬p k' v' := by
  classical
  have hsorted : m.toList.Pairwise fun a b => compare a.1 b.1 = .lt :=
    ExtTreeMap.ordered_keys_toList
  simp only [← ExtTreeMap.mem_toList_iff_getElem?_eq_some] at h ⊢
  generalize m.toList = l at h hsorted
  induction l with
  | nil => simp at h
  | cons entry l ih =>
      obtain ⟨hhead, htail⟩ := List.pairwise_cons.mp hsorted
      by_cases hp : p entry.1 entry.2
      · refine ⟨entry.1, entry.2, List.mem_cons_self, hp, ?_⟩
        intro k' v' hmem hlt
        rcases List.mem_cons.mp hmem with heq | hmem
        · have hself : compare k' k' = .eq := ReflCmp.compare_self
          rw [← heq, hself] at hlt
          cases hlt
        · have hgt : compare k' entry.1 = .gt := OrientedCmp.gt_of_lt (hhead _ hmem)
          rw [hgt] at hlt
          cases hlt
      · obtain ⟨k, v, hmem, hk⟩ := h
        have htailMem : (k, v) ∈ l := by
          rcases List.mem_cons.mp hmem with heq | hmem
          · exact absurd (heq ▸ hk) hp
          · exact hmem
        obtain ⟨k, v, hmem, hk, hleast⟩ := ih ⟨k, v, htailMem, hk⟩ htail
        refine ⟨k, v, List.mem_cons_of_mem _ hmem, hk, ?_⟩
        intro k' v' hmem' hlt
        rcases List.mem_cons.mp hmem' with heq | hmem'
        · rw [← heq] at hp
          exact hp
        · exact hleast k' v' hmem' hlt

end BTreeMap

end RustPsbt
