import RustPsbt.Library.PushDecoder

/-!
# Prefix-free encodings

Words are prefix free when no stream starts with two of them.  Rows of such words can be cut
into words in one way only.

Main results:

- Theorem `PrefixFree.rows_unique`: a row is cut into its words in one way.
- Theorem `PrefixFree.sum`: two kinds of words that never start the same stream.
- Theorem `PushDecoder.Lawful.prefixFree`: what a decoder takes is prefix free.
-/

namespace RustPsbt

variable {β α γ ε : Type}

/-- `R w a` says that the word `w` stands for `a`; at most one word is at the front of a
stream, and it stands for one value. -/
structure PrefixFree (R : List β → α → Prop) : Prop where
  ne_nil : ∀ {w a}, R w a → w ≠ []
  unique : ∀ {w w' r r' a a'}, R w a → R w' a' → w ++ r = w' ++ r' → w = w' ∧ a = a'

/-- Words of two kinds. -/
inductive EitherWord (R : List β → α → Prop) (S : List β → γ → Prop) : List β → α ⊕ γ → Prop where
  | left {w : List β} {a : α} (word : R w a) : EitherWord R S w (.inl a)
  | right {w : List β} {c : γ} (word : S w c) : EitherWord R S w (.inr c)

namespace PrefixFree

variable {R : List β → α → Prop} {S : List β → γ → Prop}

/-- A row of words is cut into its words in one way. -/
theorem rows_unique (h : PrefixFree R) {ws ws' : List (List β)} {as as' : List α}
    (hrow : List.Forall₂ R ws as) (hrow' : List.Forall₂ R ws' as')
    (heq : ws.flatten = ws'.flatten) : ws = ws' ∧ as = as' := by
  induction hrow generalizing ws' as' with
  | nil =>
      cases hrow' with
      | nil => exact ⟨rfl, rfl⟩
      | cons hw _ =>
          rw [List.flatten_nil, List.flatten_cons] at heq
          exact absurd (List.append_eq_nil_iff.mp heq.symm).1 (h.ne_nil hw)
  | cons hw _ ih =>
      cases hrow' with
      | nil =>
          rw [List.flatten_nil, List.flatten_cons] at heq
          exact absurd (List.append_eq_nil_iff.mp heq).1 (h.ne_nil hw)
      | cons hw' hrow' =>
          rw [List.flatten_cons, List.flatten_cons] at heq
          obtain ⟨rfl, rfl⟩ := h.unique hw hw' heq
          obtain ⟨rfl, rfl⟩ := ih hrow' (List.append_cancel_left heq)
          exact ⟨rfl, rfl⟩

/-- Two kinds of words are prefix free together when no stream starts with both. -/
theorem sum (h : PrefixFree R) (h' : PrefixFree S)
    (hdisjoint : ∀ {w w' r r' a c}, R w a → S w' c → w ++ r ≠ w' ++ r') :
    PrefixFree (EitherWord R S) where
  ne_nil := by
    intro w a hw
    cases hw with
    | left hw => exact h.ne_nil hw
    | right hw => exact h'.ne_nil hw
  unique := by
    intro w w' r r' a a' hw hw' heq
    cases hw with
    | left hw =>
        cases hw' with
        | left hw' =>
            obtain ⟨rfl, rfl⟩ := h.unique hw hw' heq
            exact ⟨rfl, rfl⟩
        | right hw' => exact absurd heq (hdisjoint hw hw')
    | right hw =>
        cases hw' with
        | left hw' => exact absurd heq.symm (hdisjoint hw' hw)
        | right hw' =>
            obtain ⟨rfl, rfl⟩ := h'.unique hw hw' heq
            exact ⟨rfl, rfl⟩

end PrefixFree

/-- What a strict decoder takes is prefix free. -/
theorem PushDecoder.Lawful.prefixFree {D : PushDecoder β ε α} (h : D.Lawful)
    (hstrict : D.Strict) : PrefixFree D.Decodes where
  ne_nil hdec := PushDecoder.Lawful.Decodes.ne_nil h hstrict hdec
  unique hdec hdec' heq := by
    obtain ⟨hw, ha, _⟩ := h.decodes_unique hdec hdec' heq
    exact ⟨hw, ha⟩

end RustPsbt
