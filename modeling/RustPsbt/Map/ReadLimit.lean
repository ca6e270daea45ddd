import RustPsbt.Encoding.ReadLimit
import RustPsbt.Map.Decoder

/-!
# Read limits of maps

A map decoder reports the limit of the key or value it is in, and one byte where a key or
the separator may follow.

Main results:

- Theorem `MapSpec.Lawful.limits_mapDecoder`: the limits suit except where those of a value
  do not.
- Theorem `MapSpec.Lawful.limits_of_values`: they suit when those of all values do.
-/

namespace RustPsbt

open PushDecoder

variable [BitcoinTypes] [BitcoinCodecs]

namespace MapSpec

variable {ε M α : Type}

/-- From the fields `m` on, the position is in the value of a pair, where `Bad` holds. -/
def InPair (S : MapSpec ε M α) (Bad : S.Field → Bytes → Bytes → Prop) (m : M)
    (x y : Bytes) : Prop :=
  ∃ (ps : List Pair) (m' : M) (key : Key) (f : S.Field) (v : S.Value f) (x' y' r : Bytes),
    x = pairsBytes ps ++ (key.bytes ++ x') ∧ y = y' ++ r ∧ S.Steps m ps m' ∧
      S.fromKey key = .ok f ∧ (S.decoder f).Decodes (x' ++ y') v ∧ Bad f x' y'

section Laws

variable [LawfulCodecs] [LawfulReadLimits] {S : MapSpec ε M α}
  {Bad : S.Field → Bytes → Bytes → Prop} {WK : keyDecoder.State → Prop}
  {WV : (f : S.Field) → (S.decoder f).State → Prop}

omit [LawfulCodecs] [LawfulReadLimits] in
/-- A position in the pairs behind the first one. -/
theorem InPair.cons {m m₁ : M} {p : Pair} {f : S.Field} {v : S.Value f} {x y : Bytes}
    (head : S.Step m p m₁ f v) (h : S.InPair Bad m₁ x y) :
    S.InPair Bad m (p.1.bytes ++ (frame p.2 ++ x)) y := by
  rcases h with ⟨ps, m', key, f', v', x', y', r, rfl, rfl, tail, hrest⟩
  refine ⟨p :: ps, m', key, f', v', x', y', r, ?_, rfl, .cons head tail, hrest⟩
  simp only [pairsBytes_cons, List.append_assoc]

omit [LawfulCodecs] [LawfulReadLimits] in
/-- No value starts where the map does. -/
theorem not_inPair_nil {m : M} (y : Bytes) : ¬S.InPair Bad m [] y := by
  rintro ⟨ps, m', key, f, v, x', y', r, hnil, _⟩
  obtain ⟨_, hkey⟩ := List.append_eq_nil_iff.mp hnil.symm
  obtain ⟨hbytes, _⟩ := List.append_eq_nil_iff.mp hkey
  exact compactSize_ne_nil _ (List.append_eq_nil_iff.mp hbytes).1

omit [LawfulCodecs] [LawfulReadLimits] in
/-- Where a key or the separator may follow, the limit is one byte. -/
theorem limitsFrom_separator_nil {m : M} {y : Bytes} (hy : y ≠ []) :
    S.mapDecoder.LimitsFrom (State.separator m) [] y := by
  intro t r st hpush
  rw [push_separator_nil] at hpush
  cases hpush
  have hpos := List.length_pos_iff.mpr hy
  exact ⟨hpos, iff_of_false Nat.one_ne_zero hy⟩

variable (h : S.Lawful) (hK : keyDecoder.LawfulOn WK) (hV : ∀ f, (S.decoder f).LawfulOn (WV f))
  (hlimits : ∀ f, (S.decoder f).LimitsExcept (Bad f))

include h hK hV hlimits

/-- In a pair the limits suit, and behind it when they do from the next separator on. -/
theorem limitsFrom_pair {m m₁ : M} {p : Pair} {f : S.Field} {v : S.Value f} {x y rest : Bytes}
    (head : S.Step m p m₁ f v) (heq : x ++ y = p.1.bytes ++ (frame p.2 ++ rest))
    (hgood : ¬S.InPair Bad m x y)
    (hnext : ∀ {x'}, x = p.1.bytes ++ (frame p.2 ++ x') → rest = x' ++ y →
      S.mapDecoder.LimitsFrom (State.separator m₁) x' y) :
    S.mapDecoder.LimitsFrom (State.key m keyDecoder.init) x y := by
  have hkey : keyDecoder.Decodes p.1.bytes p.1 :=
    accepts_keyDecoder.mpr ⟨(List.append_nil _).symm, head.key_le⟩
  have hvalue : (S.valueStage m f p.1).Decodes (frame p.2) m₁ :=
    (accepts_closing (h.closes f p.1 m)).mpr ⟨v, head.decodes, head.handle⟩
  refine (stage_key h hK hV m).limitsFrom hK (fun _ => rfl) hkey
    (afterKey_eq_ok.mpr ⟨f, head.fromKey, rfl⟩) heq ?_ ?_
  · rintro left _ hw _
    rw [hw] at hkey
    exact limits_keyDecoder.push hkey id
  · rintro x' rfl heq'
    have hclosing := (hV f).closing (h.closes f p.1 m)
    refine (stage_value h hK hV m f p.1).limitsFrom hclosing (fun _ => rfl) hvalue rfl
      heq'.symm ?_ ?_
    · rintro left _ hw rfl
      have hinner : (S.decoder f).Decodes (x' ++ left) v := hw ▸ head.decodes
      have hvalue' : (S.valueStage m f p.1).Decodes (x' ++ left) m₁ := hw ▸ hvalue
      refine ((hlimits f).closing (h.closes f p.1 m)).push hvalue' fun hbad => ?_
      exact hgood ⟨[], m, p.1, f, v, x', left, rest, rfl, rfl, .nil, head.fromKey, hinner, hbad⟩
    · rintro x'' rfl hrest
      exact hnext rfl hrest

/-- From a separator on the limits suit. -/
theorem limitsFrom_steps {m m' : M} {ps : List Pair} {out : α} (hsteps : S.Steps m ps m')
    (hfinish : S.finish m' = .ok out) {x y : Bytes} (heq : x ++ y = mapBytes ps)
    (hgood : ¬S.InPair Bad m x y) : S.mapDecoder.LimitsFrom (State.separator m) x y := by
  induction hsteps generalizing x y with
  | @nil m =>
      rcases List.append_eq_singleton_iff.mp heq with ⟨rfl, rfl⟩ | ⟨rfl, rfl⟩
      · exact limitsFrom_separator_nil (List.cons_ne_nil _ _)
      · intro t r st hpush
        rw [push_separator, hfinish] at hpush
        cases hpush
        exact limitAt_nil.mpr rfl
  | @cons m m₁ m₂ p ps f v head tail ih =>
      rcases p.1.bytes_eq_cons head.key_le with ⟨byte, b, hb, hne⟩
      have hpair : x ++ y = p.1.bytes ++ (frame p.2 ++ mapBytes ps) := by
        rw [heq]
        simp [mapBytes, pairsBytes_cons]
      cases x with
      | nil =>
          apply limitsFrom_separator_nil
          rintro rfl
          rw [hb] at hpair
          cases hpair
      | cons byte' x =>
          have hbyte : byte' = byte := by
            rw [hb] at hpair
            exact (List.cons.inj hpair).1
          subst hbyte
          intro t r st hpush
          rw [push_separator_of_ne h hK hV m hne] at hpush
          refine limitsFrom_pair h hK hV hlimits head hpair hgood ?_ hpush
          rintro x' hx hrest
          refine ih hfinish hrest.symm fun hbad => hgood ?_
          rw [hx]
          exact hbad.cons head

end Laws

/-- The limits of a map decoder suit except where those of a value do not. -/
theorem Lawful.limits_mapDecoder [LawfulCodecs] [LawfulReadLimits] {S : MapSpec ε M α}
    {Bad : S.Field → Bytes → Bytes → Prop} (h : S.Lawful)
    (hlimits : ∀ f, (S.decoder f).LimitsExcept (Bad f)) :
    S.mapDecoder.LimitsExcept (S.InPair Bad S.empty) := by
  rcases lawful_keyDecoder with ⟨WK, hK⟩
  apply LimitsExcept.of_strict (strict_mapDecoder S)
  intro x y out hdec hgood
  rcases h.accepts_iff.mp hdec with ⟨ps, m, heq, hsteps, hout⟩
  rcases Result.bind_eq_ok.mp hout with ⟨out', hfinish, _⟩
  rw [List.append_nil] at heq
  exact limitsFrom_steps h hK (fun f => (h.framed f).lawful.choose_spec) hlimits hsteps hfinish
    heq hgood

/-- The limits of a map decoder suit when those of all values do. -/
theorem Lawful.limits_of_values [LawfulCodecs] [LawfulReadLimits] {S : MapSpec ε M α}
    (h : S.Lawful) (hlimits : ∀ f, (S.decoder f).Limits) : S.mapDecoder.Limits := by
  refine (h.limits_mapDecoder hlimits).mono ?_
  rintro x y ⟨_, _, _, _, _, _, _, _, _, _, _, _, _, hbad⟩
  exact hbad

end MapSpec

end RustPsbt
