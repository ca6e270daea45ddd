import RustPsbt.Map.Framing

/-!
# The framing grammar

A map is `(keylen key vallen value)* 0x00`.  The grammar knows no key types: keys and values
are byte strings behind their lengths.

Main results:

- Theorem `Grammar.readMaps_eq`: the parser of the grammar reads maps back from their bytes.
- Theorem `Grammar.At.cons`: the place of a byte behind a pair.
-/

namespace RustPsbt

/-- A raw key and a raw value. -/
abbrev RawPair :=
  Bytes × Bytes

/-- The raw key and the raw value of a pair. -/
def Pair.raw (p : Pair) : RawPair :=
  (p.1.body, p.2)

namespace Grammar

/-! ## The parser -/

/-- Read a length and the bytes it announces. -/
def readFramed (b : Bytes) : Option (Bytes × Bytes) := do
  let (n, b) ← readCompactSize b
  if n ≤ b.length then some (b.take n, b.drop n) else none

/-- Read pairs up to the separator; it is `none` when there are as many pairs as `fuel`. -/
def readMap : Nat → Bytes → Option (List RawPair × Bytes)
  | 0, _ => none
  | _ + 1, [] => none
  | fuel + 1, byte :: b =>
      if byte = psbtSeparator then some ([], b)
      else do
        let (key, b) ← readFramed (byte :: b)
        let (value, b) ← readFramed b
        let (pairs, b) ← readMap fuel b
        some ((key, value) :: pairs, b)

/-- Read maps one after the other. -/
def readMaps : Nat → Bytes → Option (List (List RawPair) × Bytes)
  | 0, b => some ([], b)
  | n + 1, b => do
      let (map, b) ← readMap (b.length + 1) b
      let (maps, b) ← readMaps n b
      some (map :: maps, b)

theorem readFramed_frame {w : Bytes} (hw : w.length ≤ compactSizeLimit) (r : Bytes) :
    readFramed (frame w ++ r) = some (w, r) := by
  have hlimit := compactSizeLimit_lt
  have hread : readCompactSize (compactSize w.length ++ (w ++ r)) = some (w.length, w ++ r) :=
    readCompactSize_compactSize (by omega) _
  unfold readFramed
  rw [frame_append, hread]
  simp

/-- A map is read back from its bytes. -/
theorem readMap_mapBytes {ps : List Pair} (hps : ∀ p ∈ ps, PairFits p) (r : Bytes) {fuel : Nat}
    (hfuel : ps.length < fuel) :
    readMap fuel (mapBytes ps ++ r) = some (ps.map Pair.raw, r) := by
  induction ps generalizing fuel with
  | nil =>
      cases fuel with
      | zero => omega
      | succ fuel => rfl
  | cons p ps ih =>
      cases fuel with
      | zero => omega
      | succ fuel =>
          have hp := hps p List.mem_cons_self
          obtain ⟨byte, b, hb, hne⟩ := p.1.bytes_eq_cons hp.1
          have hsep : byte ≠ psbtSeparator := hne
          have hbytes : mapBytes (p :: ps) ++ r =
              byte :: (b ++ (frame p.2 ++ (mapBytes ps ++ r))) := by
            simp [mapBytes_append, hb]
          have hkey : readFramed (byte :: (b ++ (frame p.2 ++ (mapBytes ps ++ r)))) =
              some (p.1.body, frame p.2 ++ (mapBytes ps ++ r)) := by
            rw [← List.cons_append, ← hb]
            exact readFramed_frame hp.1 _
          have hlen : ps.length < fuel := by
            simp only [List.length_cons] at hfuel
            omega
          have hrest := ih (fun q hq => hps q (List.mem_cons_of_mem _ hq)) hlen
          rw [hbytes, readMap, if_neg hsep, hkey]
          simp [readFramed_frame hp.2, hrest, Pair.raw]

/-- There are no more pairs than bytes. -/
theorem length_le_length_pairsBytes (ps : List Pair) : ps.length ≤ (pairsBytes ps).length := by
  apply length_le_length_flatMap
  intro p
  have hpos := List.length_pos_iff.mpr (compactSize_ne_nil p.1.body.length)
  simp only [pairBytes, Key.bytes, frame, List.length_append]
  omega

/-- Maps are read back from their bytes. -/
theorem readMaps_eq {pss : List (List Pair)} (hpss : ∀ ps ∈ pss, ∀ p ∈ ps, PairFits p)
    (r : Bytes) : readMaps pss.length (pss.flatMap mapBytes ++ r) =
      some (pss.map fun ps => ps.map Pair.raw, r) := by
  induction pss with
  | nil => rfl
  | cons ps pss ih =>
      have hrest := ih fun qs hqs => hpss qs (List.mem_cons_of_mem _ hqs)
      have hlen := length_le_length_pairsBytes ps
      have hmap : readMap ((mapBytes ps ++ (pss.flatMap mapBytes ++ r)).length + 1)
          (mapBytes ps ++ (pss.flatMap mapBytes ++ r)) =
            some (ps.map Pair.raw, pss.flatMap mapBytes ++ r) := by
        apply readMap_mapBytes (hpss ps List.mem_cons_self)
        simp only [mapBytes, List.length_append]
        omega
      rw [List.flatMap_cons, List.append_assoc, List.length_cons, readMaps, hmap]
      simp [hrest]

/-! ## Places in a map -/

/-- Where a part of a map ends: between pairs, inside a key, inside a value (or before it), or
behind the separator. -/
inductive Place where
  | boundary
  | key
  | value
  | done
deriving DecidableEq

/-- The bytes of raw pairs. -/
def rawBytes (ps : List RawPair) : Bytes :=
  ps.flatMap fun p => frame p.1 ++ frame p.2

/-- The first bytes of a map with the pairs end at the place. -/
inductive At (ps : List RawPair) : Bytes → Place → Prop where
  | boundary {pre post : List RawPair} (hps : ps = pre ++ post) : At ps (rawBytes pre) .boundary
  | key {pre post : List RawPair} {p : RawPair} {x y : Bytes} (hps : ps = pre ++ p :: post)
      (hkey : x ++ y = frame p.1) (hx : x ≠ []) (hy : y ≠ []) : At ps (rawBytes pre ++ x) .key
  | value {pre post : List RawPair} {p : RawPair} {x y : Bytes} (hps : ps = pre ++ p :: post)
      (hvalue : x ++ y = frame p.2) (hy : y ≠ []) :
      At ps (rawBytes pre ++ (frame p.1 ++ x)) .value
  | done : At ps (rawBytes ps ++ [psbtSeparator]) .done

theorem rawBytes_cons (p : RawPair) (ps : List RawPair) :
    rawBytes (p :: ps) = frame p.1 ++ (frame p.2 ++ rawBytes ps) := by
  simp [rawBytes]

/-- The place of a byte behind a pair. -/
theorem At.cons {p : RawPair} {ps : List RawPair} {x : Bytes} {place : Place}
    (h : At ps x place) : At (p :: ps) (frame p.1 ++ (frame p.2 ++ x)) place := by
  cases h with
  | @boundary pre post hps =>
      rw [← rawBytes_cons]
      exact .boundary (congrArg (p :: ·) hps)
  | @key pre post q x y hps hkey hx hy =>
      have hat : At (p :: ps) (rawBytes (p :: pre) ++ x) .key :=
        .key (congrArg (p :: ·) hps) hkey hx hy
      rwa [rawBytes_cons, List.append_assoc, List.append_assoc] at hat
  | @value pre post q x y hps hvalue hy =>
      have hat : At (p :: ps) (rawBytes (p :: pre) ++ (frame q.1 ++ x)) .value :=
        .value (congrArg (p :: ·) hps) hvalue hy
      rwa [rawBytes_cons, List.append_assoc, List.append_assoc] at hat
  | done =>
      have hat : At (p :: ps) (rawBytes (p :: ps) ++ [psbtSeparator]) .done := .done
      rwa [rawBytes_cons, List.append_assoc, List.append_assoc] at hat

/-- A part of two byte strings in a row is a proper part of the first or reaches the second. -/
theorem prefix_append_cases {x a b : Bytes} (h : x <+: a ++ b) :
    (∃ y, y ≠ [] ∧ x ++ y = a) ∨ ∃ z, x = a ++ z ∧ z <+: b := by
  obtain ⟨t, ht⟩ := h
  rcases List.append_eq_append_iff.mp ht with ⟨y, rfl, rfl⟩ | ⟨z, rfl, rfl⟩
  · cases y with
    | nil => exact .inr ⟨[], by simp, List.nil_prefix⟩
    | cons byte y => exact .inl ⟨byte :: y, List.cons_ne_nil _ _, rfl⟩
  · exact .inr ⟨z, rfl, List.prefix_append z t⟩

end Grammar

end RustPsbt
