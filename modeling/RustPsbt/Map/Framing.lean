import RustPsbt.Encoding.Key

/-!
# Key-value pairs and maps of bytes

The framing all maps share, without types: a pair is a framed key and a framed value, and
a map is pairs and a separator.

Main results:

- Theorem `mapBytes_append_inj`: a map delimits itself and its pairs.
-/

namespace RustPsbt

/-- `PSBT_SEPARATOR`. -/
def psbtSeparator : UInt8 := 0x00

/-- A raw key and a raw value. -/
abbrev Pair :=
  Key × Bytes

/-- The bytes of a pair. -/
def pairBytes (p : Pair) : Bytes :=
  p.1.bytes ++ frame p.2

/-- The bytes of pairs in a row. -/
def pairsBytes (ps : List Pair) : Bytes :=
  ps.flatMap pairBytes

/-- The bytes of a map: its pairs and the separator. -/
def mapBytes (ps : List Pair) : Bytes :=
  pairsBytes ps ++ [psbtSeparator]

/-- The key and the value are inside the length limit. -/
def PairFits (p : Pair) : Prop :=
  p.1.body.length ≤ compactSizeLimit ∧ p.2.length ≤ compactSizeLimit

/-- `KeyValueEncoder` of a key and the encoder of a value. -/
def keyValueBytes (key : Key) (value : ExactSizeEncoder) : Bytes :=
  compactSize key.body.length ++ (key.body ++ (compactSize value.len ++ value.bytes))

theorem keyValueBytes_eq {key : Key} {value : ExactSizeEncoder}
    (hlen : value.len = value.bytes.length) :
    keyValueBytes key value = pairBytes (key, value.bytes) := by
  simp only [keyValueBytes, pairBytes, Key.bytes, frame, hlen, List.append_assoc]

@[simp]
theorem pairsBytes_nil : pairsBytes [] = [] :=
  rfl

@[simp]
theorem pairsBytes_cons (p : Pair) (ps : List Pair) :
    pairsBytes (p :: ps) = p.1.bytes ++ (frame p.2 ++ pairsBytes ps) := by
  simp [pairsBytes, pairBytes]

theorem mapBytes_append (ps : List Pair) (r : Bytes) :
    mapBytes ps ++ r = pairsBytes ps ++ psbtSeparator :: r := by
  simp [mapBytes]

/-- A map delimits itself and its pairs. -/
theorem mapBytes_append_inj {ps qs : List Pair} {r r' : Bytes} (hps : ∀ p ∈ ps, PairFits p)
    (hqs : ∀ q ∈ qs, PairFits q) (h : mapBytes ps ++ r = mapBytes qs ++ r') :
    ps = qs ∧ r = r' := by
  rw [mapBytes_append, mapBytes_append] at h
  induction ps generalizing qs with
  | nil =>
      cases qs with
      | nil =>
          cases h
          exact ⟨rfl, rfl⟩
      | cons q qs =>
          rcases q.1.bytes_eq_cons (hqs q List.mem_cons_self).1 with ⟨byte, b, hb, hne⟩
          rw [pairsBytes_nil, pairsBytes_cons, hb] at h
          exact absurd (List.cons.inj h).1.symm hne
  | cons p ps ih =>
      cases qs with
      | nil =>
          rcases p.1.bytes_eq_cons (hps p List.mem_cons_self).1 with ⟨byte, b, hb, hne⟩
          rw [pairsBytes_nil, pairsBytes_cons, hb] at h
          exact absurd (List.cons.inj h).1 hne
      | cons q qs =>
          have hp := hps p List.mem_cons_self
          have hq := hqs q List.mem_cons_self
          simp only [pairsBytes_cons, List.append_assoc, Key.bytes] at h
          rcases frame_append_inj hp.1 hq.1 h with ⟨hkey, hvalue⟩
          rcases frame_append_inj hp.2 hq.2 hvalue with ⟨hvalue, hrest⟩
          have htail := ih (fun x hx => hps x (List.mem_cons_of_mem _ hx))
            (fun x hx => hqs x (List.mem_cons_of_mem _ hx)) hrest
          have hhead : p = q := Prod.ext (Key.body_injective hkey) hvalue
          rw [hhead, htail.1]
          exact ⟨rfl, htail.2⟩

end RustPsbt
