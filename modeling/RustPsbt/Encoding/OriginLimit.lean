import RustPsbt.Encoding.ReadLimit
import RustPsbt.Encoding.TapKeyOrigin

/-!
# The read limit of tap key origins

The decoder of tap key origins reports the bytes that are left of the announced length.
It counts them down when an item is complete, so inside of a leaf hash, the fingerprint
or a path step it still counts the bytes of the item that it has already taken.

Main results:

- Theorem `limitAt_tapKeyOrigin`: the limit suits what is left exactly where no item is cut.
- Theorem `limits_tapKeyOrigin`: the limits suit except there.
-/

namespace RustPsbt

open PushDecoder TapKeyOriginDecoder

/-! ## Positions -/

variable [BitcoinTypes] [BitcoinCodecs]

omit [BitcoinTypes] [BitcoinCodecs] in
/-- A position with something left is in one of the items. -/
theorem exists_item {items : List Bytes} {x y : Bytes} (h : x ++ y = items.flatten)
    (hy : y ≠ []) : ∃ before part rest after, items = before ++ (part ++ rest) :: after ∧
      rest ≠ [] ∧ x = before.flatten ++ part ∧ y = rest ++ after.flatten := by
  induction items generalizing x with
  | nil => exact absurd (List.append_eq_nil_iff.mp h).2 hy
  | cons item items ih =>
      rw [List.flatten_cons] at h
      rcases split_cases h with ⟨rest, hrest, rfl, rfl⟩ | ⟨x', rfl, heq⟩
      · exact ⟨[], x, rest, items, rfl, hrest, rfl, rfl⟩
      · rcases ih heq.symm with ⟨before, part, rest, after, rfl, hrest, rfl, rfl⟩
        exact ⟨item :: before, part, rest, after, rfl, hrest, by simp, rfl⟩

/-- The leaf hashes, the fingerprint and the path steps. -/
def originItems (origin : TapKeyOrigin) : List Bytes :=
  origin.1.map U8Array.bytes ++
    origin.2.1.bytes :: origin.2.2.map fun child => (u32ToLeBytes child).bytes

/-- The length prefix and the count. -/
def originHeader (origin : TapKeyOrigin) : Bytes :=
  compactSize (tapKeyOriginBytes origin).length ++ compactSize origin.1.length

omit [BitcoinTypes] [BitcoinCodecs] in
theorem flatten_originItems (origin : TapKeyOrigin) :
    (originItems origin).flatten = leafHashBytes origin.1 ++ keySourceBytes origin.2 := by
  simp [originItems, leafHashBytes, keySourceBytes, pathBytes, List.flatMap_def]

omit [BitcoinTypes] [BitcoinCodecs] in
theorem frame_eq_originHeader (origin : TapKeyOrigin) :
    frame (tapKeyOriginBytes origin) =
      originHeader origin ++ (originItems origin).flatten := by
  rw [flatten_originItems, originHeader, frame, List.append_assoc]
  rfl

/-- What was taken ends inside of an item: `part` of it is taken and `rest` is not. -/
def CutsOrigin (x y : Bytes) : Prop :=
  ∃ (origin : TapKeyOrigin) (before after : List Bytes) (part rest : Bytes),
    tapKeyOriginDecoder.Decodes (x ++ y) origin ∧
      originItems origin = before ++ (part ++ rest) :: after ∧ part ≠ [] ∧ rest ≠ [] ∧
        x = originHeader origin ++ (before.flatten ++ part) ∧ y = rest ++ after.flatten

omit [BitcoinTypes] [BitcoinCodecs] in
theorem originHeader_ne_nil (origin : TapKeyOrigin) : originHeader origin ≠ [] := by
  simp [originHeader, compactSize_ne_nil]

theorem not_cutsOrigin_nil (y : Bytes) : ¬CutsOrigin [] y := by
  rintro ⟨origin, before, after, part, rest, _, _, _, _, hnil, _⟩
  exact originHeader_ne_nil origin (List.append_eq_nil_iff.mp hnil.symm).1

namespace TapKeyOriginDecoder

/-! ## Items -/

/-- From the state on, the decoder reads the items; its limit is what is left of them when
it comes to one. -/
inductive ReadsItems [LawfulCodecs] : State → List Bytes → Prop where
  | done {q : State} (hdone : q.stage = .done) : ReadsItems q []
  | item {n : Nat} {W : (arrayDecoder n : PushDecoder UInt8 ExtError (U8Array n)).State → Prop}
      {emb : (arrayDecoder n : PushDecoder UInt8 ExtError (U8Array n)).State → State}
      {k : U8Array n → Result TapKeyOriginDecodeError State} {a : U8Array n}
      {items : List Bytes} {next : State}
      (hstage : tapKeyOriginDecoder.Stage (arrayDecoder n) W emb k)
      (hD : (arrayDecoder n).LawfulOn W)
      (hlimit : ∀ p, tapKeyOriginDecoder.readLimit (emb p) = (a.bytes ++ items.flatten).length)
      (hk : k a = .ok next) (hrest : ReadsItems next items) :
      ReadsItems (emb (arrayDecoder n).init) (a.bytes :: items)

variable [LawfulCodecs]

theorem decodes_array {n : Nat} (a : U8Array n) : (arrayDecoder n).Decodes a.bytes a :=
  LawfulCodecs.array_accepts.mpr (List.append_nil _).symm

/-- The limit is zero when all items are taken. -/
theorem ReadsItems.limit_done {q t : State} {items : List Bytes} (h : ReadsItems q items)
    {r : Bytes} {st : Status}
    (hpush : tapKeyOriginDecoder.push q items.flatten = .ok (t, r, st)) :
    tapKeyOriginDecoder.readLimit t = 0 := by
  induction h with
  | @done q hdone =>
      rw [push_done hdone] at hpush
      cases hpush
      change readLimit t = 0
      rw [readLimit, hdone]
  | @item n W emb k a items next hstage hD hlimit hk hrest ih =>
      have hnext := hstage.push_decoded hD (decodes_array a) hk items.flatten
      rw [← List.flatten_cons, hpush, Result.erase_ok] at hnext
      exact ih (Result.erase_eq_ok.mp hnext.symm)

/-- In an item the limit is what was left before it. -/
theorem ReadsItems.limit_item {q t : State} {before after : List Bytes} {part rest : Bytes}
    (h : ReadsItems q (before ++ (part ++ rest) :: after)) (hne : rest ≠ []) {r : Bytes}
    {st : Status}
    (hpush : tapKeyOriginDecoder.push q (before.flatten ++ part) = .ok (t, r, st)) :
    tapKeyOriginDecoder.readLimit t = (part ++ (rest ++ after.flatten)).length := by
  generalize hitems : before ++ (part ++ rest) :: after = items at h
  induction h generalizing before with
  | @done q hdone => exact absurd hitems (by simp)
  | @item n W emb k a items next hstage hD hlimit hk hrest ih =>
      cases before with
      | nil =>
          rw [List.nil_append, List.cons.injEq] at hitems
          rcases hitems with ⟨ha, rfl⟩
          have hdec := decodes_array a
          rw [← ha] at hdec
          rcases hstage.push_part hD hdec hne with ⟨p, hpart⟩
          rw [List.flatten_nil, List.nil_append, hpart] at hpush
          cases hpush
          rw [hlimit, ← ha, List.append_assoc]
      | cons item before =>
          rw [List.cons_append, List.cons.injEq] at hitems
          rcases hitems with ⟨rfl, hitems⟩
          have hnext := hstage.push_decoded hD (decodes_array a) hk (before.flatten ++ part)
          rw [List.flatten_cons, List.append_assoc] at hpush
          rw [hpush, Result.erase_ok] at hnext
          exact ih (Result.erase_eq_ok.mp hnext.symm) hitems

section Items

variable {WC : (compactSizeDecoder : PushDecoder UInt8 ExtError Nat).State → Prop}
  {WH : (arrayDecoder 32 : PushDecoder UInt8 ExtError (U8Array 32)).State → Prop}
  {WA : (arrayDecoder 4 : PushDecoder UInt8 ExtError (U8Array 4)).State → Prop}
  (hC : compactSizeDecoder.LawfulOn WC) (hH : (arrayDecoder 32).LawfulOn WH)
  (hA : (arrayDecoder 4).LawfulOn WA)

omit [BitcoinTypes] [BitcoinCodecs] [LawfulCodecs] in
theorem length_flatten_path (path : DerivationPath) :
    (path.map fun child => (u32ToLeBytes child).bytes).flatten.length = 4 * path.length := by
  rw [← List.flatMap_def]
  exact length_pathBytes path

include hC hH hA

theorem readsItems_path (path : DerivationPath) (q : State) :
    ReadsItems { q with stage := nextStep (4 * path.length) }
      (path.map fun child => (u32ToLeBytes child).bytes) := by
  induction path generalizing q with
  | nil => exact .done rfl
  | cons child path ih =>
      have hnext : nextStep (4 * (child :: path).length) =
          .readingValue (4 * path.length + 4) (.pathStep (arrayDecoder 4).init) :=
        if_neg (by rw [List.length_cons]; omega)
      rw [hnext, List.map_cons]
      refine .item (stage_pathStep hC hH hA q (4 * path.length + 4)) hA (fun p => ?_)
        (pushPathStep_eq_ok.mpr ⟨Nat.le_add_left _ _, rfl⟩) ?_
      · rw [List.length_append, length_flatten_path, U8Array.length_bytes, Nat.add_comm]
        rfl
      · rw [Nat.add_sub_cancel]
        exact ih { q with pathSteps := q.pathSteps ++ [u32FromLeBytes (u32ToLeBytes child)] }

theorem readsItems_keySource (source : KeySource) (q : State) :
    ReadsItems { q with
      stage := .readingValue (4 + 4 * source.2.length) (.fingerprint (arrayDecoder 4).init) }
      (source.1.bytes :: source.2.map fun child => (u32ToLeBytes child).bytes) := by
  refine .item (stage_fingerprint hC hH hA q _) hA (fun p => ?_)
    (setFingerprint_eq_ok.mpr ⟨Nat.le_add_right _ _, rfl⟩) ?_
  · rw [List.length_append, length_flatten_path, U8Array.length_bytes]
    rfl
  · rw [Nat.add_sub_cancel_left]
    exact readsItems_path hC hH hA source.2 { q with fingerprint := some source.1 }

theorem readsItems_origin (hashes : List TapLeafHash) (source : KeySource) (q : State) :
    ReadsItems { q with
      stage := .readingValue (32 * hashes.length + (4 + 4 * source.2.length))
        (hashStage q hashes.length) } (originItems (hashes, source)) := by
  induction hashes generalizing q with
  | nil =>
      rw [List.length_nil, Nat.mul_zero, Nat.zero_add, hashStage, if_pos rfl]
      exact readsItems_keySource hC hH hA source q
  | cons hash hashes ih =>
      have hlen : 32 * (hash :: hashes).length + (4 + 4 * source.2.length) =
          32 * hashes.length + (4 + 4 * source.2.length) + 32 := by
        rw [List.length_cons]
        omega
      rw [hlen, hashStage, if_neg (by simp), originItems, List.map_cons, List.cons_append]
      refine .item (stage_leafHash hC hH hA q _ (q.leafHashes.length + (hash :: hashes).length))
        hH (fun p => ?_) (pushLeafHash_eq_ok.mpr ⟨Nat.le_add_left _ _, rfl⟩) ?_
      · change 32 * hashes.length + (4 + 4 * source.2.length) + 32 =
          (hash.bytes ++ (originItems (hashes, source)).flatten).length
        rw [flatten_originItems, List.length_append, List.length_append, length_leafHashBytes,
          length_keySourceBytes, U8Array.length_bytes]
        dsimp only
        omega
      · rw [Nat.add_sub_cancel, List.length_cons, hashStage_append]
        exact ih { q with leafHashes := q.leafHashes ++ [hash] }

/-! ## The header -/

/-- A push ends inside of the length prefix or the count, where the limit suits, or it goes
on with the items. -/
theorem push_header [LawfulReadLimits] {origin : TapKeyOrigin} {x y r : Bytes} {t : State} {st : Status}
    (hle : (tapKeyOriginBytes origin).length ≤ compactSizeLimit)
    (heq : x ++ y = frame (tapKeyOriginBytes origin))
    (hpush : tapKeyOriginDecoder.push tapKeyOriginDecoder.init x = .ok (t, r, st)) :
    x.length < (originHeader origin).length ∧ tapKeyOriginDecoder.LimitAt t y ∨
      ∃ x' q, x = originHeader origin ++ x' ∧ ReadsItems q (originItems origin) ∧
        tapKeyOriginDecoder.push q x' = .ok (t, r, st) := by
  have hdeclared : compactSizeDecoder.Decodes (compactSize (tapKeyOriginBytes origin).length)
      (tapKeyOriginBytes origin).length :=
    LawfulCodecs.compactSize_accepts.mpr ⟨(List.append_nil _).symm, hle⟩
  have hlength : (tapKeyOriginBytes origin).length = varIntSize origin.1.length +
      (32 * origin.1.length + (4 + 4 * origin.2.2.length)) := by
    simp only [tapKeyOriginBytes, List.length_append, length_compactSize, length_leafHashBytes,
      length_keySourceBytes]
  have hcount : (compactSizeDecoder.budgeted (tapKeyOriginBytes origin).length).Decodes
      (compactSize origin.1.length)
      (origin.1.length, 32 * origin.1.length + (4 + 4 * origin.2.2.length)) := by
    apply PushDecoder.accepts_budgeted.mpr
    have hcountLe : origin.1.length ≤ compactSizeLimit := by omega
    refine ⟨LawfulCodecs.compactSize_accepts.mpr ⟨(List.append_nil _).symm, hcountLe⟩, ?_, ?_⟩
    · rw [length_compactSize, hlength]
      exact Nat.le_add_right _ _
    · rw [length_compactSize, hlength]
      simp
  have hprefix := lawful_originPrefix hC hH hA (valueStart 0)
  rcases hprefix.push_cases hC hdeclared rfl heq hpush with
    ⟨rest, p, hrest, hw, rfl, hpart, rfl⟩ | ⟨x', rfl, hm, hnext⟩
  · left
    have hlimit := LawfulReadLimits.compactSize.push (hw ▸ hdeclared) id hpart
    refine ⟨?_, hlimit.append hrest rfl _⟩
    have hpos := List.length_pos_iff.mpr hrest
    rw [originHeader, hw, List.length_append, List.length_append]
    omega
  · have hbytes : x' ++ y = compactSize origin.1.length ++ (originItems origin).flatten := by
      rw [flatten_originItems]
      exact hm.symm
    have hstage := stage_count hC hH hA (valueStart 0) (tapKeyOriginBytes origin).length
    rcases hstage.push_cases hC.budgeted hcount rfl hbytes hnext with
      ⟨rest, p, hrest, hw, rfl, hpart, rfl⟩ | ⟨x', rfl, _, hnext⟩
    · left
      rcases push_budgeted_eq_ok.mp hpart with ⟨s, _, _, rfl⟩
      have hpos := List.length_pos_iff.mpr hrest
      have hcountLen : varIntSize origin.1.length = x'.length + rest.length := by
        rw [← length_compactSize, hw, List.length_append]
      have hitems : (originItems origin).flatten.length =
          32 * origin.1.length + (4 + 4 * origin.2.2.length) := by
        rw [flatten_originItems, List.length_append, length_leafHashBytes, length_keySourceBytes]
      refine ⟨?_, ?_⟩
      · rw [originHeader, hw, List.length_append, List.length_append, List.length_append]
        omega
      · -- the counter is at the number of bytes that are left
        change (tapKeyOriginBytes origin).length - (x'.length - ([] : Bytes).length) ≤ _ ∧
          ((tapKeyOriginBytes origin).length - (x'.length - ([] : Bytes).length) = 0 ↔ _)
        rw [← List.length_eq_zero_iff, List.length_append, List.length_nil]
        omega
    · right
      refine ⟨x', _, by rw [originHeader, List.append_assoc], ?_, hnext⟩
      rw [afterCount_eq origin.1.length (valueStart 0) rfl]
      exact readsItems_origin hC hH hA origin.1 origin.2 (valueStart 0)

end Items

end TapKeyOriginDecoder

/-! ## The limit -/

section

variable [LawfulCodecs] [LawfulReadLimits]

/-- The limit suits what is left exactly where no item is cut. -/
theorem limitAt_tapKeyOrigin {x y r : Bytes} {origin : TapKeyOrigin} {t : State} {st : Status}
    (hdec : tapKeyOriginDecoder.Decodes (x ++ y) origin)
    (hpush : tapKeyOriginDecoder.push tapKeyOriginDecoder.init x = .ok (t, r, st)) :
    tapKeyOriginDecoder.LimitAt t y ↔ ¬CutsOrigin x y := by
  rcases LawfulCodecs.compactSize_sound.lawful with ⟨WC, hC⟩
  rcases (LawfulCodecs.array_sound (n := 32) (by decide)).lawful with ⟨WH, hH⟩
  rcases (LawfulCodecs.array_sound (n := 4) (by decide)).lawful with ⟨WA, hA⟩
  rcases accepts_tapKeyOrigin.mp hdec with ⟨heq, hle⟩
  rw [List.append_nil] at heq
  -- a cut is in the items of the origin that is decoded
  have hcut : CutsOrigin x y ↔ ∃ before after part rest,
      originItems origin = before ++ (part ++ rest) :: after ∧ part ≠ [] ∧ rest ≠ [] ∧
        x = originHeader origin ++ (before.flatten ++ part) ∧ y = rest ++ after.flatten := by
    constructor
    · rintro ⟨origin', before, after, part, rest, hdec', hcut⟩
      have hsame := hdec.symm.trans hdec'
      cases hsame
      exact ⟨before, after, part, rest, hcut⟩
    · rintro ⟨before, after, part, rest, hcut⟩
      exact ⟨origin, before, after, part, rest, hdec, hcut⟩
  rw [hcut]
  rcases push_header hC hH hA hle heq hpush with ⟨hshort, hlimit⟩ | ⟨x', q, rfl, hitems, hnext⟩
  · refine iff_of_true hlimit ?_
    rintro ⟨before, after, part, rest, _, _, _, rfl, _⟩
    rw [List.length_append] at hshort
    omega
  · rw [frame_eq_originHeader, List.append_assoc] at heq
    have heq := List.append_cancel_left heq
    by_cases hy : y = []
    · subst hy
      rw [List.append_nil] at heq
      subst heq
      refine iff_of_true (limitAt_nil.mpr (hitems.limit_done hnext)) ?_
      rintro ⟨before, after, part, rest, _, _, hrest, _, hnil⟩
      exact hrest (List.append_eq_nil_iff.mp hnil.symm).1
    · rcases exists_item heq hy with ⟨before, part, rest, after, hsplit, hrest, rfl, rfl⟩
      have hlimit := ReadsItems.limit_item (hsplit ▸ hitems) hrest hnext
      rw [List.length_append] at hlimit
      have hpos := List.length_pos_iff.mpr hy
      constructor
      · rintro ⟨hwithin, _⟩ ⟨before', after', part', rest', hsplit', hpart', hrest', hx, hy'⟩
        have hx := List.append_cancel_left hx
        rw [hx] at hnext
        have hlimit' := ReadsItems.limit_item (hsplit' ▸ hitems) hrest' hnext
        rw [List.length_append, ← hy'] at hlimit'
        have hpos' := List.length_pos_iff.mpr hpart'
        omega
      · intro hno
        have hpart : part = [] := by
          by_contra hpart
          exact hno ⟨before, after, part, rest, hsplit, hpart, hrest, rfl, rfl⟩
        subst hpart
        rw [List.length_nil, Nat.zero_add] at hlimit
        refine ⟨Nat.le_of_eq hlimit, ?_⟩
        rw [hlimit, List.length_eq_zero_iff]

/-- The limits suit what is left, except where an item is cut. -/
theorem limits_tapKeyOrigin : tapKeyOriginDecoder.LimitsExcept CutsOrigin :=
  .of_strict framed_tapKeyOrigin.strict fun hdec hgood _ _ _ hpush =>
    (limitAt_tapKeyOrigin hdec hpush).mpr hgood

/-- After any chunks, the limit suits what is left exactly where no item is cut. -/
theorem limitAt_tapKeyOrigin_feed {chunks : List Bytes} {y r : Bytes} {origin : TapKeyOrigin}
    {s : State} (hdec : tapKeyOriginDecoder.Decodes (chunks.flatten ++ y) origin)
    (hfeed : tapKeyOriginDecoder.feed tapKeyOriginDecoder.init [] chunks = .ok (s, r)) :
    tapKeyOriginDecoder.LimitAt s y ↔ ¬CutsOrigin chunks.flatten y := by
  cases chunks with
  | nil =>
      cases hfeed
      exact iff_of_true (limits_tapKeyOrigin.fresh hdec (not_cutsOrigin_nil y))
        (not_cutsOrigin_nil y)
  | cons chunk chunks =>
      rcases framed_tapKeyOrigin.lawful.push_of_feed hfeed with ⟨st, hpush⟩
      exact limitAt_tapKeyOrigin hdec hpush

end

end RustPsbt
