import RustPsbt.Encoding.Value

/-!
# Leaf scripts and tap trees

A leaf script is its script followed by its version.  A tap tree is the list of its
leaves, each a depth, a version and a script behind its length; the decoder adds them to
a builder one after another.

Main results:

- Theorems `valueCodec_leafScript`, `valueCodec_tapTree`.
- Theorem `returns_tapTreeOfValue`: decoding a tap tree panics exactly when a leaf
  announces a longer script than is left.
-/

namespace RustPsbt

variable [BitcoinTypes] [BitcoinCodecs]

/-! ## Leaf scripts -/

/-- `LeafScriptDecodeError`. -/
inductive LeafScriptDecodeError where
  | decode (e : ExtError)
  | empty
  | invalidLeafVersion

/-- `LeafScriptDecoder::end` on the value: the version is the last byte. -/
def leafScriptOfValue (value : Bytes) : Result LeafScriptDecodeError TapLeafScript :=
  match value.getLast? with
  | none => .err .empty
  | some versionByte => do
      let version ← (Result.ofExcept (leafVersionFromConsensus versionByte)).mapErr
        fun _ => .invalidLeafVersion
      .ok (value.dropLast, version)

/-- `LeafScriptDecoder`. -/
def leafScriptDecoder : PushDecoder UInt8 LeafScriptDecodeError TapLeafScript :=
  byteVecDecoder.wrap .decode .decode leafScriptOfValue

/-- The bytes of `LeafScriptEncoder`. -/
def leafScriptBytes (leaf : TapLeafScript) : Bytes :=
  leaf.1 ++ [leafVersionToConsensus leaf.2]

/-! ## Tap trees -/

/-- `TapTreeDecodeError`. -/
inductive TapTreeDecodeError where
  | byteVec (e : ExtError)
  | invalidTree

/-- One round of the loop in `TapTreeDecoder::end`: the leaf at the front of the slice.
Returns the builder and the rest of the slice. -/
def readTapLeaf (builder : TaprootBuilder) (depth : UInt8) :
    Bytes → Result TapTreeDecodeError (TaprootBuilder × Bytes)
  | [] => .err .invalidTree
  | version :: rest => do
      let x ← (compactSizeDecoder.run rest).mapErr fun _ => .invalidTree
      -- `remaining[..script_len]` is out of range
      if x.2.length < x.1 then .panicked
      else do
        let leafVersion ← (Result.ofExcept (leafVersionFromConsensus version)).mapErr
          fun _ => .invalidTree
        let builder ← (Result.ofExcept
          (addLeafWithVer builder depth (x.2.take x.1) leafVersion)).mapErr fun _ => .invalidTree
        .ok (builder, x.2.drop x.1)

/-- The loop in `TapTreeDecoder::end`; every round shortens the slice. -/
def readTapLeaves : Nat → TaprootBuilder → Bytes → Result TapTreeDecodeError TaprootBuilder
  | 0, _, _ => .diverged
  | _ + 1, builder, [] => .ok builder
  | fuel + 1, builder, depth :: rest => do
      let x ← readTapLeaf builder depth rest
      readTapLeaves fuel x.1 x.2

/-- `TapTreeDecoder::end` on the value. -/
def tapTreeOfValue (value : Bytes) : Result TapTreeDecodeError TapTree := do
  let builder ← readTapLeaves (value.length + 1) taprootBuilder value
  (Result.ofExcept (tapTreeTryFrom builder)).mapErr fun _ => .invalidTree

/-- `TapTreeDecoder`. -/
def tapTreeDecoder : PushDecoder UInt8 TapTreeDecodeError TapTree :=
  byteVecDecoder.wrap .byteVec .byteVec tapTreeOfValue

/-- The bytes of a leaf: its depth, its version, and its script behind its length. -/
def tapLeafBytes (leaf : UInt8 × LeafVersion × ScriptBuf) : Bytes :=
  leaf.1 :: leafVersionToConsensus leaf.2.1 :: frame leaf.2.2

/-- The bytes of `TapTreeEncoder`. -/
def tapTreeBytes (tree : TapTree) : Bytes :=
  (scriptLeaves tree).flatMap fun leaf => tapLeafBytes leaf.entry

/-- `TapTreeEncoder`: the length is computed from the lengths of the scripts. -/
def tapTreeEncoder (tree : TapTree) : ExactSizeEncoder where
  len := ((scriptLeaves tree).map fun leaf =>
    leaf.script.length + varIntSize leaf.script.length + 1 + 1).sum
  bytes := tapTreeBytes tree

theorem length_tapLeafBytes (leaf : UInt8 × LeafVersion × ScriptBuf) :
    (tapLeafBytes leaf).length = leaf.2.2.length + varIntSize leaf.2.2.length + 1 + 1 := by
  simp only [tapLeafBytes, frame, List.length_cons, List.length_append, length_compactSize]
  omega

/-- The declared length of a tree is the length of its bytes. -/
theorem len_tapTreeEncoder (tree : TapTree) :
    (tapTreeEncoder tree).len = (tapTreeEncoder tree).bytes.length := by
  simp [tapTreeEncoder, tapTreeBytes, List.length_flatMap, length_tapLeafBytes, ScriptLeaf.entry]

/-- The scripts of the leaves are inside the length limit. -/
def LeavesInLimit (leaves : List (UInt8 × LeafVersion × ScriptBuf)) : Prop :=
  ∀ leaf ∈ leaves, leaf.2.2.length ≤ compactSizeLimit

/-- Some leaves can be added, and the next one announces a longer script than is left. -/
def CutLeaf (builder : TaprootBuilder) (value : Bytes) : Prop :=
  ∃ leaves builder' depth version scriptLen rest,
    value = leaves.flatMap tapLeafBytes ++ depth :: version :: (compactSize scriptLen ++ rest) ∧
      LeavesInLimit leaves ∧ addLeaves builder leaves = .ok builder' ∧
        scriptLen ≤ compactSizeLimit ∧ rest.length < scriptLen

section

variable [LawfulCodecs]

/-- A round takes one leaf off the slice and adds it. -/
theorem readTapLeaf_eq_ok {builder builder' : TaprootBuilder} {depth : UInt8} {b r : Bytes} :
    readTapLeaf builder depth b = .ok (builder', r) ↔
      ∃ version script, depth :: b = tapLeafBytes (depth, version, script) ++ r ∧
        script.length ≤ compactSizeLimit ∧
          addLeafWithVer builder depth script version = .ok builder' := by
  cases b with
  | nil => simp [readTapLeaf, tapLeafBytes]
  | cons v b =>
      simp only [readTapLeaf, Result.bind_eq_ok, Result.mapErr_eq_ok, Prod.exists]
      constructor
      · rintro ⟨n, m, hrun, hrest⟩
        rcases LawfulCodecs.compactSize_accepts.mp hrun with ⟨rfl, hlimit⟩
        split at hrest
        · cases hrest
        · rename_i hlong
          rcases Result.bind_eq_ok.mp hrest with ⟨version, hversion, hrest⟩
          rcases Result.bind_eq_ok.mp hrest with ⟨builder'', hadd, heq⟩
          rw [Result.mapErr_eq_ok, Result.ofExcept_eq_ok] at hversion hadd
          cases heq
          have hv := LawfulCodecs.leafVersion_fromConsensus.mp hversion
          have htake : (m.take n).length = n := by
            rw [List.length_take]
            omega
          refine ⟨version, m.take n, ?_, by omega, hadd⟩
          simp [tapLeafBytes, frame, htake, hv]
      · rintro ⟨version, script, heq, hlimit, hadd⟩
        simp only [tapLeafBytes, List.cons_append, List.cons.injEq, true_and] at heq
        rcases heq with ⟨rfl, rfl⟩
        refine ⟨script.length, script ++ r, ?_, ?_⟩
        · exact LawfulCodecs.compactSize_accepts.mpr ⟨frame_append _ _, hlimit⟩
        · have hversion : leafVersionFromConsensus (leafVersionToConsensus version) = .ok version :=
            LawfulCodecs.leafVersion_fromConsensus.mpr rfl
          rw [if_neg (by simp), hversion, List.take_left, List.drop_left]
          simp [Result.ofExcept, hadd]

/-- A round panics exactly when the script is longer than the rest of the slice. -/
theorem returns_readTapLeaf {builder : TaprootBuilder} {depth : UInt8} {b : Bytes} :
    (readTapLeaf builder depth b).Returns ↔
      ¬∃ version scriptLen rest, b = version :: (compactSize scriptLen ++ rest) ∧
        scriptLen ≤ compactSizeLimit ∧ rest.length < scriptLen := by
  cases b with
  | nil => simp [readTapLeaf]
  | cons v b =>
      have hsafe := LawfulCodecs.compactSize_sound.safe b
      simp only [readTapLeaf]
      cases hrun : compactSizeDecoder.run b with
      | error e =>
          rw [hrun] at hsafe
          constructor
          · rintro _ ⟨version, n, rest, heq, hlimit, _⟩
            rw [List.cons.injEq] at heq
            have hacc := LawfulCodecs.compactSize_accepts.mpr ⟨heq.2, hlimit⟩
            rw [PushDecoder.Accepts, hrun] at hacc
            cases hacc
          · intro _
            exact Result.Returns.bind (Result.returns_mapErr.mpr hsafe) (by simp [Result.mapErr_eq_ok])
      | ok x =>
          rcases x with ⟨n, m⟩
          have hacc : compactSizeDecoder.Accepts b n m := hrun
          rcases LawfulCodecs.compactSize_accepts.mp hacc with ⟨rfl, hlimit⟩
          simp only [Result.mapErr_ok, Result.ok_bind]
          by_cases hcut : m.length < n
          · rw [if_pos hcut]
            constructor
            · intro hpanic
              exact absurd hpanic id
            · intro hnot
              exact absurd ⟨v, n, m, rfl, hlimit, hcut⟩ hnot
          · rw [if_neg hcut]
            constructor
            · rintro _ ⟨version, n', rest, heq, hlimit', hcut'⟩
              have hbound := compactSizeLimit_lt
              rw [List.cons.injEq] at heq
              rcases compactSize_append_inj (by omega) (by omega) heq.2 with ⟨rfl, rfl⟩
              exact hcut hcut'
            · intro _
              apply Result.Returns.bind (Result.returns_mapErr.mpr (Result.returns_ofExcept _))
              intro version _
              apply Result.Returns.bind (Result.returns_mapErr.mpr (Result.returns_ofExcept _))
              intro builder' _
              trivial

omit [LawfulCodecs] in
theorem addLeaves_cons {builder : TaprootBuilder} {leaf : UInt8 × LeafVersion × ScriptBuf}
    {leaves : List (UInt8 × LeafVersion × ScriptBuf)} :
    addLeaves builder (leaf :: leaves) = addLeafWithVer builder leaf.1 leaf.2.2 leaf.2.1 >>=
      fun builder => addLeaves builder leaves :=
  rfl

omit [LawfulCodecs] in
theorem addLeaves_cons_eq_ok {builder builder' : TaprootBuilder}
    {leaf : UInt8 × LeafVersion × ScriptBuf}
    {leaves : List (UInt8 × LeafVersion × ScriptBuf)} :
    addLeaves builder (leaf :: leaves) = .ok builder' ↔
      ∃ mid, addLeafWithVer builder leaf.1 leaf.2.2 leaf.2.1 = .ok mid ∧
        addLeaves mid leaves = .ok builder' := by
  rw [addLeaves_cons]
  cases addLeafWithVer builder leaf.1 leaf.2.2 leaf.2.1 with
  | error e => simp [bind, Except.bind]
  | ok mid => simp [bind, Except.bind]

/-- What a round leaves is shorter. -/
theorem length_of_readTapLeaf {builder builder' : TaprootBuilder} {depth : UInt8} {b r : Bytes}
    (h : readTapLeaf builder depth b = .ok (builder', r)) : r.length < b.length := by
  rcases readTapLeaf_eq_ok.mp h with ⟨version, script, heq, _, _⟩
  have hlen := congrArg List.length heq
  rw [List.length_append, length_tapLeafBytes, List.length_cons] at hlen
  omega

/-- The loop reads a list of leaves and adds them. -/
theorem readTapLeaves_eq_ok {fuel : Nat} {builder builder' : TaprootBuilder} {value : Bytes}
    (hfuel : value.length < fuel) :
    readTapLeaves fuel builder value = .ok builder' ↔
      ∃ leaves, value = leaves.flatMap tapLeafBytes ∧ LeavesInLimit leaves ∧
        addLeaves builder leaves = .ok builder' := by
  induction fuel generalizing builder value with
  | zero => omega
  | succ fuel ih =>
      cases value with
      | nil =>
          simp only [readTapLeaves, Except.ok.injEq]
          constructor
          · rintro rfl
            exact ⟨[], rfl, by simp [LeavesInLimit], rfl⟩
          · rintro ⟨leaves, heq, _, hadd⟩
            cases leaves with
            | nil => exact Except.ok.inj hadd
            | cons leaf leaves => cases heq
      | cons depth b =>
          simp only [readTapLeaves, Result.bind_eq_ok, Prod.exists]
          constructor
          · rintro ⟨mid, r, hleaf, hrest⟩
            have hlt := length_of_readTapLeaf hleaf
            rw [List.length_cons] at hfuel
            rcases readTapLeaf_eq_ok.mp hleaf with ⟨version, script, heq, hlimit, hadd⟩
            rcases (ih (by omega)).mp hrest with ⟨leaves, rfl, hlimits, hadds⟩
            refine ⟨(depth, version, script) :: leaves, ?_, ?_, ?_⟩
            · rw [heq, List.flatMap_cons]
            · exact List.forall_mem_cons.mpr ⟨hlimit, hlimits⟩
            · exact addLeaves_cons_eq_ok.mpr ⟨mid, hadd, hadds⟩
          · rintro ⟨leaves, heq, hlimits, hadds⟩
            cases leaves with
            | nil => cases heq
            | cons leaf leaves =>
                rcases leaf with ⟨d, version, script⟩
                rcases addLeaves_cons_eq_ok.mp hadds with ⟨mid, hadd, haddTail⟩
                rcases List.forall_mem_cons.mp hlimits with ⟨hlimit, htail⟩
                rw [List.flatMap_cons] at heq
                have hd : depth = d := (List.cons.inj heq).1
                subst hd
                have hleaf := readTapLeaf_eq_ok.mpr ⟨version, script, heq, hlimit, hadd⟩
                have hlt := length_of_readTapLeaf hleaf
                rw [List.length_cons] at hfuel
                exact ⟨mid, _, hleaf, (ih (by omega)).mpr ⟨leaves, rfl, htail, haddTail⟩⟩

/-- A leaf at the front of the slice is not cut, so a cut leaf is behind it. -/
theorem cutLeaf_cons {builder mid : TaprootBuilder} {depth : UInt8} {b r : Bytes}
    (hleaf : readTapLeaf builder depth b = .ok (mid, r)) :
    CutLeaf builder (depth :: b) ↔ CutLeaf mid r := by
  rcases readTapLeaf_eq_ok.mp hleaf with ⟨version, script, heq, hlimit, hadd⟩
  constructor
  · rintro ⟨leaves, builder', d, v, n, rest, hvalue, hlimits, hadds, hn, hcut⟩
    cases leaves with
    | nil =>
        rw [List.flatMap_nil, List.nil_append, List.cons.injEq] at hvalue
        rcases hvalue with ⟨rfl, rfl⟩
        have hreturns : (readTapLeaf builder depth (v :: (compactSize n ++ rest))).Returns := by
          rw [hleaf]
          trivial
        exact absurd ⟨v, n, rest, rfl, hn, hcut⟩ (returns_readTapLeaf.mp hreturns)
    | cons leaf leaves =>
        rcases leaf with ⟨d', version', script'⟩
        rcases addLeaves_cons_eq_ok.mp hadds with ⟨mid', hadd', haddTail⟩
        rcases List.forall_mem_cons.mp hlimits with ⟨hlimit', htail⟩
        rw [List.flatMap_cons, List.append_assoc] at hvalue
        have hd : depth = d' := (List.cons.inj hvalue).1
        subst hd
        have hleaf' := readTapLeaf_eq_ok.mpr ⟨version', script', hvalue, hlimit', hadd'⟩
        rw [hleaf] at hleaf'
        cases hleaf'
        exact ⟨leaves, builder', d, v, n, rest, rfl, htail, haddTail, hn, hcut⟩
  · rintro ⟨leaves, builder', d, v, n, rest, rfl, hlimits, hadds, hn, hcut⟩
    refine ⟨(depth, version, script) :: leaves, builder', d, v, n, rest, ?_, ?_, ?_, hn, hcut⟩
    · rw [heq, List.flatMap_cons, List.append_assoc]
    · exact List.forall_mem_cons.mpr ⟨hlimit, hlimits⟩
    · exact addLeaves_cons_eq_ok.mpr ⟨mid, hadd, hadds⟩

/-- A slice whose first leaf is refused has no cut leaf behind it. -/
theorem not_cutLeaf_of_refused {builder : TaprootBuilder} {depth : UInt8} {b : Bytes}
    {e : TapTreeDecodeError} (hleaf : readTapLeaf builder depth b = .err e) :
    ¬CutLeaf builder (depth :: b) := by
  rintro ⟨leaves, builder', d, v, n, rest, hvalue, hlimits, hadds, hn, hcut⟩
  cases leaves with
  | nil =>
      rw [List.flatMap_nil, List.nil_append, List.cons.injEq] at hvalue
      rcases hvalue with ⟨rfl, rfl⟩
      have hreturns : (readTapLeaf builder depth (v :: (compactSize n ++ rest))).Returns := by
        rw [hleaf]
        trivial
      exact returns_readTapLeaf.mp hreturns ⟨v, n, rest, rfl, hn, hcut⟩
  | cons leaf leaves =>
      rcases leaf with ⟨d', version', script'⟩
      rcases addLeaves_cons_eq_ok.mp hadds with ⟨mid, hadd, _⟩
      rcases List.forall_mem_cons.mp hlimits with ⟨hlimit, _⟩
      rw [List.flatMap_cons, List.append_assoc] at hvalue
      have hd : depth = d' := (List.cons.inj hvalue).1
      subst hd
      rw [readTapLeaf_eq_ok.mpr ⟨version', script', hvalue, hlimit, hadd⟩] at hleaf
      cases hleaf

/-- The loop panics exactly when it comes to a cut leaf. -/
theorem returns_readTapLeaves {fuel : Nat} {builder : TaprootBuilder} {value : Bytes}
    (hfuel : value.length < fuel) :
    (readTapLeaves fuel builder value).Returns ↔ ¬CutLeaf builder value := by
  induction fuel generalizing builder value with
  | zero => omega
  | succ fuel ih =>
      cases value with
      | nil =>
          constructor
          · rintro _ ⟨leaves, _, _, _, _, _, heq, _⟩
            cases leaves <;> cases heq
          · intro _
            trivial
      | cons depth b =>
          simp only [readTapLeaves]
          cases hleaf : readTapLeaf builder depth b with
          | ok x =>
              rcases x with ⟨mid, r⟩
              have hlt := length_of_readTapLeaf hleaf
              rw [List.length_cons] at hfuel
              rw [cutLeaf_cons hleaf]
              exact ih (Nat.lt_of_lt_of_le hlt (by omega))
          | error f =>
              by_cases hreturns : (readTapLeaf builder depth b).Returns
              · rw [hleaf] at hreturns
                cases f with
                | error e =>
                    constructor
                    · intro _
                      exact not_cutLeaf_of_refused hleaf
                    · intro _
                      trivial
                | panic => exact absurd hreturns id
                | diverge => exact absurd hreturns id
              · have hcut := hreturns
                rw [returns_readTapLeaf, not_not] at hcut
                rcases hcut with ⟨v, n, rest, rfl, hn, hcut⟩
                rw [hleaf] at hreturns
                constructor
                · intro hok
                  cases f with
                  | error e => exact absurd trivial hreturns
                  | panic => exact absurd hok id
                  | diverge => exact absurd hok id
                · intro hnot
                  refine absurd ?_ hnot
                  exact ⟨[], builder, depth, v, n, rest, rfl, by simp [LeavesInLimit], rfl, hn, hcut⟩

/-- Decoding a tap tree panics exactly when a leaf announces a longer script than is
left. -/
theorem returns_tapTreeOfValue {value : Bytes} :
    (tapTreeOfValue value).Returns ↔ ¬CutLeaf taprootBuilder value := by
  rw [← returns_readTapLeaves (Nat.lt_succ_self value.length)]
  unfold tapTreeOfValue
  constructor
  · intro hreturns
    cases hloop : readTapLeaves (value.length + 1) taprootBuilder value with
    | ok builder => trivial
    | error f =>
        rw [hloop] at hreturns
        cases f with
        | error e => trivial
        | panic => exact absurd hreturns id
        | diverge => exact absurd hreturns id
  · intro hloop
    apply hloop.bind
    intro builder _
    exact Result.returns_mapErr.mpr (Result.returns_ofExcept _)

/-- A tap tree is read off its leaves. -/
theorem tapTreeOfValue_eq_ok {value : Bytes} {tree : TapTree} :
    tapTreeOfValue value = .ok tree ↔
      ∃ leaves, value = leaves.flatMap tapLeafBytes ∧ LeavesInLimit leaves ∧
        addLeaves taprootBuilder leaves >>= tapTreeTryFrom = .ok tree := by
  have hbind : ∀ leaves, addLeaves taprootBuilder leaves >>= tapTreeTryFrom = .ok tree ↔
      ∃ builder, addLeaves taprootBuilder leaves = .ok builder ∧
        tapTreeTryFrom builder = .ok tree := by
    intro leaves
    cases addLeaves taprootBuilder leaves with
    | error e => simp [bind, Except.bind]
    | ok builder => simp [bind, Except.bind]
  unfold tapTreeOfValue
  simp only [Result.bind_eq_ok, Result.mapErr_eq_ok, Result.ofExcept_eq_ok, hbind,
    readTapLeaves_eq_ok (Nat.lt_succ_self value.length)]
  constructor
  · rintro ⟨builder, ⟨leaves, hvalue, hlimits, hadds⟩, htree⟩
    exact ⟨leaves, hvalue, hlimits, builder, hadds, htree⟩
  · rintro ⟨leaves, hvalue, hlimits, builder, hadds, htree⟩
    exact ⟨builder, ⟨leaves, hvalue, hlimits, hadds⟩, htree⟩

/-! ## Codecs -/

/-- A decoded tree is encoded in as many bytes as it was decoded from. -/
theorem length_tapTreeBytes {value : Bytes} {tree : TapTree}
    (h : tapTreeOfValue value = .ok tree) : (tapTreeBytes tree).length = value.length := by
  rcases tapTreeOfValue_eq_ok.mp h with ⟨leaves, rfl, _, hbuild⟩
  have hperm := (LawfulCodecs.tapTree_leaves hbuild).flatMap_right tapLeafBytes
  rw [List.flatMap_map] at hperm
  exact hperm.length_eq

theorem tapTreeOfValue_tapTreeBytes {tree : TapTree}
    (h : (tapTreeBytes tree).length ≤ compactSizeLimit) :
    tapTreeOfValue (tapTreeBytes tree) = .ok tree := by
  apply tapTreeOfValue_eq_ok.mpr
  refine ⟨(scriptLeaves tree).map ScriptLeaf.entry, ?_, ?_, LawfulCodecs.tapTree_rebuild tree⟩
  · rw [tapTreeBytes, List.flatMap_map]
  · intro leaf hleaf
    have hsub : (tapLeafBytes leaf).length ≤ (tapTreeBytes tree).length := by
      rcases List.append_of_mem hleaf with ⟨before, after, hsplit⟩
      rw [tapTreeBytes, ← List.flatMap_map ScriptLeaf.entry tapLeafBytes, hsplit]
      simp only [List.flatMap_append, List.flatMap_cons, List.length_append]
      omega
    rw [length_tapLeafBytes] at hsub
    omega

theorem valueCodec_tapTree : ValueCodec tapTreeDecoder tapTreeEncoder := by
  apply ValueCodec.of_byteVec len_tapTreeEncoder
  · intro tree hfits
    exact tapTreeOfValue_tapTreeBytes hfits
  · intro w tree hw htree
    exact le_of_eq_of_le (length_tapTreeBytes htree) hw

theorem leafScriptOfValue_eq_ok {value : Bytes} {leaf : TapLeafScript} :
    leafScriptOfValue value = .ok leaf ↔ value = leafScriptBytes leaf := by
  rcases leaf with ⟨script, version⟩
  unfold leafScriptOfValue leafScriptBytes
  rcases List.eq_nil_or_concat' value with rfl | ⟨front, last, rfl⟩
  · simp
  · simp only [List.getLast?_append, List.getLast?_singleton, Option.some_or,
      Result.bind_eq_ok, Result.mapErr_eq_ok, Result.ofExcept_eq_ok,
      LawfulCodecs.leafVersion_fromConsensus, List.dropLast_concat]
    constructor
    · rintro ⟨v, rfl, heq⟩
      cases heq
      rfl
    · intro heq
      rcases List.append_inj' heq rfl with ⟨rfl, hlast⟩
      exact ⟨version, List.head_eq_of_cons_eq hlast, rfl⟩

theorem valueCodec_leafScript :
    ValueCodec leafScriptDecoder fun leaf => .ofBytes (leafScriptBytes leaf) := by
  apply ValueCodec.of_byteVec fun _ => rfl
  · intro leaf _
    exact leafScriptOfValue_eq_ok.mpr rfl
  · intro w leaf hw hleaf
    rw [leafScriptOfValue_eq_ok.mp hleaf] at hw
    exact hw

theorem safe_leafScript : leafScriptDecoder.Safe := by
  apply LawfulCodecs.byteVec_sound.safe.wrap
  intro value
  unfold leafScriptOfValue
  split
  · trivial
  · apply Result.Returns.bind (Result.returns_mapErr.mpr (Result.returns_ofExcept _))
    intro version _
    trivial

end

end RustPsbt
