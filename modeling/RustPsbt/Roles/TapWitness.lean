import RustPsbt.Encoding.Value
import RustPsbt.Library.LastMin
import RustPsbt.Reference.TapMiniscript
import RustPsbt.Roles.Descriptor

/-!
# The witness of a taproot input

The finalizer takes the signature of the internal key, or else the smallest witness that
satisfies a leaf.  Its size of a witness leaves the length prefixes of the elements out.

Main results:

- Theorem `Finalizer.constructTapWitness_eq`: the loop takes the last of the witnesses that
  are smallest in this size.
- Theorem `Finalizer.choosesTapWitness_iff`: exactly when the smallest witness is returned,
  by the length prefixes of the witnesses to choose from.
- Theorem `Finalizer.prefixesAgree_of_prefixesSize_eq`: it is where these need equally many
  bytes.
-/

namespace RustPsbt

section Generic

variable [BitcoinTypes] [Miniscript] [KeyHashes]

/-! ## What `miniscript` is relied on for -/

/-- A script that decodes is encoded as itself, also with keys in the place of their hashes. -/
class LawfulTapMiniscript : Prop where
  encode_substitute : ∀ {script : ScriptBuf} {ms : Miniscript.TapMs}
    {map : BTreeMap (U8Array 20) XOnlyPublicKey},
    (∀ hash key, map[hash]? = some key → xOnlyPubkeyHash key = hash) →
      Miniscript.decodeConsensusTap script = .ok ms →
        Miniscript.encodeTap (Miniscript.substituteRawPkhTap ms map) = script

namespace Finalizer

/-! ## The witnesses to choose from -/

/-- The signature of the internal key. -/
def internalKeySig (input : Input) : Option TaprootSignature :=
  input.tapInternalKey.bind fun _ => input.tapKeySig

/-- The stack that satisfies a tapscript, if the script parses and is satisfiable. -/
def tapSatisfaction (input : Input) (allowMall : Bool) (script : ScriptBuf) :
    Option (List Bytes) :=
  match Miniscript.decodeConsensusTap script with
  | .error _ => none
  | .ok ms =>
      let ms := Miniscript.substituteRawPkhTap ms (tapKeysByHash input)
      (if allowMall then Miniscript.satisfyMalleableTap ms input.satisfier
        else Miniscript.satisfyTap ms input.satisfier).toOption

/-- The witness of a leaf of the version of tapscripts: the satisfaction, the script and the
control block. -/
def tapLeafWitness (input : Input) (allowMall : Bool) (entry : ControlBlock × TapLeafScript) :
    Option (List Bytes) :=
  if Miniscript.isTapScript entry.2.2 then
    (tapSatisfaction input allowMall entry.2.1).map fun stack =>
      stack ++ [entry.2.1, Miniscript.serializeControlBlock entry.1]
  else none

/-- The witnesses of the leaves, in the order of their control blocks. -/
def tapWitnesses (input : Input) (allowMall : Bool) : List (List Bytes) :=
  input.tapScripts.toList.filterMap (tapLeafWitness input allowMall)

/-- The consensus serialization of a witness. -/
def serializeWitness (wit : List Bytes) : Bytes :=
  compactSize wit.length ++ wit.flatMap frame

/-- The consensus-serialized size of a witness. -/
def serializedSize (wit : List Bytes) : Nat :=
  (serializeWitness wit).length

/-- The key-path signature alone, or else a witness with the shortest serialization. -/
structure ChoosesTapWitness (input : Input) (allowMall : Bool)
    (r : Result InputError (List Bytes)) : Prop where
  keyPath : ∀ sig, internalKeySig input = some sig →
    r = .ok [Miniscript.taprootSignatureToVec sig]
  scriptPath : internalKeySig input = none → tapWitnesses input allowMall ≠ [] →
    ∃ wit ∈ tapWitnesses input allowMall, r = .ok wit ∧
      ∀ other ∈ tapWitnesses input allowMall, serializedSize wit ≤ serializedSize other
  missing : internalKeySig input = none →
    (r = .err .couldNotSatisfyTr ↔ tapWitnesses input allowMall = [])

/-- The bytes of the length prefixes of the elements, which `witness_size` leaves out. -/
def prefixesSize (wit : List Bytes) : Nat :=
  (wit.map fun e => varIntSize e.length).sum

/-- The elements of the left witness have no more bytes than those of the right one, but its
length prefixes need more bytes than this saves. -/
structure PrefixesOutweigh (wit other : List Bytes) : Prop where
  elements : witnessSize wit ≤ witnessSize other
  prefixes : prefixesSize other + (witnessSize other - witnessSize wit) < prefixesSize wit

/-- A witness whose length prefixes outweigh what its elements save is not preferred to all
others: one before it has fewer bytes of elements, or one after it no more. -/
def PrefixesAgree (wits : List (List Bytes)) : Prop :=
  ∀ pre wit post, wits = pre ++ wit :: post → (∃ other ∈ wits, PrefixesOutweigh wit other) →
    (∃ c ∈ pre, witnessSize c < witnessSize wit) ∨ ∃ c ∈ post, witnessSize c ≤ witnessSize wit

/-! ## Sizes -/

omit [BitcoinTypes] [Miniscript] [KeyHashes] in
theorem varintLen_eq (n : Nat) : varintLen n = varIntSize n :=
  rfl

omit [BitcoinTypes] [Miniscript] [KeyHashes] in
/-- What `witness_size` leaves out: the length prefixes of the elements. -/
theorem serializedSize_eq (wit : List Bytes) :
    serializedSize wit = witnessSize wit + prefixesSize wit := by
  have hflat : (wit.flatMap frame).length =
      (wit.map List.length).sum + prefixesSize wit := by
    unfold prefixesSize
    induction wit with
    | nil => rfl
    | cons e wit ih =>
        simp only [List.flatMap_cons, List.length_append, List.map_cons, List.sum_cons, ih, frame,
          length_compactSize]
        omega
  rw [serializedSize, serializeWitness, List.length_append, length_compactSize, hflat,
    witnessSize, varintLen_eq]
  omega

omit [BitcoinTypes] [Miniscript] [KeyHashes] in
/-- Among witnesses of no fewer bytes of elements, one with a shorter serialization is one
with far fewer bytes of length prefixes. -/
theorem prefixesOutweigh_iff {wit other : List Bytes}
    (h : witnessSize wit ≤ witnessSize other) :
    PrefixesOutweigh wit other ↔ serializedSize other < serializedSize wit := by
  rw [serializedSize_eq, serializedSize_eq]
  constructor
  · intro houtweigh
    have hprefixes := houtweigh.prefixes
    omega
  · intro hlt
    exact ⟨h, by omega⟩

omit [BitcoinTypes] [Miniscript] [KeyHashes] in
/-- The condition on the length prefixes is one on the last of the smallest witnesses. -/
theorem prefixesAgree_iff {wits : List (List Bytes)} :
    PrefixesAgree wits ↔ ∀ wit, lastMin witnessSize wits = some wit →
      ∀ other ∈ wits, serializedSize wit ≤ serializedSize other := by
  rw [lastMin_least_iff]
  constructor
  · rintro h pre wit post hwits ⟨other, hother, hlt⟩
    by_cases hle : witnessSize wit ≤ witnessSize other
    · exact h pre wit post hwits ⟨other, hother, (prefixesOutweigh_iff hle).mpr hlt⟩
    · -- the other witness has fewer bytes of elements itself
      have hmem : other ∈ pre ++ wit :: post := hwits ▸ hother
      rcases List.mem_append.mp hmem with hpre | hrest
      · exact .inl ⟨other, hpre, by omega⟩
      · rcases List.mem_cons.mp hrest with rfl | hpost
        · exact absurd le_rfl hle
        · exact .inr ⟨other, hpost, by omega⟩
  · rintro h pre wit post hwits ⟨other, hother, houtweigh⟩
    exact h pre wit post hwits
      ⟨other, hother, (prefixesOutweigh_iff houtweigh.elements).mp houtweigh⟩

omit [BitcoinTypes] [Miniscript] [KeyHashes] in
/-- Length prefixes of equally many bytes outweigh nothing. -/
theorem prefixesAgree_of_prefixesSize_eq {wits : List (List Bytes)}
    (h : ∀ wit ∈ wits, ∀ other ∈ wits, prefixesSize wit = prefixesSize other) :
    PrefixesAgree wits := by
  rintro pre wit post hwits ⟨other, hother, houtweigh⟩
  have hwit : wit ∈ wits := by simp [hwits]
  have heq := h wit hwit other hother
  have hprefixes := houtweigh.prefixes
  omega

/-! ## The loop -/

omit [Miniscript] in
/-- The keys are listed under their hashes. -/
theorem hash_of_tapKeysByHash {input : Input} {hash : U8Array 20} {key : XOnlyPublicKey}
    (h : (tapKeysByHash input)[hash]? = some key) : xOnlyPubkeyHash key = hash := by
  have hfold : ∀ (keys : List XOnlyPublicKey) (map : BTreeMap (U8Array 20) XOnlyPublicKey),
      (∀ hash key, map[hash]? = some key → xOnlyPubkeyHash key = hash) → ∀ hash key,
        (keys.foldl (fun map key => map.insert (xOnlyPubkeyHash key) key) map)[hash]? = some key →
          xOnlyPubkeyHash key = hash := by
    intro keys
    induction keys with
    | nil => exact fun map hmap => hmap
    | cons first keys ih =>
        intro map hmap
        apply ih
        intro hash key hlookup
        rw [Std.ExtTreeMap.getElem?_insert] at hlookup
        split at hlookup
        · rename_i heq
          cases hlookup
          exact Std.LawfulEqCmp.eq_of_compare heq
        · exact hmap hash key hlookup
  exact hfold _ _ (fun hash key hlookup => by simp at hlookup) hash key h

/-- A round keeps the smaller witness if the leaf has one. -/
theorem tapScriptRound_eq [LawfulTapMiniscript] (input : Input) (allowMall : Bool)
    (best : Option (List Bytes)) (entry : ControlBlock × TapLeafScript) :
    tapScriptRound (tapKeysByHash input) input.satisfier allowMall
        (best.map fun wit => (wit, witnessSize wit)) entry =
      (match tapLeafWitness input allowMall entry with
        | none => best
        | some wit => keepMin witnessSize best wit).map fun wit => (wit, witnessSize wit) := by
  obtain ⟨controlBlock, script, ver⟩ := entry
  unfold tapScriptRound tapLeafWitness tapSatisfaction
  by_cases hver : Miniscript.isTapScript ver = true
  · simp only [hver, Bool.not_true, Bool.false_eq_true, if_false, if_true]
    cases hms : Miniscript.decodeConsensusTap script with
    | error e => rfl
    | ok ms =>
        have hkeys : ∀ (hash : U8Array 20) (key : XOnlyPublicKey),
            (tapKeysByHash input)[hash]? = some key → xOnlyPubkeyHash key = hash :=
          fun _ _ => hash_of_tapKeysByHash
        have hencode := LawfulTapMiniscript.encode_substitute hkeys hms
        simp only [hencode]
        cases hsat : (if allowMall then Miniscript.satisfyMalleableTap
            (Miniscript.substituteRawPkhTap ms (tapKeysByHash input)) input.satisfier
          else Miniscript.satisfyTap
            (Miniscript.substituteRawPkhTap ms (tapKeysByHash input)) input.satisfier) with
        | error e => rfl
        | ok stack =>
            cases best with
            | none => rfl
            | some best =>
                simp only [Option.map_some, Except.toOption, keepMin]
                split <;> rfl
  · simp [hver]

/-- The loop keeps the last of the smallest witnesses. -/
theorem foldl_tapScriptRound [LawfulTapMiniscript] (input : Input) (allowMall : Bool)
    (entries : List (ControlBlock × TapLeafScript)) :
    entries.foldl (tapScriptRound (tapKeysByHash input) input.satisfier allowMall) none =
      (lastMin witnessSize (entries.filterMap (tapLeafWitness input allowMall))).map
        fun wit => (wit, witnessSize wit) := by
  have hfold : ∀ best : Option (List Bytes),
      entries.foldl (tapScriptRound (tapKeysByHash input) input.satisfier allowMall)
          (best.map fun wit => (wit, witnessSize wit)) =
        ((entries.filterMap (tapLeafWitness input allowMall)).foldl (keepMin witnessSize)
          best).map fun wit => (wit, witnessSize wit) := by
    induction entries with
    | nil => exact fun best => rfl
    | cons entry entries ih =>
        intro best
        rw [List.foldl_cons, tapScriptRound_eq, ih]
        cases hwit : tapLeafWitness input allowMall entry with
        | none => rw [List.filterMap_cons_none hwit]
        | some wit => rw [List.filterMap_cons_some hwit, List.foldl_cons]
  exact hfold none

/-- The signature of the internal key, or the last of the smallest witnesses. -/
theorem constructTapWitness_eq [LawfulTapMiniscript] {spk : ScriptBuf} (h : ScriptBuf.isP2tr spk)
    (input : Input) (allowMall : Bool) : constructTapWitness spk input allowMall =
      match internalKeySig input with
      | some sig => .ok [Miniscript.taprootSignatureToVec sig]
      | none => .okOr .couldNotSatisfyTr
          (lastMin witnessSize (tapWitnesses input allowMall)) := by
  have hsig : input.tapInternalKey.bind
      (input.satisfier : Satisfier XOnlyPublicKey).lookupTapKeySpendSig = internalKeySig input := by
    unfold internalKeySig
    cases hkey : input.tapInternalKey with
    | none => rfl
    | some key =>
        simp only [Option.bind_some, Input.satisfier, hkey]
        exact if_pos rfl
  have hmap : (input.satisfier : Satisfier XOnlyPublicKey).lookupTapControlBlockMap =
      some input.tapScripts := rfl
  unfold constructTapWitness
  simp only [h, Bool.not_true, Bool.false_eq_true, if_false, hsig, hmap, foldl_tapScriptRound]
  cases internalKeySig input with
  | some sig => rfl
  | none =>
      rw [Option.map_map]
      exact congrArg (Result.okOr _) (congrFun Option.map_id _)

/-- A witness with the shortest serialization is returned exactly if the internal key has a
signature or the length prefixes agree with the bytes of elements. -/
theorem choosesTapWitness_iff [LawfulTapMiniscript] {spk : ScriptBuf} (h : ScriptBuf.isP2tr spk)
    (input : Input) (allowMall : Bool) :
    ChoosesTapWitness input allowMall (constructTapWitness spk input allowMall) ↔
      (internalKeySig input).isSome ∨ PrefixesAgree (tapWitnesses input allowMall) := by
  rw [constructTapWitness_eq h, prefixesAgree_iff]
  cases hsig : internalKeySig input with
  | some sig =>
      refine iff_of_true ⟨?_, ?_, ?_⟩ (.inl rfl)
      · intro other hother
        rw [hsig] at hother
        cases hother
        rfl
      · intro hnone
        rw [hsig] at hnone
        cases hnone
      · intro hnone
        rw [hsig] at hnone
        cases hnone
  | none =>
      simp only [Option.isSome_none, Bool.false_eq_true, false_or]
      constructor
      · intro hchoose wit hmin other hother
        have hne : tapWitnesses input allowMall ≠ [] := List.ne_nil_of_mem hother
        obtain ⟨chosen, -, hchosen, hshortest⟩ := hchoose.scriptPath hsig hne
        rw [hmin] at hchosen
        obtain rfl : wit = chosen := Except.ok.inj hchosen
        exact hshortest other hother
      · intro hleast
        refine ⟨fun sig hsome => ?_, fun _ hne => ?_, fun _ => ?_⟩
        · rw [hsig] at hsome
          cases hsome
        · cases hmin : lastMin witnessSize (tapWitnesses input allowMall) with
          | none => exact absurd (lastMin_eq_none.mp hmin) hne
          | some wit => exact ⟨wit, mem_of_lastMin hmin, rfl, hleast wit hmin⟩
        · cases hmin : lastMin witnessSize (tapWitnesses input allowMall) with
          | none => exact iff_of_true rfl (lastMin_eq_none.mp hmin)
          | some wit =>
              refine iff_of_false (by nofun) fun hnil => ?_
              rw [hnil] at hmin
              cases hmin

end Finalizer

end Generic

/-! ## Reference witnesses -/

section

attribute [local instance] Reference.types Reference.codecs Reference.keyHashes
  Reference.tapMiniscript

theorem Reference.lawfulTapMiniscript : LawfulTapMiniscript where
  encode_substitute {script ms map} _ hms := by
    change Reference.parsed (Reference.TapFragment.ofScript script) = .ok ms at hms
    cases hfind : Reference.TapFragment.ofScript script with
    | none =>
        rw [hfind] at hms
        cases hms
    | some fragment =>
        rw [hfind] at hms
        cases hms
        exact eq_of_beq (List.find?_some hfind :)

namespace Finalizer

/-- The witness of the leaf `multi_a(1,A,B)` has one element more and as many bytes. -/
theorem not_choosesTapWitness_tapInput : ¬ChoosesTapWitness Reference.tapInput true
    (constructTapWitness Reference.tapScriptPubkey Reference.tapInput true) := by
  intro h
  have hwits : (tapWitnesses Reference.tapInput true).map serializedSize = [204, 205] := by
    decide +kernel
  have hchosen : (constructTapWitness Reference.tapScriptPubkey Reference.tapInput
      true).toOption.map serializedSize = some 205 := by decide +kernel
  have hne : tapWitnesses Reference.tapInput true ≠ [] := by
    intro hnil
    rw [hnil] at hwits
    cases hwits
  obtain ⟨wit, -, hwit, hshortest⟩ := h.scriptPath rfl hne
  rw [hwit] at hchosen
  have hsize : serializedSize wit = 205 := Option.some.inj hchosen
  have hother : 204 ∈ (tapWitnesses Reference.tapInput true).map serializedSize := by
    rw [hwits]
    exact List.mem_cons_self
  obtain ⟨other, hmem, heq⟩ := List.mem_map.mp hother
  have hle := hshortest other hmem
  omega

theorem choosesTapWitness_tapInput :
    ChoosesTapWitness Reference.tapInput true
        (constructTapWitness Reference.tapScriptPubkey Reference.tapInput true) ↔
      (internalKeySig Reference.tapInput).isSome ∨
        PrefixesAgree (tapWitnesses Reference.tapInput true) :=
  letI := Reference.lawfulTapMiniscript
  choosesTapWitness_iff (by decide) Reference.tapInput true

end Finalizer

end

end RustPsbt
