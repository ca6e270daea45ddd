import RustPsbt.Reference.Keys
import RustPsbt.Roles.Session

/-!
# Signatures and the keys they are filed under

An ECDSA signature is filed under the public key of the key that made it, a taproot
signature under the key its origin is listed under, whatever key the origin leads to.

Main results:

- Theorem `SigningSession.inputSigs_filed_iff`: signatures are filed under the keys that
  made them exactly if the origins lead to the keys they are listed under.
- Theorem `SigningSession.filed_iff`: so for all ways to sign.
-/

namespace RustPsbt

section Generic

variable [BitcoinTypes] [Secp]

/-! ## Signatures of a key -/

/-- An ECDSA signature made with the private key. -/
def EcdsaBy (sk : PrivateKey) (sig : EcdsaSignature) : Prop :=
  ∃ msg ty, sig = Secp.ecdsa (Secp.signEcdsa msg (Secp.inner sk)) ty

/-- A Schnorr signature made with the private key. -/
def SchnorrBy (sk : PrivateKey) (sig : TaprootSignature) : Prop :=
  ∃ msg ty,
    sig = Secp.taproot (Secp.signSchnorr msg (Secp.fromSecretKey (Secp.inner sk))) ty

/-- A Schnorr signature made with the private key tweaked by the merkle root. -/
def TweakedBy (sk : PrivateKey) (root : Option TapNodeHash) (sig : TaprootSignature) : Prop :=
  ∃ msg ty, sig = Secp.taproot
    (Secp.signSchnorr msg (Secp.tapTweak (Secp.fromSecretKey (Secp.inner sk)) root)) ty

/-- Keys with different x-only public keys make different Schnorr signatures, with and
without a tweak: a signature verifies under one key. -/
structure SchnorrBinding : Prop where
  plain : ∀ (sk sk' : PrivateKey) sig, SchnorrBy sk sig → SchnorrBy sk' sig →
    xonlyOf sk = xonlyOf sk'
  tweaked : ∀ (sk sk' : PrivateKey) root sig, TweakedBy sk root sig →
    TweakedBy sk' root sig → xonlyOf sk = xonlyOf sk'

/-! ## What labels promise -/

/-- The key and the leaf of a label. -/
def TapKeyMaterial.leaf : TapKeyMaterial → Option (XOnlyPublicKey × TapLeafHash)
  | keyPath _ => none
  | scriptPath keyMaterial => some keyMaterial

/-- The input already has the taproot signature. -/
def Input.Carries (i : Input) : TapKeyMaterial → Prop
  | .keyPath _ => i.tapKeySig.isSome
  | .scriptPath keyMaterial => i.tapScriptSigs.contains keyMaterial

/-- The taproot signature was made with the secret key of its label. -/
def Input.TapSigFiled (i : Input) (entry : TapKeyMaterial × TaprootSignature) : Prop :=
  match entry.1 with
  | .keyPath internalKey => i.tapInternalKey = some internalKey ∧
      ∃ sk, xonlyOf sk = internalKey ∧ TweakedBy sk i.tapMerkleRoot entry.2
  | .scriptPath (xonly, _) => ∃ sk, xonlyOf sk = xonly ∧ SchnorrBy sk entry.2

/-- The signatures are filed under the keys that made them, none twice and none that
the input already has. -/
def Input.Filed (i : Input) (signatures : TypedSigs) : Prop :=
  match signatures with
  | .ecdsa signatures =>
      ∀ entry ∈ signatures, ∃ sk, Secp.publicKey sk = entry.1 ∧ EcdsaBy sk entry.2
  | .taproot signatures =>
      (∀ entry ∈ signatures, i.TapSigFiled entry) ∧
        (signatures.filterMap fun entry => entry.1.leaf).Nodup ∧
        ∀ entry ∈ signatures, ¬i.Carries entry.1

/-- A signature for the key path is due. -/
def Input.KeyPathDue (i : Input) (xonly : XOnlyPublicKey) (leafHashes : List TapLeafHash) :
    Prop :=
  i.tapInternalKey = some xonly ∧ leafHashes = [] ∧ i.tapKeySig = none

/-- The origins that signatures are made for lead to the keys they are listed under,
and list no leaf twice that is still to be signed. -/
structure Input.OriginsLead (i : Input) (k : GetKey) : Prop where
  derived : ∀ xonly leafHashes keySource sk,
    i.tapKeyOrigins[xonly]? = some (leafHashes, keySource) →
    k.getKey (.bip32 keySource) = .ok (some sk) →
    i.KeyPathDue xonly leafHashes ∨
      SigningSession.unsignedLeaves i xonly leafHashes ≠ [] →
    xonlyOf sk = xonly
  leaves : ∀ xonly leafHashes keySource,
    i.tapKeyOrigins[xonly]? = some (leafHashes, keySource) →
    (k.keyFor keySource (.xOnlyPubkey xonly)).isSome →
    (SigningSession.unsignedLeaves i xonly leafHashes).Nodup

/-! ## What a round signs -/

namespace SigningSession

/-- The signature of a round for the key path. -/
def KeyPathMade (i : Input) (xonly : XOnlyPublicKey) (leafHashes : List TapLeafHash)
    (sk : PrivateKey) (made : List (TapKeyMaterial × TaprootSignature)) : Prop :=
  (i.KeyPathDue xonly leafHashes ∧
      ∃ sig, TweakedBy sk i.tapMerkleRoot sig ∧ made = [(.keyPath xonly, sig)]) ∨
    ¬i.KeyPathDue xonly leafHashes ∧ made = []

/-- The signatures of a round for the script paths, one for every leaf. -/
def ScriptPathsMade (xonly : XOnlyPublicKey) (sk : PrivateKey) (leaves : List TapLeafHash)
    (made : List (TapKeyMaterial × TaprootSignature)) : Prop :=
  List.Forall₂ (fun lh entry =>
    entry.1 = .scriptPath (xonly, lh) ∧ SchnorrBy sk entry.2) leaves made

/-- The signatures of a round. -/
inductive RoundMade (i : Input) (k : GetKey) :
    XOnlyPublicKey × TapKeyOrigin → List (TapKeyMaterial × TaprootSignature) → Prop where
  | skipped {xonly leafHashes keySource}
      (hnone : k.keyFor keySource (.xOnlyPubkey xonly) = none) :
      RoundMade i k (xonly, leafHashes, keySource) []
  | signed {xonly leafHashes keySource sk keyPath scriptPath}
      (hsk : k.keyFor keySource (.xOnlyPubkey xonly) = some sk)
      (hkeyPath : KeyPathMade i xonly leafHashes sk keyPath)
      (hscriptPath : ScriptPathsMade xonly sk (unsignedLeaves i xonly leafHashes) scriptPath) :
      RoundMade i k (xonly, leafHashes, keySource) (keyPath ++ scriptPath)

section

variable {self : SigningSession} {input : SignableInput} {i : Input}
  {allPrevouts : List TxOut} {k : GetKey} {xonly : XOnlyPublicKey}
  {leafHashes leaves : List TapLeafHash} {keySource : KeySource} {sk : PrivateKey}
  {keyPath scriptPath made : List (TapKeyMaterial × TaprootSignature)}

/-- What a round signs for the key path. -/
theorem keyPathSigs_spec [SighashEngine]
    (h : self.keyPathSigs input i allPrevouts xonly leafHashes sk = .ok keyPath) :
    KeyPathMade i xonly leafHashes sk keyPath := by
  unfold keyPathSigs at h
  unfold KeyPathMade Input.KeyPathDue
  cases hkey : i.tapInternalKey with
  | none =>
      rw [hkey] at h
      cases h
      simp
  | some internalKey =>
      rw [hkey] at h
      dsimp only at h
      split at h
      · rename_i hdue
        obtain ⟨rfl, hleaves, hsig⟩ := hdue
        obtain ⟨⟨msg, ty⟩, -, h⟩ := Result.bind_eq_ok.mp h
        cases h
        exact .inl ⟨⟨rfl, hleaves, hsig⟩, _, ⟨msg, ty, rfl⟩, rfl⟩
      · rename_i hnot
        cases h
        right
        simpa using hnot

/-- What a round signs for the script paths. -/
theorem scriptPathSigs_spec [SighashEngine]
    (horigin : i.tapKeyOrigins[xonly]? = some (leafHashes, keySource))
    (h : self.scriptPathSigs input i allPrevouts xonly sk = .ok scriptPath) :
    ScriptPathsMade xonly sk (unsignedLeaves i xonly leafHashes) scriptPath := by
  unfold scriptPathSigs at h
  rw [horigin] at h
  refine (Result.mapM_eq_ok.mp h).imp fun lh entry hentry => ?_
  obtain ⟨⟨msg, ty⟩, -, hentry⟩ := Result.bind_eq_ok.mp hentry
  cases hentry
  exact ⟨rfl, msg, ty, rfl⟩

/-- What a round signs. -/
theorem taprootRound_spec [SighashEngine]
    (horigin : i.tapKeyOrigins[xonly]? = some (leafHashes, keySource))
    (h : self.taprootRound input i allPrevouts k (xonly, leafHashes, keySource) = .ok made) :
    RoundMade i k (xonly, leafHashes, keySource) made := by
  unfold taprootRound at h
  dsimp only at h
  split at h
  · rename_i sk hsk
    obtain ⟨keyPath, hkeyPath, h⟩ := Result.bind_eq_ok.mp h
    obtain ⟨scriptPath, hscriptPath, h⟩ := Result.bind_eq_ok.mp h
    cases h
    exact .signed hsk (keyPathSigs_spec hkeyPath) (scriptPathSigs_spec horigin hscriptPath)
  · rename_i hnone
    cases h
    exact .skipped hnone

/-- The signatures for the key path have no leaf. -/
theorem KeyPathMade.leaf_eq_nil (h : KeyPathMade i xonly leafHashes sk keyPath) :
    keyPath.filterMap (fun entry => entry.1.leaf) = [] := by
  rcases h with ⟨-, sig, -, rfl⟩ | ⟨-, rfl⟩
  · rfl
  · rfl

/-- The signatures for the script paths have the leaves in order. -/
theorem ScriptPathsMade.leaf_eq (h : ScriptPathsMade xonly sk leaves scriptPath) :
    scriptPath.filterMap (fun entry => entry.1.leaf) = leaves.map fun lh => (xonly, lh) := by
  induction h with
  | nil => rfl
  | cons hentry _ ih =>
      rw [List.filterMap_cons, hentry.1, List.map_cons, ih]
      rfl

/-- The leaves of a round are those of its key. -/
theorem RoundMade.leaf_eq (h : RoundMade i k (xonly, leafHashes, keySource) made) :
    made.filterMap (fun entry => entry.1.leaf) =
      if (k.keyFor keySource (.xOnlyPubkey xonly)).isSome then
        (unsignedLeaves i xonly leafHashes).map fun lh => (xonly, lh)
      else [] := by
  cases h with
  | skipped hnone => simp [hnone]
  | signed hsk hkeyPath hscriptPath =>
      rw [List.filterMap_append, hkeyPath.leaf_eq_nil, hscriptPath.leaf_eq, hsk]
      rfl

/-- The leaves that the round for an origin signs. -/
def leavesOf (i : Input) (k : GetKey) (entry : XOnlyPublicKey × TapKeyOrigin) :
    List (XOnlyPublicKey × TapLeafHash) :=
  if (k.keyFor entry.2.2 (.xOnlyPubkey entry.1)).isSome then
    (unsignedLeaves i entry.1 entry.2.1).map fun lh => (entry.1, lh)
  else []

/-- The leaves of all rounds are those of the origins, one after another. -/
theorem leaf_flatten_eq {entries : List (XOnlyPublicKey × TapKeyOrigin)}
    {groups : List (List (TapKeyMaterial × TaprootSignature))}
    (h : List.Forall₂ (RoundMade i k) entries groups) :
    groups.flatten.filterMap (fun entry => entry.1.leaf) = entries.flatMap (leavesOf i k) := by
  induction h with
  | nil => rfl
  | @cons entry group entries groups hround _ ih =>
      obtain ⟨xonly, leafHashes, keySource⟩ := entry
      rw [List.flatten_cons, List.filterMap_append, List.flatMap_cons, ih, hround.leaf_eq]
      rfl

/-- No leaf is signed twice exactly if no origin makes that happen alone. -/
theorem nodup_leaves_iff :
    (i.tapKeyOrigins.toList.flatMap (leavesOf i k)).Nodup ↔
      ∀ xonly leafHashes keySource,
        i.tapKeyOrigins[xonly]? = some (leafHashes, keySource) →
        (k.keyFor keySource (.xOnlyPubkey xonly)).isSome →
        (unsignedLeaves i xonly leafHashes).Nodup := by
  have hinjective : ∀ xonly : XOnlyPublicKey,
      Function.Injective fun lh : TapLeafHash => (xonly, lh) :=
    fun xonly lh lh' h => (Prod.mk.inj h).2
  rw [List.nodup_flatMap]
  constructor
  · rintro ⟨hgroups, -⟩ xonly leafHashes keySource horigin hsome
    have hmem := Std.ExtTreeMap.mem_toList_iff_getElem?_eq_some.mpr horigin
    have hnodup := hgroups _ hmem
    unfold leavesOf at hnodup
    rw [if_pos hsome] at hnodup
    exact hnodup.of_map _
  · intro h
    refine ⟨?_, ?_⟩
    · rintro ⟨xonly, leafHashes, keySource⟩ hmem
      have horigin := Std.ExtTreeMap.mem_toList_iff_getElem?_eq_some.mp hmem
      unfold leavesOf
      split
      · rename_i hsome
        exact (h xonly leafHashes keySource horigin hsome).map (hinjective xonly)
      · exact List.nodup_nil
    · -- leaves of different origins differ in the key
      refine (BTreeMap.distinctKeys_toList i.tapKeyOrigins).imp ?_
      intro a b hne
      rw [Function.onFun, List.disjoint_left]
      intro leaf ha hb
      have hkey : ∀ {entry : XOnlyPublicKey × TapKeyOrigin},
          leaf ∈ leavesOf i k entry → leaf.1 = entry.1 := by
        intro entry hmem
        unfold leavesOf at hmem
        split at hmem
        · obtain ⟨lh, -, rfl⟩ := List.mem_map.mp hmem
          rfl
        · cases hmem
      exact hne ((hkey ha).symm.trans (hkey hb))

/-- With origins that lead to their keys, the key of a round is the listed one. -/
theorem xonlyOf_eq_of_originsLead [Bip32] (hhonest : k.Honest) (hlead : i.OriginsLead k)
    (horigin : i.tapKeyOrigins[xonly]? = some (leafHashes, keySource))
    (hsk : k.keyFor keySource (.xOnlyPubkey xonly) = some sk)
    (hdue : i.KeyPathDue xonly leafHashes ∨ unsignedLeaves i xonly leafHashes ≠ []) :
    xonlyOf sk = xonly := by
  rcases GetKey.keyFor_eq_some.mp hsk with hderived | ⟨-, hasked⟩
  · exact hlead.derived xonly leafHashes keySource sk horigin hderived hdue
  · exact hhonest.xOnlyPubkey xonly sk hasked

omit [Secp] in
/-- A leaf that is still to be signed is not signed. -/
theorem not_carries_of_mem_unsignedLeaves {lh : TapLeafHash}
    (h : lh ∈ unsignedLeaves i xonly leafHashes) : ¬i.Carries (.scriptPath (xonly, lh)) := by
  have hnot : i.tapScriptSigs.contains (xonly, lh) = false := by
    simpa using (List.mem_filter.mp h).2
  change ¬i.tapScriptSigs.contains (xonly, lh) = true
  rw [hnot]
  exact Bool.false_ne_true

/-- The signatures of a round are filed under the key that made them. -/
theorem RoundMade.filed [Bip32] (hhonest : k.Honest) (hlead : i.OriginsLead k)
    (horigin : i.tapKeyOrigins[xonly]? = some (leafHashes, keySource))
    (h : RoundMade i k (xonly, leafHashes, keySource) made)
    {entry : TapKeyMaterial × TaprootSignature} (hentry : entry ∈ made) :
    i.TapSigFiled entry ∧ ¬i.Carries entry.1 := by
  cases h with
  | skipped _ => cases hentry
  | signed hsk hkeyPath hscriptPath =>
      rename_i sk keyPath scriptPath
      rcases List.mem_append.mp hentry with hentry | hentry
      · rcases hkeyPath with ⟨hdue, sig, hsig, rfl⟩ | ⟨-, rfl⟩
        · rw [List.mem_singleton.mp hentry]
          have hxonly := xonlyOf_eq_of_originsLead hhonest hlead horigin hsk (.inl hdue)
          obtain ⟨hkey, -, hnone⟩ := hdue
          exact ⟨⟨hkey, sk, hxonly, hsig⟩, by simp [Input.Carries, hnone]⟩
        · cases hentry
      · obtain ⟨lh, hlh, hlabel, hsig⟩ := Result.exists_of_mem_right hscriptPath hentry
        have hdue : unsignedLeaves i xonly leafHashes ≠ [] := List.ne_nil_of_mem hlh
        have hxonly := xonlyOf_eq_of_originsLead hhonest hlead horigin hsk (.inr hdue)
        unfold Input.TapSigFiled
        rw [hlabel]
        exact ⟨⟨sk, hxonly, hsig⟩, not_carries_of_mem_unsignedLeaves hlh⟩

/-- A filed round was made with the listed key, if it made anything. -/
theorem RoundMade.xonlyOf_eq (hbinding : SchnorrBinding)
    (h : RoundMade i k (xonly, leafHashes, keySource) made)
    (hsk : k.keyFor keySource (.xOnlyPubkey xonly) = some sk)
    (hdue : i.KeyPathDue xonly leafHashes ∨ unsignedLeaves i xonly leafHashes ≠ [])
    (hfiled : ∀ entry ∈ made, i.TapSigFiled entry) : xonlyOf sk = xonly := by
  cases h with
  | skipped hnone =>
      rw [hnone] at hsk
      cases hsk
  | signed hsk' hkeyPath hscriptPath =>
      rw [hsk'] at hsk
      cases hsk
      rcases hdue with hdue | hdue
      · rcases hkeyPath with ⟨-, sig, hsig, rfl⟩ | ⟨hnot, -⟩
        · obtain ⟨-, sk', hxonly, hsig'⟩ := hfiled (.keyPath xonly, sig) (by simp)
          exact (hbinding.tweaked _ _ _ _ hsig hsig').trans hxonly
        · exact absurd hdue hnot
      · obtain ⟨lh, hlh⟩ := List.exists_mem_of_ne_nil _ hdue
        obtain ⟨entry, hentry, hlabel, hsig⟩ := Result.exists_of_mem_left hscriptPath hlh
        have hentry' := hfiled entry (List.mem_append_right _ hentry)
        unfold Input.TapSigFiled at hentry'
        rw [hlabel] at hentry'
        obtain ⟨sk', hxonly, hsig'⟩ := hentry'
        exact (hbinding.plain _ _ _ hsig hsig').trans hxonly

/-- The signatures of all rounds are filed under the keys that made them exactly if the
origins lead to the keys they are listed under. -/
theorem rounds_filed_iff [Bip32] (hbinding : SchnorrBinding) (hhonest : k.Honest)
    {groups : List (List (TapKeyMaterial × TaprootSignature))}
    (h : List.Forall₂ (RoundMade i k) i.tapKeyOrigins.toList groups) :
    i.Filed (.taproot groups.flatten) ↔ i.OriginsLead k := by
  have hleaves := leaf_flatten_eq h
  constructor
  · rintro ⟨hfiled, hnodup, -⟩
    rw [hleaves, nodup_leaves_iff] at hnodup
    refine ⟨fun xonly leafHashes keySource sk horigin hderived hdue => ?_, hnodup⟩
    have hmem := Std.ExtTreeMap.mem_toList_iff_getElem?_eq_some.mpr horigin
    obtain ⟨group, hgroup, hround⟩ := Result.exists_of_mem_left h hmem
    have hsk : k.keyFor keySource (.xOnlyPubkey xonly) = some sk :=
      GetKey.keyFor_eq_some.mpr (.inl hderived)
    exact hround.xonlyOf_eq hbinding hsk hdue fun entry hentry =>
      hfiled entry (List.mem_flatten_of_mem hgroup hentry)
  · intro hlead
    have hall : ∀ entry ∈ groups.flatten, i.TapSigFiled entry ∧ ¬i.Carries entry.1 := by
      intro entry hentry
      obtain ⟨group, hgroup, hentry⟩ := List.mem_flatten.mp hentry
      obtain ⟨⟨xonly, leafHashes, keySource⟩, hmem, hround⟩ :=
        Result.exists_of_mem_right h hgroup
      have horigin := Std.ExtTreeMap.mem_toList_iff_getElem?_eq_some.mp hmem
      exact hround.filed hhonest hlead horigin hentry
    refine ⟨fun entry hentry => (hall entry hentry).1, ?_,
      fun entry hentry => (hall entry hentry).2⟩
    rw [hleaves]
    exact nodup_leaves_iff.mpr hlead.leaves

/-- What the rounds over the taproot keys sign. -/
theorem taprootSignatures_spec [SighashEngine] {sigs : InputSigs}
    (h : self.taprootSignatures input allPrevouts k = .ok sigs) :
    ∃ i groups, self.psbt.inputs[input.index]? = some i ∧
      List.Forall₂ (RoundMade i k) i.tapKeyOrigins.toList groups ∧
        sigs = { index := input.index, signatures := .taproot groups.flatten } := by
  obtain ⟨i, hi, h⟩ := Result.bind_eq_ok.mp h
  obtain ⟨groups, hgroups, h⟩ := Result.bind_eq_ok.mp h
  cases h
  have hget := (Psbt.checkedInput_eq_ok.mp (Psbt.expect_toOption_eq_ok.mp hi)).2
  refine ⟨i, groups, hget, ?_, rfl⟩
  have hrounds : List.Forall₂ (fun entry group => entry ∈ i.tapKeyOrigins.toList ∧
      self.taprootRound input i allPrevouts k entry = .ok group)
      i.tapKeyOrigins.toList groups :=
    (List.forall₂_and_left _ _).mpr
      ⟨fun entry hentry => hentry, Result.mapM_eq_ok.mp hgroups⟩
  refine hrounds.imp ?_
  rintro ⟨xonly, leafHashes, keySource⟩ group ⟨hmem, hround⟩
  exact taprootRound_spec (Std.ExtTreeMap.mem_toList_iff_getElem?_eq_some.mp hmem) hround

/-- ECDSA signatures are always filed under the key that made them. -/
theorem ecdsaSignatures_filed [SighashEngine] {sigs : InputSigs}
    (h : self.ecdsaSignatures input k = .ok sigs) :
    ∃ i, self.psbt.inputs[input.index]? = some i ∧ sigs.index = input.index ∧
      i.Filed sigs.signatures := by
  obtain ⟨i, hi, h⟩ := Result.bind_eq_ok.mp h
  obtain ⟨⟨msg, ty⟩, -, h⟩ := Result.bind_eq_ok.mp h
  cases h
  have hget := (Psbt.checkedInput_eq_ok.mp (Psbt.expect_toOption_eq_ok.mp hi)).2
  refine ⟨i, hget, rfl, ?_⟩
  intro entry hentry
  obtain ⟨⟨pk, keySource⟩, -, hsome⟩ := List.mem_filterMap.mp hentry
  obtain ⟨sk, -, rfl⟩ := Option.map_eq_some_iff.mp hsome
  exact ⟨sk, rfl, msg, ty, rfl⟩

end

/-- The signatures are filed under the keys that made them, none twice and none that
the input already has. -/
def Filed (self : SigningSession) (sigs : InputSigs) : Prop :=
  ∃ i, self.psbt.inputs[sigs.index]? = some i ∧ i.Filed sigs.signatures

/-- The taproot origins of the input lead to the keys they are listed under. -/
def OriginsLead (self : SigningSession) (k : GetKey) (s : SignableInput) : Prop :=
  s.outputType = .tr → ∀ i, self.psbt.inputs[s.index]? = some i → i.OriginsLead k

variable [SighashEngine] [Bip32]

/-- The signatures of an input are filed under the keys that made them exactly if its
origins lead to the keys they are listed under. -/
theorem inputSigs_filed_iff (hbinding : SchnorrBinding) {self : SigningSession} {k : GetKey}
    (hhonest : k.Honest) {s : SignableInput} {allPrevouts : List TxOut} {sigs : InputSigs}
    (h : self.inputSigs s allPrevouts k = .ok sigs) :
    self.Filed sigs ↔ self.OriginsLead k s := by
  unfold inputSigs at h
  unfold Filed OriginsLead
  split at h
  · rename_i htype
    obtain ⟨i, groups, hget, hrounds, rfl⟩ := taprootSignatures_spec h
    have hiff := rounds_filed_iff hbinding hhonest hrounds
    simp only [htype, hget, Option.some.injEq, exists_eq_left', forall_eq', hiff,
      forall_const]
  · rename_i htype
    obtain ⟨i, hget, hindex, hfiled⟩ := ecdsaSignatures_filed h
    rw [hindex]
    exact ⟨fun _ htr => absurd htr htype, fun _ => ⟨i, hget, hfiled⟩⟩

/-- Whichever way inputs are signed, the signatures are filed under the keys that made
them exactly if the origins lead to the keys they are listed under. -/
theorem filed_iff (hbinding : SchnorrBinding) (self : SigningSession) {k : GetKey}
    (hhonest : k.Honest) :
    (∀ s sigs, self.getInputSigs s k = .ok sigs →
      (self.Filed sigs ↔ self.OriginsLead k s)) ∧
    (∀ inputs sigs, self.getSome inputs k = .ok sigs →
      ((∀ x ∈ sigs, self.Filed x) ↔ ∀ s ∈ inputs, self.OriginsLead k s)) ∧
    ∀ all sigs, self.getAll all k = .ok sigs →
      ((∀ x ∈ sigs, self.Filed x) ↔ ∀ s ∈ all.inputs, self.OriginsLead k s) := by
  refine ⟨fun s sigs h => inputSigs_filed_iff hbinding hhonest h, ?_, ?_⟩
  · intro inputs sigs h
    exact Result.forall_mem_iff (Result.mapM_eq_ok.mp h)
      fun s x hx => inputSigs_filed_iff hbinding hhonest hx
  · intro all sigs h
    exact Result.forall_mem_iff (Result.mapM_eq_ok.mp h)
      fun s x hx => inputSigs_filed_iff hbinding hhonest hx

end SigningSession

end Generic

namespace SigningSession

attribute [local instance] Reference.types Reference.txidHash Reference.scriptHashes
  Reference.signatureTypes Reference.sighashEngine Reference.secp Reference.bip32

open Reference

theorem schnorrBinding_reference : SchnorrBinding where
  plain := by
    rintro sk sk' sig ⟨msg, ty, hsig⟩ ⟨msg', ty', hsig'⟩
    exact xonlyOf_eq_of_taprootOf_eq (hsig.symm.trans hsig')
  tweaked := by
    rintro sk sk' root sig ⟨msg, ty, hsig⟩ ⟨msg', ty', hsig'⟩
    exact xonlyOf_eq_of_taprootOf_eq (hsig.symm.trans hsig')

/-- The key provider that holds one extended private key. -/
def trXpriv : GetKey :=
  ⟨GetKeyError, xprivGetKey trSeed⟩

theorem filed_iff_trMislabeled :
    (∀ s sigs, trMislabeledSigner.session.getInputSigs s trXpriv = .ok sigs →
      (trMislabeledSigner.session.Filed sigs ↔
        trMislabeledSigner.session.OriginsLead trXpriv s)) ∧
    (∀ inputs sigs, trMislabeledSigner.session.getSome inputs trXpriv = .ok sigs →
      ((∀ x ∈ sigs, trMislabeledSigner.session.Filed x) ↔
        ∀ s ∈ inputs, trMislabeledSigner.session.OriginsLead trXpriv s)) ∧
    ∀ all sigs, trMislabeledSigner.session.getAll all trXpriv = .ok sigs →
      ((∀ x ∈ sigs, trMislabeledSigner.session.Filed x) ↔
        ∀ s ∈ all.inputs, trMislabeledSigner.session.OriginsLead trXpriv s) :=
  filed_iff schnorrBinding_reference _ (honest_xpriv trSeed)

/-- An origin that leads to another key than the one it is listed under: the signature
is filed under the listed key. -/
theorem mislabels :
    ∃ (signer : Signer) (all : AllSignableInputs) (sigs : List InputSigs),
      Signer.new trMislabeled = .ok signer ∧ signer.session.signableInputs = .ok all ∧
        trXpriv.Honest ∧ signer.session.getAll all trXpriv = .ok sigs ∧
          ¬∀ x ∈ sigs, signer.session.Filed x := by
  obtain ⟨all, hall⟩ : ∃ all, trMislabeledSigner.session.signableInputs.toOption = some all :=
    Option.isSome_iff_exists.mp (by decide +kernel)
  have hinputs : (trMislabeledSigner.session.signableInputs.toOption.map fun all =>
      all.inputs.map fun s => (s.index, s.outputType)) = some [(0, .tr)] := by decide +kernel
  have hsigned : (trMislabeledSigner.session.signableInputs.toOption.map fun all =>
      (trMislabeledSigner.session.getAll all trXpriv).toOption.isSome) = some true := by
    decide +kernel
  rw [hall, Option.map_some, Option.some.injEq] at hinputs hsigned
  obtain ⟨sigs, hsigs⟩ := Option.isSome_iff_exists.mp hsigned
  have hsigs := Result.toOption_eq_some.mp hsigs
  refine ⟨trMislabeledSigner, all, sigs, Signer.new_eq_ok.mpr rfl,
    Result.toOption_eq_some.mp hall, honest_xpriv trSeed, hsigs, fun hfiled => ?_⟩
  have hlead := (Result.forall_mem_iff (Result.mapM_eq_ok.mp hsigs) fun s x hx =>
    inputSigs_filed_iff schnorrBinding_reference (honest_xpriv trSeed) hx).mp hfiled
  have hmem : (0, OutputType.tr) ∈ all.inputs.map fun s => (s.index, s.outputType) := by
    rw [hinputs]
    exact List.mem_singleton_self _
  obtain ⟨s, hs, hindex⟩ := List.mem_map.mp hmem
  obtain ⟨hzero, htr⟩ := Prod.mk.inj hindex
  have horigins := (hlead s hs htr trMislabeledInput (by rw [hzero]; rfl)).derived
    trClaimed [.zero 32] trSource (Bip32.toPriv (trDerived : Xpriv)) rfl rfl
    (.inr (by decide +kernel))
  exact absurd horigins (by decide +kernel)

end SigningSession

end RustPsbt
