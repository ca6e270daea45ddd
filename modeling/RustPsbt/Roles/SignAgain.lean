import RustPsbt.Roles.SignedCopies

/-!
# Signing again

A signer with the same keys adds nothing to a PSBT that it signed: taproot signatures that
are there are not made again, and ECDSA signatures are made again as they are.

Main results:

- Theorem `Signer.signAll_again`: signing all inputs again changes nothing.
-/

namespace RustPsbt

/-! ## Inserting pairs again -/

namespace BTreeMap

variable {K V : Type} [OrdKey K]

/-- A value in the map comes from the pairs, or was there before. -/
theorem getElem?_insertAll (m : BTreeMap K V) (l : List (K × V)) (k : K) :
    (insertAll m l)[k]? = (insertAll ({} : BTreeMap K V) l)[k]?.or m[k]? := by
  induction l generalizing m with
  | nil => simp [insertAll]
  | cons pair l ih =>
      have hm : (insertAll m (pair :: l))[k]? = (insertAll (m.insert pair.1 pair.2) l)[k]? := rfl
      have hnil : (insertAll ({} : BTreeMap K V) (pair :: l))[k]? =
          (insertAll (({} : BTreeMap K V).insert pair.1 pair.2) l)[k]? := rfl
      rw [hm, hnil, ih, ih (({} : BTreeMap K V).insert pair.1 pair.2), getElem?_insert_eq,
        getElem?_insert_eq, Option.or_assoc]
      by_cases hk : pair.1 = k
      · rw [if_pos hk, if_pos hk]
        rfl
      · rw [if_neg hk, if_neg hk]
        simp

/-- Inserting pairs again changes nothing. -/
theorem insertAll_insertAll_self (m : BTreeMap K V) (l : List (K × V)) :
    insertAll (insertAll m l) l = insertAll m l := by
  apply Std.ExtTreeMap.ext_getElem?
  intro k
  rw [getElem?_insertAll, getElem?_insertAll m, ← Option.or_assoc, Option.or_self]

/-- What is there stays there. -/
theorem isSome_insertAll {m : BTreeMap K V} {k : K} (l : List (K × V))
    (h : m[k]?.isSome) : (insertAll m l)[k]?.isSome := by
  rw [getElem?_insertAll, Option.isSome_or, h, Bool.or_true]

/-- What is inserted is there. -/
theorem isSome_insertAll_of_mem {m : BTreeMap K V} {k : K} {v : V} {l : List (K × V)}
    (h : (k, v) ∈ l) : (insertAll m l)[k]?.isSome := by
  induction l generalizing m with
  | nil => cases h
  | cons pair l ih =>
      rcases List.mem_cons.mp h with hpair | hl
      · apply isSome_insertAll l
        rw [← hpair, getElem?_insert_eq, if_pos rfl]
        rfl
      · exact ih hl

/-- A value in the map was inserted, or was there before. -/
theorem of_getElem?_insertAll {m : BTreeMap K V} {l : List (K × V)} {k : K} {v : V}
    (h : (insertAll m l)[k]? = some v) : (k, v) ∈ l ∨ m[k]? = some v := by
  induction l generalizing m with
  | nil => exact .inr h
  | cons pair l ih =>
      rcases ih h with hl | hm
      · exact .inl (List.mem_cons_of_mem pair hl)
      · rw [getElem?_insert_eq] at hm
        split at hm
        · rename_i hk
          cases hm
          exact .inl (hk ▸ List.mem_cons_self)
        · exact .inr hm

/-- The values are those of the keys. -/
theorem mem_values_iff {m : BTreeMap K V} {v : V} : v ∈ m.values ↔ ∃ k : K, m[k]? = some v := by
  have hvalues : m.values = m.toList.map Prod.snd := by
    obtain ⟨⟨q⟩⟩ := m
    induction q using Quotient.inductionOn with
    | h t =>
        change t.inner.values = (Std.DTreeMap.Internal.Impl.Const.toList t.inner).map Prod.snd
        rw [Std.DTreeMap.Internal.Impl.values_eq_map_snd,
          Std.DTreeMap.Internal.Impl.Const.toList_eq_toListModel_map, List.map_map]
        rfl
  rw [hvalues, List.mem_map]
  constructor
  · rintro ⟨⟨k, v⟩, hmem, rfl⟩
    exact ⟨k, Std.ExtTreeMap.mem_toList_iff_getElem?_eq_some.mp hmem⟩
  · rintro ⟨k, hk⟩
    exact ⟨(k, v), Std.ExtTreeMap.mem_toList_iff_getElem?_eq_some.mpr hk, rfl⟩

end BTreeMap

section Generic

variable [BitcoinTypes]

/-! ## The sighash types of new signatures -/

section

variable [SignatureTypes] [Secp]

/-- A signature has the sighash type that it was made with. -/
structure SighashTypeLaws : Prop where
  ecdsa : ∀ raw ty, ecdsaSighashType (Secp.ecdsa raw ty) = ty
  taproot : ∀ raw ty, taprootSighashType (Secp.taproot raw ty) = ty

/-- Every signature has the sighash type. -/
def TypedSigs.Of (self : TypedSigs) (sighashTy : PsbtSighashType) : Prop :=
  self.Every (fun ty => .ofEcdsa ty = sighashTy) (fun ty => .ofTaproot ty = sighashTy)

omit [SignatureTypes] [Secp] [BitcoinTypes] in
theorem ofEcdsa_injective : Function.Injective PsbtSighashType.ofEcdsa := by
  intro ty ty' h
  have hty := PsbtSighashType.ecdsaHashTy_eq_ok.mpr h
  rw [PsbtSighashType.ecdsaHashTy_ofEcdsa] at hty
  exact Except.ok.inj hty

omit [SignatureTypes] [Secp] [BitcoinTypes] in
theorem ofTaproot_injective : Function.Injective PsbtSighashType.ofTaproot := by
  intro ty ty' h
  have hty := PsbtSighashType.taprootHashTy_eq_ok.mpr h
  rw [PsbtSighashType.taprootHashTy_ofTaproot] at hty
  exact Except.ok.inj hty

omit [Secp] in
/-- Signatures of one sighash type have one type of their algorithm. -/
theorem TypedSigs.Of.sharesSighashType {self : TypedSigs} {sighashTy : PsbtSighashType}
    (h : self.Of sighashTy) : self.SharesSighashType := by
  cases self with
  | ecdsa signatures =>
      cases signatures with
      | nil => exact ⟨.all, by simp⟩
      | cons first rest =>
          refine ⟨ecdsaSighashType first.2, fun entry hentry => ofEcdsa_injective ?_⟩
          exact (h entry hentry).trans (h first List.mem_cons_self).symm
  | taproot signatures =>
      cases signatures with
      | nil => exact ⟨.default, by simp⟩
      | cons first rest =>
          refine ⟨taprootSighashType first.2, fun entry hentry => ofTaproot_injective ?_⟩
          exact (h entry hentry).trans (h first List.mem_cons_self).symm

namespace SigningSession

variable [SighashEngine] {self : SigningSession} {s : SignableInput} {i : Input}
  {allPrevouts : List TxOut} {k : GetKey}

omit [BitcoinTypes] [SignatureTypes] [Secp] [SighashEngine] in
/-- What is expected of a call is its value. -/
theorem eq_ok_of_expect {ε ε' α : Type} {r : Except ε α} {a : α}
    (h : (Psbt.expect r.toOption : Result ε' α) = .ok a) : r = .ok a := by
  cases r with
  | ok b => exact congrArg Except.ok (Except.ok.inj h)
  | error e => cases h

omit [SignatureTypes] [Secp] in
/-- The sighash type of a taproot sighash is that of the signable input. -/
theorem ofTaproot_of_taprootSighash {leafHash : Option TapLeafHash} {msg : Message}
    {ty : TapSighashType} (h : self.taprootSighash s allPrevouts leafHash = .ok (msg, ty)) :
    .ofTaproot ty = s.sighashTy := by
  obtain ⟨tapTy, hty, h⟩ := Result.bind_eq_ok.mp h
  have hsame : tapTy = ty := by
    dsimp only at h
    split at h
    all_goals
      obtain ⟨sighash, -, h⟩ := Result.bind_eq_ok.mp h
      exact (Prod.mk.inj (Except.ok.inj h)).2
  subst hsame
  exact (PsbtSighashType.taprootHashTy_eq_ok.mp (eq_ok_of_expect hty)).symm

omit [SignatureTypes] [Secp] in
/-- So for ECDSA. -/
theorem ofEcdsa_of_ecdsaSighash {msg : Message} {ty : EcdsaSighashType}
    (h : self.ecdsaSighash s = .ok (msg, ty)) : .ofEcdsa ty = s.sighashTy := by
  obtain ⟨ecdsaTy, hty, h⟩ := Result.bind_eq_ok.mp h
  have hsame : ecdsaTy = ty := by
    dsimp only at h
    split at h
    all_goals
      obtain ⟨sighash, -, h⟩ := Result.bind_eq_ok.mp h
      exact (Prod.mk.inj (Except.ok.inj h)).2
  subst hsame
  exact (PsbtSighashType.ecdsaHashTy_eq_ok.mp (eq_ok_of_expect hty)).symm

/-- The taproot signature of a label is made with the key that the provider holds. -/
def TapMade (self : SigningSession) (s : SignableInput) (i : Input) (allPrevouts : List TxOut)
    (k : GetKey) (pair : TapKeyMaterial × TaprootSignature) : Prop :=
  match pair.1 with
  | .keyPath xonly => i.tapInternalKey = some xonly ∧
      ∃ leafHashes keySource sk msg ty,
        i.tapKeyOrigins[xonly]? = some (leafHashes, keySource) ∧
        k.keyFor keySource (.xOnlyPubkey xonly) = some sk ∧
        self.taprootSighash s allPrevouts none = .ok (msg, ty) ∧
        pair.2 = Secp.taproot (Secp.signSchnorr msg
          (Secp.tapTweak (Secp.fromSecretKey (Secp.inner sk)) i.tapMerkleRoot)) ty
  | .scriptPath (xonly, lh) =>
      ∃ leafHashes keySource sk msg ty,
        i.tapKeyOrigins[xonly]? = some (leafHashes, keySource) ∧
        k.keyFor keySource (.xOnlyPubkey xonly) = some sk ∧
        self.taprootSighash s allPrevouts (some lh) = .ok (msg, ty) ∧
        pair.2 = Secp.taproot (Secp.signSchnorr msg (Secp.fromSecretKey (Secp.inner sk))) ty

omit [SignatureTypes] in
/-- The signatures of a round. -/
theorem tapMade_of_taprootRound {entry : XOnlyPublicKey × TapKeyOrigin}
    (hentry : entry ∈ i.tapKeyOrigins.toList) {made : List (TapKeyMaterial × TaprootSignature)}
    (h : self.taprootRound s i allPrevouts k entry = .ok made) :
    ∀ pair ∈ made, self.TapMade s i allPrevouts k pair := by
  obtain ⟨xonly, leafHashes, keySource⟩ := entry
  have horigin := Std.ExtTreeMap.mem_toList_iff_getElem?_eq_some.mp hentry
  unfold taprootRound at h
  dsimp only at h
  split at h
  · rename_i sk hkey
    obtain ⟨keyPath, hkeyPath, h⟩ := Result.bind_eq_ok.mp h
    obtain ⟨scriptPath, hscriptPath, h⟩ := Result.bind_eq_ok.mp h
    cases h
    intro pair hpair
    rcases List.mem_append.mp hpair with hpair | hpair
    · unfold keyPathSigs at hkeyPath
      split at hkeyPath
      · rename_i internalKey hinternal
        split at hkeyPath
        · rename_i hdue
          obtain ⟨⟨msg, ty⟩, hsighash, hkeyPath⟩ := Result.bind_eq_ok.mp hkeyPath
          cases hkeyPath
          rw [List.mem_singleton.mp hpair]
          obtain ⟨rfl, -, -⟩ := hdue
          exact ⟨hinternal, leafHashes, keySource, sk, msg, ty, horigin, hkey, hsighash, rfl⟩
        · cases hkeyPath
          cases hpair
      · cases hkeyPath
        cases hpair
    · unfold scriptPathSigs at hscriptPath
      rw [horigin] at hscriptPath
      obtain ⟨lh, -, hmade⟩ :=
        Result.exists_of_mem_right (Result.mapM_eq_ok.mp hscriptPath) hpair
      obtain ⟨⟨msg, ty⟩, hsighash, hmade⟩ := Result.bind_eq_ok.mp hmade
      cases hmade
      exact ⟨leafHashes, keySource, sk, msg, ty, horigin, hkey, hsighash, rfl⟩
  · cases h
    exact fun _ hpair => absurd hpair List.not_mem_nil

/-- Such a signature is of the input's sighash type. -/
theorem TapMade.sighashType_eq (hlaws : SighashTypeLaws)
    {pair : TapKeyMaterial × TaprootSignature} (h : self.TapMade s i allPrevouts k pair) :
    .ofTaproot (taprootSighashType pair.2) = s.sighashTy := by
  obtain ⟨material, sig⟩ := pair
  cases material with
  | keyPath xonly =>
      obtain ⟨-, leafHashes, keySource, sk, msg, ty, -, -, hsighash, rfl⟩ := h
      rw [hlaws.taproot]
      exact ofTaproot_of_taprootSighash hsighash
  | scriptPath keyMaterial =>
      obtain ⟨xonly, lh⟩ := keyMaterial
      obtain ⟨leafHashes, keySource, sk, msg, ty, -, -, hsighash, rfl⟩ := h
      rw [hlaws.taproot]
      exact ofTaproot_of_taprootSighash hsighash

/-- The signatures over an input are of its sighash type. -/
theorem of_inputSigs (hlaws : SighashTypeLaws) {entry : InputSigs}
    (h : self.inputSigs s allPrevouts k = .ok entry) : entry.signatures.Of s.sighashTy := by
  unfold inputSigs at h
  split at h
  · obtain ⟨i, -, h⟩ := Result.bind_eq_ok.mp h
    obtain ⟨groups, hgroups, h⟩ := Result.bind_eq_ok.mp h
    cases h
    intro pair hpair
    obtain ⟨group, hgroup, hpair⟩ := List.mem_flatten.mp hpair
    obtain ⟨origin, horigin, hround⟩ :=
      Result.exists_of_mem_right (Result.mapM_eq_ok.mp hgroups) hgroup
    exact (tapMade_of_taprootRound horigin hround pair hpair).sighashType_eq hlaws
  · obtain ⟨i, -, h⟩ := Result.bind_eq_ok.mp h
    obtain ⟨⟨msg, ty⟩, hsighash, h⟩ := Result.bind_eq_ok.mp h
    cases h
    intro pair hpair
    obtain ⟨origin, -, hmade⟩ := List.mem_filterMap.mp hpair
    obtain ⟨sk, -, rfl⟩ := Option.map_eq_some_iff.mp hmade
    rw [hlaws.ecdsa]
    exact ofEcdsa_of_ecdsaSighash hsighash

end SigningSession

end

/-! ## What is due after signing -/

namespace SigningSession

section

variable [Secp] {i j : Input} {k : GetKey} {xonly : XOnlyPublicKey}
  {leafHashes : List TapLeafHash} {keySource : KeySource}
  {group pairs : List (TapKeyMaterial × TaprootSignature)}
  {ecdsa : List (PublicKey × EcdsaSignature)}

/-- After a round was signed nothing of it is due. -/
theorem RoundMade.not_due (hround : RoundMade i k (xonly, leafHashes, keySource) group)
    (hkey : (k.keyFor keySource (.xOnlyPubkey xonly)).isSome)
    (hsub : ∀ pair ∈ group, pair ∈ pairs) (hj : Input.UpdatedBy ecdsa pairs i j) :
    ¬j.KeyPathDue xonly leafHashes ∧ unsignedLeaves j xonly leafHashes = [] := by
  cases hround with
  | skipped hnone =>
      rw [hnone] at hkey
      cases hkey
  | signed hsk hkeyPath hscriptPath =>
      rename_i sk keyPath scriptPath
      constructor
      · rintro ⟨hinternal, hleaves, hnone⟩
        rw [hj.tapKeySig, Option.or_eq_none_iff, List.getLast?_eq_none_iff] at hnone
        rw [hj.frame] at hinternal
        rcases hkeyPath with ⟨-, sig, -, rfl⟩ | ⟨hnot, -⟩
        · have hmem : sig ∈ pairs.filterMap keyPathSig :=
            List.mem_filterMap.mpr ⟨(.keyPath xonly, sig), hsub _ (by simp), rfl⟩
          rw [hnone.1] at hmem
          cases hmem
        · exact hnot ⟨hinternal, hleaves, hnone.2⟩
      · apply List.filter_eq_nil_iff.mpr
        intro lh hlh
        have hsome : j.tapScriptSigs[(xonly, lh)]?.isSome := by
          rw [hj.tapScriptSigs]
          by_cases hold : i.tapScriptSigs[(xonly, lh)]?.isSome
          · exact BTreeMap.isSome_insertAll _ hold
          · have hdue : lh ∈ unsignedLeaves i xonly leafHashes := by
              refine List.mem_filter.mpr ⟨hlh, ?_⟩
              rw [Std.ExtTreeMap.contains_eq_isSome_getElem?, Bool.eq_false_iff.mpr hold]
              rfl
            obtain ⟨pair, hpair, hlabel, -⟩ := Result.exists_of_mem_left hscriptPath hdue
            apply BTreeMap.isSome_insertAll_of_mem (v := pair.2)
            refine List.mem_filterMap.mpr
              ⟨pair, hsub pair (List.mem_append_right keyPath hpair), ?_⟩
            unfold scriptPathPair
            rw [hlabel]
        rw [Std.ExtTreeMap.contains_eq_isSome_getElem?, hsome]
        simp

variable [SighashEngine] {self : SigningSession} {s : SignableInput}

/-- A round of which nothing is due signs nothing. -/
theorem taprootRound_eq_nil (allPrevouts : List TxOut)
    (horigin : j.tapKeyOrigins[xonly]? = some (leafHashes, keySource))
    (hnot : (k.keyFor keySource (.xOnlyPubkey xonly)).isSome →
      ¬j.KeyPathDue xonly leafHashes ∧ unsignedLeaves j xonly leafHashes = []) :
    self.taprootRound s j allPrevouts k (xonly, leafHashes, keySource) = .ok [] := by
  unfold taprootRound
  dsimp only
  cases hkey : k.keyFor keySource (.xOnlyPubkey xonly) with
  | none => rfl
  | some sk =>
      obtain ⟨hpath, hleaves⟩ := hnot (by rw [hkey]; rfl)
      have hkeyPath : self.keyPathSigs s j allPrevouts xonly leafHashes sk = .ok [] := by
        unfold keyPathSigs
        cases hinternal : j.tapInternalKey with
        | none => rfl
        | some internalKey =>
            unfold Input.KeyPathDue at hpath
            rw [hinternal, Option.some_inj] at hpath
            exact if_neg hpath
      have hscriptPath : self.scriptPathSigs s j allPrevouts xonly sk = .ok [] := by
        unfold scriptPathSigs
        rw [horigin]
        dsimp only
        rw [hleaves]
        rfl
      dsimp only
      rw [hkeyPath, hscriptPath]
      rfl

end

end SigningSession

/-! ## Signing an input again -/

/-- The signatures that are made again. -/
def TypedSigs.again : TypedSigs → TypedSigs
  | .ecdsa signatures => .ecdsa signatures
  | .taproot _ => .taproot []

/-- The entry of an input that is signed again. -/
def InputSigs.again (self : InputSigs) : InputSigs :=
  { self with signatures := self.signatures.again }

namespace SigningSession

variable [SighashEngine] [Secp] {self other : SigningSession} {s : SignableInput}
  {i j : Input} {k : GetKey} {entry : InputSigs} {allPrevouts : List TxOut}

/-- Signing an input again makes its ECDSA signatures again, and no taproot signatures. -/
theorem inputSigs_again (hcache : other.cache = self.cache)
    (hi : self.psbt.checkedInput s.index = .ok i)
    (hj : other.psbt.checkedInput s.index = .ok j)
    (hij : Input.UpdatedBy entry.signatures.ecdsaPairs entry.signatures.taprootPairs i j)
    (h : self.inputSigs s allPrevouts k = .ok entry) (allPrevouts' : List TxOut) :
    other.inputSigs s allPrevouts' k = .ok entry.again := by
  have horigins : j.tapKeyOrigins = i.tapKeyOrigins := by rw [hij.frame]
  have hderivations : j.bip32Derivations = i.bip32Derivations := by rw [hij.frame]
  unfold inputSigs at h ⊢
  cases htype : s.outputType with
  | tr =>
      rw [htype] at h
      dsimp only at h ⊢
      unfold taprootSignatures at h ⊢
      rw [hi] at h
      rw [hj]
      dsimp only [Except.toOption, Psbt.expect, Result.ok_bind] at h ⊢
      obtain ⟨groups, hgroups, h⟩ := Result.bind_eq_ok.mp h
      cases h
      rw [horigins]
      have hrounds := Result.mapM_eq_ok.mp hgroups
      have hnil : i.tapKeyOrigins.toList.mapM (other.taprootRound s j allPrevouts' k) =
          .ok (i.tapKeyOrigins.toList.map fun _ => []) := by
        apply Result.mapM_eq_ok.mpr
        rw [List.forall₂_map_right_iff, List.forall₂_same]
        rintro ⟨xonly, leafHashes, keySource⟩ hmem
        have horigin := Std.ExtTreeMap.mem_toList_iff_getElem?_eq_some.mp hmem
        obtain ⟨group, hgroup, hround⟩ := Result.exists_of_mem_left hrounds hmem
        apply taprootRound_eq_nil allPrevouts' (horigins ▸ horigin)
        intro hkey
        refine (taprootRound_spec horigin hround).not_due hkey (fun pair hpair => ?_) hij
        exact List.mem_flatten.mpr ⟨group, hgroup, hpair⟩
      rw [hnil]
      simp [InputSigs.again, TypedSigs.again]
  | _ =>
      rw [htype] at h
      dsimp only at h ⊢
      unfold ecdsaSignatures at h ⊢
      rw [hi] at h
      rw [hj, ecdsaSighash_of_cache hcache]
      dsimp only [Except.toOption, Psbt.expect, Result.ok_bind] at h ⊢
      obtain ⟨⟨msg, ty⟩, hsighash, h⟩ := Result.bind_eq_ok.mp h
      cases h
      rw [hsighash, hderivations]
      rfl

end SigningSession

/-! ## Applying the signatures again -/

section

variable {sigs : List InputSigs} {index : Nat}

theorem ecdsaPairs_again (sigs : List InputSigs) (index : Nat) :
    ecdsaPairs (sigs.map InputSigs.again) index = ecdsaPairs sigs index := by
  unfold ecdsaPairs
  rw [List.flatMap_map]
  apply List.flatMap_congr
  intro entry _
  cases hsigs : entry.signatures <;>
    simp [InputSigs.again, TypedSigs.again, TypedSigs.ecdsaPairs, hsigs]

theorem taprootPairs_again (sigs : List InputSigs) (index : Nat) :
    taprootPairs (sigs.map InputSigs.again) index = [] := by
  unfold taprootPairs
  rw [List.flatMap_map, List.flatMap_eq_nil_iff]
  intro entry _
  cases hsigs : entry.signatures <;>
    simp [InputSigs.again, TypedSigs.again, TypedSigs.taprootPairs, hsigs]

/-- Signatures written again change nothing. -/
theorem Input.insertAllSigs_again (i : Input) (sigs : List InputSigs) (index : Nat) :
    (i.insertAllSigs sigs index).insertAllSigs (sigs.map InputSigs.again) index =
      i.insertAllSigs sigs index := by
  have hfirst := i.updatedBy_insertAllSigs sigs index
  have hagain := (i.insertAllSigs sigs index).updatedBy_insertAllSigs
    (sigs.map InputSigs.again) index
  rw [ecdsaPairs_again, taprootPairs_again] at hagain
  apply hagain.frame.ext (.refl _)
  · rw [hagain.partialSigs, hfirst.partialSigs, BTreeMap.insertAll_insertAll_self]
  · rw [hagain.tapKeySig]
    rfl
  · rw [hagain.tapScriptSigs]
    rfl

variable [SignatureTypes]

/-- The flags already reflect signatures that are made again. -/
theorem restrictAll_again (h : ∀ entry ∈ sigs, entry.signatures.SharesSighashType)
    (f : TxModifiableFlags) :
    restrictAll (sigs.map InputSigs.again) (restrictAll sigs f) = restrictAll sigs f := by
  have hshared : ∀ entry ∈ sigs.map InputSigs.again, entry.signatures.SharesSighashType := by
    rw [List.forall_mem_map]
    intro entry hentry
    have hentry := h entry hentry
    change entry.signatures.again.SharesSighashType
    cases hsigs : entry.signatures with
    | ecdsa signatures =>
        rw [hsigs] at hentry
        exact hentry
    | taproot signatures => exact ⟨.default, by simp⟩
  -- what holds of all signatures holds of those that are made again
  have hevery : ∀ {pe : EcdsaSighashType → Prop} {pt : TapSighashType → Prop},
      (∀ entry ∈ sigs, entry.signatures.Every pe pt) →
        ∀ entry ∈ sigs.map InputSigs.again, entry.signatures.Every pe pt := by
    intro pe pt hall
    rw [List.forall_mem_map]
    intro entry hentry
    have hentry := hall entry hentry
    change entry.signatures.again.Every pe pt
    cases hsigs : entry.signatures with
    | ecdsa signatures =>
        rw [hsigs] at hentry
        exact hentry
    | taproot signatures => exact fun _ hpair => absurd hpair List.not_mem_nil
  have hfirst := flagsReflect_restrictAll h f
  have hagain := flagsReflect_restrictAll hshared (restrictAll sigs f)
  apply TxModifiableFlags.ext_flags
  · rw [Bool.eq_iff_iff, hagain.inputs, hfirst.inputs]
    exact ⟨fun hg => hg.1, fun hg => ⟨hg, hevery hg.2⟩⟩
  · rw [Bool.eq_iff_iff, hagain.outputs, hfirst.outputs]
    exact ⟨fun hg => hg.1, fun hg => ⟨hg, hevery hg.2⟩⟩
  · rw [Bool.eq_iff_iff, hagain.single, hfirst.single]
    constructor
    · rintro (hg | ⟨entry, hentry, hsingle⟩)
      · exact hg
      · obtain ⟨entry, hmem, rfl⟩ := List.mem_map.mp hentry
        cases hsigs : entry.signatures with
        | ecdsa signatures =>
            have hsingle' : entry.signatures.IsSingle := by
              simpa [InputSigs.again, TypedSigs.again, hsigs] using hsingle
            exact .inr ⟨entry, hmem, hsingle'⟩
        | taproot signatures =>
            have hempty := hsingle.1
            simp [InputSigs.again, TypedSigs.again, hsigs, TypedSigs.isEmpty, TypedSigs.len]
              at hempty
    · exact .inl
  · exact hagain.others

/-- A PSBT that was signed is not changed by the signatures that are made again. -/
theorem Signer.applied_again (h : ∀ entry ∈ sigs, entry.signatures.SharesSighashType)
    (p : Psbt) : applied (applied p sigs) (sigs.map InputSigs.again) = applied p sigs := by
  have hinputs : (applied (applied p sigs) (sigs.map InputSigs.again)).inputs =
      (applied p sigs).inputs := by
    apply List.ext_getElem?
    intro index
    rw [getElem?_applied, getElem?_applied, Option.map_map]
    simp only [Function.comp_def, Input.insertAllSigs_again]
  change ({ applied p sigs with
    global := { (applied p sigs).global with
      txModifiableFlags := restrictAll (sigs.map InputSigs.again)
        (restrictAll sigs p.global.txModifiableFlags) }
    inputs := (applied (applied p sigs) (sigs.map InputSigs.again)).inputs } : Psbt) = _
  rw [hinputs, restrictAll_again h]
  rfl

end

/-! ## Signing a PSBT again -/

section

variable {sigs : List InputSigs} {entry : InputSigs}

/-- One entry alone has its index. -/
theorem flatMap_index {γ : Type} {f : InputSigs → List γ}
    (hnodup : (sigs.map InputSigs.index).Nodup) (hentry : entry ∈ sigs) :
    (sigs.flatMap fun e => if e.index = entry.index then f e else []) = f entry := by
  induction sigs with
  | nil => cases hentry
  | cons e sigs ih =>
      rw [List.map_cons, List.nodup_cons] at hnodup
      rw [List.flatMap_cons]
      rcases List.mem_cons.mp hentry with rfl | hmem
      · have hnil : (sigs.flatMap fun e => if e.index = entry.index then f e else []) = [] := by
          rw [List.flatMap_eq_nil_iff]
          intro e he
          have hne : e.index ≠ entry.index := fun heq =>
            hnodup.1 (heq ▸ List.mem_map_of_mem he)
          rw [if_neg hne]
        rw [if_pos rfl, hnil, List.append_nil]
      · have hne : e.index ≠ entry.index := fun heq =>
          hnodup.1 (heq ▸ List.mem_map_of_mem hmem)
        rw [if_neg hne, List.nil_append, ih hnodup.2 hmem]

/-- An input after entries of which one has its index. -/
theorem updatedBy_of_mem (hnodup : (sigs.map InputSigs.index).Nodup) (hentry : entry ∈ sigs)
    (i : Input) :
    Input.UpdatedBy entry.signatures.ecdsaPairs entry.signatures.taprootPairs i
      (i.insertAllSigs sigs entry.index) := by
  have h := i.updatedBy_insertAllSigs sigs entry.index
  unfold ecdsaPairs taprootPairs at h
  rw [flatMap_index hnodup hentry, flatMap_index hnodup hentry] at h
  exact h

variable [SignatureTypes]

/-- New signatures of the sighash type do not mismatch. -/
theorem Input.UpdatedBy.hasMismatch {ecdsa : List (PublicKey × EcdsaSignature)}
    {taproot : List (TapKeyMaterial × TaprootSignature)} {i j : Input} {ty : PsbtSighashType}
    (h : UpdatedBy ecdsa taproot i j) (hi : i.hasMismatch ty = false)
    (hecdsa : ∀ pair ∈ ecdsa, .ofEcdsa (ecdsaSighashType pair.2) = ty)
    (htaproot : ∀ pair ∈ taproot, .ofTaproot (taprootSighashType pair.2) = ty) :
    j.hasMismatch ty = false := by
  obtain ⟨hkey, hscript, hecdsaSigs⟩ := hasMismatch_eq_false.mp hi
  refine hasMismatch_eq_false.mpr ⟨fun sig hsig => ?_, fun sig hsig => ?_, fun sig hsig => ?_⟩
  · rw [h.tapKeySig, Option.or_eq_some_iff] at hsig
    rcases hsig with hlast | ⟨-, hold⟩
    · obtain ⟨pair, hpair, hsome⟩ := List.mem_filterMap.mp (List.mem_of_getLast? hlast)
      obtain ⟨material, sig'⟩ := pair
      cases material with
      | keyPath key =>
          cases hsome
          exact htaproot _ hpair
      | scriptPath keyMaterial => cases hsome
    · exact hkey sig hold
  · obtain ⟨key, hget⟩ := BTreeMap.mem_values_iff.mp hsig
    rw [h.tapScriptSigs] at hget
    rcases BTreeMap.of_getElem?_insertAll hget with hmem | hold
    · obtain ⟨pair, hpair, hsome⟩ := List.mem_filterMap.mp hmem
      obtain ⟨material, sig'⟩ := pair
      cases material with
      | keyPath key => cases hsome
      | scriptPath keyMaterial =>
          cases hsome
          exact htaproot _ hpair
    · exact hscript sig (BTreeMap.mem_values_iff.mpr ⟨key, hold⟩)
  · obtain ⟨key, hget⟩ := BTreeMap.mem_values_iff.mp hsig
    rw [h.partialSigs] at hget
    rcases BTreeMap.of_getElem?_insertAll hget with hmem | hold
    · exact hecdsa _ hmem
    · exact hecdsaSigs sig (BTreeMap.mem_values_iff.mpr ⟨key, hold⟩)

end

/-- A signed copy has a signer with the same transaction. -/
theorem Signer.exists_again [SignatureTypes] {signer : Signer} {sigs : List InputSigs} {q : Psbt}
    (h : signer.apply sigs = .ok q) :
    ∃ again : Signer, Signer.new q = .ok again ∧ again.psbt = q ∧ again.cache = signer.cache := by
  have hcache : q.unsignedTx = .ok signer.cache :=
    (Signer.apply_spec h).sameTx.unsignedTx_eq.trans signer.unsignedTx_eq
  exact ⟨{ psbt := q, cache := signer.cache, unsignedTx_eq := hcache },
    Signer.new_eq_ok.mpr rfl, rfl, rfl⟩

namespace Signer

variable [TxidHash] [ScriptHashes] [SignatureTypes] [SighashEngine] [Secp]

section

variable {signer again : Signer} {check : Psbt → Nat → Result SignError SignableInput}
  {keys : GetKey} {sigs : List InputSigs} {q : Psbt}

omit [ScriptHashes] in
/-- Every entry is for a checked input, and of its sighash type. -/
theorem signAllWith_spec (hlaws : SighashTypeLaws) (hcheck : AllSignableInputs.Strict check)
    (h : signer.session.signAllWith check keys = .ok sigs) {entry : InputSigs}
    (hentry : entry ∈ sigs) :
    ∃ s, SignableInput.checkData signer.psbt entry.index = .ok s ∧
      entry.signatures.Of s.sighashTy := by
  obtain ⟨inputs, hinputs, hentries⟩ := (SigningSession.signAllWith_eq_ok hcheck).mp h
  obtain ⟨s, hs, hsigs⟩ := Result.exists_of_mem_right hentries hentry
  obtain ⟨index, -, hpass⟩ := Result.exists_of_mem_right hinputs hs
  obtain ⟨i, hchecked⟩ := SignableInput.checkData_spec (hcheck.checkData _ _ _ hpass)
  refine ⟨s, ?_, SigningSession.of_inputSigs hlaws hsigs⟩
  rw [SigningSession.index_of_inputSigs hsigs, hchecked.index_eq]
  exact hcheck.checkData _ _ _ hpass

omit [ScriptHashes] in
/-- Signing all inputs again makes the signatures that are made again. -/
theorem signAllWith_again (hcheck : AllSignableInputs.Strict check)
    (h : signer.session.signAllWith check keys = .ok sigs)
    (happly : signer.apply sigs = .ok again.psbt) (hcache : again.cache = signer.cache)
    (hpass : ∀ index s, check signer.psbt index = .ok s → check again.psbt index = .ok s) :
    again.session.signAllWith check keys = .ok (sigs.map InputSigs.again) := by
  have hsame := Signer.apply_spec happly
  have happlied := (Signer.apply_eq_ok.mp happly).2
  have hcount : again.session.psbt.global.inputCount = signer.session.psbt.global.inputCount := by
    change again.psbt.global.inputCount = signer.psbt.global.inputCount
    rw [hsame.global]
  have hnodup : (sigs.map InputSigs.index).Nodup := by
    rw [SigningSession.map_index_of_signAllWith hcheck h]
    exact List.nodup_range
  obtain ⟨inputs, hinputs, hentries⟩ := (SigningSession.signAllWith_eq_ok hcheck).mp h
  refine (SigningSession.signAllWith_eq_ok hcheck).mpr ⟨inputs, ?_, ?_⟩
  · rw [hcount]
    exact hinputs.imp fun index s => hpass index s
  · rw [List.forall₂_map_right_iff, List.forall₂_iff_get]
    refine ⟨hentries.length_eq, fun n hn hn' => ?_⟩
    have hsigs := hentries.get hn hn'
    obtain ⟨index, -, hs⟩ := Result.exists_of_mem_right hinputs (List.get_mem inputs ⟨n, hn⟩)
    obtain ⟨i, hchecked⟩ := SignableInput.checkData_spec (hcheck.checkData _ _ _ hs)
    have heq := hchecked.index_eq
    subst heq
    obtain ⟨j, -, hj⟩ := hsame.checkedInput hchecked.checkedInput
    have hget : signer.psbt.inputs[(inputs.get ⟨n, hn⟩).index]? = some i :=
      (Psbt.checkedInput_eq_ok.mp hchecked.checkedInput).2
    have hget' := (Psbt.checkedInput_eq_ok.mp hj).2
    rw [happlied, getElem?_applied, hget] at hget'
    have hsigned : i.insertAllSigs sigs (inputs.get ⟨n, hn⟩).index = j := Option.some_inj.mp hget'
    have hupdated := updatedBy_of_mem hnodup (List.get_mem sigs ⟨n, hn'⟩) i
    rw [SigningSession.index_of_inputSigs hsigs, hsigned] at hupdated
    exact SigningSession.inputSigs_again hcache hchecked.checkedInput hj hupdated hsigs _

omit [SighashEngine] [Secp] in
/-- What passes the strict checks passes them with signatures of its sighash type. -/
theorem verify_of_apply (happly : signer.apply sigs = .ok q)
    (hof : ∀ entry ∈ sigs, ∃ s, SignableInput.checkData signer.psbt entry.index = .ok s ∧
      entry.signatures.Of s.sighashTy) {index : Nat} {s : SignableInput}
    (hs : SignableInput.verify signer.psbt index = .ok s) :
    SignableInput.verify q index = .ok s := by
  refine SignableInput.verify_of_sameButSigs (Signer.apply_spec happly) hs fun j hj => ?_
  obtain ⟨hdata, i, -, hi, -, -, -, -, hmismatch⟩ := SignableInput.verify_eq_ok.mp hs
  rw [(Signer.apply_eq_ok.mp happly).2, getElem?_applied,
    (Psbt.checkedInput_eq_ok.mp hi).2] at hj
  have hj := Option.some_inj.mp hj
  have hof' : ∀ entry ∈ sigs, entry.index = index → entry.signatures.Of s.sighashTy := by
    rintro entry hentry rfl
    obtain ⟨s', hs', hof⟩ := hof entry hentry
    rw [hdata] at hs'
    cases hs'
    exact hof
  rw [← hj]
  apply (i.updatedBy_insertAllSigs sigs index).hasMismatch hmismatch
  · intro pair hpair
    obtain ⟨entry, hentry, hpair⟩ := List.mem_flatMap.mp hpair
    split at hpair
    · rename_i hindex
      have hof := hof' entry hentry hindex
      cases hsigs : entry.signatures with
      | ecdsa signatures =>
          rw [hsigs] at hof hpair
          exact hof pair hpair
      | taproot signatures =>
          rw [hsigs] at hpair
          cases hpair
    · cases hpair
  · intro pair hpair
    obtain ⟨entry, hentry, hpair⟩ := List.mem_flatMap.mp hpair
    split at hpair
    · rename_i hindex
      have hof := hof' entry hentry hindex
      cases hsigs : entry.signatures with
      | ecdsa signatures =>
          rw [hsigs] at hpair
          cases hpair
      | taproot signatures =>
          rw [hsigs] at hof hpair
          exact hof pair hpair
    · cases hpair

omit [ScriptHashes] in
/-- Applying the signatures that are made again changes nothing. -/
theorem apply_again (hlaws : SighashTypeLaws) (hcheck : AllSignableInputs.Strict check)
    (h : signer.session.signAllWith check keys = .ok sigs)
    (happly : signer.apply sigs = .ok again.psbt) :
    again.apply (sigs.map InputSigs.again) = .ok again.psbt := by
  obtain ⟨hbounds, happlied⟩ := Signer.apply_eq_ok.mp happly
  refine Signer.apply_eq_ok.mpr ⟨?_, ?_⟩
  · rw [List.forall_mem_map, happlied]
    intro entry hentry
    exact inBounds_applied.mpr (hbounds entry hentry)
  · rw [happlied, applied_again]
    intro entry hentry
    obtain ⟨s, -, hof⟩ := signAllWith_spec hlaws hcheck h hentry
    exact hof.sharesSighashType

end

/-- A signer with the same keys that signs all inputs again makes no taproot signature and
the same ECDSA signatures, and applying them changes nothing.  Inputs that passed the strict
checks pass them again. -/
theorem signAll_again (hlaws : SighashTypeLaws) {signer : Signer} {keys : GetKey}
    {sigs : List InputSigs} {q : Psbt}
    (hsign : signer.session.signAllUnchecked keys = .ok sigs)
    (happly : signer.apply sigs = .ok q) :
    ∃ again : Signer, Signer.new q = .ok again ∧
      again.session.signAllUnchecked keys = .ok (sigs.map InputSigs.again) ∧
      again.apply (sigs.map InputSigs.again) = .ok q ∧
      (signer.session.signAll keys = .ok sigs →
        again.session.signAll keys = .ok (sigs.map InputSigs.again)) := by
  obtain ⟨again, hnew, rfl, hcache⟩ := exists_again happly
  have hcheck := AllSignableInputs.strict_assumeChecked
  refine ⟨again, hnew, ?_, apply_again hlaws hcheck hsign happly, fun hstrict => ?_⟩
  · refine signAllWith_again hcheck hsign happly hcache fun index s hs => ?_
    have hsame := SignableInput.checkData_of_sameButSigs (Signer.apply_spec happly) index
    exact hsame.trans hs
  · exact signAllWith_again AllSignableInputs.strict_verify hstrict happly hcache
      fun index s hs => verify_of_apply happly
        (fun entry hentry => signAllWith_spec hlaws hcheck hsign hentry) hs

end Signer

end Generic

namespace Signer

attribute [local instance] Reference.types Reference.txidHash Reference.scriptHashes
  Reference.signatureTypes Reference.sighashEngine Reference.secp Reference.bip32

open Reference

/-- The reference signatures carry the sighash types that they were made with. -/
theorem sighashTypeLaws_reference : SighashTypeLaws where
  ecdsa raw ty := by
    change ecdsaSighash (ecdsaOf raw ty) = ty
    cases ty <;> simp [ecdsaSighash, ecdsaOf, EcdsaSighashType.toU32] <;> rfl
  taproot raw ty := by
    change taprootSighash (taprootOf raw ty) = ty
    cases ty <;> simp [taprootSighash, taprootOf, raw.length_eq] <;> rfl

/-- A PSBT with a taproot input. -/
def trUnsigned : Psbt :=
  Reference.psbt [trInput 0] [output [0x51]]

/-- The signer of the PSBT. -/
def trSigner : Signer where
  psbt := trUnsigned
  cache := trUnsigned.unsignedTxAt .zero
  unsignedTx_eq := rfl

theorem signAll_again_tr :
    ∃ sigs q, trSigner.session.signAll SigningSession.trKeys = .ok sigs ∧ trSigner.apply sigs = .ok q ∧
      ∃ again : Signer, Signer.new q = .ok again ∧
        again.session.signAll SigningSession.trKeys = .ok (sigs.map InputSigs.again) ∧
        again.apply (sigs.map InputSigs.again) = .ok q := by
  have hsome : ((trSigner.session.signAll SigningSession.trKeys).toOption.bind fun sigs =>
      (trSigner.apply sigs).toOption).isSome := by decide +kernel
  obtain ⟨q, hq⟩ := Option.isSome_iff_exists.mp hsome
  obtain ⟨sigs, hsigs, happly⟩ := Option.bind_eq_some_iff.mp hq
  have hstrict := Result.toOption_eq_some.mp hsigs
  have happly := Result.toOption_eq_some.mp happly
  have hsign := SigningSession.signAllUnchecked_of_signAll hstrict
  obtain ⟨again, hnew, -, hsame, hagain⟩ := signAll_again sighashTypeLaws_reference hsign happly
  exact ⟨sigs, q, hstrict, happly, again, hnew, hagain hstrict, hsame⟩

end Signer

end RustPsbt
