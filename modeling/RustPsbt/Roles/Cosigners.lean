import RustPsbt.Roles.SignAgain

/-!
# Cosigners

Several signers sign all inputs of a PSBT one after another, each with its own keys.  Where
no two of them hold a key of the same taproot origin, each makes the signatures that it would
have made of the original PSBT, and the order of the signers does not matter.

Main results:

- Theorem `Signer.inTurn_iff`: signing in turn is applying what each signer makes of the
  original PSBT.
- Theorem `Signer.cosigners_any_order`: so the order does not matter.
-/

namespace RustPsbt

/-- What was collected is collected alike by a loop whose rounds give the same. -/
theorem Result.forall₂_congr_left {α β : Type} {R S : α → β → Prop} {l : List α} {m : List β}
    (h : ∀ a ∈ l, ∀ b, R a b ↔ S a b) : List.Forall₂ R l m ↔ List.Forall₂ S l m := by
  induction l generalizing m with
  | nil => simp
  | cons a l ih =>
      rw [List.forall_mem_cons] at h
      cases m with
      | nil => simp
      | cons b m => rw [List.forall₂_cons, List.forall₂_cons, h.1, ih h.2]

namespace BTreeMap

variable {K V : Type} [OrdKey K]

/-- Pairs with one value for each key may be inserted in any order. -/
theorem insertAll_perm {m : BTreeMap K V} {l l' : List (K × V)} (hperm : l'.Perm l)
    (h : ∀ k v w, (k, v) ∈ l → (k, w) ∈ l → v = w) : insertAll m l' = insertAll m l := by
  have hmem : ∀ {x : List (K × V)}, x.Perm l → ∀ k v,
      (insertAll ({} : BTreeMap K V) x)[k]? = some v ↔ (k, v) ∈ l := by
    intro x hx k v
    have hagree : PairsAgree ({} : BTreeMap K V) x := fun k v hv =>
      ⟨fun w hw => by simp at hw, fun w hw => h k v w (hx.mem_iff.mp hv) (hx.mem_iff.mp hw)⟩
    rw [getElem?_insertAll_iff hagree, hx.mem_iff]
    simp
  apply Std.ExtTreeMap.ext_getElem?
  intro k
  rw [getElem?_insertAll, getElem?_insertAll m l]
  have hsame : (insertAll ({} : BTreeMap K V) l')[k]? = (insertAll ({} : BTreeMap K V) l)[k]? :=
    Option.ext fun v => by rw [hmem hperm, hmem (.refl l)]
  rw [hsame]

end BTreeMap

section Generic

variable [BitcoinTypes] [Secp]

/-! ## Signatures of a provider -/

/-- What providers made was made by one of them. -/
theorem exists_provider {R : GetKey → List InputSigs → Prop} {ks : List GetKey}
    {groups : List (List InputSigs)} (h : List.Forall₂ R ks groups) {sigs : List InputSigs}
    (hsigs : sigs ∈ groups) : ∃ k ∈ ks, R k sigs := by
  obtain ⟨n, hn, rfl⟩ := List.getElem_of_mem hsigs
  have hk : n < ks.length := h.length_eq ▸ hn
  exact ⟨ks[n], List.getElem_mem hk, h.get hk hn⟩

/-- The provider holds the key of the taproot origin. -/
def Input.Held (i : Input) (k : GetKey) (xonly : XOnlyPublicKey) : Prop :=
  ∃ leafHashes keySource, i.tapKeyOrigins[xonly]? = some (leafHashes, keySource) ∧
    (k.keyFor keySource (.xOnlyPubkey xonly)).isSome

/-- No taproot origin has keys of both providers. -/
def Separate (p : Psbt) (k k' : GetKey) : Prop :=
  ∀ i ∈ p.inputs, ∀ xonly, ¬(i.Held k xonly ∧ i.Held k' xonly)

theorem Separate.symm {p : Psbt} {k k' : GetKey} (h : Separate p k k') : Separate p k' k :=
  fun i hi xonly hboth => h i hi xonly hboth.symm

instance (p : Psbt) : Std.Symm (Separate p) where
  symm _ _ := Separate.symm

/-- Private keys with one public key are one secret key. -/
structure PublicKeyLaw : Prop where
  inner : ∀ sk sk' : PrivateKey, Secp.publicKey sk = Secp.publicKey sk' →
    Secp.inner sk = Secp.inner sk'

namespace SigningSession

variable [SighashEngine] {self : SigningSession} {s : SignableInput} {i : Input}
  {allPrevouts : List TxOut} {k : GetKey}

/-- The key of a label. -/
def keyOf : TapKeyMaterial → XOnlyPublicKey
  | .keyPath xonly => xonly
  | .scriptPath (xonly, _) => xonly

/-- The provider holds the key of the label. -/
theorem TapMade.held {pair : TapKeyMaterial × TaprootSignature}
    (h : self.TapMade s i allPrevouts k pair) : i.Held k (keyOf pair.1) := by
  obtain ⟨material, sig⟩ := pair
  cases material with
  | keyPath xonly =>
      obtain ⟨-, leafHashes, keySource, sk, -, -, horigin, hkey, -⟩ := h
      exact ⟨leafHashes, keySource, horigin, Option.isSome_iff_exists.mpr ⟨sk, hkey⟩⟩
  | scriptPath keyMaterial =>
      obtain ⟨xonly, lh⟩ := keyMaterial
      obtain ⟨leafHashes, keySource, sk, -, -, horigin, hkey, -⟩ := h
      exact ⟨leafHashes, keySource, horigin, Option.isSome_iff_exists.mpr ⟨sk, hkey⟩⟩

/-- A provider makes one signature of a label. -/
theorem TapMade.unique {material : TapKeyMaterial} {sig sig' : TaprootSignature}
    (h : self.TapMade s i allPrevouts k (material, sig))
    (h' : self.TapMade s i allPrevouts k (material, sig')) : sig = sig' := by
  cases material with
  | keyPath xonly =>
      obtain ⟨-, leafHashes, keySource, sk, msg, ty, horigin, hkey, hsighash, hsig⟩ := h
      obtain ⟨-, leafHashes', keySource', sk', msg', ty', horigin', hkey', hsighash', hsig'⟩ := h'
      rw [horigin] at horigin'
      cases horigin'
      rw [hkey] at hkey'
      cases hkey'
      rw [hsighash] at hsighash'
      cases hsighash'
      exact hsig.trans hsig'.symm
  | scriptPath keyMaterial =>
      obtain ⟨xonly, lh⟩ := keyMaterial
      obtain ⟨leafHashes, keySource, sk, msg, ty, horigin, hkey, hsighash, hsig⟩ := h
      obtain ⟨leafHashes', keySource', sk', msg', ty', horigin', hkey', hsighash', hsig'⟩ := h'
      rw [horigin] at horigin'
      cases horigin'
      rw [hkey] at hkey'
      cases hkey'
      rw [hsighash] at hsighash'
      cases hsighash'
      exact hsig.trans hsig'.symm

/-- The taproot signatures over an input. -/
theorem tapMade_of_inputSigs (hi : self.psbt.checkedInput s.index = .ok i) {entry : InputSigs}
    (h : self.inputSigs s allPrevouts k = .ok entry) :
    ∀ pair ∈ entry.signatures.taprootPairs, self.TapMade s i allPrevouts k pair := by
  unfold inputSigs at h
  split at h
  · unfold taprootSignatures at h
    rw [hi] at h
    dsimp only [Except.toOption, Psbt.expect, Result.ok_bind] at h
    obtain ⟨groups, hgroups, h⟩ := Result.bind_eq_ok.mp h
    cases h
    intro pair hpair
    obtain ⟨group, hgroup, hpair⟩ := List.mem_flatten.mp hpair
    obtain ⟨origin, horigin, hround⟩ :=
      Result.exists_of_mem_right (Result.mapM_eq_ok.mp hgroups) hgroup
    exact tapMade_of_taprootRound horigin hround pair hpair
  · obtain ⟨i', -, h⟩ := Result.bind_eq_ok.mp h
    obtain ⟨sighash, -, h⟩ := Result.bind_eq_ok.mp h
    cases h
    exact fun _ hpair => absurd hpair List.not_mem_nil

/-- The ECDSA signatures over an input are of one message. -/
theorem ecdsaMade_of_inputSigs {entry : InputSigs}
    (h : self.inputSigs s allPrevouts k = .ok entry) :
    ∀ pair ∈ entry.signatures.ecdsaPairs, ∃ msg ty sk, self.ecdsaSighash s = .ok (msg, ty) ∧
      pair = (Secp.publicKey sk, Secp.ecdsa (Secp.signEcdsa msg (Secp.inner sk)) ty) := by
  unfold inputSigs at h
  split at h
  · obtain ⟨i', -, h⟩ := Result.bind_eq_ok.mp h
    obtain ⟨groups, -, h⟩ := Result.bind_eq_ok.mp h
    cases h
    exact fun _ hpair => absurd hpair List.not_mem_nil
  · obtain ⟨i', -, h⟩ := Result.bind_eq_ok.mp h
    obtain ⟨⟨msg, ty⟩, hsighash, h⟩ := Result.bind_eq_ok.mp h
    cases h
    intro pair hpair
    obtain ⟨origin, -, hmade⟩ := List.mem_filterMap.mp hpair
    obtain ⟨sk, -, rfl⟩ := Option.map_eq_some_iff.mp hmade
    exact ⟨msg, ty, sk, hsighash, rfl⟩

end SigningSession

/-! ## What other signers leave due -/

section

variable {i : Input} {k : GetKey} {sigs : List InputSigs} {index : Nat}

/-- None of the signatures for the index are of keys that the provider holds. -/
def OthersOnly (i : Input) (k : GetKey) (sigs : List InputSigs) (index : Nat) : Prop :=
  ∀ pair ∈ taprootPairs sigs index, ¬i.Held k (SigningSession.keyOf pair.1) ∧
    ∀ xonly, pair.1 = .keyPath xonly → i.tapInternalKey = some xonly

/-- Signatures of other keys leave the same signatures due. -/
theorem OthersOnly.sameDue (h : OthersOnly i k sigs index) :
    SigningSession.SameDue i (i.insertAllSigs sigs index) k := by
  intro xonly leafHashes keySource horigin hkey
  have hheld : i.Held k xonly := ⟨leafHashes, keySource, horigin, hkey⟩
  obtain ⟨hframe, -, hkeySig, hscript⟩ := i.updatedBy_insertAllSigs sigs index
  have hinternal : (i.insertAllSigs sigs index).tapInternalKey = i.tapInternalKey := by
    rw [hframe]
  constructor
  · unfold Input.KeyPathDue
    rw [hinternal]
    refine and_congr_right fun hsome => and_congr_right fun _ => ?_
    have hnil : (taprootPairs sigs index).filterMap keyPathSig = [] := by
      rw [List.filterMap_eq_nil_iff]
      rintro ⟨material, sig⟩ hpair
      obtain ⟨hnot, hpath⟩ := h _ hpair
      cases material with
      | keyPath xonly' =>
          have hsame : some xonly = some xonly' := hsome.symm.trans (hpath xonly' rfl)
          cases hsame
          exact absurd hheld hnot
      | scriptPath keyMaterial => rfl
    rw [hkeySig, hnil]
    rfl
  · apply List.filter_congr
    intro lh _
    have hsame : (i.insertAllSigs sigs index).tapScriptSigs[(xonly, lh)]? =
        i.tapScriptSigs[(xonly, lh)]? := by
      rw [hscript, BTreeMap.getElem?_insertAll]
      cases hget : (BTreeMap.insertAll ({} : BTreeMap _ _)
          ((taprootPairs sigs index).filterMap scriptPathPair))[(xonly, lh)]? with
      | none => rfl
      | some sig =>
          rcases BTreeMap.of_getElem?_insertAll hget with hmem | hnil
          · obtain ⟨⟨material, sig'⟩, hpair, hsome⟩ := List.mem_filterMap.mp hmem
            obtain ⟨hnot, -⟩ := h _ hpair
            cases material with
            | keyPath xonly' => cases hsome
            | scriptPath keyMaterial =>
                cases hsome
                exact absurd hheld hnot
          · simp at hnil
    rw [Std.ExtTreeMap.contains_eq_isSome_getElem?, Std.ExtTreeMap.contains_eq_isSome_getElem?,
      hsame]

end

/-! ## Signing after others -/

namespace Signer

variable [TxidHash] [SignatureTypes] [SighashEngine]

/-- The prevouts that all inputs are signed with. -/
def allPrevouts (psbt : Psbt) (check : Psbt → Nat → Result SignError SignableInput) :
    List TxOut :=
  (AllSignableInputs.passing psbt check (List.range psbt.global.inputCount)).map
    SignableInput.prevout

section

variable {signer other : Signer} {check : Psbt → Nat → Result SignError SignableInput}
  {k : GetKey} {sigs : List InputSigs} {done : List (List InputSigs)}

omit [SignatureTypes] in
/-- How an entry was made. -/
theorem exists_made (hcheck : AllSignableInputs.Strict check)
    (h : signer.session.signAllWith check k = .ok sigs) {entry : InputSigs}
    (hentry : entry ∈ sigs) :
    ∃ s i, check signer.psbt entry.index = .ok s ∧ s.index = entry.index ∧
      signer.psbt.checkedInput entry.index = .ok i ∧
      signer.session.inputSigs s (allPrevouts signer.psbt check) k = .ok entry := by
  obtain ⟨inputs, hinputs, hentries⟩ := (SigningSession.signAllWith_eq_ok hcheck).mp h
  obtain ⟨s, hs, hsigs⟩ := Result.exists_of_mem_right hentries hentry
  obtain ⟨index, -, hpass⟩ := Result.exists_of_mem_right hinputs hs
  obtain ⟨i, hchecked⟩ := SignableInput.checkData_spec (hcheck.checkData _ _ _ hpass)
  have hindex : s.index = entry.index := (SigningSession.index_of_inputSigs hsigs).symm
  have heq : index = entry.index := hchecked.index_eq.symm.trans hindex
  subst heq
  refine ⟨s, i, hpass, hindex, hchecked.checkedInput, ?_⟩
  unfold allPrevouts
  have hpassing : AllSignableInputs.passing signer.psbt check
      (List.range signer.psbt.global.inputCount) = inputs :=
    AllSignableInputs.passing_eq hinputs
  rw [hpassing]
  exact hsigs

omit [SignatureTypes] in
/-- A taproot signature for an index is made with a key of its provider. -/
theorem tapMade_of_mem (hcheck : AllSignableInputs.Strict check)
    (h : signer.session.signAllWith check k = .ok sigs) {index : Nat} {i : Input}
    (hi : signer.psbt.inputs[index]? = some i) {s : SignableInput}
    (hs : check signer.psbt index = .ok s) {pair : TapKeyMaterial × TaprootSignature}
    (hpair : pair ∈ taprootPairs sigs index) :
    signer.session.TapMade s i (allPrevouts signer.psbt check) k pair := by
  obtain ⟨entry, hentry, hmem⟩ := List.mem_flatMap.mp hpair
  split at hmem
  · rename_i hindex
    subst hindex
    obtain ⟨s', i', hs', hindex, hi', hmade⟩ := exists_made hcheck h hentry
    rw [hs] at hs'
    cases hs'
    have hget := (Psbt.checkedInput_eq_ok.mp hi').2
    rw [hi] at hget
    cases hget
    have hchecked : signer.session.psbt.checkedInput s.index = .ok i := by
      rw [hindex]
      exact hi'
    exact SigningSession.tapMade_of_inputSigs hchecked hmade pair hmem
  · cases hmem

omit [SignatureTypes] in
/-- Separate signers leave the same signatures due. -/
theorem othersOnly_of_separate (hcheck : AllSignableInputs.Strict check)
    (hdone : ∀ sigs ∈ done, ∃ k', signer.session.signAllWith check k' = .ok sigs ∧
      Separate signer.psbt k' k) {index : Nat} {i : Input}
    (hi : signer.psbt.inputs[index]? = some i) {s : SignableInput}
    (hs : check signer.psbt index = .ok s) : OthersOnly i k done.flatten index := by
  intro pair hpair
  obtain ⟨entry, hentry, hmem⟩ := List.mem_flatMap.mp hpair
  obtain ⟨sigs, hsigs, hentry⟩ := List.mem_flatten.mp hentry
  obtain ⟨k', hsign, hseparate⟩ := hdone sigs hsigs
  have hpair : pair ∈ taprootPairs sigs index := List.mem_flatMap.mpr ⟨entry, hentry, hmem⟩
  have hmade := tapMade_of_mem hcheck hsign hi hs hpair
  refine ⟨fun hheld => hseparate i (List.mem_of_getElem? hi) _ ⟨hmade.held, hheld⟩, ?_⟩
  intro xonly hxonly
  obtain ⟨material, sig⟩ := pair
  dsimp only at hxonly
  subst hxonly
  exact hmade.1

/-- The signer makes of the PSBT that others signed what it makes of the original. -/
theorem signAllWith_after (hcheck : AllSignableInputs.Strict check)
    (hdone : ∀ sigs ∈ done, ∃ k', signer.session.signAllWith check k' = .ok sigs ∧
      Separate signer.psbt k' k)
    (hall : ∀ index < signer.psbt.global.inputCount, ∃ s, check signer.psbt index = .ok s)
    (hpsbt : other.psbt = applied signer.psbt done.flatten) (hcache : other.cache = signer.cache)
    (hsame : Psbt.SameButSigs signer.psbt other.psbt)
    (hpass : ∀ index s, check signer.psbt index = .ok s → check other.psbt index = .ok s) :
    other.session.signAllWith check k = .ok sigs ↔
      signer.session.signAllWith check k = .ok sigs := by
  have hcount : other.psbt.global.inputCount = signer.psbt.global.inputCount := by
    rw [hsame.global]
  have hchecks : ∀ index < signer.psbt.global.inputCount, ∀ s,
      check other.psbt index = .ok s ↔ check signer.psbt index = .ok s := by
    intro index hindex s
    obtain ⟨s', hs'⟩ := hall index hindex
    rw [hpass index s' hs', hs']
  have hinputs : ∀ s index, check signer.psbt index = .ok s → ∀ prevouts,
      other.session.inputSigs s prevouts k = signer.session.inputSigs s prevouts k := by
    intro s index hs prevouts
    obtain ⟨i, hchecked⟩ := SignableInput.checkData_spec (hcheck.checkData _ _ _ hs)
    have heq := hchecked.index_eq
    subst heq
    have hget := (Psbt.checkedInput_eq_ok.mp hchecked.checkedInput).2
    obtain ⟨j, hij, hj⟩ := hsame.checkedInput hchecked.checkedInput
    have hget' := (Psbt.checkedInput_eq_ok.mp hj).2
    rw [hpsbt, getElem?_applied, hget] at hget'
    have hsigned : i.insertAllSigs done.flatten s.index = j := Option.some_inj.mp hget'
    have hdue := (othersOnly_of_separate hcheck hdone hget hs).sameDue
    rw [hsigned] at hdue
    exact SigningSession.inputSigs_of_sameDue hcache hchecked.checkedInput hj hij hdue prevouts
  rw [SigningSession.signAllWith_eq_ok hcheck, SigningSession.signAllWith_eq_ok hcheck]
  have hrange : other.session.psbt.global.inputCount = signer.session.psbt.global.inputCount :=
    hcount
  rw [hrange]
  refine exists_congr fun inputs => ?_
  have hforall : List.Forall₂ (fun index s => check other.session.psbt index = .ok s)
      (List.range signer.session.psbt.global.inputCount) inputs ↔
      List.Forall₂ (fun index s => check signer.session.psbt index = .ok s)
        (List.range signer.session.psbt.global.inputCount) inputs :=
    Result.forall₂_congr_left fun index hindex s => hchecks index (List.mem_range.mp hindex) s
  rw [hforall]
  refine and_congr_right fun hforall => Result.forall₂_congr_left fun s hs entry => ?_
  obtain ⟨index, -, hindex⟩ := Result.exists_of_mem_right hforall hs
  rw [hinputs s index hindex]

end

end Signer

/-! ## Entries in any order -/

section

omit [Secp]

/-- Signatures of one place are equal. -/
structure OneEach (p : Psbt) (sigs : List InputSigs) : Prop where
  ecdsa : ∀ index < p.inputs.length, ∀ key v w, (key, v) ∈ ecdsaPairs sigs index →
    (key, w) ∈ ecdsaPairs sigs index → v = w
  keyPath : ∀ index < p.inputs.length, ∀ v ∈ (taprootPairs sigs index).filterMap keyPathSig,
    ∀ w ∈ (taprootPairs sigs index).filterMap keyPathSig, v = w
  scriptPath : ∀ index < p.inputs.length, ∀ key v w,
    (key, v) ∈ (taprootPairs sigs index).filterMap scriptPathPair →
    (key, w) ∈ (taprootPairs sigs index).filterMap scriptPathPair → v = w

variable {p : Psbt} {sigs sigs' : List InputSigs}

/-- Entries that put one signature in each place may come in any order. -/
theorem OneEach.insertAllSigs_perm (h : OneEach p sigs) (hperm : sigs'.Perm sigs) {index : Nat}
    {i : Input} (hi : p.inputs[index]? = some i) :
    i.insertAllSigs sigs' index = i.insertAllSigs sigs index := by
  have hindex : index < p.inputs.length := (List.getElem?_eq_some_iff.mp hi).1
  have hecdsa : (ecdsaPairs sigs' index).Perm (ecdsaPairs sigs index) := hperm.flatMap_right _
  have htaproot : (taprootPairs sigs' index).Perm (taprootPairs sigs index) :=
    hperm.flatMap_right _
  have hl := i.updatedBy_insertAllSigs sigs' index
  have hr := i.updatedBy_insertAllSigs sigs index
  apply hl.frame.ext hr.frame
  · rw [hl.partialSigs, hr.partialSigs]
    apply BTreeMap.insertAll_perm hecdsa
    exact fun key v w => h.ecdsa index hindex key v w
  · have hpath := htaproot.filterMap keyPathSig
    have hmem : ∀ {l : List TaprootSignature},
        l.Perm ((taprootPairs sigs index).filterMap keyPathSig) → ∀ v, l.getLast? = some v ↔
          v ∈ (taprootPairs sigs index).filterMap keyPathSig := by
      intro l hl v
      have hagree : ValuesAgree none l := by
        refine fun v hv => ⟨fun w hw => absurd hw (by simp), fun w hw => ?_⟩
        exact h.keyPath index hindex v (hl.mem_iff.mp hv) w (hl.mem_iff.mp hw)
      have hlast := getLast?_or_eq_some_iff hagree (v := v)
      rw [Option.or_none] at hlast
      rw [hlast, hl.mem_iff]
      simp
    have hsame : ((taprootPairs sigs' index).filterMap keyPathSig).getLast? =
        ((taprootPairs sigs index).filterMap keyPathSig).getLast? :=
      Option.ext fun v => by rw [hmem hpath, hmem (.refl _)]
    rw [hl.tapKeySig, hr.tapKeySig, hsame]
  · rw [hl.tapScriptSigs, hr.tapScriptSigs]
    apply BTreeMap.insertAll_perm (htaproot.filterMap scriptPathPair)
    exact fun key v w => h.scriptPath index hindex key v w

variable [SignatureTypes]

/-- So in a whole PSBT. -/
theorem Signer.applied_perm (h : OneEach p sigs) (hperm : sigs'.Perm sigs)
    (hshared : ∀ entry ∈ sigs, entry.signatures.SharesSighashType) :
    applied p sigs' = applied p sigs := by
  have hinputs : (applied p sigs').inputs = (applied p sigs).inputs := by
    apply List.ext_getElem?
    intro index
    rw [getElem?_applied, getElem?_applied]
    cases hi : p.inputs[index]? with
    | none => rfl
    | some i => rw [Option.map_some, Option.map_some, h.insertAllSigs_perm hperm hi]
  have hshared' : ∀ entry ∈ sigs', entry.signatures.SharesSighashType :=
    fun entry hentry => hshared entry (hperm.mem_iff.mp hentry)
  have hflags : restrictAll sigs' p.global.txModifiableFlags =
      restrictAll sigs p.global.txModifiableFlags :=
    (flagsReflect_restrictAll hshared _).unique hperm (flagsReflect_restrictAll hshared' _)
  change ({ p with
    global := { p.global with txModifiableFlags := restrictAll sigs' p.global.txModifiableFlags }
    inputs := (applied p sigs').inputs } : Psbt) = _
  rw [hinputs, hflags]
  rfl

omit [SignatureTypes] in
/-- Entries applied one list after another. -/
theorem Signer.applied_append [SignatureTypes] (p : Psbt) (sigs sigs' : List InputSigs) :
    applied p (sigs ++ sigs') = applied (applied p sigs) sigs' := by
  induction sigs generalizing p with
  | nil => rw [applied_nil, List.nil_append]
  | cons entry sigs ih => rw [List.cons_append, applied_cons, ih, ← applied_cons]

end

/-! ## Signing in turn -/

namespace Signer

variable [TxidHash] [ScriptHashes] [SignatureTypes] [SighashEngine]

/-- The type of session bodies that sign all inputs. -/
abbrev SignBody : Type 1 :=
  SigningSession → GetKey → Result (BTreeMap Nat SignError) (List InputSigs)

/-- A signer runs the session body with the keys and writes the signatures. -/
def SignsWith (body : SignBody) (p : Psbt) (k : GetKey) (q : Psbt) : Prop :=
  ∃ (signer : Signer) (sigs : List InputSigs), Signer.new p = .ok signer ∧
    body signer.session k = .ok sigs ∧ signer.apply sigs = .ok q

/-- Signers with the keys do so, one after another. -/
inductive InTurn (body : SignBody) : List GetKey → Psbt → Psbt → Prop where
  | nil {p} : InTurn body [] p p
  | cons {k ks p r q} (hsigns : SignsWith body p k r) (hrest : InTurn body ks r q) :
      InTurn body (k :: ks) p q

/-- The session bodies that sign all inputs after a check. -/
def bodyWith (check : Psbt → Nat → Result SignError SignableInput) : SignBody :=
  fun session k => session.signAllWith check k

/-- A check that signatures of the right sighash types do not disturb. -/
structure Stable (check : Psbt → Nat → Result SignError SignableInput) : Prop
    extends AllSignableInputs.Strict check where
  signed : ∀ (signer : Signer) (sigs : List InputSigs) (q : Psbt),
    signer.apply sigs = .ok q →
    (∀ entry ∈ sigs, ∃ s, SignableInput.checkData signer.psbt entry.index = .ok s ∧
      entry.signatures.Of s.sighashTy) →
    ∀ index s, check signer.psbt index = .ok s → check q index = .ok s

omit [Secp] [SighashEngine] in
theorem stable_verify : Stable SignableInput.verify where
  toStrict := AllSignableInputs.strict_verify
  signed _ _ _ happly hof _ _ hs := verify_of_apply happly hof hs

omit [Secp] [ScriptHashes] [SighashEngine] in
theorem stable_assumeChecked : Stable SignableInput.assumeChecked where
  toStrict := AllSignableInputs.strict_assumeChecked
  signed _ _ _ happly _ index _ hs :=
    (SignableInput.checkData_of_sameButSigs (Signer.apply_spec happly) index).trans hs

section

variable {signer : Signer} {check : Psbt → Nat → Result SignError SignableInput}
  {k : GetKey} {sigs : List InputSigs} {done : List (List InputSigs)}

omit [ScriptHashes] in
/-- What signers make of the original PSBT can be applied to it. -/
theorem apply_flatten (hcheck : AllSignableInputs.Strict check)
    (hdone : ∀ sigs ∈ done, ∃ k, signer.session.signAllWith check k = .ok sigs) :
    signer.apply done.flatten = .ok (applied signer.psbt done.flatten) := by
  refine Signer.apply_eq_ok.mpr ⟨fun entry hentry => ?_, rfl⟩
  obtain ⟨sigs, hsigs, hentry⟩ := List.mem_flatten.mp hentry
  obtain ⟨k, hsign⟩ := hdone sigs hsigs
  obtain ⟨s, i, -, -, hi, -⟩ := exists_made hcheck hsign hentry
  obtain ⟨hcount, hget⟩ := Psbt.checkedInput_eq_ok.mp hi
  exact ⟨(List.getElem?_eq_some_iff.mp hget).1, hcount⟩

omit [ScriptHashes] in
/-- The signatures are of the sighash types of their inputs. -/
theorem of_flatten (hlaws : SighashTypeLaws) (hcheck : AllSignableInputs.Strict check)
    (hdone : ∀ sigs ∈ done, ∃ k, signer.session.signAllWith check k = .ok sigs) :
    ∀ entry ∈ done.flatten, ∃ s,
      SignableInput.checkData signer.psbt entry.index = .ok s ∧
        entry.signatures.Of s.sighashTy := by
  intro entry hentry
  obtain ⟨sigs, hsigs, hentry⟩ := List.mem_flatten.mp hentry
  obtain ⟨k, hsign⟩ := hdone sigs hsigs
  exact signAllWith_spec hlaws hcheck hsign hentry

omit [ScriptHashes] in
/-- One more signer, separate from the others. -/
theorem signsWith_after_iff (hlaws : SighashTypeLaws) (hcheck : Stable check)
    (hdone : ∀ sigs ∈ done, ∃ k', signer.session.signAllWith check k' = .ok sigs ∧
      Separate signer.psbt k' k)
    (hall : ∀ index < signer.psbt.global.inputCount, ∃ s, check signer.psbt index = .ok s)
    {r : Psbt} :
    SignsWith (bodyWith check) (applied signer.psbt done.flatten) k r ↔
      ∃ sigs, signer.session.signAllWith check k = .ok sigs ∧
        r = applied signer.psbt (done ++ [sigs]).flatten := by
  have hsome : ∀ sigs ∈ done, ∃ k', signer.session.signAllWith check k' = .ok sigs :=
    fun sigs hsigs => (hdone sigs hsigs).imp fun _ h => h.1
  have happly := apply_flatten hcheck.toStrict hsome
  obtain ⟨other, hnew, hpsbt, hcache⟩ := exists_again happly
  have hsame : Psbt.SameButSigs signer.psbt other.psbt := by
    rw [hpsbt]
    exact Signer.apply_spec happly
  have hafter : ∀ sigs, other.session.signAllWith check k = .ok sigs ↔
      signer.session.signAllWith check k = .ok sigs := fun sigs =>
    signAllWith_after hcheck.toStrict hdone hall hpsbt hcache hsame fun index s hs => by
      rw [hpsbt]
      exact hcheck.signed signer _ _ happly (of_flatten hlaws hcheck.toStrict hsome) index s hs
  have hflatten : ∀ sigs : List InputSigs, applied signer.psbt (done ++ [sigs]).flatten =
      applied other.psbt sigs := by
    intro sigs
    rw [List.flatten_append, List.flatten_singleton, applied_append, hpsbt]
  constructor
  · rintro ⟨signer', sigs, hnew', hsign, happly'⟩
    rw [hnew] at hnew'
    cases hnew'
    exact ⟨sigs, (hafter sigs).mp hsign, (Signer.apply_eq_ok.mp happly').2.trans
      (hflatten sigs).symm⟩
  · rintro ⟨sigs, hsign, rfl⟩
    refine ⟨other, sigs, hnew, (hafter sigs).mpr hsign, ?_⟩
    rw [hflatten]
    have hone : other.apply [sigs].flatten = .ok (applied other.psbt [sigs].flatten) :=
      apply_flatten hcheck.toStrict
        (List.forall_mem_singleton.mpr ⟨k, (hafter sigs).mpr hsign⟩)
    rw [List.flatten_singleton] at hone
    exact hone

omit [ScriptHashes] in
/-- Signing in turn, after others signed, is applying what each makes of the original. -/
theorem inTurn_after_iff (hlaws : SighashTypeLaws) (hcheck : Stable check) {past ks : List GetKey}
    (hdone : ∀ sigs ∈ done, ∃ k' ∈ past, signer.session.signAllWith check k' = .ok sigs)
    (hpast : ∀ k' ∈ past, ∀ k ∈ ks, Separate signer.psbt k' k)
    (hseparate : ks.Pairwise (Separate signer.psbt))
    (hall : ∀ index < signer.psbt.global.inputCount, ∃ s, check signer.psbt index = .ok s)
    {q : Psbt} :
    InTurn (bodyWith check) ks (applied signer.psbt done.flatten) q ↔ ∃ groups,
      List.Forall₂ (fun k sigs => signer.session.signAllWith check k = .ok sigs) ks groups ∧
        q = applied signer.psbt (done ++ groups).flatten := by
  induction ks generalizing done past with
  | nil =>
      constructor
      · intro h
        cases h
        exact ⟨[], .nil, by rw [List.append_nil]⟩
      · rintro ⟨groups, hgroups, rfl⟩
        cases hgroups
        rw [List.append_nil]
        exact .nil
  | cons k ks ih =>
      rw [List.pairwise_cons] at hseparate
      have hdone' : ∀ sigs ∈ done, ∃ k', signer.session.signAllWith check k' = .ok sigs ∧
          Separate signer.psbt k' k := by
        intro sigs hsigs
        obtain ⟨k', hk', hsign⟩ := hdone sigs hsigs
        exact ⟨k', hsign, hpast k' hk' k List.mem_cons_self⟩
      have hrest : ∀ sigs, signer.session.signAllWith check k = .ok sigs →
          (InTurn (bodyWith check) ks (applied signer.psbt (done ++ [sigs]).flatten) q ↔ ∃ groups,
            List.Forall₂ (fun k sigs => signer.session.signAllWith check k = .ok sigs) ks groups ∧
              q = applied signer.psbt (done ++ sigs :: groups).flatten) := by
        intro sigs hsign
        have hmore : ∀ sigs' ∈ done ++ [sigs], ∃ k' ∈ k :: past,
            signer.session.signAllWith check k' = .ok sigs' := by
          intro sigs' hsigs'
          rcases List.mem_append.mp hsigs' with hmem | hmem
          · obtain ⟨k', hk', hsign'⟩ := hdone sigs' hmem
            exact ⟨k', List.mem_cons_of_mem k hk', hsign'⟩
          · rw [List.mem_singleton.mp hmem]
            exact ⟨k, List.mem_cons_self, hsign⟩
        have hpast' : ∀ k' ∈ k :: past, ∀ k'' ∈ ks, Separate signer.psbt k' k'' := by
          intro k' hk' k'' hk''
          rcases List.mem_cons.mp hk' with rfl | hmem
          · exact hseparate.1 k'' hk''
          · exact hpast k' hmem k'' (List.mem_cons_of_mem k hk'')
        rw [ih hmore hpast' hseparate.2]
        simp only [List.append_assoc, List.singleton_append]
      constructor
      · intro h
        cases h with
        | cons hsigns hinTurn =>
            obtain ⟨sigs, hsign, rfl⟩ :=
              (signsWith_after_iff hlaws hcheck hdone' hall).mp hsigns
            obtain ⟨groups, hgroups, hq⟩ := (hrest sigs hsign).mp hinTurn
            exact ⟨sigs :: groups, .cons hsign hgroups, hq⟩
      · rintro ⟨groups, hgroups, hq⟩
        cases hgroups with
        | cons hsign hgroups =>
            exact .cons ((signsWith_after_iff hlaws hcheck hdone' hall).mpr ⟨_, hsign, rfl⟩)
              ((hrest _ hsign).mpr ⟨_, hgroups, hq⟩)

omit [ScriptHashes] in
/-- Signing in turn is applying what each signer makes of the original PSBT. -/
theorem inTurn_iff (hlaws : SighashTypeLaws) (hcheck : Stable check) {ks : List GetKey}
    (hseparate : ks.Pairwise (Separate signer.psbt))
    (hall : ∀ index < signer.psbt.global.inputCount, ∃ s, check signer.psbt index = .ok s)
    {q : Psbt} :
    InTurn (bodyWith check) ks signer.psbt q ↔ ∃ groups,
      List.Forall₂ (fun k sigs => signer.session.signAllWith check k = .ok sigs) ks groups ∧
        q = applied signer.psbt groups.flatten := by
  have hdone : ∀ sigs ∈ ([] : List (List InputSigs)), ∃ k' ∈ ([] : List GetKey),
      signer.session.signAllWith check k' = .ok sigs := fun _ h => absurd h List.not_mem_nil
  have h := inTurn_after_iff hlaws hcheck hdone (fun _ h => absurd h List.not_mem_nil)
    hseparate hall (q := q)
  rw [List.flatten_nil, applied_nil] at h
  exact h

/-- What makes any two groups of signatures: one signer, or two that are separate. -/
def MadeApart (signer : Signer) (check : Psbt → Nat → Result SignError SignableInput)
    (groups : List (List InputSigs)) : Prop :=
  ∀ sigs ∈ groups, ∀ sigs' ∈ groups, ∃ k k',
    signer.session.signAllWith check k = .ok sigs ∧
    signer.session.signAllWith check k' = .ok sigs' ∧ (k = k' ∨ Separate signer.psbt k k')

variable {groups : List (List InputSigs)} {index : Nat}

omit [ScriptHashes] [SignatureTypes] in
/-- Two taproot signatures of one key are made by one signer. -/
theorem MadeApart.tapMade (h : MadeApart signer check groups)
    (hcheck : AllSignableInputs.Strict check) {pair pair' : TapKeyMaterial × TaprootSignature}
    (hpair : pair ∈ taprootPairs groups.flatten index)
    (hpair' : pair' ∈ taprootPairs groups.flatten index) :
    ∃ s i k k', signer.session.TapMade s i (allPrevouts signer.psbt check) k pair ∧
      signer.session.TapMade s i (allPrevouts signer.psbt check) k' pair' ∧
        (SigningSession.keyOf pair.1 = SigningSession.keyOf pair'.1 → k = k') := by
  obtain ⟨entry, hentry, hmem⟩ := List.mem_flatMap.mp hpair
  obtain ⟨entry', hentry', hmem'⟩ := List.mem_flatMap.mp hpair'
  obtain ⟨sigs, hsigs, hentry⟩ := List.mem_flatten.mp hentry
  obtain ⟨sigs', hsigs', hentry'⟩ := List.mem_flatten.mp hentry'
  obtain ⟨k, k', hsign, hsign', hapart⟩ := h sigs hsigs sigs' hsigs'
  have hin : pair ∈ taprootPairs sigs index := List.mem_flatMap.mpr ⟨entry, hentry, hmem⟩
  have hin' : pair' ∈ taprootPairs sigs' index := List.mem_flatMap.mpr ⟨entry', hentry', hmem'⟩
  split at hmem
  · rename_i hindex
    subst hindex
    obtain ⟨s, i, hs, -, hi, -⟩ := exists_made hcheck hsign hentry
    have hget := (Psbt.checkedInput_eq_ok.mp hi).2
    have hmade := tapMade_of_mem hcheck hsign hget hs hin
    have hmade' := tapMade_of_mem hcheck hsign' hget hs hin'
    refine ⟨s, i, k, k', hmade, hmade', fun hkey => hapart.resolve_right fun hseparate => ?_⟩
    exact hseparate i (List.mem_of_getElem? hget) _ ⟨hmade.held, hkey ▸ hmade'.held⟩
  · cases hmem

omit [ScriptHashes] [SignatureTypes] in
/-- Signers that are separate, or the same, put one signature in each place. -/
theorem MadeApart.oneEach (h : MadeApart signer check groups) (hkeys : PublicKeyLaw)
    (hcheck : AllSignableInputs.Strict check) : OneEach signer.psbt groups.flatten where
  ecdsa index _ key v w hv hw := by
    obtain ⟨entry, hentry, hv⟩ := List.mem_flatMap.mp hv
    obtain ⟨entry', hentry', hw⟩ := List.mem_flatMap.mp hw
    obtain ⟨sigs, hsigs, hentry⟩ := List.mem_flatten.mp hentry
    obtain ⟨sigs', hsigs', hentry'⟩ := List.mem_flatten.mp hentry'
    obtain ⟨k, k', hsign, hsign', -⟩ := h sigs hsigs sigs' hsigs'
    obtain ⟨s, i, hs, -, -, hmade⟩ := exists_made hcheck hsign hentry
    obtain ⟨s', i', hs', -, -, hmade'⟩ := exists_made hcheck hsign' hentry'
    split at hv
    · rename_i hindex
      split at hw
      · rename_i hindex'
        rw [hindex', ← hindex, hs] at hs'
        cases hs'
        obtain ⟨msg, ty, sk, hsighash, hpair⟩ :=
          SigningSession.ecdsaMade_of_inputSigs hmade _ hv
        obtain ⟨msg', ty', sk', hsighash', hpair'⟩ :=
          SigningSession.ecdsaMade_of_inputSigs hmade' _ hw
        rw [hsighash] at hsighash'
        cases hsighash'
        obtain ⟨hkey, rfl⟩ := Prod.mk.inj hpair
        obtain ⟨hkey', rfl⟩ := Prod.mk.inj hpair'
        rw [hkeys.inner sk sk' (hkey.symm.trans hkey')]
      · cases hw
    · cases hv
  keyPath index _ v hv w hw := by
    obtain ⟨⟨material, sig⟩, hpair, hv⟩ := List.mem_filterMap.mp hv
    obtain ⟨⟨material', sig'⟩, hpair', hw⟩ := List.mem_filterMap.mp hw
    obtain ⟨s, i, k, k', hmade, hmade', hsame⟩ := h.tapMade hcheck hpair hpair'
    cases material with
    | scriptPath keyMaterial => cases hv
    | keyPath xonly =>
        cases material' with
        | scriptPath keyMaterial => cases hw
        | keyPath xonly' =>
            cases hv
            cases hw
            have hkey : some xonly = some xonly' := hmade.1.symm.trans hmade'.1
            cases hkey
            rw [hsame rfl] at hmade
            exact hmade.unique hmade'
  scriptPath index _ key v w hv hw := by
    obtain ⟨⟨material, sig⟩, hpair, hv⟩ := List.mem_filterMap.mp hv
    obtain ⟨⟨material', sig'⟩, hpair', hw⟩ := List.mem_filterMap.mp hw
    obtain ⟨s, i, k, k', hmade, hmade', hsame⟩ := h.tapMade hcheck hpair hpair'
    cases material with
    | keyPath xonly => cases hv
    | scriptPath keyMaterial =>
        cases material' with
        | keyPath xonly => cases hw
        | scriptPath keyMaterial' =>
            cases hv
            cases hw
            rw [hsame rfl] at hmade
            exact hmade.unique hmade'

omit [ScriptHashes] in
/-- Where one signer signs all inputs, all of them pass the check. -/
theorem passes_of_signsWith (hcheck : AllSignableInputs.Strict check) {r : Psbt}
    (h : SignsWith (bodyWith check) signer.psbt k r) :
    ∀ index < signer.psbt.global.inputCount, ∃ s, check signer.psbt index = .ok s := by
  obtain ⟨signer', sigs, hnew, hsign, -⟩ := h
  obtain ⟨inputs, hinputs, -⟩ := (SigningSession.signAllWith_eq_ok hcheck).mp hsign
  have hpsbt : signer'.session.psbt = signer.psbt := Signer.new_eq_ok.mp hnew
  rw [hpsbt] at hinputs
  intro index hindex
  obtain ⟨s, -, hs⟩ := Result.exists_of_mem_left hinputs (List.mem_range.mpr hindex)
  exact ⟨s, hs⟩

omit [ScriptHashes] [SignatureTypes] in
/-- Separate signers make their signatures apart. -/
theorem madeApart_of_forall₂ {ks : List GetKey}
    (hseparate : ks.Pairwise (Separate signer.psbt))
    (h : List.Forall₂ (fun k sigs => signer.session.signAllWith check k = .ok sigs) ks groups) :
    MadeApart signer check groups := by
  have hall : ∀ k ∈ ks, ∀ k' ∈ ks, k = k' ∨ Separate signer.psbt k k' := by
    intro k hk k' hk'
    rcases eq_or_ne k k' with heq | hne
    · exact .inl heq
    · exact .inr (hseparate.forall hk hk' hne)
  intro sigs hsigs sigs' hsigs'
  obtain ⟨k, hk, hsign⟩ := exists_provider h hsigs
  obtain ⟨k', hk', hsign'⟩ := exists_provider h hsigs'
  exact ⟨k, k', hsign, hsign', hall k hk k' hk'⟩

omit [ScriptHashes] in
/-- Separate signers may sign in any order, or all of them the original PSBT. -/
theorem inTurn_perm (hlaws : SighashTypeLaws) (hkeys : PublicKeyLaw) (hcheck : Stable check)
    {ks ks' : List GetKey} (hperm : ks'.Perm ks) (hseparate : ks.Pairwise (Separate signer.psbt))
    {q : Psbt} (h : InTurn (bodyWith check) ks signer.psbt q) :
    InTurn (bodyWith check) ks' signer.psbt q ∧ ∃ groups,
      List.Forall₂ (fun k sigs => bodyWith check signer.session k = .ok sigs) ks groups ∧
        signer.apply groups.flatten = .ok q := by
  cases ks with
  | nil =>
      cases h
      rw [List.perm_nil.mp hperm]
      exact ⟨.nil, [], .nil, Signer.apply_eq_ok.mpr ⟨by simp, (applied_nil _).symm⟩⟩
  | cons k ks =>
      have hall : ∀ index < signer.psbt.global.inputCount,
          ∃ s, check signer.psbt index = .ok s := by
        cases h with
        | cons hsigns _ => exact passes_of_signsWith hcheck.toStrict hsigns
      obtain ⟨groups, hgroups, rfl⟩ := (inTurn_iff hlaws hcheck hseparate hall).mp h
      have hsome : ∀ sigs ∈ groups, ∃ k, signer.session.signAllWith check k = .ok sigs := by
        intro sigs hsigs
        obtain ⟨k, -, hsign⟩ := exists_provider hgroups hsigs
        exact ⟨k, hsign⟩
      refine ⟨?_, groups, hgroups, apply_flatten hcheck.toStrict hsome⟩
      have hseparate' : ks'.Pairwise (Separate signer.psbt) :=
        (hperm.pairwise_iff Separate.symm).mpr hseparate
      obtain ⟨groups', hgroups', hsame⟩ := List.perm_comp_forall₂ hperm hgroups
      refine (inTurn_iff hlaws hcheck hseparate' hall).mpr ⟨groups', hgroups', ?_⟩
      have hone := (madeApart_of_forall₂ hseparate hgroups).oneEach hkeys hcheck.toStrict
      refine (applied_perm hone hsame.flatten fun entry hentry => ?_).symm
      obtain ⟨s, -, hof⟩ := of_flatten hlaws hcheck.toStrict hsome entry hentry
      exact hof.sharesSighashType

end

/-- Cosigners sign all inputs of a PSBT one after another.  Where no two of them hold keys of
one taproot origin, any other order succeeds with the same PSBT, and so does one Signer that
applies what each of them makes of the original PSBT. -/
theorem cosigners_any_order (hlaws : SighashTypeLaws) (hkeys : PublicKeyLaw) {signer : Signer}
    {ks ks' : List GetKey} (hperm : ks'.Perm ks)
    (hseparate : ks.Pairwise (Separate signer.psbt)) (q : Psbt) :
    (InTurn SigningSession.signAll ks signer.psbt q →
      InTurn SigningSession.signAll ks' signer.psbt q ∧ ∃ groups,
        List.Forall₂ (fun k sigs => signer.session.signAll k = .ok sigs) ks groups ∧
          signer.apply groups.flatten = .ok q) ∧
    (InTurn SigningSession.signAllUnchecked ks signer.psbt q →
      InTurn SigningSession.signAllUnchecked ks' signer.psbt q ∧ ∃ groups,
        List.Forall₂ (fun k sigs => signer.session.signAllUnchecked k = .ok sigs) ks groups ∧
          signer.apply groups.flatten = .ok q) :=
  ⟨inTurn_perm hlaws hkeys stable_verify hperm hseparate,
    inTurn_perm hlaws hkeys stable_assumeChecked hperm hseparate⟩

end Signer

end Generic

/-! ## A reference run -/

namespace Signer

attribute [local instance] Reference.types Reference.txidHash Reference.scriptHashes
  Reference.signatureTypes Reference.sighashEngine

/-- The reference keys, with secrets that are their own x coordinates. -/
@[reducible]
def plainSecp : Secp :=
  { Reference.secp with
    publicKey := fun sk : Reference.RefKey => Reference.compressedOf sk.secret sk.parity }

attribute [local instance] plainSecp

theorem sighashTypeLaws_plain : SighashTypeLaws where
  ecdsa := @SighashTypeLaws.ecdsa _ _ Reference.secp sighashTypeLaws_reference
  taproot := @SighashTypeLaws.taproot _ _ Reference.secp sighashTypeLaws_reference

theorem publicKeyLaw_plain : PublicKeyLaw where
  inner sk sk' h := by
    change Reference.RefKey at sk sk'
    change Reference.compressedOf sk.secret sk.parity =
      Reference.compressedOf sk'.secret sk'.parity at h
    change sk.secret = sk'.secret
    apply U8Array.ext
    unfold Reference.compressedOf at h
    split at h <;> split at h
    all_goals
      have hbytes := congrArg Reference.publicKeyBytes h
      simp [Reference.publicKeyBytes] at hbytes
    · exact hbytes
    · exact hbytes

theorem length_cosignerSecret (n : UInt8) : (List.replicate 32 n).length = 32 :=
  List.length_replicate

/-- The key of a cosigner. -/
def cosignerKey (n : UInt8) : Reference.RefKey where
  secret := ⟨List.replicate 32 n, length_cosignerSecret n⟩
  parity := .even

/-- A provider of the key alone. -/
def cosigner (n : UInt8) : GetKey where
  Error := Unit
  getKey
    | .xOnlyPubkey xonly =>
        .ok (if xonly = (cosignerKey n).secret then some (cosignerKey n) else none)
    | _ => .error ()

/-- An input of the cosigner. -/
def cosignerInput (n : UInt8) (vout : Vout) : Input :=
  { Reference.input vout with
    witnessUtxo := some {
      value := (2000 : UInt64)
      scriptPubkey := ScriptBuf.newP2tr ((cosignerKey n).secret : XOnlyPublicKey) none }
    tapInternalKey := some (cosignerKey n).secret
    tapKeyOrigins := ({} : BTreeMap XOnlyPublicKey TapKeyOrigin).insert (cosignerKey n).secret
      ([], (.zero 4, [])) }

/-- A PSBT with one input of each of two cosigners. -/
def cosigned : Psbt :=
  Reference.psbt [cosignerInput 1 0, cosignerInput 2 1] [Reference.output [0x51]]

/-- The signer of the PSBT. -/
def cosignedSigner : Signer where
  psbt := cosigned
  cache := cosigned.unsignedTxAt .zero
  unsignedTx_eq := rfl

/-- The cosigner of an input holds its key. -/
theorem held_cosigner {n m : UInt8} {vout : Vout} {xonly : XOnlyPublicKey}
    (h : (cosignerInput n vout).Held (cosigner m) xonly) :
    (cosignerKey n).secret = (cosignerKey m).secret := by
  obtain ⟨leafHashes, keySource, horigin, hkey⟩ := h
  have hxonly : (cosignerKey n).secret = xonly := by
    have hget : (({} : BTreeMap XOnlyPublicKey TapKeyOrigin).insert (cosignerKey n).secret
        ([], (.zero 4, [])))[xonly]? = some (leafHashes, keySource) := horigin
    rw [BTreeMap.getElem?_insert_eq] at hget
    split at hget
    · assumption
    · simp at hget
  by_contra hne
  obtain ⟨sk, hsk⟩ := Option.isSome_iff_exists.mp hkey
  rw [← hxonly] at hsk
  rcases GetKey.keyFor_eq_some.mp hsk with hderived | ⟨-, hasked⟩
  · cases hderived
  · have hgot : (if (cosignerKey n).secret = (cosignerKey m).secret then some (cosignerKey m)
        else none) = some sk := Except.ok.inj hasked
    rw [if_neg hne] at hgot
    cases hgot

theorem separate_cosigned : Separate cosigned (cosigner 1) (cosigner 2) := by
  intro i hi xonly hboth
  have hinput : ∃ n vout, i = cosignerInput n vout := by
    rcases List.mem_cons.mp hi with rfl | hi
    · exact ⟨1, 0, rfl⟩
    · exact ⟨2, 1, List.mem_singleton.mp hi⟩
  obtain ⟨n, vout, rfl⟩ := hinput
  have hsame := (held_cosigner hboth.1).symm.trans (held_cosigner hboth.2)
  exact absurd hsame (by decide)

theorem cosigners_any_order_two :
    ∃ q, InTurn SigningSession.signAll [cosigner 1, cosigner 2] cosigned q ∧
      InTurn SigningSession.signAll [cosigner 2, cosigner 1] cosigned q := by
  have hfirst : (cosignedSigner.session.signAll (cosigner 1)).toOption.isSome := by decide +kernel
  have hsecond : (cosignedSigner.session.signAll (cosigner 2)).toOption.isSome := by
    decide +kernel
  have hall : ∀ index < 2, (SignableInput.verify cosigned index).toOption.isSome := by
    decide +kernel
  obtain ⟨sigs, hsigs⟩ := Option.isSome_iff_exists.mp hfirst
  obtain ⟨sigs', hsigs'⟩ := Option.isSome_iff_exists.mp hsecond
  have hseparate : [cosigner 1, cosigner 2].Pairwise (Separate cosignedSigner.psbt) :=
    List.pairwise_pair.mpr separate_cosigned
  have hturn : InTurn SigningSession.signAll [cosigner 1, cosigner 2] cosignedSigner.psbt
      (applied cosigned [sigs, sigs'].flatten) := by
    refine (inTurn_iff sighashTypeLaws_plain stable_verify hseparate fun index hindex => ?_).mpr
      ⟨[sigs, sigs'], ?_, rfl⟩
    · obtain ⟨s, hs⟩ := Option.isSome_iff_exists.mp (hall index hindex)
      exact ⟨s, Result.toOption_eq_some.mp hs⟩
    · exact .cons (Result.toOption_eq_some.mp hsigs)
        (.cons (Result.toOption_eq_some.mp hsigs') .nil)
  have hperm : [cosigner 2, cosigner 1].Perm [cosigner 1, cosigner 2] := List.Perm.swap _ _ _
  exact ⟨_, hturn, ((cosigners_any_order sighashTypeLaws_plain publicKeyLaw_plain hperm
    hseparate _).1 hturn).1⟩

end Signer

end RustPsbt
