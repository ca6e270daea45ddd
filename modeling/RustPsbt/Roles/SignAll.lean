import RustPsbt.Roles.Completeness

/-!
# Signing in one call

The session bodies that check and sign one input, or all of them or none.

Main results:

- Theorem `SigningSession.signAll_reports`: when all inputs are signed, and which errors
  are reported when they are not.
- Theorem `SigningSession.signInput_agrees`: signing an input alone gives what signing all
  of them gives for it, unless its signatures commit to the other inputs.
-/

namespace RustPsbt

namespace Result

/-- What has no errors does not return one. -/
theorem not_isErr_mapErr_elim {ε α : Type} (r : Result Empty α) :
    ¬(r.mapErr Empty.elim : Result ε α).IsErr := by
  rintro ⟨e, he⟩
  cases r with
  | ok a => cases he
  | error f =>
      cases f with
      | error e' => exact e'.elim
      | panic => cases he
      | diverge => cases he

end Result

section Generic

variable [BitcoinTypes] [TxidHash]

/-! ## Checking all inputs -/

namespace AllSignableInputs

/-- A check that returns, and that includes the structural checks. -/
structure Strict (check : Psbt → Nat → Result SignError SignableInput) : Prop where
  returns : ∀ psbt index, (check psbt index).Returns
  checkData : ∀ psbt index s, check psbt index = .ok s →
    SignableInput.checkData psbt index = .ok s

theorem strict_assumeChecked : Strict SignableInput.assumeChecked where
  returns := SignableInput.returns_checkData
  checkData _ _ _ h := h

theorem strict_verify [ScriptHashes] [SignatureTypes] : Strict SignableInput.verify where
  returns := SignableInput.returns_verify
  checkData _ _ _ := SignableInput.checkData_of_verify

variable {psbt : Psbt} {check : Psbt → Nat → Result SignError SignableInput}

/-- The inputs that pass the check, in the order of the indices. -/
def passing (psbt : Psbt) (check : Psbt → Nat → Result SignError SignableInput)
    (indices : List Nat) : List SignableInput :=
  indices.filterMap fun index => (check psbt index).toOption

/-- The right state of the loop is the left one after rounds for the indices. -/
structure Rounds (psbt : Psbt) (check : Psbt → Nat → Result SignError SignableInput)
    (indices : List Nat) (state state' : Building) : Prop where
  signableInputs : state'.signableInputs = state.signableInputs ++ passing psbt check indices
  prevouts : state'.prevouts =
    state.prevouts ++ (passing psbt check indices).map SignableInput.prevout
  errors : ∀ index e, state'.errors[index]? = some e ↔
    (index ∈ indices ∧ check psbt index = .err e) ∨
      ((index ∈ indices → ∃ s, check psbt index = .ok s) ∧ state.errors[index]? = some e)

/-- A round with a check that passes. -/
theorem newRound_of_ok {ε : Type} (hcheck : Strict check) (state : Building) {index : Nat}
    {s : SignableInput} (h : check psbt index = .ok s) :
    (newRound psbt check state index : Result ε Building) =
      .ok { state with
        signableInputs := state.signableInputs ++ [s]
        prevouts := state.prevouts ++ [s.prevout] } := by
  obtain ⟨i, hchecked⟩ := SignableInput.checkData_spec (hcheck.checkData psbt index s h)
  unfold newRound
  rw [h, Result.attempt_ok, Result.ok_bind]
  dsimp only
  rw [hchecked.checkedInput]
  dsimp only [Except.toOption, Psbt.expect, Result.ok_bind]
  rw [hchecked.fundingUtxo]
  rfl

/-- A round with a check that fails. -/
theorem newRound_of_err {ε : Type} (state : Building) {index : Nat} {e : SignError}
    (h : check psbt index = .err e) :
    (newRound psbt check state index : Result ε Building) =
      .ok { state with errors := state.errors.insert index e } := by
  unfold newRound
  rw [h, Result.attempt_err, Result.ok_bind]

/-- The loop passes over all indices, whatever fails. -/
theorem exists_rounds {ε : Type} (hcheck : Strict check) (psbt : Psbt) (indices : List Nat)
    (state : Building) :
    ∃ state', indices.foldlM (newRound psbt check) state = (.ok state' : Result ε Building) ∧
      Rounds psbt check indices state state' := by
  induction indices generalizing state with
  | nil =>
      refine ⟨state, rfl, ⟨by simp [passing], by simp [passing], ?_⟩⟩
      intro index e
      simp
  | cons k indices ih =>
      rcases hk : check psbt k with f | s
      · cases f with
        | error e' =>
            obtain ⟨state', hloop, hrest⟩ :=
              ih { state with errors := state.errors.insert k e' }
            refine ⟨state', ?_, ⟨?_, ?_, ?_⟩⟩
            · rw [List.foldlM_cons, newRound_of_err state hk]
              exact hloop
            · rw [hrest.signableInputs]
              simp [passing, hk]
            · rw [hrest.prevouts]
              simp [passing, hk]
            · intro index e
              rw [hrest.errors, BTreeMap.getElem?_insert_eq]
              by_cases hindex : k = index
              · subst hindex
                simp [hk]
                grind
              · simp [hindex, Ne.symm hindex]
        | panic => exact absurd (hcheck.returns psbt k) (by simp [hk, Result.Returns])
        | diverge => exact absurd (hcheck.returns psbt k) (by simp [hk, Result.Returns])
      · obtain ⟨state', hloop, hrest⟩ := ih { state with
          signableInputs := state.signableInputs ++ [s]
          prevouts := state.prevouts ++ [s.prevout] }
        refine ⟨state', ?_, ⟨?_, ?_, ?_⟩⟩
        · rw [List.foldlM_cons, newRound_of_ok hcheck state hk]
          exact hloop
        · rw [hrest.signableInputs]
          simp [passing, hk]
        · rw [hrest.prevouts]
          simp [passing, hk]
        · intro index e
          rw [hrest.errors]
          by_cases hindex : index = k
          · subst hindex
            simp [hk]
          · simp [hindex]

omit [TxidHash] in
/-- Where the check passes on all indices, the passing inputs are all of them. -/
theorem forall₂_passing {indices : List Nat}
    (h : ∀ index ∈ indices, ∃ s, check psbt index = .ok s) :
    List.Forall₂ (fun index s => check psbt index = .ok s) indices
      (passing psbt check indices) := by
  induction indices with
  | nil => exact .nil
  | cons k indices ih =>
      rw [List.forall_mem_cons] at h
      obtain ⟨s, hs⟩ := h.1
      have hcons : passing psbt check (k :: indices) = s :: passing psbt check indices := by
        simp [passing, hs]
      rw [hcons]
      exact .cons hs (ih h.2)

omit [TxidHash] in
theorem passing_eq {indices : List Nat} {inputs : List SignableInput}
    (h : List.Forall₂ (fun index s => check psbt index = .ok s) indices inputs) :
    passing psbt check indices = inputs := by
  induction h with
  | nil => rfl
  | cons hs _ ih =>
      rw [← ih]
      simp [passing, hs]

omit [TxidHash] in
/-- A check that returns passes or fails. -/
theorem Strict.ok_or_err [TxidHash] (hcheck : Strict check) (psbt : Psbt) (index : Nat) :
    (∃ s, check psbt index = .ok s) ∨ (check psbt index).IsErr := by
  rw [(hcheck.returns psbt index).isErr_iff]
  exact em _

omit [TxidHash] in
/-- The errors are those of the check, from rounds that begin without errors. -/
theorem Rounds.errors_iff {indices : List Nat} {state state' : Building}
    (h : Rounds psbt check indices state state') (hnil : state.errors = {}) (index : Nat)
    (e : SignError) :
    state'.errors[index]? = some e ↔ index ∈ indices ∧ check psbt index = .err e := by
  rw [h.errors, hnil]
  simp

/-- There are no errors exactly if the check passes on all indices. -/
theorem Rounds.isEmpty_errors_iff (hcheck : Strict check) {indices : List Nat}
    {state state' : Building} (h : Rounds psbt check indices state state')
    (hnil : state.errors = {}) :
    state'.errors.isEmpty ↔ ∀ index ∈ indices, ∃ s, check psbt index = .ok s := by
  rw [BTreeMap.isEmpty_iff_getElem?]
  constructor
  · intro hnone index hindex
    rcases hcheck.ok_or_err psbt index with hok | ⟨e, he⟩
    · exact hok
    · have hsome := (h.errors_iff hnil index e).mpr ⟨hindex, he⟩
      rw [hnone] at hsome
      cases hsome
  · intro hall index
    apply Option.eq_none_iff_forall_ne_some.mpr
    intro e he
    obtain ⟨hindex, herr⟩ := (h.errors_iff hnil index e).mp he
    obtain ⟨s, hs⟩ := hall index hindex
    rw [hs] at herr
    cases herr

/-- A complete set of the inputs and the prevouts that they were checked with, if every
counted input passes. -/
theorem new_of_passing (hcheck : Strict check)
    (hall : ∀ index < psbt.global.inputCount, ∃ s, check psbt index = .ok s) :
    new psbt check = .ok {
      inputs := passing psbt check (List.range psbt.global.inputCount)
      prevouts := (passing psbt check (List.range psbt.global.inputCount)).map
        SignableInput.prevout } := by
  obtain ⟨state, hloop, hrounds⟩ := exists_rounds (ε := BTreeMap Nat SignError) hcheck
    psbt (List.range psbt.global.inputCount)
    { signableInputs := [], prevouts := [], errors := {} }
  have hempty := (hrounds.isEmpty_errors_iff hcheck rfl).mpr fun index hindex =>
    hall index (List.mem_range.mp hindex)
  unfold new
  rw [hloop, Result.ok_bind, if_pos hempty, hrounds.signableInputs, hrounds.prevouts]
  rfl

/-- The errors of the counted inputs that fail, if there are any. -/
theorem new_of_failing (hcheck : Strict check)
    (hfail : ∃ index < psbt.global.inputCount, (check psbt index).IsErr) :
    ∃ errors, new psbt check = .err errors ∧ ∀ index e,
      errors[index]? = some e ↔ index < psbt.global.inputCount ∧ check psbt index = .err e := by
  obtain ⟨state, hloop, hrounds⟩ := exists_rounds (ε := BTreeMap Nat SignError) hcheck
    psbt (List.range psbt.global.inputCount)
    { signableInputs := [], prevouts := [], errors := {} }
  have hempty : ¬state.errors.isEmpty := by
    rw [hrounds.isEmpty_errors_iff hcheck rfl]
    intro hall
    obtain ⟨index, hlt, e, he⟩ := hfail
    obtain ⟨s, hs⟩ := hall index (List.mem_range.mpr hlt)
    rw [hs] at he
    cases he
  refine ⟨state.errors, ?_, fun index e => ?_⟩
  · unfold new
    rw [hloop, Result.ok_bind, if_neg hempty]
  · rw [hrounds.errors_iff rfl, List.mem_range]

end AllSignableInputs

/-! ## Session bodies -/

namespace SigningSession

variable [ScriptHashes] [SignatureTypes] [SighashEngine] [Secp]

/-- `sign_input`: the session body. -/
def signInput (self : SigningSession) (index : Nat) (keys : GetKey) :
    Result SignError InputSigs := do
  let input ← self.signableInput index
  (self.getInputSigs input keys).mapErr Empty.elim

/-- `sign_all`: the session body. -/
def signAll (self : SigningSession) (keys : GetKey) :
    Result (BTreeMap Nat SignError) (List InputSigs) := do
  let inputs ← self.signableInputs
  (self.getAll inputs keys).mapErr Empty.elim

omit [ScriptHashes] [SignatureTypes] in
/-- `sign_input_unchecked`: the session body. -/
def signInputUnchecked (self : SigningSession) (index : Nat) (keys : GetKey) :
    Result SignError InputSigs := do
  let input ← self.assumeCheckedInput index
  (self.getInputSigs input keys).mapErr Empty.elim

omit [ScriptHashes] [SignatureTypes] in
/-- `sign_all_unchecked`: the session body. -/
def signAllUnchecked (self : SigningSession) (keys : GetKey) :
    Result (BTreeMap Nat SignError) (List InputSigs) := do
  let inputs ← self.assumeCheckedInputs
  (self.getAll inputs keys).mapErr Empty.elim

omit [ScriptHashes] [SignatureTypes] in
/-- Both bodies that sign all inputs: check all of them, then sign. -/
def signAllWith (self : SigningSession)
    (check : Psbt → Nat → Result SignError SignableInput) (keys : GetKey) :
    Result (BTreeMap Nat SignError) (List InputSigs) := do
  let inputs ← AllSignableInputs.new self.psbt check
  (self.getAll inputs keys).mapErr Empty.elim

/-- Both bodies that sign one input: check it, then sign. -/
def signInputWith (self : SigningSession)
    (check : Psbt → Nat → Result SignError SignableInput) (index : Nat) (keys : GetKey) :
    Result SignError InputSigs := do
  let input ← (check self.psbt index) >>= rejectAllPrevouts
  (self.getInputSigs input keys).mapErr Empty.elim

/-- What signing all inputs of a PSBT reports: it fails exactly if an input fails the check,
and then with the errors of all the inputs that do; otherwise there is one entry for every
counted input, in order. -/
structure Reports (psbt : Psbt) (check : Psbt → Nat → Result SignError SignableInput)
    (r : Result (BTreeMap Nat SignError) (List InputSigs)) : Prop where
  isErr : r.IsErr ↔ ∃ index < psbt.global.inputCount, (check psbt index).IsErr
  errors : ∀ errors, r = .err errors → ∀ index e,
    errors[index]? = some e ↔ index < psbt.global.inputCount ∧ check psbt index = .err e
  entries : ∀ sigs, r = .ok sigs →
    sigs.map InputSigs.index = List.range psbt.global.inputCount
  returns : psbt.inputs.length ≤ psbt.global.inputCount → r.Returns

section

variable {self : SigningSession} {check : Psbt → Nat → Result SignError SignableInput}

omit [TxidHash] [ScriptHashes] [SignatureTypes] in
/-- Signatures are filed under the index of the signable input. -/
theorem index_of_inputSigs {s : SignableInput} {allPrevouts : List TxOut} {k : GetKey}
    {entry : InputSigs} (h : self.inputSigs s allPrevouts k = .ok entry) :
    entry.index = s.index := by
  unfold inputSigs at h
  split at h
  · obtain ⟨i, -, h⟩ := Result.bind_eq_ok.mp h
    obtain ⟨signatures, -, h⟩ := Result.bind_eq_ok.mp h
    rw [← Except.ok.inj h]
  · obtain ⟨i, -, h⟩ := Result.bind_eq_ok.mp h
    obtain ⟨sighash, -, h⟩ := Result.bind_eq_ok.mp h
    rw [← Except.ok.inj h]

omit [ScriptHashes] [SignatureTypes] in
/-- Signing all inputs succeeds with the signatures over the inputs that pass, if all do and
none of their signatures panics. -/
theorem signAllWith_eq_ok (hcheck : AllSignableInputs.Strict check) {keys : GetKey}
    {sigs : List InputSigs} :
    self.signAllWith check keys = .ok sigs ↔
      ∃ inputs, List.Forall₂ (fun index s => check self.psbt index = .ok s)
        (List.range self.psbt.global.inputCount) inputs ∧
      List.Forall₂
        (fun s entry =>
          self.inputSigs s (inputs.map SignableInput.prevout) keys = .ok entry) inputs sigs := by
  constructor
  · intro h
    obtain ⟨all, hall, h⟩ := Result.bind_eq_ok.mp h
    have hsigs := Result.mapM_eq_ok.mp (Result.mapErr_eq_ok.mp h)
    by_cases hpass : ∀ index < self.psbt.global.inputCount, ∃ s, check self.psbt index = .ok s
    · rw [AllSignableInputs.new_of_passing hcheck hpass] at hall
      cases hall
      exact ⟨_, AllSignableInputs.forall₂_passing fun index hindex =>
        hpass index (List.mem_range.mp hindex), hsigs⟩
    · push Not at hpass
      obtain ⟨index, hindex, hnone⟩ := hpass
      have hfail := (hcheck.ok_or_err self.psbt index).resolve_left fun ⟨s, hs⟩ => hnone s hs
      obtain ⟨errors, herr, -⟩ := AllSignableInputs.new_of_failing hcheck ⟨index, hindex, hfail⟩
      rw [herr] at hall
      cases hall
  · rintro ⟨inputs, hinputs, hsigs⟩
    have hpass : ∀ index < self.psbt.global.inputCount, ∃ s, check self.psbt index = .ok s := by
      intro index hindex
      obtain ⟨s, -, hs⟩ := Result.exists_of_mem_left hinputs (List.mem_range.mpr hindex)
      exact ⟨s, hs⟩
    unfold signAllWith
    rw [AllSignableInputs.new_of_passing hcheck hpass, Result.ok_bind,
      AllSignableInputs.passing_eq hinputs]
    exact Result.mapErr_eq_ok.mpr (Result.mapM_eq_ok.mpr hsigs)

omit [ScriptHashes] [SignatureTypes] in
/-- A counted input that fails the check keeps all inputs from being signed. -/
theorem signAllWith_of_failing (hcheck : AllSignableInputs.Strict check) (keys : GetKey)
    (hfail : ∃ index < self.psbt.global.inputCount, (check self.psbt index).IsErr) :
    ∃ errors, self.signAllWith check keys = .err errors ∧ ∀ index e,
      errors[index]? = some e ↔
        index < self.psbt.global.inputCount ∧ check self.psbt index = .err e := by
  obtain ⟨errors, herr, herrors⟩ := AllSignableInputs.new_of_failing hcheck hfail
  refine ⟨errors, ?_, herrors⟩
  unfold signAllWith
  rw [herr]
  rfl

omit [ScriptHashes] [SignatureTypes] in
/-- Where all counted inputs pass and no input is left uncounted, their signatures do not
panic. -/
theorem returns_signAllWith (hengine : SighashEngine.Documented)
    (hcheck : AllSignableInputs.Strict check) (keys : GetKey)
    (hcount : self.psbt.inputs.length ≤ self.psbt.global.inputCount) :
    (self.signAllWith check keys).Returns := by
  by_cases hall : ∀ index < self.psbt.global.inputCount, ∃ s, check self.psbt index = .ok s
  · have hinputs : List.Forall₂ (fun index s => check self.psbt index = .ok s)
        (List.range self.psbt.global.inputCount)
        (AllSignableInputs.passing self.psbt check (List.range self.psbt.global.inputCount)) :=
      AllSignableInputs.forall₂_passing fun index hindex =>
        hall index (List.mem_range.mp hindex)
    have hlength := hinputs.length_eq
    rw [List.length_range] at hlength
    unfold signAllWith
    rw [AllSignableInputs.new_of_passing hcheck hall, Result.ok_bind, Result.returns_mapErr]
    apply Result.returns_mapM
    intro s hs
    obtain ⟨index, hindex, hpass⟩ := Result.exists_of_mem_right hinputs hs
    obtain ⟨i, hchecked⟩ := SignableInput.checkData_spec (hcheck.checkData _ _ _ hpass)
    have heq := hchecked.index_eq
    subst heq
    refine returns_inputSigs hengine hchecked (fun _ => .inr ?_) keys
    -- there is one prevout for every input of the transaction
    rw [List.length_map, ← hlength, self.length_cache_input]
    refine le_antisymm (not_lt.mp fun hlt => ?_) hcount
    obtain ⟨s', hs'⟩ := hall self.psbt.inputs.length hlt
    obtain ⟨i', hchecked'⟩ := SignableInput.checkData_spec (hcheck.checkData _ _ _ hs')
    have hget := (Psbt.checkedInput_eq_ok.mp hchecked'.checkedInput).2
    simp at hget
  · push Not at hall
    obtain ⟨index, hindex, hnone⟩ := hall
    have hfail := (hcheck.ok_or_err self.psbt index).resolve_left fun ⟨s, hs⟩ => hnone s hs
    obtain ⟨errors, herr, -⟩ := signAllWith_of_failing hcheck keys ⟨index, hindex, hfail⟩
    rw [herr]
    trivial

omit [ScriptHashes] [SignatureTypes] in
/-- Signing all inputs fails exactly if a counted input fails the check. -/
theorem isErr_signAllWith_iff (hcheck : AllSignableInputs.Strict check) (keys : GetKey) :
    (self.signAllWith check keys).IsErr ↔
      ∃ index < self.psbt.global.inputCount, (check self.psbt index).IsErr := by
  constructor
  · rintro ⟨errors, herr⟩
    by_contra hnone
    have hall : ∀ index < self.psbt.global.inputCount,
        ∃ s, check self.psbt index = .ok s := fun index hindex =>
      (hcheck.ok_or_err self.psbt index).resolve_right fun he => hnone ⟨index, hindex, he⟩
    unfold signAllWith at herr
    rw [AllSignableInputs.new_of_passing hcheck hall, Result.ok_bind] at herr
    exact absurd ⟨errors, herr⟩ (Result.not_isErr_mapErr_elim _)
  · intro hfail
    obtain ⟨errors, herr, -⟩ := signAllWith_of_failing hcheck keys hfail
    exact ⟨errors, herr⟩

omit [TxidHash] [ScriptHashes] [SignatureTypes] [SighashEngine] [Secp] in
/-- Entries with the indices of their inputs are in the order of these. -/
theorem map_index_eq {indices : List Nat} {inputs : List SignableInput}
    {sigs : List InputSigs} (hinputs : List.Forall₂ (fun index s => s.index = index) indices inputs)
    (hsigs : List.Forall₂ (fun (s : SignableInput) (entry : InputSigs) => entry.index = s.index)
      inputs sigs) :
    sigs.map InputSigs.index = indices := by
  induction hinputs generalizing sigs with
  | nil =>
      cases hsigs
      rfl
  | cons hs _ ih =>
      cases hsigs with
      | cons hentry hrest => rw [List.map_cons, hentry, hs, ih hrest]

omit [ScriptHashes] [SignatureTypes] in
/-- There is one entry for every counted input, in order. -/
theorem map_index_of_signAllWith (hcheck : AllSignableInputs.Strict check) {keys : GetKey}
    {sigs : List InputSigs} (h : self.signAllWith check keys = .ok sigs) :
    sigs.map InputSigs.index = List.range self.psbt.global.inputCount := by
  obtain ⟨inputs, hinputs, hentries⟩ := (signAllWith_eq_ok hcheck).mp h
  apply map_index_eq _ (hentries.imp fun s entry => index_of_inputSigs)
  refine hinputs.imp fun index s hs => ?_
  obtain ⟨i, hchecked⟩ := SignableInput.checkData_spec (hcheck.checkData _ _ _ hs)
  exact hchecked.index_eq

omit [ScriptHashes] [SignatureTypes] in
/-- Signing all inputs reports what the check says about them. -/
theorem reports_signAllWith (hengine : SighashEngine.Documented)
    (hcheck : AllSignableInputs.Strict check) (keys : GetKey) :
    Reports self.psbt check (self.signAllWith check keys) where
  isErr := isErr_signAllWith_iff hcheck keys
  errors errors herr := by
    have hfail := (isErr_signAllWith_iff hcheck keys).mp ⟨errors, herr⟩
    obtain ⟨errors', herr', herrors⟩ := signAllWith_of_failing hcheck keys hfail
    rw [herr'] at herr
    cases herr
    exact herrors
  entries sigs hsigs := map_index_of_signAllWith hcheck hsigs
  returns hcount := returns_signAllWith hengine hcheck keys hcount

/-! ## Signing one input and signing all of them -/

omit [ScriptHashes] [SignatureTypes] [SighashEngine] [Secp] in
/-- The signatures over the input commit to the prevouts of all inputs. -/
def CommitsToAll (self : SigningSession) (index : Nat) : Prop :=
  ∃ s, SignableInput.checkData self.psbt index = .ok s ∧ s.outputType = .tr ∧
    s.sighashTy.isAnyoneCanPay = false

omit [TxidHash] [ScriptHashes] [SignatureTypes] [Secp] in
/-- The sighash of an input that may be spent along with any others. -/
theorem taprootSighash_congr {s : SignableInput} (hacp : s.sighashTy.isAnyoneCanPay)
    (allPrevouts allPrevouts' : List TxOut) (leafHash : Option TapLeafHash) :
    self.taprootSighash s allPrevouts leafHash = self.taprootSighash s allPrevouts' leafHash := by
  unfold taprootSighash
  cases hty : s.sighashTy.taprootHashTy with
  | error e => rfl
  | ok ty =>
      rw [PsbtSighashType.isAnyoneCanPay_iff_taproot hty] at hacp
      dsimp only [Except.toOption, Psbt.expect, Result.ok_bind]
      rw [if_pos hacp, if_pos hacp]

omit [TxidHash] [ScriptHashes] [SignatureTypes] in
/-- Signatures that do not commit to the prevouts of all inputs do not depend on them. -/
theorem inputSigs_congr {s : SignableInput}
    (h : s.outputType = .tr → s.sighashTy.isAnyoneCanPay)
    (allPrevouts allPrevouts' : List TxOut) (k : GetKey) :
    self.inputSigs s allPrevouts k = self.inputSigs s allPrevouts' k := by
  unfold inputSigs
  cases htype : s.outputType with
  | tr =>
      have hsighash : ∀ leafHash, self.taprootSighash s allPrevouts leafHash =
          self.taprootSighash s allPrevouts' leafHash :=
        taprootSighash_congr (h htype) allPrevouts allPrevouts'
      unfold taprootSignatures taprootRound keyPathSigs scriptPathSigs
      simp only [hsighash]
  | _ => rfl

omit [ScriptHashes] [SignatureTypes] [SighashEngine] [Secp] in
/-- An input that passes the check passes the structural checks. -/
theorem commitsToAll_iff (hcheck : AllSignableInputs.Strict check) {index : Nat}
    {s : SignableInput} (h : check self.psbt index = .ok s) :
    self.CommitsToAll index ↔ s.outputType = .tr ∧ s.sighashTy.isAnyoneCanPay = false := by
  have hdata := hcheck.checkData _ _ _ h
  constructor
  · rintro ⟨s', hs', hcommits⟩
    rw [hdata] at hs'
    cases hs'
    exact hcommits
  · exact fun hcommits => ⟨s, hdata, hcommits⟩

omit [TxidHash] [ScriptHashes] [SignatureTypes] in
/-- Signing one input: it is rejected, or signed without other prevouts. -/
theorem signInputWith_of_ok {index : Nat} {s : SignableInput} (keys : GetKey)
    (h : check self.psbt index = .ok s) :
    self.signInputWith check index keys =
      if s.outputType = .tr ∧ s.sighashTy.isAnyoneCanPay = false then .err .allPrevoutsRequired
      else (self.inputSigs s [] keys).mapErr Empty.elim := by
  unfold signInputWith rejectAllPrevouts
  rw [h, Result.ok_bind]
  by_cases hcommits : s.outputType = .tr ∧ s.sighashTy.isAnyoneCanPay = false
  · rw [if_pos hcommits, if_pos (by simpa using hcommits)]
    rfl
  · rw [if_neg hcommits, if_neg (by simpa using hcommits)]
    rfl

omit [ScriptHashes] [SignatureTypes] in
/-- The entry of one input among those of all inputs. -/
theorem signAllWith_entry (hcheck : AllSignableInputs.Strict check) {keys : GetKey}
    {sigs : List InputSigs} (h : self.signAllWith check keys = .ok sigs) {index : Nat}
    (hindex : index < self.psbt.global.inputCount) :
    ∃ s prevouts entry, check self.psbt index = .ok s ∧
      self.inputSigs s prevouts keys = .ok entry ∧ sigs[index]? = some entry := by
  obtain ⟨inputs, hinputs, hentries⟩ := (signAllWith_eq_ok hcheck).mp h
  have hin : index < inputs.length := by
    rw [← hinputs.length_eq, List.length_range]
    exact hindex
  have hout : index < sigs.length := hentries.length_eq ▸ hin
  have hs := hinputs.get (by simpa using hindex) hin
  have hsigs := hentries.get hin hout
  simp only [List.get_eq_getElem, List.getElem_range] at hs hsigs
  exact ⟨_, _, _, hs, hsigs, List.getElem?_eq_getElem hout⟩

/-- Signing an input alone agrees with signing all inputs with the result `sigs`. -/
structure Agrees (self : SigningSession) (sigs : List InputSigs) (index : Nat)
    (r : Result SignError InputSigs) : Prop where
  ok : ∀ entry, r = .ok entry ↔ sigs[index]? = some entry ∧ ¬self.CommitsToAll index
  rejected : r = .err .allPrevoutsRequired ↔ self.CommitsToAll index

omit [ScriptHashes] [SignatureTypes] in
/-- An input is signed alone as it is signed along with the others, unless its signatures
commit to the others. -/
theorem agrees_signInputWith (hcheck : AllSignableInputs.Strict check) {keys : GetKey}
    {sigs : List InputSigs} (h : self.signAllWith check keys = .ok sigs) {index : Nat}
    (hindex : index < self.psbt.global.inputCount) :
    self.Agrees sigs index (self.signInputWith check index keys) := by
  obtain ⟨s, prevouts, entry, hs, hsigs, hget⟩ := signAllWith_entry hcheck h hindex
  rw [signInputWith_of_ok keys hs]
  by_cases hcommits : s.outputType = .tr ∧ s.sighashTy.isAnyoneCanPay = false
  · rw [if_pos hcommits]
    have hall := (commitsToAll_iff hcheck hs).mpr hcommits
    exact ⟨by simp [hall], by simp [hall]⟩
  · have hacp : s.outputType = .tr → s.sighashTy.isAnyoneCanPay := fun htr =>
      Bool.not_eq_false _ |>.mp fun hf => hcommits ⟨htr, hf⟩
    have hall := mt (commitsToAll_iff hcheck hs).mp hcommits
    rw [if_neg hcommits, inputSigs_congr hacp [] prevouts, hsigs]
    exact ⟨by simp [hall, hget, Result.mapErr], by simp [hall, Result.mapErr]⟩

end

/-- Signing all inputs, strictly checked or not, fails exactly if a counted input fails its
check, and then reports the error of each input that does and no other; otherwise there is
one entry for every counted input, in order. -/
theorem signAll_reports (hengine : SighashEngine.Documented) {psbt : Psbt} {signer : Signer}
    (hnew : Signer.new psbt = .ok signer) (keys : GetKey) :
    Reports psbt SignableInput.verify (signer.session.signAll keys) ∧
      Reports psbt SignableInput.checkData (signer.session.signAllUnchecked keys) := by
  have hpsbt : signer.session.psbt = psbt := Signer.new_eq_ok.mp hnew
  rw [← hpsbt]
  exact ⟨reports_signAllWith hengine AllSignableInputs.strict_verify keys,
    reports_signAllWith hengine AllSignableInputs.strict_assumeChecked keys⟩

/-- What strict checks pass is signed as without them. -/
theorem signAllUnchecked_of_signAll {self : SigningSession} {keys : GetKey}
    {sigs : List InputSigs} (h : self.signAll keys = .ok sigs) :
    self.signAllUnchecked keys = .ok sigs := by
  obtain ⟨inputs, hinputs, hentries⟩ := (signAllWith_eq_ok AllSignableInputs.strict_verify).mp h
  refine (signAllWith_eq_ok AllSignableInputs.strict_assumeChecked).mpr ⟨inputs, ?_, hentries⟩
  exact hinputs.imp fun index s => SignableInput.checkData_of_verify

/-- Signing an input alone gives what signing all of them gives for it, or is rejected
where its signatures commit to the others, or fails as it fails among the others. -/
theorem signInput_agrees (self : SigningSession) (keys : GetKey) :
    (∀ sigs, self.signAll keys = .ok sigs → self.signAllUnchecked keys = .ok sigs ∧
      ∀ index < self.psbt.global.inputCount,
        self.Agrees sigs index (self.signInput index keys)) ∧
    (∀ sigs, self.signAllUnchecked keys = .ok sigs →
      ∀ index < self.psbt.global.inputCount,
        self.Agrees sigs index (self.signInputUnchecked index keys)) ∧
    ∀ errors, self.signAll keys = .err errors → ∀ index e, errors[index]? = some e →
      self.signInput index keys = .err e := by
  refine ⟨fun sigs h => ⟨signAllUnchecked_of_signAll h, fun index hindex => ?_⟩,
    fun sigs h index hindex => ?_, fun errors herr index e he => ?_⟩
  · exact agrees_signInputWith AllSignableInputs.strict_verify h hindex
  · exact agrees_signInputWith AllSignableInputs.strict_assumeChecked h hindex
  · have hfail := (isErr_signAllWith_iff AllSignableInputs.strict_verify keys).mp ⟨errors, herr⟩
    obtain ⟨errors', herr', herrors⟩ :=
      signAllWith_of_failing AllSignableInputs.strict_verify keys hfail
    have heq : errors' = errors := by
      have hboth : (Result.err errors' : Result _ (List InputSigs)) = .err errors :=
        herr'.symm.trans herr
      cases hboth
      rfl
    obtain ⟨-, hverify⟩ := (herrors index e).mp (heq ▸ he)
    unfold signInput signableInput
    rw [hverify]
    rfl

end SigningSession

end Generic

namespace SigningSession

attribute [local instance] Reference.types Reference.txidHash Reference.scriptHashes
  Reference.signatureTypes Reference.sighashEngine Reference.secp Reference.bip32

open Reference

theorem signAll_reports_shWsh :
    Reports shWshUnsigned SignableInput.verify (shWshSigner.session.signAll trKeys) ∧
      Reports shWshUnsigned SignableInput.checkData
        (shWshSigner.session.signAllUnchecked trKeys) := by
  have hnew : Signer.new shWshUnsigned = .ok shWshSigner := Signer.new_eq_ok.mpr rfl
  exact signAll_reports documented_sighashEngine hnew trKeys

end SigningSession

end RustPsbt
