import RustPsbt.Combine.Spec
import RustPsbt.Roles.Extractor
import RustPsbt.Reference.Psbt

/-!
# Combining what can be extracted

A finalized PSBT is combined with a copy that arrives late.  The copy has no say in what is
set already, but it fills in what is not: a sequence, a script signature or a witness, a lock
time requirement, and the silent payment data of an output without a script.

Main results:

- Theorem `Extractor.extracts_combine_iff`: when the combination extracts to the same
  transaction.
-/

namespace RustPsbt

section Generic

variable [BitcoinTypes]

/-- The copy fills in nothing that the signed transaction input is made of. -/
structure Input.FillsNothing (i j : Input) : Prop where
  sequence : i.sequence = none → j.sequence.getD .max = .max
  scriptSig : i.finalScriptSig = none → j.finalScriptSig.getD [] = []
  witness : i.finalScriptWitness = none → j.finalScriptWitness.getD [] = []

/-- The copy does not make a silent payment output of an output without a script. -/
def Output.FillsNothing (o o' : Output) : Prop :=
  o.scriptPubkey.isEmpty → o'.spV0Info = none

namespace Psbt

/-- The late copy leaves the lock time as it is and fills in nothing. -/
structure FillsNothing (a b : Psbt) : Prop where
  lockTime : ∀ l, a.LockTimeIs l → LockTimeIs { a with inputs := a.mergedInputs b } l
  inputs : Zipped Input.FillsNothing a.inputs b.inputs
  outputs : Zipped Output.FillsNothing a.outputs b.outputs

end Psbt

/-! ## Signed transaction inputs -/

namespace Input

/-- The signed form of a finalized input. -/
def signedForm (self : Input) : TxIn where
  previousOutput := self.outPoint
  scriptSig := self.finalScriptSig.getD []
  sequence := self.sequence.getD .max
  witness := self.finalScriptWitness.getD []

theorem signedTxIn_eq {ε : Type} {i : Input} (h : i.isFinalized) :
    (i.signedTxIn : Result ε TxIn) = .ok i.signedForm := by
  unfold signedTxIn
  rw [h]
  rfl

theorem isFinalized_merge {i : Input} (h : i.isFinalized) (j : Input) :
    (i.merge j).isFinalized := by
  unfold isFinalized merge at *
  cases hsig : i.finalScriptSig <;> cases hwit : i.finalScriptWitness <;> simp_all

omit [BitcoinTypes] in
/-- What is filled in for a missing value is the default. -/
theorem getD_or_eq_iff {α : Type} {a b : Option α} {d : α} :
    (a.or b).getD d = a.getD d ↔ (a = none → b.getD d = d) := by
  cases a <;> simp

/-- A merged input has the same signed form exactly when nothing is filled in. -/
theorem signedForm_merge_iff {i j : Input} :
    (i.merge j).signedForm = i.signedForm ↔ FillsNothing i j := by
  have hform : (i.merge j).signedForm = i.signedForm ↔
      ((i.finalScriptSig.or j.finalScriptSig).getD [] = i.finalScriptSig.getD [] ∧
        (i.sequence.or j.sequence).getD .max = i.sequence.getD .max ∧
          (i.finalScriptWitness.or j.finalScriptWitness).getD [] =
            i.finalScriptWitness.getD []) := by
    simp [signedForm, merge, outPoint]
  rw [hform, getD_or_eq_iff, getD_or_eq_iff, getD_or_eq_iff]
  constructor
  · intro h
    exact ⟨h.2.1, h.1, h.2.2⟩
  · intro h
    exact ⟨h.scriptSig, h.sequence, h.witness⟩

end Input

omit [BitcoinTypes] in
/-- Merged lists have the images of the left one exactly when each pair keeps its image. -/
theorem map_zipMerge_eq_iff {α β γ : Type} {merge : α → β → α} {f : α → γ} {l : List α}
    {r : List β} : (zipMerge merge l r).map f = l.map f ↔
      Zipped (fun a b => f (merge a b) = f a) l r := by
  induction l generalizing r with
  | nil => cases r <;> simp [zipMerge]
  | cons a l ih =>
      cases r with
      | nil => simp [zipMerge]
      | cons b r => simp [zipMerge, zipped_cons, ih]

namespace Output

/-- A merged output has a script exactly when it is not made a silent payment output. -/
theorem uncomputed_merge_iff {o o' : Output} (h : o.uncomputed = false) :
    (o.merge o').uncomputed = false ↔ FillsNothing o o' := by
  unfold uncomputed merge FillsNothing at *
  cases hempty : o.scriptPubkey.isEmpty with
  | false => simp
  | true =>
      rw [hempty, Bool.and_true] at h
      cases hinfo : o.spV0Info with
      | none => simp
      | some info => simp [hinfo] at h

end Output

/-! ## Extracted transactions -/

namespace Extractor

/-- The signed transaction of a PSBT at a lock time. -/
def signedTxAt (p : Psbt) (l : LockTime) : Transaction where
  version := p.global.txVersion
  lockTime := l
  input := p.inputs.map Input.signedForm
  output := p.outputs.map Output.txOut

theorem mapM_signedTxIn {ε : Type} {inputs : List Input} (h : ∀ i ∈ inputs, i.isFinalized) :
    inputs.mapM Input.signedTxIn = (.ok (inputs.map Input.signedForm) : Result ε _) := by
  induction inputs with
  | nil => rfl
  | cons i inputs ih =>
      rw [List.forall_mem_cons] at h
      rw [List.mapM_cons, Input.signedTxIn_eq h.1, ih h.2]
      rfl

/-- What is extracted of a PSBT, and when. -/
theorem extracts_iff {p : Psbt} {tx : Transaction} :
    (∃ e, new p = .ok e ∧ e.extractTxUncheckedFeeRate = .ok tx) ↔
      p.isFinalized ∧ (∀ o ∈ p.outputs, o.uncomputed = false) ∧
        ∃ l, p.determineLockTime = .ok l ∧ tx = signedTxAt p l := by
  have htx : p.isFinalized → (∀ o ∈ p.outputs, o.uncomputed = false) → ∀ l,
      p.determineLockTime = .ok l →
        (⟨p⟩ : Extractor).extractTxUncheckedFeeRate = .ok (signedTxAt p l) := by
    intro hfinal hcomputed l hl
    have hall : ∀ i ∈ p.inputs, i.isFinalized := List.all_eq_true.mp hfinal
    unfold extractTxUncheckedFeeRate internalExtractTx
    simp only [hfinal, hl, uncomputedSilentPaymentOutput_eq_none.mpr hcomputed,
      mapM_signedTxIn hall, Bool.not_true, Bool.false_eq_true, if_false, Result.mapErr_ok,
      Result.ok_bind]
    rfl
  constructor
  · rintro ⟨e, hnew, htx'⟩
    obtain ⟨rfl, hfinal, ⟨l, hl⟩, hcomputed⟩ := new_eq_ok.mp hnew
    have heq := htx hfinal hcomputed l hl
    rw [htx'] at heq
    exact ⟨hfinal, hcomputed, l, hl, Except.ok.inj heq⟩
  · rintro ⟨hfinal, hcomputed, l, hl, rfl⟩
    exact ⟨⟨p⟩, new_eq_ok.mpr ⟨rfl, hfinal, ⟨l, hl⟩, hcomputed⟩, htx hfinal hcomputed l hl⟩

/-- A finalized PSBT combined with a late copy extracts to the same transaction exactly when
the copy leaves the lock time as it is and fills in nothing. -/
theorem extracts_combine_iff {a b c : Psbt} {tx : Transaction} (hc : a.combineWith b = .ok c)
    (htx : ∃ e, new a = .ok e ∧ e.extractTxUncheckedFeeRate = .ok tx) :
    (∃ e, new c = .ok e ∧ e.extractTxUncheckedFeeRate = .ok tx) ↔ a.FillsNothing b := by
  obtain ⟨hfinal, hcomputed, l, hl, rfl⟩ := extracts_iff.mp htx
  obtain ⟨xpubs, -, -, -, -, hconflict, rfl⟩ := Psbt.combineWith_eq_ok.mp hc
  have hlIs := (Psbt.determineLockTime_eq_ok.mp hl).2
  have hall : ∀ i ∈ a.inputs, i.isFinalized := List.all_eq_true.mp hfinal
  have hfinal' : (a.merge b xpubs).isFinalized := by
    refine List.all_eq_true.mpr (forall_mem_zipMerge hall fun k i j hi _ => ?_)
    exact Input.isFinalized_merge (hall i (List.mem_of_getElem? hi)) j
  have houtputs : (a.merge b xpubs).outputs.map Output.txOut = a.outputs.map Output.txOut :=
    map_zipMerge_eq_iff.mpr fun _ _ _ _ _ => rfl
  have hlock : ∀ l', (a.merge b xpubs).determineLockTime = .ok l' ↔
      Psbt.LockTimeIs { a with inputs := a.mergedInputs b } l' := by
    intro l'
    rw [Psbt.determineLockTime_eq_ok]
    constructor
    · intro h
      exact Psbt.LockTimeIs.perm (p := a.merge b xpubs) rfl (List.Perm.refl _) h.2
    · intro h
      refine ⟨hconflict, ?_⟩
      exact Psbt.LockTimeIs.perm (p := { a with inputs := a.mergedInputs b }) rfl
        (List.Perm.refl _) h
  rw [extracts_iff]
  constructor
  · rintro ⟨-, hcomputed', l', hl', hsame⟩
    have hlocks : l = l' := congrArg Transaction.lockTime hsame
    subst hlocks
    refine ⟨fun l' hl'' => ?_, ?_, ?_⟩
    · rw [hl''.unique hlIs]
      exact (hlock l).mp hl'
    · have hinputs : (a.merge b xpubs).inputs.map Input.signedForm =
          a.inputs.map Input.signedForm := (congrArg Transaction.input hsame).symm
      intro k i j hi hj
      exact Input.signedForm_merge_iff.mp (map_zipMerge_eq_iff.mp hinputs k i j hi hj)
    · intro k o o' ho ho'
      refine (Output.uncomputed_merge_iff (hcomputed o (List.mem_of_getElem? ho))).mp ?_
      exact hcomputed' _ (List.mem_of_getElem? (getElem?_zipMerge_of_some ho ho'))
  · intro hfills
    refine ⟨hfinal', forall_mem_zipMerge hcomputed fun k o o' ho ho' => ?_, l,
      (hlock l).mpr (hfills.lockTime l hlIs), ?_⟩
    · exact (Output.uncomputed_merge_iff (hcomputed o (List.mem_of_getElem? ho))).mpr
        (hfills.outputs k o o' ho ho')
    · have hinputs : (a.merge b xpubs).inputs.map Input.signedForm =
          a.inputs.map Input.signedForm := map_zipMerge_eq_iff.mpr fun k i j hi hj =>
        Input.signedForm_merge_iff.mpr (hfills.inputs k i j hi hj)
      unfold signedTxAt
      rw [hinputs, houtputs]
      rfl

end Extractor

end Generic

/-! ## Reference copies -/

namespace Extractor

attribute [local instance] Reference.types

/-- A PSBT that is finalized by a witness, and by a script signature if there is one. -/
def witnessed (scriptSig : Option ScriptBuf) : Psbt :=
  Reference.psbt
    [{ Reference.input 0 with
        finalScriptSig := scriptSig
        finalScriptWitness := some [[0x01]] }]
    [Reference.output [0x51]]

/-- A late copy that is not finalized changes nothing, and one that has a script signature
does. -/
theorem extracts_combine_iff_witnessed :
    (∃ c, (witnessed none).combineWith Reference.unsigned = .ok c ∧ ∃ e, new c = .ok e ∧
      e.extractTxUncheckedFeeRate = .ok (signedTxAt (witnessed none) .zero)) ∧
    ∃ c, (witnessed none).combineWith (witnessed (some [0x51])) = .ok c ∧ ¬∃ e, new c = .ok e ∧
      e.extractTxUncheckedFeeRate = .ok (signedTxAt (witnessed none) .zero) := by
  have hlock : (witnessed none).determineLockTime = .ok .zero := rfl
  have htx := extracts_iff.mpr ⟨rfl, by decide, _, hlock, rfl⟩
  have hcopy : ((witnessed none).combineWith Reference.unsigned).toOption.isSome := by
    decide +kernel
  have hchanged : ((witnessed none).combineWith (witnessed (some [0x51]))).toOption.isSome := by
    decide +kernel
  obtain ⟨c, hc⟩ := Option.isSome_iff_exists.mp hcopy
  obtain ⟨d, hd⟩ := Option.isSome_iff_exists.mp hchanged
  refine ⟨⟨c, Result.toOption_eq_some.mp hc, ?_⟩, d, Result.toOption_eq_some.mp hd, ?_⟩
  · refine (extracts_combine_iff (Result.toOption_eq_some.mp hc) htx).mpr ⟨fun l hl => ?_, ?_, ?_⟩
    · rw [hl.unique (Psbt.determineLockTime_eq_ok.mp hlock).2]
      exact (Psbt.determineLockTime_eq_ok.mp rfl).2
    · exact zipped_cons.mpr ⟨⟨fun _ => rfl, fun _ => rfl, fun h => by cases h⟩, zipped_nil_left⟩
    · exact zipped_cons.mpr ⟨fun _ => rfl, zipped_nil_left⟩
  · rw [extracts_combine_iff (Result.toOption_eq_some.mp hd) htx]
    intro hfills
    have hscript := (hfills.inputs 0 _ _ rfl rfl).scriptSig rfl
    cases hscript

end Extractor

end RustPsbt
