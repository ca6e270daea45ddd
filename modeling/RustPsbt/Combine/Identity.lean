import RustPsbt.Combine.Spec

/-!
# The unique id of a PSBT

Main results:

- Theorem `Psbt.idTx_eq`: the transaction behind a PSBT id.
- Theorem `Psbt.idTx_eq_iff`: when two PSBTs have one id transaction.
- Theorem `Psbt.id_eq_iff`: PSBTs without a txid collision have equal ids exactly
  when they have equal id transactions.
-/

namespace RustPsbt

variable [BitcoinTypes]

/-- The transaction input that identifies an input. -/
def Input.idTxIn (self : Input) : TxIn where
  previousOutput := self.outPoint
  scriptSig := []
  sequence := .zero
  witness := []

namespace Psbt

/-- The id transaction of a PSBT with the given lock time. -/
def idTxAt (self : Psbt) (lockTime : LockTime) : Transaction where
  version := self.global.txVersion
  lockTime := lockTime
  input := self.inputs.map Input.idTxIn
  output := self.outputs.map Output.idTxOut

/-- The id transaction has the determined lock time. -/
theorem idTx_eq (self : Psbt) :
    self.idTx = (self.determineLockTime >>= fun l => .ok (self.idTxAt l)) := by
  unfold idTx unsignedTx idTxAt
  cases self.determineLockTime with
  | error e => rfl
  | ok l =>
      simp only [Result.ok_bind, List.map_map]
      rfl

/-- An id transaction fails to exist only as the lock time does. -/
theorem idTx_of_conflict {self : Psbt} (h : LockTimeConflict self.inputs) :
    self.idTx = .err .conflict := by
  rw [idTx_eq, determineLockTime_eq_err.mpr h]
  rfl

/-- Id transactions with lock times are equal field by field. -/
theorem idTxAt_eq_iff {self other : Psbt} {l m : LockTime} :
    self.idTxAt l = other.idTxAt m ↔
      self.global.txVersion = other.global.txVersion ∧ l = m ∧
        self.inputs.map Input.outPoint = other.inputs.map Input.outPoint ∧
        self.outputs.map Output.idTxOut = other.outputs.map Output.idTxOut := by
  have hinputs : self.inputs.map Input.idTxIn = other.inputs.map Input.idTxIn ↔
      self.inputs.map Input.outPoint = other.inputs.map Input.outPoint := by
    have hfactor : Input.idTxIn = (fun o => TxIn.mk o [] .zero []) ∘ Input.outPoint := rfl
    have hinjective : Function.Injective fun o : OutPoint => TxIn.mk o [] .zero [] := by
      intro o o' h
      exact (TxIn.mk.injEq ..▸ h).1
    rw [hfactor, ← List.map_map, ← List.map_map]
    exact (List.map_injective_iff.mpr hinjective).eq_iff
  simp only [idTxAt, Transaction.mk.injEq, hinputs]

section Txid

variable [TxidHash]

/-- The id transactions of two PSBTs. -/
def idTxs (self other : Psbt) : Set Transaction :=
  {tx | self.idTx = .ok tx ∨ other.idTx = .ok tx}

/-- Without a txid collision, equal ids are equal id transactions. -/
theorem id_eq_iff {self other : Psbt} (hinj : TxidInjectiveOn (idTxs self other)) :
    self.id = other.id ↔ self.idTx = other.idTx := by
  unfold Psbt.id
  constructor
  · intro h
    cases hs : self.idTx with
    | error e =>
        cases ho : other.idTx with
        | error e' => simpa [hs, ho] using h
        | ok t' => simp [hs, ho] at h
    | ok t =>
        cases ho : other.idTx with
        | error e' => simp [hs, ho] at h
        | ok t' =>
            simp only [hs, ho, Result.ok_bind, Except.ok.injEq] at h
            rw [hinj (Or.inl hs) (Or.inr ho) h]
  · intro h
    rw [h]

/-- The ids of two PSBTs are equal or their lock times both cannot be determined. -/
theorem id_eq_of_idTx_eq {self other : Psbt} (h : self.idTx = other.idTx) :
    self.id = other.id := by
  unfold Psbt.id
  rw [h]

/-- PSBTs with one id transaction have no txid collision. -/
theorem txidInjectiveOn_of_idTx_eq {self other : Psbt} (h : self.idTx = other.idTx) :
    TxidInjectiveOn (idTxs self other) := by
  intro t ht t' ht' _
  have hself : ∀ u ∈ idTxs self other, self.idTx = .ok u := by
    rintro u (hu | hu)
    · exact hu
    · rw [h, hu]
  exact Except.ok.inj ((hself t ht).symm.trans (hself t' ht'))

end Txid

/-- When two PSBTs have one id transaction, or none. -/
theorem idTx_eq_iff {self other : Psbt} :
    self.idTx = other.idTx ↔
      self.determineLockTime = other.determineLockTime ∧
        (¬LockTimeConflict self.inputs →
          self.global.txVersion = other.global.txVersion ∧
          self.inputs.map Input.outPoint = other.inputs.map Input.outPoint ∧
          self.outputs.map Output.idTxOut = other.outputs.map Output.idTxOut) := by
  rw [idTx_eq, idTx_eq]
  rcases determineLockTime_spec self with ⟨hs, hseq⟩ | ⟨hs, l, -, hseq⟩
  · rcases determineLockTime_spec other with ⟨ho, hoeq⟩ | ⟨ho, m, -, hoeq⟩
    · simp [hseq, hoeq, hs]
    · simp [hseq, hoeq]
  · rcases determineLockTime_spec other with ⟨ho, hoeq⟩ | ⟨ho, m, -, hoeq⟩
    · simp [hseq, hoeq]
    · simp only [hseq, hoeq, Result.ok_bind, Except.ok.injEq, idTxAt_eq_iff, hs,
        not_false_eq_true, forall_const]
      tauto

end Psbt

end RustPsbt
