import RustPsbt.Reference.Miniscript
import RustPsbt.Roles.Extractor

/-!
# The fee rate limit

The Extractor withholds a transaction whose fee rate exceeds a limit.  The fee goes
through checked sums, a saturating multiplication and a division.

Main results:

- Theorem `Psbt.fee_eq_ok`: the fee in unbounded arithmetic.
- Theorem `Extractor.limitExact_iff`: the limit is exact unless a saturated
  fee rate hides behind it.
-/

namespace RustPsbt

/-! ## Machine arithmetic -/

/-- A checked addition succeeds exactly without overflow. -/
theorem checkedAdd64_eq_some {a b c : UInt64} :
    checkedAdd64 a b = some c ↔ a.toNat + b.toNat < 2 ^ 64 ∧ c.toNat = a.toNat + b.toNat := by
  unfold checkedAdd64
  split
  · rename_i hlt
    have hadd : (a + b).toNat = a.toNat + b.toNat := by
      rw [UInt64.toNat_add, Nat.mod_eq_of_lt hlt]
    rw [Option.some_inj, ← UInt64.toNat_inj, hadd]
    exact ⟨fun h => ⟨hlt, h.symm⟩, fun h => h.2.symm⟩
  · rename_i hge
    exact ⟨fun h => absurd h (Option.some_ne_none c).symm, fun h => absurd h.1 hge⟩

/-- A saturating multiplication stops at the largest number. -/
theorem toNat_saturatingMul64 (a b : UInt64) :
    (saturatingMul64 a b).toNat = min (a.toNat * b.toNat) (2 ^ 64 - 1) := by
  unfold saturatingMul64
  split
  · rename_i hlt
    rw [UInt64.toNat_mul, Nat.mod_eq_of_lt hlt]
    omega
  · rename_i hge
    change 2 ^ 64 - 1 = _
    omega

section

variable [BitcoinTypes] [TxidHash] [Weights]

/-! ## The fee -/

/-- The value of funding outputs, in satoshis. -/
def inputValue (utxos : List TxOut) : Nat :=
  (utxos.map fun utxo => (toSat utxo.value).toNat).sum

/-- The value of the outputs, in satoshis. -/
def outputValue (outputs : List Output) : Nat :=
  (outputs.map fun output => (toSat output.amount).toNat).sum

namespace Psbt

/-- Every input is funded by the output at its position in the list, the values of
inputs and outputs do not overflow, and they leave the fee. -/
structure PaysFee (psbt : Psbt) (utxos : List TxOut) (fee : Nat) : Prop where
  funded : List.Forall₂ Input.FundedBy psbt.inputs utxos
  inputs_lt : inputValue utxos < 2 ^ 64
  outputs_lt : outputValue psbt.outputs < 2 ^ 64
  outputs_le : outputValue psbt.outputs ≤ inputValue utxos
  fee_eq : fee = inputValue utxos - outputValue psbt.outputs

/-- The sum over the inputs succeeds exactly for funded inputs without overflow. -/
theorem foldlM_inputValue_eq_ok {inputs : List Input} {a v : UInt64} :
    (inputs.foldlM (fun inputValue input => do
        let utxo ← input.fundingUtxo.mapErr FeeError.fundingUtxo
        Result.okOr .inputOverflow (checkedAdd64 inputValue (toSat utxo.value))) a) = .ok v ↔
      ∃ utxos, List.Forall₂ Input.FundedBy inputs utxos ∧
        a.toNat + inputValue utxos < 2 ^ 64 ∧ v.toNat = a.toNat + inputValue utxos := by
  induction inputs generalizing a with
  | nil =>
      have ha := a.toNat_lt
      simp only [List.foldlM_nil, Result.pure_eq_ok, Except.ok.injEq, List.forall₂_nil_left_iff]
      constructor
      · intro h
        exact ⟨[], rfl, by simpa [inputValue] using ha, by simp [inputValue, h]⟩
      · rintro ⟨utxos, hnil, _, hv⟩
        subst hnil
        exact UInt64.toNat_inj.mp (by simpa [inputValue] using hv.symm)
  | cons i inputs ih =>
      simp only [List.foldlM_cons, Result.bind_eq_ok, Result.mapErr_eq_ok, Result.okOr_eq_ok,
        Input.fundingUtxo_eq_ok, checkedAdd64_eq_some, List.forall₂_cons_left_iff, ih]
      constructor
      · rintro ⟨b, ⟨utxo, hutxo, _, hb⟩, utxos, hall, hlt, hv⟩
        refine ⟨utxo :: utxos, ⟨utxo, utxos, hutxo, hall, rfl⟩, ?_, ?_⟩
        · simp only [inputValue, List.map_cons, List.sum_cons] at hlt ⊢
          omega
        · simp only [inputValue, List.map_cons, List.sum_cons] at hv ⊢
          omega
      · rintro ⟨_, ⟨utxo, utxos, hutxo, hall, heq⟩, hlt, hv⟩
        subst heq
        simp only [inputValue, List.map_cons, List.sum_cons] at hlt hv
        have hfits : a.toNat + (toSat utxo.value).toNat < 2 ^ 64 := by omega
        have hadd : (a + toSat utxo.value).toNat = a.toNat + (toSat utxo.value).toNat := by
          rw [UInt64.toNat_add, Nat.mod_eq_of_lt hfits]
        refine ⟨a + toSat utxo.value, ⟨utxo, hutxo, hfits, hadd⟩, utxos, hall, ?_, ?_⟩
        · simp only [inputValue]
          omega
        · simp only [inputValue]
          omega

omit [TxidHash] in
/-- The sum over the outputs succeeds exactly without overflow. -/
theorem foldlM_outputValue_eq_ok {outputs : List Output} {a v : UInt64} :
    (outputs.foldlM (fun outputValue output =>
        Result.okOr FeeError.outputOverflow (checkedAdd64 outputValue (toSat output.amount))) a) =
        .ok v ↔
      a.toNat + outputValue outputs < 2 ^ 64 ∧ v.toNat = a.toNat + outputValue outputs := by
  induction outputs generalizing a with
  | nil =>
      have ha := a.toNat_lt
      simp only [List.foldlM_nil, Result.pure_eq_ok, Except.ok.injEq, ← UInt64.toNat_inj]
      simp only [outputValue, List.map_nil, List.sum_nil, Nat.add_zero]
      exact ⟨fun h => ⟨ha, h.symm⟩, fun h => h.2.symm⟩
  | cons o outputs ih =>
      simp only [List.foldlM_cons, Result.bind_eq_ok, Result.okOr_eq_ok, checkedAdd64_eq_some, ih]
      simp only [outputValue, List.map_cons, List.sum_cons]
      constructor
      · rintro ⟨b, ⟨_, hb⟩, hlt, hv⟩
        omega
      · rintro ⟨hlt, hv⟩
        have hfits : a.toNat + (toSat o.amount).toNat < 2 ^ 64 := by omega
        have hadd : (a + toSat o.amount).toNat = a.toNat + (toSat o.amount).toNat := by
          rw [UInt64.toNat_add, Nat.mod_eq_of_lt hfits]
        exact ⟨a + toSat o.amount, ⟨hfits, hadd⟩, by omega, by omega⟩

/-- A PSBT pays one fee. -/
theorem PaysFee.unique {psbt : Psbt} {utxos utxos' : List TxOut} {fee fee' : Nat}
    (h : PaysFee psbt utxos fee) (h' : PaysFee psbt utxos' fee') : fee = fee' := by
  have hunique : Relator.RightUnique Input.FundedBy := by
    intro i utxo utxo' hutxo hutxo'
    rw [← Input.fundingUtxo_eq_ok] at hutxo hutxo'
    exact Except.ok.inj (hutxo.symm.trans hutxo')
  have hutxos : utxos = utxos' := List.right_unique_forall₂' hunique h.funded h'.funded
  rw [h.fee_eq, h'.fee_eq, hutxos]

/-- The fee in unbounded arithmetic. -/
theorem fee_eq_ok {psbt : Psbt} {fee : UInt64} :
    psbt.fee = .ok fee ↔ ∃ utxos, PaysFee psbt utxos fee.toNat := by
  unfold Psbt.fee
  simp only [Result.bind_eq_ok, foldlM_inputValue_eq_ok, foldlM_outputValue_eq_ok]
  constructor
  · intro ⟨ins, ⟨utxos, hfunded, hins, hinsv⟩, outs, ⟨houts, houtsv⟩, hsub⟩
    simp only [UInt64.toNat_zero, Nat.zero_add] at hins hinsv houts houtsv
    split at hsub
    · cases hsub
    · rename_i hnot
      cases hsub
      have hle : outs.toNat ≤ ins.toNat := UInt64.le_iff_toNat_le.mp (UInt64.not_lt.mp hnot)
      refine ⟨utxos, hfunded, hins, houts, hinsv ▸ houtsv ▸ hle, ?_⟩
      rw [UInt64.toNat_sub_of_le _ _ (UInt64.le_iff_toNat_le.mpr hle), hinsv, houtsv]
  · intro ⟨utxos, h⟩
    have hins := UInt64.toNat_ofNat_of_lt' h.inputs_lt
    have houts := UInt64.toNat_ofNat_of_lt' h.outputs_lt
    have hle : UInt64.ofNat (outputValue psbt.outputs) ≤ UInt64.ofNat (inputValue utxos) := by
      rw [UInt64.le_iff_toNat_le, hins, houts]
      exact h.outputs_le
    refine ⟨.ofNat (inputValue utxos), ⟨utxos, h.funded, ?_, ?_⟩,
      .ofNat (outputValue psbt.outputs), ⟨?_, ?_⟩, ?_⟩
    · simpa using h.inputs_lt
    · simpa using hins
    · simpa using h.outputs_lt
    · simpa using houts
    · rw [if_neg (UInt64.not_lt.mpr hle), Except.ok.injEq, ← UInt64.toNat_inj,
        UInt64.toNat_sub_of_le _ _ hle, hins, houts, h.fee_eq]

end Psbt

/-! ## The limit -/

namespace Extractor

/-- The fee limit gives the extracted transaction exactly if the PSBT pays a fee whose
rate, in unbounded arithmetic, is within the limit. -/
def LimitExact (extractor : Extractor) (maxFeeRate : FeeRate) : Prop :=
  ∃ tx, extractor.extractTxUncheckedFeeRate = .ok tx ∧
    ∀ tx', extractor.extractTxWithFeeRateLimit maxFeeRate = .ok tx' ↔
      tx' = tx ∧ ∃ utxos fee, extractor.psbt.PaysFee utxos fee ∧
        fee * 1000 / (weight tx).toNat ≤ maxFeeRate.toNat

/-- The limit is below the fee rate, but not below the largest number that the
saturating multiplication leaves for it. -/
def HidesFeeRate (extractor : Extractor) (maxFeeRate : FeeRate) : Prop :=
  ∃ tx, extractor.extractTxUncheckedFeeRate = .ok tx ∧
    ∃ utxos fee, extractor.psbt.PaysFee utxos fee ∧ 2 ^ 64 ≤ fee * 1000 ∧
      maxFeeRate.toNat < fee * 1000 / (weight tx).toNat ∧
      (2 ^ 64 - 1) / (weight tx).toNat ≤ maxFeeRate.toNat

omit [BitcoinTypes] [TxidHash] [Weights] in
/-- The fee rate that the limit is compared with. -/
theorem toNat_feeRate (fee weight : UInt64) :
    (saturatingMul64 fee 1000 / weight).toNat =
      min (fee.toNat * 1000) (2 ^ 64 - 1) / weight.toNat := by
  rw [UInt64.toNat_div, toNat_saturatingMul64]
  rfl

/-- What a fee limit lets through. -/
theorem extractTxWithFeeRateLimit_eq_ok {extractor : Extractor} {tx tx' : Transaction}
    (htx : extractor.extractTxUncheckedFeeRate = .ok tx) (hweight : 0 < weight tx)
    {maxFeeRate : FeeRate} :
    extractor.extractTxWithFeeRateLimit maxFeeRate = .ok tx' ↔
      tx' = tx ∧ ∃ utxos fee, Psbt.PaysFee extractor.psbt utxos fee ∧
        min (fee * 1000) (2 ^ 64 - 1) / (weight tx).toNat ≤ maxFeeRate.toNat := by
  have hzero : weight tx ≠ 0 := (UInt64.ne_of_lt hweight).symm
  change extractor.internalExtractTx = .ok tx at htx
  unfold extractTxWithFeeRateLimit internalExtractTxWithFeeRateLimit
  simp only [Result.bind_eq_ok, Result.mapErr_eq_ok, htx, Except.ok.injEq, exists_eq_left',
    if_neg hzero]
  constructor
  · rintro ⟨fee, hfee, hrate⟩
    obtain ⟨utxos, hpays⟩ := Psbt.fee_eq_ok.mp hfee
    split at hrate
    · cases hrate
    · rename_i hnot
      cases hrate
      have hle := UInt64.le_iff_toNat_le.mp (UInt64.not_lt.mp hnot)
      rw [toNat_feeRate] at hle
      exact ⟨rfl, utxos, fee.toNat, hpays, hle⟩
  · rintro ⟨heq, utxos, fee, hpays, hle⟩
    subst heq
    have hfits : fee < 2 ^ 64 := by
      rw [hpays.fee_eq]
      have hlt := hpays.inputs_lt
      omega
    have hnat : (UInt64.ofNat fee).toNat = fee := UInt64.toNat_ofNat_of_lt' hfits
    refine ⟨.ofNat fee, Psbt.fee_eq_ok.mpr ⟨utxos, hnat.symm ▸ hpays⟩, if_neg ?_⟩
    rw [gt_iff_lt, UInt64.not_lt, UInt64.le_iff_toNat_le, toNat_feeRate, hnat]
    exact hle

/-- A limit that hides the fee rate is not exact. -/
theorem LimitExact.not_hidesFeeRate {extractor : Extractor} {maxFeeRate : FeeRate}
    (h : LimitExact extractor maxFeeRate)
    (hweight : ∀ tx, extractor.extractTxUncheckedFeeRate = .ok tx → 0 < weight tx) :
    ¬HidesFeeRate extractor maxFeeRate := by
  intro ⟨tx, htx, utxos, fee, hpays, hbig, hlt, hle⟩
  obtain ⟨tx', htx', hexact⟩ := h
  rw [htx, Except.ok.injEq] at htx'
  subst htx'
  have hmin : min (fee * 1000) (2 ^ 64 - 1) = 2 ^ 64 - 1 := by omega
  have hok : extractor.extractTxWithFeeRateLimit maxFeeRate = .ok tx :=
    (extractTxWithFeeRateLimit_eq_ok htx (hweight tx htx)).mpr
      ⟨rfl, utxos, fee, hpays, hmin.symm ▸ hle⟩
  obtain ⟨-, utxos', fee', hpays', hle'⟩ := (hexact tx).mp hok
  rw [hpays'.unique hpays] at hle'
  exact absurd hle' (not_le.mpr hlt)

/-- A fee limit is exact, unless the fee rate exceeds it and saturates to a number
that does not. -/
theorem limitExact_iff {psbt : Psbt} {extractor : Extractor}
    (hnew : new psbt = .ok extractor)
    (hweight : ∀ tx, extractor.extractTxUncheckedFeeRate = .ok tx → 0 < weight tx)
    (maxFeeRate : FeeRate) :
    LimitExact extractor maxFeeRate ↔ ¬HidesFeeRate extractor maxFeeRate := by
  obtain ⟨rfl, -, ⟨l, hl⟩, -⟩ := new_eq_ok.mp hnew
  obtain ⟨tx, htx, -⟩ := extractTxUncheckedFeeRate_spec hnew
    (Psbt.unsignedTx_eq_ok.mpr ⟨l, hl, rfl⟩)
  refine ⟨fun h => h.not_hidesFeeRate hweight, fun hhides => ⟨tx, htx, fun tx' => ?_⟩⟩
  rw [extractTxWithFeeRateLimit_eq_ok htx (hweight tx htx)]
  refine and_congr_right fun _ => ⟨fun ⟨utxos, fee, hpays, hle⟩ => ?_,
    fun ⟨utxos, fee, hpays, hle⟩ => ?_⟩
  · refine ⟨utxos, fee, hpays, ?_⟩
    by_cases hbig : 2 ^ 64 ≤ fee * 1000
    · have hmin : min (fee * 1000) (2 ^ 64 - 1) = 2 ^ 64 - 1 := by omega
      rw [hmin] at hle
      by_contra hlt
      exact hhides ⟨tx, htx, utxos, fee, hpays, hbig, not_le.mp hlt, hle⟩
    · have hmin : min (fee * 1000) (2 ^ 64 - 1) = fee * 1000 := by omega
      rwa [hmin] at hle
  · exact ⟨utxos, fee, hpays, (Nat.div_le_div_right (Nat.min_le_left _ _)).trans hle⟩

end Extractor

end

/-! ## Reference runs -/

namespace Extractor

section

attribute [local instance] Reference.types Reference.txidHash Reference.weights

open Reference

/-- A pay-to-witness-pubkey-hash output of this many satoshis. -/
def richUtxo (value : UInt64) : TxOut where
  value := value
  scriptPubkey := ScriptBuf.newP2wpkh (digest20 (Reference.publicKeyBytes (publicKey 1)))

/-- The finalized PSBT whose only input spends this output. -/
def richPsbt (value : UInt64) : Psbt :=
  Reference.psbt
    [{ input 0 with
        witnessUtxo := some (richUtxo value)
        finalScriptWitness := some [[0x30, 0x01], 2 :: List.replicate 32 1] }]
    [output [0x51]]

/-- The Extractor accepts the PSBT, whatever its input is worth. -/
theorem new_richPsbt (value : UInt64) : new (richPsbt value) = .ok ⟨richPsbt value⟩ :=
  new_eq_ok.mpr ⟨rfl, rfl, ⟨.zero, rfl⟩, List.forall_mem_singleton.mpr rfl⟩

/-- The extracted transaction weighs something. -/
theorem weight_pos_of_all {extractor : Extractor}
    (h : extractor.extractTxUncheckedFeeRate.toOption.all (fun tx => 0 < weight tx) = true)
    (tx : Transaction) (htx : extractor.extractTxUncheckedFeeRate = .ok tx) :
    0 < weight tx := by
  simpa [htx] using h

theorem limitExact_iff_wpkh :
    LimitExact ⟨richPsbt 2000⟩ DEFAULT_MAX_FEE_RATE ↔
      ¬HidesFeeRate ⟨richPsbt 2000⟩ DEFAULT_MAX_FEE_RATE :=
  limitExact_iff (new_richPsbt 2000)
    (weight_pos_of_all (by decide +kernel)) DEFAULT_MAX_FEE_RATE

/-- A fee of nearly all the satoshis that fit into a number passes a limit of a
thousandth of its rate. -/
theorem not_limitExact_richPsbt :
    ¬∀ (psbt : Psbt) (extractor : Extractor), new psbt = .ok extractor →
      ∀ maxFeeRate, LimitExact extractor maxFeeRate := by
  intro h
  let extractor : Extractor := ⟨richPsbt 0xffffffffffffffff⟩
  have hweight : extractor.extractTxUncheckedFeeRate.toOption.map weight = some 284 := by
    decide +kernel
  obtain ⟨tx, htx, hwu⟩ := Option.map_eq_some_iff.mp hweight
  rw [Result.toOption_eq_some] at htx
  refine (h _ extractor (new_richPsbt _) (0xffffffffffffffff / 284)).not_hidesFeeRate
    (weight_pos_of_all (by decide +kernel)) ⟨tx, htx, ?_⟩
  rw [hwu]
  have hpays : extractor.psbt.PaysFee [richUtxo 0xffffffffffffffff]
      (0xffffffffffffffff - 1000) :=
    ⟨.cons (Input.fundingUtxo_eq_ok.mp rfl) .nil, by decide +kernel, by decide +kernel,
      by decide +kernel, by decide +kernel⟩
  exact ⟨_, _, hpays, by decide +kernel, by decide +kernel, by decide +kernel⟩

end

end Extractor

end RustPsbt
