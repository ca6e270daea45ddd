import RustPsbt.Combine.Identity
import RustPsbt.Reference.Psbt

/-!
# When a combination keeps the id

Main results:

- Theorem `Psbt.LockTimeIs.merge`: the lock time of two PSBTs that agree on it is
  the lock time of their combination, unless heights take over.
- Theorem `Psbt.combineWith_id_iff`: updated copies of one transaction combine to
  a copy of it exactly when their raw scripts agree and heights do not take over.
-/

namespace RustPsbt

section

variable [BitcoinTypes]

namespace Input

@[simp]
theorem merge_minTime (a b : Input) : (a.merge b).minTime = a.minTime.or b.minTime :=
  rfl

@[simp]
theorem merge_minHeight (a b : Input) : (a.merge b).minHeight = a.minHeight.or b.minHeight :=
  rfl

@[simp]
theorem merge_outPoint (a b : Input) : (a.merge b).outPoint = a.outPoint :=
  rfl

/-- The lock time requirements of an input. -/
def lockReq (self : Input) : Option Time × Option RequiredHeightLockTime :=
  (self.minTime, self.minHeight)

/-- Merging with an input that requires nothing keeps the requirements. -/
theorem lockReq_merge_left {a b : Input} (h : ¬b.HasLock) :
    (a.merge b).lockReq = a.lockReq := by
  simp only [HasLock, not_or, Option.not_isSome_iff_eq_none] at h
  simp [lockReq, h.1, h.2]

theorem lockReq_merge_right {a b : Input} (h : ¬a.HasLock) :
    (a.merge b).lockReq = b.lockReq := by
  simp only [HasLock, not_or, Option.not_isSome_iff_eq_none] at h
  simp [lockReq, h.1, h.2]

end Input

namespace Output

/-- Outputs with equal raw outputs and equal id outputs merge to that id output. -/
theorem merge_idTxOut {a b : Output} (hraw : a.txOut = b.txOut)
    (hid : a.idTxOut = b.idTxOut) : (a.merge b).idTxOut = a.idTxOut := by
  have hamount : a.amount = b.amount := congrArg TxOut.value hraw
  cases ha : a.spV0Info with
  | some info => simp [idTxOut, merge, ha]
  | none =>
      cases hb : b.spV0Info with
      | some info =>
          rw [hid]
          simp [idTxOut, merge, ha, hb, hamount]
      | none => simp [idTxOut, merge, ha, hb, txOut]

/-- The raw output is the amount and the raw script. -/
theorem txOut_eq_of_idTxOut {a b : Output} (hid : a.idTxOut = b.idTxOut)
    (hscript : a.scriptPubkey = b.scriptPubkey) : a.txOut = b.txOut := by
  have hvalue : ∀ o : Output, o.idTxOut.value = o.amount := by
    intro o
    unfold idTxOut
    split <;> rfl
  have hamount : a.amount = b.amount := by
    rw [← hvalue a, ← hvalue b, hid]
  simp [txOut, hamount, hscript]

end Output

namespace Psbt

/-! ## The lock time of a combination -/

/-- The rules exclude conflicting requirements. -/
theorem LockTimeIs.not_conflict {self : Psbt} {l : LockTime} (h : self.LockTimeIs l) :
    ¬LockTimeConflict self.inputs := by
  rintro ⟨⟨i, hi, htime⟩, j, hj, hheight⟩
  cases h with
  | fallback hnone => exact hnone i hi htime.hasLock
  | height _ hall _ => exact hall i hi htime
  | time _ hall _ => exact hall j hj hheight

/-- The lock time is determined exactly by the rules. -/
theorem determineLockTime_eq_ok_iff {self : Psbt} {l : LockTime} :
    self.determineLockTime = .ok l ↔ self.LockTimeIs l := by
  rw [determineLockTime_eq_ok]
  exact ⟨fun h => h.2, fun h => ⟨h.not_conflict, h⟩⟩

/-- Requirements decide the lock time, and without them the fallback. -/
theorem LockTimeIs.congr {p q : Psbt} {l : LockTime}
    (hreq : p.inputs.map Input.lockReq = q.inputs.map Input.lockReq)
    (hfallback : (∀ i ∈ p.inputs, ¬i.HasLock) →
      p.global.fallbackLockTime = q.global.fallbackLockTime)
    (h : p.LockTimeIs l) : q.LockTimeIs l := by
  have hto : ∀ i ∈ p.inputs, ∃ j ∈ q.inputs, j.lockReq = i.lockReq := by
    intro i hi
    have hmem := List.mem_map_of_mem (f := Input.lockReq) hi
    rw [hreq] at hmem
    exact List.mem_map.mp hmem
  have hfrom : ∀ j ∈ q.inputs, ∃ i ∈ p.inputs, i.lockReq = j.lockReq := by
    intro j hj
    have hmem := List.mem_map_of_mem (f := Input.lockReq) hj
    rw [← hreq] at hmem
    exact List.mem_map.mp hmem
  have htime : ∀ {i j : Input}, i.lockReq = j.lockReq → i.minTime = j.minTime :=
    fun h => congrArg Prod.fst h
  have hheight : ∀ {i j : Input}, i.lockReq = j.lockReq → i.minHeight = j.minHeight :=
    fun h => congrArg Prod.snd h
  cases h with
  | fallback hnone =>
      rw [hfallback hnone]
      refine .fallback fun j hj => ?_
      obtain ⟨i, hi, heq⟩ := hfrom j hj
      simpa [Input.HasLock, htime heq, hheight heq] using hnone i hi
  | height hlock hall hmax =>
      refine .height ?_ ?_ ⟨?_, ?_⟩
      · obtain ⟨i, hi, hhas⟩ := hlock
        obtain ⟨j, hj, heq⟩ := hto i hi
        exact ⟨j, hj, by simpa [Input.HasLock, htime heq, hheight heq] using hhas⟩
      · intro j hj
        obtain ⟨i, hi, heq⟩ := hfrom j hj
        simpa [Input.TimeOnly, htime heq, hheight heq] using hall i hi
      · obtain ⟨i, hi, hh⟩ := hmax.1
        obtain ⟨j, hj, heq⟩ := hto i hi
        exact ⟨j, hj, (hheight heq).trans hh⟩
      · rintro x ⟨j, hj, hx⟩
        obtain ⟨i, hi, heq⟩ := hfrom j hj
        exact hmax.2 ⟨i, hi, (hheight heq).trans hx⟩
  | time hlock hall hmax =>
      refine .time ?_ ?_ ⟨?_, ?_⟩
      · obtain ⟨i, hi, hhas⟩ := hlock
        obtain ⟨j, hj, heq⟩ := hto i hi
        exact ⟨j, hj, by simpa [Input.TimeOnly, htime heq, hheight heq] using hhas⟩
      · intro j hj
        obtain ⟨i, hi, heq⟩ := hfrom j hj
        simpa [Input.HeightOnly, htime heq, hheight heq] using hall i hi
      · obtain ⟨i, hi, ht⟩ := hmax.1
        obtain ⟨j, hj, heq⟩ := hto i hi
        exact ⟨j, hj, (htime heq).trans ht⟩
      · rintro x ⟨j, hj, hx⟩
        obtain ⟨i, hi, heq⟩ := hfrom j hj
        exact hmax.2 ⟨i, hi, (htime heq).trans hx⟩

/-- Some pair of inputs requires a lock time and accepts no height. -/
def PairWithoutHeight (a b : Psbt) : Prop :=
  ∃ (i : Nat) (x y : Input), a.inputs[i]? = some x ∧ b.inputs[i]? = some y ∧
    (x.HasLock ∨ y.HasLock) ∧ x.minHeight = none ∧ y.minHeight = none

/-- The inputs of a combination are the merged pairs. -/
theorem mem_mergedInputs {a b : Psbt} (hlen : a.inputs.length = b.inputs.length) {m : Input} :
    m ∈ a.mergedInputs b ↔
      ∃ (i : Nat) (x y : Input), a.inputs[i]? = some x ∧ b.inputs[i]? = some y ∧
        m = x.merge y :=
  mem_zipMerge_iff hlen

/-- Where the right list requires nothing, the combination has the requirements
of the left one. -/
theorem map_lockReq_mergedInputs_left {a b : Psbt} (hlen : a.inputs.length = b.inputs.length)
    (hnone : ∀ i ∈ b.inputs, ¬i.HasLock) :
    a.inputs.map Input.lockReq = (a.mergedInputs b).map Input.lockReq := by
  refine (zipped_eq_iff_map_eq (by simp [mergedInputs])).mp ?_
  intro i x m hx hm
  have hi : i < b.inputs.length := hlen ▸ (List.getElem?_eq_some_iff.mp hx).1
  have hy := List.getElem?_eq_getElem hi
  rw [mergedInputs, getElem?_zipMerge_of_some hx hy] at hm
  cases hm
  exact (Input.lockReq_merge_left (hnone _ (List.getElem_mem hi))).symm

/-- Where the left list requires nothing, the combination has the requirements
of the right one. -/
theorem map_lockReq_mergedInputs_right {a b : Psbt} (hlen : a.inputs.length = b.inputs.length)
    (hnone : ∀ i ∈ a.inputs, ¬i.HasLock) :
    b.inputs.map Input.lockReq = (a.mergedInputs b).map Input.lockReq := by
  refine (zipped_eq_iff_map_eq (by simp [mergedInputs, hlen])).mp ?_
  intro i y m hy hm
  have hi : i < a.inputs.length := hlen ▸ (List.getElem?_eq_some_iff.mp hy).1
  have hx := List.getElem?_eq_getElem hi
  rw [mergedInputs, getElem?_zipMerge_of_some hx hy] at hm
  cases hm
  exact (Input.lockReq_merge_right (hnone _ (List.getElem_mem hi))).symm

/-- The greatest requirement that two PSBTs agree on is that of the combination. -/
theorem isGreatest_merged {α : Type} [Preorder α] (field : Input → Option α)
    (hmerge : ∀ x y, field (x.merge y) = (field x).or (field y)) {a b : Psbt} {l : α}
    (hlen : a.inputs.length = b.inputs.length)
    (hamax : IsGreatest {v | ∃ i ∈ a.inputs, field i = some v} l)
    (hbmax : IsGreatest {v | ∃ i ∈ b.inputs, field i = some v} l) :
    IsGreatest {v | ∃ i ∈ a.mergedInputs b, field i = some v} l := by
  constructor
  · obtain ⟨x, hx, hl⟩ := hamax.1
    obtain ⟨i, y, hxi, hyi⟩ := exists_partner hlen hx
    exact ⟨_, (mem_mergedInputs hlen).mpr ⟨i, x, y, hxi, hyi, rfl⟩, by simp [hmerge, hl]⟩
  · rintro z ⟨m, hm, hz⟩
    obtain ⟨i, x, y, hx, hy, rfl⟩ := (mem_mergedInputs hlen).mp hm
    rw [hmerge, Option.or_eq_some_iff] at hz
    rcases hz with hz | ⟨-, hz⟩
    · exact hamax.2 ⟨x, List.mem_of_getElem? hx, hz⟩
    · exact hbmax.2 ⟨y, List.mem_of_getElem? hy, hz⟩

/-- Merged inputs accept a time only where one half does. -/
theorem timeOnly_of_merge {x y : Input} (h : (x.merge y).TimeOnly) :
    x.TimeOnly ∨ y.TimeOnly := by
  obtain ⟨htime, hheight⟩ := h
  simp only [Input.merge_minTime, Input.merge_minHeight, Option.or_eq_none_iff,
    Option.isSome_or, Bool.or_eq_true] at htime hheight
  exact htime.imp (fun ht => ⟨ht, hheight.1⟩) fun ht => ⟨ht, hheight.2⟩

/-- Merged inputs accept a height only where one half does. -/
theorem heightOnly_of_merge {x y : Input} (h : (x.merge y).HeightOnly) :
    x.HeightOnly ∨ y.HeightOnly := by
  obtain ⟨hheight, htime⟩ := h
  simp only [Input.merge_minTime, Input.merge_minHeight, Option.or_eq_none_iff,
    Option.isSome_or, Bool.or_eq_true] at htime hheight
  exact hheight.imp (fun hh => ⟨hh, htime.1⟩) fun hh => ⟨hh, htime.2⟩

/-- A merged input requires a lock time where its left half does. -/
theorem hasLock_merge_left {x y : Input} (h : x.HasLock) : (x.merge y).HasLock := by
  rcases h with h | h
  · exact Or.inl (by simp [h])
  · exact Or.inr (by simp [h])

/-- Heights both PSBTs settle on are the heights of the combination. -/
theorem LockTimeIs.merge_height {a b c : Psbt} {h : RequiredHeightLockTime}
    (hlen : a.inputs.length = b.inputs.length) (hc : c.inputs = a.mergedInputs b)
    (halock : ∃ i ∈ a.inputs, i.HasLock)
    (haall : ∀ i ∈ a.inputs, ¬i.TimeOnly) (hball : ∀ i ∈ b.inputs, ¬i.TimeOnly)
    (hamax : IsGreatest (heights a.inputs) h) (hbmax : IsGreatest (heights b.inputs) h) :
    c.LockTimeIs (.blocks h.height) := by
  refine .height ?_ ?_ ?_
  · obtain ⟨x, hx, hhas⟩ := halock
    obtain ⟨i, y, hxi, hyi⟩ := exists_partner hlen hx
    rw [hc]
    exact ⟨_, (mem_mergedInputs hlen).mpr ⟨i, x, y, hxi, hyi, rfl⟩, hasLock_merge_left hhas⟩
  · intro m hm htime
    rw [hc] at hm
    obtain ⟨i, x, y, hx, hy, rfl⟩ := (mem_mergedInputs hlen).mp hm
    rcases timeOnly_of_merge htime with htime | htime
    · exact haall x (List.mem_of_getElem? hx) htime
    · exact hball y (List.mem_of_getElem? hy) htime
  · rw [hc]
    exact isGreatest_merged Input.minHeight (fun _ _ => Input.merge_minHeight ..) hlen hamax hbmax

/-- Times both PSBTs settle on are the times of the combination, if some pair
accepts no height. -/
theorem LockTimeIs.merge_time {a b c : Psbt} {t : Time}
    (hlen : a.inputs.length = b.inputs.length) (hc : c.inputs = a.mergedInputs b)
    (hpair : PairWithoutHeight a b)
    (haall : ∀ i ∈ a.inputs, ¬i.HeightOnly) (hball : ∀ i ∈ b.inputs, ¬i.HeightOnly)
    (hamax : IsGreatest (times a.inputs) t) (hbmax : IsGreatest (times b.inputs) t) :
    c.LockTimeIs (.seconds t) := by
  refine .time ?_ ?_ ?_
  · obtain ⟨i, x, y, hx, hy, hlock, hxh, hyh⟩ := hpair
    rw [hc]
    refine ⟨_, (mem_mergedInputs hlen).mpr ⟨i, x, y, hx, hy, rfl⟩, ?_, by simp [hxh, hyh]⟩
    simpa [Input.HasLock, hxh, hyh] using hlock
  · intro m hm hheight
    rw [hc] at hm
    obtain ⟨i, x, y, hx, hy, rfl⟩ := (mem_mergedInputs hlen).mp hm
    rcases heightOnly_of_merge hheight with hheight | hheight
    · exact haall x (List.mem_of_getElem? hx) hheight
    · exact hball y (List.mem_of_getElem? hy) hheight
  · rw [hc]
    exact isGreatest_merged Input.minTime (fun _ _ => Input.merge_minTime ..) hlen hamax hbmax

/-- PSBTs that agree on a lock time keep it when combined, unless it is a time
and every pair of inputs with requirements accepts a height. -/
theorem LockTimeIs.merge {a b c : Psbt} {l : LockTime}
    (hlen : a.inputs.length = b.inputs.length) (hc : c.inputs = a.mergedInputs b)
    (hfallback : c.global.fallbackLockTime = a.global.fallbackLockTime)
    (hpair : (∃ i ∈ a.inputs, i.TimeOnly) → PairWithoutHeight a b)
    (ha : a.LockTimeIs l) (hb : b.LockTimeIs l) : c.LockTimeIs l := by
  by_cases hbnone : ∀ i ∈ b.inputs, ¬i.HasLock
  · refine ha.congr ?_ fun _ => hfallback.symm
    rw [hc]
    exact map_lockReq_mergedInputs_left hlen hbnone
  · by_cases hanone : ∀ i ∈ a.inputs, ¬i.HasLock
    · refine hb.congr ?_ fun h => absurd h hbnone
      rw [hc]
      exact map_lockReq_mergedInputs_right hlen hanone
    · generalize hm : l = m at hb
      cases ha with
      | fallback hnone => exact absurd hnone hanone
      | height halock haall hamax =>
          cases hb with
          | fallback hnone => exact absurd hnone hbnone
          | time _ _ _ => cases hm
          | height _ hball hbmax =>
              cases RequiredHeightLockTime.height_injective (LockTime.blocks.inj hm)
              exact .merge_height hlen hc halock haall hball hamax hbmax
      | time hatime haall hamax =>
          cases hb with
          | fallback hnone => exact absurd hnone hbnone
          | height _ _ _ => cases hm
          | time _ hball hbmax =>
              cases LockTime.seconds.inj hm
              exact .merge_time hlen hc (hpair hatime) haall hball hamax hbmax

/-! ## The id of a combination -/

/-- The id transactions of two PSBTs and of their combination. -/
def combineIdTxs (a b : Psbt) : Set Transaction :=
  {tx | a.idTx = .ok tx ∨ b.idTx = .ok tx ∨ ∃ c, a.combineWith b = .ok c ∧ c.idTx = .ok tx}

/-- The inputs on which a combination succeeds and keeps the id: the lock time is
determined, raw scripts agree, and a lock time that is a time is not replaced by
heights. -/
structure IdCondition (a b : Psbt) : Prop where
  lockTime : ¬LockTimeConflict a.inputs
  scripts : a.outputs.map Output.scriptPubkey = b.outputs.map Output.scriptPubkey
  noHeights : (∃ i ∈ a.inputs, i.TimeOnly) → PairWithoutHeight a b

/-- PSBTs with one id transaction and the condition combine to that transaction. -/
theorem exists_combineWith_of_condition {a b : Psbt}
    (hversion : a.global.version = b.global.version)
    (hin : a.inputs.length = b.inputs.length) (hout : a.outputs.length = b.outputs.length)
    (hxpubs : Global.XpubsConsistent a.global b.global)
    (hid : a.idTx = b.idTx) (hcond : IdCondition a b) :
    ∃ c, a.combineWith b = .ok c ∧ c.idTx = a.idTx := by
  obtain ⟨hlock, hrest⟩ := idTx_eq_iff.mp hid
  obtain ⟨htx, houtPoints, hidOuts⟩ := hrest hcond.lockTime
  obtain ⟨xpubs, hmerged⟩ := Global.combineXpubs_isOk.mpr hxpubs
  have hsameIn : SameInputs a b := (zipped_eq_iff_map_eq hin).mpr houtPoints
  have hidZip := (zipped_eq_iff_map_eq hout).mpr hidOuts
  have hscriptZip := (zipped_eq_iff_map_eq hout).mpr hcond.scripts
  have hsameOut : SameOutputs a b := fun j x y hx hy =>
    Output.txOut_eq_of_idTxOut (hidZip j x y hx hy) (hscriptZip j x y hx hy)
  have hc : (a.merge b xpubs).idTx = a.idTx := by
    obtain ⟨l, hl⟩ : ∃ l, a.determineLockTime = .ok l := by
      rcases determineLockTime_spec a with ⟨hconflict, -⟩ | ⟨-, l, -, hl⟩
      · exact absurd hconflict hcond.lockTime
      · exact ⟨l, hl⟩
    have hcl : (a.merge b xpubs).determineLockTime = .ok l :=
      determineLockTime_eq_ok_iff.mpr
        (.merge hin rfl rfl hcond.noHeights (determineLockTime_eq_ok_iff.mp hl)
          (determineLockTime_eq_ok_iff.mp (hlock ▸ hl)))
    rw [idTx_eq, idTx_eq, hcl, hl]
    simp only [Result.ok_bind, Except.ok.injEq]
    refine idTxAt_eq_iff.mpr ⟨rfl, rfl, ?_, ?_⟩
    · refine ((zipped_eq_iff_map_eq (by simp [merge, mergedInputs])).mp ?_).symm
      intro i x m hx hm
      have hy := List.getElem?_eq_getElem (hin ▸ (List.getElem?_eq_some_iff.mp hx).1)
      rw [merge, mergedInputs, getElem?_zipMerge_of_some hx hy] at hm
      cases hm
      rfl
    · refine ((zipped_eq_iff_map_eq (by simp [merge, mergedOutputs])).mp ?_).symm
      intro j x m hx hm
      have hy := List.getElem?_eq_getElem (hout ▸ (List.getElem?_eq_some_iff.mp hx).1)
      rw [merge, mergedOutputs, getElem?_zipMerge_of_some hx hy] at hm
      cases hm
      exact (Output.merge_idTxOut (hsameOut j x _ hx hy) (hidZip j x _ hx hy)).symm
  refine ⟨a.merge b xpubs, combineWith_eq_ok.mpr ⟨xpubs, hmerged, ⟨hversion, htx⟩, hsameIn,
    hsameOut, ?_, rfl⟩, hc⟩
  intro hconflict
  have herr : (a.merge b xpubs).idTx = .err .conflict := idTx_of_conflict hconflict
  rcases determineLockTime_spec a with ⟨haconflict, -⟩ | ⟨-, l, -, hl⟩
  · exact hcond.lockTime haconflict
  · rw [hc, idTx_eq, hl] at herr
    cases herr

/-- A combination with the id transaction of its left half satisfies the
condition. -/
theorem condition_of_combineWith {a b c : Psbt}
    (hin : a.inputs.length = b.inputs.length) (hout : a.outputs.length = b.outputs.length)
    (hok : a.combineWith b = .ok c) (hid : c.idTx = a.idTx) : IdCondition a b := by
  obtain ⟨xpubs, -, -, -, hsameOut, hconflict, rfl⟩ := combineWith_eq_ok.mp hok
  obtain ⟨hlock, -⟩ := idTx_eq_iff.mp hid
  have ha : ¬LockTimeConflict a.inputs := by
    rw [← determineLockTime_eq_err, ← hlock, determineLockTime_eq_err]
    exact hconflict
  refine ⟨ha, ?_, ?_⟩
  · refine (zipped_eq_iff_map_eq hout).mp fun j x y hx hy => ?_
    exact congrArg TxOut.scriptPubkey (hsameOut j x y hx hy)
  · rintro ⟨i, hi, htime⟩
    obtain ⟨l, hl⟩ : ∃ l, a.determineLockTime = .ok l := by
      rcases determineLockTime_spec a with ⟨hconflict, -⟩ | ⟨-, l, -, hl⟩
      · exact absurd hconflict ha
      · exact ⟨l, hl⟩
    have hmerged := determineLockTime_eq_ok_iff.mp (hlock.trans hl)
    generalize l = m at hl hmerged
    cases determineLockTime_eq_ok_iff.mp hl with
    | fallback hnone => exact absurd htime.hasLock (hnone i hi)
    | height _ hall _ => exact absurd htime (hall i hi)
    | time _ _ hamax =>
        generalize hkind : LockTime.seconds _ = k at hmerged
        cases hmerged with
        | fallback hnone =>
            -- the left input that accepts a time only leaves a requirement behind
            obtain ⟨p, y, hx, hy⟩ := exists_partner hin hi
            exact absurd (hasLock_merge_left htime.hasLock)
              (hnone _ ((mem_mergedInputs hin).mpr ⟨p, i, y, hx, hy, rfl⟩))
        | height _ _ _ => cases hkind
        | time hmtime _ _ =>
            obtain ⟨m, hm, hmt⟩ := hmtime
            obtain ⟨p, x, y, hx, hy, rfl⟩ := (mem_mergedInputs hin).mp hm
            have hheights := hmt.2
            simp only [Input.merge_minHeight, Option.or_eq_none_iff] at hheights
            exact ⟨p, x, y, hx, hy,
              (timeOnly_of_merge hmt).imp Input.TimeOnly.hasLock Input.TimeOnly.hasLock,
              hheights.1, hheights.2⟩

/-- Copies of one transaction combine to a PSBT with their id exactly under the
condition. -/
theorem combineWith_id_iff [TxidHash] {a b : Psbt}
    (hversion : a.global.version = b.global.version)
    (hin : a.inputs.length = b.inputs.length) (hout : a.outputs.length = b.outputs.length)
    (hxpubs : Global.XpubsConsistent a.global b.global) (hid : a.id = b.id)
    (hinj : TxidInjectiveOn (combineIdTxs a b)) :
    (∃ c, a.combineWith b = .ok c ∧ c.id = a.id) ↔ IdCondition a b := by
  constructor
  · rintro ⟨c, hok, hcid⟩
    refine condition_of_combineWith hin hout hok ((id_eq_iff (hinj.mono ?_)).mp hcid)
    rintro tx (htx | htx)
    · exact Or.inr (Or.inr ⟨c, hok, htx⟩)
    · exact Or.inl htx
  · intro hcond
    have hidTx : a.idTx = b.idTx := by
      refine (id_eq_iff (hinj.mono ?_)).mp hid
      rintro tx (htx | htx)
      · exact Or.inl htx
      · exact Or.inr (Or.inl htx)
    obtain ⟨c, hok, hc⟩ :=
      exists_combineWith_of_condition hversion hin hout hxpubs hidTx hcond
    exact ⟨c, hok, id_eq_of_idTx_eq hc⟩

end Psbt

end

/-! ## Reference runs -/

namespace Psbt

attribute [local instance] Reference.types Reference.txidHash

theorem combineWith_id_signed :
    (∃ c, Reference.unsigned.combineWith Reference.signed = .ok c ∧
        c.id = Reference.unsigned.id) ↔
      IdCondition Reference.unsigned Reference.signed := by
  refine combineWith_id_iff rfl rfl rfl ?_ rfl ?_
  · intro x s t hs
    simp [Reference.unsigned, Reference.psbt, Global.new] at hs
  · have hall : ∀ tx ∈ combineIdTxs Reference.unsigned Reference.signed,
        Reference.unsigned.idTx = .ok tx := by
      rintro tx (htx | htx | ⟨c, hc, htx⟩)
      · exact htx
      · exact htx
      · cases hc
        exact htx
    intro t ht t' ht' _
    exact Except.ok.inj ((hall t ht).symm.trans (hall t' ht'))

/-- An input that accepts the time and the optional height. -/
def timeLocked (vout : Vout) (height : Option RequiredHeightLockTime) : Input :=
  { Reference.input vout with
    minTime := some Reference.time
    minHeight := height }

/-- The height of the reference runs. -/
def height700000 : RequiredHeightLockTime :=
  Reference.height

/-- One party accepts a height for the second input. -/
def heightForSecond : Psbt :=
  Reference.psbt [timeLocked 0 none, timeLocked 1 (some height700000)]
    [Reference.output [0x51]]

/-- Another party accepts a height for the first input. -/
def heightForFirst : Psbt :=
  Reference.psbt [timeLocked 0 (some height700000), timeLocked 1 none]
    [Reference.output [0x51]]

theorem heightForSecond_consistent : heightForSecond.Consistent := by
  constructor
  all_goals
    first
    | rfl
    | simp [heightForSecond, Reference.psbt, timeLocked, Reference.input, Input.new,
        Reference.output, Output.new, Output.validate, SpPaired]

theorem heightForFirst_consistent : heightForFirst.Consistent := by
  constructor
  all_goals
    first
    | rfl
    | simp [heightForFirst, Reference.psbt, timeLocked, Reference.input, Input.new,
        Reference.output, Output.new, Output.validate, SpPaired]

/-- The id is lost when heights from different parties complete each other. -/
theorem combineWith_changes_id :
    ¬∀ a b : Psbt, a.Consistent → b.Consistent → a.global.version = b.global.version →
      a.inputs.length = b.inputs.length → a.outputs.length = b.outputs.length →
      Global.XpubsConsistent a.global b.global → a.id = b.id →
      TxidInjectiveOn (combineIdTxs a b) →
      ∃ c, a.combineWith b = .ok c ∧ c.id = a.id := by
  intro h
  have hmerged : ∃ c t, heightForSecond.combineWith heightForFirst = .ok c ∧
      c.idTx = .ok t ∧ c.id ≠ heightForSecond.id := by
    refine ⟨_, _, rfl, rfl, ?_⟩
    decide +kernel
  obtain ⟨c, t, hc, ht, hne⟩ := hmerged
  obtain ⟨c', hc', hid⟩ := h heightForSecond heightForFirst heightForSecond_consistent
    heightForFirst_consistent rfl rfl rfl (by
      intro x s t hs
      simp [heightForSecond, Reference.psbt, Global.new] at hs) rfl (by
    have hid : heightForSecond.idTx = heightForFirst.idTx := rfl
    have hall : ∀ tx ∈ combineIdTxs heightForSecond heightForFirst,
        heightForSecond.idTx = .ok tx ∨ c.idTx = .ok tx := by
      rintro tx (htx | htx | ⟨c', hc', htx⟩)
      · exact Or.inl htx
      · exact Or.inl (hid.trans htx)
      · rw [hc] at hc'
        cases hc'
        exact Or.inr htx
    intro u hu v hv huv
    rcases hall u hu with hu | hu <;> rcases hall v hv with hv | hv
    · exact Except.ok.inj (hu.symm.trans hv)
    · exact absurd (by simp [Psbt.id, hu, hv, huv]) hne
    · exact absurd (by simp [Psbt.id, hu, hv, huv]) hne
    · exact Except.ok.inj (hu.symm.trans hv))
  rw [hc] at hc'
  cases hc'
  exact hne hid

end Psbt

end RustPsbt
