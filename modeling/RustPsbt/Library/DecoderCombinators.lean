import RustPsbt.Library.PushDecoder

/-!
# Composite push decoders

Decoders inside other decoders: errors are wrapped and the value is checked
(`wrap`), the end is handed on (`closing`), the symbols are tallied (`tallied`), that is
counted (`metered`) or drawn from a budget (`budgeted`), or a prefix announces what follows (`prefixed`).  A composite decoder
is lawful when its parts are, and its meaning is the composition of theirs.

Main results:

- Theorems `PushDecoder.Lawful.wrap`, `PushDecoder.Lawful.metered`,
  `PushDecoder.LawfulOn.budgeted`, `PushDecoder.Lawful.prefixed`: the combinations are chunk
  independent.
- Theorems `PushDecoder.meaning_wrap`, `PushDecoder.meaning_metered`,
  `PushDecoder.meaning_prefixed`: what they mean.
-/

namespace RustPsbt
namespace PushDecoder

variable {β ε ε' ε₁ α α' γ δ : Type}

/-! ## Changing errors and values -/

/-- A decoder inside another: `g` wraps the errors of a push, `g'` those of the end,
and `k` makes the outer value of the inner one. -/
def wrap (D : PushDecoder β ε α) (g g' : ε → ε') (k : α → Result ε' α') :
    PushDecoder β ε' α' where
  State := D.State
  init := D.init
  push s b := (D.push s b).mapErr g
  finish s := (D.finish s).mapErr g' >>= k
  readLimit := D.readLimit

/-- A decoder inside another that only wraps its errors. -/
def mapErr (D : PushDecoder β ε α) (g : ε → ε') : PushDecoder β ε' α :=
  D.wrap g g .ok

section Wrap

variable {D : PushDecoder β ε α} {g g' : ε → ε'} {k : α → Result ε' α'}

theorem LawfulOn.wrap {W : D.State → Prop} (h : D.LawfulOn W) :
    (D.wrap g g' k).LawfulOn W where
  push {s} hs a := by
    have hat := h.push hs a
    refine ⟨?_, ?_, ?_⟩
    · intro s' r hpush
      rcases hat.wait (Result.mapErr_eq_ok.mp hpush) with ⟨hr, hs', hres⟩
      refine ⟨hr, hs', fun b => ?_⟩
      simpa [PushDecoder.wrap] using hres b
    · intro s' r hpush
      rcases hat.done (Result.mapErr_eq_ok.mp hpush) with ⟨c, hc, hall⟩
      exact ⟨c, hc, fun b => Result.mapErr_eq_ok.mpr (hall b)⟩
    · intro hpush b
      simp only [PushDecoder.wrap, Result.toOption_mapErr] at hpush ⊢
      exact hat.fail hpush b
  idle hs := Result.mapErr_eq_ok.mpr (h.idle hs)
  early hs := (Result.isErr_mapErr (h.early hs)).bind

theorem Lawful.wrap (h : D.Lawful) : (D.wrap g g' k).Lawful := by
  rcases h with ⟨W, h⟩
  exact ⟨W, h.wrap⟩

theorem Strict.wrap (h : D.Strict) : (D.wrap g g' k).Strict where
  idle := Result.mapErr_eq_ok.mpr h.idle
  early := (Result.isErr_mapErr h.early).bind

theorem meaning_wrap : (D.wrap g g' k).meaning = D.meaning.andThen fun a => .ofResult (k a) := by
  funext b
  simp only [meaning, run, runFrom, PushDecoder.wrap, Parser.andThen, Parser.ofResult,
    Result.erase_bind, Result.erase_mapErr, bind_assoc, Result.erase_ok, Result.ok_bind]

theorem accepts_wrap {b r : List β} {a' : α'} :
    (D.wrap g g' k).Accepts b a' r ↔ ∃ a, D.Accepts b a r ∧ k a = .ok a' := by
  rw [← meaning_eq_ok, meaning_wrap, Parser.andThen_eq_ok]
  simp only [Parser.ofResult_eq_ok, meaning_eq_ok]
  constructor
  · rintro ⟨a, m, hacc, hk, rfl⟩
    exact ⟨a, hacc, hk⟩
  · rintro ⟨a, hacc, hk⟩
    exact ⟨a, r, hacc, hk, rfl⟩

theorem Safe.wrap (h : D.Safe) (hk : ∀ a, (k a).Returns) : (D.wrap g g' k).Safe := by
  rw [safe_iff] at h ⊢
  intro b
  rw [meaning_wrap]
  exact Parser.Returns.andThen (h b) fun a r _ => Parser.returns_ofResult.mpr (hk a)

end Wrap

theorem Lawful.mapErr {D : PushDecoder β ε α} {g : ε → ε'} (h : D.Lawful) :
    (D.mapErr g).Lawful :=
  h.wrap

theorem meaning_mapErr {D : PushDecoder β ε α} {g : ε → ε'} :
    (D.mapErr g).meaning = D.meaning := by
  funext b
  rw [mapErr, meaning_wrap]
  unfold Parser.andThen Parser.ofResult
  cases D.meaning b with
  | ok x => rfl
  | error e => rfl

@[simp]
theorem accepts_mapErr {D : PushDecoder β ε α} {g : ε → ε'} {b r : List β} {a : α} :
    (D.mapErr g).Accepts b a r ↔ D.Accepts b a r := by
  rw [← meaning_eq_ok, meaning_mapErr, meaning_eq_ok]

theorem Safe.mapErr {D : PushDecoder β ε α} {g : ε → ε'} (h : D.Safe) :
    (D.mapErr g).Safe :=
  h.wrap fun _ => trivial

/-! ## Closing differently -/

/-- A decoder whose end is handed to `close`. -/
def closing (D : PushDecoder β ε α) (close : Result ε α → Result ε α') :
    PushDecoder β ε α' where
  State := D.State
  init := D.init
  push := D.push
  finish s := close (D.finish s)
  readLimit := D.readLimit

/-- `close` fails where the end of the decoder fails. -/
structure Closes (D : PushDecoder β ε α) (close : Result ε α → Result ε α') : Prop where
  err : ∀ e, (close (.err e)).IsErr
  /-- It passes panics on, unless the decoder never panics. -/
  fault : D.Safe ∨ close .panicked = .panicked ∧ close .diverged = .diverged

section Closing

variable {D : PushDecoder β ε α} {close : Result ε α → Result ε α'}

theorem LawfulOn.closing {W : D.State → Prop} (h : D.LawfulOn W) (hclose : D.Closes close) :
    (D.closing close).LawfulOn W where
  push hs a := ⟨(h.push hs a).wait, (h.push hs a).done, (h.push hs a).fail⟩
  idle hs := h.idle hs
  early {s} hs := by
    rcases h.early hs with ⟨e, he⟩
    change (close (D.finish s)).IsErr
    rw [he]
    exact hclose.err e

theorem Strict.closing (h : D.Strict) (hclose : D.Closes close) : (D.closing close).Strict where
  idle := h.idle
  early := by
    rcases h.early with ⟨e, he⟩
    change (close (D.finish D.init)).IsErr
    rw [he]
    exact hclose.err e

/-- Closing a decoder differently changes what is made of its value. -/
theorem meaning_closing (hclose : D.Closes close) :
    (D.closing close).meaning = D.meaning.andThen fun a => .ofResult (close (.ok a)) := by
  funext b
  change (D.push D.init b >>= fun x => close (D.finish x.1) >>= fun a => .ok (a, x.2.1)).erase =
    (D.run b).erase >>= fun x => (close (.ok x.1)).erase >>= fun a => .ok (a, x.2)
  unfold run runFrom
  cases hpush : D.push D.init b with
  | error e => cases e <;> rfl
  | ok x =>
      cases hfin : D.finish x.1 with
      | ok a =>
          simp only [Result.ok_bind, hfin, Result.erase_bind, Result.erase_ok]
      | error f =>
          have hfail : (close (.error f)).erase = Result.erase (.error f : Result ε α') := by
            cases f with
            | error e =>
                rcases hclose.err e with ⟨e', he'⟩
                rw [he']
                rfl
            | panic =>
                rcases hclose.fault with hsafe | ⟨hpanic, _⟩
                · have hrun := hsafe b
                  rw [run, runFrom, hpush, Result.ok_bind, hfin] at hrun
                  exact absurd hrun id
                · rw [hpanic]
            | diverge =>
                rcases hclose.fault with hsafe | ⟨_, hdiverge⟩
                · have hrun := hsafe b
                  rw [run, runFrom, hpush, Result.ok_bind, hfin] at hrun
                  exact absurd hrun id
                · rw [hdiverge]
          simp only [Result.ok_bind, hfin, Result.erase_bind, hfail]
          cases f <;> rfl

theorem accepts_closing (hclose : D.Closes close) {b r : List β} {a' : α'} :
    (D.closing close).Accepts b a' r ↔ ∃ a, D.Accepts b a r ∧ close (.ok a) = .ok a' := by
  rw [← meaning_eq_ok, meaning_closing hclose, Parser.andThen_eq_ok]
  simp only [Parser.ofResult_eq_ok, meaning_eq_ok]
  constructor
  · rintro ⟨a, m, hacc, hk, rfl⟩
    exact ⟨a, hacc, hk⟩
  · rintro ⟨a, hacc, hk⟩
    exact ⟨a, r, hacc, hk, rfl⟩

theorem returns_closing (hclose : D.Closes close) (hreturns : ∀ a, (close (.ok a)).Returns)
    {b : List β} : ((D.closing close).meaning b).Returns ↔ (D.meaning b).Returns := by
  rw [meaning_closing hclose, Parser.returns_andThen]
  constructor
  · intro h
    exact h.1
  · intro h
    exact ⟨h, fun _ => Parser.returns_ofResult.mpr (hreturns _)⟩

end Closing

/-! ## Counting symbols -/

/-- A decoder that keeps a count of what it has taken: `tally` enters the symbols of a push,
and `close` checks the count at the end. -/
def tallied {σ : Type} (D : PushDecoder β ε α) (tally : σ → Nat → Result ε σ) (start : σ)
    (close : α → σ → Result ε α') : PushDecoder β ε α' where
  State := D.State × σ
  init := (D.init, start)
  push s b := do
    let x ← D.push s.1 b
    let n ← tally s.2 (b.length - x.2.1.length)
    .ok ((x.1, n), x.2)
  finish s := do
    let a ← D.finish s.1
    close a s.2
  readLimit s := D.readLimit s.1

/-- Entering symbols in two steps is entering them at once. -/
structure Tallies {σ : Type} (tally : σ → Nat → Result ε σ) : Prop where
  zero : ∀ n, tally n 0 = .ok n
  add : ∀ n j k, (tally n (j + k)).toOption =
    (tally n j).toOption.bind fun m => (tally m k).toOption

section Tallied

variable {σ : Type} {D : PushDecoder β ε α} {tally : σ → Nat → Result ε σ} {start : σ}
  {close : α → σ → Result ε α'}

theorem push_tallied_eq_ok {s : D.State} {n : σ} {b r : List β} {st : Status}
    {t : D.State × σ} :
    (D.tallied tally start close).push (s, n) b = .ok (t, r, st) ↔
      ∃ s' m, D.push s b = .ok (s', r, st) ∧ tally n (b.length - r.length) = .ok m ∧
        t = (s', m) := by
  simp only [tallied]
  rw [Result.bind_eq_ok]
  constructor
  · rintro ⟨⟨s', r', st'⟩, hpush, hrest⟩
    rcases Result.bind_eq_ok.mp hrest with ⟨m, hm, heq⟩
    cases heq
    exact ⟨s', m, hpush, hm, rfl⟩
  · rintro ⟨s', m, hpush, hm, rfl⟩
    refine ⟨(s', r, st), hpush, ?_⟩
    rw [hm]
    rfl

theorem toOption_push_tallied {s : D.State} {n : σ} {b : List β} :
    ((D.tallied tally start close).push (s, n) b).toOption =
      (D.push s b).toOption.bind fun x =>
        (tally n (b.length - x.2.1.length)).toOption.map fun m => ((x.1, m), x.2) := by
  simp only [tallied, Result.toOption_bind]
  cases D.push s b with
  | error e => rfl
  | ok x =>
      simp only [Result.toOption_ok, Option.bind_some]
      cases tally n (b.length - x.2.1.length) <;> rfl

theorem lawfulAt_tallied {W : D.State → Prop} (h : D.LawfulOn W) (htally : Tallies tally)
    {s : D.State} {n : σ} (hs : D.Live W s) (a : List β) :
    (D.tallied tally start close).LawfulAt (fun t => W t.1) (s, n) a := by
  refine ⟨?_, ?_, ?_⟩
  · intro t r hpush
    rcases push_tallied_eq_ok.mp hpush with ⟨s', m, hinner, hm, rfl⟩
    rcases h.wait hs hinner with ⟨rfl, hs'⟩
    refine ⟨rfl, hs', fun b => ?_⟩
    rw [toOption_push_tallied, toOption_push_tallied, h.resume hs hinner b]
    cases hnext : D.push s' b with
    | error e => rfl
    | ok x =>
        rcases x with ⟨s'', r, st⟩
        have hle : r.length ≤ b.length := (h.rest_isSuffix (.inr hs') hnext).length_le
        have hcount : (a ++ b).length - r.length =
            (a.length - ([] : List β).length) + (b.length - r.length) := by
          simp only [List.length_append, List.length_nil]
          omega
        simp only [Result.toOption_ok, Option.bind_some]
        rw [hcount, htally.add, hm]
        rfl
  · intro t r hpush
    rcases push_tallied_eq_ok.mp hpush with ⟨s', m, hinner, hm, rfl⟩
    rcases h.done hs hinner with ⟨c, rfl, hc⟩
    have htaken : ∀ b : List β, (c ++ b).length - b.length = c.length := by simp
    refine ⟨c, rfl, fun b => push_tallied_eq_ok.mpr ⟨s', m, hc b, ?_, rfl⟩⟩
    rw [htaken] at hm ⊢
    exact hm
  · intro hpush b
    rw [toOption_push_tallied] at hpush ⊢
    cases hinner : D.push s a with
    | error e =>
        rw [h.fail hs (by rw [hinner]; rfl) b]
        rfl
    | ok x =>
        rcases x with ⟨s', r, st⟩
        rw [hinner] at hpush
        have hover : (tally n (a.length - r.length)).toOption = none :=
          Option.map_eq_none_iff.mp hpush
        cases st with
        | needsMore =>
            rcases h.wait hs hinner with ⟨rfl, hs'⟩
            rw [h.resume hs hinner b]
            cases hnext : D.push s' b with
            | error e => rfl
            | ok y =>
                rcases y with ⟨s'', r', st'⟩
                have hle := (h.rest_isSuffix (.inr hs') hnext).length_le
                have hcount : (a ++ b).length - r'.length =
                    (a.length - ([] : List β).length) + (b.length - r'.length) := by
                  simp only [List.length_append, List.length_nil]
                  omega
                simp only [Result.toOption_ok, Option.bind_some]
                rw [hcount, htally.add, hover]
                rfl
        | ready =>
            rcases h.done hs hinner with ⟨c, rfl, hc⟩
            have htaken : ∀ b : List β, (c ++ b).length - b.length = c.length := by simp
            rw [htaken] at hover
            rw [List.append_assoc, hc (r ++ b)]
            simp only [Result.toOption_ok, Option.bind_some]
            rw [htaken, hover]
            rfl

theorem LawfulOn.tallied {W : D.State → Prop} (h : D.LawfulOn W) (htally : Tallies tally) :
    (D.tallied tally start close).LawfulOn fun s => W s.1 where
  push {s} hs a := by
    rcases s with ⟨s, n⟩
    apply lawfulAt_tallied h htally
    rcases hs with heq | hs
    · cases heq
      exact .inl rfl
    · exact .inr hs
  idle {s} hs := push_tallied_eq_ok.mpr ⟨s.1, s.2, h.idle hs, htally.zero s.2, rfl⟩
  early {s} hs := (h.early hs).bind

end Tallied

/-- A decoder that must consume exactly `declared` symbols. -/
def metered (D : PushDecoder β ε α) (wrong : Nat → Nat → ε) (declared : Nat) :
    PushDecoder β ε α :=
  D.tallied (fun n taken => .ok (n + taken)) 0 fun a n =>
    if n ≠ declared then .err (wrong declared n) else .ok a

section Metered

variable {D : PushDecoder β ε α} {wrong : Nat → Nat → ε} {declared : Nat}

theorem push_metered_eq_ok {s : D.State} {n : Nat} {b r : List β} {st : Status}
    {t : D.State × Nat} :
    (D.metered wrong declared).push (s, n) b = .ok (t, r, st) ↔
      ∃ s', D.push s b = .ok (s', r, st) ∧ t = (s', n + (b.length - r.length)) := by
  refine push_tallied_eq_ok.trans (exists_congr fun s' => ?_)
  constructor
  · rintro ⟨m, hpush, hm, rfl⟩
    cases hm
    exact ⟨hpush, rfl⟩
  · rintro ⟨hpush, rfl⟩
    exact ⟨_, hpush, rfl, rfl⟩

theorem LawfulOn.metered {W : D.State → Prop} (h : D.LawfulOn W) :
    (D.metered wrong declared).LawfulOn fun s => W s.1 :=
  h.tallied {
    zero := fun _ => rfl
    add := fun n j k => congrArg some (Nat.add_assoc n j k).symm }

theorem Lawful.metered (h : D.Lawful) : (D.metered wrong declared).Lawful := by
  rcases h with ⟨W, h⟩
  exact ⟨_, h.metered⟩

theorem meaning_metered :
    (D.metered wrong declared).meaning = D.meaning.exactly declared := by
  funext b
  simp only [meaning, run, runFrom, PushDecoder.metered, PushDecoder.tallied, Parser.exactly,
    Result.erase_bind, bind_assoc, Result.ok_bind, Result.erase_ok]
  congr 1
  funext x
  congr 1
  funext a
  by_cases hlen : b.length - x.2.1.length = declared
  · simp [hlen]
  · simp [hlen]

theorem decodes_metered {w : List β} {a : α} :
    (D.metered wrong declared).Decodes w a ↔ D.Decodes w a ∧ w.length = declared := by
  rw [Decodes, ← meaning_eq_ok, meaning_metered, Parser.exactly_eq_ok, meaning_eq_ok]
  rfl

theorem Safe.metered (h : D.Safe) : (D.metered wrong declared).Safe := by
  rw [safe_iff] at h ⊢
  intro b
  rw [meaning_metered]
  exact Parser.Returns.exactly (h b)

end Metered

/-! ## Drawing on a budget -/

/-- A decoder that draws on a budget: what it takes is subtracted, and taking more than
is left panics. -/
def budgeted (D : PushDecoder β ε α) (budget : Nat) : PushDecoder β ε (α × Nat) :=
  D.tallied Result.checkedSub budget fun a n => .ok (a, n)

section Budgeted

variable {D : PushDecoder β ε α} {budget : Nat}

theorem push_budgeted_eq_ok {s : D.State} {n : Nat} {b r : List β} {st : Status}
    {t : D.State × Nat} :
    (D.budgeted budget).push (s, n) b = .ok (t, r, st) ↔
      ∃ s', D.push s b = .ok (s', r, st) ∧ b.length - r.length ≤ n ∧
        t = (s', n - (b.length - r.length)) := by
  refine push_tallied_eq_ok.trans (exists_congr fun s' => ?_)
  constructor
  · rintro ⟨m, hpush, hm, rfl⟩
    rcases Result.checkedSub_eq_ok.mp hm with ⟨hle, rfl⟩
    exact ⟨hpush, hle, rfl⟩
  · rintro ⟨hpush, hle, rfl⟩
    exact ⟨_, hpush, Result.checkedSub_of_le hle, rfl⟩

/-- A budget can be drawn on in two steps. -/
theorem tallies_checkedSub : Tallies (Result.checkedSub (ε := ε)) where
  zero _ := rfl
  add n j k := by
    unfold Result.checkedSub
    by_cases hj : j ≤ n
    · by_cases hk : k ≤ n - j
      · have hle : j + k ≤ n := by omega
        simp [hj, hk, hle, Nat.sub_sub]
      · have hlt : ¬j + k ≤ n := by omega
        simp [hj, hk, hlt]
    · have hlt : ¬j + k ≤ n := by omega
      simp [hj, hlt]

theorem LawfulOn.budgeted {W : D.State → Prop} (h : D.LawfulOn W) :
    (D.budgeted budget).LawfulOn fun s => W s.1 :=
  h.tallied tallies_checkedSub

theorem Strict.budgeted (h : D.Strict) : (D.budgeted budget).Strict where
  idle := push_budgeted_eq_ok.mpr ⟨D.init, h.idle, Nat.zero_le _, rfl⟩
  early := h.early.bind

theorem accepts_budgeted {b r : List β} {a : α} {m : Nat} :
    (D.budgeted budget).Accepts b (a, m) r ↔
      D.Accepts b a r ∧ b.length - r.length ≤ budget ∧ m = budget - (b.length - r.length) := by
  unfold Accepts run runFrom
  rw [Result.bind_eq_ok, Result.bind_eq_ok]
  constructor
  · rintro ⟨⟨t, r', st⟩, hpush, hrest⟩
    rcases push_budgeted_eq_ok.mp hpush with ⟨s', hinner, hle, rfl⟩
    rcases Result.bind_eq_ok.mp hrest with ⟨x, hfin, heq⟩
    rcases Result.bind_eq_ok.mp hfin with ⟨a', ha', hx⟩
    cases hx
    cases heq
    refine ⟨⟨_, hinner, ?_⟩, hle, rfl⟩
    rw [ha']
    rfl
  · rintro ⟨⟨⟨s', r', st⟩, hinner, hrest⟩, hle, rfl⟩
    rcases Result.bind_eq_ok.mp hrest with ⟨a', ha', heq⟩
    cases heq
    refine ⟨_, push_budgeted_eq_ok.mpr ⟨s', hinner, hle, rfl⟩, ?_⟩
    simp only [PushDecoder.budgeted, PushDecoder.tallied, ha', Result.ok_bind]

/-- A decoder on a budget panics exactly when one push takes more than the budget. -/
theorem returns_budgeted (hsafe : D.Safe) {b : List β} :
    ((D.budgeted budget).meaning b).Returns ↔
      ¬∃ s r st, D.push D.init b = .ok (s, r, st) ∧ budget < b.length - r.length := by
  have hrun := hsafe b
  unfold run runFrom at hrun
  unfold meaning run runFrom
  rw [Result.returns_erase]
  change ((D.budgeted budget).push (D.init, budget) b >>= _).Returns ↔ _
  simp only [PushDecoder.budgeted, PushDecoder.tallied]
  cases hpush : D.push D.init b with
  | error e =>
      rw [hpush] at hrun
      constructor
      · rintro _ ⟨s, r, st, heq, _⟩
        cases heq
      · intro _
        cases e with
        | error e => trivial
        | panic => exact hrun
        | diverge => exact hrun
  | ok x =>
      rcases x with ⟨s, r, st⟩
      rw [hpush] at hrun
      simp only [Result.ok_bind] at hrun ⊢
      by_cases hle : b.length - r.length ≤ budget
      · rw [Result.checkedSub_of_le hle]
        constructor
        · rintro _ ⟨s', r', st', heq, hlt⟩
          cases heq
          omega
        · intro _
          simp only [Result.ok_bind]
          cases hfin : D.finish s with
          | ok a => trivial
          | error e =>
              rw [hfin] at hrun
              cases e with
              | error e => trivial
              | panic => exact hrun
              | diverge => exact hrun
      · rw [Result.checkedSub_of_lt (by omega)]
        constructor
        · intro hpanic
          exact absurd hpanic id
        · intro hnot
          exact absurd ⟨s, r, st, rfl, by omega⟩ hnot

end Budgeted

/-! ## Repetitions -/

/-- Values in a row are accepted one after the other. -/
theorem replicate_eq_ok {D : PushDecoder β ε α} (h : D.Lawful) {n : Nat} {b r : List β}
    {as : List α} :
    D.meaning.replicate n b = .ok (as, r) ↔
      as.length = n ∧ ∃ ws, b = ws.flatten ++ r ∧ List.Forall₂ D.Decodes ws as := by
  induction n generalizing b as with
  | zero =>
      simp only [Parser.replicate, Parser.ofResult_eq_ok, Except.ok.injEq]
      constructor
      · rintro ⟨rfl, rfl⟩
        exact ⟨rfl, [], rfl, .nil⟩
      · rintro ⟨hlen, ws, rfl, hall⟩
        rw [List.length_eq_zero_iff] at hlen
        subst hlen
        cases hall
        exact ⟨rfl, rfl⟩
  | succ n ih =>
      simp only [Parser.replicate, Parser.andThen_eq_ok, Parser.ofResult_eq_ok, meaning_eq_ok,
        h.accepts_iff]
      constructor
      · rintro ⟨a, m, ⟨w, rfl, hw⟩, as', m', has, heq, rfl⟩
        cases heq
        rcases ih.mp has with ⟨hlen, ws, rfl, hall⟩
        exact ⟨by simp [hlen], w :: ws, by simp, .cons hw hall⟩
      · rintro ⟨hlen, ws, rfl, hall⟩
        cases hall with
        | nil => cases hlen
        | @cons w a ws as' hw hall =>
            refine ⟨a, ws.flatten ++ r, ⟨w, by simp, hw⟩, as', r, ?_, rfl, rfl⟩
            exact ih.mpr ⟨by simpa using hlen, ws, rfl, hall⟩

/-- Fewer than `n` values are decoded, and `Bad` holds where the next one starts. -/
def RowReaches (D : PushDecoder β ε α) (Bad : List β → Prop) (n : Nat) (b : List β) : Prop :=
  ∃ (ws : List (List β)) (as : List α) (m : List β),
    b = ws.flatten ++ m ∧ List.Forall₂ D.Decodes ws as ∧ as.length < n ∧ Bad m

/-- A row of values panics exactly where one of them does. -/
theorem returns_replicate_iff {D : PushDecoder β ε α} (h : D.Lawful) {Bad : List β → Prop}
    (hbad : ∀ m, (D.meaning m).Returns ↔ ¬Bad m) {n : Nat} {b : List β} :
    (D.meaning.replicate n b).Returns ↔ ¬D.RowReaches Bad n b := by
  induction n generalizing b with
  | zero =>
      constructor
      · rintro _ ⟨ws, as, m, _, _, hlt, _⟩
        exact absurd hlt (Nat.not_lt_zero _)
      · intro _
        trivial
  | succ n ih =>
      simp only [Parser.replicate, Parser.returns_andThen, meaning_eq_ok]
      constructor
      · rintro ⟨hfirst, hall⟩ ⟨ws, as, m, rfl, hrow, hlt, hm⟩
        cases hrow with
        | nil => exact (hbad m).mp hfirst hm
        | @cons w a ws as hw hrow =>
            have hacc : D.Accepts ((w :: ws).flatten ++ m) a (ws.flatten ++ m) := by
              rw [List.flatten_cons, List.append_assoc]
              exact h.accepts_append hw _
            exact ih.mp (hall hacc).1 ⟨ws, as, m, rfl, hrow, Nat.lt_of_succ_lt_succ hlt, hm⟩
      · intro hnot
        refine ⟨(hbad b).mpr fun hb => hnot ⟨[], [], b, rfl, .nil, Nat.succ_pos n, hb⟩, ?_⟩
        intro a r hacc
        refine ⟨ih.mpr ?_, fun _ => trivial⟩
        rintro ⟨ws, as, m, rfl, hrow, hlt, hm⟩
        rcases h.accepts_iff.mp hacc with ⟨w, rfl, hw⟩
        refine hnot ⟨w :: ws, a :: as, m, ?_, .cons hw hrow, Nat.succ_lt_succ hlt, hm⟩
        rw [List.flatten_cons, List.append_assoc]

theorem returns_replicate {D : PushDecoder β ε α} (h : D.Lawful) (hsafe : D.Safe) (n : Nat)
    (b : List β) : (D.meaning.replicate n b).Returns := by
  have hall : ∀ m, (D.meaning m).Returns ↔ ¬False := fun m =>
    iff_of_true (safe_iff.mp hsafe m) id
  apply (returns_replicate_iff h hall).mpr
  rintro ⟨_, _, _, _, _, _, hbad⟩
  exact hbad

/-- A row of values whose encodings are unique is the row of the encodings. -/
theorem forall₂_decodes_iff {D : PushDecoder β ε α} {e : α → List β}
    (h : ∀ {w a}, D.Decodes w a ↔ w = e a) {ws : List (List β)} {as : List α} :
    List.Forall₂ D.Decodes ws as ↔ ws = as.map e := by
  induction as generalizing ws with
  | nil =>
      constructor
      · intro hall
        cases hall
        rfl
      · rintro rfl
        exact .nil
  | cons a as ih =>
      constructor
      · intro hall
        cases hall with
        | cons hw hall => rw [h.mp hw, ih.mp hall, List.map_cons]
      · rintro rfl
        exact .cons (h.mpr rfl) (ih.mpr rfl)

/-! ## Prefixes -/

/-- The state of a decoder that reads a prefix first. -/
inductive PrefixedState (P : Type) {γ : Type} (S : γ → Type) where
  /-- Reading the prefix. -/
  | readingPrefix (prefixState : P)
  /-- Reading what the prefix announced. -/
  | readingValue (c : γ) (valueState : S c)

/-- Decode a prefix, check it, and decode what it announces. -/
def prefixed (P : PushDecoder β ε₁ α) (lengthPrefix : ε₁ → ε) (check : α → Result ε γ)
    (D : γ → PushDecoder β ε δ) (extraLimit : Nat) : PushDecoder β ε δ where
  State := PrefixedState P.State fun c => (D c).State
  init := .readingPrefix P.init
  push s b := match s with
    | .readingPrefix p => do
        let x ← (P.push p b).mapErr lengthPrefix
        match x.2.2 with
        | .needsMore => .ok (.readingPrefix x.1, x.2.1, .needsMore)
        | .ready => do
            let n ← (P.finish x.1).mapErr lengthPrefix
            let c ← check n
            let y ← (D c).push (D c).init x.2.1
            .ok (.readingValue c y.1, y.2)
    | .readingValue c v => do
        let y ← (D c).push v b
        .ok (.readingValue c y.1, y.2)
  finish s := match s with
    | .readingPrefix p => do
        let _ ← (P.finish p).mapErr lengthPrefix
        -- the prefix would be complete, which `push` never leaves behind
        .panicked
    | .readingValue c v => (D c).finish v
  readLimit s := match s with
    | .readingPrefix p => P.readLimit p + extraLimit
    | .readingValue c v => (D c).readLimit v

section Prefixed

variable {P : PushDecoder β ε₁ α} {lengthPrefix : ε₁ → ε} {check : α → Result ε γ}
  {D : γ → PushDecoder β ε δ} {extraLimit : Nat}

/-- The states of a prefixed decoder that wait for more. -/
def PrefixedState.Waiting {P : Type} {S : γ → Type} (WP : P → Prop)
    (W : (c : γ) → S c → Prop) : PrefixedState P S → Prop
  | .readingPrefix p => WP p
  | .readingValue c v => W c v

/-- A push that completes the prefix goes on with the value. -/
theorem push_prefixed_ready {p p' : P.State} {b r : List β}
    (hpush : P.push p b = .ok (p', r, .ready)) :
    (P.prefixed lengthPrefix check D extraLimit).push (.readingPrefix p) b =
      ((P.finish p').mapErr lengthPrefix >>= check) >>= fun c =>
        (P.prefixed lengthPrefix check D extraLimit).push (.readingValue c (D c).init) r := by
  simp [PushDecoder.prefixed, hpush]

theorem push_prefixed_needsMore {p p' : P.State} {b r : List β}
    (hpush : P.push p b = .ok (p', r, .needsMore)) :
    (P.prefixed lengthPrefix check D extraLimit).push (.readingPrefix p) b =
      .ok (.readingPrefix p', r, .needsMore) := by
  simp [PushDecoder.prefixed, hpush]

/-- Equal pushes of the prefix make equal pushes of the whole. -/
theorem toOption_push_prefixed_congr {p q : P.State} {a b : List β}
    (heq : (P.push p a).toOption = (P.push q b).toOption) :
    ((P.prefixed lengthPrefix check D extraLimit).push (.readingPrefix p) a).toOption =
      ((P.prefixed lengthPrefix check D extraLimit).push (.readingPrefix q) b).toOption := by
  simp only [PushDecoder.prefixed, Result.toOption_bind, Result.toOption_mapErr, heq]

theorem push_value_eq_ok {c : γ} {v : (D c).State} {b r : List β} {st : Status}
    {t : PrefixedState P.State fun c => (D c).State} :
    (P.prefixed lengthPrefix check D extraLimit).push (.readingValue c v) b = .ok (t, r, st) ↔
      ∃ v', (D c).push v b = .ok (v', r, st) ∧ t = .readingValue c v' := by
  simp only [PushDecoder.prefixed]
  rw [Result.bind_eq_ok]
  constructor
  · rintro ⟨⟨v', r', st'⟩, hpush, heq⟩
    cases heq
    exact ⟨v', hpush, rfl⟩
  · rintro ⟨v', hpush, rfl⟩
    exact ⟨(v', r, st), hpush, rfl⟩

theorem toOption_push_value {c : γ} {v : (D c).State} {b : List β} :
    ((P.prefixed lengthPrefix check D extraLimit).push (.readingValue c v) b).toOption =
      ((D c).push v b).toOption.map fun y => (.readingValue c y.1, y.2) := by
  simp only [PushDecoder.prefixed, Result.toOption_bind]
  cases ((D c).push v b).toOption <;> rfl

variable {WP : P.State → Prop} {W : (c : γ) → (D c).State → Prop}

/-- The laws of one push of the value, for a fresh or waiting value decoder. -/
theorem lawfulAt_readingValue (hD : ∀ c, (D c).LawfulOn (W c)) {c : γ} {v : (D c).State}
    (hv : (D c).Live (W c) v) (a : List β) :
    (P.prefixed lengthPrefix check D extraLimit).LawfulAt (PrefixedState.Waiting WP W)
      (.readingValue c v) a := by
  refine ⟨?_, ?_, ?_⟩
  · intro t r hpush
    rcases push_value_eq_ok.mp hpush with ⟨v', hinner, rfl⟩
    rcases (hD c).wait hv hinner with ⟨rfl, hv'⟩
    refine ⟨rfl, hv', fun b => ?_⟩
    rw [toOption_push_value, toOption_push_value, (hD c).resume hv hinner b]
  · intro t r hpush
    rcases push_value_eq_ok.mp hpush with ⟨v', hinner, rfl⟩
    rcases (hD c).done hv hinner with ⟨d, rfl, hd⟩
    exact ⟨d, rfl, fun b => push_value_eq_ok.mpr ⟨v', hd b, rfl⟩⟩
  · intro hpush b
    rw [toOption_push_value] at hpush ⊢
    rw [(hD c).fail hv (Option.map_eq_none_iff.mp hpush) b]
    rfl

/-- The laws of one push of the prefix, for a fresh or waiting prefix decoder. -/
theorem lawfulAt_readingPrefix (hP : P.LawfulOn WP) (hD : ∀ c, (D c).LawfulOn (W c))
    {p : P.State} (hp : P.Live WP p) (a : List β) :
    (P.prefixed lengthPrefix check D extraLimit).LawfulAt (PrefixedState.Waiting WP W)
      (.readingPrefix p) a := by
  cases hpush : P.push p a with
  | error e =>
      apply LawfulAt.of_fail
      intro b
      have hfail := hP.fail hp (by rw [hpush]; rfl) b
      simp only [PushDecoder.prefixed, Result.toOption_bind, Result.toOption_mapErr, hfail]
      rfl
  | ok x =>
      rcases x with ⟨p', r, st⟩
      cases st with
      | needsMore =>
          rcases hP.wait hp hpush with ⟨rfl, hp'⟩
          apply LawfulAt.of_wait (push_prefixed_needsMore hpush) hp'
          intro b
          exact toOption_push_prefixed_congr (hP.resume hp hpush b)
      | ready =>
          rcases hP.done hp hpush with ⟨d, rfl, hd⟩
          -- both chunks go through the same prefix and the same check
          cases hfin : (P.finish p').mapErr lengthPrefix >>= check with
          | error e =>
              apply LawfulAt.of_fail
              intro b
              rw [List.append_assoc, push_prefixed_ready (hd (r ++ b)), hfin]
              rfl
          | ok c =>
              apply LawfulAt.of_skip (fun b => ?_)
                (lawfulAt_readingValue hD (c := c) LawfulOn.live_init r)
              rw [push_prefixed_ready (hd b), hfin]
              rfl

theorem LawfulOn.prefixed (hP : P.LawfulOn WP) (hD : ∀ c, (D c).LawfulOn (W c)) :
    (P.prefixed lengthPrefix check D extraLimit).LawfulOn (PrefixedState.Waiting WP W) where
  push {s} hs a := by
    cases s with
    | readingPrefix p =>
        apply lawfulAt_readingPrefix hP hD
        rcases hs with heq | hs
        · cases heq
          exact .inl rfl
        · exact .inr hs
    | readingValue c v =>
        apply lawfulAt_readingValue hD
        rcases hs with heq | hs
        · cases heq
        · exact .inr hs
  idle {s} hs := by
    cases s with
    | readingPrefix p => exact push_prefixed_needsMore (hP.idle hs)
    | readingValue c v => exact push_value_eq_ok.mpr ⟨v, (hD c).idle hs, rfl⟩
  early {s} hs := by
    cases s with
    | readingPrefix p => exact (Result.isErr_mapErr (hP.early hs)).bind
    | readingValue c v => exact (hD c).early hs

theorem Lawful.prefixed (hP : P.Lawful) (hD : ∀ c, (D c).Lawful) :
    (P.prefixed lengthPrefix check D extraLimit).Lawful := by
  rcases hP with ⟨WP, hP⟩
  exact ⟨_, hP.prefixed fun c => (hD c).choose_spec⟩

theorem Strict.prefixed (hP : P.Strict) :
    (P.prefixed lengthPrefix check D extraLimit).Strict where
  idle := push_prefixed_needsMore hP.idle
  early := (Result.isErr_mapErr hP.early).bind

theorem runFrom_readingValue {c : γ} {v : (D c).State} {b : List β} :
    (P.prefixed lengthPrefix check D extraLimit).runFrom (.readingValue c v) b =
      (D c).runFrom v b := by
  unfold runFrom
  simp only [PushDecoder.prefixed, bind_assoc, Result.ok_bind]

/-- The prefix, its check, and the value it announces, one after the other. -/
theorem meaning_prefixed (hP : P.Lawful) :
    (P.prefixed lengthPrefix check D extraLimit).meaning =
      P.meaning.andThen fun n =>
        (Parser.ofResult (check n)).andThen fun c => (D c).meaning := by
  rcases hP with ⟨WP, hP⟩
  funext b
  change ((P.prefixed lengthPrefix check D extraLimit).runFrom (.readingPrefix P.init) b).erase =
    (P.runFrom P.init b).erase >>= fun x =>
      (Parser.ofResult (check x.1)).andThen (fun c => (D c).meaning) x.2
  unfold runFrom
  cases hpush : P.push P.init b with
  | error e =>
      simp only [PushDecoder.prefixed, hpush]
      cases e <;> rfl
  | ok x =>
      rcases x with ⟨p', r, st⟩
      cases st with
      | needsMore =>
          rcases hP.early (hP.wait LawfulOn.live_init hpush).2 with ⟨e, he⟩
          rw [push_prefixed_needsMore hpush]
          simp only [PushDecoder.prefixed, Result.ok_bind, he]
          rfl
      | ready =>
          have hvalue : ∀ c, ((P.prefixed lengthPrefix check D extraLimit).runFrom
              (.readingValue c (D c).init) r).erase = (D c).meaning r := by
            intro c
            rw [runFrom_readingValue]
            rfl
          simp only [runFrom, Result.erase_bind, Result.erase_ok] at hvalue
          rw [push_prefixed_ready hpush, bind_assoc, Result.erase_bind, Result.erase_bind,
            Result.erase_mapErr]
          simp only [Result.ok_bind, Result.erase_bind, bind_assoc, Result.erase_ok]
          congr 1
          funext n
          simp only [Parser.andThen, Parser.ofResult, bind_assoc, Result.ok_bind]
          congr 1
          funext c
          exact hvalue c

theorem accepts_prefixed (hP : P.Lawful) {b r : List β} {d : δ} :
    (P.prefixed lengthPrefix check D extraLimit).Accepts b d r ↔
      ∃ n m c, P.Accepts b n m ∧ check n = .ok c ∧ (D c).Accepts m d r := by
  rw [← meaning_eq_ok, meaning_prefixed hP, Parser.andThen_eq_ok]
  constructor
  · rintro ⟨n, m, hn, hrest⟩
    rcases Parser.andThen_eq_ok.mp hrest with ⟨c, m', hcheck, hd⟩
    rcases Parser.ofResult_eq_ok.mp hcheck with ⟨hc, rfl⟩
    exact ⟨n, m', c, meaning_eq_ok.mp hn, hc, meaning_eq_ok.mp hd⟩
  · rintro ⟨n, m, c, hn, hcheck, hd⟩
    exact ⟨n, m, meaning_eq_ok.mpr hn, Parser.andThen_eq_ok.mpr
      ⟨c, m, Parser.ofResult_eq_ok.mpr ⟨hcheck, rfl⟩, meaning_eq_ok.mpr hd⟩⟩

theorem Safe.prefixed (hlaw : P.Lawful) (hP : P.Safe) (hcheck : ∀ n, (check n).Returns)
    (hD : ∀ c, (D c).Safe) : (P.prefixed lengthPrefix check D extraLimit).Safe := by
  rw [safe_iff] at hP ⊢
  intro b
  rw [meaning_prefixed hlaw]
  apply Parser.Returns.andThen (hP b)
  intro n m _
  apply Parser.Returns.andThen (Parser.returns_ofResult.mpr (hcheck n))
  intro c m' _
  exact safe_iff.mp (hD c) m'

end Prefixed

end PushDecoder
end RustPsbt
