import RustPsbt.Library.PushDecoder

/-!
# Push decoders that loop over stages

Many decoders run a loop: a round pushes to the decoder of the current stage and,
when that is ready, enters the next stage.  The loop here runs on fuel; `Progress`
says that every round takes symbols or enters a stage of smaller rank, so the fuel
never runs out.

Main results:

- Theorem `StagedLoop.Progress.push_eq`: a push is one round and the push of what is left.
- Theorem `StagedLoop.Progress.lawfulOn`: a loop is chunk independent when its stages are.
- Theorem `PushDecoder.Stage.meaningFrom_eq`: a stage parses with its decoder and goes on.
-/

namespace RustPsbt

/-- What a round asks of the loop. -/
inductive Flow where
  /-- Run the next round. -/
  | again
  /-- Return to the caller. -/
  | stop (status : Status)
deriving DecidableEq

/-- A decoder given by one round of its loop. -/
structure StagedLoop (β ε α : Type) where
  /-- The stage and what was decoded so far. -/
  State : Type
  init : State
  /-- One round. -/
  step : State → List β → Result ε (State × List β × Flow)
  finish : State → Result ε α
  readLimit : State → Nat
  /-- A round that takes no symbol enters a state of smaller rank. -/
  rank : State → Nat
  maxRank : Nat

namespace StagedLoop

variable {β ε α : Type}

/-- The rounds of one push. -/
def loop (M : StagedLoop β ε α) :
    Nat → M.State → List β → Result ε (M.State × List β × Status)
  | 0, _, _ => .diverged
  | fuel + 1, s, b => do
      let x ← M.step s b
      match x.2.2 with
      | .again => loop M fuel x.1 x.2.1
      | .stop status => .ok (x.1, x.2.1, status)

/-- A bound on the rounds of one push. -/
def measure (M : StagedLoop β ε α) (s : M.State) (b : List β) : Nat :=
  b.length * (M.maxRank + 1) + M.rank s

/-- The decoder that loops. -/
def decoder (M : StagedLoop β ε α) : PushDecoder β ε α where
  State := M.State
  init := M.init
  push s b := M.loop (M.measure s b + 1) s b
  finish := M.finish
  readLimit := M.readLimit

/-- What follows a round. -/
def next (M : StagedLoop β ε α) (x : M.State × List β × Flow) :
    Result ε (M.State × List β × Status) :=
  match x.2.2 with
  | .again => M.decoder.push x.1 x.2.1
  | .stop status => .ok (x.1, x.2.1, status)

/-- A round that stops ends the push. -/
theorem push_stop {M : StagedLoop β ε α} {s s' : M.State} {b r : List β} {st : Status}
    (hstep : M.step s b = .ok (s', r, .stop st)) : M.decoder.push s b = .ok (s', r, st) := by
  change M.loop (M.measure s b + 1) s b = _
  simp only [loop, hstep]
  rfl

/-- A round that fails ends the push. -/
theorem push_error {M : StagedLoop β ε α} {s : M.State} {b : List β} {e : Fault ε}
    (hstep : M.step s b = .error e) : M.decoder.push s b = .error e := by
  change M.loop (M.measure s b + 1) s b = _
  simp only [loop, hstep]
  rfl

/-- Every round takes symbols or enters a stage of smaller rank; `I` holds in the
states of the loop. -/
structure Progress (M : StagedLoop β ε α) (I : M.State → Prop) : Prop where
  init : I M.init
  rank_le : ∀ s, M.rank s ≤ M.maxRank
  again : ∀ {s a s' r}, I s → M.step s a = .ok (s', r, .again) →
    I s' ∧ (r.length < a.length ∨ r.length = a.length ∧ M.rank s' < M.rank s)

namespace Progress

variable {M : StagedLoop β ε α} {I W : M.State → Prop}

/-- Every round enters a state of smaller rank. -/
theorem of_rank (init : I M.init) (rank_le : ∀ s, M.rank s ≤ M.maxRank)
    (again : ∀ {s a s' r}, I s → M.step s a = .ok (s', r, .again) →
      I s' ∧ r.length ≤ a.length ∧ M.rank s' < M.rank s) : M.Progress I where
  init := init
  rank_le := rank_le
  again hs hstep := by
    rcases again hs hstep with ⟨hs', hle, hrank⟩
    rcases Nat.lt_or_eq_of_le hle with hlt | heq
    · exact ⟨hs', .inl hlt⟩
    · exact ⟨hs', .inr ⟨heq, hrank⟩⟩

theorem measure_lt (h : M.Progress I) {s s' : M.State} {a r : List β} (hs : I s)
    (hstep : M.step s a = .ok (s', r, .again)) : M.measure s' r < M.measure s a := by
  have hrank := h.rank_le s'
  unfold measure
  rcases (h.again hs hstep).2 with hlt | ⟨heq, hlt⟩
  · have hmul : (r.length + 1) * (M.maxRank + 1) ≤ a.length * (M.maxRank + 1) :=
      Nat.mul_le_mul_right _ hlt
    rw [Nat.add_mul] at hmul
    omega
  · rw [heq]
    omega

/-- More fuel than needed changes nothing. -/
theorem loop_congr (h : M.Progress I) (n m : Nat) {s : M.State} {b : List β} (hs : I s)
    (hn : M.measure s b < n) (hm : M.measure s b < m) : M.loop n s b = M.loop m s b := by
  induction n generalizing m s b with
  | zero => omega
  | succ n ih =>
      cases m with
      | zero => omega
      | succ m =>
          simp only [loop]
          cases hstep : M.step s b with
          | error e => rfl
          | ok x =>
              rcases x with ⟨s', r, flow⟩
              cases flow with
              | stop status => rfl
              | again =>
                  have hlt := h.measure_lt hs hstep
                  exact ih m (h.again hs hstep).1 (Nat.lt_of_lt_of_le hlt (by omega))
                    (Nat.lt_of_lt_of_le hlt (by omega))

/-- A push is one round and the push of what is left. -/
theorem push_eq (h : M.Progress I) {s : M.State} {b : List β} (hs : I s) :
    M.decoder.push s b = M.step s b >>= M.next := by
  change M.loop (M.measure s b + 1) s b = _
  simp only [loop]
  cases hstep : M.step s b with
  | error e => rfl
  | ok x =>
      rcases x with ⟨s', r, flow⟩
      cases flow with
      | stop status => rfl
      | again =>
          have hlt := h.measure_lt hs hstep
          exact h.loop_congr _ _ (h.again hs hstep).1 hlt (Nat.lt_succ_self _)

theorem push_again (h : M.Progress I) {s s' : M.State} {b r : List β} (hs : I s)
    (hstep : M.step s b = .ok (s', r, .again)) :
    M.decoder.push s b = M.decoder.push s' r := by
  rw [h.push_eq hs, hstep]
  rfl

end Progress

/-- A loop is chunk independent when a push is, provided that all smaller ones are. -/
theorem Progress.lawfulOn {M : StagedLoop β ε α} {I W : M.State → Prop}
    (h : M.Progress I) (hactive : ∀ {s}, W s → I s)
    (hstep : ∀ {s}, I s → ∀ a,
      (∀ {s' r}, I s' → M.measure s' r < M.measure s a → M.decoder.LawfulAt W s' r) →
        M.decoder.LawfulAt W s a)
    (hidle : ∀ {s}, W s → M.decoder.push s [] = .ok (s, [], .needsMore))
    (hearly : ∀ {s}, W s → (M.finish s).IsErr) : M.decoder.LawfulOn W where
  push {s} hs a := by
    have hall : ∀ (n : Nat) {s : M.State} {a : List β}, M.measure s a < n → I s →
        M.decoder.LawfulAt W s a := by
      intro n
      induction n with
      | zero =>
          intro s a hn
          omega
      | succ n ih =>
          intro s a hn hs
          exact hstep hs a fun hs' hlt => ih (by omega) hs'
    rcases hs with rfl | hs
    · exact hall _ (Nat.lt_succ_self _) h.init
    · exact hall _ (Nat.lt_succ_self _) (hactive hs)
  idle hs := hidle hs
  early hs := hearly hs

/-- Fewer symbols make a smaller push. -/
theorem Progress.measure_lt_of_length {M : StagedLoop β ε α} {I : M.State → Prop}
    (h : M.Progress I) {s s' : M.State} {a r : List β} (hlt : r.length < a.length) :
    M.measure s' r < M.measure s a := by
  have hrank := h.rank_le s'
  have hmul : (r.length + 1) * (M.maxRank + 1) ≤ a.length * (M.maxRank + 1) :=
    Nat.mul_le_mul_right _ hlt
  rw [Nat.add_mul] at hmul
  unfold measure
  omega

/-- No more symbols and a smaller rank make a smaller push. -/
theorem measure_lt_of_rank {M : StagedLoop β ε α} {s s' : M.State}
    {a r : List β} (hle : r.length ≤ a.length) (hrank : M.rank s' < M.rank s) :
    M.measure s' r < M.measure s a := by
  have hmul : r.length * (M.maxRank + 1) ≤ a.length * (M.maxRank + 1) :=
    Nat.mul_le_mul_right _ hle
  unfold measure
  omega

end StagedLoop

/-! ## Stages -/

namespace PushDecoder

variable {β ε ε₁ α γ : Type}

/-- In the states `emb p` the decoder `P` runs the decoder `D`; when that ends in the
value `a`, `P` goes on from the state `k a`.  `W` holds in the waiting states of `D`. -/
structure Stage (P : PushDecoder β ε α) (D : PushDecoder β ε₁ γ) (W : D.State → Prop)
    (emb : D.State → P.State) (k : γ → Result ε P.State) : Prop where
  push : ∀ {p}, D.Live W p → ∀ b, (P.push (emb p) b).erase =
    (D.push p b).erase >>= fun x => match x.2.2 with
      | .needsMore => .ok (emb x.1, x.2.1, .needsMore)
      | .ready => ((D.finish x.1).erase >>= fun a => (k a).erase) >>= fun s =>
          (P.push s x.2.1).erase

namespace Stage

variable {P : PushDecoder β ε α} {D : PushDecoder β ε₁ γ} {W : D.State → Prop}
  {emb : D.State → P.State} {k : γ → Result ε P.State}

theorem push_needsMore (h : P.Stage D W emb k) {p p' : D.State} {b r : List β}
    (hp : D.Live W p) (hpush : D.push p b = .ok (p', r, .needsMore)) :
    P.push (emb p) b = .ok (emb p', r, .needsMore) := by
  rw [← Result.erase_eq_ok, h.push hp, hpush]
  rfl

/-- A stage that is ready goes on with the next one. -/
theorem push_ready (h : P.Stage D W emb k) {p p' : D.State} {b r : List β}
    (hp : D.Live W p) (hpush : D.push p b = .ok (p', r, .ready)) :
    (P.push (emb p) b).erase =
      ((D.finish p').erase >>= fun a => (k a).erase) >>= fun s => (P.push s r).erase := by
  rw [h.push hp, hpush]
  rfl

theorem push_idle (h : P.Stage D W emb k) (hD : D.LawfulOn W) (hstrict : D.Strict)
    {p : D.State} (hp : D.Live W p) : P.push (emb p) [] = .ok (emb p, [], .needsMore) :=
  h.push_needsMore hp (hD.idle_of_live hstrict hp)

/-- A stage that has a part of what it decodes needs more. -/
theorem push_part (h : P.Stage D W emb k) (hD : D.LawfulOn W) {x y : List β} {a : γ}
    (hdec : D.Decodes (x ++ y) a) (hy : y ≠ []) :
    ∃ p, P.push (emb D.init) x = .ok (emb p, [], .needsMore) := by
  rcases hD.push_part hdec hy with ⟨p, hpush⟩
  exact ⟨p, h.push_needsMore LawfulOn.live_init hpush⟩

/-- Behind what a stage decodes, the next stage goes on. -/
theorem push_decoded (h : P.Stage D W emb k) (hD : D.LawfulOn W) {w : List β} {a : γ}
    {s : P.State} (hdec : D.Decodes w a) (hk : k a = .ok s) (r : List β) :
    (P.push (emb D.init) (w ++ r)).erase = (P.push s r).erase := by
  have hlaw : D.Lawful := ⟨W, hD⟩
  rcases hD.accepts_iff_ready.mp (hlaw.accepts_append hdec r) with ⟨t, hpush, hfin⟩
  rw [h.push_ready LawfulOn.live_init hpush, hfin, Result.erase_ok, Result.ok_bind, hk,
    Result.erase_ok, Result.ok_bind]

/-- A push in a stage is lawful when the push in the next one is. -/
theorem lawfulAt (h : P.Stage D W emb k) (hD : D.LawfulOn W) {WP : P.State → Prop}
    (hW : ∀ {p}, W p → WP (emb p)) {p : D.State} (hp : D.Live W p) {b : List β}
    (hnext : ∀ {p' r a s}, D.push p b = .ok (p', r, .ready) → D.finish p' = .ok a →
      k a = .ok s → P.LawfulAt WP s r) : P.LawfulAt WP (emb p) b := by
  cases hpush : D.push p b with
  | error e =>
      apply LawfulAt.of_fail
      intro b'
      have hfail := hD.fail hp (by rw [hpush]; rfl) b'
      rw [← Result.toOption_erase, h.push hp, Result.toOption_bind, Result.toOption_erase, hfail]
      rfl
  | ok x =>
      rcases x with ⟨p', r, st⟩
      cases st with
      | needsMore =>
          rcases hD.wait hp hpush with ⟨rfl, hp'⟩
          apply LawfulAt.of_wait (h.push_needsMore hp hpush) (hW hp')
          intro b'
          rw [← Result.toOption_erase, h.push hp, ← Result.toOption_erase (P.push (emb p') b'),
            h.push (.inr hp'), Result.toOption_bind, Result.toOption_bind, Result.toOption_erase,
            Result.toOption_erase, hD.resume hp hpush]
      | ready =>
          rcases hD.done hp hpush with ⟨c, rfl, hc⟩
          -- whatever follows, the stage ends in the same value
          cases hend : (D.finish p').erase >>= fun a => (k a).erase with
          | error e =>
              apply LawfulAt.of_fail
              intro b'
              rw [← Result.toOption_erase, List.append_assoc, h.push_ready hp (hc (r ++ b')),
                hend]
              rfl
          | ok s =>
              rcases Result.bind_eq_ok.mp hend with ⟨a, ha, hs⟩
              have hfin := Result.erase_eq_ok.mp ha
              have hk := Result.erase_eq_ok.mp hs
              apply LawfulAt.of_skip (t := s) ?_ (hnext hpush hfin hk)
              intro b'
              rw [h.push_ready hp (hc b'), hend]
              rfl

/-- What a stage means: the value of the inner decoder, then the next stage. -/
theorem meaningFrom_eq (h : P.Stage D W emb k) (hD : D.LawfulOn W)
    (hearly : ∀ {p}, W p → (P.finish (emb p)).IsErr) :
    P.meaningFrom (emb D.init) =
      D.meaning.andThen fun a => (Parser.ofResult (k a)).andThen P.meaningFrom := by
  funext b
  have hpushEq := h.push LawfulOn.live_init b
  simp only [meaningFrom, meaning, run, runFrom, Parser.andThen, Parser.ofResult,
    Result.erase_bind, bind_assoc, Result.erase_ok, Result.ok_bind]
  rw [hpushEq, bind_assoc]
  cases hpush : D.push D.init b with
  | error e => cases e <;> rfl
  | ok x =>
      rcases x with ⟨p', r, st⟩
      cases st with
      | needsMore =>
          have hp' := (hD.wait LawfulOn.live_init hpush).2
          rcases hD.early hp' with ⟨e, he⟩
          rcases hearly hp' with ⟨e', he'⟩
          simp only [Result.erase_ok, Result.ok_bind, he, he']
          rfl
      | ready => simp only [Result.erase_ok, Result.ok_bind, bind_assoc]

/-- A stage accepts what its decoder and then the next stage accept. -/
theorem meaningFrom_eq_ok (h : P.Stage D W emb k) (hD : D.LawfulOn W)
    (hearly : ∀ {p}, W p → (P.finish (emb p)).IsErr) {b r : List β} {x : α} :
    P.meaningFrom (emb D.init) b = .ok (x, r) ↔
      ∃ a m s, D.Accepts b a m ∧ k a = .ok s ∧ P.meaningFrom s m = .ok (x, r) := by
  rw [h.meaningFrom_eq hD hearly, Parser.andThen_eq_ok]
  constructor
  · rintro ⟨a, m, ha, hrest⟩
    rcases Parser.andThen_eq_ok.mp hrest with ⟨s, m', hs, hnext⟩
    rcases Parser.ofResult_eq_ok.mp hs with ⟨hk, rfl⟩
    exact ⟨a, m', s, meaning_eq_ok.mp ha, hk, hnext⟩
  · rintro ⟨a, m, s, ha, hk, hrest⟩
    refine ⟨a, m, meaning_eq_ok.mpr ha, Parser.andThen_eq_ok.mpr ⟨s, m, ?_, hrest⟩⟩
    exact Parser.ofResult_eq_ok.mpr ⟨hk, rfl⟩

/-- A stage returns when its decoder, the step to the next stage and that stage return. -/
theorem returns_meaningFrom (h : P.Stage D W emb k) (hD : D.LawfulOn W)
    (hearly : ∀ {p}, W p → (P.finish (emb p)).IsErr) {b : List β} :
    (P.meaningFrom (emb D.init) b).Returns ↔ (D.meaning b).Returns ∧
      ∀ {a m}, D.Accepts b a m → (k a).Returns ∧
        ∀ {s}, k a = .ok s → (P.meaningFrom s m).Returns := by
  rw [h.meaningFrom_eq hD hearly, Parser.returns_andThen]
  simp only [Parser.returns_andThen, Parser.returns_ofResult, Parser.ofResult_eq_ok,
    meaning_eq_ok]
  constructor
  · rintro ⟨hreturns, hall⟩
    refine ⟨hreturns, fun ha => ⟨(hall ha).1, fun hk => (hall ha).2 ⟨hk, rfl⟩⟩⟩
  · rintro ⟨hreturns, hall⟩
    refine ⟨hreturns, fun ha => ⟨(hall ha).1, ?_⟩⟩
    rintro s m' ⟨hk, rfl⟩
    exact (hall ha).2 hk

end Stage

end PushDecoder

/-- A loop runs a stage when, in the live states of the stage, its round pushes to the
decoder of the stage and enters the next one when that is ready. -/
theorem StagedLoop.Progress.stage_of_live {β ε ε₁ α γ : Type} {M : StagedLoop β ε α}
    {I : M.State → Prop} (h : M.Progress I) {D : PushDecoder β ε₁ γ} {W : D.State → Prop}
    {emb : D.State → M.State} {k : γ → Result ε M.State} (g g' : ε₁ → ε)
    (hI : ∀ {p}, D.Live W p → I (emb p))
    (hstep : ∀ {p}, D.Live W p → ∀ b, M.step (emb p) b = (D.push p b).mapErr g >>= fun x => match x.2.2 with
      | .needsMore => .ok (emb x.1, x.2.1, .stop .needsMore)
      | .ready => ((D.finish x.1).mapErr g' >>= k) >>= fun s => .ok (s, x.2.1, .again)) :
    M.decoder.Stage D W emb k := by
  refine ⟨fun {p} hp b => ?_⟩
  rw [h.push_eq (hI hp), hstep hp]
  cases hpush : D.push p b with
  | error e => cases e <;> rfl
  | ok x =>
      rcases x with ⟨p', r, st⟩
      cases st with
      | needsMore => rfl
      | ready =>
          have hround : (((D.finish p').mapErr g' >>= k) >>= fun s => .ok (s, r, .again))
              >>= M.next = ((D.finish p').mapErr g' >>= k) >>= fun s => M.decoder.push s r := by
            rw [bind_assoc]
            rfl
          have herase : (((D.finish p').mapErr g' >>= k) >>= fun s =>
              M.decoder.push s r).erase = ((D.finish p').erase >>= fun a => (k a).erase) >>=
                fun s => (M.decoder.push s r).erase := by
            rw [Result.erase_bind, Result.erase_bind, Result.erase_mapErr]
          exact (congrArg Result.erase hround).trans herase

/-- A loop runs a stage when its round pushes to the decoder of the stage and enters the
next one when that is ready. -/
theorem StagedLoop.Progress.stage {β ε ε₁ α γ : Type} {M : StagedLoop β ε α}
    {I : M.State → Prop} (h : M.Progress I) {D : PushDecoder β ε₁ γ} {W : D.State → Prop}
    {emb : D.State → M.State} {k : γ → Result ε M.State} (g g' : ε₁ → ε)
    (hI : ∀ {p}, D.Live W p → I (emb p))
    (hstep : ∀ p b, M.step (emb p) b = (D.push p b).mapErr g >>= fun x => match x.2.2 with
      | .needsMore => .ok (emb x.1, x.2.1, .stop .needsMore)
      | .ready => ((D.finish x.1).mapErr g' >>= k) >>= fun s => .ok (s, x.2.1, .again)) :
    M.decoder.Stage D W emb k :=
  h.stage_of_live g g' hI fun {p} _ b => hstep p b

end RustPsbt
