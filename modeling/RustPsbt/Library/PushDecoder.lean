import RustPsbt.Library.Outcome

/-!
# Push decoders

A push decoder is fed consecutive chunks of a stream.  A push takes symbols off
the front of a chunk and says whether the decoder needs more; once it is ready,
`finish` returns the decoded value.

`Lawful` is chunk independence as a law of one push: a push of two chunks does
what two pushes do.  The `meaning` of a decoder is the parser that one push of
the whole stream computes.

Main results:

- Theorem `PushDecoder.Lawful.decodeChunks_flatten`: every way to cut a stream decodes alike.
- Theorem `PushDecoder.Lawful.accepts_iff`: a decoder reads a prefix and leaves the rest.
-/

namespace RustPsbt

/-! ## Parsers -/

/-- A parser takes a value off the front of a stream. -/
abbrev Parser (β α : Type) := List β → Result Unit (α × List β)

namespace Parser

variable {β ε α γ δ : Type}

/-- Parse, then go on with what the value selects. -/
def andThen (p : Parser β α) (f : α → Parser β γ) : Parser β γ :=
  fun b => p b >>= fun x => f x.1 x.2

/-- Parse nothing. -/
def ofResult (r : Result ε α) : Parser β α :=
  fun b => r.erase >>= fun a => .ok (a, b)

/-- Parse and require that exactly `n` symbols were taken. -/
def exactly (n : Nat) (p : Parser β α) : Parser β α :=
  fun b => p b >>= fun x => if b.length - x.2.length = n then .ok x else .err ()

/-- Parse `n` values in a row. -/
def replicate (p : Parser β α) : Nat → Parser β (List α)
  | 0 => ofResult (ε := Unit) (.ok [])
  | n + 1 => p.andThen fun a => (replicate p n).andThen fun as =>
      ofResult (ε := Unit) (.ok (a :: as))

theorem andThen_eq_ok {p : Parser β α} {f : α → Parser β γ} {b r : List β} {c : γ} :
    p.andThen f b = .ok (c, r) ↔ ∃ a m, p b = .ok (a, m) ∧ f a m = .ok (c, r) := by
  unfold andThen
  rw [Result.bind_eq_ok]
  simp only [Prod.exists]

@[simp]
theorem ofResult_eq_ok {x : Result ε α} {b r : List β} {a : α} :
    (ofResult x : Parser β α) b = .ok (a, r) ↔ x = .ok a ∧ r = b := by
  unfold ofResult
  cases x with
  | ok a' => simp [eq_comm]
  | error e => cases e <;> simp [Result.erase, Result.mapErr]

@[simp]
theorem returns_ofResult {x : Result ε α} {b : List β} :
    ((ofResult x : Parser β α) b).Returns ↔ x.Returns := by
  unfold ofResult
  cases x with
  | ok a' => simp
  | error e => cases e <;> simp [Result.erase, Result.mapErr, Result.Returns]

@[simp]
theorem andThen_ofResult_ok (a : α) (f : α → Parser β γ) :
    (ofResult (ε := ε) (.ok a) : Parser β α).andThen f = f a :=
  rfl

theorem exactly_eq_ok {p : Parser β α} {n : Nat} {b r : List β} {a : α} :
    p.exactly n b = .ok (a, r) ↔ p b = .ok (a, r) ∧ b.length - r.length = n := by
  unfold exactly
  rw [Result.bind_eq_ok]
  constructor
  · rintro ⟨⟨a', r'⟩, hp, hx⟩
    split at hx
    · rename_i hlen
      cases hx
      exact ⟨hp, hlen⟩
    · cases hx
  · rintro ⟨hp, hlen⟩
    exact ⟨(a, r), hp, by simp [hlen]⟩

theorem Returns.andThen {p : Parser β α} {f : α → Parser β γ} {b : List β}
    (hp : (p b).Returns) (hf : ∀ a r, p b = .ok (a, r) → (f a r).Returns) :
    (p.andThen f b).Returns :=
  hp.bind fun x hx => hf x.1 x.2 hx

theorem returns_andThen {p : Parser β α} {f : α → Parser β γ} {b : List β} :
    (p.andThen f b).Returns ↔
      (p b).Returns ∧ ∀ {a r}, p b = .ok (a, r) → (f a r).Returns := by
  unfold Parser.andThen
  rw [Result.returns_bind]
  constructor
  · rintro ⟨hp, hf⟩
    exact ⟨hp, fun h => hf h⟩
  · rintro ⟨hp, hf⟩
    exact ⟨hp, fun h => hf h⟩

theorem Returns.exactly {p : Parser β α} {n : Nat} {b : List β} (hp : (p b).Returns) :
    (p.exactly n b).Returns := by
  apply hp.bind
  intro x _
  split <;> trivial

end Parser

/-! ## Decoders -/

/-- What a push asks of the caller. -/
inductive Status where
  /-- All symbols were taken and more are needed. -/
  | needsMore
  /-- The value is complete. -/
  | ready
deriving DecidableEq

/-- An incremental decoder of a stream of `β` into a value `α`. -/
structure PushDecoder (β ε α : Type) where
  /-- What the decoder remembers between two pushes. -/
  State : Type
  /-- The fresh decoder. -/
  init : State
  /-- Take symbols off the front; return the state, the symbols left, and the status. -/
  push : State → List β → Result ε (State × List β × Status)
  /-- The end of the stream. -/
  finish : State → Result ε α
  /-- How many symbols a reader may fetch before the next push. -/
  readLimit : State → Nat

namespace PushDecoder

variable {β ε ε' ε₁ α α' γ δ : Type}

/-- Push everything, then end the stream. -/
def runFrom (D : PushDecoder β ε α) (s : D.State) (b : List β) :
    Result ε (α × List β) := do
  let x ← D.push s b
  let a ← D.finish x.1
  .ok (a, x.2.1)

/-- Take one value off the front of a stream. -/
def run (D : PushDecoder β ε α) (b : List β) : Result ε (α × List β) :=
  D.runFrom D.init b

/-- The parser that one push of the whole stream computes. -/
def meaning (D : PushDecoder β ε α) : Parser β α :=
  fun b => (D.run b).erase

/-- The parser that one push of the rest of the stream computes. -/
def meaningFrom (D : PushDecoder β ε α) (s : D.State) : Parser β α :=
  fun b => (D.runFrom s b).erase

/-- The decoder takes `a` off the front of `b` and leaves `r`. -/
def Accepts (D : PushDecoder β ε α) (b : List β) (a : α) (r : List β) : Prop :=
  D.run b = .ok (a, r)

/-- The decoder turns all of `b` into `a`. -/
def Decodes (D : PushDecoder β ε α) (b : List β) (a : α) : Prop :=
  D.Accepts b a []

/-- Decoding a whole stream ends in a value or an error. -/
def Safe (D : PushDecoder β ε α) : Prop :=
  ∀ b, (D.run b).Returns

theorem meaning_eq_ok {D : PushDecoder β ε α} {b r : List β} {a : α} :
    D.meaning b = .ok (a, r) ↔ D.Accepts b a r :=
  Result.erase_eq_ok

theorem safe_iff {D : PushDecoder β ε α} : D.Safe ↔ ∀ b, (D.meaning b).Returns := by
  simp [Safe, meaning]

/-! ## Laws of one push -/

/-- A fresh or a waiting decoder. -/
def Live (D : PushDecoder β ε α) (W : D.State → Prop) (s : D.State) : Prop :=
  s = D.init ∨ W s

/-- Chunk independence of the push of `a` in the state `s`; `W` holds in the states
that wait for more. -/
structure LawfulAt (D : PushDecoder β ε α) (W : D.State → Prop) (s : D.State)
    (a : List β) : Prop where
  /-- A decoder that needs more has taken everything, and goes on as if both chunks
  had come at once. -/
  wait : ∀ {s' r}, D.push s a = .ok (s', r, .needsMore) →
    r = [] ∧ W s' ∧ ∀ b, (D.push s (a ++ b)).toOption = (D.push s' b).toOption
  /-- A decoder is ready at its last symbol and does not look further. -/
  done : ∀ {s' r}, D.push s a = .ok (s', r, .ready) →
    ∃ c, a = c ++ r ∧ ∀ b, D.push s (c ++ b) = .ok (s', b, .ready)
  /-- A failure is final. -/
  fail : (D.push s a).toOption = none → ∀ b, (D.push s (a ++ b)).toOption = none

/-- Chunk independence of every push to a fresh or waiting decoder. -/
structure LawfulOn (D : PushDecoder β ε α) (W : D.State → Prop) : Prop where
  push : ∀ {s}, D.Live W s → ∀ a, D.LawfulAt W s a
  /-- Pushing nothing to a waiting decoder changes nothing. -/
  idle : ∀ {s}, W s → D.push s [] = .ok (s, [], .needsMore)
  /-- A stream that ends too early is an error. -/
  early : ∀ {s}, W s → (D.finish s).IsErr

/-- A chunk-independent decoder. -/
def Lawful (D : PushDecoder β ε α) : Prop :=
  ∃ W, D.LawfulOn W

/-- A decoder that takes at least one symbol. -/
structure Strict (D : PushDecoder β ε α) : Prop where
  idle : D.push D.init [] = .ok (D.init, [], .needsMore)
  early : (D.finish D.init).IsErr

namespace LawfulAt

variable {D : PushDecoder β ε α} {W : D.State → Prop} {s t : D.State}

/-- A push that fails for good. -/
theorem of_fail {a : List β} (h : ∀ b, (D.push s (a ++ b)).toOption = none) :
    D.LawfulAt W s a := by
  have hnow : (D.push s a).toOption = none := by simpa using h []
  refine ⟨?_, ?_, fun _ => h⟩
  · intro s' r hpush
    rw [hpush] at hnow
    cases hnow
  · intro s' r hpush
    rw [hpush] at hnow
    cases hnow

/-- A push that takes everything and waits. -/
theorem of_wait {a : List β} (hpush : D.push s a = .ok (t, [], .needsMore)) (ht : W t)
    (hres : ∀ b, (D.push s (a ++ b)).toOption = (D.push t b).toOption) :
    D.LawfulAt W s a := by
  refine ⟨?_, ?_, ?_⟩
  · intro s' r h
    rw [hpush] at h
    cases h
    exact ⟨rfl, ht, hres⟩
  · intro s' r h
    rw [hpush] at h
    cases h
  · intro h
    rw [hpush] at h
    cases h

/-- A push that takes `c` and is ready. -/
theorem of_done {c r : List β} (hall : ∀ b, D.push s (c ++ b) = .ok (t, b, .ready)) :
    D.LawfulAt W s (c ++ r) := by
  have hpush := hall r
  refine ⟨?_, ?_, ?_⟩
  · intro s' r' h
    rw [hpush] at h
    cases h
  · intro s' r' h
    rw [hpush] at h
    cases h
    exact ⟨c, rfl, hall⟩
  · intro h
    rw [hpush] at h
    cases h

/-- A push that takes `c` and then goes on from `t`. -/
theorem of_skip {c r : List β}
    (hskip : ∀ b, (D.push s (c ++ b)).erase = (D.push t b).erase)
    (h : D.LawfulAt W t r) : D.LawfulAt W s (c ++ r) := by
  have hok : ∀ {b x}, D.push s (c ++ b) = .ok x ↔ D.push t b = .ok x := by
    intro b x
    rw [← Result.erase_eq_ok, hskip, Result.erase_eq_ok]
  have hopt : ∀ b, (D.push s (c ++ b)).toOption = (D.push t b).toOption := by
    intro b
    rw [← Result.toOption_erase, hskip, Result.toOption_erase]
  refine ⟨?_, ?_, ?_⟩
  · intro s' r' hpush
    rcases h.wait (hok.mp hpush) with ⟨hr, hs', hres⟩
    refine ⟨hr, hs', fun b => ?_⟩
    rw [List.append_assoc, hopt]
    exact hres b
  · intro s' r' hpush
    rcases h.done (hok.mp hpush) with ⟨d, rfl, hd⟩
    refine ⟨c ++ d, by simp, fun b => ?_⟩
    rw [List.append_assoc]
    exact hok.mpr (hd b)
  · intro hpush b
    rw [hopt] at hpush
    rw [List.append_assoc, hopt]
    exact h.fail hpush b

/-- A push that does what a push from `t` does once there is a symbol. -/
theorem of_cons {x : β} {r : List β} (hsame : ∀ b, D.push s (x :: b) = D.push t (x :: b))
    (hidle : ∀ s', D.push t [] ≠ .ok (s', [], .ready)) (h : D.LawfulAt W t (x :: r)) :
    D.LawfulAt W s (x :: r) := by
  refine ⟨?_, ?_, ?_⟩
  · intro s' r' hpush
    rw [hsame] at hpush
    rcases h.wait hpush with ⟨hr, hs', hres⟩
    refine ⟨hr, hs', fun b => ?_⟩
    rw [List.cons_append, hsame]
    exact hres b
  · intro s' r' hpush
    rw [hsame] at hpush
    rcases h.done hpush with ⟨c, hc, hall⟩
    cases c with
    | nil => exact absurd (hall []) (hidle s')
    | cons y c =>
        rcases List.cons.inj hc with ⟨rfl, rfl⟩
        refine ⟨x :: c, rfl, fun b => ?_⟩
        rw [List.cons_append, hsame]
        exact hall b
  · intro hpush b
    rw [hsame] at hpush
    rw [List.cons_append, hsame]
    exact h.fail hpush b

end LawfulAt

namespace LawfulOn

variable {D : PushDecoder β ε α} {W : D.State → Prop}

theorem live_init : D.Live W D.init :=
  .inl rfl

theorem wait (h : D.LawfulOn W) {s s' : D.State} {a r : List β} (hs : D.Live W s)
    (hpush : D.push s a = .ok (s', r, .needsMore)) : r = [] ∧ W s' :=
  ⟨((h.push hs a).wait hpush).1, ((h.push hs a).wait hpush).2.1⟩

theorem resume (h : D.LawfulOn W) {s s' : D.State} {a r : List β} (hs : D.Live W s)
    (hpush : D.push s a = .ok (s', r, .needsMore)) (b : List β) :
    (D.push s (a ++ b)).toOption = (D.push s' b).toOption :=
  ((h.push hs a).wait hpush).2.2 b

theorem done (h : D.LawfulOn W) {s s' : D.State} {a r : List β} (hs : D.Live W s)
    (hpush : D.push s a = .ok (s', r, .ready)) :
    ∃ c, a = c ++ r ∧ ∀ b, D.push s (c ++ b) = .ok (s', b, .ready) :=
  (h.push hs a).done hpush

theorem fail (h : D.LawfulOn W) {s : D.State} {a : List β} (hs : D.Live W s)
    (hpush : (D.push s a).toOption = none) (b : List β) :
    (D.push s (a ++ b)).toOption = none :=
  (h.push hs a).fail hpush b

/-- What a push leaves is a suffix of what it was given. -/
theorem rest_isSuffix (h : D.LawfulOn W) {s s' : D.State} {a r : List β} {st : Status}
    (hs : D.Live W s) (hpush : D.push s a = .ok (s', r, st)) : r <:+ a := by
  cases st with
  | needsMore =>
      rw [(h.wait hs hpush).1]
      exact List.nil_suffix
  | ready =>
      rcases h.done hs hpush with ⟨c, rfl, _⟩
      exact List.suffix_append c r

/-- A fresh strict decoder waits like any other. -/
theorem idle_of_live (h : D.LawfulOn W) (hstrict : D.Strict) {s : D.State}
    (hs : D.Live W s) : D.push s [] = .ok (s, [], .needsMore) := by
  rcases hs with rfl | hs
  · exact hstrict.idle
  · exact h.idle hs

/-- A strict decoder is ready only after it took a symbol. -/
theorem rest_length_lt (h : D.LawfulOn W) (hstrict : D.Strict) {s s' : D.State}
    {a r : List β} (hs : D.Live W s) (hpush : D.push s a = .ok (s', r, .ready)) :
    r.length < a.length := by
  rcases h.done hs hpush with ⟨c, rfl, hc⟩
  cases c with
  | nil =>
      have hnil := hc []
      rw [List.nil_append, h.idle_of_live hstrict hs] at hnil
      cases hnil
  | cons x c =>
      simp only [List.cons_append, List.length_cons, List.length_append]
      omega

/-- Accepting is being ready and ending in the value. -/
theorem accepts_iff_ready (h : D.LawfulOn W) {b r : List β} {a : α} :
    D.Accepts b a r ↔ ∃ s, D.push D.init b = .ok (s, r, .ready) ∧ D.finish s = .ok a := by
  unfold Accepts run runFrom
  rw [Result.bind_eq_ok]
  constructor
  · rintro ⟨⟨s, r', st⟩, hpush, hfin⟩
    rw [Result.bind_eq_ok] at hfin
    rcases hfin with ⟨a', hfin, heq⟩
    cases heq
    cases st with
    | needsMore =>
        rcases h.early (h.wait live_init hpush).2 with ⟨e, he⟩
        rw [he] at hfin
        cases hfin
    | ready => exact ⟨s, hpush, hfin⟩
  · rintro ⟨s, hpush, hfin⟩
    refine ⟨(s, r, .ready), hpush, ?_⟩
    rw [Result.bind_eq_ok]
    exact ⟨a, hfin, rfl⟩

/-- A decoder that has a part of what it decodes needs more. -/
theorem push_part (h : D.LawfulOn W) {x y : List β} {a : α} (hdec : D.Decodes (x ++ y) a)
    (hy : y ≠ []) : ∃ s, D.push D.init x = .ok (s, [], .needsMore) := by
  rcases h.accepts_iff_ready.mp hdec with ⟨t, hready, _⟩
  cases hpush : D.push D.init x with
  | error e =>
      have hnone := h.fail live_init (by rw [hpush]; rfl) y
      rw [hready] at hnone
      cases hnone
  | ok z =>
      rcases z with ⟨s, r, st⟩
      cases st with
      | needsMore =>
          rw [(h.wait live_init hpush).1]
          exact ⟨s, rfl⟩
      | ready =>
          rcases h.done live_init hpush with ⟨c, rfl, hc⟩
          have hall := hc (r ++ y)
          rw [← List.append_assoc, hready] at hall
          cases r with
          | nil => cases y with
            | nil => exact absurd rfl hy
            | cons b y => cases hall
          | cons b r => cases hall

end LawfulOn

namespace Lawful

variable {D : PushDecoder β ε α}

/-- A decoder reads a prefix and leaves the rest. -/
theorem accepts_iff (h : D.Lawful) {b r : List β} {a : α} :
    D.Accepts b a r ↔ ∃ c, b = c ++ r ∧ D.Decodes c a := by
  rcases h with ⟨W, h⟩
  unfold Decodes
  constructor
  · intro hacc
    rcases h.accepts_iff_ready.mp hacc with ⟨s, hpush, hfin⟩
    rcases h.done LawfulOn.live_init hpush with ⟨c, rfl, hc⟩
    refine ⟨c, rfl, h.accepts_iff_ready.mpr ⟨s, ?_, hfin⟩⟩
    simpa using hc []
  · rintro ⟨c, rfl, hdec⟩
    rcases h.accepts_iff_ready.mp hdec with ⟨s, hpush, hfin⟩
    rcases h.done LawfulOn.live_init hpush with ⟨c', hc', hc⟩
    rw [List.append_nil] at hc'
    subst hc'
    exact h.accepts_iff_ready.mpr ⟨s, hc r, hfin⟩

theorem accepts_append (h : D.Lawful) {c : List β} {a : α} (hdec : D.Decodes c a)
    (r : List β) : D.Accepts (c ++ r) a r :=
  h.accepts_iff.mpr ⟨c, rfl, hdec⟩

/-- At most one prefix of a stream is decoded, into at most one value. -/
theorem decodes_unique (h : D.Lawful) {c c' r r' : List β} {a a' : α}
    (hc : D.Decodes c a) (hc' : D.Decodes c' a') (heq : c ++ r = c' ++ r') :
    c = c' ∧ a = a' ∧ r = r' := by
  have hacc := h.accepts_append hc r
  have hacc' := h.accepts_append hc' r'
  rw [heq] at hacc
  have hsame := hacc.symm.trans hacc'
  cases hsame
  exact ⟨List.append_cancel_right heq, rfl, rfl⟩

theorem Decodes.ne_nil (h : D.Lawful) (hstrict : D.Strict) {c : List β} {a : α}
    (hc : D.Decodes c a) : c ≠ [] := by
  rintro rfl
  rcases h with ⟨W, h⟩
  rcases h.accepts_iff_ready.mp hc with ⟨s, hpush, _⟩
  have hlt := h.rest_length_lt hstrict LawfulOn.live_init hpush
  exact absurd hlt (by simp)

end Lawful

/-! ## Decoders that never fail -/

/-- Some pushes have led from the fresh decoder to the state. -/
def Reached (D : PushDecoder β ε α) (W : D.State → Prop) (s : D.State) : Prop :=
  W s ∧ ∃ a, D.push D.init a = .ok (s, [], .needsMore)

/-- No push to a live state fails, and a decoder that is ready has a value. -/
structure NeverFails (D : PushDecoder β ε α) (W : D.State → Prop) : Prop where
  push : ∀ {s}, D.Live W s → ∀ b, ∃ x, D.push s b = .ok x
  finish : ∀ {s s' b r}, D.Live W s → D.push s b = .ok (s', r, .ready) →
    ∃ a, D.finish s' = .ok a

namespace LawfulOn

variable {D : PushDecoder β ε α} {W : D.State → Prop}

/-- What a live state does, the fresh decoder does after some more symbols. -/
theorem exists_push_init (h : D.LawfulOn W) {s : D.State} (hs : D.Live (D.Reached W) s) :
    ∃ a, ∀ b, (D.push D.init (a ++ b)).toOption = (D.push s b).toOption := by
  rcases hs with rfl | ⟨_, a, hpush⟩
  · exact ⟨[], fun _ => rfl⟩
  · exact ⟨a, h.resume live_init hpush⟩

theorem live_of_reached {s : D.State} (hs : D.Live (D.Reached W) s) : D.Live W s :=
  hs.imp_right fun hw => hw.1

/-- A chunk-independent decoder stays so on the states that are reached. -/
theorem reached (h : D.LawfulOn W) : D.LawfulOn (D.Reached W) where
  push {s} hs a := by
    have hlaw := h.push (live_of_reached hs) a
    refine ⟨?_, hlaw.done, hlaw.fail⟩
    intro s' r hpush
    rcases hlaw.wait hpush with ⟨rfl, hw, hres⟩
    refine ⟨rfl, ⟨hw, ?_⟩, hres⟩
    rcases h.exists_push_init hs with ⟨a', ha'⟩
    refine ⟨a' ++ a, Result.toOption_eq_some.mp ?_⟩
    rw [ha', hpush]
    rfl
  idle hs := h.idle hs.1
  early hs := h.early hs.1

/-- A decoder never fails when every stream extends to one that it accepts. -/
theorem neverFails (h : D.LawfulOn W) (hext : ∀ b, ∃ c a r, D.Accepts (b ++ c) a r) :
    D.NeverFails (D.Reached W) where
  push {s} hs b := by
    rcases h.exists_push_init hs with ⟨a, ha⟩
    cases hpush : D.push s b with
    | ok x => exact ⟨x, rfl⟩
    | error e =>
        rcases hext (a ++ b) with ⟨c, v, r, hacc⟩
        rcases h.accepts_iff_ready.mp hacc with ⟨s', hinit, _⟩
        have hnone : (D.push D.init (a ++ b)).toOption = none := by
          rw [ha, hpush]
          rfl
        have hfail := h.fail live_init hnone c
        rw [hinit] at hfail
        cases hfail
  finish {s s' b r} hs hpush := by
    rcases h.exists_push_init hs with ⟨a, ha⟩
    have hinit : D.push D.init (a ++ b) = .ok (s', r, .ready) := by
      apply Result.toOption_eq_some.mp
      rw [ha, hpush]
      rfl
    rcases h.done live_init hinit with ⟨c, _, hall⟩
    rcases hext c with ⟨c', v, r', hacc⟩
    rcases h.accepts_iff_ready.mp hacc with ⟨t, hready, hfin⟩
    rw [hall c'] at hready
    cases hready
    exact ⟨v, hfin⟩

end LawfulOn
/-! ## Feeding chunks -/

/-- Feed chunks one by one until the decoder is ready; what a push leaves is
carried over to the next chunk.  Returns the state and the symbols left. -/
def feed (D : PushDecoder β ε α) :
    D.State → List β → List (List β) → Result ε (D.State × List β)
  | s, carry, [] => .ok (s, carry)
  | s, carry, chunk :: chunks => do
      let x ← D.push s (carry ++ chunk)
      match x.2.2 with
      | .ready => .ok (x.1, x.2.1 ++ chunks.flatten)
      | .needsMore => feed D x.1 x.2.1 chunks

/-- Feed the chunks and end the stream; returns the value and how many symbols
were consumed in total. -/
def decodeChunks (D : PushDecoder β ε α) (chunks : List (List β)) :
    Result ε (α × Nat) := do
  let x ← D.feed D.init [] chunks
  let a ← D.finish x.1
  .ok (a, chunks.flatten.length - x.2.length)

/-- Feeding chunks one by one does what one push of all of them does. -/
theorem LawfulOn.feed_eq {D : PushDecoder β ε α} {W : D.State → Prop} (h : D.LawfulOn W)
    (chunks : List (List β)) (chunk : List β) {s : D.State} (hs : D.Live W s) :
    (D.feed s [] (chunk :: chunks)).toOption =
      (D.feed s [] [chunk ++ chunks.flatten]).toOption := by
  induction chunks generalizing chunk s with
  | nil => simp
  | cons next chunks ih =>
      cases hpush : D.push s chunk with
      | error e =>
          have hnone := h.fail hs (by rw [hpush]; rfl) (next :: chunks).flatten
          rcases Result.toOption_eq_none.mp hnone with ⟨e', he'⟩
          simp only [feed, List.nil_append, hpush, he', Result.error_bind]
          rfl
      | ok x =>
          rcases x with ⟨s', r, st⟩
          cases st with
          | ready =>
              rcases h.done hs hpush with ⟨c, rfl, hc⟩
              have hall := hc (r ++ (next :: chunks).flatten)
              simp only [feed, List.nil_append, hpush, List.append_assoc, hall,
                Result.ok_bind, List.flatten_nil, List.append_nil]
          | needsMore =>
              rcases h.wait hs hpush with ⟨rfl, hs'⟩
              have hnext := ih next (.inr hs')
              have hres := h.resume hs hpush (next ++ chunks.flatten)
              calc (D.feed s [] (chunk :: next :: chunks)).toOption
                  = (D.feed s' [] (next :: chunks)).toOption := by
                    rw [feed]
                    simp only [List.nil_append, hpush, Result.ok_bind]
                _ = (D.feed s' [] [next ++ chunks.flatten]).toOption := hnext
                _ = (D.feed s [] [chunk ++ (next :: chunks).flatten]).toOption := by
                    simp only [feed, List.nil_append, Result.toOption_bind,
                      List.flatten_cons, hres]

/-- Every way to cut a stream into chunks decodes alike, and consumes the same. -/
theorem Lawful.decodeChunks_flatten {D : PushDecoder β ε α} (h : D.Lawful)
    {chunks : List (List β)} (hne : chunks ≠ []) :
    (D.decodeChunks chunks).toOption = (D.decodeChunks [chunks.flatten]).toOption := by
  rcases h with ⟨W, h⟩
  cases chunks with
  | nil => exact absurd rfl hne
  | cons chunk chunks =>
      have hfeed := h.feed_eq chunks chunk LawfulOn.live_init
      simp only [decodeChunks, Result.toOption_bind, hfeed, List.flatten_cons,
        List.flatten_nil, List.append_nil]

/-- Chunks decode into what their concatenation decodes into. -/
theorem Lawful.decodeChunks_eq_some {D : PushDecoder β ε α} (h : D.Lawful) {chunk : List β}
    {chunks : List (List β)} {a : α} {n : Nat} :
    (D.decodeChunks (chunk :: chunks)).toOption = some (a, n) ↔
      ∃ r, D.Accepts (chunk ++ chunks.flatten) a r ∧
        n = (chunk ++ chunks.flatten).length - r.length := by
  have hwhole : (chunk :: chunks).flatten = chunk ++ chunks.flatten := List.flatten_cons
  rw [h.decodeChunks_flatten (List.cons_ne_nil chunk chunks), Result.toOption_eq_some, hwhole]
  generalize chunk ++ chunks.flatten = b
  have hfeed : D.feed D.init [] [b] = D.push D.init b >>= fun x => .ok (x.1, x.2.1) := by
    rw [feed, List.nil_append]
    cases D.push D.init b with
    | error e => rfl
    | ok x =>
        obtain ⟨s, r, st⟩ := x
        cases st with
        | ready => simp
        | needsMore => rfl
  have hrun : D.decodeChunks [b] = D.run b >>= fun x => .ok (x.1, b.length - x.2.length) := by
    unfold decodeChunks run runFrom
    rw [hfeed]
    simp only [bind_assoc, Result.ok_bind, List.flatten_cons, List.flatten_nil, List.append_nil]
  rw [hrun, Result.bind_eq_ok]
  constructor
  · rintro ⟨⟨a', r⟩, hacc, heq⟩
    cases heq
    exact ⟨r, hacc, rfl⟩
  · rintro ⟨r, hacc, rfl⟩
    exact ⟨(a, r), hacc, rfl⟩

/-- A decoder that takes all bytes of a stream decodes its chunks. -/
theorem Lawful.decodeChunks_eq_length {D : PushDecoder β ε α} (h : D.Lawful)
    {chunks : List (List β)} (hne : chunks ≠ []) {a : α} :
    (D.decodeChunks chunks).toOption = some (a, chunks.flatten.length) ↔
      D.Decodes chunks.flatten a := by
  obtain ⟨chunk, rest, rfl⟩ := List.exists_cons_of_ne_nil hne
  rw [h.decodeChunks_eq_some, List.flatten_cons]
  constructor
  · intro hchunks
    obtain ⟨r, hacc, hlen⟩ := hchunks
    obtain ⟨c, hc, _⟩ := h.accepts_iff.mp hacc
    have hr : r = [] := by
      apply List.eq_nil_of_length_eq_zero
      have hle := congrArg List.length hc
      simp only [List.length_append] at hlen hle
      omega
    rw [hr] at hacc
    exact hacc
  · intro hdec
    exact ⟨[], hdec, rfl⟩

end PushDecoder

end RustPsbt
