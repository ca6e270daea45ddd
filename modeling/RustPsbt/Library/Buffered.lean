import RustPsbt.Library.DecoderCombinators

/-!
# Buffered decoders

A scanner looks at all symbols so far: it needs more, has found where the value ends, or
fails.  A decoder that keeps a buffer runs its scanner on the whole buffer at every push.

Main results:

- Theorem `PushDecoder.lawful_buffered`: a buffered decoder is chunk independent when more
  symbols do not change what its scanner has decided.
- Theorem `PushDecoder.meaning_buffered`: it means what its scanner finds in the whole stream.
-/

namespace RustPsbt

/-- What the symbols so far amount to. -/
inductive Scan (β ε α : Type) where
  /-- There is no whole value yet; a stream that ends here is the fault `early`. -/
  | more (early : Fault ε)
  /-- The value ends before `rest`. -/
  | done (ended : Result ε α) (rest : List β)
  | fail (e : Fault ε)

/-- The outcome of a stream that ends here. -/
def Scan.outcome {β ε α : Type} : Scan β ε α → Result Unit (α × List β)
  | .more f => Result.erase (.error f : Result ε (α × List β))
  | .done x r => x.erase >>= fun a => .ok (a, r)
  | .fail e => Result.erase (.error e : Result ε (α × List β))

/-- A function that scans the symbols so far. -/
abbrev Scanner (β ε α : Type) := List β → Scan β ε α

namespace Scanner

variable {β ε ε' α γ : Type}

/-- More symbols do not change what is decided. -/
structure Lawful (S : Scanner β ε α) : Prop where
  done : ∀ {b x r}, S b = .done x r → ∃ c, b = c ++ r ∧ ∀ r', S (c ++ r') = .done x r'
  fail : ∀ {b e}, S b = .fail e → ∀ c, ∃ e', S (b ++ c) = .fail e'
  early : ∀ {b f}, S b = .more f → ∃ e, f = .error e

/-- The scanner needs at least one symbol. -/
def Strict (S : Scanner β ε α) : Prop :=
  ∃ e, S [] = .more (.error e)

/-- The parser that scanning the whole stream computes. -/
def parser (S : Scanner β ε α) : Parser β α :=
  fun b => (S b).outcome

/-- The scanner takes `a` off the front of `b` and leaves `r`. -/
def Accepts (S : Scanner β ε α) (b : List β) (a : α) (r : List β) : Prop :=
  S b = .done (.ok a) r

theorem parser_eq_ok {S : Scanner β ε α} {b r : List β} {a : α} :
    S.parser b = .ok (a, r) ↔ S.Accepts b a r := by
  unfold parser Accepts
  cases S b with
  | more f => cases f <;> simp [Scan.outcome, Result.erase, Result.mapErr]
  | fail e => cases e <;> simp [Scan.outcome, Result.erase, Result.mapErr]
  | done x r' =>
      rw [Scan.outcome, Result.bind_eq_ok]
      simp only [Result.erase_eq_ok, Scan.done.injEq]
      constructor
      · rintro ⟨a', rfl, heq⟩
        cases heq
        exact ⟨rfl, rfl⟩
      · rintro ⟨rfl, rfl⟩
        exact ⟨a, rfl, rfl⟩

/-! ## Scanners -/

/-- Find nothing to scan. -/
def pure (x : Result ε α) : Scanner β ε α :=
  fun b => .done x b

/-- Scan, then go on with what the value selects. -/
def andThen (S : Scanner β ε α) (k : α → Scanner β ε γ) : Scanner β ε γ := fun b =>
  match S b with
  | .more f => .more f
  | .done (.ok a) r => k a r
  | .done (.error e) _ => .fail e
  | .fail e => .fail e

/-- Scan `n` values in a row. -/
def replicate (S : Scanner β ε α) : Nat → Scanner β ε (List α)
  | 0 => pure (.ok [])
  | n + 1 => S.andThen fun a => (replicate S n).andThen fun as => pure (.ok (a :: as))

/-- Take `n` symbols. -/
def take (n : Nat) (eof : ε) (read : List β → Result ε α) : Scanner β ε α := fun b =>
  if n ≤ b.length then .done (read (b.take n)) (b.drop n) else .more (.error eof)

/-- Take the symbols that the first one announces. -/
def announced (width : β → Nat) (eof : ε) (read : List β → Result ε α) : Scanner β ε α
  | [] => .more (.error eof)
  | tag :: b => take (width tag) eof read (tag :: b)

/-- The scanner of one push of the whole stream. -/
def ofDecoder (D : PushDecoder β ε α) : Scanner β ε α := fun b =>
  match D.push D.init b with
  | .ok (s, _, .needsMore) => match D.finish s with
      | .error f => .more f
      | .ok _ => .more .panic
  | .ok (s, r, .ready) => .done (D.finish s) r
  | .error e => .fail e

/-- Scan with other errors. -/
def mapErr (g : ε → ε') (S : Scanner β ε α) : Scanner β ε' α := fun b =>
  match S b with
  | .more (.error e) => .more (.error (g e))
  | .more .panic => .more .panic
  | .more .diverge => .more .diverge
  | .done x r => .done (x.mapErr g) r
  | .fail (.error e) => .fail (.error (g e))
  | .fail .panic => .fail .panic
  | .fail .diverge => .fail .diverge

theorem lawful_pure (x : Result ε α) : (pure x : Scanner β ε α).Lawful where
  done h := by
    cases h
    exact ⟨[], rfl, fun _ => rfl⟩
  fail h := by cases h
  early h := by cases h

section AndThen

variable {S : Scanner β ε α} {k : α → Scanner β ε γ}

theorem andThen_of_done {b r : List β} {a : α} (h : S b = .done (.ok a) r) :
    S.andThen k b = k a r := by
  unfold andThen
  rw [h]

theorem Lawful.andThen (hS : S.Lawful) (hk : ∀ a, (k a).Lawful) : (S.andThen k).Lawful := by
  refine ⟨?_, ?_, ?_⟩
  · intro b x r h
    unfold Scanner.andThen at h
    cases hscan : S b with
    | more f =>
        rw [hscan] at h
        cases h
    | fail e =>
        rw [hscan] at h
        cases h
    | done y m =>
        rcases hS.done hscan with ⟨c, rfl, hc⟩
        rw [hscan] at h
        cases y with
        | error e => cases h
        | ok a =>
            rcases (hk a).done h with ⟨d, rfl, hd⟩
            refine ⟨c ++ d, (List.append_assoc c d r).symm, fun r' => ?_⟩
            rw [List.append_assoc, andThen_of_done (hc _)]
            exact hd r'
  · intro b e h c'
    unfold Scanner.andThen at h ⊢
    cases hscan : S b with
    | more f =>
        rw [hscan] at h
        cases h
    | fail e' =>
        rcases hS.fail hscan c' with ⟨e'', hfail⟩
        rw [hfail]
        exact ⟨e'', rfl⟩
    | done y m =>
        rcases hS.done hscan with ⟨c, rfl, hc⟩
        rw [hscan] at h
        rw [List.append_assoc, hc]
        cases y with
        | error e' => exact ⟨e', rfl⟩
        | ok a => exact (hk a).fail h c'
  · intro b f h
    unfold Scanner.andThen at h
    cases hscan : S b with
    | more f' =>
        rw [hscan] at h
        cases h
        exact hS.early hscan
    | fail e =>
        rw [hscan] at h
        cases h
    | done y m =>
        rw [hscan] at h
        cases y with
        | error e => cases h
        | ok a => exact (hk a).early h

theorem Strict.andThen (hS : S.Strict) : (S.andThen k).Strict := by
  rcases hS with ⟨e, he⟩
  refine ⟨e, ?_⟩
  unfold Scanner.andThen
  rw [he]

theorem accepts_andThen {b r : List β} {c : γ} :
    (S.andThen k).Accepts b c r ↔ ∃ a m, S.Accepts b a m ∧ (k a).Accepts m c r := by
  unfold Accepts andThen
  cases S b with
  | more f => simp
  | fail e => simp
  | done x m =>
      cases x with
      | error e => simp
      | ok a => simp

/-- Scanning in a row parses in a row. -/
theorem parser_andThen :
    (S.andThen k).parser = S.parser.andThen fun a => (k a).parser := by
  funext b
  change (S.andThen k b).outcome = (S b).outcome >>= fun x => (k x.1 x.2).outcome
  unfold andThen
  cases S b with
  | more f => cases f <;> rfl
  | fail e => cases e <;> rfl
  | done x m =>
      cases x with
      | error e => cases e <;> rfl
      | ok a => rfl

end AndThen

@[simp]
theorem accepts_pure {x : Result ε α} {b r : List β} {a : α} :
    (pure x : Scanner β ε α).Accepts b a r ↔ x = .ok a ∧ b = r := by
  simp [Accepts, pure]

theorem Lawful.replicate {S : Scanner β ε α} (hS : S.Lawful) (n : Nat) :
    (S.replicate n).Lawful := by
  induction n with
  | zero => exact lawful_pure _
  | succ n ih => exact hS.andThen fun a => ih.andThen fun as => lawful_pure _

theorem parser_replicate {S : Scanner β ε α} (n : Nat) :
    (S.replicate n).parser = S.parser.replicate n := by
  induction n with
  | zero => rfl
  | succ n ih =>
      rw [replicate, parser_andThen, Parser.replicate]
      congr 1
      funext a
      rw [parser_andThen, ih]
      rfl

section Take

variable {n : Nat} {eof : ε} {read : List β → Result ε α}

theorem take_append {c r : List β} (h : c.length = n) :
    take n eof read (c ++ r) = .done (read c) r := by
  subst h
  unfold take
  rw [if_pos (by simp), List.take_left, List.drop_left]

theorem take_nil (h : 0 < n) : take n eof read [] = .more (.error eof) :=
  if_neg (Nat.not_le.mpr h)

theorem lawful_take : (take n eof read).Lawful where
  done {b x r} h := by
    unfold take at h
    split at h
    · rename_i hle
      cases h
      refine ⟨b.take n, (List.take_append_drop n b).symm, fun r' => ?_⟩
      exact take_append (List.length_take_of_le hle)
    · cases h
  fail {b e} h := by
    unfold take at h
    split at h <;> cases h
  early {b f} h := by
    unfold take at h
    split at h
    · cases h
    · cases h
      exact ⟨eof, rfl⟩

theorem strict_take (h : 0 < n) : (take n eof read).Strict :=
  ⟨eof, take_nil h⟩

theorem accepts_take {b r : List β} {a : α} :
    (take n eof read).Accepts b a r ↔ ∃ c, b = c ++ r ∧ c.length = n ∧ read c = .ok a := by
  constructor
  · intro h
    unfold Accepts take at h
    split at h
    · rename_i hle
      rcases Scan.done.inj h with ⟨hread, rfl⟩
      exact ⟨b.take n, (List.take_append_drop n b).symm, List.length_take_of_le hle, hread⟩
    · cases h
  · rintro ⟨c, rfl, hlen, hread⟩
    exact (take_append hlen).trans (congrArg (Scan.done · r) hread)

end Take

section Announced

variable {width : β → Nat} {eof : ε} {read : List β → Result ε α}

theorem lawful_announced (hpos : ∀ tag, 0 < width tag) : (announced width eof read).Lawful where
  done {b x r} h := by
    cases b with
    | nil => cases h
    | cons tag b =>
        rcases lawful_take.done h with ⟨c, hc, hall⟩
        cases c with
        | nil =>
            -- no value ends before its first symbol
            have hnil := hall []
            rw [List.nil_append, take_nil (hpos tag)] at hnil
            cases hnil
        | cons tag' c =>
            rcases List.cons.inj hc with ⟨rfl, hb⟩
            exact ⟨tag :: c, hc, hall⟩
  fail {b e} h := by
    cases b with
    | nil => cases h
    | cons tag b => exact lawful_take.fail h
  early {b f} h := by
    cases b with
    | nil =>
        cases h
        exact ⟨eof, rfl⟩
    | cons tag b => exact lawful_take.early h

theorem strict_announced : (announced width eof read).Strict :=
  ⟨eof, rfl⟩

end Announced

section OfDecoder

variable {D : PushDecoder β ε α}

theorem lawful_ofDecoder (h : D.Lawful) : (ofDecoder D).Lawful := by
  rcases h with ⟨W, h⟩
  refine ⟨?_, ?_, ?_⟩
  · intro b x r hscan
    unfold ofDecoder at hscan
    split at hscan
    · split at hscan <;> cases hscan
    · rename_i s r' hpush
      cases hscan
      rcases h.done PushDecoder.LawfulOn.live_init hpush with ⟨c, rfl, hc⟩
      refine ⟨c, rfl, fun r' => ?_⟩
      unfold ofDecoder
      rw [hc r']
    · cases hscan
  · intro b e hscan c
    unfold ofDecoder at hscan
    split at hscan
    · split at hscan <;> cases hscan
    · cases hscan
    · rename_i e' hpush
      have hnone : (D.push D.init b).toOption = none := by
        rw [hpush]
        rfl
      have hfail := h.fail PushDecoder.LawfulOn.live_init hnone c
      rcases Result.toOption_eq_none.mp hfail with ⟨e'', he''⟩
      refine ⟨e'', ?_⟩
      unfold ofDecoder
      rw [he'']
  · intro b f hscan
    unfold ofDecoder at hscan
    split at hscan
    · rename_i s r hpush
      have hearly := h.early (h.wait PushDecoder.LawfulOn.live_init hpush).2
      rcases hearly with ⟨e, he⟩
      rw [he] at hscan
      cases hscan
      exact ⟨e, rfl⟩
    · cases hscan
    · cases hscan

/-- The scanner of a decoder means what the decoder means. -/
theorem parser_ofDecoder (h : D.Lawful) : (ofDecoder D).parser = D.meaning := by
  rcases h with ⟨W, h⟩
  funext b
  change (ofDecoder D b).outcome = (D.run b).erase
  unfold ofDecoder PushDecoder.run PushDecoder.runFrom
  cases hpush : D.push D.init b with
  | error e => cases e <;> rfl
  | ok x =>
      rcases x with ⟨s, r, st⟩
      cases st with
      | ready =>
          change (Scan.done (D.finish s) r).outcome =
            (D.finish s >>= fun a => .ok (a, r)).erase
          cases D.finish s with
          | ok a => rfl
          | error e => cases e <;> rfl
      | needsMore =>
          rcases h.early (h.wait PushDecoder.LawfulOn.live_init hpush).2 with ⟨e, he⟩
          change (match D.finish s with
            | .error f => Scan.more f
            | .ok _ => Scan.more .panic).outcome = (D.finish s >>= fun a => .ok (a, r)).erase
          rw [he]
          rfl

end OfDecoder

section MapErr

variable {S : Scanner β ε α} {g : ε → ε'}

theorem mapErr_eq_done {b r : List β} {x : Result ε' α} :
    S.mapErr g b = .done x r ↔ ∃ y, S b = .done y r ∧ x = y.mapErr g := by
  unfold mapErr
  split <;> simp_all [eq_comm, and_comm]

theorem Lawful.mapErr (hS : S.Lawful) : (S.mapErr g).Lawful where
  done {b x r} h := by
    rcases mapErr_eq_done.mp h with ⟨y, hy, rfl⟩
    rcases hS.done hy with ⟨c, hb, hc⟩
    exact ⟨c, hb, fun r' => mapErr_eq_done.mpr ⟨y, hc r', rfl⟩⟩
  fail {b e} h c := by
    have hfail : ∃ e', S b = .fail e' := by
      unfold Scanner.mapErr at h
      split at h <;> first | exact ⟨_, by assumption⟩ | cases h
    rcases hfail with ⟨e', he'⟩
    rcases hS.fail he' c with ⟨e'', he''⟩
    unfold Scanner.mapErr
    rw [he'']
    cases e'' <;> exact ⟨_, rfl⟩
  early {b f} h := by
    unfold Scanner.mapErr at h
    split at h
    · cases h
      exact ⟨_, rfl⟩
    · rename_i hscan
      rcases hS.early hscan with ⟨e, he⟩
      cases he
    · rename_i hscan
      rcases hS.early hscan with ⟨e, he⟩
      cases he
    all_goals cases h

theorem Strict.mapErr (hS : S.Strict) : (S.mapErr g).Strict := by
  rcases hS with ⟨e, he⟩
  refine ⟨g e, ?_⟩
  unfold Scanner.mapErr
  rw [he]

theorem parser_mapErr : (S.mapErr g).parser = S.parser := by
  funext b
  change (S.mapErr g b).outcome = (S b).outcome
  unfold mapErr
  cases S b with
  | more f => cases f <;> rfl
  | fail e => cases e <;> rfl
  | done x r =>
      change ((x.mapErr g).erase >>= _) = (x.erase >>= _)
      rw [Result.erase_mapErr]

end MapErr

end Scanner

/-! ## Decoders with a buffer -/

/-- A buffer without a whole value, or the end of the value. -/
inductive Buffer (β ε α : Type) where
  | waiting (buf : List β)
  | ended (x : Result ε α)

/-- The decoder that scans its buffer at every push. -/
def buffered {β ε α : Type} (S : Scanner β ε α) : PushDecoder β ε α where
  State := Buffer β ε α
  init := .waiting []
  push
    | .waiting buf, b => match S (buf ++ b) with
        | .more _ => .ok (.waiting (buf ++ b), [], .needsMore)
        | .done x r => .ok (.ended x, r, .ready)
        | .fail e => .error e
    | .ended x, b => .ok (.ended x, b, .ready)
  finish
    | .waiting buf => match S buf with
        | .more f => .error f
        | _ => .panicked
    | .ended x => x
  readLimit
    | .waiting buf => match S buf with
        | .more _ => 1
        | _ => 0
    | .ended _ => 0

namespace PushDecoder

variable {β ε α : Type} {S : Scanner β ε α}

/-- The buffer of the state holds no whole value. -/
def Buffers (S : Scanner β ε α) : Buffer β ε α → Prop
  | .waiting buf => ∃ f, S buf = .more f
  | .ended _ => False

theorem push_waiting (S : Scanner β ε α) (buf b : List β) :
    (buffered S).push (.waiting buf) b = match S (buf ++ b) with
      | .more _ => .ok (.waiting (buf ++ b), [], .needsMore)
      | .done x r => .ok (.ended x, r, .ready)
      | .fail e => .error e :=
  rfl

theorem finish_waiting (S : Scanner β ε α) (buf : List β) :
    (buffered S).finish (.waiting buf) = match S buf with
      | .more f => .error f
      | _ => .panicked :=
  rfl

theorem exists_waiting {s : (buffered S).State} (hs : (buffered S).Live (Buffers S) s) :
    ∃ buf, s = .waiting buf ∧ (buf = [] ∨ ∃ f, S buf = .more f) := by
  rcases hs with rfl | hs
  · exact ⟨[], rfl, .inl rfl⟩
  · cases s with
    | waiting buf => exact ⟨buf, rfl, .inr hs⟩
    | ended x => exact absurd hs id

/-- A value ends after the buffer that did not hold it. -/
theorem append_of_done (hS : S.Lawful) {buf a r : List β} {x : Result ε α}
    (hbuf : buf = [] ∨ ∃ f, S buf = .more f) (hscan : S (buf ++ a) = .done x r) :
    ∃ c, a = c ++ r ∧ ∀ b, S (buf ++ (c ++ b)) = .done x b := by
  rcases hS.done hscan with ⟨d, heq, hd⟩
  rcases List.append_eq_append_iff.mp heq with ⟨c, rfl, rfl⟩ | ⟨c, rfl, rfl⟩
  · refine ⟨c, rfl, fun b => ?_⟩
    rw [← List.append_assoc]
    exact hd b
  · rcases hbuf with hnil | ⟨f, hf⟩
    · rcases List.append_eq_nil_iff.mp hnil with ⟨rfl, rfl⟩
      exact ⟨[], rfl, hd⟩
    · rw [hd c] at hf
      cases hf

theorem lawfulAt_buffered (hS : S.Lawful) {buf : List β}
    (hbuf : buf = [] ∨ ∃ f, S buf = .more f) (a : List β) :
    (buffered S).LawfulAt (Buffers S) (.waiting buf) a := by
  cases hscan : S (buf ++ a) with
  | more f =>
      have hpush : (buffered S).push (.waiting buf) a =
          .ok (.waiting (buf ++ a), [], .needsMore) := by
        rw [push_waiting, hscan]
      apply LawfulAt.of_wait hpush ⟨f, hscan⟩
      intro b
      rw [push_waiting, push_waiting, List.append_assoc]
  | done x r =>
      rcases append_of_done hS hbuf hscan with ⟨c, rfl, hc⟩
      apply LawfulAt.of_done (t := Buffer.ended x)
      intro b
      rw [push_waiting, hc]
  | fail e =>
      apply LawfulAt.of_fail
      intro b
      rcases hS.fail hscan b with ⟨e', he'⟩
      rw [push_waiting, ← List.append_assoc, he']
      rfl

theorem lawfulOn_buffered (hS : S.Lawful) : (buffered S).LawfulOn (Buffers S) where
  push {s} hs a := by
    rcases exists_waiting hs with ⟨buf, rfl, hbuf⟩
    exact lawfulAt_buffered hS hbuf a
  idle {s} hs := by
    cases s with
    | waiting buf =>
        rcases hs with ⟨f, hf⟩
        rw [push_waiting, List.append_nil, hf]
    | ended x => exact absurd hs id
  early {s} hs := by
    cases s with
    | waiting buf =>
        rcases hs with ⟨f, hf⟩
        rcases hS.early hf with ⟨e, rfl⟩
        exact ⟨e, by rw [finish_waiting, hf]⟩
    | ended x => exact absurd hs id

/-- A buffered decoder is chunk independent when its scanner keeps what it decided. -/
theorem lawful_buffered (hS : S.Lawful) : (buffered S).Lawful :=
  ⟨_, lawfulOn_buffered hS⟩

theorem strict_buffered (hS : S.Strict) : (buffered S).Strict := by
  rcases hS with ⟨e, he⟩
  refine ⟨?_, e, ?_⟩
  · change (buffered S).push (.waiting []) [] = _
    rw [push_waiting, List.append_nil, he]
    rfl
  · change (buffered S).finish (.waiting []) = _
    rw [finish_waiting, he]

/-- A buffered decoder means what its scanner finds in the whole stream. -/
theorem meaning_buffered : (buffered S).meaning = S.parser := by
  funext b
  change ((buffered S).push (.waiting []) b >>= _).erase = (S b).outcome
  rw [push_waiting, List.nil_append]
  cases hscan : S b with
  | more f =>
      change ((buffered S).finish (.waiting b) >>= _).erase = _
      rw [finish_waiting, hscan]
      cases f <;> rfl
  | fail e => cases e <;> rfl
  | done x r =>
      cases x with
      | ok a => rfl
      | error e => cases e <;> rfl

theorem accepts_buffered {b r : List β} {a : α} :
    (buffered S).Accepts b a r ↔ S.Accepts b a r := by
  rw [← meaning_eq_ok, meaning_buffered, Scanner.parser_eq_ok]

end PushDecoder

end RustPsbt
