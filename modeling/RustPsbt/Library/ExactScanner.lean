import RustPsbt.Library.Buffered

/-!
# Exact scanners

A scanner is exact for an encoding when it takes the encodings of the values that fit and
nothing else.  Exact scanners are put together like the formats they scan.

Main results:

- Theorems `Scanner.Exact.pair` and `Scanner.Exact.map`: the encodings of records.
- Theorem `Scanner.Exact.replicate`: scanning in a row takes the encodings in a row.
-/

namespace RustPsbt
namespace Scanner

variable {β ε ε' α γ : Type}

/-- Scan one value, then another. -/
def pair (S : Scanner β ε α) (T : Scanner β ε γ) : Scanner β ε (α × γ) :=
  S.andThen fun a => T.andThen fun c => Scanner.pure (.ok (a, c))

/-- Scan a value and return another one for it. -/
def map (f : α → γ) (S : Scanner β ε α) : Scanner β ε γ :=
  S.andThen fun a => Scanner.pure (.ok (f a))

/-- The scanner takes exactly the encodings of the values that fit, and never panics. -/
structure Exact (S : Scanner β ε α) (encode : α → List β) (Fits : α → Prop) : Prop where
  lawful : S.Lawful
  returns : ∀ b, (S.parser b).Returns
  accepts : ∀ {b a r}, S.Accepts b a r ↔ b = encode a ++ r ∧ Fits a

namespace Exact

variable {S : Scanner β ε α} {encode encode' : α → List β} {Fits Fits' : α → Prop}

/-- The encoding matters for values that fit only. -/
theorem congr (h : Exact S encode Fits) (hfits : ∀ a, Fits a ↔ Fits' a)
    (hencode : ∀ a, Fits a → encode a = encode' a) : Exact S encode' Fits' where
  lawful := h.lawful
  returns := h.returns
  accepts {b a r} := by
    rw [h.accepts, ← hfits a]
    constructor
    · intro ⟨hb, ha⟩
      exact ⟨hencode a ha ▸ hb, ha⟩
    · intro ⟨hb, ha⟩
      exact ⟨(hencode a ha).symm ▸ hb, ha⟩

/-- A value that is there without scanning. -/
theorem pure (c : α) : Exact (Scanner.pure (.ok c) : Scanner β ε α) (fun _ => []) (· = c) where
  lawful := lawful_pure _
  returns _ := trivial
  accepts {b a r} := by
    rw [accepts_pure]
    constructor
    · intro ⟨ha, hb⟩
      exact ⟨hb, (Except.ok.inj ha).symm⟩
    · intro ⟨hb, ha⟩
      exact ⟨congrArg _ ha.symm, hb⟩

/-- One part, then what it selects; `part` finds the first part in the whole. -/
theorem andThen {k : α → Scanner β ε γ} {part : γ → α} {rest : γ → List β} {FitsRest : γ → Prop}
    (h : Exact S encode Fits)
    (hk : ∀ a, Exact (k a) rest fun c => FitsRest c ∧ part c = a) :
    Exact (S.andThen k) (fun c => encode (part c) ++ rest c)
      fun c => Fits (part c) ∧ FitsRest c where
  lawful := h.lawful.andThen fun a => (hk a).lawful
  returns b := by
    rw [parser_andThen]
    exact Parser.Returns.andThen (h.returns b) fun a r _ => (hk a).returns r
  accepts {b c r} := by
    rw [accepts_andThen]
    simp only [h.accepts, (hk _).accepts]
    constructor
    · rintro ⟨a, m, ⟨rfl, ha⟩, rfl, hc, rfl⟩
      exact ⟨(List.append_assoc ..).symm, ha, hc⟩
    · rintro ⟨rfl, ha, hc⟩
      exact ⟨part c, rest c ++ r, ⟨List.append_assoc .., ha⟩, rfl, hc, rfl⟩

/-- Two parts. -/
theorem pair {T : Scanner β ε γ} {encodeT : γ → List β} {FitsT : γ → Prop}
    (h : Exact S encode Fits) (hT : Exact T encodeT FitsT) :
    Exact (S.pair T) (fun c => encode c.1 ++ encodeT c.2) fun c => Fits c.1 ∧ FitsT c.2 := by
  refine ⟨h.lawful.andThen fun a => hT.lawful.andThen fun c => lawful_pure _, fun b => ?_,
    fun {b c r} => ?_⟩
  · rw [Scanner.pair, parser_andThen]
    refine Parser.Returns.andThen (h.returns b) fun a r _ => ?_
    rw [parser_andThen]
    exact Parser.Returns.andThen (hT.returns r) fun _ _ _ => trivial
  · rw [Scanner.pair, accepts_andThen]
    simp only [accepts_andThen, h.accepts, hT.accepts, accepts_pure]
    constructor
    · rintro ⟨a, m, ⟨rfl, ha⟩, c', m', ⟨rfl, hc⟩, heq, rfl⟩
      obtain rfl : (a, c') = c := Except.ok.inj heq
      exact ⟨(List.append_assoc ..).symm, ha, hc⟩
    · rintro ⟨rfl, ha, hc⟩
      exact ⟨c.1, encodeT c.2 ++ r, ⟨List.append_assoc .., ha⟩, c.2, r, ⟨rfl, hc⟩, rfl, rfl⟩

/-- Other values for the same symbols; `back` takes a value to the one that was scanned. -/
theorem map {f : α → γ} {back : γ → α} {FitsC : γ → Prop} (h : Exact S encode Fits)
    (hf : ∀ a, Fits a → FitsC (f a) ∧ back (f a) = a)
    (hback : ∀ c, FitsC c → Fits (back c) ∧ f (back c) = c) :
    Exact (S.map f) (fun c => encode (back c)) FitsC := by
  refine ⟨h.lawful.andThen fun a => lawful_pure _, fun b => ?_, fun {b c r} => ?_⟩
  · rw [Scanner.map, parser_andThen]
    exact Parser.Returns.andThen (h.returns b) fun _ _ _ => trivial
  · rw [Scanner.map, accepts_andThen]
    simp only [h.accepts, accepts_pure]
    constructor
    · rintro ⟨a, m, ⟨rfl, ha⟩, hc, rfl⟩
      obtain rfl : f a = c := Except.ok.inj hc
      obtain ⟨hfits, hpart⟩ := hf a ha
      exact ⟨by rw [hpart], hfits⟩
    · rintro ⟨rfl, hc⟩
      obtain ⟨hfits, heq⟩ := hback c hc
      exact ⟨back c, r, ⟨rfl, hfits⟩, congrArg _ heq, rfl⟩

/-- Values in a row. -/
theorem replicate (h : Exact S encode Fits) (n : Nat) :
    Exact (S.replicate n) (fun as => as.flatMap encode)
      fun as => as.length = n ∧ ∀ a ∈ as, Fits a := by
  induction n with
  | zero =>
      refine (pure []).congr (fun as => ?_) fun as has => ?_
      · rw [List.length_eq_zero_iff]
        constructor
        · rintro rfl
          exact ⟨rfl, List.forall_mem_nil _⟩
        · exact fun has => has.1
      · rw [has]
        rfl
  | succ n ih =>
      refine ⟨h.lawful.replicate (n + 1), fun b => ?_, fun {b as r} => ?_⟩
      · rw [Scanner.replicate, parser_andThen]
        refine Parser.Returns.andThen (h.returns b) fun a r _ => ?_
        rw [parser_andThen]
        exact Parser.Returns.andThen (ih.returns r) fun _ _ _ => trivial
      · rw [Scanner.replicate, accepts_andThen]
        simp only [h.accepts, accepts_andThen, ih.accepts, accepts_pure]
        constructor
        · rintro ⟨a, m, ⟨rfl, ha⟩, as', m', ⟨rfl, hlen, hall⟩, has, rfl⟩
          obtain rfl : a :: as' = as := Except.ok.inj has
          refine ⟨by rw [List.flatMap_cons, List.append_assoc], congrArg Nat.succ hlen, ?_⟩
          exact List.forall_mem_cons.mpr ⟨ha, hall⟩
        · rintro ⟨rfl, hlen, hall⟩
          cases as with
          | nil => cases hlen
          | cons a as =>
              rw [List.forall_mem_cons] at hall
              refine ⟨a, as.flatMap encode ++ r, ⟨?_, hall.1⟩, as, r,
                ⟨rfl, Nat.succ.inj hlen, hall.2⟩, rfl, rfl⟩
              rw [List.flatMap_cons, List.append_assoc]

end Exact

theorem returns_take {n : Nat} {eof : ε} {read : List β → Result ε α}
    (hreturns : ∀ c, (read c).Returns) (b : List β) : ((take n eof read).parser b).Returns := by
  unfold parser take
  split
  · rw [Scan.outcome, Result.returns_bind, Result.returns_erase]
    exact ⟨hreturns _, fun _ => trivial⟩
  · trivial

/-- A fixed number of symbols. -/
theorem exact_take {n : Nat} {eof : ε} {read : List β → Result ε α} {encode : α → List β}
    {Fits : α → Prop} (hreturns : ∀ c, (read c).Returns)
    (hread : ∀ {c a}, c.length = n → (read c = .ok a ↔ c = encode a ∧ Fits a))
    (hlen : ∀ a, Fits a → (encode a).length = n) : Exact (take n eof read) encode Fits where
  lawful := lawful_take
  returns := returns_take hreturns
  accepts {b a r} := by
    rw [accepts_take]
    constructor
    · rintro ⟨c, rfl, hc, hok⟩
      obtain ⟨rfl, ha⟩ := (hread hc).mp hok
      exact ⟨rfl, ha⟩
    · rintro ⟨rfl, ha⟩
      exact ⟨encode a, rfl, hlen a ha, (hread (hlen a ha)).mpr ⟨rfl, ha⟩⟩

/-- As many symbols as the first one announces. -/
theorem exact_announced {width : β → Nat} {eof : ε} {read : List β → Result ε α}
    {encode : α → List β} {Fits : α → Prop} (hpos : ∀ tag, 0 < width tag)
    (hreturns : ∀ c, (read c).Returns)
    (hread : ∀ {tag c a}, (tag :: c).length = width tag →
      (read (tag :: c) = .ok a ↔ tag :: c = encode a ∧ Fits a))
    (hlen : ∀ a, Fits a → ∃ tag c, encode a = tag :: c ∧ (tag :: c).length = width tag) :
    Exact (announced width eof read) encode Fits := by
  refine ⟨lawful_announced hpos, fun b => ?_, fun {b a r} => ?_⟩
  · cases b with
    | nil => trivial
    | cons tag b => exact returns_take hreturns (tag :: b)
  · constructor
    · intro h
      cases b with
      | nil => cases h
      | cons tag b =>
          have htake : (take (width tag) eof read).Accepts (tag :: b) a r := h
          obtain ⟨c, hb, hc, hok⟩ := accepts_take.mp htake
          cases c with
          | nil =>
              have htag := hpos tag
              simp only [List.length_nil] at hc
              omega
          | cons tag' c =>
              obtain ⟨rfl, rfl⟩ := List.cons.inj hb
              obtain ⟨hc, ha⟩ := (hread hc).mp hok
              exact ⟨hc ▸ hb, ha⟩
    · rintro ⟨rfl, ha⟩
      obtain ⟨tag, c, hencode, hc⟩ := hlen a ha
      rw [hencode]
      have htake : (take (width tag) eof read).Accepts (tag :: c ++ r) a r :=
        accepts_take.mpr ⟨tag :: c, rfl, hc, (hread hc).mpr ⟨hencode.symm, ha⟩⟩
      exact htake

end Scanner

/-! ## Exact decoders -/

namespace PushDecoder

variable {β ε α : Type} {S : Scanner β ε α} {encode : α → List β} {Fits : α → Prop}

/-- The decoder of an exact scanner takes the encodings of the values that fit. -/
theorem accepts_buffered_of_exact (h : S.Exact encode Fits) {b r : List β} {a : α} :
    (buffered S).Accepts b a r ↔ b = encode a ++ r ∧ Fits a := by
  rw [accepts_buffered, h.accepts]

theorem safe_buffered_of_exact (h : S.Exact encode Fits) : (buffered S).Safe := by
  rw [safe_iff, meaning_buffered]
  exact h.returns

end PushDecoder

end RustPsbt
