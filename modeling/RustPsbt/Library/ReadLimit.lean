import RustPsbt.Library.Buffered
import RustPsbt.Library.StagedLoop

/-!
# Read limits

A reader may fetch as many symbols as the read limit of a decoder before the next push.
A limit suits what is left of the value when it asks for no more than that, and for
nothing only when nothing is left.  A decoder may miss this at some positions; a
composite decoder then misses it only where a part does.

Main results:

- Theorem `PushDecoder.LimitsExcept.feed`: the limit suits what is left after any chunks.
- Theorem `PushDecoder.LimitsExcept.fetched`: a reader that keeps to the limits takes
  nothing behind the value, and goes on until it has all of it.
- Theorems `PushDecoder.LimitsExcept.wrap`, `PushDecoder.LimitsExcept.closing`,
  `PushDecoder.LimitsExcept.metered`, `PushDecoder.LimitsExcept.prefixed` and
  `PushDecoder.Stage.limitsFrom`: how limits compose.
-/

namespace RustPsbt
namespace PushDecoder

variable {β ε ε' ε₁ α α' γ δ : Type}

/-! ## Limits -/

/-- The limit in the state `s` suits the rest `y` of the value. -/
def LimitAt (D : PushDecoder β ε α) (s : D.State) (y : List β) : Prop :=
  D.readLimit s ≤ y.length ∧ (D.readLimit s = 0 ↔ y = [])

/-- A push of `x` from `s` leaves a limit that suits the rest `y`. -/
def LimitsFrom (D : PushDecoder β ε α) (s : D.State) (x y : List β) : Prop :=
  ∀ ⦃t r st⦄, D.push s x = .ok (t, r, st) → D.LimitAt t y

/-- Inside of everything that is decoded the limit suits what is left, except perhaps
where `Bad` holds of what was pushed and of what is left. -/
structure LimitsExcept (D : PushDecoder β ε α) (Bad : List β → List β → Prop) : Prop where
  fresh : ∀ {y a}, D.Decodes y a → ¬Bad [] y → D.LimitAt D.init y
  push : ∀ {x y a}, D.Decodes (x ++ y) a → ¬Bad x y → D.LimitsFrom D.init x y

/-- The limit always suits what is left. -/
abbrev Limits (D : PushDecoder β ε α) : Prop :=
  D.LimitsExcept fun _ _ => False

theorem limitAt_nil {D : PushDecoder β ε α} {s : D.State} :
    D.LimitAt s [] ↔ D.readLimit s = 0 := by
  unfold LimitAt
  simp

/-- A limit inside of a part suits the whole. -/
theorem LimitAt.append {D : PushDecoder β ε₁ γ} {P : PushDecoder β ε α} {p : D.State}
    {s : P.State} {y : List β} (h : D.LimitAt p y) (hy : y ≠ [])
    (heq : P.readLimit s = D.readLimit p) (m : List β) : P.LimitAt s (y ++ m) := by
  have hpos : D.readLimit p ≠ 0 := fun hzero => hy (h.2.mp hzero)
  refine ⟨?_, ?_⟩
  · rw [heq, List.length_append]
    exact Nat.le_trans h.1 (Nat.le_add_right _ _)
  · rw [heq]
    exact ⟨fun hzero => absurd hzero hpos, fun hnil => absurd (List.append_eq_nil_iff.mp hnil).1 hy⟩

namespace LimitsExcept

variable {D : PushDecoder β ε α} {Bad Bad' : List β → List β → Prop}

theorem mono (h : D.LimitsExcept Bad) (hbad : ∀ {x y}, Bad x y → Bad' x y) :
    D.LimitsExcept Bad' where
  fresh hdec hgood := h.fresh hdec fun hb => hgood (hbad hb)
  push hdec hgood := h.push hdec fun hb => hgood (hbad hb)

/-- A strict decoder keeps its limit when nothing is pushed. -/
theorem of_strict (hstrict : D.Strict)
    (hpush : ∀ {x y a}, D.Decodes (x ++ y) a → ¬Bad x y → D.LimitsFrom D.init x y) :
    D.LimitsExcept Bad where
  fresh hdec hgood := hpush (x := []) hdec hgood hstrict.idle
  push := hpush

end LimitsExcept

theorem Limits.except {D : PushDecoder β ε α} (h : D.Limits) (Bad : List β → List β → Prop) :
    D.LimitsExcept Bad :=
  h.mono False.elim

/-! ## Pushing what is decoded -/

/-- What a decoder decodes makes it ready, and it leaves what follows. -/
theorem LawfulOn.push_decoded {D : PushDecoder β ε α} {W : D.State → Prop} (h : D.LawfulOn W)
    {w : List β} {a : α} (hdec : D.Decodes w a) :
    ∃ s, D.finish s = .ok a ∧ ∀ b, D.push D.init (w ++ b) = .ok (s, b, .ready) := by
  rcases h.accepts_iff_ready.mp hdec with ⟨s, hpush, hfin⟩
  rcases h.done LawfulOn.live_init hpush with ⟨c, hc, hall⟩
  rw [List.append_nil] at hc
  subst hc
  exact ⟨s, hfin, hall⟩

/-- A position in two parts is inside of the first one or behind it. -/
theorem split_cases {x y w m : List β} (h : x ++ y = w ++ m) :
    (∃ rest, rest ≠ [] ∧ w = x ++ rest ∧ y = rest ++ m) ∨ ∃ x', x = w ++ x' ∧ m = x' ++ y := by
  rcases List.append_eq_append_iff.mp h with ⟨rest, rfl, rfl⟩ | ⟨x', rfl, rfl⟩
  · cases rest with
    | nil => exact .inr ⟨[], by simp⟩
    | cons b rest => exact .inl ⟨b :: rest, List.cons_ne_nil b rest, rfl, rfl⟩
  · exact .inr ⟨x', rfl, rfl⟩

/-! ## Chunks and readers -/

/-- Chunks lead where one push of all of them does. -/
theorem Lawful.push_of_feed {D : PushDecoder β ε α} (hlaw : D.Lawful) {chunk r : List β}
    {chunks : List (List β)} {s : D.State} (hfeed : D.feed D.init [] (chunk :: chunks) = .ok (s, r)) :
    ∃ st, D.push D.init (chunk :: chunks).flatten = .ok (s, r, st) := by
  rcases hlaw with ⟨W, hlaw⟩
  have hone := hlaw.feed_eq chunks chunk LawfulOn.live_init
  rw [hfeed] at hone
  have hone := Result.toOption_eq_some.mp hone.symm
  simp only [PushDecoder.feed, List.nil_append] at hone
  rcases Result.bind_eq_ok.mp hone with ⟨⟨t, r', st⟩, hpush, heq⟩
  cases st with
  | needsMore =>
      cases heq
      exact ⟨.needsMore, hpush⟩
  | ready =>
      cases heq
      rw [List.flatten_nil, List.append_nil]
      exact ⟨.ready, hpush⟩

/-- A push of a part of what is decoded takes all of it. -/
theorem Lawful.rest_eq_nil {D : PushDecoder β ε α} (hlaw : D.Lawful) {x y r : List β} {a : α}
    {s : D.State} {st : Status} (hdec : D.Decodes (x ++ y) a)
    (hpush : D.push D.init x = .ok (s, r, st)) : r = [] := by
  rcases hlaw with ⟨W, hlaw⟩
  by_cases hy : y = []
  · subst hy
    rw [List.append_nil] at hdec
    rcases hlaw.push_decoded hdec with ⟨t, _, hall⟩
    have hnil := hall []
    rw [List.append_nil, hpush] at hnil
    cases hnil
    rfl
  · rcases hlaw.push_part hdec hy with ⟨t, hpart⟩
    rw [hpush] at hpart
    cases hpart
    rfl

/-- After any chunks the limit suits what is left. -/
theorem LimitsExcept.feed {D : PushDecoder β ε α} {Bad : List β → List β → Prop}
    (h : D.LimitsExcept Bad) (hlaw : D.Lawful) {chunks : List (List β)} {y r : List β} {a : α}
    {s : D.State} (hdec : D.Decodes (chunks.flatten ++ y) a) (hgood : ¬Bad chunks.flatten y)
    (hfeed : D.feed D.init [] chunks = .ok (s, r)) : r = [] ∧ D.LimitAt s y := by
  cases chunks with
  | nil =>
      cases hfeed
      exact ⟨rfl, h.fresh hdec hgood⟩
  | cons chunk chunks =>
      rcases hlaw.push_of_feed hfeed with ⟨st, hpush⟩
      exact ⟨hlaw.rest_eq_nil hdec hpush, h.push hdec hgood hpush⟩

/-- A reader has fetched `x` in chunks inside of the limits, and the decoder is in the
state `s`; every position that the reader came to was `Good`. -/
inductive Fetched (D : PushDecoder β ε α) (Good : List β → Prop) : List β → D.State → Prop where
  | start (good : Good []) : Fetched D Good [] D.init
  | chunk {x chunk r : List β} {s s' : D.State} {st : Status} (before : Fetched D Good x s)
      (some : chunk ≠ []) (within : chunk.length ≤ D.readLimit s)
      (push : D.push s chunk = .ok (s', r, st)) (good : Good (x ++ chunk)) :
      Fetched D Good (x ++ chunk) s'

/-- A push of the next part of the value goes on where one push of the parts before leads. -/
theorem LawfulOn.push_next {D : PushDecoder β ε α} {W : D.State → Prop} (h : D.LawfulOn W)
    {x y r r' chunk : List β} {a : α} {s s' : D.State} {st st' : Status}
    (hdec : D.Decodes (x ++ y) a) (hy : y ≠ []) (hx : D.push D.init x = .ok (s, r, st))
    (hpush : D.push s chunk = .ok (s', r', st')) :
    D.push D.init (x ++ chunk) = .ok (s', r', st') := by
  rcases h.push_part hdec hy with ⟨t, hpart⟩
  rw [hx] at hpart
  cases hpart
  have hresume := h.resume LawfulOn.live_init hx chunk
  rw [hpush] at hresume
  exact Result.toOption_eq_some.mp hresume

/-- A reader that keeps to the limits and comes to no bad position has fetched a part of the
value, and its next limit suits the rest. -/
theorem LimitsExcept.fetched {D : PushDecoder β ε α} {Bad : List β → List β → Prop}
    (h : D.LimitsExcept Bad) (hlaw : D.Lawful) {b : List β} {a : α} (hdec : D.Decodes b a)
    {x rest r : List β} {s : D.State}
    (hfetched : D.Fetched (fun x => ∀ y, b = x ++ y → ¬Bad x y) x s)
    (hstream : x ++ rest = b ++ r) :
    ∃ y, b = x ++ y ∧ rest = y ++ r ∧ D.LimitAt s y := by
  rcases hlaw with ⟨W, hlaw⟩
  -- the reader is where one push of all that it has fetched leads
  have hstate : ∃ y, b = x ++ y ∧ rest = y ++ r ∧ D.LimitAt s y ∧
      (x = [] ∧ s = D.init ∨ ∃ r' st, D.push D.init x = .ok (s, r', st)) := by
    induction hfetched generalizing rest with
    | start hgood => exact ⟨b, rfl, hstream, h.fresh hdec (hgood b rfl), .inl ⟨rfl, rfl⟩⟩
    | @chunk x chunk r' s s' st before hne within push hgood ih =>
        rw [List.append_assoc] at hstream
        rcases ih hstream with ⟨y, rfl, hrest, hlimit, hreached⟩
        have hprefix : chunk <+: y :=
          List.prefix_of_prefix_length_le ⟨rest, hrest⟩ (List.prefix_append y r)
            (Nat.le_trans within hlimit.1)
        rcases hprefix with ⟨z, rfl⟩
        have hpush : ∃ r' st, D.push D.init (x ++ chunk) = .ok (s', r', st) := by
          rcases hreached with ⟨rfl, rfl⟩ | ⟨r'', st', hreached⟩
          · exact ⟨r', st, push⟩
          · have hleft : chunk ++ z ≠ [] := by simp [hne]
            exact ⟨r', st, hlaw.push_next hdec hleft hreached push⟩
        rcases hpush with ⟨r'', st', hpush⟩
        rw [← List.append_assoc] at hdec
        have hsplit : x ++ (chunk ++ z) = x ++ chunk ++ z := (List.append_assoc _ _ _).symm
        rw [List.append_assoc] at hrest
        exact ⟨z, hsplit, List.append_cancel_left hrest, h.push hdec (hgood z hsplit) hpush,
          .inr ⟨r'', st', hpush⟩⟩
  rcases hstate with ⟨y, hb, hrest, hlimit, _⟩
  exact ⟨y, hb, hrest, hlimit⟩

/-! ## Composite decoders -/

namespace LimitsExcept

variable {D : PushDecoder β ε α} {Bad : List β → List β → Prop}

theorem wrap {g g' : ε → ε'} {k : α → Result ε' α'} (h : D.LimitsExcept Bad) :
    (D.wrap g g' k).LimitsExcept Bad where
  fresh hdec hgood := by
    rcases accepts_wrap.mp hdec with ⟨a, hdec, _⟩
    exact h.fresh hdec hgood
  push hdec hgood t r st hpush := by
    rcases accepts_wrap.mp hdec with ⟨a, hdec, _⟩
    exact h.push hdec hgood (Result.mapErr_eq_ok.mp hpush)

theorem mapErr {g : ε → ε'} (h : D.LimitsExcept Bad) : (D.mapErr g).LimitsExcept Bad :=
  h.wrap

theorem closing {close : Result ε α → Result ε α'} (h : D.LimitsExcept Bad)
    (hclose : D.Closes close) : (D.closing close).LimitsExcept Bad where
  fresh hdec hgood := by
    rcases (accepts_closing hclose).mp hdec with ⟨a, hdec, _⟩
    exact h.fresh hdec hgood
  push hdec hgood t r st hpush := by
    rcases (accepts_closing hclose).mp hdec with ⟨a, hdec, _⟩
    exact h.push hdec hgood hpush

theorem metered {wrong : Nat → Nat → ε} {declared : Nat} (h : D.LimitsExcept Bad) :
    (D.metered wrong declared).LimitsExcept Bad where
  fresh hdec hgood := h.fresh (decodes_metered.mp hdec).1 hgood
  push hdec hgood t r st hpush := by
    rcases push_metered_eq_ok.mp hpush with ⟨s', hinner, rfl⟩
    exact h.push (decodes_metered.mp hdec).1 hgood hinner

end LimitsExcept

section Prefixed

variable {P : PushDecoder β ε₁ α} {lengthPrefix : ε₁ → ε} {check : α → Result ε γ}
  {D : γ → PushDecoder β ε δ} {extraLimit : Nat}

/-- The limits suit when those of the parts do and what is added in the prefix is part of
what the prefix announces. -/
theorem LimitsExcept.prefixed (hlaw : P.Lawful) (hstrict : P.Strict) (hP : P.Limits)
    (hD : ∀ c, (D c).Limits)
    (hextra : ∀ {n c w d}, check n = .ok c → (D c).Decodes w d → extraLimit ≤ w.length) :
    (P.prefixed lengthPrefix check D extraLimit).Limits := by
  apply LimitsExcept.of_strict hstrict.prefixed
  intro x y d hdec _ t r st hpush
  rcases (accepts_prefixed hlaw).mp hdec with ⟨n, m, c, hn, hcheck, hd⟩
  rcases hlaw.accepts_iff.mp hn with ⟨p, heq, hp⟩
  rcases hlaw with ⟨W, hlaw⟩
  rcases split_cases heq with ⟨left, hleft, rfl, rfl⟩ | ⟨x', rfl, rfl⟩
  · rcases hlaw.push_part hp hleft with ⟨p', hpart⟩
    have hlimit := hP.push hp id hpart
    change (P.prefixed lengthPrefix check D extraLimit).push (.readingPrefix P.init) x = _ at hpush
    rw [push_prefixed_needsMore hpart] at hpush
    cases hpush
    have hpos : P.readLimit p' ≠ 0 := fun hzero => hleft (hlimit.2.mp hzero)
    have hle := hextra hcheck hd
    change P.readLimit p' + extraLimit ≤ _ ∧ (P.readLimit p' + extraLimit = 0 ↔ _)
    refine ⟨?_, ?_⟩
    · rw [List.length_append]
      exact Nat.add_le_add hlimit.1 hle
    · simp [hpos, hleft]
  · rcases hlaw.push_decoded hp with ⟨p', hfin, hall⟩
    have hready : (P.prefixed lengthPrefix check D extraLimit).push (.readingPrefix P.init)
        (p ++ x') = (P.prefixed lengthPrefix check D extraLimit).push
          (.readingValue c (D c).init) x' := by
      rw [push_prefixed_ready (hall x'), hfin, Result.mapErr_ok, Result.ok_bind, hcheck,
        Result.ok_bind]
    rcases push_value_eq_ok.mp (hready.symm.trans hpush) with ⟨v, hv, rfl⟩
    exact (hD c).push hd id hv

end Prefixed

section Stage

variable {P : PushDecoder β ε α} {D : PushDecoder β ε₁ γ} {W : D.State → Prop}
  {emb : D.State → P.State} {k : γ → Result ε P.State} {w m x y r : List β} {a : γ}
  {s t : P.State} {st : Status}

/-- A push ends inside of what a stage decodes, or the next stage goes on with what is
behind it. -/
theorem Stage.push_cases (h : P.Stage D W emb k) (hD : D.LawfulOn W) (hdec : D.Decodes w a)
    (hk : k a = .ok s) (heq : x ++ y = w ++ m)
    (hpush : P.push (emb D.init) x = .ok (t, r, st)) :
    (∃ rest p, rest ≠ [] ∧ w = x ++ rest ∧ y = rest ++ m ∧
        D.push D.init x = .ok (p, [], .needsMore) ∧ t = emb p) ∨
      ∃ x', x = w ++ x' ∧ m = x' ++ y ∧ P.push s x' = .ok (t, r, st) := by
  rcases split_cases heq with ⟨rest, hrest, rfl, rfl⟩ | ⟨x', rfl, rfl⟩
  · rcases hD.push_part hdec hrest with ⟨p, hpart⟩
    rw [h.push_needsMore LawfulOn.live_init hpart] at hpush
    cases hpush
    exact .inl ⟨rest, p, hrest, rfl, rfl, hpart, rfl⟩
  · have hnext := h.push_decoded hD hdec hk x'
    rw [hpush, Result.erase_ok] at hnext
    exact .inr ⟨x', rfl, rfl, Result.erase_eq_ok.mp hnext.symm⟩

/-- A limit suits when those of the stage and of the next one do. -/
theorem Stage.limitsFrom (h : P.Stage D W emb k) (hD : D.LawfulOn W)
    (hemb : ∀ p, P.readLimit (emb p) = D.readLimit p) (hdec : D.Decodes w a) (hk : k a = .ok s)
    (heq : x ++ y = w ++ m)
    (hinside : ∀ {rest}, rest ≠ [] → w = x ++ rest → y = rest ++ m → D.LimitsFrom D.init x rest)
    (hbehind : ∀ {x'}, x = w ++ x' → m = x' ++ y → P.LimitsFrom s x' y) :
    P.LimitsFrom (emb D.init) x y := by
  intro t r st hpush
  rcases h.push_cases hD hdec hk heq hpush with
    ⟨rest, p, hrest, hw, rfl, hpart, rfl⟩ | ⟨x', hx, hm, hnext⟩
  · exact (hinside hrest hw rfl hpart).append hrest (hemb p) m
  · exact hbehind hx hm hnext

end Stage

/-- The position is inside of a value of a row, where `Bad` holds. -/
def InRow (D : PushDecoder β ε α) (Bad : List β → List β → Prop) (x y : List β) : Prop :=
  ∃ (ws : List (List β)) (x' y' r : List β), x = ws.flatten ++ x' ∧ y = y' ++ r ∧
    (∀ w ∈ ws, ∃ a, D.Decodes w a) ∧ (∃ a, D.Decodes (x' ++ y') a) ∧ Bad x' y'

/-! ## Buffered decoders -/

/-- One more symbol is asked for while the buffer holds no whole value. -/
theorem limitAt_waiting {S : Scanner β ε α} {buf y : List β} {f : Fault ε}
    (hbuf : S buf = .more f) (hy : y ≠ []) : (buffered S).LimitAt (.waiting buf) y := by
  have hone : (buffered S).readLimit (.waiting buf) = 1 := by
    simp only [buffered, hbuf]
  have hpos := List.length_pos_iff.mpr hy
  unfold LimitAt
  rw [hone]
  exact ⟨hpos, by simp [hy]⟩

/-- A buffered decoder asks for one symbol while its scanner needs more. -/
theorem limits_buffered {S : Scanner β ε α} (hS : S.Lawful) : (buffered S).Limits where
  fresh {y a} hdec _ := by
    have hscan : S y = .done (.ok a) [] := accepts_buffered.mp hdec
    change (buffered S).LimitAt (.waiting []) y
    cases hnil : S [] with
    | more f =>
        apply limitAt_waiting hnil
        rintro rfl
        rw [hnil] at hscan
        cases hscan
    | done v r =>
        rcases hS.done hnil with ⟨c, hc, hall⟩
        rcases List.append_eq_nil_iff.mp hc.symm with ⟨rfl, rfl⟩
        have hsame := hall y
        rw [List.nil_append, hscan] at hsame
        cases hsame
        apply limitAt_nil.mpr
        simp only [buffered, hnil]
    | fail e =>
        rcases hS.fail hnil y with ⟨e', he'⟩
        rw [List.nil_append, hscan] at he'
        cases he'
  push {x y a} hdec _ t r st hpush := by
    by_cases hy : y = []
    · subst hy
      rw [List.append_nil] at hdec
      rcases (lawfulOn_buffered hS).push_decoded hdec with ⟨t', _, hall⟩
      have hready := hall []
      rw [List.append_nil, hpush] at hready
      cases hready
      change (buffered S).push (.waiting []) x = _ at hpush
      rw [push_waiting] at hpush
      cases hscan : S ([] ++ x) with
      | more f => rw [hscan] at hpush; cases hpush
      | fail e => rw [hscan] at hpush; cases hpush
      | done v r' =>
          rw [hscan] at hpush
          cases hpush
          exact limitAt_nil.mpr rfl
    · rcases (lawfulOn_buffered hS).push_part hdec hy with ⟨t', hpart⟩
      rw [hpart] at hpush
      cases hpush
      change (buffered S).push (.waiting []) x = _ at hpart
      rw [push_waiting] at hpart
      cases hscan : S ([] ++ x) with
      | fail e => rw [hscan] at hpart; cases hpart
      | done v r' => rw [hscan] at hpart; cases hpart
      | more f =>
          rw [hscan] at hpart
          cases hpart
          exact limitAt_waiting hscan hy

end PushDecoder
end RustPsbt
