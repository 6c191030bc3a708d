import Mathlib.Data.List.Basic

/-! # Transducers — items taken one at a time, until there is a verdict

    A reader of a stream keeps a state, takes one item after the other, and gives
    something out for each.  At some item it may come to a verdict, and leaves the
    items behind it alone.  `feed` is such a run over a list.

    The one fact that matters of a stream is that it comes in pieces.  `feed_append`
    says that a run over two pieces is the run over the first, taken up again in the
    state it has left; `feedAll_eq` that any number of pieces read one by one come to
    the same as all of them at once.

    A reader without a state can only be asked again, with all that has come so far.  It
    may then answer that it is too early to tell.  `Steady` says of two such answers, the
    second one given to a longer input, that the first one stands unless it was that. -/

namespace CoioTransducer

variable {σ α β ρ : Type}

/-- What is done with one item. -/
inductive Turn (σ β ρ : Type) where
  | go (s : σ) (out : List β)
  /-- the verdict; `taken` says whether the item is part of what was read -/
  | halt (verdict : ρ) (taken : Bool)

/-- How far a run has come. -/
inductive Reached (σ α ρ : Type) where
  | waiting (s : σ)
  | stopped (verdict : ρ) (rest : List α)
  deriving DecidableEq

/-- What a run gives out, and how far it comes. -/
abbrev Fed (σ α β ρ : Type) := List β × Reached σ α ρ

def feed (step : σ → α → Turn σ β ρ) : σ → List α → Fed σ α β ρ
  | s, [] => ([], .waiting s)
  | s, a :: as =>
      match step s a with
      | .go s' out => (out ++ (feed step s' as).1, (feed step s' as).2)
      | .halt verdict taken => ([], .stopped verdict (if taken then as else a :: as))

/-- A run is taken up again with more items, by the reader `f`. -/
def resume (f : σ → List α → Fed σ α β ρ) (r : Fed σ α β ρ) (more : List α) : Fed σ α β ρ :=
  match r with
  | (out, .waiting s) => (out ++ (f s more).1, (f s more).2)
  | (out, .stopped verdict rest) => (out, .stopped verdict (rest ++ more))

/-- The pieces of a stream are read one by one; what is left when the run stops is the
    rest of its piece and the pieces behind it. -/
def feedAll (f : σ → List α → Fed σ α β ρ) : σ → List (List α) → Fed σ α β ρ
  | s, [] => ([], .waiting s)
  | s, piece :: pieces =>
      match f s piece with
      | (out, .waiting s') => (out ++ (feedAll f s' pieces).1, (feedAll f s' pieces).2)
      | (out, .stopped verdict rest) => (out, .stopped verdict (rest ++ pieces.flatten))

section Feed

variable {step : σ → α → Turn σ β ρ} {s s' : σ} {a : α} {as bs : List α} {out : List β}

theorem feed_go (h : step s a = .go s' out) :
    feed step s (a :: as) = (out ++ (feed step s' as).1, (feed step s' as).2) := by
  rw [feed, h]

theorem feed_quiet (h : step s a = .go s' []) : feed step s (a :: as) = feed step s' as := by
  rw [feed_go h]
  rfl

theorem feed_halt {verdict : ρ} {taken : Bool} (h : step s a = .halt verdict taken) :
    feed step s (a :: as) = ([], .stopped verdict (if taken then as else a :: as)) := by
  rw [feed, h]

/-- Items that change nothing are passed over. -/
theorem feed_passes (h : ∀ a ∈ as, step s a = .go s []) :
    feed step s (as ++ bs) = feed step s bs := by
  induction as with
  | nil => rfl
  | cons a as ih =>
      have ha : step s a = .go s [] := h a List.mem_cons_self
      have has : ∀ b ∈ as, step s b = .go s [] := fun b hb => h b (List.mem_cons_of_mem a hb)
      rw [List.cons_append, feed_quiet ha, ih has]

/-- A run that stops has come behind the items that change nothing. -/
theorem stopped_behind {p : α → Bool} {verdict : ρ} {rest : List α}
    (hp : ∀ a, p a = true → step s a = .go s [])
    (h : feed step s as = (out, .stopped verdict rest)) :
    ∃ run a bs, as = run ++ a :: bs ∧ (∀ b ∈ run, p b = true) ∧ p a = false ∧
      feed step s (a :: bs) = (out, .stopped verdict rest) := by
  induction as with
  | nil => cases (Prod.mk.inj h).2
  | cons a as ih =>
      cases ha : p a with
      | false => exact ⟨[], a, as, rfl, fun b hb => absurd hb List.not_mem_nil, ha, h⟩
      | true =>
          rw [feed_quiet (hp a ha)] at h
          obtain ⟨run, b, bs, rfl, hrun, hb, hfeed⟩ := ih h
          exact ⟨a :: run, b, bs, rfl, List.forall_mem_cons.mpr ⟨ha, hrun⟩, hb, hfeed⟩

/-- **PIECES**: a run over two pieces is the run over the first one, taken up again. -/
theorem feed_append (step : σ → α → Turn σ β ρ) (s : σ) (as bs : List α) :
    feed step s (as ++ bs) = resume (feed step) (feed step s as) bs := by
  induction as generalizing s with
  | nil => rfl
  | cons a as ih =>
      rw [List.cons_append]
      cases hturn : step s a with
      | go s' out =>
          rw [feed_go hturn, feed_go hturn, ih s']
          rcases feed step s' as with ⟨out', reached⟩
          cases reached with
          | waiting t =>
              show (out ++ (out' ++ _), _) = ((out ++ out') ++ _, _)
              rw [List.append_assoc]
              rfl
          | stopped verdict rest => rfl
      | halt verdict taken =>
          rw [feed_halt hturn, feed_halt hturn]
          cases taken <;> rfl

theorem feedAll_eq (step : σ → α → Turn σ β ρ) (s : σ) (pieces : List (List α)) :
    feedAll (feed step) s pieces = feed step s pieces.flatten := by
  induction pieces generalizing s with
  | nil => rfl
  | cons piece pieces ih =>
      rw [List.flatten_cons, feed_append]
      unfold feedAll resume
      rcases feed step s piece with ⟨out, reached⟩
      cases reached with
      | waiting t =>
          dsimp only
          rw [ih t]
      | stopped verdict rest => rfl

/-- What every step keeps holds of the state in which a run waits. -/
theorem feed_keeps {I : σ → Prop} (hstep : ∀ s a s' out, I s → step s a = .go s' out → I s')
    (hs : I s) (h : feed step s as = (out, .waiting s')) : I s' := by
  induction as generalizing s out with
  | nil =>
      obtain ⟨-, hstate⟩ := Prod.mk.inj h
      rw [← Reached.waiting.inj hstate]
      exact hs
  | cons a as ih =>
      cases hturn : step s a with
      | go t out' =>
          rw [feed_go hturn] at h
          obtain ⟨-, hreached⟩ := Prod.mk.inj h
          exact ih (hstep s a t out' hs hturn) (Prod.ext rfl hreached)
      | halt verdict taken =>
          rw [feed_halt hturn] at h
          cases (Prod.mk.inj h).2

end Feed

section Steady

variable {ε γ δ : Type} {bad early : ε}

/-- The answer `x` to some input, and the answer `y` when there is more of it; `ext` adds
    it to what the reader has left. -/
inductive Steady (bad early : ε) (ext : γ → γ) : Except ε γ → Except ε γ → Prop
  | value (c : γ) : Steady bad early ext (.ok c) (.ok (ext c))
  | refusal : Steady bad early ext (.error bad) (.error bad)
  | tooEarly (y : Except ε γ) : Steady bad early ext (.error early) y

theorem Steady.bind {ext : γ → γ} {ext' : δ → δ} {x y : Except ε γ} {f : γ → Except ε δ}
    (h : Steady bad early ext x y) (hf : ∀ c, Steady bad early ext' (f c) (f (ext c))) :
    Steady bad early ext' (x >>= f) (y >>= f) := by
  cases h with
  | value c => exact hf c
  | refusal => exact .refusal
  | tooEarly y => exact .tooEarly (y >>= f)

/-- The same of a reader that gives something out beside its answer. -/
inductive Stands (bad early : ε) : δ × Except ε γ → δ × Except ε γ → Prop
  | value (d : δ) (c : γ) : Stands bad early (d, .ok c) (d, .ok c)
  | refusal (d : δ) : Stands bad early (d, .error bad) (d, .error bad)
  | tooEarly (d : δ) (y : δ × Except ε γ) : Stands bad early (d, .error early) y

theorem Steady.eq_of_ok {ext : γ → γ} {y : Except ε γ} {c : γ}
    (h : Steady bad early ext (.ok c) y) : y = .ok (ext c) := by
  cases h with
  | value => rfl

theorem Steady.error_cases {ext : γ → γ} {y : Except ε γ} {e : ε}
    (h : Steady bad early ext (.error e) y) : e = bad ∧ y = .error bad ∨ e = early := by
  cases h with
  | refusal => exact .inl ⟨rfl, rfl⟩
  | tooEarly => exact .inr rfl

theorem Stands.error_cases {d : δ} {y : δ × Except ε γ} {e : ε}
    (h : Stands bad early (d, .error e) y) : e = bad ∧ y = (d, .error bad) ∨ e = early := by
  cases h with
  | refusal => exact .inl ⟨rfl, rfl⟩
  | tooEarly => exact .inr rfl

end Steady

end CoioTransducer
