import Mathlib.Logic.Basic
import Mathlib.Order.Defs.Unbundled

/-! # Programs with a state, exceptions and bounded loops

    A program takes a state to an outcome and a state; an exception keeps the
    state it was thrown in.  Loops are given a number of passes.  A loop that uses
    them up has the outcome `diverged`, which no handler catches, so a program that
    ends in a value or an exception has never been cut short.

    A fact about a program is a fact about how it ends, `Ends p s Q`.  There is one
    rule for each way to build a program.  `ends_loop` is the rule for loops: an
    invariant, and a rank that each pass lowers, give the outcome of the whole
    loop, and that the number of passes was enough. -/

namespace CoioProg

variable {σ ε α β : Type}

inductive Outcome (ε α : Type) where
  | value (a : α)
  | thrown (e : ε)
  /-- a loop has used up its passes -/
  | diverged
  deriving DecidableEq

/-- The program was not cut short. -/
def Outcome.Ended : Outcome ε α → Prop
  | .value _ => True
  | .thrown _ => True
  | .diverged => False

def Prog (σ ε α : Type) : Type := σ → Outcome ε α × σ

namespace Prog

protected def pure (a : α) : Prog σ ε α := fun s => (.value a, s)

protected def bind (p : Prog σ ε α) (f : α → Prog σ ε β) : Prog σ ε β := fun s =>
  match p s with
  | (.value a, s') => f a s'
  | (.thrown e, s') => (.thrown e, s')
  | (.diverged, s') => (.diverged, s')

instance : Monad (Prog σ ε) where
  pure := Prog.pure
  bind := Prog.bind

/-- Read something off the state. -/
def gets (g : σ → α) : Prog σ ε α := fun s => (.value (g s), s)

def modify (g : σ → σ) : Prog σ ε Unit := fun s => (.value (), g s)

def throwEx (e : ε) : Prog σ ε α := fun s => (.thrown e, s)

/-- A partial change of the state; where there is none, `e` is thrown. -/
def modifyOr (e : ε) (g : σ → Option σ) : Prog σ ε Unit := fun s =>
  match g s with
  | some s' => (.value (), s')
  | none => (.thrown e, s)

/-- `try p catch (...) h`. -/
def catchAll (p : Prog σ ε α) (h : ε → Prog σ ε α) : Prog σ ε α := fun s =>
  match p s with
  | (.thrown e, s') => h e s'
  | r => r

/-- The state is changed by `g` when `p` is left, by a value or by an exception. -/
def onExit (g : σ → σ) (p : Prog σ ε α) : Prog σ ε α := fun s =>
  match p s with
  | (.diverged, s') => (.diverged, s')
  | (r, s') => (r, g s')

/-- Passes of `body`, until one of them gives the result. -/
def loop (body : β → Prog σ ε (β ⊕ α)) : Nat → β → Prog σ ε α
  | 0, _ => fun s => (.diverged, s)
  | n + 1, b => Prog.bind (body b) fun r =>
      match r with
      | .inl b' => loop body n b'
      | .inr a => Prog.pure a

end Prog

/-! ## How a program ends -/

def Ends (p : Prog σ ε α) (s : σ) (Q : Outcome ε α → σ → Prop) : Prop :=
  Q (p s).1 (p s).2

variable {p : Prog σ ε α} {s : σ} {Q : Outcome ε α → σ → Prop}

theorem Ends.of_eq {o : Outcome ε α} {s' : σ} (h : p s = (o, s')) (hQ : Q o s') :
    Ends p s Q := by
  unfold Ends
  rw [h]
  exact hQ

theorem Ends.out {o : Outcome ε α} {s' : σ} (hQ : Ends p s Q) (h : p s = (o, s')) : Q o s' := by
  unfold Ends at hQ
  rw [h] at hQ
  exact hQ

/-- Two programs that make the same run end alike. -/
theorem Ends.congr {q : Prog σ ε α} {s' : σ} (h : p s = q s') (hq : Ends q s' Q) :
    Ends p s Q := by
  unfold Ends
  rw [h]
  exact hq

theorem Ends.mono {R : Outcome ε α → σ → Prop} (h : Ends p s Q)
    (hQR : ∀ o s', Q o s' → R o s') : Ends p s R :=
  hQR _ _ h

/-- Carry a fact about the end of the first part over the rest. -/
theorem ends_bind {f : α → Prog σ ε β} {R : Outcome ε β → σ → Prop} (h : Ends p s Q)
    (hvalue : ∀ a s', Q (.value a) s' → Ends (f a) s' R)
    (hthrown : ∀ e s', Q (.thrown e) s' → R (.thrown e) s')
    (hdiverged : ∀ s', Q .diverged s' → R .diverged s') : Ends (p >>= f) s R := by
  show R (Prog.bind p f s).1 (Prog.bind p f s).2
  unfold Ends at h
  unfold Prog.bind
  split <;> rename_i hp <;> rw [hp] at h
  · exact hvalue _ _ h
  · exact hthrown _ _ h
  · exact hdiverged _ h

theorem bind_value {f : α → Prog σ ε β} {a : α} {s' : σ} (h : p s = (.value a, s')) :
    (p >>= f) s = f a s' := by
  show Prog.bind p f s = _
  unfold Prog.bind
  rw [h]

theorem bind_thrown {f : α → Prog σ ε β} {e : ε} {s' : σ} (h : p s = (.thrown e, s')) :
    (p >>= f) s = (.thrown e, s') := by
  show Prog.bind p f s = _
  unfold Prog.bind
  rw [h]

theorem ends_bind_value {f : α → Prog σ ε β} {a : α} {s' : σ} {R : Outcome ε β → σ → Prop}
    (h : p s = (.value a, s')) (hf : Ends (f a) s' R) : Ends (p >>= f) s R := by
  unfold Ends
  rw [bind_value h]
  exact hf

theorem ends_pure {a : α} (h : Q (.value a) s) : Ends (pure a) s Q := h

theorem ends_modify_bind {g : σ → σ} {f : Unit → Prog σ ε β} {R : Outcome ε β → σ → Prop}
    (h : Ends (f ()) (g s) R) : Ends (Prog.modify g >>= f) s R := h

theorem ends_gets_bind {g : σ → α} {f : α → Prog σ ε β} {R : Outcome ε β → σ → Prop}
    (h : Ends (f (g s)) s R) : Ends (Prog.gets g >>= f) s R := h

theorem ends_modifyOr_bind {e : ε} {g : σ → Option σ} {s' : σ} {f : Unit → Prog σ ε β}
    {R : Outcome ε β → σ → Prop} (hg : g s = some s') (h : Ends (f ()) s' R) :
    Ends (Prog.modifyOr e g >>= f) s R := by
  have hvalue : Prog.modifyOr e g s = (.value (), s') := by
    unfold Prog.modifyOr
    rw [hg]
  exact ends_bind_value hvalue h

theorem catchAll_value {h : ε → Prog σ ε α} {a : α} {s' : σ} (hp : p s = (.value a, s')) :
    Prog.catchAll p h s = (.value a, s') := by
  unfold Prog.catchAll
  rw [hp]

theorem catchAll_thrown {h : ε → Prog σ ε α} {e : ε} {s' : σ} (hp : p s = (.thrown e, s')) :
    Prog.catchAll p h s = h e s' := by
  unfold Prog.catchAll
  rw [hp]

theorem onExit_value {g : σ → σ} {a : α} {s' : σ} (hp : p s = (.value a, s')) :
    Prog.onExit g p s = (.value a, g s') := by
  unfold Prog.onExit
  rw [hp]

theorem onExit_thrown {g : σ → σ} {e : ε} {s' : σ} (hp : p s = (.thrown e, s')) :
    Prog.onExit g p s = (.thrown e, g s') := by
  unfold Prog.onExit
  rw [hp]

theorem onExit_outcome (g : σ → σ) (p : Prog σ ε α) (s : σ) :
    (Prog.onExit g p s).1 = (p s).1 := by
  unfold Prog.onExit
  rcases p s with ⟨o, s'⟩
  cases o <;> rfl

/-- What is known of the body and of the handler is known of both together. -/
theorem ends_catchAll {h : ε → Prog σ ε α} {R : Outcome ε α → σ → Prop} (hp : Ends p s Q)
    (hvalue : ∀ a s', Q (.value a) s' → R (.value a) s')
    (hthrown : ∀ e s', Q (.thrown e) s' → Ends (h e) s' R)
    (hdiverged : ∀ s', Q .diverged s' → R .diverged s') : Ends (Prog.catchAll p h) s R := by
  unfold Ends at hp ⊢
  unfold Prog.catchAll
  rcases hps : p s with ⟨o, s'⟩
  rw [hps] at hp
  cases o with
  | value a => exact hvalue a s' hp
  | thrown e => exact hthrown e s' hp
  | diverged => exact hdiverged s' hp

/-- What one pass of a loop may do: go on with a lower rank, or end the loop. -/
def PassEnds (I : β → σ → Prop) (rank : β → σ → Nat) (Q : Outcome ε α → σ → Prop) (k : Nat) :
    Outcome ε (β ⊕ α) → σ → Prop
  | .value (.inl b), s => I b s ∧ rank b s < k
  | .value (.inr a), s => Q (.value a) s
  | .thrown e, s => Q (.thrown e) s
  | .diverged, _ => False

/-- **LOOP RULE**: an invariant kept by every pass, with a rank that every pass
    lowers, leads to the end of the loop within any larger number of passes. -/
theorem ends_loop {body : β → Prog σ ε (β ⊕ α)} {I : β → σ → Prop} {rank : β → σ → Nat}
    (hbody : ∀ b s, I b s → Ends (body b) s (PassEnds I rank Q (rank b s))) :
    ∀ (n : Nat) (b : β) (s : σ), I b s → rank b s < n → Ends (Prog.loop body n b) s Q := by
  intro n
  induction n with
  | zero => exact fun b s _ hlt => absurd hlt (Nat.not_lt_zero _)
  | succ n ih =>
      intro b s hI hlt
      refine ends_bind (hbody b s hI) ?_ (fun e s' h => h) (fun s' h => h.elim)
      intro r s' h
      cases r with
      | inl b' => exact ih b' s' h.1 (Nat.lt_of_lt_of_le h.2 (Nat.le_of_lt_succ hlt))
      | inr a => exact h

/-! ## Programs that move along a relation

    What a program leaves alone is a relation between its first and its last state.
    Where the relation is a preorder, it is enough to look at each part. -/

/-- Every run ends, and takes the state along `R`. -/
def Moves (R : σ → σ → Prop) (p : Prog σ ε α) : Prop :=
  ∀ s, Ends p s fun o s' => o.Ended ∧ R s s'

section Moves

variable {R : σ → σ → Prop}

theorem Moves.mono {R' : σ → σ → Prop} (hp : Moves R p) (h : ∀ s s', R s s' → R' s s') :
    Moves R' p :=
  fun s => (hp s).mono fun _ _ h' => ⟨h'.1, h _ _ h'.2⟩

theorem moves_value {g : σ → α} {h : σ → σ} (hR : ∀ s, R s (h s)) :
    Moves R (fun s => (.value (g s), h s) : Prog σ ε α) :=
  fun s => ⟨trivial, hR s⟩

theorem moves_modify {g : σ → σ} (hR : ∀ s, R s (g s)) :
    Moves R (Prog.modify g : Prog σ ε Unit) :=
  moves_value hR

variable [IsPreorder σ R]

theorem moves_pure (a : α) : Moves R (pure a : Prog σ ε α) :=
  moves_value refl

theorem moves_gets (g : σ → α) : Moves R (Prog.gets g : Prog σ ε α) :=
  moves_value refl

theorem moves_throwEx (e : ε) : Moves R (Prog.throwEx e : Prog σ ε α) :=
  fun s => ⟨trivial, refl s⟩

theorem moves_modifyOr {g : σ → Option σ} (e : ε)
    (hR : ∀ s s', g s = some s' → R s s') : Moves R (Prog.modifyOr e g) := by
  intro s
  unfold Ends Prog.modifyOr
  cases hg : g s with
  | none => exact ⟨trivial, refl s⟩
  | some s' => exact ⟨trivial, hR s s' hg⟩

theorem moves_bind {f : α → Prog σ ε β} (hp : Moves R p) (hf : ∀ a, Moves R (f a)) :
    Moves R (p >>= f) := by
  intro s
  refine ends_bind (hp s) ?_ (fun e s' h => ⟨trivial, h.2⟩) (fun s' h => h.1.elim)
  intro a s' h
  exact (hf a s').mono fun o s'' h' => ⟨h'.1, IsTrans.trans _ _ _ h.2 h'.2⟩

/-- A loop whose passes move along `R` and lower a rank of the state when they go on. -/
theorem moves_loop {body : β → Prog σ ε (β ⊕ α)} (rank : σ → Nat)
    (hbody : ∀ b s, Ends (body b) s fun o s' => o.Ended ∧ R s s' ∧
      ∀ b', o = .value (.inl b') → rank s' < rank s)
    (n : Nat) (b : β) (s : σ) (hn : rank s < n) :
    Ends (Prog.loop body n b) s fun o s' => o.Ended ∧ R s s' := by
  have hpass : ∀ b' s', R s s' → Ends (body b') s' (PassEnds (fun _ s' => R s s')
      (fun _ => rank) (fun o s' => o.Ended ∧ R s s') (rank s')) := by
    intro b' s' hR
    refine (hbody b' s').mono ?_
    intro o s'' h
    cases o with
    | value r =>
        cases r with
        | inl b'' => exact ⟨IsTrans.trans _ _ _ hR h.2.1, h.2.2 b'' rfl⟩
        | inr a => exact ⟨trivial, IsTrans.trans _ _ _ hR h.2.1⟩
    | thrown e => exact ⟨trivial, IsTrans.trans _ _ _ hR h.2.1⟩
    | diverged => exact h.1.elim
  exact ends_loop hpass n b s (refl s) hn

theorem moves_onExit {g : σ → σ} (hg : ∀ s, R s (g s)) (hp : Moves R p) :
    Moves R (Prog.onExit g p) := by
  intro s
  have h := hp s
  unfold Ends at h ⊢
  unfold Prog.onExit
  rcases hps : p s with ⟨o, s'⟩
  rw [hps] at h
  cases o with
  | value a => exact ⟨trivial, IsTrans.trans _ _ _ h.2 (hg s')⟩
  | thrown e => exact ⟨trivial, IsTrans.trans _ _ _ h.2 (hg s')⟩
  | diverged => exact h.1.elim

end Moves

/-! ## Programs that do not look

    A program that does not look at what `g` changes in the state makes the same run
    with and without the change. -/

def Ignores (g : σ → σ) (p : Prog σ ε α) : Prop := ∀ s, p (g s) = ((p s).1, g (p s).2)

section Ignores

variable {g : σ → σ}

theorem ignores_pure (a : α) : Ignores g (pure a : Prog σ ε α) := fun _ => rfl

theorem ignores_throwEx (e : ε) : Ignores g (Prog.throwEx e : Prog σ ε α) := fun _ => rfl

theorem ignores_gets {f : σ → α} (h : ∀ s, f (g s) = f s) :
    Ignores g (Prog.gets f : Prog σ ε α) := by
  intro s
  unfold Prog.gets
  rw [h]

theorem ignores_modify {m : σ → σ} (h : ∀ s, m (g s) = g (m s)) :
    Ignores g (Prog.modify m : Prog σ ε Unit) := by
  intro s
  unfold Prog.modify
  rw [h]

theorem ignores_modifyOr {m : σ → Option σ} (e : ε) (h : ∀ s, m (g s) = (m s).map g) :
    Ignores g (Prog.modifyOr e m) := by
  intro s
  unfold Prog.modifyOr
  rw [h]
  cases m s <;> rfl

theorem ignores_bind {f : α → Prog σ ε β} (hp : Ignores g p) (hf : ∀ a, Ignores g (f a)) :
    Ignores g (p >>= f) := by
  intro s
  show Prog.bind p f (g s) = ((Prog.bind p f s).1, g (Prog.bind p f s).2)
  unfold Prog.bind
  rw [hp s]
  rcases p s with ⟨o, s'⟩
  cases o with
  | value a => exact hf a s'
  | thrown e => rfl
  | diverged => rfl

theorem ignores_catchAll {h : ε → Prog σ ε α} (hp : Ignores g p) (hh : ∀ e, Ignores g (h e)) :
    Ignores g (Prog.catchAll p h) := by
  intro s
  unfold Prog.catchAll
  rw [hp s]
  rcases p s with ⟨o, s'⟩
  cases o with
  | value a => rfl
  | thrown e => exact hh e s'
  | diverged => rfl

theorem ignores_onExit {m : σ → σ} (hm : ∀ s, m (g s) = g (m s)) (hp : Ignores g p) :
    Ignores g (Prog.onExit m p) := by
  intro s
  unfold Prog.onExit
  rw [hp s]
  rcases p s with ⟨o, s'⟩
  cases o with
  | value a => exact congrArg (Prod.mk _) (hm s')
  | thrown e => exact congrArg (Prod.mk _) (hm s')
  | diverged => rfl

theorem ignores_loop {body : β → Prog σ ε (β ⊕ α)} (hbody : ∀ b, Ignores g (body b)) (n : Nat) :
    ∀ b, Ignores g (Prog.loop body n b) := by
  induction n with
  | zero => exact fun _ _ => rfl
  | succ n ih =>
      intro b
      refine ignores_bind (hbody b) fun r => ?_
      cases r with
      | inl b' => exact ih b'
      | inr a => exact ignores_pure a

end Ignores

end CoioProg
