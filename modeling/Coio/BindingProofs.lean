import Coio.MachineProofs
import Mathlib.Logic.Function.Basic

/-! # Binding an `io_context` to a thread — who may be inside `loop()`

    `bind_this_thread` writes two words: the context's `m_thid` and the thread's
    `this_thread_context`.  `run()` and `poll()` compare them in `assert_bind`
    and throw if they disagree.  The check is made ONCE, on entry; a later bind
    overwrites `m_thid` while the first thread is still inside.

    This is how two threads get in: if nobody binds a context while another thread
    is inside its loop, no two threads ever are; and whoever does bind it then can
    enter at once and be the second one. -/

namespace CoioBinding

open CoioMachine

abbrev Tid := Nat

/-- An `io_context`, by address. -/
abbrev Cid := Nat

structure State where
  /-- the thread-local `this_thread_context`; `none` is the null pointer -/
  thisThreadContext : Tid → Option Cid
  /-- `m_thid`; `none` is the id of no thread -/
  mThid : Cid → Option Tid
  /-- the loops a thread is inside, innermost first -/
  inLoop : Tid → List Cid

inductive Event where
  | bindThisThread (t : Tid) (c : Cid)
  /-- the guard returned by `bind_this_thread` is destroyed in thread `t` -/
  | releaseGuard (t : Tid)
  /-- `run()`, `run(token)` or `poll()` is called -/
  | run (t : Tid) (c : Cid)
  /-- the innermost loop of `t` returns -/
  | leave (t : Tid)
  deriving DecidableEq

def bindThisThread (s : State) (t : Tid) (c : Cid) : State :=
  { s with
    mThid := Function.update s.mThid c (some t)
    thisThreadContext := Function.update s.thisThreadContext t (some c) }

/-- The guard's destructor, in the thread that runs it. -/
def releaseGuard (s : State) (t : Tid) : State :=
  { s with thisThreadContext := Function.update s.thisThreadContext t none }

/-- `assert_bind`, called in thread `t`; the errors are the `logic_error`s. -/
def assertBind (s : State) (t : Tid) (c : Cid) : Except String Unit :=
  match s.thisThreadContext t with
  | none => .error "need invoke bind_this_thread() when before run()."
  | some c' =>
      if c' ≠ c then
        .error "more than one io_context run in this thread."
      else if s.mThid c ≠ some t then
        .error "io_context cannot invoke run() on multi-threads."
      else .ok ()

/-- Entry into `loop()`: an exception of `assert_bind` leaves everything as it
    was. -/
def enterLoop (s : State) (t : Tid) (c : Cid) : State :=
  match assertBind s t c with
  | .error _ => s
  | .ok () => { s with inLoop := Function.update s.inLoop t (c :: s.inLoop t) }

def step (s : State) : Event → Option State
  | .bindThisThread t c => some (bindThisThread s t c)
  | .releaseGuard t => some (releaseGuard s t)
  | .run t c => some (enterLoop s t c)
  | .leave t =>
      match s.inLoop t with
      | [] => none
      | _ :: rest => some { s with inLoop := Function.update s.inLoop t rest }

def bindingMachine : Machine State Event where
  init := { thisThreadContext := fun _ => none
            mThid := fun _ => none
            inLoop := fun _ => [] }
  step := step

def Inside (s : State) (t : Tid) (c : Cid) : Prop := c ∈ s.inLoop t

instance (s : State) (t : Tid) (c : Cid) : Decidable (Inside s t c) :=
  inferInstanceAs (Decidable (c ∈ s.inLoop t))

/-- At most one thread is inside the loop of each context. -/
def OneInside (s : State) : Prop :=
  ∀ t t' c, Inside s t c → Inside s t' c → t = t'

/-- Nobody binds a context while another thread is inside its loop. -/
def BindsIdle (s : State) (e : Event) : Prop :=
  ∀ t c, e = .bindThisThread t c → ∀ t', Inside s t' c → t' = t

/-- `assert_bind` passes exactly when the two words agree. -/
theorem assertBind_ok_iff {s : State} {t : Tid} {c : Cid} :
    assertBind s t c = .ok () ↔
      s.thisThreadContext t = some c ∧ s.mThid c = some t := by
  unfold assertBind
  cases hctx : s.thisThreadContext t with
  | none =>
      constructor
      · intro h; exact nomatch h
      · intro h; exact nomatch h.1
  | some c' =>
      by_cases hc : c' = c
      · by_cases ht : s.mThid c = some t
        · simp [hc, ht]
        · simp [hc, ht]
      · simp [hc]

/-- Entering a loop, by whether `assert_bind` passes. -/
theorem enterLoop_cases (s : State) (t : Tid) (c : Cid) :
    (assertBind s t c = .ok () ∧ enterLoop s t c
        = { s with inLoop := Function.update s.inLoop t (c :: s.inLoop t) }) ∨
      (assertBind s t c ≠ .ok () ∧ enterLoop s t c = s) := by
  unfold enterLoop
  cases assertBind s t c with
  | error m => exact Or.inr ⟨(fun h => nomatch h), rfl⟩
  | ok u => exact Or.inl ⟨rfl, rfl⟩

/-- A thread inside a loop is still the one the context is bound to. -/
def BoundInside (s : State) : Prop :=
  ∀ t c, Inside s t c → s.mThid c = some t

theorem BoundInside.oneInside {s : State} (h : BoundInside s) : OneInside s :=
  fun t t' c hin hin' => Option.some.inj ((h t c hin).symm.trans (h t' c hin'))

theorem inside_update {f : Tid → List Cid} {t u : Tid} {c : Cid} {l : List Cid}
    (h : c ∈ Function.update f t l u) : (u = t ∧ c ∈ l) ∨ c ∈ f u :=
  (update_cases (c ∈ ·) h).imp_right And.right

/-- **STEP LEMMA**: every step but a bind of a context another thread is running
    keeps each running thread bound. -/
theorem boundInside_step (s : State) (e : Event) (s' : State) (hI : BoundInside s)
    (hok : BindsIdle s e) (hs : step s e = some s') : BoundInside s' := by
  cases e with
  | bindThisThread t c =>
      obtain rfl := Option.some.inj hs
      intro u d hin
      show Function.update s.mThid c (some t) d = some u
      by_cases hd : d = c
      · subst hd
        rw [Function.update_self, hok t d rfl u hin]
      · rw [Function.update_of_ne hd]
        exact hI u d hin
  | releaseGuard t =>
      obtain rfl := Option.some.inj hs
      exact hI
  | run t c =>
      obtain rfl := Option.some.inj hs
      rcases enterLoop_cases s t c with ⟨hpass, heq⟩ | ⟨-, heq⟩
      · rw [heq]
        intro u d hin
        rcases inside_update hin with ⟨rfl, hmem⟩ | hmem
        · rcases List.mem_cons.mp hmem with rfl | hold
          · exact (assertBind_ok_iff.mp hpass).2
          · exact hI u d hold
        · exact hI u d hmem
      · rw [heq]
        exact hI
  | leave t =>
      simp only [step] at hs
      split at hs
      · exact nomatch hs
      · rename_i c rest hloop
        obtain rfl := Option.some.inj hs
        intro u d hin
        rcases inside_update hin with ⟨rfl, hmem⟩ | hmem
        · refine hI u d ?_
          show d ∈ s.inLoop u
          rw [hloop]
          exact List.mem_cons_of_mem c hmem
        · exact hI u d hmem

/-- Whoever binds a context can enter its loop at once. -/
theorem bind_then_run (s : State) (t : Tid) (c : Cid) :
    ∃ s', runFrom bindingMachine s [.bindThisThread t c, .run t c] = some s' ∧
      Inside s' t c ∧ ∀ u, u ≠ t → s'.inLoop u = s.inLoop u := by
  refine ⟨enterLoop (bindThisThread s t c) t c, rfl, ?_⟩
  have hpass : assertBind (bindThisThread s t c) t c = .ok () :=
    assertBind_ok_iff.mpr ⟨Function.update_self _ _ _, Function.update_self _ _ _⟩
  rcases enterLoop_cases (bindThisThread s t c) t c with ⟨-, heq⟩ | ⟨hfail, -⟩
  · rw [heq]
    constructor
    · show c ∈ Function.update s.inLoop t (c :: s.inLoop t) t
      rw [Function.update_self]
      exact List.mem_cons_self ..
    · intro u hu
      exact Function.update_of_ne hu _ _
  · exact absurd hpass hfail

/-- **ONE THREAD INSIDE**: in every run in which nobody binds a context
    while another thread is inside its loop, at most one thread is inside each
    loop in every state; and from every state in which a thread is inside, a
    bind by another thread followed by its `run()` puts both inside. -/
theorem one_thread_inside (tr : List Event) :
    (Along bindingMachine BindsIdle bindingMachine.init tr →
      Throughout bindingMachine OneInside tr) ∧
    (∀ s t t' c, run bindingMachine tr = some s → Inside s t' c → t ≠ t' →
      ∃ s', run bindingMachine (tr ++ [.bindThisThread t c, .run t c]) = some s' ∧
        Inside s' t c ∧ Inside s' t' c) := by
  constructor
  · intro hal pre hp s hs
    have h0 : BoundInside bindingMachine.init := fun t c hin => nomatch hin
    exact (throughout_along h0
      (fun s e s' hI hok hs => boundInside_step s e s' hI hok hs) hal pre hp s hs).oneInside
  · intro s t t' c hr hin hne
    obtain ⟨s', hs', hin', hframe⟩ := bind_then_run s t c
    refine ⟨s', runFrom_append_some.mpr ⟨s, hr, hs'⟩, hin', ?_⟩
    show c ∈ s'.inLoop t'
    rw [hframe t' (Ne.symm hne)]
    exact hin

/-- Two threads take turns, each with a bind of its own; then the first one, which still has
    its guard, and a third one, which has never bound, ask to run. -/
def takeTurns : List Event :=
  [.bindThisThread 1 0, .run 1 0, .leave 1, .bindThisThread 2 0, .run 2 0, .run 1 0, .run 3 0]

/-- The theorem at that run: the second thread is inside, and the others are refused, with
    the error that is meant for this case and with that of a thread without a context. -/
theorem one_thread_inside_takeTurns :
    Along bindingMachine BindsIdle bindingMachine.init takeTurns ∧
      Throughout bindingMachine OneInside takeTurns ∧
      (∃ s, run bindingMachine (takeTurns.take 2) = some s ∧ Inside s 1 0) ∧
      ∃ s, run bindingMachine takeTurns = some s ∧ Inside s 2 0 ∧
        assertBind s 1 0 = .error "io_context cannot invoke run() on multi-threads." ∧
        assertBind s 3 0 = .error "need invoke bind_this_thread() when before run()." ∧
        ¬ Inside s 1 0 ∧ ¬ Inside s 3 0 := by
  have hother : ∀ {s : State} {e : Event}, (∀ t c, e ≠ .bindThisThread t c) → BindsIdle s e :=
    fun hne t c he => absurd he (hne t c)
  have hal : Along bindingMachine BindsIdle bindingMachine.init takeTurns := by
    refine ⟨(fun t c _ t' hin => nomatch hin), fun s₁ h₁ => ?_⟩
    refine ⟨hother (fun _ _ h => nomatch h), fun s₂ h₂ => ?_⟩
    refine ⟨hother (fun _ _ h => nomatch h), fun s₃ h₃ => ?_⟩
    refine ⟨?_, fun s₄ _ => ⟨hother (fun _ _ h => nomatch h), fun s₅ _ => ?_⟩⟩
    · -- when the second thread binds, the first one has left
      cases h₁
      cases h₂
      cases h₃
      intro t c _ t' hin
      rcases update_cases (c ∈ ·) hin with ⟨-, hmem⟩ | ⟨hne, hmem⟩
      · exact nomatch hmem
      · rcases update_cases (c ∈ ·) hmem with ⟨heq, -⟩ | ⟨-, hmem⟩
        · exact absurd heq hne
        · exact nomatch hmem
    · exact ⟨hother (fun _ _ h => nomatch h),
        fun s₆ _ => ⟨hother (fun _ _ h => nomatch h), fun s₇ _ => trivial⟩⟩
  exact ⟨hal, (one_thread_inside _).1 hal, ⟨_, rfl, by decide⟩, _, rfl, by decide, rfl, rfl,
    by decide, by decide⟩

/-- **TWO THREADS INSIDE**: thread 2 binds the context thread 1 is running. -/
theorem two_threads_inside :
    ¬ (∀ (tr : List Event) (s : State),
        run bindingMachine tr = some s → OneInside s) := by
  intro hall
  have h := hall [.bindThisThread 1 0, .run 1 0, .bindThisThread 2 0, .run 2 0] _ rfl
    1 2 0 (by decide) (by decide)
  exact absurd h (by decide)

end CoioBinding
