import Coio.MachineProofs
import Coio.CoroutineProofs
import Mathlib.Logic.Function.Basic

/-! # `future` — running coroutine bodies through promises and handles

    Every coroutine has a frame: its promise (`m_state`, `m_continuation`,
    `m_result`), the rest of its body, and where it stands.  Threads run
    coroutines on native stacks; the top one executes.

    `co_await f` of a future that is not done RESUMES the body of `f` first,
    nested on the awaiter's stack, and registers the continuation only when that
    call has returned.  By then another thread may have finished `f`.  The two
    meet in `m_state`: each side does one `exchange(true)`, and whoever comes
    second continues the awaiting coroutine — `await_suspend` by returning false,
    `final_awaiter` by resuming `m_continuation`.

    A program has `count` futures at the top, each seeing those before it, and a
    `oneway_task` for each that awaits it. -/

namespace CoioFuture

open CoioMachine CoioCoroutine

variable {V E L : Type}

/-- A coroutine frame, by address. -/
abbrev Fid := Nat

abbrev Tid := Nat

/-- The rest of a body, with the futures in its scope. -/
structure Code (V E L : Type) where
  scope : Nat
  env : Fin scope → Fid
  body : Body V E L scope

/-- Where a coroutine stands. -/
inductive Pc where
  /-- no frame yet -/
  | unborn
  /-- at `initial_suspend` -/
  | created
  | running
  /-- suspended on a leaf operation -/
  | atLeaf
  /-- in `await_suspend` of `f`: `m_handle.resume()` is called -/
  | resuming (f : Fid)
  /-- in `set_continuation` of `f`: `m_continuation` is written -/
  | stored (f : Fid)
  /-- `await_suspend` of `f` has returned true -/
  | suspended (f : Fid)
  /-- suspended for good, in `final_awaiter` before its exchange -/
  | finalSuspend
  | finished
  deriving DecidableEq

/-- `m_handle.done()`. -/
def Pc.done : Pc → Bool
  | .finalSuspend => true
  | .finished => true
  | _ => false

/-- All frames, by field, and the stacks of coroutines the threads are inside. -/
structure State (V E L : Type) where
  pc : Fid → Pc
  code : Fid → Code V E L
  mState : Fid → Bool
  mContinuation : Fid → Option Fid
  /-- `std::monostate` is `none` -/
  mResult : Fid → Option (Except E V)
  /-- the next free address -/
  next : Nat
  stack : Tid → List Fid

/-- The futures of the program, each seeing those before it. -/
structure Program (V E L : Type) where
  count : Nat
  body : (i : Nat) → Body V E L i

/-- The frame of the `oneway_task` that awaits future `i`. -/
def Program.entry (P : Program V E L) (i : Nat) : Fid := P.count + i

def Program.IsEntry (P : Program V E L) (c : Fid) : Prop :=
  P.count ≤ c ∧ c < P.count + P.count

instance (P : Program V E L) (c : Fid) : Decidable (P.IsEntry c) :=
  inferInstanceAs (Decidable (P.count ≤ c ∧ c < P.count + P.count))

/-- `co_spawn_entry_point`: await the future, drop its outcome. -/
def entryCode (f : Fid) : Code V E L :=
  { scope := 1, env := fun _ => f, body := .awaitFuture 0 .coReturn .throwEx }

/-! ## What the rest of a body asks for -/

def Code.pureNext : Code V E L → Option (Code V E L)
  | ⟨n, env, .pureStep k⟩ => some ⟨n, env, k⟩
  | _ => none

/-- The leaf operation awaited now. -/
def Code.leaf : Code V E L → Option L
  | ⟨_, _, .awaitLeaf l _ _⟩ => some l
  | _ => none

/-- The future awaited now. -/
def Code.awaited : Code V E L → Option Fid
  | ⟨_, env, .awaitFuture i _ _⟩ => some (env i)
  | _ => none

/-- The body has come to its end. -/
def Code.returned : Code V E L → Option (Except E V)
  | ⟨_, _, .coReturn v⟩ => some (.ok v)
  | ⟨_, _, .throwEx e⟩ => some (.error e)
  | _ => none

/-- A coroutine is called: the code of its frame `f`, and the rest of the caller. -/
def Code.call (f : Fid) : Code V E L → Option (Code V E L × Code V E L)
  | ⟨n, env, .create child k⟩ => some (⟨n, env, child⟩, ⟨n + 1, push env f, k⟩)
  | _ => none

/-- `await_resume` gives the outcome `r`. -/
def Code.afterAwait (r : Except E V) (c : Code V E L) : Code V E L :=
  { c with body := CoioCoroutine.afterAwait r c.body }

/-! ## Frames, handles and stacks -/

/-- `m_state.exchange(true)`. -/
@[simps]
def exchange (s : State V E L) (f : Fid) : State V E L :=
  { s with mState := Function.update s.mState f true }

@[simps]
def setPc (s : State V E L) (c : Fid) (p : Pc) : State V E L :=
  { s with pc := Function.update s.pc c p }

@[simps]
def setCode (s : State V E L) (c : Fid) (k : Code V E L) : State V E L :=
  { s with code := Function.update s.code c k }

/-- The coroutine `c` continues after its await, with the outcome `r`. -/
def continueWith (s : State V E L) (c : Fid) (r : Except E V) : State V E L :=
  setPc (setCode s c ((s.code c).afterAwait r)) c .running

@[simps]
def pushStack (s : State V E L) (t : Tid) (c : Fid) : State V E L :=
  { s with stack := Function.update s.stack t (c :: s.stack t) }

/-- The `resume()` of the coroutine on top of `t` returns to its caller. -/
@[simps]
def popStack (s : State V E L) (t : Tid) : State V E L :=
  { s with stack := Function.update s.stack t (s.stack t).tail }

/-- Coroutine `c` executes on thread `t`. -/
def atTop (s : State V E L) (t : Tid) (c : Fid) : Prop := (s.stack t).head? = some c

instance (s : State V E L) (t : Tid) (c : Fid) : Decidable (atTop s t c) :=
  inferInstanceAs (Decidable ((s.stack t).head? = some c))

/-- User code on thread `t`, or its idle loop, may resume a handle. -/
def inUserCode (s : State V E L) (t : Tid) : Prop :=
  ∀ c, atTop s t c → s.pc c = .running

instance (s : State V E L) (t : Tid) : Decidable (inUserCode s t) :=
  match h : (s.stack t).head? with
  | none => isTrue (fun _ hc => nomatch h.symm.trans hc)
  | some d =>
      if hd : s.pc d = .running then
        isTrue (fun _ hc => Option.some.inj (h.symm.trans hc) ▸ hd)
      else isFalse (fun hall => hd (hall d h))

/-- The new frame: its promise is default-constructed. -/
@[simps]
def newFrame (s : State V E L) (f : Fid) (k : Code V E L) : State V E L :=
  { s with
    pc := Function.update s.pc f .created
    code := Function.update s.code f k
    mState := Function.update s.mState f false
    mContinuation := Function.update s.mContinuation f none
    mResult := Function.update s.mResult f none
    next := f + 1 }

/-- `return_value` or `unhandled_exception`, and the way to `final_suspend`. -/
@[simps]
def setResult (s : State V E L) (c : Fid) (r : Except E V) : State V E L :=
  { setPc s c .finalSuspend with mResult := Function.update s.mResult c (some r) }

/-! ## The machine -/

inductive Event where
  /-- `oneway_task::start` -/
  | start (t : Tid) (c : Fid)
  | pureStep (t : Tid) (c : Fid)
  /-- a coroutine is called and its future kept -/
  | create (t : Tid) (c : Fid)
  /-- the leaf operation completes at once -/
  | leafReady (t : Tid) (c : Fid)
  | leafSuspend (t : Tid) (c : Fid)
  /-- the leaf operation completes later, on thread `t` -/
  | leafResume (t : Tid) (c : Fid)
  /-- `await_ready` of `f` returns true -/
  | awaitReady (t : Tid) (c f : Fid)
  /-- `await_suspend` of `f` is called and resumes the body of `f` -/
  | awaitSuspend (t : Tid) (c f : Fid)
  | storeContinuation (t : Tid) (c f : Fid)
  /-- the exchange of `set_continuation` comes first: `c` suspends -/
  | setFirst (t : Tid) (c f : Fid)
  /-- it comes second: `await_suspend` returns false and `c` goes on -/
  | setSecond (t : Tid) (c f : Fid)
  | finish (t : Tid) (c : Fid)
  | finishEntry (t : Tid) (c : Fid)
  /-- the exchange of `final_awaiter` comes first -/
  | finalFirst (t : Tid) (f : Fid)
  /-- it comes second: `m_continuation`, which is `c`, is resumed -/
  | finalResume (t : Tid) (f c : Fid)
  deriving DecidableEq

/-- One step; a null or unsuitable handle, or a missing result, has no step. -/
def step (P : Program V E L) (out : L → Except E V) (s : State V E L) :
    Event → Option (State V E L)
  | .start t c =>
      enabled (inUserCode s t ∧ P.IsEntry c ∧ s.pc c = .created)
        (pushStack (setPc s c .running) t c)
  | .pureStep t c =>
      (s.code c).pureNext.bind fun k =>
        enabled (atTop s t c ∧ s.pc c = .running) (setCode s c k)
  | .create t c =>
      ((s.code c).call s.next).bind fun ks =>
        enabled (atTop s t c ∧ s.pc c = .running)
          (setCode (newFrame s s.next ks.1) c ks.2)
  | .leafReady t c =>
      (s.code c).leaf.bind fun l =>
        enabled (atTop s t c ∧ s.pc c = .running) (continueWith s c (out l))
  | .leafSuspend t c =>
      (s.code c).leaf.bind fun _ =>
        enabled (atTop s t c ∧ s.pc c = .running) (popStack (setPc s c .atLeaf) t)
  | .leafResume t c =>
      (s.code c).leaf.bind fun l =>
        enabled (inUserCode s t ∧ s.pc c = .atLeaf)
          (pushStack (continueWith s c (out l)) t c)
  | .awaitReady t c f =>
      (s.mResult f).bind fun r =>
        enabled (atTop s t c ∧ s.pc c = .running ∧ (s.code c).awaited = some f ∧
            (s.pc f).done = true)
          (continueWith s c r)
  | .awaitSuspend t c f =>
      -- resuming a body that has been started is undefined
      enabled (atTop s t c ∧ s.pc c = .running ∧ (s.code c).awaited = some f ∧
          s.pc f = .created)
        (pushStack (setPc (setPc s c (.resuming f)) f .running) t f)
  | .storeContinuation t c f =>
      enabled (atTop s t c ∧ s.pc c = .resuming f)
        { setPc s c (.stored f) with
          mContinuation := Function.update s.mContinuation f (some c) }
  | .setFirst t c f =>
      enabled (atTop s t c ∧ s.pc c = .stored f ∧ s.mState f = false)
        (popStack (setPc (exchange s f) c (.suspended f)) t)
  | .setSecond t c f =>
      (s.mResult f).bind fun r =>
        enabled (atTop s t c ∧ s.pc c = .stored f ∧ s.mState f = true)
          (continueWith (exchange s f) c r)
  | .finish t c =>
      (s.code c).returned.bind fun r =>
        enabled (atTop s t c ∧ s.pc c = .running ∧ ¬ P.IsEntry c) (setResult s c r)
  | .finishEntry t c =>
      (s.code c).returned.bind fun _ =>
        enabled (atTop s t c ∧ s.pc c = .running ∧ P.IsEntry c)
          (popStack (setPc s c .finished) t)
  | .finalFirst t f =>
      enabled (atTop s t f ∧ s.pc f = .finalSuspend ∧ s.mState f = false)
        (popStack (setPc (exchange s f) f .finished) t)
  | .finalResume t f c =>
      -- nothing is left to do in `f` when the resumed coroutine returns
      (s.mResult f).bind fun r =>
        enabled (atTop s t f ∧ s.pc f = .finalSuspend ∧ s.mState f = true ∧
            s.mContinuation f = some c ∧ s.pc c = .suspended f)
          (pushStack (popStack (continueWith (setPc (exchange s f) f .finished) c r) t) t c)

def futureMachine (P : Program V E L) (out : L → Except E V) :
    Machine (State V E L) Event where
  init := { pc := fun c => if c < P.count + P.count then .created else .unborn
            code := fun c =>
              if c < P.count then { scope := c, env := fun j => j.val, body := P.body c }
              else entryCode (c - P.count)
            mState := fun _ => false
            mContinuation := fun _ => none
            mResult := fun _ => none
            next := P.count + P.count
            stack := fun _ => [] }
  step := step P out

/-- At the start nothing has been started. -/
theorem init_pc (P : Program V E L) (out : L → Except E V) (c : Fid) :
    (futureMachine P out).init.pc c = .unborn ∨
      (futureMachine P out).init.pc c = .created := by
  show (if c < P.count + P.count then Pc.created else .unborn) = .unborn ∨
    (if c < P.count + P.count then Pc.created else .unborn) = .created
  split <;> simp

theorem init_born {P : Program V E L} (out : L → Except E V) {c : Fid}
    (h : (futureMachine P out).init.pc c ≠ .unborn) : c < P.count + P.count := by
  by_contra hc
  exact h (if_neg hc)

theorem init_code_root {P : Program V E L} (out : L → Except E V) {c : Fid}
    (h : c < P.count) :
    (futureMachine P out).init.code c = ⟨c, fun j => j.val, P.body c⟩ :=
  if_pos h

theorem init_code_entry {P : Program V E L} (out : L → Except E V) {c : Fid}
    (h : ¬ c < P.count) :
    (futureMachine P out).init.code c = entryCode (c - P.count) :=
  if_neg h

/-! ## Everything a step can do -/

inductive Step (P : Program V E L) (out : L → Except E V) (s : State V E L) :
    Event → State V E L → Prop where
  | start (t : Tid) (c : Fid) (huser : inUserCode s t) (hentry : P.IsEntry c)
      (hpc : s.pc c = .created) :
      Step P out s (.start t c) (pushStack (setPc s c .running) t c)
  | pureStep (t : Tid) (c : Fid) (n : Nat) (env : Fin n → Fid) (k : Body V E L n)
      (hcode : s.code c = ⟨n, env, .pureStep k⟩) (htop : atTop s t c)
      (hpc : s.pc c = .running) :
      Step P out s (.pureStep t c) (setCode s c ⟨n, env, k⟩)
  | create (t : Tid) (c : Fid) (n : Nat) (env : Fin n → Fid) (child : Body V E L n)
      (k : Body V E L (n + 1)) (hcode : s.code c = ⟨n, env, .create child k⟩)
      (htop : atTop s t c) (hpc : s.pc c = .running) :
      Step P out s (.create t c)
        (setCode (newFrame s s.next ⟨n, env, child⟩) c ⟨n + 1, push env s.next, k⟩)
  | leafReady (t : Tid) (c : Fid) (n : Nat) (env : Fin n → Fid) (l : L)
      (k : V → Body V E L n) (h : E → Body V E L n)
      (hcode : s.code c = ⟨n, env, .awaitLeaf l k h⟩) (htop : atTop s t c)
      (hpc : s.pc c = .running) :
      Step P out s (.leafReady t c) (continueWith s c (out l))
  | leafSuspend (t : Tid) (c : Fid) (n : Nat) (env : Fin n → Fid) (l : L)
      (k : V → Body V E L n) (h : E → Body V E L n)
      (hcode : s.code c = ⟨n, env, .awaitLeaf l k h⟩) (htop : atTop s t c)
      (hpc : s.pc c = .running) :
      Step P out s (.leafSuspend t c) (popStack (setPc s c .atLeaf) t)
  | leafResume (t : Tid) (c : Fid) (n : Nat) (env : Fin n → Fid) (l : L)
      (k : V → Body V E L n) (h : E → Body V E L n)
      (hcode : s.code c = ⟨n, env, .awaitLeaf l k h⟩) (huser : inUserCode s t)
      (hpc : s.pc c = .atLeaf) :
      Step P out s (.leafResume t c) (pushStack (continueWith s c (out l)) t c)
  | awaitReady (t : Tid) (c f : Fid) (r : Except E V) (hres : s.mResult f = some r)
      (htop : atTop s t c) (hpc : s.pc c = .running)
      (hawait : (s.code c).awaited = some f) (hdone : (s.pc f).done = true) :
      Step P out s (.awaitReady t c f) (continueWith s c r)
  | awaitSuspend (t : Tid) (c f : Fid) (htop : atTop s t c) (hpc : s.pc c = .running)
      (hawait : (s.code c).awaited = some f) (hfresh : s.pc f = .created) :
      Step P out s (.awaitSuspend t c f)
        (pushStack (setPc (setPc s c (.resuming f)) f .running) t f)
  | storeContinuation (t : Tid) (c f : Fid) (htop : atTop s t c)
      (hpc : s.pc c = .resuming f) :
      Step P out s (.storeContinuation t c f)
        { setPc s c (.stored f) with
          mContinuation := Function.update s.mContinuation f (some c) }
  | setFirst (t : Tid) (c f : Fid) (htop : atTop s t c) (hpc : s.pc c = .stored f)
      (hfirst : s.mState f = false) :
      Step P out s (.setFirst t c f)
        (popStack (setPc (exchange s f) c (.suspended f)) t)
  | setSecond (t : Tid) (c f : Fid) (r : Except E V) (hres : s.mResult f = some r)
      (htop : atTop s t c) (hpc : s.pc c = .stored f) (hsecond : s.mState f = true) :
      Step P out s (.setSecond t c f) (continueWith (exchange s f) c r)
  | finish (t : Tid) (c : Fid) (r : Except E V) (hret : (s.code c).returned = some r)
      (htop : atTop s t c) (hpc : s.pc c = .running) (hentry : ¬ P.IsEntry c) :
      Step P out s (.finish t c) (setResult s c r)
  | finishEntry (t : Tid) (c : Fid) (r : Except E V)
      (hret : (s.code c).returned = some r) (htop : atTop s t c)
      (hpc : s.pc c = .running) (hentry : P.IsEntry c) :
      Step P out s (.finishEntry t c) (popStack (setPc s c .finished) t)
  | finalFirst (t : Tid) (f : Fid) (htop : atTop s t f) (hpc : s.pc f = .finalSuspend)
      (hfirst : s.mState f = false) :
      Step P out s (.finalFirst t f) (popStack (setPc (exchange s f) f .finished) t)
  | finalResume (t : Tid) (f c : Fid) (r : Except E V) (hres : s.mResult f = some r)
      (htop : atTop s t f) (hpc : s.pc f = .finalSuspend) (hsecond : s.mState f = true)
      (hcont : s.mContinuation f = some c) (hsusp : s.pc c = .suspended f) :
      Step P out s (.finalResume t f c)
        (pushStack (popStack (continueWith (setPc (exchange s f) f .finished) c r) t) t c)

theorem pureNext_some {c k : Code V E L} (h : c.pureNext = some k) :
    ∃ n env b, c = ⟨n, env, .pureStep b⟩ ∧ k = ⟨n, env, b⟩ := by
  obtain ⟨n, env, body⟩ := c
  cases body with
  | pureStep b => exact ⟨n, env, b, rfl, (Option.some.inj h).symm⟩
  | _ => exact nomatch h

theorem leaf_some {c : Code V E L} {l : L} (h : c.leaf = some l) :
    ∃ n env k g, c = ⟨n, env, .awaitLeaf l k g⟩ := by
  obtain ⟨n, env, body⟩ := c
  cases body with
  | awaitLeaf l' k g =>
      obtain rfl := Option.some.inj h
      exact ⟨n, env, k, g, rfl⟩
  | _ => exact nomatch h

theorem awaited_some {c : Code V E L} {f : Fid} (h : c.awaited = some f) :
    ∃ n env i k g, c = ⟨n, env, .awaitFuture i k g⟩ ∧ env i = f := by
  obtain ⟨n, env, body⟩ := c
  cases body with
  | awaitFuture i k g => exact ⟨n, env, i, k, g, rfl, Option.some.inj h⟩
  | _ => exact nomatch h

theorem call_some {c : Code V E L} {f : Fid} {ks : Code V E L × Code V E L}
    (h : c.call f = some ks) :
    ∃ n env child k, c = ⟨n, env, .create child k⟩ ∧
      ks = (⟨n, env, child⟩, ⟨n + 1, push env f, k⟩) := by
  obtain ⟨n, env, body⟩ := c
  cases body with
  | create child k => exact ⟨n, env, child, k, rfl, (Option.some.inj h).symm⟩
  | _ => exact nomatch h

/-- **INVERSION** of the step function. -/
theorem step_cases {P : Program V E L} {out : L → Except E V} {s s' : State V E L}
    {e : Event} (hs : step P out s e = some s') : Step P out s e s' := by
  cases e with
  | start t c =>
      obtain ⟨⟨huser, hentry, hpc⟩, rfl⟩ := enabled_eq_some.mp hs
      exact .start t c huser hentry hpc
  | pureStep t c =>
      obtain ⟨k, hk, hs⟩ := Option.bind_eq_some_iff.mp hs
      obtain ⟨⟨htop, hpc⟩, rfl⟩ := enabled_eq_some.mp hs
      obtain ⟨n, env, b, hcode, rfl⟩ := pureNext_some hk
      exact .pureStep t c n env b hcode htop hpc
  | create t c =>
      obtain ⟨ks, hks, hs⟩ := Option.bind_eq_some_iff.mp hs
      obtain ⟨⟨htop, hpc⟩, rfl⟩ := enabled_eq_some.mp hs
      obtain ⟨n, env, child, k, hcode, rfl⟩ := call_some hks
      exact .create t c n env child k hcode htop hpc
  | leafReady t c =>
      obtain ⟨l, hl, hs⟩ := Option.bind_eq_some_iff.mp hs
      obtain ⟨⟨htop, hpc⟩, rfl⟩ := enabled_eq_some.mp hs
      obtain ⟨n, env, k, h, hcode⟩ := leaf_some hl
      exact .leafReady t c n env l k h hcode htop hpc
  | leafSuspend t c =>
      obtain ⟨l, hl, hs⟩ := Option.bind_eq_some_iff.mp hs
      obtain ⟨⟨htop, hpc⟩, rfl⟩ := enabled_eq_some.mp hs
      obtain ⟨n, env, k, h, hcode⟩ := leaf_some hl
      exact .leafSuspend t c n env l k h hcode htop hpc
  | leafResume t c =>
      obtain ⟨l, hl, hs⟩ := Option.bind_eq_some_iff.mp hs
      obtain ⟨⟨huser, hpc⟩, rfl⟩ := enabled_eq_some.mp hs
      obtain ⟨n, env, k, h, hcode⟩ := leaf_some hl
      exact .leafResume t c n env l k h hcode huser hpc
  | awaitReady t c f =>
      obtain ⟨r, hres, hs⟩ := Option.bind_eq_some_iff.mp hs
      obtain ⟨⟨htop, hpc, hawait, hdone⟩, rfl⟩ := enabled_eq_some.mp hs
      exact .awaitReady t c f r hres htop hpc hawait hdone
  | awaitSuspend t c f =>
      obtain ⟨⟨htop, hpc, hawait, hfresh⟩, rfl⟩ := enabled_eq_some.mp hs
      exact .awaitSuspend t c f htop hpc hawait hfresh
  | storeContinuation t c f =>
      obtain ⟨⟨htop, hpc⟩, rfl⟩ := enabled_eq_some.mp hs
      exact .storeContinuation t c f htop hpc
  | setFirst t c f =>
      obtain ⟨⟨htop, hpc, hfirst⟩, rfl⟩ := enabled_eq_some.mp hs
      exact .setFirst t c f htop hpc hfirst
  | setSecond t c f =>
      obtain ⟨r, hres, hs⟩ := Option.bind_eq_some_iff.mp hs
      obtain ⟨⟨htop, hpc, hsecond⟩, rfl⟩ := enabled_eq_some.mp hs
      exact .setSecond t c f r hres htop hpc hsecond
  | finish t c =>
      obtain ⟨r, hret, hs⟩ := Option.bind_eq_some_iff.mp hs
      obtain ⟨⟨htop, hpc, hentry⟩, rfl⟩ := enabled_eq_some.mp hs
      exact .finish t c r hret htop hpc hentry
  | finishEntry t c =>
      obtain ⟨r, hret, hs⟩ := Option.bind_eq_some_iff.mp hs
      obtain ⟨⟨htop, hpc, hentry⟩, rfl⟩ := enabled_eq_some.mp hs
      exact .finishEntry t c r hret htop hpc hentry
  | finalFirst t f =>
      obtain ⟨⟨htop, hpc, hfirst⟩, rfl⟩ := enabled_eq_some.mp hs
      exact .finalFirst t f htop hpc hfirst
  | finalResume t f c =>
      obtain ⟨r, hres, hs⟩ := Option.bind_eq_some_iff.mp hs
      obtain ⟨⟨htop, hpc, hsecond, hcont, hsusp⟩, rfl⟩ := enabled_eq_some.mp hs
      exact .finalResume t f c r hres htop hpc hsecond hcont hsusp

/-! ## Frames are numbered in the order of their creation -/

theorem unborn_update {g : Fid → Pc} {c : Fid} {p : Pc} (hp : p ≠ .unborn)
    (hc : g c ≠ .unborn) (c' : Fid) :
    Function.update g c p c' = .unborn ↔ g c' = .unborn := by
  by_cases h : c' = c
  · subst h
    rw [Function.update_self]
    exact ⟨fun h => absurd h hp, fun h => absurd h hc⟩
  · rw [Function.update_of_ne h]

/-- Only `create` makes a frame, and it makes the next one. -/
theorem frames_step {P : Program V E L} {out : L → Except E V} {s s' : State V E L}
    {e : Event} (hs : step P out s e = some s') :
    (s'.next = s.next ∧ ∀ c, s'.pc c = .unborn ↔ s.pc c = .unborn) ∨
      (s'.next = s.next + 1 ∧ s'.pc = Function.update s.pc s.next .created) := by
  cases step_cases hs with
  | pureStep => exact Or.inl ⟨rfl, fun _ => Iff.rfl⟩
  | create => exact Or.inr ⟨rfl, rfl⟩
  | _ =>
      refine Or.inl ⟨rfl, fun c' => ?_⟩
      simp [continueWith, unborn_update, *]

/-- In every state reached, the frames that exist are those below `next`. -/
theorem born_iff {P : Program V E L} {out : L → Except E V} {tr : List Event}
    {s : State V E L} (hr : run (futureMachine P out) tr = some s) :
    P.count + P.count ≤ s.next ∧ ∀ c, s.pc c = .unborn ↔ s.next ≤ c := by
  refine run_invariant (I := fun s : State V E L =>
    P.count + P.count ≤ s.next ∧ ∀ c, s.pc c = .unborn ↔ s.next ≤ c) ?_ ?_ hr
  · refine ⟨Nat.le_refl _, fun c => ?_⟩
    show (if c < P.count + P.count then Pc.created else Pc.unborn) = .unborn ↔ _
    by_cases h : c < P.count + P.count
    · rw [if_pos h]
      exact ⟨(fun h => nomatch h), fun hle => absurd h (Nat.not_lt.mpr hle)⟩
    · rw [if_neg h]
      exact ⟨fun _ => Nat.le_of_not_lt h, fun _ => rfl⟩
  · rintro s e s' ⟨hroots, hborn⟩ hs
    rcases frames_step hs with ⟨hnext, hpc⟩ | ⟨hnext, hpc⟩
    · exact ⟨hnext ▸ hroots, fun c => by rw [hpc, hborn, hnext]⟩
    · refine ⟨by omega, fun c => ?_⟩
      rw [hpc, hnext]
      by_cases h : c = s.next
      · subst h
        rw [Function.update_self]
        exact ⟨(fun h => nomatch h), fun h => absurd h (by omega)⟩
      · rw [Function.update_of_ne h, hborn]
        exact ⟨fun hle => Nat.lt_of_le_of_ne hle (Ne.symm h), Nat.le_of_succ_le⟩

section Reached

variable {P : Program V E L} {out : L → Except E V} {tr : List Event} {s : State V E L}

theorem next_unborn (hr : run (futureMachine P out) tr = some s) : s.pc s.next = .unborn :=
  ((born_iff hr).2 s.next).mpr (Nat.le_refl _)

theorem lt_next_of_born (hr : run (futureMachine P out) tr = some s) {c : Fid}
    (hpc : s.pc c ≠ .unborn) : c < s.next := by
  by_contra hle
  exact hpc (((born_iff hr).2 c).mpr (Nat.le_of_not_lt hle))

end Reached

/-- Coroutines at different points are different. -/
theorem ne_of_pc {s : State V E L} {a b : Fid} {p q : Pc} (ha : s.pc a = p)
    (hb : s.pc b = q) (hpq : p ≠ q) : a ≠ b := by
  rintro rfl
  exact hpq (ha.symm.trans hb)

end CoioFuture
