import Coio.MachineProofs

/-! # `sync_wait` — a thread that waits for a coroutine

    `sync_wait` keeps a flag on its stack, wraps the awaitable in a `task_with_callback`
    whose callback sets the flag, starts the task and waits for the flag.  The coroutine
    may complete inside `start()`, or later on another thread.  In that case two threads
    race at the end: the one that has just set the flag is still inside
    `final_awaiter::await_suspend` of a coroutine that the waiting thread may destroy, and
    has the address of a flag that may be gone.

    Each step has the objects that it touches, so that "no dead object is touched" is a
    statement about every step of every run.  What makes it true is the order in which
    `await_suspend` works: it moves the callback out of the promise before it calls it, and
    the exchange is the last thing it does to anything shared.

    The wait is the one of `common/atomic_wait.hpp`, which `sync_wait.hpp` includes where
    the library has none of its own (`__cpp_lib_atomic_wait`), without a table: for a `bool`
    the notification does nothing, and the waiting thread polls.  A library that blocks the
    thread until it is notified is not modelled. -/

namespace CoioSyncWait

open CoioMachine

variable {V E : Type}

/-! ## `__cxx_atomic_wait` for a `bool`, without a table -/

/-- Which load comes next, in a wait for a change of `false`; the wait of the bundled header,
    not of the standard library. -/
inductive Wait where
  /-- the one before the spinning -/
  | first
  | spin (i : Nat)
  /-- the condition of the `while` -/
  | check
  /-- the condition of the `do … while` in the fallback, after a sleep of `history >> 2` -/
  | slow (history : Nat)
  deriving DecidableEq

/-- `history += history >> 2`, at most `1 << 10`. -/
def grow (history : Nat) : Nat :=
  let longer := history + history / 4
  if longer > 1024 then 1024 else longer

/-- What a load that gives `value` leads to; `none` when the wait is over. -/
def Wait.next : Wait → Bool → Option Wait
  | .first, true => none
  | .first, false => some (.spin 0)
  | .spin _, true => none
  | .spin i, false => if i + 1 < 16 then some (.spin (i + 1)) else some .check
  | .check, true => none
  | .check, false => some (.slow 10)
  | .slow _, true => some .check
  | .slow history, false => some (.slow (grow history))

/-- How many loads of `true` end the wait. -/
def Wait.loads : Wait → Nat
  | .slow _ => 2
  | _ => 1

/-! ## The task and the two threads -/

inductive Thread where
  | waiter
  | other
  deriving DecidableEq

/-- `await_resume_t` of the awaitable. -/
inductive Kind where
  | void
  | prvalue
  | reference
  deriving DecidableEq

/-- What the threads share, and what a reference result is about. -/
inductive Object where
  /-- the frame of the coroutine, with its promise and its temporaries -/
  | frame
  | flag
  /-- the object that the awaitable gives a reference to; it lies outside the awaiter and
      the frame, and whoever owns it keeps it -/
  | referred
  deriving DecidableEq

/-- Where the coroutine stands, and on which thread. -/
inductive Body where
  | initial
  | running (th : Thread)
  | suspended
  /-- `if (!promise.m_callback)` in `final_awaiter::await_suspend` -/
  | test (th : Thread)
  /-- `cb = std::move(promise.m_callback)` -/
  | move (th : Thread)
  /-- `flag.exchange` in the callback -/
  | call (th : Thread)
  /-- `atomic_notify_all` -/
  | notify (th : Thread)
  /-- the end of `await_suspend` -/
  | leave (th : Thread)
  | final
  deriving DecidableEq

def Body.on : Body → Option Thread
  | .running th => some th
  | .test th => some th
  | .move th => some th
  | .call th => some th
  | .notify th => some th
  | .leave th => some th
  | _ => none

/-- What `get()` gives: an exception, nothing, or a reference. -/
abbrev Result (E : Type) := Except E (Option Object)

/-- Where `sync_wait` stands. -/
inductive Pc (E : Type) where
  | setCallback
  | start
  /-- inside `task.start()` -/
  | inStart
  | wait (w : Wait)
  | get
  /-- a null pointer was dereferenced -/
  | fault
  /-- `~task_with_callback` -/
  | destroy (r : Result E)
  /-- the flag goes out of scope -/
  | endFlag (r : Result E)
  | returned (r : Result E)
  deriving DecidableEq

structure State (V E : Type) where
  pc : Pc E
  body : Body
  flag : Bool
  frameAlive : Bool
  flagAlive : Bool
  mPointer : Option Object
  mException : Option E
  mCallback : Bool
  /-- the temporary of `co_yield co_await …`, in the frame -/
  slot : Option V
  referred : Option V

def State.alive (s : State V E) : Object → Bool
  | .frame => s.frameAlive
  | .flag => s.flagAlive
  | .referred => true

/-- Reading through the result. -/
def State.read (s : State V E) : Object → Option V
  | .frame => if s.frameAlive then s.slot else none
  | .flag => none
  | .referred => s.referred

/-- The end of the body: `yield_value`, `return_void` or `unhandled_exception`. -/
def finishBody (k : Kind) (s : State V E) : Except E V → State V E
  | .error e => { s with mException := some e }
  | .ok v =>
      match k with
      | .void => s
      | .prvalue => { s with slot := some v, mPointer := some .frame }
      | .reference => { s with referred := some v, mPointer := some .referred }

/-- `promise_type::result`. -/
def get (k : Kind) (s : State V E) : Pc E :=
  match s.mException with
  | some e => .destroy (.error e)
  | none =>
      match k with
      | .void => .destroy (.ok none)
      | _ =>
          match s.mPointer with
          | none => .fault
          | some o => .destroy (.ok (some o))

inductive Event (V E : Type) where
  | setCallback
  | start
  | startReturns
  /-- the body runs until the awaitable suspends it -/
  | suspend (th : Thread)
  | resume (th : Thread)
  /-- the awaitable completes, and the body ends -/
  | finish (th : Thread) (o : Except E V)
  | testCallback (th : Thread)
  | moveCallback (th : Thread)
  | exchange (th : Thread)
  | notify (th : Thread)
  | leave (th : Thread)
  | load (w : Wait)
  | get
  | destroyTask (r : Result E)
  | endFlag (r : Result E)

/-- The objects that a step reads or writes. -/
def touches : Event V E → List Object
  | .setCallback => [.frame]
  | .start => [.frame]
  | .suspend _ => [.frame]
  | .resume _ => [.frame]
  | .finish _ _ => [.frame]
  | .testCallback _ => [.frame]
  | .moveCallback _ => [.frame]
  | .exchange _ => [.flag]
  | .load _ => [.flag]
  | .get => [.frame]
  | .destroyTask _ => [.frame]
  | .startReturns => []
  -- without a table there is nothing in it
  | .notify _ => []
  -- the callback is a local variable of the thread by now
  | .leave _ => []
  | .endFlag _ => []

variable [DecidableEq E] in
def step (k : Kind) (s : State V E) : Event V E → Option (State V E)
  | .setCallback => enabled (s.pc = .setCallback) { s with pc := .start, mCallback := true }
  | .start => enabled (s.pc = .start) { s with pc := .inStart, body := .running .waiter }
  | .startReturns =>
      enabled (s.pc = .inStart ∧ s.body.on ≠ some .waiter) { s with pc := .wait .first }
  | .suspend th => enabled (s.body = .running th) { s with body := .suspended }
  | .resume th =>
      enabled (s.body = .suspended ∧ (th = .waiter → s.pc = .inStart))
        { s with body := .running th }
  | .finish th o =>
      enabled (s.body = .running th) { finishBody k s o with body := .test th }
  | .testCallback th =>
      enabled (s.body = .test th) { s with body := if s.mCallback then .move th else .leave th }
  | .moveCallback th =>
      enabled (s.body = .move th) { s with mCallback := false, body := .call th }
  | .exchange th =>
      enabled (s.body = .call th)
        { s with flag := true, body := if s.flag then .leave th else .notify th }
  | .notify th => enabled (s.body = .notify th) { s with body := .leave th }
  | .leave th => enabled (s.body = .leave th) { s with body := .final }
  | .load w =>
      enabled (s.pc = .wait w)
        { s with pc := match w.next s.flag with | none => .get | some w' => .wait w' }
  | .get => enabled (s.pc = .get) { s with pc := get k s }
  | .destroyTask r => enabled (s.pc = .destroy r) { s with frameAlive := false, pc := .endFlag r }
  | .endFlag r => enabled (s.pc = .endFlag r) { s with flagAlive := false, pc := .returned r }

/-- One call of `sync_wait`, from the point where the task has been made. -/
def syncWait (V E : Type) [DecidableEq E] (k : Kind) : Machine (State V E) (Event V E) where
  init := { pc := .setCallback
            body := .initial
            flag := false
            frameAlive := true
            flagAlive := true
            mPointer := none
            mException := none
            mCallback := false
            slot := none
            referred := none }
  step := step k

/-! ## What holds between two steps -/

/-- The flag has been set. -/
def Body.told : Body → Bool
  | .notify _ => true
  | .leave _ => true
  | .final => true
  | _ => false

/-- The callback is in the promise, once it has been put there. -/
def Body.holdsCallback : Body → Bool
  | .initial => true
  | .running _ => true
  | .suspended => true
  | .test _ => true
  | .move _ => true
  | _ => false

/-- The wait is over. -/
def Pc.late : Pc E → Bool
  | .get => true
  | .fault => true
  | .destroy _ => true
  | .endFlag _ => true
  | .returned _ => true
  | _ => false

def Pc.hasFrame : Pc E → Bool
  | .endFlag _ => false
  | .returned _ => false
  | _ => true

def Pc.hasFlag : Pc E → Bool
  | .returned _ => false
  | _ => true

structure Inv (s : State V E) : Prop where
  flag_eq : s.flag = s.body.told
  late_flag : s.pc.late = true → s.flag = true
  frame_eq : s.frameAlive = s.pc.hasFrame
  flagAlive_eq : s.flagAlive = s.pc.hasFlag
  started : s.body = .initial ↔ s.pc = .setCallback ∨ s.pc = .start
  inside : s.body.on = some .waiter → s.pc = .inStart
  callback : s.pc ≠ .setCallback → s.body.holdsCallback = true → s.mCallback = true

theorem next_eq_none {w : Wait} {value : Bool} (h : w.next value = none) : value = true := by
  cases value with
  | true => rfl
  | false =>
      cases w with
      | spin i =>
          simp only [Wait.next] at h
          split at h <;> cases h
      | _ => cases h

/-- The end of the body writes the promise and the place of the value. -/
theorem finishBody_eq (k : Kind) (s : State V E) (o : Except E V) :
    ∃ p x v w, finishBody k s o
      = { s with mPointer := p, mException := x, slot := v, referred := w } := by
  cases o with
  | error e => exact ⟨_, _, _, _, rfl⟩
  | ok v => cases k <;> exact ⟨_, _, _, _, rfl⟩

theorem get_cases (k : Kind) (s : State V E) :
    (∃ r, get k s = .destroy r) ∨ get k s = .fault := by
  unfold get
  split
  · exact .inl ⟨_, rfl⟩
  · split
    · exact .inl ⟨_, rfl⟩
    · split
      · exact .inr rfl
      · exact .inl ⟨_, rfl⟩

section Moves

variable {s s' : State V E}

/-- A step of the coroutine; `sync_wait` stays where it is. -/
theorem Inv.body_moves (hI : Inv s)
    (hsame : s'.pc = s.pc ∧ s'.frameAlive = s.frameAlive ∧ s'.flagAlive = s.flagAlive)
    (hbegun : s.body ≠ .initial ∧ s'.body ≠ .initial) (hflag : s'.flag = s'.body.told)
    (hkept : s.flag = true → s'.flag = true)
    (hinside : s'.body.on = some .waiter → s.pc = .inStart)
    (hcallback : s.mCallback = true → s'.body.holdsCallback = true → s'.mCallback = true)
    (hheld : s.body.holdsCallback = true ∨ s'.body.holdsCallback = false) : Inv s' := by
  obtain ⟨hpc, hframe, hflagAlive⟩ := hsame
  constructor
  case flag_eq => exact hflag
  case late_flag =>
    rw [hpc]
    exact fun hlate => hkept (hI.late_flag hlate)
  case frame_eq => rw [hframe, hpc, hI.frame_eq]
  case flagAlive_eq => rw [hflagAlive, hpc, hI.flagAlive_eq]
  case started =>
    rw [hpc, ← hI.started]
    exact iff_of_false hbegun.2 hbegun.1
  case inside =>
    rw [hpc]
    exact hinside
  case callback =>
    intro hset hholds
    rw [hpc] at hset
    rcases hheld with hheld | hheld
    · exact hcallback (hI.callback hset hheld) hholds
    · rw [hheld] at hholds
      cases hholds

/-- A step of `sync_wait` behind `start()`; the coroutine stays where it is. -/
theorem Inv.waiter_moves (hI : Inv s)
    (hsame : s'.body = s.body ∧ s'.flag = s.flag ∧ s'.mCallback = s.mCallback)
    (hbehind : s.pc ≠ .setCallback ∧ s.pc ≠ .start ∧ s'.pc ≠ .setCallback ∧ s'.pc ≠ .start)
    (hlate : s'.pc.late = true → s.flag = true) (hframe : s'.frameAlive = s'.pc.hasFrame)
    (hflagAlive : s'.flagAlive = s'.pc.hasFlag) (houtside : s.body.on ≠ some .waiter) :
    Inv s' := by
  obtain ⟨hbody, hflag, hcallback⟩ := hsame
  obtain ⟨hset, hstart, hset', hstart'⟩ := hbehind
  constructor
  case flag_eq => rw [hflag, hbody, hI.flag_eq]
  case late_flag =>
    rw [hflag]
    exact hlate
  case frame_eq => exact hframe
  case flagAlive_eq => exact hflagAlive
  case started =>
    rw [hbody, hI.started]
    exact iff_of_false (not_or.mpr ⟨hset, hstart⟩) (not_or.mpr ⟨hset', hstart'⟩)
  case inside =>
    rw [hbody]
    exact fun hon => absurd hon houtside
  case callback =>
    rw [hbody, hcallback]
    exact fun _ hholds => hI.callback hset hholds

/-- Behind `start()` the coroutine is not on the waiting thread. -/
theorem Inv.outside (hI : Inv s) (hpc : s.pc ≠ .inStart) : s.body.on ≠ some .waiter :=
  fun hon => hpc (hI.inside hon)

end Moves

variable [DecidableEq E]

/-- **STEP LEMMA**: every step keeps the two threads in order. -/
theorem inv_step (k : Kind) (s : State V E) (e : Event V E) (s' : State V E) (hI : Inv s)
    (hs : step k s e = some s') : Inv s' := by
  have hflag := hI.flag_eq
  have hframe := hI.frame_eq
  have hflagAlive := hI.flagAlive_eq
  cases e with
  | setCallback =>
      obtain ⟨hpc, rfl⟩ := enabled_eq_some.mp hs
      have hbody := hI.started.mpr (.inl hpc)
      rw [hbody] at hflag
      rw [hpc] at hframe hflagAlive
      exact ⟨by rw [hbody, hflag], by simp [Pc.late], hframe, hflagAlive, by simp [hbody],
        by simp [hbody, Body.on], fun _ _ => rfl⟩
  | start =>
      obtain ⟨hpc, rfl⟩ := enabled_eq_some.mp hs
      have hbody := hI.started.mpr (.inr hpc)
      have hcallback := hI.callback (by simp [hpc]) (by simp [hbody, Body.holdsCallback])
      rw [hbody] at hflag
      rw [hpc] at hframe hflagAlive
      exact ⟨hflag, by simp [Pc.late], hframe, hflagAlive, by simp, fun _ => rfl,
        fun _ _ => hcallback⟩
  -- the waiting thread
  | startReturns =>
      obtain ⟨⟨hpc, hon⟩, rfl⟩ := enabled_eq_some.mp hs
      rw [hpc] at hframe hflagAlive
      exact hI.waiter_moves ⟨rfl, rfl, rfl⟩ (by simp [hpc]) (by simp [Pc.late]) hframe
            hflagAlive hon
  | load w =>
      obtain ⟨hpc, rfl⟩ := enabled_eq_some.mp hs
      have hon := hI.outside (by simp [hpc])
      rw [hpc] at hframe hflagAlive
      cases hnext : w.next s.flag with
      | none =>
          exact hI.waiter_moves ⟨rfl, rfl, rfl⟩ (by simp [hpc])
            (fun _ => next_eq_none hnext) hframe hflagAlive hon
      | some w' =>
          exact hI.waiter_moves ⟨rfl, rfl, rfl⟩ (by simp [hpc]) (by simp [Pc.late]) hframe
            hflagAlive hon
  | get =>
      obtain ⟨hpc, rfl⟩ := enabled_eq_some.mp hs
      have hon := hI.outside (by simp [hpc])
      have htrue := hI.late_flag (by simp [hpc, Pc.late])
      rw [hpc] at hframe hflagAlive
      rcases get_cases k s with ⟨r, hget⟩ | hget <;> rw [hget] <;>
        exact hI.waiter_moves ⟨rfl, rfl, rfl⟩ (by simp [hpc]) (fun _ => htrue) hframe
          hflagAlive hon
  | destroyTask r =>
      obtain ⟨hpc, rfl⟩ := enabled_eq_some.mp hs
      have hon := hI.outside (by simp [hpc])
      have htrue := hI.late_flag (by simp [hpc, Pc.late])
      rw [hpc] at hflagAlive
      exact hI.waiter_moves ⟨rfl, rfl, rfl⟩ (by simp [hpc]) (fun _ => htrue) rfl hflagAlive hon
  | endFlag r =>
      obtain ⟨hpc, rfl⟩ := enabled_eq_some.mp hs
      have hon := hI.outside (by simp [hpc])
      have htrue := hI.late_flag (by simp [hpc, Pc.late])
      rw [hpc] at hframe
      exact hI.waiter_moves ⟨rfl, rfl, rfl⟩ (by simp [hpc]) (fun _ => htrue) hframe rfl hon
  -- the thread of the coroutine
  | suspend th =>
      obtain ⟨hbody, rfl⟩ := enabled_eq_some.mp hs
      rw [hbody] at hflag
      exact hI.body_moves ⟨rfl, rfl, rfl⟩ (by simp [hbody]) hflag id (by simp [Body.on])
        (fun h _ => h) (.inl (by simp [hbody, Body.holdsCallback]))
  | resume th =>
      obtain ⟨⟨hbody, hth⟩, rfl⟩ := enabled_eq_some.mp hs
      rw [hbody] at hflag
      exact hI.body_moves ⟨rfl, rfl, rfl⟩ (by simp [hbody]) hflag id
        (fun hon => hth (Option.some.inj hon)) (fun h _ => h)
        (.inl (by simp [hbody, Body.holdsCallback]))
  | finish th o =>
      obtain ⟨hbody, rfl⟩ := enabled_eq_some.mp hs
      obtain ⟨p, x, v, w, hfinish⟩ := finishBody_eq k s o
      have hin : s.body.on = some th := by rw [hbody, Body.on]
      rw [hbody] at hflag
      rw [hfinish]
      exact hI.body_moves ⟨rfl, rfl, rfl⟩ (by simp [hbody]) hflag id
        (fun hon => hI.inside (hin.trans hon)) (fun h _ => h)
        (.inl (by simp [hbody, Body.holdsCallback]))
  | testCallback th =>
      obtain ⟨hbody, rfl⟩ := enabled_eq_some.mp hs
      have hin : s.body.on = some th := by rw [hbody, Body.on]
      have hcallback : s.mCallback = true := by
        refine hI.callback ?_ (by simp [hbody, Body.holdsCallback])
        intro hpc
        have hinitial := hI.started.mpr (.inl hpc)
        rw [hbody] at hinitial
        cases hinitial
      rw [hbody] at hflag
      rw [if_pos hcallback]
      exact hI.body_moves ⟨rfl, rfl, rfl⟩ (by simp [hbody]) hflag id
        (fun hon => hI.inside (hin.trans hon)) (fun h _ => h)
        (.inl (by simp [hbody, Body.holdsCallback]))
  | moveCallback th =>
      obtain ⟨hbody, rfl⟩ := enabled_eq_some.mp hs
      have hin : s.body.on = some th := by rw [hbody, Body.on]
      rw [hbody] at hflag
      exact hI.body_moves ⟨rfl, rfl, rfl⟩ (by simp [hbody]) hflag id
        (fun hon => hI.inside (hin.trans hon)) (fun _ h => h) (.inr rfl)
  | exchange th =>
      obtain ⟨hbody, rfl⟩ := enabled_eq_some.mp hs
      have hin : s.body.on = some th := by rw [hbody, Body.on]
      rw [hbody] at hflag
      rw [if_neg (by simp [hflag, Body.told])]
      exact hI.body_moves ⟨rfl, rfl, rfl⟩ (by simp [hbody]) rfl (fun _ => rfl)
        (fun hon => hI.inside (hin.trans hon)) (fun h _ => h) (.inr rfl)
  | notify th =>
      obtain ⟨hbody, rfl⟩ := enabled_eq_some.mp hs
      have hin : s.body.on = some th := by rw [hbody, Body.on]
      rw [hbody] at hflag
      exact hI.body_moves ⟨rfl, rfl, rfl⟩ (by simp [hbody]) hflag id
        (fun hon => hI.inside (hin.trans hon)) (fun h _ => h) (.inr rfl)
  | leave th =>
      obtain ⟨hbody, rfl⟩ := enabled_eq_some.mp hs
      rw [hbody] at hflag
      exact hI.body_moves ⟨rfl, rfl, rfl⟩ (by simp [hbody]) hflag id (by simp [Body.on])
        (fun h _ => h) (.inr rfl)

theorem inv_run {k : Kind} {tr : List (Event V E)} {s : State V E}
    (hr : run (syncWait V E k) tr = some s) : Inv s := by
  refine run_invariant ?_ (inv_step k) hr
  constructor <;> simp [syncWait, Body.told, Pc.late, Pc.hasFrame, Pc.hasFlag, Body.on]

omit [DecidableEq E] in
/-- As long as the flag is not set, `sync_wait` does not return. -/
theorem Inv.alive_before {s : State V E} (hI : Inv s) (h : s.body.told = false) (o : Object) :
    s.alive o = true := by
  have hlate : s.pc.late = false := by
    rw [← Bool.not_eq_true]
    intro hlate
    rw [← hI.flag_eq, hI.late_flag hlate] at h
    cases h
  cases o with
  | frame =>
      show s.frameAlive = true
      rw [hI.frame_eq]
      cases hpc : s.pc <;> rw [hpc] at hlate <;> first | rfl | cases hlate
  | flag =>
      show s.flagAlive = true
      rw [hI.flagAlive_eq]
      cases hpc : s.pc <;> rw [hpc] at hlate <;> first | rfl | cases hlate
  | referred => rfl

/-- No step touches an object that is gone: the coroutine touches nothing once the flag is
    set, and the waiting thread only what it has not destroyed itself. -/
theorem touches_alive {k : Kind} {s s' : State V E} {e : Event V E} (hI : Inv s)
    (hs : step k s e = some s') : ∀ o ∈ touches e, s.alive o = true := by
  intro o ho
  cases e with
  | suspend th | finish th res | testCallback th | moveCallback th | exchange th =>
      obtain ⟨hbody, -⟩ := enabled_eq_some.mp hs
      exact hI.alive_before (by rw [hbody]; rfl) o
  | resume th =>
      obtain ⟨⟨hbody, -⟩, -⟩ := enabled_eq_some.mp hs
      exact hI.alive_before (by rw [hbody]; rfl) o
  | setCallback | start | get | destroyTask r =>
      obtain ⟨hpc, -⟩ := enabled_eq_some.mp hs
      cases List.mem_singleton.mp ho
      show s.frameAlive = true
      rw [hI.frame_eq, hpc]
      rfl
  | load w =>
      obtain ⟨hpc, -⟩ := enabled_eq_some.mp hs
      cases List.mem_singleton.mp ho
      show s.flagAlive = true
      rw [hI.flagAlive_eq, hpc]
      rfl
  | startReturns | notify th | leave th | endFlag r => cases ho

/-! ## What it returns -/

/-- The promise holds the outcome of the body. -/
def Stored (k : Kind) (s : State V E) : Except E V → Prop
  | .error e => s.mException = some e
  | .ok v =>
      s.mException = none ∧
        match k with
        | .void => True
        | .prvalue => s.mPointer = some .frame ∧ s.slot = some v
        | .reference => s.mPointer = some .referred ∧ s.referred = some v

/-- What `get()` gives for an outcome. -/
def resultOf (k : Kind) : Except E V → Result E
  | .error e => .error e
  | .ok _ =>
      match k with
      | .void => .ok none
      | .prvalue => .ok (some .frame)
      | .reference => .ok (some .referred)

/-- The body has not ended. -/
def Body.unfinished : Body → Bool
  | .initial => true
  | .running _ => true
  | .suspended => true
  | _ => false

omit [DecidableEq E] in
theorem Inv.ended {s : State V E} (hI : Inv s) (h : s.pc.late = true) : s.body.unfinished = false := by
  have htold := hI.late_flag h
  rw [hI.flag_eq] at htold
  cases hbody : s.body <;> rw [hbody] at htold <;> first | rfl | cases htold

def Pc.result : Pc E → Option (Result E)
  | .destroy r => some r
  | .endFlag r => some r
  | .returned r => some r
  | _ => none

def Event.outcome : Event V E → Option (Except E V)
  | .finish _ o => some o
  | _ => none

/-- How the body has ended, each time it did. -/
def outcomes (tr : List (Event V E)) : List (Except E V) := tr.filterMap Event.outcome

def isExchange : Event V E → Bool
  | .exchange _ => true
  | _ => false

omit [DecidableEq E] in
theorem get_of_stored {k : Kind} {s : State V E} {o : Except E V} (h : Stored k s o) :
    get k s = .destroy (resultOf k o) := by
  cases o with
  | error e =>
      have hsome : s.mException = some e := h
      simp [get, hsome, resultOf]
  | ok v =>
      obtain ⟨hnone, hplace⟩ := h
      cases k with
      | void => simp [get, hnone, resultOf]
      | prvalue | reference => simp [get, hnone, hplace.1, resultOf]

omit [DecidableEq E] in
theorem stored_finishBody (k : Kind) {s : State V E} (hnone : s.mException = none)
    (o : Except E V) (b : Body) : Stored k { finishBody k s o with body := b } o := by
  cases o with
  | error e => exact rfl
  | ok v =>
      cases k with
      | void => exact ⟨hnone, trivial⟩
      | prvalue => exact ⟨hnone, rfl, rfl⟩
      | reference => exact ⟨hnone, rfl, rfl⟩

/-- What the events so far and the state have to do with each other. -/
structure Follows (k : Kind) (tr : List (Event V E)) (s : State V E) : Prop where
  unfinished : s.body.unfinished = true → outcomes tr = [] ∧ s.mException = none
  finished : s.body.unfinished = false → ∃ o, outcomes tr = [o] ∧ Stored k s o ∧
    ∀ r, s.pc.result = some r → r = resultOf k o
  exchanged : tr.countP isExchange = s.flag.toNat
  sound : s.pc ≠ .fault
  slept : ∀ history, s.pc = .wait (.slow history) → 10 ≤ history ∧ history ≤ 1024

omit [DecidableEq E] in
theorem outcomes_snoc (tr : List (Event V E)) (e : Event V E) :
    outcomes (tr ++ [e]) = outcomes tr ++ e.outcome.toList := by
  cases h : e.outcome <;> simp [outcomes, h]

omit [DecidableEq E] in
/-- Nothing that the statement reads has changed. -/
theorem Follows.quiet {k : Kind} {tr : List (Event V E)} {s s' : State V E} {e : Event V E}
    (hF : Follows k tr s) (he : e.outcome = none) (hex : isExchange e = false)
    (hopen : s'.body.unfinished = s.body.unfinished) (hpointer : s'.mPointer = s.mPointer)
    (hexception : s'.mException = s.mException) (hslot : s'.slot = s.slot)
    (hreferred : s'.referred = s.referred) (hflag : s'.flag = s.flag)
    (hresult : s'.pc.result = s.pc.result ∨ s'.pc.result = none) (hsound : s'.pc ≠ .fault)
    (hslept : ∀ history, s'.pc = .wait (.slow history) → 10 ≤ history ∧ history ≤ 1024) :
    Follows k (tr ++ [e]) s' where
  unfinished h := by
    rw [outcomes_snoc, he, hexception]
    simpa using hF.unfinished (hopen ▸ h)
  finished h := by
    obtain ⟨o, ho, hstored, hr⟩ := hF.finished (hopen ▸ h)
    refine ⟨o, ?_, ?_, ?_⟩
    · rw [outcomes_snoc, he, ho]
      rfl
    · unfold Stored at hstored ⊢
      rw [hexception, hpointer, hslot, hreferred]
      exact hstored
    · intro r hres
      rcases hresult with hsame | hnone
      · exact hr r (hsame ▸ hres)
      · rw [hnone] at hres
        cases hres
  exchanged := by rw [countP_snoc_of_not hex, hF.exchanged, hflag]
  sound := hsound
  slept := hslept

theorem grow_le (history : Nat) (h : 10 ≤ history) : 10 ≤ grow history ∧ grow history ≤ 1024 := by
  unfold grow
  dsimp only
  split <;> omega

/-- How long the fallback sleeps. -/
theorem slow_next {w : Wait} {value : Bool} {history : Nat}
    (hw : ∀ h, w = .slow h → 10 ≤ h) (h : w.next value = some (.slow history)) :
    10 ≤ history ∧ history ≤ 1024 := by
  cases w with
  | first => cases value <;> cases h
  | spin i =>
      cases value with
      | true => cases h
      | false =>
          simp only [Wait.next] at h
          split at h <;> cases h
  | check =>
      cases value with
      | true => cases h
      | false =>
          cases h
          decide
  | slow old =>
      cases value with
      | true => cases h
      | false =>
          cases h
          exact grow_le old (hw old rfl)

/-- **RUN LEMMA**: the events of a run and the state it reaches agree. -/
theorem follows_run {k : Kind} : ∀ (tr : List (Event V E)) (s : State V E),
    run (syncWait V E k) tr = some s → Follows k tr s := by
  refine run_history ?_ ?_
  · exact {
      unfinished := fun _ => ⟨rfl, rfl⟩
      finished := fun h => by cases h
      exchanged := rfl
      sound := fun h => by cases h
      slept := fun _ h => by cases h }
  · intro tr s e s' hr hF hs
    have hI := inv_run hr
    cases e with
    | finish th o =>
        obtain ⟨hbody, rfl⟩ := enabled_eq_some.mp hs
        obtain ⟨hnone, hexception⟩ := hF.unfinished (by rw [hbody]; rfl)
        obtain ⟨p, x, v, w, hfinish⟩ := finishBody_eq k s o
        have hstored := stored_finishBody k hexception o (.test th)
        have hresult : s.pc.result = none := by
          cases hpc : s.pc with
          | destroy r | endFlag r | returned r =>
              have hflag := hI.late_flag (by rw [hpc]; rfl)
              rw [hI.flag_eq, hbody] at hflag
              cases hflag
          | _ => rfl
        refine {
          unfinished := fun h => by cases h
          finished := fun _ => ⟨o, ?_, hstored, ?_⟩
          exchanged := ?_
          sound := ?_
          slept := ?_ }
        · rw [outcomes_snoc, hnone]
          rfl
        · rw [hfinish]
          intro r hr
          rw [hresult] at hr
          cases hr
        · rw [countP_snoc_of_not rfl, hF.exchanged, hfinish]
        · rw [hfinish]
          exact hF.sound
        · rw [hfinish]
          exact hF.slept
    | exchange th =>
        obtain ⟨hbody, rfl⟩ := enabled_eq_some.mp hs
        have hfalse : s.flag = false := by rw [hI.flag_eq, hbody]; rfl
        refine {
          unfinished := fun h => by rw [hfalse] at h; cases h
          finished := fun _ => ?_
          exchanged := ?_
          sound := hF.sound
          slept := hF.slept }
        · obtain ⟨o, ho, hstored, hr⟩ := hF.finished (by rw [hbody]; rfl)
          refine ⟨o, ?_, hstored, hr⟩
          rw [outcomes_snoc, ho]
          rfl
        · rw [countP_snoc, hF.exchanged, hfalse]
          rfl
    | get =>
        obtain ⟨hpc, rfl⟩ := enabled_eq_some.mp hs
        have hended := hI.ended (by rw [hpc]; rfl)
        obtain ⟨o, ho, hstored, -⟩ := hF.finished hended
        rw [get_of_stored hstored]
        refine {
          unfinished := fun h => by rw [show s.body.unfinished = true from h] at hended; cases hended
          finished := fun _ => ⟨o, ?_, hstored, ?_⟩
          exchanged := ?_
          sound := fun h => by cases h
          slept := fun _ h => by cases h }
        · rw [outcomes_snoc, ho]
          rfl
        · intro r hr
          exact (Option.some.inj hr).symm
        · rw [countP_snoc_of_not rfl]
          exact hF.exchanged
    | load w =>
        obtain ⟨hpc, rfl⟩ := enabled_eq_some.mp hs
        cases hnext : w.next s.flag with
        | none =>
            exact hF.quiet rfl rfl rfl rfl rfl rfl rfl rfl (.inr rfl) (fun h => by cases h)
              (fun _ h => by cases h)
        | some w' =>
            refine hF.quiet rfl rfl rfl rfl rfl rfl rfl rfl (.inr rfl) (fun h => by cases h) ?_
            intro history h
            cases Pc.wait.inj h
            exact slow_next (fun h hw => (hF.slept h (hw ▸ hpc)).1) hnext
    | testCallback th =>
        obtain ⟨hbody, rfl⟩ := enabled_eq_some.mp hs
        refine hF.quiet rfl rfl ?_ rfl rfl rfl rfl rfl (.inl rfl) hF.sound hF.slept
        rw [hbody]
        cases s.mCallback <;> rfl
    | start =>
        obtain ⟨hpc, rfl⟩ := enabled_eq_some.mp hs
        refine hF.quiet rfl rfl ?_ rfl rfl rfl rfl rfl (.inr rfl) (fun h => by cases h)
          (fun _ h => by cases h)
        rw [hI.started.mpr (.inr hpc)]
        rfl
    | setCallback =>
        obtain ⟨-, rfl⟩ := enabled_eq_some.mp hs
        exact hF.quiet rfl rfl rfl rfl rfl rfl rfl rfl (.inr rfl) (fun h => by cases h)
          (fun _ h => by cases h)
    | startReturns =>
        obtain ⟨-, rfl⟩ := enabled_eq_some.mp hs
        exact hF.quiet rfl rfl rfl rfl rfl rfl rfl rfl (.inr rfl) (fun h => by cases h)
          (fun _ h => by cases h)
    | destroyTask r | endFlag r =>
        obtain ⟨hpc, rfl⟩ := enabled_eq_some.mp hs
        refine hF.quiet rfl rfl rfl rfl rfl rfl rfl rfl (.inl ?_) (fun h => by cases h)
          (fun _ h => by cases h)
        rw [hpc]
        rfl
    | resume th =>
        obtain ⟨⟨hbody, -⟩, rfl⟩ := enabled_eq_some.mp hs
        exact hF.quiet rfl rfl (by rw [hbody]; rfl) rfl rfl rfl rfl rfl (.inl rfl) hF.sound hF.slept
    | suspend th | moveCallback th | notify th | leave th =>
        obtain ⟨hbody, rfl⟩ := enabled_eq_some.mp hs
        exact hF.quiet rfl rfl (by rw [hbody]; rfl) rfl rfl rfl rfl rfl (.inl rfl) hF.sound hF.slept

/-! ## It does return -/

def isLoad : Event V E → Bool
  | .load _ => true
  | _ => false

/-- A step of the waiting thread. -/
def ofWaiter : Event V E → Bool
  | .suspend th => th == .waiter
  | .resume th => th == .waiter
  | .finish th _ => th == .waiter
  | .testCallback th => th == .waiter
  | .moveCallback th => th == .waiter
  | .exchange th => th == .waiter
  | .notify th => th == .waiter
  | .leave th => th == .waiter
  | _ => true

/-- How many loads the waiting thread has still to make, with the flag set. -/
def loadsLeft : Pc E → Nat
  | .setCallback => 1
  | .start => 1
  | .inStart => 1
  | .wait w => w.loads
  | _ => 0

omit [DecidableEq E] in
theorem loadsLeft_le (pc : Pc E) : loadsLeft pc ≤ 2 := by
  cases pc with
  | wait w => cases w <;> simp [loadsLeft, Wait.loads]
  | _ => simp [loadsLeft]

theorem loadsLeft_step {k : Kind} {s s' : State V E} {e : Event V E} (hflag : s.flag = true)
    (hs : step k s e = some s') :
    s'.flag = true ∧ loadsLeft s'.pc + (isLoad e).toNat ≤ loadsLeft s.pc := by
  cases e with
  | finish th o =>
      obtain ⟨-, rfl⟩ := enabled_eq_some.mp hs
      obtain ⟨p, x, v, w, hfinish⟩ := finishBody_eq k s o
      rw [hfinish]
      exact ⟨hflag, Nat.le_refl _⟩
  | load w =>
      obtain ⟨hpc, rfl⟩ := enabled_eq_some.mp hs
      refine ⟨hflag, ?_⟩
      rw [hpc, hflag]
      cases w <;> exact Nat.le_refl _
  | get =>
      obtain ⟨hpc, rfl⟩ := enabled_eq_some.mp hs
      refine ⟨hflag, ?_⟩
      rcases get_cases k s with ⟨r, hget⟩ | hget <;> simp [hget, loadsLeft, isLoad]
  | exchange th =>
      obtain ⟨-, rfl⟩ := enabled_eq_some.mp hs
      exact ⟨rfl, Nat.le_refl _⟩
  | suspend th | moveCallback th | notify th | leave th | testCallback th | resume th =>
      obtain ⟨-, rfl⟩ := enabled_eq_some.mp hs
      exact ⟨hflag, Nat.le_refl _⟩
  | startReturns =>
      obtain ⟨⟨hpc, -⟩, rfl⟩ := enabled_eq_some.mp hs
      exact ⟨hflag, by rw [hpc]; exact Nat.le_refl _⟩
  | setCallback | start =>
      obtain ⟨hpc, rfl⟩ := enabled_eq_some.mp hs
      exact ⟨hflag, by rw [hpc]; exact Nat.le_refl _⟩
  | destroyTask r | endFlag r =>
      obtain ⟨hpc, rfl⟩ := enabled_eq_some.mp hs
      exact ⟨hflag, Nat.zero_le _⟩

/-- The waiting thread is never blocked. -/
theorem waiter_goes_on {k : Kind} {s : State V E} (hsound : s.pc ≠ .fault)
    (hr : ∀ r, s.pc ≠ .returned r) : ∃ e s', step k s e = some s' ∧ ofWaiter e = true := by
  have hgo : ∀ {e s'}, step k s e = some s' → ofWaiter e = true →
      ∃ e s', step k s e = some s' ∧ ofWaiter e = true := fun hs he => ⟨_, _, hs, he⟩
  obtain ⟨pc, hpc⟩ : ∃ pc, s.pc = pc := ⟨_, rfl⟩
  cases pc with
  | setCallback => exact hgo (e := .setCallback) (enabled_eq_some.mpr ⟨hpc, rfl⟩) rfl
  | start => exact hgo (e := .start) (enabled_eq_some.mpr ⟨hpc, rfl⟩) rfl
  | inStart =>
      -- either the coroutine runs on this thread, or `start()` can return
      by_cases hon : s.body.on = some .waiter
      · cases hbody : s.body <;> rw [hbody] at hon <;> cases hon
        · exact hgo (e := .suspend .waiter) (enabled_eq_some.mpr ⟨hbody, rfl⟩) rfl
        · exact hgo (e := .testCallback .waiter) (enabled_eq_some.mpr ⟨hbody, rfl⟩) rfl
        · exact hgo (e := .moveCallback .waiter) (enabled_eq_some.mpr ⟨hbody, rfl⟩) rfl
        · exact hgo (e := .exchange .waiter) (enabled_eq_some.mpr ⟨hbody, rfl⟩) rfl
        · exact hgo (e := .notify .waiter) (enabled_eq_some.mpr ⟨hbody, rfl⟩) rfl
        · exact hgo (e := .leave .waiter) (enabled_eq_some.mpr ⟨hbody, rfl⟩) rfl
      · exact hgo (e := .startReturns) (enabled_eq_some.mpr ⟨⟨hpc, hon⟩, rfl⟩) rfl
  | wait w => exact hgo (e := .load w) (enabled_eq_some.mpr ⟨hpc, rfl⟩) rfl
  | get => exact hgo (e := .get) (enabled_eq_some.mpr ⟨hpc, rfl⟩) rfl
  | fault => exact absurd hpc hsound
  | destroy r => exact hgo (e := .destroyTask r) (enabled_eq_some.mpr ⟨hpc, rfl⟩) rfl
  | endFlag r => exact hgo (e := .endFlag r) (enabled_eq_some.mpr ⟨hpc, rfl⟩) rfl
  | returned r => exact absurd hpc (hr r)

/-- **IT RETURNS THE OUTCOME**: whatever the two threads do in whatever order, no step
    touches an object that is gone; what is returned is how the body ended, which it did
    once, and the flag was set once.  The waiting thread can always go on, makes at most
    two more loads when the flag has been set, and never sleeps longer than 256 µs. -/
theorem sync_wait_answers (k : Kind) (tr : List (Event V E)) (s : State V E)
    (hr : run (syncWait V E k) tr = some s) :
    (∀ e s', step k s e = some s' → ∀ o ∈ touches e, s.alive o = true) ∧
    (∀ r, s.pc = .returned r →
      ∃ o, outcomes tr = [o] ∧ r = resultOf k o ∧ tr.countP isExchange = 1) ∧
    ((∃ r, s.pc = .returned r) ∨ ∃ e s', step k s e = some s' ∧ ofWaiter e = true) ∧
    (∀ pre th post, tr = pre ++ .exchange th :: post → post.countP isLoad ≤ 2) ∧
    (∀ history, s.pc = .wait (.slow history) → 2 ≤ history / 4 ∧ history / 4 ≤ 256) := by
  have hI := inv_run hr
  have hF := follows_run tr s hr
  refine ⟨fun e s' => touches_alive hI, ?_, ?_, ?_, ?_⟩
  · intro r hpc
    have hflag := hI.late_flag (by rw [hpc]; rfl)
    obtain ⟨o, ho, -, hresult⟩ := hF.finished (hI.ended (by rw [hpc]; rfl))
    refine ⟨o, ho, hresult r (by rw [hpc]; rfl), ?_⟩
    rw [hF.exchanged, hflag]
    rfl
  · by_cases hreturned : ∃ r, s.pc = .returned r
    · exact .inl hreturned
    · exact .inr (waiter_goes_on hF.sound fun r h => hreturned ⟨r, h⟩)
  · rintro pre th post rfl
    obtain ⟨t, -, hpost⟩ := runFrom_append_some.mp hr
    obtain ⟨u, hexchange, hpost⟩ := runFrom_cons_some.mp hpost
    obtain ⟨-, rfl⟩ := enabled_eq_some.mp hexchange
    have hcount := runFrom_countdown (M := syncWait V E k) (I := fun s => s.flag = true)
      (fun _ _ _ hflag hs => (loadsLeft_step hflag hs).1)
      (fun s e s' hflag (_ : True) hs => (loadsLeft_step hflag hs).2) rfl post s hpost
      (fun _ _ => trivial)
    exact (Nat.le_add_left _ _).trans (hcount.trans (loadsLeft_le _))
  · intro history hpc
    obtain ⟨hlow, hhigh⟩ := hF.slept history hpc
    omega

/-- The other thread completes while the first one spins; the first one returns while the
    other is still in `await_suspend`. -/
def raced : List (Event Nat Nat) :=
  [.setCallback, .start, .suspend .waiter, .resume .other, .startReturns, .load .first,
    .finish .other (.ok 7), .testCallback .other, .load (.spin 0), .moveCallback .other,
    .exchange .other, .load (.spin 1), .get, .destroyTask (.ok (some .frame)),
    .endFlag (.ok (some .frame)), .notify .other]

theorem sync_wait_answers_raced :
    ∃ s, run (syncWait Nat Nat .prvalue) raced = some s ∧ outcomes raced = [.ok 7] ∧
      raced.countP isExchange = 1 := by
  obtain ⟨s, hs, hpc⟩ : ∃ s, run (syncWait Nat Nat .prvalue) raced = some s ∧
      s.pc = .returned (.ok (some .frame)) := ⟨_, rfl, rfl⟩
  obtain ⟨-, hreturned, -⟩ := sync_wait_answers .prvalue raced s hs
  obtain ⟨o, ho, -, honce⟩ := hreturned _ hpc
  exact ⟨s, hs, rfl, honce⟩

/-- **THE RESULT REFERS TO A DEAD FRAME** exactly if the awaitable gives a prvalue: then
    the reference is to the temporary of `co_yield`.  A reference that the awaitable gives,
    to an object outside of itself and of the frame, is passed on, and the value can be
    read. -/
theorem result_dangles_iff (k : Kind) (tr : List (Event V E)) (s : State V E) (o : Object)
    (hr : run (syncWait V E k) tr = some s) (hpc : s.pc = .returned (.ok (some o))) :
    (s.alive o = false ↔ k = .prvalue) ∧
      ∃ v, outcomes tr = [.ok v] ∧ (s.read o = some v ↔ k = .reference) := by
  have hI := inv_run hr
  obtain ⟨out, hout, hstored, hresult⟩ :=
    (follows_run tr s hr).finished (hI.ended (by rw [hpc]; rfl))
  have hr' : .ok (some o) = resultOf k out := hresult _ (by rw [hpc]; rfl)
  have hdead : s.frameAlive = false := by
    rw [hI.frame_eq, hpc]
    rfl
  cases out with
  | error e => cases hr'
  | ok v =>
      cases k with
      | void => cases hr'
      | prvalue =>
          cases hr'
          refine ⟨⟨fun _ => rfl, fun _ => hdead⟩, v, hout, ?_⟩
          simp [State.read, hdead]
      | reference =>
          cases hr'
          obtain ⟨-, -, hvalue⟩ := hstored
          refine ⟨by simp [State.alive], v, hout, ?_⟩
          simp [State.read, hvalue]

theorem result_dangles_iff_raced :
    ∃ s, run (syncWait Nat Nat .prvalue) raced = some s ∧ s.alive .frame = false := by
  obtain ⟨s, hs, hpc⟩ : ∃ s, run (syncWait Nat Nat .prvalue) raced = some s ∧
      s.pc = .returned (.ok (some .frame)) := ⟨_, rfl, rfl⟩
  exact ⟨s, hs, (result_dangles_iff .prvalue raced s .frame hs hpc).1.mpr rfl⟩

end CoioSyncWait
