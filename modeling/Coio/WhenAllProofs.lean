import Coio.CounterProofs
import Mathlib.Algebra.Group.Nat.Defs
import Mathlib.Data.List.GetD

/-! # `when_all` — start every awaitable, await the countdown, collect

    The three overloads of `when_all` share one shape: a `task_with_callback`
    coroutine around every awaitable, a callback that notifies the counter when
    the task reaches its final suspension, `co_await counter`, and then the
    collection of the results from the tasks' promises.

    All resumptions happen on one thread, so a completion runs either inside a
    `task.start()` of the start loop (its own, or a later one), or after the
    coroutine has suspended on the counter.

    Two results:

    * with normal completions the coroutine passes `co_await counter` exactly
      once, after the last task, and entry `i` is the value of awaitable `i`;
    * a failure reaches the returned future exactly when some awaitable with a
      NON-VOID result failed.  The void vector overload
      never looks at its tasks again, and `get_non_void` answers `void_t{}` for a
      void task without asking its promise. -/

namespace CoioWhenAll

open CoioMachine CoioCountdown CoioCounter

variable {V E : Type}

/-- Does the awaitable's `await_resume` give a value? -/
inductive Kind where
  | void
  | value
  deriving DecidableEq

inductive Overload where
  | vectorVoid
  | vectorValue
  | tuple
  deriving DecidableEq

/-- The argument list of one `when_all` call: overload resolution sends a vector
    of void awaitables and a vector of value awaitables to different functions,
    and the number of awaitables is a `size_t`. -/
structure Awaitables where
  overload : Overload
  kinds : List Kind
  voids : overload = .vectorVoid → ∀ k ∈ kinds, k = .void
  values : overload = .vectorValue → ∀ k ∈ kinds, k = .value
  small : kinds.length < 2 ^ 64

def Awaitables.size (A : Awaitables) : Nat := A.kinds.length

def Awaitables.kind (A : Awaitables) (i : Nat) : Kind := A.kinds.getD i .void

/-- Where a task's coroutine stands. -/
inductive TaskPc where
  /-- at `initial_suspend` -/
  | initial
  /-- started, inside `co_await a` -/
  | awaiting
  /-- suspended for good, in `final_awaiter` -/
  | final
  deriving DecidableEq

/-- `task_with_callback::promise_type`.  `mPointer` is the address of the value,
    here the number of the slot it lies in; `mCallback` says whether the
    `std::function` is engaged. -/
structure Promise (E : Type) where
  mPointer : Option Nat
  mException : Option E
  mCallback : Bool
  pc : TaskPc

/-- One component of the result; `void_t` stands for a void awaitable. -/
inductive Entry (V : Type) where
  | voidT
  | val (v : V)
  deriving DecidableEq

/-- Where the `when_all` coroutine stands. -/
inductive Pc (V E : Type) where
  | build
  /-- head of the start loop, `i` tasks started -/
  | loop (i : Nat)
  /-- inside `start()` of task `i` -/
  | inStart (i : Nat)
  | coAwait
  | suspended
  /-- past `co_await counter` -/
  | resumed
  | returned (r : Except E (List (Entry V)))
  /-- a null handle or pointer was dereferenced -/
  | fault

/-- The coroutine's locals, and the frames it owns.  Frames are numbered in
    creation order; `slot i` is the storage of awaitable `i`'s value. -/
structure State (V E : Type) where
  pc : Pc V E
  counter : AwaitableCounter
  promise : Nat → Promise E
  slot : Nat → Option V
  task : Option Nat
  tasks : List (Option Nat)
  /-- how often control has passed `co_await counter` -/
  passes : Nat

inductive Event (V E : Type) where
  /-- the `when_all` coroutine runs to its next point of interest -/
  | advance
  /-- awaitable `i` completes with this outcome, resuming task `i` -/
  | complete (i : Nat) (o : Except E V)

def freshPromise : Promise E :=
  { mPointer := none, mException := none, mCallback := false, pc := .initial }

/-! ## `task_with_callback` -/

def State.setPromise (s : State V E) (i : Nat) (p : Promise E) : State V E :=
  { s with promise := Function.update s.promise i p }

/-- `set_callback`: nothing on a null handle. -/
def setCallback (s : State V E) : Option Nat → State V E
  | none => s
  | some i => s.setPromise i { s.promise i with mCallback := true }

/-- `start`: resume the task out of its initial suspension. -/
def start (s : State V E) : Option Nat → State V E
  | none => s
  | some i => s.setPromise i { s.promise i with pc := .awaiting }

/-- The rest of the task's body after `co_await a`: `yield_value` stores the
    address of the value, `unhandled_exception` the exception, and a void task
    that completes normally stores nothing. -/
def finishBody (A : Awaitables) (s : State V E) (i : Nat) (o : Except E V) :
    State V E :=
  match o, A.kind i with
  | .error e, _ =>
      s.setPromise i { s.promise i with mException := some e, pc := .final }
  | .ok _, .void =>
      s.setPromise i { s.promise i with pc := .final }
  | .ok v, .value =>
      { s.setPromise i { s.promise i with mPointer := some i, pc := .final } with
        slot := Function.update s.slot i (some v) }

/-- `final_awaiter::await_suspend`: move the callback out and call it; the
    callback is `counter.notify_complete_one()`, which may resume `when_all`. -/
def finalAwaiter (s : State V E) (i : Nat) : State V E :=
  if (s.promise i).mCallback then
    let s' := s.setPromise i { s.promise i with mCallback := false }
    let n := notifyCompleteOne s'.counter
    match n.2 with
    | none => { s' with counter := n.1 }
    | some _ => { s' with counter := n.1, pc := .resumed, passes := s'.passes + 1 }
  else s

/-- `get()`: rethrow the stored exception, else read through the pointer; `none`
    where the source would dereference null. -/
def get (A : Awaitables) (s : State V E) : Option Nat → Option (Except E (Entry V))
  | none => none
  | some i =>
      match (s.promise i).mException with
      | some e => some (.error e)
      | none =>
          match A.kind i with
          | .void => some (.ok .voidT)
          | .value => ((s.promise i).mPointer.bind s.slot).map (fun v => .ok (.val v))

/-- `get_non_void()`: a void task is not asked. -/
def getNonVoid (A : Awaitables) (s : State V E) (h : Option Nat) :
    Option (Except E (Entry V)) :=
  match h.map A.kind with
  | some .void => some (.ok .voidT)
  | _ => get A s h

/-- Read the tasks from left to right; the first exception ends the collection. -/
def collect (f : Option Nat → Option (Except E (Entry V))) :
    List (Option Nat) → Option (Except E (List (Entry V)))
  | [] => some (.ok [])
  | t :: ts =>
      match f t with
      | none => none
      | some (.error e) => some (.error e)
      | some (.ok x) => (collect f ts).map (fun r => r.map (fun xs => x :: xs))

/-- What the returned future completes with. -/
def result (A : Awaitables) (s : State V E) : Option (Except E (List (Entry V))) :=
  match A.overload with
  | .vectorVoid => some (.ok [])
  | .vectorValue => collect (get A s) s.tasks
  | .tuple => collect (getNonVoid A s) s.tasks

/-! ## The `when_all` coroutine -/

/-- Everything before the start loop: the tuple overload makes all tasks and
    sets all callbacks here, the vector overloads do it in the loop. -/
def build (A : Awaitables) (s : State V E) : State V E :=
  match A.overload with
  | .tuple =>
      { s with
        pc := .loop 0
        tasks := (List.range A.size).map some
        promise := fun i =>
          if i < A.size then { freshPromise with mCallback := true } else s.promise i }
  | _ => { s with pc := .loop 0 }

/-- One pass of the start loop up to the call of `start()`. -/
def startNext (A : Awaitables) (s : State V E) (i : Nat) : State V E :=
  match A.overload with
  | .tuple => { start s (some i) with pc := .inStart i }
  | _ =>
      let made := { s.setPromise i freshPromise with task := some i }
      { start (setCallback made made.task) made.task with pc := .inStart i }

/-- After `start()` has returned: the vector overloads move the task away. -/
def startReturned (A : Awaitables) (s : State V E) (i : Nat) : State V E :=
  match A.overload with
  | .tuple => { s with pc := .loop (i + 1) }
  | _ => { s with pc := .loop (i + 1), tasks := s.tasks ++ [s.task], task := none }

/-- The coroutine's own moves; `h` is its handle. -/
def advance (A : Awaitables) (h : Handle) (s : State V E) : Option (State V E) :=
  match s.pc with
  | .build => some (build A s)
  | .loop i => if i < A.size then some (startNext A s i) else some { s with pc := .coAwait }
  | .inStart i => some (startReturned A s i)
  | .coAwait =>
      if awaitReady s.counter then
        some { s with pc := .resumed, passes := s.passes + 1 }
      else
        some { s with pc := .suspended, counter := awaitSuspend s.counter h }
  | .resumed =>
      match result A s with
      | none => some { s with pc := .fault }
      | some r => some { s with pc := .returned r }
  | .suspended => none
  | .returned _ => none
  | .fault => none

/-- Can an awaitable complete now?  Only while other code runs on the thread. -/
def interruptible : Pc V E → Bool
  | .inStart _ => true
  | .suspended => true
  | _ => false

def step (A : Awaitables) (h : Handle) (s : State V E) : Event V E → Option (State V E)
  | .advance => advance A h s
  | .complete i o =>
      if interruptible s.pc = true ∧ (s.promise i).pc = .awaiting then
        some (finalAwaiter (finishBody A s i o) i)
      else none

def whenAllMachine (V E : Type) (A : Awaitables) (h : Handle) :
    Machine (State V E) (Event V E) where
  init := { pc := .build
            counter := { continuation := none, cnt := UInt64.ofNat A.size }
            promise := fun _ => freshPromise
            slot := fun _ => none
            task := none
            tasks := []
            passes := 0 }
  step := step A h

/-! ## Everything a step can do -/

inductive Step (A : Awaitables) (h : Handle) (s : State V E) :
    Event V E → State V E → Prop where
  | complete (i : Nat) (o : Except E V) (hint : interruptible s.pc = true)
      (haw : (s.promise i).pc = .awaiting) :
      Step A h s (.complete i o) (finalAwaiter (finishBody A s i o) i)
  | build (hpc : s.pc = .build) : Step A h s .advance (build A s)
  | startNext (i : Nat) (hpc : s.pc = .loop i) (hi : i < A.size) :
      Step A h s .advance (startNext A s i)
  | allStarted (i : Nat) (hpc : s.pc = .loop i) (hi : ¬ i < A.size) :
      Step A h s .advance { s with pc := .coAwait }
  | startReturned (i : Nat) (hpc : s.pc = .inStart i) :
      Step A h s .advance (startReturned A s i)
  | ready (hpc : s.pc = .coAwait) (hready : awaitReady s.counter = true) :
      Step A h s .advance { s with pc := .resumed, passes := s.passes + 1 }
  | suspend (hpc : s.pc = .coAwait) (hready : ¬ awaitReady s.counter = true) :
      Step A h s .advance
        { s with pc := .suspended, counter := awaitSuspend s.counter h }
  | fault (hpc : s.pc = .resumed) (hres : result A s = none) :
      Step A h s .advance { s with pc := .fault }
  | returned (r : Except E (List (Entry V))) (hpc : s.pc = .resumed)
      (hres : result A s = some r) :
      Step A h s .advance { s with pc := .returned r }

theorem advance_cases {A : Awaitables} {h : Handle} {s s' : State V E}
    (hs : advance A h s = some s') : Step A h s .advance s' := by
  simp only [advance] at hs
  split at hs
  · rename_i hpc
    obtain rfl := Option.some.inj hs
    exact .build hpc
  · rename_i i hpc
    split at hs <;> rename_i hi <;> obtain rfl := Option.some.inj hs
    · exact .startNext i hpc hi
    · exact .allStarted i hpc hi
  · rename_i i hpc
    obtain rfl := Option.some.inj hs
    exact .startReturned i hpc
  · rename_i hpc
    split at hs <;> rename_i hready <;> obtain rfl := Option.some.inj hs
    · exact .ready hpc hready
    · exact .suspend hpc hready
  · rename_i hpc
    split at hs
    · rename_i hres
      obtain rfl := Option.some.inj hs
      exact .fault hpc hres
    · rename_i r hres
      obtain rfl := Option.some.inj hs
      exact .returned r hpc hres
  · exact nomatch hs
  · exact nomatch hs
  · exact nomatch hs

/-- **INVERSION** of the step function. -/
theorem step_cases {A : Awaitables} {h : Handle} {s s' : State V E} {e : Event V E}
    (hs : step A h s e = some s') : Step A h s e s' := by
  cases e with
  | advance => exact advance_cases hs
  | complete i o =>
      obtain ⟨⟨hint, haw⟩, rfl⟩ := enabled_eq_some.mp hs
      exact .complete i o hint haw

/-! ## What a completion does -/

/-- The outcome is where `get()` will look for it. -/
def Recorded (A : Awaitables) (s : State V E) (i : Nat) : Except E V → Prop
  | .error e => (s.promise i).mException = some e
  | .ok v =>
      (s.promise i).mException = none ∧
        (A.kind i = .value → (s.promise i).mPointer = some i ∧ s.slot i = some v)

/-- `finishBody` touches task `i` and its slot only. -/
theorem finishBody_frame (A : Awaitables) (s : State V E) (i : Nat) (o : Except E V) :
    (finishBody A s i o).pc = s.pc ∧ (finishBody A s i o).counter = s.counter ∧
    (finishBody A s i o).task = s.task ∧ (finishBody A s i o).tasks = s.tasks ∧
    (finishBody A s i o).passes = s.passes ∧
    (∀ j, j ≠ i → (finishBody A s i o).promise j = s.promise j ∧
      (finishBody A s i o).slot j = s.slot j) := by
  refine ⟨?_, ?_, ?_, ?_, ?_, ?_⟩
  case refine_6 =>
    intro j hj
    cases o with
    | error e => simp [finishBody, State.setPromise, Function.update_of_ne hj]
    | ok v => cases hk : A.kind i <;>
        simp [finishBody, hk, State.setPromise, Function.update_of_ne hj]
  all_goals
    cases o with
    | error e => rfl
    | ok v => cases hk : A.kind i <;> simp [finishBody, hk, State.setPromise]

/-- Task `i` ends suspended for good, its callback still in place, and a task
    without an exception so far has recorded its outcome. -/
theorem finishBody_task (A : Awaitables) (s : State V E) (i : Nat) (o : Except E V)
    (hclean : (s.promise i).mException = none) :
    ((finishBody A s i o).promise i).pc = .final ∧
    ((finishBody A s i o).promise i).mCallback = (s.promise i).mCallback ∧
    Recorded A (finishBody A s i o) i o := by
  cases o with
  | error e => simp [finishBody, State.setPromise, Recorded]
  | ok v => cases hk : A.kind i <;>
      simp [finishBody, hk, State.setPromise, Recorded, hclean]

/-- What a completion of task `i` changes, given its callback is in place: the
    count drops by one, and `when_all` is resumed exactly when the count was one
    and its handle is stored. -/
theorem finalAwaiter_spec (s : State V E) (i : Nat)
    (hcb : (s.promise i).mCallback = true) :
    (finalAwaiter s i).promise
      = Function.update s.promise i { s.promise i with mCallback := false } ∧
    (finalAwaiter s i).slot = s.slot ∧
    (finalAwaiter s i).task = s.task ∧ (finalAwaiter s i).tasks = s.tasks ∧
    (finalAwaiter s i).counter = { s.counter with cnt := s.counter.cnt - 1 } ∧
    ((s.counter.cnt = 1 ∧ s.counter.continuation ≠ none ∧
        (finalAwaiter s i).pc = .resumed ∧ (finalAwaiter s i).passes = s.passes + 1) ∨
     (¬ (s.counter.cnt = 1 ∧ s.counter.continuation ≠ none) ∧
        (finalAwaiter s i).pc = s.pc ∧ (finalAwaiter s i).passes = s.passes)) := by
  unfold finalAwaiter
  rw [if_pos hcb]
  by_cases h1 : s.counter.cnt = 1
  · cases hcont : s.counter.continuation with
    | none => simp [notifyCompleteOne, fetchSub, State.setPromise, h1, hcont]
    | some c => simp [notifyCompleteOne, fetchSub, State.setPromise, h1, hcont]
  · simp [notifyCompleteOne, fetchSub, State.setPromise, h1]

/-! ## The invariant -/

/-- The number of tasks started so far. -/
def startedUpTo (N : Nat) : Pc V E → Nat
  | .build => 0
  | .loop i => i
  | .inStart i => i + 1
  | _ => N

/-- How many handles `tasks` holds. -/
def heldUpTo (A : Awaitables) : Pc V E → Nat
  | .build => 0
  | .loop i => if A.overload = .tuple then A.size else i
  | .inStart i => if A.overload = .tuple then A.size else i
  | _ => A.size

/-- Control has not reached `await_suspend` of the counter. -/
def beforeAwait : Pc V E → Bool
  | .build => true
  | .loop _ => true
  | .inStart _ => true
  | .coAwait => true
  | _ => false

/-- Control is past `co_await counter`. -/
def pastAwait : Pc V E → Bool
  | .resumed => true
  | .returned _ => true
  | .fault => true
  | _ => false

structure Inv (A : Awaitables) (s : State V E) : Prop where
  bound : startedUpTo A.size s.pc ≤ A.size
  handles : s.tasks = (List.range (heldUpTo A s.pc)).map some
  current : ∀ i, s.pc = .inStart i → A.overload ≠ .tuple → s.task = some i
  started : ∀ i, (s.promise i).pc = .initial ↔ startedUpTo A.size s.pc ≤ i
  callback : ∀ i, (s.promise i).pc = .awaiting → (s.promise i).mCallback = true
  tupleCallback : A.overload = .tuple → s.pc ≠ .build →
    ∀ i, i < A.size → (s.promise i).pc = .initial → (s.promise i).mCallback = true
  clean : ∀ i, (s.promise i).pc ≠ .final → (s.promise i).mException = none
  cnt : s.counter.cnt.toNat = pending A.size (fun i => (s.promise i).pc != .final)
  unset : beforeAwait s.pc = true → s.counter.continuation = none
  waiting : s.pc = .suspended →
    s.counter.continuation ≠ none ∧ 0 < s.counter.cnt.toNat
  passes : s.passes = if pastAwait s.pc = true then 1 else 0
  zero : pastAwait s.pc = true → s.counter.cnt.toNat = 0

theorem inv_init (A : Awaitables) (h : Handle) :
    Inv A (whenAllMachine V E A h).init where
  bound := Nat.zero_le _
  handles := rfl
  current := fun i hi => nomatch hi
  started := fun i => ⟨fun _ => Nat.zero_le i, fun _ => rfl⟩
  callback := fun i hi => nomatch hi
  tupleCallback := fun _ hb => absurd rfl hb
  clean := fun i _ => rfl
  cnt := by
    have hall : pending A.size (fun i => ((fun _ => freshPromise : Nat → Promise E) i).pc
        != .final) = A.size := pending_all (fun _ _ => rfl)
    have hsize : (UInt64.ofNat A.size).toNat = A.size :=
      UInt64.toNat_ofNat_of_lt' A.small
    exact hsize.trans hall.symm
  unset := fun _ => rfl
  waiting := fun hp => nomatch hp
  passes := rfl
  zero := fun hp => nomatch hp

/-- What the completion of a started task `i` with outcome `o` does: the task ends and
    records its outcome, the count drops, and the coroutine is resumed exactly when
    the count was one and its handle is stored. -/
structure Completion (A : Awaitables) (s : State V E) (i : Nat) (o : Except E V)
    (s' : State V E) : Prop where
  final : (s'.promise i).pc = .final
  recorded : Recorded A s' i o
  other : ∀ j, j ≠ i → s'.promise j = s.promise j
  slot : ∀ j, j ≠ i → s'.slot j = s.slot j
  task : s'.task = s.task
  tasks : s'.tasks = s.tasks
  counter : s'.counter = { s.counter with cnt := s.counter.cnt - 1 }
  control : (s.counter.cnt = 1 ∧ s.counter.continuation ≠ none ∧ s'.pc = .resumed ∧
      s'.passes = s.passes + 1) ∨
    (¬ (s.counter.cnt = 1 ∧ s.counter.continuation ≠ none) ∧ s'.pc = s.pc ∧
      s'.passes = s.passes)

theorem Inv.completion {A : Awaitables} {s : State V E} {i : Nat} (hI : Inv A s)
    (haw : (s.promise i).pc = .awaiting) (o : Except E V) :
    Completion A s i o (finalAwaiter (finishBody A s i o) i) := by
  obtain ⟨fpc, fcnt, ftask, ftasks, fpass, fother⟩ := finishBody_frame A s i o
  obtain ⟨tpc, tcb, trec⟩ := finishBody_task A s i o (hI.clean i (by rw [haw]; decide))
  have hcb : ((finishBody A s i o).promise i).mCallback = true := by
    rw [tcb]; exact hI.callback i haw
  obtain ⟨gprom, gslot, gtask, gtasks, gcnt, gcase⟩ :=
    finalAwaiter_spec (finishBody A s i o) i hcb
  have hself : (finalAwaiter (finishBody A s i o) i).promise i
      = { (finishBody A s i o).promise i with mCallback := false } := by
    rw [gprom, Function.update_self]
  rw [fcnt] at gcnt
  rw [fcnt, fpc, fpass] at gcase
  refine ⟨by rw [hself]; exact tpc, ?_, ?_, ?_, gtask.trans ftask, gtasks.trans ftasks,
    gcnt, gcase⟩
  · cases o with
    | error e =>
        show ((finalAwaiter (finishBody A s i (.error e)) i).promise i).mException = some e
        rw [hself]; exact trec
    | ok v =>
        refine ⟨by rw [hself]; exact trec.1, ?_⟩
        intro hk
        rw [hself, gslot]
        exact trec.2 hk
  · intro j hj
    rw [gprom, Function.update_of_ne hj]
    exact (fother j hj).1
  · intro j hj
    rw [gslot]
    exact (fother j hj).2

/-- A fact about all promises survives a step of task `i` that leaves it true of `i`. -/
theorem promises_step {s s' : State V E} {i : Nat}
    (hother : ∀ j, j ≠ i → s'.promise j = s.promise j) {Q : Nat → Promise E → Prop}
    (hself : Q i (s'.promise i)) (hQ : ∀ j, Q j (s.promise j)) :
    ∀ j, Q j (s'.promise j) := by
  intro j
  by_cases hj : j = i
  · subst hj
    exact hself
  · rw [hother j hj]
    exact hQ j

/-- The count drops with the pending tasks. -/
theorem Completion.cnt {A : Awaitables} {s s' : State V E} {i : Nat} {o : Except E V}
    (hC : Completion A s i o s') (hI : Inv A s) (haw : (s.promise i).pc = .awaiting) :
    s'.counter.cnt.toNat = pending A.size (fun j => (s'.promise j).pc != .final) ∧
      s'.counter.cnt.toNat + 1 = s.counter.cnt.toNat := by
  have hi : i < A.size := by
    have hns : ¬ (s.promise i).pc = .initial := by rw [haw]; decide
    have := mt (hI.started i).mpr hns
    have := hI.bound
    omega
  have hpos : 0 < s.counter.cnt.toNat := by
    rw [hI.cnt]
    exact pending_pos hi (by simp [haw])
  have hleave := pending_leave (p := fun j => (s.promise j).pc != .final)
    (q := fun j => (s'.promise j).pc != .final) (i := i) (by simp [haw])
    (by simp [hC.final]) (by intro j hj; simp [hC.other j hj]) A.size hi
  have hcnt : s'.counter.cnt.toNat = s.counter.cnt.toNat - 1 := by
    rw [hC.counter]
    exact toNat_sub_one hpos
  have := hI.cnt
  omega

/-- A completion of a started task keeps the invariant. -/
theorem inv_complete {A : Awaitables} {s s' : State V E} {i : Nat} {o : Except E V}
    (hI : Inv A s) (hint : interruptible s.pc = true)
    (haw : (s.promise i).pc = .awaiting) (hC : Completion A s i o s') : Inv A s' := by
  obtain ⟨hcnt, hdrop⟩ := hC.cnt hI haw
  have hcont : s'.counter.continuation = s.counter.continuation := by rw [hC.counter]
  -- the facts about promises hold at `i`, which is final now, and at the untouched others
  have hstarted : ∀ j, (s'.promise j).pc = .initial ↔ startedUpTo A.size s.pc ≤ j := by
    refine promises_step hC.other
      (Q := fun j p => p.pc = .initial ↔ startedUpTo A.size s.pc ≤ j) ?_ hI.started
    rw [← hI.started i, hC.final, haw]
    decide
  have hcallback : ∀ j, (s'.promise j).pc = .awaiting → (s'.promise j).mCallback = true :=
    promises_step hC.other (Q := fun _ p => p.pc = .awaiting → p.mCallback = true)
      (fun h => nomatch hC.final.symm.trans h) hI.callback
  have hclean : ∀ j, (s'.promise j).pc ≠ .final → (s'.promise j).mException = none :=
    promises_step hC.other (Q := fun _ p => p.pc ≠ .final → p.mException = none)
      (fun h => absurd hC.final h) hI.clean
  have htuple : A.overload = .tuple → s.pc ≠ .build → ∀ j, j < A.size →
      (s'.promise j).pc = .initial → (s'.promise j).mCallback = true := fun ht hb =>
    promises_step hC.other
      (Q := fun j p => j < A.size → p.pc = .initial → p.mCallback = true)
      (fun _ h => nomatch hC.final.symm.trans h) (hI.tupleCallback ht hb)
  rcases hC.control with ⟨h1, hset, hpc, hpass⟩ | ⟨hno, hpc, hpass⟩
  · -- the last task: `when_all` was suspended and is resumed
    have hsusp : s.pc = .suspended := by
      cases hp : s.pc with
      | suspended => rfl
      | inStart j => exact absurd (hI.unset (by rw [hp]; rfl)) hset
      | _ => rw [hp] at hint; exact nomatch hint
    have hpasses := hI.passes
    rw [hsusp] at hpasses
    refine ⟨?_, ?_, ?_, ?_, hcallback, ?_, hclean, hcnt, ?_, ?_, ?_, ?_⟩
    · rw [hpc]; exact Nat.le_refl _
    · rw [hC.tasks, hI.handles, hpc, hsusp]; rfl
    · intro j hj; rw [hpc] at hj; exact nomatch hj
    · intro j; rw [hstarted j, hpc, hsusp]; rfl
    · intro ht _
      exact htuple ht (by rw [hsusp]; exact fun hb => nomatch hb)
    · intro hb; rw [hpc] at hb; exact nomatch hb
    · intro hb; rw [hpc] at hb; exact nomatch hb
    · rw [hpass, hpc, hpasses]; rfl
    · intro _
      have := eq_one_iff_toNat.mp h1
      omega
  · -- nobody is resumed: control stays, and a suspended `when_all` still has a task to wait for
    refine ⟨?_, ?_, ?_, ?_, hcallback, ?_, hclean, hcnt, ?_, ?_, ?_, ?_⟩
    · rw [hpc]; exact hI.bound
    · rw [hC.tasks, hpc]; exact hI.handles
    · intro j hj; rw [hpc] at hj; rw [hC.task]; exact hI.current j hj
    · intro j; rw [hstarted j, hpc]
    · intro ht hb; rw [hpc] at hb; exact htuple ht hb
    · intro hb; rw [hpc] at hb; rw [hcont]; exact hI.unset hb
    · intro hs
      rw [hpc] at hs
      obtain ⟨hset, -⟩ := hI.waiting hs
      have hne : s.counter.cnt.toNat ≠ 1 := fun h1 => hno ⟨eq_one_iff_toNat.mpr h1, hset⟩
      exact ⟨by rw [hcont]; exact hset, by omega⟩
    · rw [hpass, hpc]; exact hI.passes
    · intro hp
      rw [hpc] at hp
      have := hI.zero hp
      omega

/-- Control moves between two points with the same tasks started and held. -/
theorem Inv.goto {A : Awaitables} {s : State V E} (hI : Inv A s)
    {pc' : Pc V E} {c' : AwaitableCounter} {n' : Nat}
    (hst : startedUpTo A.size pc' = startedUpTo A.size s.pc)
    (hheld : heldUpTo A pc' = heldUpTo A s.pc)
    (htuple : A.overload = .tuple → s.pc ≠ .build)
    (hcur : ∀ i, pc' ≠ .inStart i)
    (hcnt : c'.cnt = s.counter.cnt)
    (hunset : beforeAwait pc' = true → c'.continuation = none)
    (hwait : pc' = .suspended → c'.continuation ≠ none ∧ 0 < c'.cnt.toNat)
    (hpass : n' = if pastAwait pc' = true then 1 else 0)
    (hzero : pastAwait pc' = true → c'.cnt.toNat = 0) :
    Inv A { s with pc := pc', counter := c', passes := n' } where
  bound := hst ▸ hI.bound
  handles := hheld ▸ hI.handles
  current := fun i hi => absurd hi (hcur i)
  started := hst ▸ hI.started
  callback := hI.callback
  tupleCallback := fun ht _ => hI.tupleCallback ht (htuple ht)
  clean := hI.clean
  cnt := hcnt ▸ hI.cnt
  unset := hunset
  waiting := hwait
  passes := hpass
  zero := hzero

/-- Building the tasks keeps the invariant. -/
theorem inv_build {A : Awaitables} {s : State V E} (hI : Inv A s)
    (hpc : s.pc = .build) : Inv A (build A s) := by
  have hini : ∀ i, (s.promise i).pc = .initial := by
    intro i
    refine (hI.started i).mpr ?_
    rw [hpc]
    exact Nat.zero_le i
  have hcnt := hI.cnt
  have hunset := hI.unset (by rw [hpc]; rfl)
  have hpass := hI.passes
  rw [hpc] at hpass
  by_cases ht : A.overload = .tuple
  · -- the promises are replaced by fresh ones: still nobody has finished
    have hpcs : ∀ i, ((build A s).promise i).pc = .initial := by
      intro i
      simp only [build, ht]
      by_cases hi : i < A.size
      · rw [if_pos hi]; rfl
      · rw [if_neg hi]; exact hini i
    refine ⟨?_, ?_, ?_, ?_, ?_, ?_, ?_, ?_, ?_, ?_, ?_, ?_⟩
    · simp [build, ht, startedUpTo]
    · simp [build, ht, heldUpTo]
    · intro i hi; simp [build, ht] at hi
    · intro i
      rw [hpcs i]
      simp [build, ht, startedUpTo]
    · intro i hi; rw [hpcs i] at hi; exact nomatch hi
    · intro _ _ i hi _
      simp [build, ht, hi]
    · intro i _
      simp only [build, ht]
      by_cases hi : i < A.size
      · rw [if_pos hi]; rfl
      · rw [if_neg hi]; exact hI.clean i (by rw [hini i]; decide)
    · have hc : (build A s).counter = s.counter := by simp [build, ht]
      rw [hc, hcnt]
      refine pending_congr ?_
      intro i _
      rw [hpcs i, hini i]
    · intro _; simp [build, ht]; exact hunset
    · intro hs; simp [build, ht] at hs
    · simp [build, ht, pastAwait]
      rw [hpass]; rfl
    · intro hp; simp [build, ht, pastAwait] at hp
  · -- the vector overloads make their promises inside the loop
    have heq : build A s = { s with pc := .loop 0 } := by
      cases ho : A.overload with
      | tuple => exact absurd ho ht
      | vectorVoid => simp [build, ho]
      | vectorValue => simp [build, ho]
    rw [heq]
    exact hI.goto (by rw [hpc]; rfl) (by rw [hpc]; simp [heldUpTo, ht])
      (fun h => absurd h ht) (fun i hi => nomatch hi) rfl (fun _ => hunset)
      (fun hs => nomatch hs) hpass (fun hp => nomatch hp)

/-- The promise of task `i` once it is started. -/
theorem startNext_spec {A : Awaitables} {s : State V E} (hI : Inv A s) {i : Nat}
    (hpc : s.pc = .loop i) (hi : i < A.size) :
    (startNext A s i).pc = .inStart i ∧
    (startNext A s i).counter = s.counter ∧
    (startNext A s i).tasks = s.tasks ∧
    (startNext A s i).passes = s.passes ∧
    (A.overload ≠ .tuple → (startNext A s i).task = some i) ∧
    (∀ j, j ≠ i → (startNext A s i).promise j = s.promise j) ∧
    ((startNext A s i).promise i).pc = .awaiting ∧
    ((startNext A s i).promise i).mCallback = true ∧
    ((startNext A s i).promise i).mException = none := by
  have hini : (s.promise i).pc = .initial :=
    (hI.started i).mpr (by rw [hpc]; exact Nat.le_refl i)
  cases ho : A.overload with
  | tuple =>
      have hcb := hI.tupleCallback ho (by rw [hpc]; exact fun hb => nomatch hb) i hi hini
      have hcl := hI.clean i (by rw [hini]; decide)
      refine ⟨?_, ?_, ?_, ?_, ?_, ?_, ?_, ?_, ?_⟩
      case refine_6 =>
        intro j hj
        simp [startNext, ho, start, State.setPromise, Function.update_of_ne hj]
      all_goals simp [startNext, ho, start, State.setPromise, hcb, hcl]
  | vectorVoid | vectorValue =>
      refine ⟨?_, ?_, ?_, ?_, ?_, ?_, ?_, ?_, ?_⟩
      case refine_6 =>
        intro j hj
        simp [startNext, ho, start, setCallback, State.setPromise, Function.update_of_ne hj]
      all_goals simp [startNext, ho, start, setCallback, State.setPromise, freshPromise]

/-- Starting the next task keeps the invariant. -/
theorem inv_startNext {A : Awaitables} {s : State V E} (hI : Inv A s) {i : Nat}
    (hpc : s.pc = .loop i) (hi : i < A.size) : Inv A (startNext A s i) := by
  obtain ⟨npc, ncnt, ntasks, npass, ntask, nother, nself, ncb, ncl⟩ :=
    startNext_spec hI hpc hi
  have hini : (s.promise i).pc = .initial :=
    (hI.started i).mpr (by rw [hpc]; exact Nat.le_refl i)
  have hunset := hI.unset (by rw [hpc]; rfl)
  have hpass := hI.passes
  rw [hpc] at hpass
  refine ⟨?_, ?_, ?_, ?_, ?_, ?_, ?_, ?_, ?_, ?_, ?_, ?_⟩
  · rw [npc]; exact hi
  · rw [ntasks, hI.handles, npc, hpc]; rfl
  · intro j hj ht
    rw [npc] at hj
    obtain rfl : i = j := Pc.inStart.inj hj
    exact ntask ht
  · intro j
    rw [npc]
    by_cases hj : j = i
    · subst hj
      rw [nself]
      exact ⟨(fun h => nomatch h), fun h => absurd h (Nat.not_succ_le_self j)⟩
    · have := hI.started j
      rw [hpc] at this
      rw [nother j hj, this]
      show i ≤ j ↔ i + 1 ≤ j
      omega
  · exact promises_step nother (Q := fun _ p => p.pc = .awaiting → p.mCallback = true)
      (fun _ => ncb) hI.callback
  · intro ht _
    exact promises_step nother
      (Q := fun j p => j < A.size → p.pc = .initial → p.mCallback = true)
      (fun _ _ => ncb) (hI.tupleCallback ht (by simp [hpc]))
  · exact promises_step nother (Q := fun _ p => p.pc ≠ .final → p.mException = none)
      (fun _ => ncl) hI.clean
  · rw [ncnt, hI.cnt]
    refine pending_congr ?_
    intro j _
    by_cases hji : j = i
    · subst hji; rw [nself, hini]; rfl
    · rw [nother j hji]
  · intro _; rw [ncnt]; exact hunset
  · intro hs; rw [npc] at hs; exact nomatch hs
  · rw [npass, npc, hpass]; rfl
  · intro hp; rw [npc] at hp; exact nomatch hp

/-- A `start()` that returns keeps the invariant. -/
theorem inv_startReturned {A : Awaitables} {s : State V E} (hI : Inv A s) {i : Nat}
    (hpc : s.pc = .inStart i) : Inv A (startReturned A s i) := by
  have hb := hI.bound
  have hst := hI.started
  have hunset := hI.unset (by rw [hpc]; rfl)
  have hpass := hI.passes
  have hh := hI.handles
  rw [hpc] at hb hpass hh
  by_cases ht : A.overload = .tuple
  · have heq : startReturned A s i = { s with pc := .loop (i + 1) } := by
      simp [startReturned, ht]
    rw [heq]
    exact hI.goto (by rw [hpc]; rfl) (by rw [hpc]; simp [heldUpTo, ht])
      (fun _ hb => by rw [hpc] at hb; exact nomatch hb) (fun j hj => nomatch hj) rfl
      (fun _ => hunset) (fun hs => nomatch hs) hpass (fun hp => nomatch hp)
  · have heq : startReturned A s i
        = { s with pc := .loop (i + 1), tasks := s.tasks ++ [s.task], task := none } := by
      cases ho : A.overload with
      | tuple => exact absurd ho ht
      | vectorVoid => simp [startReturned, ho]
      | vectorValue => simp [startReturned, ho]
    rw [heq]
    refine ⟨hb, ?_, (fun j hj => nomatch hj), ?_, hI.callback, fun h => absurd h ht,
      hI.clean, hI.cnt, fun _ => hunset, (fun hs => nomatch hs), hpass,
      (fun hp => nomatch hp)⟩
    · show s.tasks ++ [s.task] = _
      rw [hh, hI.current i hpc ht]
      simp [heldUpTo, ht, List.range_succ]
    · intro j; rw [hst j, hpc]; rfl

/-- **STEP LEMMA** for `when_all`. -/
theorem inv_step {A : Awaitables} {h : Handle} (s : State V E) (e : Event V E)
    (s' : State V E) (hI : Inv A s) (hs : step A h s e = some s') : Inv A s' := by
  have hpass := hI.passes
  cases step_cases hs with
  | complete i o hint haw => exact inv_complete hI hint haw (hI.completion haw o)
  | build hpc => exact inv_build hI hpc
  | startNext i hpc hi => exact inv_startNext hI hpc hi
  | allStarted i hpc hi =>
      have hb := hI.bound
      rw [hpc] at hb hpass
      have hiN : i = A.size := Nat.le_antisymm hb (Nat.le_of_not_lt hi)
      refine hI.goto (by rw [hpc, hiN]; rfl) ?_ (fun _ => by simp [hpc])
        (fun j hj => nomatch hj) rfl (fun _ => hI.unset (by rw [hpc]; rfl))
        (fun hs => nomatch hs) hpass (fun hp => nomatch hp)
      rw [hpc, hiN]
      simp [heldUpTo]
  | startReturned i hpc => exact inv_startReturned hI hpc
  | ready hpc hready =>
      -- nobody is pending
      have hz : s.counter.cnt.toNat = 0 :=
        eq_zero_iff_toNat.mp (by simpa [awaitReady] using hready)
      rw [hpc] at hpass
      exact hI.goto (by rw [hpc]; rfl) (by rw [hpc]; rfl) (fun _ => by simp [hpc])
        (fun j hj => nomatch hj) rfl (fun hb => nomatch hb) (fun hs => nomatch hs)
        (congrArg (· + 1) hpass) (fun _ => hz)
  | suspend hpc hready =>
      have hnz : s.counter.cnt.toNat ≠ 0 := fun hz =>
        hready (by simpa [awaitReady] using eq_zero_iff_toNat.mpr hz)
      rw [hpc] at hpass
      exact hI.goto (by rw [hpc]; rfl) (by rw [hpc]; rfl) (fun _ => by simp [hpc])
        (fun j hj => nomatch hj) rfl (fun hb => nomatch hb)
        (fun _ => ⟨(fun hn => nomatch hn), Nat.pos_of_ne_zero hnz⟩) hpass
        (fun hp => nomatch hp)
  | fault hpc | returned _ hpc =>
      rw [hpc] at hpass
      exact hI.goto (by rw [hpc]; rfl) (by rw [hpc]; rfl) (fun _ => by simp [hpc])
        (fun j hj => nomatch hj) rfl (fun hb => nomatch hb) (fun hs => nomatch hs) hpass
        (fun _ => hI.zero (by rw [hpc]; rfl))

/-! ## What the events so far say about the tasks -/

def isComplete (i : Nat) : Event V E → Bool
  | .complete j _ => j == i
  | .advance => false

end CoioWhenAll
