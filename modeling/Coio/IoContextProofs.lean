import Coio.MachineProofs
import Coio.RemoteQueueProofs
import Mathlib.Logic.Function.Basic

/-! # `io_context` — one context, its queues, its rings and its loop

    The whole life of one context as a machine.  The loop thread runs user code
    (before `run()`, inside a resumed coroutine, inside a task) or the code of
    `loop()`; other threads enqueue and request the stop at any time; the kernel
    completes operations in any order.

    One iteration of `run_once` passes through the program points

        test → cqes → check/swap/drain of the three queues → submit

    with `inResume` and `inTask` where the loop has called user code.  A queue
    operation and an operation on the submission ring are one step each.

    The submission entries are numbered by the `get_sqe` calls (`op`), so that
    "its own completion" has a meaning although addresses of awaiters are used
    again.  The numbers are bookkeeping: no step of the loop reads them. -/

namespace CoioIoContext

open CoioMachine
open CoioRemoteQueue (Queue)

variable {X : Type}

/-- The address of an `async_result`. -/
abbrev Addr := Nat

/-- A coroutine handle, by address. -/
abbrev Handle := Nat

abbrev OpId := Nat

/-- A `std::stop_token`, by the stop state that it shares. -/
abbrev Token := Nat

/-- `run()`, `run(token)` or `poll()`. -/
inductive Mode where
  | run
  | runToken (token : Token)
  | poll
  deriving DecidableEq

/-- Where the loop thread stands. -/
inductive Pc where
  /-- in user code, not inside `loop()` -/
  | outside
  /-- at the condition of the `while` -/
  | test
  /-- `for_each_cqe`, about to look at the head completion -/
  | cqes
  /-- in user code, inside `result->resume()` -/
  | inResume
  /-- about to call `io_uring_cqe_seen` -/
  | seen
  /-- at the `empty()` test of a queue -/
  | check (q : Queue)
  | swap (q : Queue)
  /-- at the head of the `for` over the batch -/
  | drain (q : Queue)
  /-- in user code, inside an item of the batch -/
  | inTask (q : Queue)
  /-- `run_once` has returned -/
  | submit
  /-- inside `io_uring_submit_and_wait` -/
  | wait
  /-- a null submission entry was dereferenced -/
  | fault
  deriving DecidableEq

/-- Is the loop thread in user code? -/
def Pc.inUser : Pc → Bool
  | .outside => true
  | .inResume => true
  | .inTask _ => true
  | _ => false

/-- A submission entry, and the operation it becomes; null data is `none`. -/
structure Entry where
  op : OpId
  data : Option Addr
  deriving DecidableEq

structure Cqe where
  op : OpId
  data : Option Addr
  res : Int32
  flags : UInt32
  deriving DecidableEq

/-- `async_result`; a null handle is `none`. -/
structure AsyncResult where
  res : Int32
  flag : Int32
  continuation : Option Handle
  deriving DecidableEq

structure State (X : Type) where
  pc : Pc
  mode : Mode
  isStopped : Bool
  /-- `token.stop_requested()` -/
  tokenStopped : Token → Bool
  /-- `m_remote_spawn`, `m_remote_tasks`, `m_local_tasks` -/
  queue : Queue → List X
  /-- the unrun rest of the local `tasks` -/
  batch : Queue → List X
  /-- `cnt` of `run_once` -/
  cnt : Nat
  /-- `empty_cnt` of `poll_submit` -/
  emptyCnt : Nat
  sq : List Entry
  inflight : List Entry
  cq : List Cqe
  memory : Addr → AsyncResult
  /-- which suspension the awaiter at this address is in, if any -/
  suspended : Addr → Option OpId
  nextOp : OpId

/-! ## The functions of `io_context` -/

def pushBack (s : State X) (q : Queue) (x : X) : State X :=
  { s with queue := Function.update s.queue q (s.queue q ++ [x]) }

def post (s : State X) (isInLocalThread : Bool) (x : X) : State X :=
  if isInLocalThread then pushBack s .localTasks x else pushBack s .remoteTasks x

/-- In its own thread the task runs at once, as part of the calling code. -/
def dispatch (s : State X) (isInLocalThread : Bool) (x : X) : State X :=
  if isInLocalThread then s else pushBack s .remoteTasks x

/-- In its own thread the coroutine starts at once, as part of the calling code. -/
def coSpawn (s : State X) (isInLocalThread : Bool) (x : X) : State X :=
  if isInLocalThread then s else pushBack s .remoteSpawn x

def requestStop (s : State X) : State X :=
  { s with isStopped := true }

/-- `io_uring_get_sqe` returns null exactly when `n` entries are unsubmitted. -/
def sqeFree (n : Nat) (s : State X) : Prop :=
  s.sq.length < n

instance (n : Nat) (s : State X) : Decidable (sqeFree n s) :=
  inferInstanceAs (Decidable (s.sq.length < n))

/-- A non-null `io_uring_get_sqe` with the data the caller then sets. -/
def getSqe (s : State X) (data : Option Addr) : State X :=
  { s with sq := s.sq ++ [{ op := s.nextOp, data := data }], nextOp := s.nextOp + 1 }

/-- `async_result::set_continuation`. -/
def AsyncResult.setContinuation (r : AsyncResult) (h : Handle) : AsyncResult :=
  { r with continuation := some h }

/-- `async_result::set_result`; the `unsigned` flags become an `int`. -/
def AsyncResult.setResult (r : AsyncResult) (res : Int32) (flags : UInt32) :
    AsyncResult :=
  { r with res := res, flag := flags.toInt32 }

/-- `io_awaiter::await_resume`: what `get_result` is called with. -/
def AsyncResult.awaitResume {R : Type} (r : AsyncResult) (getResult : Int32 → Int32 → R) : R :=
  getResult r.res r.flag

/-- `io_awaiter::await_suspend` of the awaiter at `a`, called with handle `h`. -/
def awaitSuspend (s : State X) (a : Addr) (h : Handle) : State X :=
  { getSqe s (some a) with
    memory := Function.update s.memory a ((s.memory a).setContinuation h)
    suspended := Function.update s.suspended a (some s.nextOp) }

/-- What both submission functions end with: the ring is emptied. -/
def submitAll (s : State X) : State X :=
  { s with inflight := s.inflight ++ s.sq, sq := [] }

/-- `nonpoll_submit` with a non-null entry for its timer, up to the wait. -/
def nonpollSubmit (s : State X) : State X :=
  { submitAll (getSqe s none) with pc := .wait }

/-- `poll_submit`; yielding after 64 empty rounds has no effect here. -/
def pollSubmit (s : State X) : State X :=
  { submitAll s with
    emptyCnt := if s.cnt ≠ 0 then 0 else if s.emptyCnt + 1 = 64 then 0 else s.emptyCnt + 1
    pc := .test }

/-- Entry into `loop()` of a bound context. -/
def enterLoop (s : State X) (m : Mode) : State X :=
  { s with isStopped := false, mode := m, pc := .test }

/-- `token.stop_requested()` of the token that the loop was given; the other loops have
    none. -/
def tokenAsks (s : State X) : Bool :=
  match s.mode with
  | .runToken token => s.tokenStopped token
  | _ => false

/-- The condition of the `while`. -/
def goesOn (s : State X) : Bool :=
  !s.isStopped && !tokenAsks s

/-- The start of `run_once`, or the return from `loop()`. -/
def loopTest (s : State X) : State X :=
  if goesOn s then { s with pc := .cqes, cnt := s.cq.length }
  else { s with pc := .outside }

/-- `for_each_cqe` at the completion `c` with data `a`: the result is set and the
    awaiter leaves its suspension. -/
def resumeCqe (s : State X) (c : Cqe) (a : Addr) : State X :=
  { s with
    memory := Function.update s.memory a ((s.memory a).setResult c.res c.flags)
    suspended := Function.update s.suspended a none
    pc := .inResume }

/-- `io_uring_cqe_seen`. -/
def cqeSeen (s : State X) : State X :=
  { s with cq := s.cq.tail, pc := .cqes }

/-- The program point after one `resolve` function. -/
def afterResolve : Queue → Pc
  | .remoteSpawn => .check .remoteTasks
  | .remoteTasks => .check .localTasks
  | .localTasks => .submit

/-- The `empty()` test. -/
def checkEmpty (s : State X) (q : Queue) : State X :=
  { s with pc := if (s.queue q).isEmpty then afterResolve q else .swap q }

/-- `tasks.swap(m_...)`; the batch's size is what `resolve` adds to `cnt`. -/
def swapQueue (s : State X) (q : Queue) : State X :=
  { s with
    batch := Function.update s.batch q (s.queue q)
    queue := Function.update s.queue q []
    cnt := s.cnt + (s.queue q).length
    pc := .drain q }

/-- The next item of the batch is called. -/
def runNext (s : State X) (q : Queue) : State X :=
  { s with batch := Function.update s.batch q (s.batch q).tail, pc := .inTask q }

/-- User code returns to the loop. -/
def userReturn (s : State X) : State X :=
  match s.pc with
  | .inResume => { s with pc := .seen }
  | .inTask q => { s with pc := .drain q }
  | _ => s

/-- An exception leaves a task and `run()`: the local `tasks` is destroyed. -/
def userThrow (s : State X) (q : Queue) : State X :=
  { s with batch := Function.update s.batch q [], pc := .outside }

/-- The kernel completes operation `op`. -/
def complete (s : State X) (op : OpId) (res : Int32) (flags : UInt32) : State X :=
  match s.inflight.find? (fun e => e.op == op) with
  | none => s
  | some e =>
      { s with
        inflight := s.inflight.eraseP (fun e => e.op == op)
        cq := s.cq ++ [{ op := op, data := e.data, res := res, flags := flags }] }

/-! What the functions that branch write; every other field they leave alone. -/

theorem loopTest_eq (s : State X) : ∃ pc cnt, loopTest s = { s with pc := pc, cnt := cnt } := by
  unfold loopTest
  split
  · exact ⟨.cqes, s.cq.length, rfl⟩
  · exact ⟨.outside, s.cnt, rfl⟩

theorem userReturn_eq (s : State X) : ∃ pc, userReturn s = { s with pc := pc } := by
  unfold userReturn
  split
  · exact ⟨.seen, rfl⟩
  · rename_i q _
    exact ⟨.drain q, rfl⟩
  · exact ⟨s.pc, rfl⟩

theorem complete_eq (s : State X) (op : OpId) (res : Int32) (flags : UInt32) :
    ∃ inflight cq, complete s op res flags = { s with inflight := inflight, cq := cq } := by
  unfold complete
  split
  · exact ⟨s.inflight, s.cq, rfl⟩
  · exact ⟨_, _, rfl⟩

/-! ## The machine -/

inductive Event (X : Type) where
  | post (isInLocalThread : Bool) (x : X)
  | dispatch (isInLocalThread : Bool) (x : X)
  | coSpawn (isInLocalThread : Bool) (x : X)
  | requestStop
  | tokenStop (token : Token)
  /-- the loop thread suspends a coroutine on an `io_awaiter` -/
  | suspendIo (op : OpId) (a : Addr) (h : Handle)
  /-- the same, with a null submission entry -/
  | suspendNull (a : Addr) (h : Handle)
  | complete (op : OpId) (res : Int32) (flags : UInt32)
  | enterRun (m : Mode)
  | loopTest
  /-- the head completion resumes its awaiter -/
  | resume (op : OpId) (a : Addr) (h : Handle) (res flag : Int32)
  /-- the head completion has null data -/
  | skip
  | seen
  | cqesDone
  | check (q : Queue)
  | swap (q : Queue)
  | runNext (q : Queue) (x : X)
  | drained (q : Queue)
  | nonpollSubmit
  /-- `nonpoll_submit` with a null entry for its timer -/
  | nonpollNull
  | wake
  | pollSubmit
  | userReturn
  | userThrow (q : Queue)
  deriving DecidableEq

variable [DecidableEq X]

/-- One step of a context whose rings have `n` submission entries. -/
def step (n : Nat) (s : State X) : Event X → Option (State X)
  | .post inLocal x =>
      enabled (inLocal = true → s.pc.inUser = true) (post s inLocal x)
  | .dispatch inLocal x =>
      enabled (inLocal = true → s.pc.inUser = true) (dispatch s inLocal x)
  | .coSpawn inLocal x =>
      enabled (inLocal = true → s.pc.inUser = true) (coSpawn s inLocal x)
  | .requestStop => enabled True (requestStop s)
  | .tokenStop token =>
      enabled True { s with tokenStopped := Function.update s.tokenStopped token true }
  | .suspendIo op a h =>
      enabled (s.pc.inUser = true ∧ s.suspended a = none ∧ op = s.nextOp ∧ sqeFree n s)
        (awaitSuspend s a h)
  | .suspendNull a _ =>
      enabled (s.pc.inUser = true ∧ s.suspended a = none ∧ ¬ sqeFree n s)
        { s with pc := .fault }
  | .complete op res flags =>
      enabled (∃ e ∈ s.inflight, e.op = op) (complete s op res flags)
  | .enterRun m => enabled (s.pc = .outside) (enterLoop s m)
  | .loopTest => enabled (s.pc = .test) (loopTest s)
  | .resume op a h res flag =>
      match s.cq with
      | [] => none
      | c :: _ =>
          enabled (s.pc = .cqes ∧ c.op = op ∧ c.data = some a ∧
              (s.memory a).continuation = some h ∧ c.res = res ∧ c.flags.toInt32 = flag)
            (resumeCqe s c a)
  | .skip =>
      enabled (s.pc = .cqes ∧ ∃ c ∈ s.cq.head?, c.data = none) { s with pc := .seen }
  | .seen => enabled (s.pc = .seen) (cqeSeen s)
  | .cqesDone => enabled (s.pc = .cqes ∧ s.cq = []) { s with pc := .check .remoteSpawn }
  | .check q => enabled (s.pc = .check q) (checkEmpty s q)
  | .swap q => enabled (s.pc = .swap q) (swapQueue s q)
  | .runNext q x =>
      enabled (s.pc = .drain q ∧ (s.batch q).head? = some x) (runNext s q)
  | .drained q =>
      enabled (s.pc = .drain q ∧ s.batch q = []) { s with pc := afterResolve q }
  | .nonpollSubmit =>
      enabled (s.pc = .submit ∧ s.mode ≠ .poll ∧ sqeFree n s) (nonpollSubmit s)
  | .nonpollNull =>
      enabled (s.pc = .submit ∧ s.mode ≠ .poll ∧ ¬ sqeFree n s) { s with pc := .fault }
  | .wake => enabled (s.pc = .wait ∧ s.cq ≠ []) { s with pc := .test }
  | .pollSubmit => enabled (s.pc = .submit ∧ s.mode = .poll) (pollSubmit s)
  | .userReturn =>
      enabled (s.pc.inUser = true ∧ s.pc ≠ .outside) (userReturn s)
  | .userThrow q =>
      -- a coroutine's exceptions end in its promise: only tasks throw
      enabled (s.pc = .inTask q ∧ q ≠ .remoteSpawn) (userThrow s q)

def ioMachine (X : Type) [DecidableEq X] (n : Nat) : Machine (State X) (Event X) where
  init := { pc := .outside
            mode := .run
            isStopped := false
            tokenStopped := fun _ => false
            queue := fun _ => []
            batch := fun _ => []
            cnt := 0
            emptyCnt := 0
            sq := []
            inflight := []
            cq := []
            memory := fun _ => { res := 0, flag := 0, continuation := none }
            suspended := fun _ => none
            nextOp := 0 }
  step := step n

/-- The step that resumes, inverted. -/
theorem resume_cases {n : Nat} {s s' : State X} {op : OpId} {a : Addr} {h : Handle}
    {res flag : Int32} (hs : step n s (.resume op a h res flag) = some s') :
    ∃ c rest, s.cq = c :: rest ∧
      (s.pc = .cqes ∧ c.op = op ∧ c.data = some a ∧
        (s.memory a).continuation = some h ∧ c.res = res ∧ c.flags.toInt32 = flag) ∧
      s' = resumeCqe s c a := by
  simp only [step] at hs
  split at hs
  · exact nomatch hs
  · rename_i c rest hcq
    obtain ⟨hg, rfl⟩ := enabled_eq_some.mp hs
    exact ⟨c, rest, hcq, hg, rfl⟩

theorem resume_enabled {n : Nat} {s : State X} {c : Cqe} {rest : List Cqe} {a : Addr}
    {h : Handle} (hpc : s.pc = .cqes) (hcq : s.cq = c :: rest) (hdata : c.data = some a)
    (hcont : (s.memory a).continuation = some h) :
    step n s (.resume c.op a h c.res c.flags.toInt32) = some (resumeCqe s c a) := by
  unfold step
  rw [hcq]
  exact enabled_eq_some.mpr ⟨⟨hpc, rfl, hdata, hcont, rfl, rfl⟩, rfl⟩

/-! ## Control flow -/

/-- Every move of the loop thread's control, with what the state before it must
    satisfy where later proofs need it. -/
inductive PcMove (s : State X) : Event X → Pc → Pc → Prop where
  | enterRun (m : Mode) : PcMove s (.enterRun m) .outside .test
  | goOn : PcMove s .loopTest .test .cqes
  | stop : PcMove s .loopTest .test .outside
  | resume (op : OpId) (a : Addr) (h : Handle) (res flag : Int32) :
      PcMove s (.resume op a h res flag) .cqes .inResume
  | skip : PcMove s .skip .cqes .seen
  | returnCqe : PcMove s .userReturn .inResume .seen
  | seen : PcMove s .seen .seen .cqes
  | cqesDone : PcMove s .cqesDone .cqes (.check .remoteSpawn)
  | checkEmpty (q : Queue) (hq : s.queue q = []) :
      PcMove s (.check q) (.check q) (afterResolve q)
  | checkSwap (q : Queue) : PcMove s (.check q) (.check q) (.swap q)
  | swap (q : Queue) : PcMove s (.swap q) (.swap q) (.drain q)
  | runNext (q : Queue) (x : X) : PcMove s (.runNext q x) (.drain q) (.inTask q)
  | returnTask (q : Queue) : PcMove s .userReturn (.inTask q) (.drain q)
  | drained (q : Queue) (hb : s.batch q = []) :
      PcMove s (.drained q) (.drain q) (afterResolve q)
  | throw (q : Queue) : PcMove s (.userThrow q) (.inTask q) .outside
  | nonpollSubmit : PcMove s .nonpollSubmit .submit .wait
  | nonpollNull : PcMove s .nonpollNull .submit .fault
  | wake : PcMove s .wake .wait .test
  | pollSubmit : PcMove s .pollSubmit .submit .test
  | suspendNull (a : Addr) (h : Handle) (pc : Pc) (hu : pc.inUser = true) :
      PcMove s (.suspendNull a h) pc .fault

/-- **CONTROL FLOW**: a step keeps the program point or makes one of the moves. -/
theorem pc_cases {n : Nat} {s s' : State X} {e : Event X} (hs : step n s e = some s') :
    s'.pc = s.pc ∨ PcMove s e s.pc s'.pc := by
  cases e with
  | resume op a h res flag =>
      obtain ⟨c, rest, -, ⟨hpc, -⟩, rfl⟩ := resume_cases hs
      rw [hpc]
      exact Or.inr (.resume ..)
  | complete op res flags =>
      obtain ⟨-, rfl⟩ := enabled_eq_some.mp hs
      obtain ⟨inflight, cq, h⟩ := complete_eq s op res flags
      rw [h]
      exact Or.inl rfl
  | post inLocal x =>
      obtain ⟨-, rfl⟩ := enabled_eq_some.mp hs
      cases inLocal <;> exact Or.inl rfl
  | dispatch inLocal x =>
      obtain ⟨-, rfl⟩ := enabled_eq_some.mp hs
      cases inLocal <;> exact Or.inl rfl
  | coSpawn inLocal x =>
      obtain ⟨-, rfl⟩ := enabled_eq_some.mp hs
      cases inLocal <;> exact Or.inl rfl
  | requestStop =>
      obtain ⟨-, rfl⟩ := enabled_eq_some.mp hs
      exact Or.inl rfl
  | tokenStop token =>
      obtain ⟨-, rfl⟩ := enabled_eq_some.mp hs
      exact Or.inl rfl
  | suspendIo op a h =>
      obtain ⟨-, rfl⟩ := enabled_eq_some.mp hs
      exact Or.inl rfl
  | suspendNull a h =>
      obtain ⟨⟨hu, -⟩, rfl⟩ := enabled_eq_some.mp hs
      exact Or.inr (.suspendNull a h s.pc hu)
  | loopTest =>
      obtain ⟨hpc, rfl⟩ := enabled_eq_some.mp hs
      rw [hpc]
      unfold loopTest
      split
      · exact Or.inr .goOn
      · exact Or.inr .stop
  | check q =>
      obtain ⟨hpc, rfl⟩ := enabled_eq_some.mp hs
      rw [hpc]
      show _ ∨ PcMove s _ _ (if (s.queue q).isEmpty then afterResolve q else .swap q)
      split
      · rename_i hempty
        exact Or.inr (.checkEmpty q (List.isEmpty_iff.mp hempty))
      · exact Or.inr (.checkSwap q)
  | userReturn =>
      obtain ⟨hg, rfl⟩ := enabled_eq_some.mp hs
      unfold userReturn
      split
      · rename_i hpc
        rw [hpc]
        exact Or.inr .returnCqe
      · rename_i q hpc
        rw [hpc]
        exact Or.inr (.returnTask q)
      · exact Or.inl rfl
  | drained q =>
      obtain ⟨⟨hpc, hb⟩, rfl⟩ := enabled_eq_some.mp hs
      rw [hpc]
      exact Or.inr (.drained q hb)
  | _ =>
      obtain ⟨hg, rfl⟩ := enabled_eq_some.mp hs
      first
        | rw [hg]; exact Or.inr (by constructor)
        | rw [hg.1]; exact Or.inr (by constructor)

end CoioIoContext
