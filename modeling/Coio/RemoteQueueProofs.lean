import Coio.MachineProofs
import Coio.LockProofs

/-! # The remote queues of `io_context` under `m_mutex`

    Five functions change the remote queues.  `co_spawn`,
    `resolve_remote_coroutine` and `resolve_remote_task` name their lock guard,
    so it lives to the end of the block.  `post` and `dispatch` write
    `std::lock_guard{m_mutex};` — a temporary, destroyed at the end of that very
    statement — and change the queue with the mutex already given back.

    What that costs: as long as no other thread calls `post` or `dispatch`,
    every change of a remote queue happens under the mutex, alone, and nothing
    is dropped; and each such call that completes has broken this on the way. -/

namespace CoioRemoteQueue

open CoioMachine CoioLock

variable {X : Type}

abbrev Tid := Nat

inductive Queue where
  /-- `m_remote_spawn` -/
  | remoteSpawn
  /-- `m_remote_tasks` -/
  | remoteTasks
  /-- `m_local_tasks` -/
  | localTasks
  deriving DecidableEq

def Queue.Remote (q : Queue) : Prop := q ≠ .localTasks

/-- The mutating container operations: `emplace_back` or `push_back`, and `swap`
    with an empty container. -/
inductive QOp (X : Type) where
  | pushBack (x : X)
  | swap

/-- The queue after the operation, and the items it hands to the caller. -/
def apply : QOp X → List X → List X × List X
  | .pushBack x, q => (q ++ [x], [])
  | .swap, q => ([], q)

abbrev Code (X : Type) := List (Instr Queue (QOp X))

abbrev State (X : Type) := Threads Tid Queue (QOp X) (List X) (List X)

/-! ## The functions of `io_context` that touch a queue -/

/-- The remote branch of `post` and of `dispatch`: the guard is a temporary. -/
def emplaceRemote (x : X) : Code X :=
  [.lock, .unlock, .op .remoteTasks (.pushBack x)]

def post (isInLocalThread : Bool) (x : X) : Code X :=
  if isInLocalThread then [.op .localTasks (.pushBack x)] else emplaceRemote x

/-- In its own thread `dispatch` runs the task at once and touches no queue. -/
def dispatch (isInLocalThread : Bool) (x : X) : Code X :=
  if isInLocalThread then [] else emplaceRemote x

/-- In its own thread `co_spawn` starts the coroutine and touches no queue. -/
def coSpawn (isInLocalThread : Bool) (x : X) : Code X :=
  if isInLocalThread then []
  else [.lock, .op .remoteSpawn (.pushBack x), .unlock]

/-- The two remote `resolve` functions: `empty()` is read without the mutex, the
    swap is guarded. -/
def resolveRemote (q : Queue) (s : State X) : Code X :=
  if (s.value q).isEmpty then [] else [.lock, .op q .swap, .unlock]

def resolveRemoteCoroutine (s : State X) : Code X := resolveRemote .remoteSpawn s

def resolveRemoteTask (s : State X) : Code X := resolveRemote .remoteTasks s

def resolveLocalTask (s : State X) : Code X :=
  if (s.value .localTasks).isEmpty then [] else [.op .localTasks .swap]

/-! ## Threads calling them -/

inductive Event (X : Type) where
  | post (t : Tid) (x : X)
  | dispatch (t : Tid) (x : X)
  | coSpawn (t : Tid) (x : X)
  | resolveRemoteCoroutine
  | resolveRemoteTask
  | resolveLocalTask
  /-- thread `t` takes its next atomic step -/
  | exec (t : Tid)
  deriving DecidableEq

/-- The context is bound to the thread `loop`, which alone drains the queues. -/
def step (loop : Tid) (s : State X) : Event X → Option (State X)
  | .post t x => call s t (post (t == loop) x)
  | .dispatch t x => call s t (dispatch (t == loop) x)
  | .coSpawn t x => call s t (coSpawn (t == loop) x)
  | .resolveRemoteCoroutine => call s loop (resolveRemoteCoroutine s)
  | .resolveRemoteTask => call s loop (resolveRemoteTask s)
  | .resolveLocalTask => call s loop (resolveLocalTask s)
  | .exec t => exec apply s t

def queueMachine (X : Type) (loop : Tid) : Machine (State X) (Event X) where
  init := { holder := none
            code := fun _ => []
            inside := fun _ => none
            value := fun _ => []
            hist := fun _ => [] }
  step := step loop

/-- The items pushed by the completed operations, in order. -/
def pushed (h : List (QOp X × List X)) : List X :=
  h.flatMap (fun p => match p.1 with | .pushBack x => [x] | .swap => [])

/-- The items handed out by the completed operations, in order. -/
def taken (h : List (QOp X × List X)) : List X :=
  h.flatMap (fun p => p.2)

/-- Who is inside an operation on a remote queue holds the mutex, is alone
    there, and every item pushed was handed out or is still queued. -/
structure Exclusive (s : State X) : Prop where
  holds : ∀ t q a, s.inside t = some (q, a) → q.Remote → s.holder = some t
  alone : ∀ t t' q a a', s.inside t = some (q, a) → s.inside t' = some (q, a') →
    q.Remote → t = t'
  kept : ∀ q : Queue, q.Remote → pushed (s.hist q) = taken (s.hist q) ++ s.value q

/-- A call of `post` or `dispatch` by a thread the context is not bound to. -/
def RemotePost (loop : Tid) : Event X → Prop
  | .post t _ => t ≠ loop
  | .dispatch t _ => t ≠ loop
  | _ => False

/-- A sequential history of queue operations keeps every item. -/
theorem legal_kept : ∀ {h : List (QOp X × List X)} {q₀ q : List X},
    Legal apply q₀ h q → q₀ ++ pushed h = taken h ++ q := by
  intro h
  induction h with
  | nil =>
      intro q₀ q hl
      obtain rfl : q₀ = q := hl
      simp [pushed, taken]
  | cons p h ih =>
      intro q₀ q hl
      obtain ⟨o, out⟩ := p
      obtain ⟨hout, hrest⟩ := hl
      have hih := ih hrest
      subst hout
      cases o with
      | pushBack x =>
          show q₀ ++ ([x] ++ pushed h) = [] ++ taken h ++ q
          rw [← List.append_assoc]
          exact hih
      | swap =>
          show q₀ ++ ([] ++ pushed h) = q₀ ++ taken h ++ q
          rw [List.append_assoc]
          exact congrArg (q₀ ++ ·) hih

abbrev QueueInv (s : State X) : Prop :=
  LockInv apply Queue.Remote (fun _ => []) s

theorem queueInv_init (loop : Tid) : QueueInv (queueMachine X loop).init where
  guarded := fun _ => rfl
  current := fun _ _ _ h => nomatch h
  fresh := fun _ _ _ h => nomatch h
  legal := fun _ _ => rfl

theorem QueueInv.exclusive {s : State X} (hI : QueueInv s) : Exclusive s where
  holds := fun _ _ _ hin hq => hI.inside_holds hin hq
  alone := fun _ _ _ _ _ hin hin' hq => hI.inside_unique hin hin' hq hq
  kept := fun q hq => legal_kept (hI.legal q hq)

/-! ## The guarded functions -/

/-- The functions with a named guard, and everything done in the loop's own
    thread, keep the discipline. -/
theorem coSpawn_guarded (b : Bool) (x : X) :
    Guarded Queue.Remote false (coSpawn b x) := by
  cases b <;> simp [coSpawn, Guarded]

theorem post_local_guarded (x : X) : Guarded Queue.Remote false (post true x) := by
  simp [post, Guarded, Queue.Remote]

theorem dispatch_local_guarded (x : X) :
    Guarded Queue.Remote false (dispatch true x) := by
  simp [dispatch, Guarded]

theorem resolveRemote_guarded (q : Queue) (s : State X) :
    Guarded Queue.Remote false (resolveRemote q s) := by
  unfold resolveRemote
  split <;> simp [Guarded]

theorem resolveLocalTask_guarded (s : State X) :
    Guarded Queue.Remote false (resolveLocalTask s) := by
  unfold resolveLocalTask
  split <;> simp [Guarded, Queue.Remote]

/-- **STEP LEMMA**: every step but a remote `post` or `dispatch` keeps the lock
    discipline. -/
theorem queueInv_step {loop : Tid} (s : State X) (e : Event X) (s' : State X)
    (hI : QueueInv s) (hok : ¬ RemotePost loop e) (hs : step loop s e = some s') :
    QueueInv s' := by
  cases e with
  | post t x =>
      obtain rfl : t = loop := not_not.mp hok
      simp only [step, beq_self_eq_true] at hs
      exact lockInv_call hI (post_local_guarded x) hs
  | dispatch t x =>
      obtain rfl : t = loop := not_not.mp hok
      simp only [step, beq_self_eq_true] at hs
      exact lockInv_call hI (dispatch_local_guarded x) hs
  | coSpawn t x => exact lockInv_call hI (coSpawn_guarded _ x) hs
  | resolveRemoteCoroutine => exact lockInv_call hI (resolveRemote_guarded _ s) hs
  | resolveRemoteTask => exact lockInv_call hI (resolveRemote_guarded _ s) hs
  | resolveLocalTask => exact lockInv_call hI (resolveLocalTask_guarded s) hs
  | exec t => exact lockInv_exec hI hs

/-! ## The unguarded ones -/

/-- Thread `t` is in the remote branch of `post` or `dispatch`, before the
    change of the queue. -/
def BeforeEmplace (s : State X) (t : Tid) (x : X) : Prop :=
  s.inside t = none ∧
    (s.code t = emplaceRemote x ∨
      (s.code t = [.unlock, .op .remoteTasks (.pushBack x)] ∧ s.holder = some t) ∨
      (s.code t = [.op .remoteTasks (.pushBack x)] ∧ s.holder ≠ some t))

theorem current_step {loop : Tid} (s : State X) (e : Event X) (s' : State X)
    (hC : Current s) (hs : step loop s e = some s') : Current s' := by
  cases e with
  | exec t => exact current_exec hC hs
  | _ => exact current_call hC hs

theorem beforeEmplace_call {s s' : State X} {u t : Tid} {x : X} {c : Code X}
    (hB : BeforeEmplace s t x) (hs : call s u c = some s') : BeforeEmplace s' t x := by
  obtain ⟨hidle, rfl⟩ := call_cases hs
  have hne : t ≠ u := by
    rintro rfl
    rcases hB.2 with hc | ⟨hc, -⟩ | ⟨hc, -⟩ <;> exact nomatch hidle.symm.trans hc
  have hcode : Function.update s.code u c t = s.code t := Function.update_of_ne hne _ _
  unfold BeforeEmplace
  simp only [hcode]
  exact hB

/-- The thread's own next step: the guard is taken, the guard is given back, and
    then it is inside the queue without the mutex. -/
theorem beforeEmplace_exec_self {s s' : State X} {t : Tid} {x : X}
    (hB : BeforeEmplace s t x) (hs : exec apply s t = some s') :
    BeforeEmplace s' t x ∨
      ((∃ a, s'.inside t = some (.remoteTasks, a)) ∧ s'.holder ≠ some t) := by
  obtain ⟨hout, hcode⟩ := hB
  cases exec_cases hs with
  | lock c hc hfree =>
      rcases hcode with hc' | ⟨hc', -⟩ | ⟨hc', -⟩
      · obtain ⟨-, rfl⟩ := List.cons.inj (hc.symm.trans hc')
        exact Or.inl ⟨hout, Or.inr (Or.inl ⟨Function.update_self _ _ _, rfl⟩)⟩
      · exact nomatch hc.symm.trans hc'
      · exact nomatch hc.symm.trans hc'
  | unlock c hc hheld =>
      rcases hcode with hc' | ⟨hc', -⟩ | ⟨hc', -⟩
      · exact nomatch hc.symm.trans hc'
      · obtain ⟨-, rfl⟩ := List.cons.inj (hc.symm.trans hc')
        exact Or.inl ⟨hout,
          Or.inr (Or.inr ⟨Function.update_self _ _ _, fun h => nomatch h⟩)⟩
      · exact nomatch hc.symm.trans hc'
  | enter q o c hc hout' =>
      rcases hcode with hc' | ⟨hc', -⟩ | ⟨hc', hfree⟩
      · exact nomatch hc.symm.trans hc'
      · exact nomatch hc.symm.trans hc'
      · obtain ⟨hop, -⟩ := List.cons.inj (hc.symm.trans hc')
        obtain ⟨rfl, -⟩ := Instr.op.inj hop
        exact Or.inr ⟨⟨_, Function.update_self _ _ _⟩, hfree⟩
  | leave q q' o a c hc hin => exact nomatch hout.symm.trans hin

/-- **STEP LEMMA**: a thread before its unguarded change stays there, or the
    state after the step is not exclusive. -/
theorem beforeEmplace_step {loop : Tid} {s s' : State X} {e : Event X} {t : Tid}
    {x : X} (hB : BeforeEmplace s t x) (hs : step loop s e = some s')
    (hex : Exclusive s') : BeforeEmplace s' t x := by
  cases e with
  | exec u =>
      by_cases hu : t = u
      · subst hu
        rcases beforeEmplace_exec_self hB hs with hB' | ⟨⟨a, hin⟩, hfree⟩
        · exact hB'
        · exact absurd (hex.holds t _ a hin (fun h => nomatch h)) hfree
      · obtain ⟨hcode, hinside, hholder⟩ := exec_frame hs hu
        unfold BeforeEmplace
        rw [hcode, hinside, Ne, hholder]
        exact hB
  | _ => exact beforeEmplace_call hB hs

/-- A remote `post` or `dispatch` puts its thread there. -/
theorem remotePost_enters {loop : Tid} {s s' : State X} {e : Event X}
    (hC : Current s) (he : RemotePost loop e) (hs : step loop s e = some s') :
    ∃ t x, BeforeEmplace s' t x := by
  have henter : ∀ t x, call s t (emplaceRemote x) = some s' → BeforeEmplace s' t x := by
    intro t x hcall
    obtain ⟨hidle, rfl⟩ := call_cases hcall
    exact ⟨hC.idle hidle, Or.inl (Function.update_self _ _ _)⟩
  cases e with
  | post t x =>
      have hne : (t == loop) = false := beq_eq_false_iff_ne.mpr he
      simp only [step, hne] at hs
      exact ⟨t, x, henter t x hs⟩
  | dispatch t x =>
      have hne : (t == loop) = false := beq_eq_false_iff_ne.mpr he
      simp only [step, hne] at hs
      exact ⟨t, x, henter t x hs⟩
  | _ => exact he.elim

/-- **RUN LEMMA**: while all states are exclusive, a remote `post` or `dispatch`
    that was called has not got past its guard. -/
theorem remotePost_stuck (loop : Tid) :
    ∀ (tr : List (Event X)) (s : State X), run (queueMachine X loop) tr = some s →
      Current s ∧ (Throughout (queueMachine X loop) Exclusive tr →
        (∃ e ∈ tr, RemotePost loop e) → ∃ t x, BeforeEmplace s t x) := by
  refine run_history ⟨(queueInv_init loop).current, ?_⟩ ?_
  · rintro - ⟨e, he, -⟩
    exact nomatch he
  · intro tr s e s' hr hP hs
    obtain ⟨hC, hih⟩ := hP
    refine ⟨current_step s e s' hC hs, ?_⟩
    rintro hex ⟨e', he', hpost⟩
    rcases List.mem_append.mp he' with hold | hlast
    · have hexs : Throughout (queueMachine X loop) Exclusive tr :=
        fun pre hp => hex pre (hp.trans (List.prefix_append tr [e]))
      obtain ⟨t, x, hB⟩ := hih hexs ⟨e', hold, hpost⟩
      have hlast : run (queueMachine X loop) (tr ++ [e]) = some s' :=
        runFrom_snoc.mpr ⟨s, hr, hs⟩
      exact ⟨t, x, beforeEmplace_step hB hs
        (hex (tr ++ [e]) (List.prefix_refl _) s' hlast)⟩
    · obtain rfl := List.mem_singleton.mp hlast
      exact remotePost_enters hC hpost hs

/-- **THE REMOTE QUEUES, EXACTLY**: in a run without a remote `post` or
    `dispatch` every state is exclusive; and a run at whose end all calls have
    returned was exclusive throughout only if it had none. -/
theorem remote_queues_exclusive (loop : Tid) (tr : List (Event X)) (s : State X)
    (hr : run (queueMachine X loop) tr = some s) :
    ((∀ e ∈ tr, ¬ RemotePost loop e) →
      Throughout (queueMachine X loop) Exclusive tr) ∧
    ((∀ t, s.code t = []) → Throughout (queueMachine X loop) Exclusive tr →
      ∀ e ∈ tr, ¬ RemotePost loop e) := by
  constructor
  · intro hnone pre hp t ht
    have hal := along_of_forall (M := queueMachine X loop) (queueMachine X loop).init hnone
    exact (throughout_along (queueInv_init loop)
      (fun s e s' hI hok hs => queueInv_step s e s' hI hok hs) hal pre hp t ht).exclusive
  · intro hidle hex e he hpost
    obtain ⟨t, x, -, hcode⟩ := (remotePost_stuck loop tr s hr).2 hex ⟨e, he, hpost⟩
    rw [hidle t] at hcode
    rcases hcode with hc | ⟨hc, -⟩ | ⟨hc, -⟩ <;> exact nomatch hc

/-- Thread 1 spawns a coroutine, and the loop thread 0 takes it. -/
def spawnTrace : List (Event Nat) :=
  [.coSpawn 1 7, .exec 1, .exec 1, .exec 1, .exec 1,
    .resolveRemoteCoroutine, .exec 0, .exec 0, .exec 0, .exec 0]

/-- The theorem at that run. -/
theorem remote_queues_exclusive_spawn :
    (∀ e ∈ spawnTrace, ¬ RemotePost 0 e) ∧
      Throughout (queueMachine Nat 0) Exclusive spawnTrace := by
  have hnone : ∀ e ∈ spawnTrace, ¬ RemotePost 0 e := by
    simp [spawnTrace, RemotePost]
  exact ⟨hnone, (remote_queues_exclusive 0 spawnTrace _ rfl).1 hnone⟩

/-- **TWO POSTERS LOSE A TASK**: both read the queue before either writes it. -/
theorem posters_overlap :
    ¬ (∀ (loop : Tid) (tr : List (Event Nat)) (s : State Nat),
        run (queueMachine Nat loop) tr = some s → Exclusive s) := by
  intro hall
  have hex := hall 0
    [.post 1 7, .post 2 8, .exec 1, .exec 1, .exec 2, .exec 2,
      .exec 1, .exec 2, .exec 1, .exec 2] _ rfl
  have hkept := hex.kept .remoteTasks (fun h => nomatch h)
  exact absurd hkept (by decide)

end CoioRemoteQueue
