import Coio.ProgressProofs

/-! # `io_context::schedule` — a coroutine that goes from thread to thread

    A context is known by the thread it is bound to.  `co_await B.schedule()` on the
    thread of `B` goes on at once; on any other thread it posts a task to `B` and
    suspends, and the loop of `B` resumes the coroutine when it comes to the task.  A
    loop runs a task only when its thread is inside no other coroutine.

    Here the future machine is run under these rules.  Its leaf operations are the
    `schedule()`s, and next to its frames there is the task queue of each context.

    What a future has left to do, and where, is then known at every moment.  The one
    thing left open is whether its awaiter has registered: as long as it has not, it
    is on the stack of the thread it awaits on, so the future cannot have COME BACK
    to that thread from another one. -/

namespace CoioSchedule

open CoioMachine CoioCoroutine CoioFuture CoioHandshake CoioFrame CoioProgress CoioStack

variable {V E : Type}

/-! ## The machine -/

/-- The frames and stacks, and `m_remote_tasks` of each context: the coroutines that
    are to be resumed there. -/
structure Contexts (V E : Type) where
  fut : State V E Tid
  queue : Tid → List Fid

/-- Whether the contexts let an event happen, and what it does to the queues. -/
def permit (s : Contexts V E) : Event → Option (Tid → List Fid)
  -- `is_in_local_thread()`
  | .leafReady t c => enabled ((s.fut.code c).leaf = some t) s.queue
  | .leafSuspend t c =>
      (s.fut.code c).leaf.bind fun x =>
        enabled (x ≠ t) (Function.update s.queue x (s.queue x ++ [c]))
  | .leafResume t c =>
      enabled (s.fut.stack t = [] ∧ (s.queue t).head? = some c)
        (Function.update s.queue t (s.queue t).tail)
  | _ => some s.queue

def step (P : Program V E Tid) (out : Tid → Except E V) (s : Contexts V E) (e : Event) :
    Option (Contexts V E) :=
  (permit s e).bind fun queue =>
    (CoioFuture.step P out s.fut e).map fun fut => { fut := fut, queue := queue }

def contextMachine (P : Program V E Tid) (out : Tid → Except E V) :
    Machine (Contexts V E) Event where
  init := { fut := (futureMachine P out).init, queue := fun _ => [] }
  step := step P out

variable {P : Program V E Tid} {out : Tid → Except E V} {s s' : Contexts V E} {e : Event}

theorem step_eq_some :
    step P out s e = some s' ↔
      permit s e = some s'.queue ∧ CoioFuture.step P out s.fut e = some s'.fut := by
  unfold step
  constructor
  · intro h
    obtain ⟨queue, hq, h⟩ := Option.bind_eq_some_iff.mp h
    obtain ⟨fut, hf, rfl⟩ := Option.map_eq_some_iff.mp h
    exact ⟨hq, hf⟩
  · rintro ⟨hq, hf⟩
    rw [hq, Option.bind_some, hf]
    rfl

/-- A run under the rules of the contexts is a run. -/
theorem run_fut : ∀ (tr : List Event) (s : Contexts V E),
    run (contextMachine P out) tr = some s → run (futureMachine P out) tr = some s.fut := by
  refine run_history rfl ?_
  intro tr s e s' _ ih hs
  exact runFrom_snoc.mpr ⟨s.fut, ih, (step_eq_some.mp hs).2⟩

/-! ## What a step leaves alone -/

/-- The coroutine that acts. -/
def actor : Event → Fid
  | .start _ c => c
  | .pureStep _ c => c
  | .create _ c => c
  | .leafReady _ c => c
  | .leafSuspend _ c => c
  | .leafResume _ c => c
  | .awaitReady _ c _ => c
  | .awaitSuspend _ c _ => c
  | .storeContinuation _ c _ => c
  | .setFirst _ c _ => c
  | .setSecond _ c _ => c
  | .finish _ c => c
  | .finishEntry _ c => c
  | .finalFirst _ f => f
  | .finalResume _ f _ => f

/-- A body that has been started and is not suspended in an await is moved by itself only. -/
theorem frame_of_not_actor {s s' : State V E Tid} {f : Fid} (hnew : s.pc s.next = .unborn)
    (hs : CoioFuture.step P out s e = some s') (hf : f ≠ actor e)
    (hpc : s.pc f ≠ .unborn ∧ s.pc f ≠ .created ∧ ∀ g, s.pc f ≠ .suspended g) :
    s'.pc f = s.pc f ∧ s'.code f = s.code f := by
  obtain ⟨hborn, hcreated, hsusp⟩ := hpc
  cases step_cases hs with
  | create t c =>
      have hne : f ≠ s.next := fun h => hborn (h ▸ hnew)
      have hf : f ≠ c := hf
      simp [hne, hf]
  | awaitSuspend t c g htop hpc hawait hfresh =>
      have hne : f ≠ g := fun h => hcreated (h ▸ hfresh)
      have hf : f ≠ c := hf
      simp [hne, hf]
  | finalResume t g c r hres htop hpc hsecond hcont hsuspended =>
      have hne : f ≠ c := fun h => hsusp g (h ▸ hsuspended)
      have hf : f ≠ g := hf
      simp [continueWith, hne, hf]
  | _ =>
      simp only [actor] at hf
      simp [continueWith, hf]

theorem mem_pushStack {s : State V E Tid} {t u : Tid} {c d : Fid} (h : c ∈ s.stack u) :
    c ∈ (pushStack s t d).stack u :=
  mem_update_cons.mpr (.inr h)

theorem mem_popStack {s : State V E Tid} {t u : Tid} {c d : Fid} (htop : atTop s t d) (hne : c ≠ d)
    (h : c ∈ s.stack u) : c ∈ (popStack s t).stack u := by
  rw [popStack_stack]
  by_cases hu : u = t
  · subst hu
    obtain ⟨rest, hrest⟩ := List.head?_eq_some_iff.mp htop
    rw [hrest] at h
    rw [Function.update_self, hrest]
    exact (List.mem_cons.mp h).resolve_left hne
  · rw [Function.update_of_ne hu]
    exact h

/-- A coroutine stays on its stack until it is suspended or finished. -/
theorem stays {s s' : State V E Tid} {c : Fid} {u : Tid}
    (hs : CoioFuture.step P out s e = some s') (hc : c ∈ s.stack u)
    (hact : active (s'.pc c) = true) : c ∈ s'.stack u := by
  -- what is popped is not active any more
  have hpop : ∀ {t d p}, atTop s t d → active p = false →
      active (Function.update s.pc d p c) = true → c ∈ (popStack s t).stack u := by
    intro t d p htop hp hactive
    exact mem_popStack htop ((active_off hp c).mp hactive).1 hc
  cases step_cases hs with
  | start | leafResume | awaitSuspend => exact mem_pushStack hc
  | pureStep | create | leafReady | awaitReady | storeContinuation | setSecond | finish => exact hc
  | leafSuspend t d n env l k g hcode htop hpc => exact hpop htop rfl hact
  | setFirst t d f htop hpc hfirst => exact hpop htop rfl hact
  | finishEntry t d r hret htop hpc hentry => exact hpop htop rfl hact
  | finalFirst t f htop hpc hfirst => exact hpop htop rfl hact
  | finalResume t f d r hres htop hpc hsecond hcont hsusp =>
      refine mem_pushStack (mem_popStack htop ?_ hc)
      have hne : f ≠ d := ne_of_pc hpc hsusp (by simp)
      rintro rfl
      simp [continueWith, hne, active] at hact

/-- The queues hold as much of a coroutine that does not act. -/
theorem count_queue_of_not_actor {q : Tid → List Fid} {f : Fid} (h : permit s e = some q)
    (hf : f ≠ actor e) (x : Tid) : (q x).count f = (s.queue x).count f := by
  cases e with
  | leafReady t c =>
      obtain ⟨-, rfl⟩ := enabled_eq_some.mp h
      rfl
  | leafSuspend t c =>
      obtain ⟨y, -, h⟩ := Option.bind_eq_some_iff.mp h
      obtain ⟨-, rfl⟩ := enabled_eq_some.mp h
      by_cases hx : x = y
      · subst hx
        rw [Function.update_self, List.count_append, List.count_singleton]
        have hcf : (c == f) = false := beq_eq_false_iff_ne.mpr (Ne.symm hf)
        rw [hcf]
        rfl
      · rw [Function.update_of_ne hx]
  | leafResume t c =>
      obtain ⟨⟨-, hhead⟩, rfl⟩ := enabled_eq_some.mp h
      by_cases hx : x = t
      · subst hx
        obtain ⟨rest, hrest⟩ := List.head?_eq_some_iff.mp hhead
        have hne : c ≠ f := Ne.symm hf
        rw [Function.update_self, hrest, List.tail_cons, List.count_cons_of_ne hne]
      · rw [Function.update_of_ne hx]
  | _ =>
      obtain rfl := Option.some.inj h
      rfl

/-- A body that has not been started had not been before. -/
theorem fresh_back {s s' : State V E Tid} {c : Fid} (hnew : s.pc s.next = .unborn)
    (hs : CoioFuture.step P out s e = some s') (h : s'.pc c = .unborn ∨ s'.pc c = .created) :
    s.pc c = .unborn ∨ s.pc c = .created := by
  obtain ⟨act, hframe⟩ := frame_cases hnew hs c
  have hback : ∀ {fr fr' : Frame V E Tid}, FrameStep P out s s' c act fr fr' →
      fr'.pc = .unborn ∨ fr'.pc = .created → fr.pc = .unborn ∨ fr.pc = .created := by
    intro fr fr' hstep hfr
    cases hstep with
    | idle => exact hfr
    | born _ _ _ _ _ _ _ _ _ _ hunborn => exact .inl hunborn
    | _ => simp at hfr
  exact hback hframe h

/-- What is in a queue was there, or has just been suspended. -/
theorem mem_queue_back {c : Fid} {z : Tid} (hs : step P out s e = some s')
    (h : c ∈ s'.queue z) : c ∈ s.queue z ∨ s'.fut.pc c = .atLeaf := by
  obtain ⟨hpermit, hfut⟩ := step_eq_some.mp hs
  by_cases hc : c = actor e
  · subst hc
    obtain ⟨fut', queue'⟩ := s'
    dsimp only at hpermit hfut h
    cases step_cases hfut with
    | leafReady =>
        obtain ⟨-, rfl⟩ := enabled_eq_some.mp hpermit
        exact .inl h
    | leafSuspend => exact .inr (by simp [actor])
    | leafResume t c =>
        obtain ⟨-, rfl⟩ := enabled_eq_some.mp hpermit
        left
        by_cases hz : z = t
        · subst hz
          rw [Function.update_self] at h
          exact List.mem_of_mem_tail h
        · rwa [Function.update_of_ne hz] at h
    | _ =>
        obtain rfl := Option.some.inj hpermit
        exact .inl h
  · left
    rw [← List.count_pos_iff, ← count_queue_of_not_actor hpermit hc z]
    exact List.count_pos_iff.mpr h

/-- Only bodies that have been started are in the queues. -/
theorem count_queue_of_fresh {tr : List Event} (hr : run (contextMachine P out) tr = some s) {c : Fid}
    (hc : s.fut.pc c = .unborn ∨ s.fut.pc c = .created) (z : Tid) : (s.queue z).count c = 0 := by
  suffices h : ∀ tr s, run (contextMachine P out) tr = some s →
      (s.fut.pc c = .unborn ∨ s.fut.pc c = .created) → c ∉ s.queue z from
    List.count_eq_zero.mpr (h tr s hr hc)
  refine run_history (fun _ => List.not_mem_nil) ?_
  intro tr s e s' hr ih hs hfresh hmem
  have hback := fresh_back (next_unborn (run_fut tr s hr)) (step_eq_some.mp hs).2 hfresh
  rcases mem_queue_back hs hmem with hmem | hleaf
  · exact ih hback hmem
  · rcases hfresh with h | h <;> cases hleaf.symm.trans h

/-! ## Bodies that go from context to context -/

inductive Op where
  | pureStep
  /-- `co_await x.schedule()` -/
  | schedule (x : Tid)
  deriving DecidableEq

/-- The body that makes these steps and then finishes with the outcome `last`. -/
def compile (last : Except E V) {n : Nat} : List Op → Body V E Tid n
  | [] => pick last .coReturn .throwEx
  | .pureStep :: ops => .pureStep (compile last ops)
  | .schedule x :: ops => .awaitLeaf x (fun _ => compile last ops) (fun _ => compile last ops)

/-- Where a body is after `ops` that has begun on `x`. -/
def place (x : Tid) (ops : List Op) : Tid :=
  ops.foldl (fun t op => match op with | .pureStep => t | .schedule y => y) x

/-- How a body that has begun on `x` stands to `x`. -/
inductive Journey where
  /-- it has not left -/
  | home
  /-- it has left, and not been there since -/
  | away
  /-- it has left and come back, and may have left again -/
  | back
  deriving DecidableEq

def Journey.next (x : Tid) : Journey → Op → Journey
  | j, .pureStep => j
  | .home, .schedule y => if y = x then .home else .away
  | .away, .schedule y => if y = x then .back else .away
  | .back, .schedule _ => .back

def journey (x : Tid) (ops : List Op) : Journey := ops.foldl (Journey.next x) .home

section Journey

variable {x y : Tid} {past : List Op}

theorem place_snoc (x : Tid) (past : List Op) (op : Op) :
    place x (past ++ [op]) = match op with | .pureStep => place x past | .schedule y => y := by
  unfold place
  rw [List.foldl_append]
  rfl

theorem journey_snoc (x : Tid) (past : List Op) (op : Op) :
    journey x (past ++ [op]) = (journey x past).next x op := by
  unfold journey
  rw [List.foldl_append]
  rfl

/-- Until it comes back a body is on `x` exactly as long as it has not left. -/
theorem place_of_journey (x : Tid) (past : List Op) :
    (journey x past = .home → place x past = x) ∧ (journey x past = .away → place x past ≠ x) := by
  induction past using List.reverseRecOn with
  | nil => exact ⟨fun _ => rfl, fun h => by cases h⟩
  | append_singleton past op ih =>
      rw [journey_snoc, place_snoc]
      cases op with
      | pureStep => exact ih
      | schedule y =>
          cases journey x past <;> by_cases hy : y = x <;> simp [Journey.next, hy]

/-- A `schedule()` of the own context changes nothing. -/
theorem journey_same (hback : journey x past ≠ .back) :
    journey x (past ++ [.schedule (place x past)]) ≠ .back := by
  obtain ⟨hhome, haway⟩ := place_of_journey x past
  rw [journey_snoc]
  cases hj : journey x past with
  | home => simp [Journey.next, hhome hj]
  | away => simp [Journey.next, haway hj]
  | back => exact absurd hj hback

/-- Nor does one of a context other than `x` bring the body back. -/
theorem journey_other (hback : journey x past ≠ .back) (hy : y ≠ x) :
    journey x (past ++ [.schedule y]) ≠ .back := by
  rw [journey_snoc]
  cases hj : journey x past with
  | home => simp [Journey.next, hy]
  | away => simp [Journey.next, hy]
  | back => exact absurd hj hback

end Journey

/-! ## What the rest of such a body asks for -/

section Compile

variable {last : Except E V} {n : Nat} {env : Fin n → Fid} {rest : List Op}

theorem pureNext_compile {k : Code V E Tid}
    (h : (⟨n, env, compile last rest⟩ : Code V E Tid).pureNext = some k) :
    ∃ r, rest = .pureStep :: r ∧ k = ⟨n, env, compile last r⟩ := by
  cases rest with
  | nil => cases last <;> cases h
  | cons op r =>
      cases op with
      | pureStep => exact ⟨r, rfl, (Option.some.inj h).symm⟩
      | schedule x => cases h

theorem leaf_compile {y : Tid}
    (h : (⟨n, env, compile last rest⟩ : Code V E Tid).leaf = some y) :
    ∃ r, rest = .schedule y :: r ∧
      ∀ v, (⟨n, env, compile last rest⟩ : Code V E Tid).afterAwait v =
        ⟨n, env, compile last r⟩ := by
  cases rest with
  | nil => cases last <;> cases h
  | cons op r =>
      cases op with
      | pureStep => cases h
      | schedule x =>
          obtain rfl : x = y := Option.some.inj h
          exact ⟨r, rfl, fun v => by cases v <;> rfl⟩

theorem returned_compile {v : Except E V}
    (h : (⟨n, env, compile last rest⟩ : Code V E Tid).returned = some v) : rest = [] := by
  cases rest with
  | nil => rfl
  | cons op r => cases op <;> cases h

theorem awaited_compile (f : Fid) :
    (⟨n, env, compile last rest⟩ : Code V E Tid).awaited ≠ some f := by
  cases rest with
  | nil => cases last <;> simp [compile, pick, Code.awaited]
  | cons op r => cases op <;> simp [compile, Code.awaited]

theorem call_compile (f : Fid) :
    (⟨n, env, compile last rest⟩ : Code V E Tid).call f = none := by
  cases rest with
  | nil => cases last <;> rfl
  | cons op r => cases op <;> rfl

end Compile

/-! ## Where the body of a future is -/

/-- The future `f` has made the steps `past` since it began on `x`, and has `rest` to make. -/
inductive Where (x : Tid) (past rest : List Op) (f : Fid) (s : Contexts V E) : Prop where
  | running (hpc : s.fut.pc f = .running) (hstack : f ∈ s.fut.stack (place x past))
      (hqueue : ∀ z, (s.queue z).count f = 0)
  | queued (y : Tid) (r : List Op) (hpc : s.fut.pc f = .atLeaf) (hrest : rest = .schedule y :: r)
      (hqueue : ∀ z, (s.queue z).count f = if z = y then 1 else 0)
  | final (hpc : s.fut.pc f = .finalSuspend) (hrest : rest = [])
      (hstack : f ∈ s.fut.stack (place x past))
  | finished (hpc : s.fut.pc f = .finished) (hrest : rest = [])

/-- With the code of its frame. -/
def Travels (last : Except E V) (x : Tid) (past rest : List Op) (f : Fid) (s : Contexts V E) :
    Prop :=
  (∃ n env, s.fut.code f = ⟨n, env, compile last rest⟩) ∧ Where x past rest f s

section Travels

variable {last : Except E V} {x : Tid} {past rest : List Op} {f : Fid}

theorem Where.pc_cases (h : Where x past rest f s) :
    s.fut.pc f ≠ .unborn ∧ s.fut.pc f ≠ .created ∧ ∀ g, ¬ WaitsOn g (s.fut.pc f) := by
  cases h with
  | running hpc | queued _ _ hpc | final hpc | finished hpc => simp [hpc, WaitsOn]

/-- **FRAME**: the step of another coroutine. -/
theorem Travels.aside (h : Travels last x past rest f s) (hnew : s.fut.pc s.fut.next = .unborn)
    (hs : step P out s e = some s') (hf : f ≠ actor e) : Travels last x past rest f s' := by
  obtain ⟨hpermit, hfut⟩ := step_eq_some.mp hs
  obtain ⟨⟨n, env, hcode⟩, hw⟩ := h
  obtain ⟨hborn, hcreated, hwaits⟩ := hw.pc_cases
  obtain ⟨hpc', hcode'⟩ := frame_of_not_actor hnew hfut hf
    ⟨hborn, hcreated, fun g hg => hwaits g (.inr (.inr hg))⟩
  have hqueue' := count_queue_of_not_actor hpermit hf
  refine ⟨⟨n, env, hcode'.trans hcode⟩, ?_⟩
  cases hw with
  | running hpc hstack hqueue =>
      rw [hpc] at hpc'
      exact .running hpc' (stays hfut hstack (by rw [hpc']; rfl))
        (fun z => (hqueue' z).trans (hqueue z))
  | queued y r hpc hrest hqueue =>
      rw [hpc] at hpc'
      exact .queued y r hpc' hrest (fun z => (hqueue' z).trans (hqueue z))
  | final hpc hrest hstack =>
      rw [hpc] at hpc'
      exact .final hpc' hrest (stays hfut hstack (by rw [hpc']; rfl))
  | finished hpc hrest =>
      rw [hpc] at hpc'
      exact .finished hpc' hrest

theorem Where.of_running (h : Where x past rest f s) (hpc : s.fut.pc f = .running) :
    f ∈ s.fut.stack (place x past) ∧ ∀ z, (s.queue z).count f = 0 := by
  cases h with
  | running _ hstack hqueue => exact ⟨hstack, hqueue⟩
  | queued _ _ hpc' | final hpc' | finished hpc' => cases hpc.symm.trans hpc'

theorem Where.of_queued (h : Where x past rest f s) (hpc : s.fut.pc f = .atLeaf) :
    ∃ y r, rest = .schedule y :: r ∧ ∀ z, (s.queue z).count f = if z = y then 1 else 0 := by
  cases h with
  | queued y r _ hrest hqueue => exact ⟨y, r, hrest, hqueue⟩
  | running hpc' | final hpc' | finished hpc' => cases hpc.symm.trans hpc'

theorem Where.of_final (h : Where x past rest f s) (hpc : s.fut.pc f = .finalSuspend) :
    rest = [] ∧ f ∈ s.fut.stack (place x past) := by
  cases h with
  | final _ hrest hstack => exact ⟨hrest, hstack⟩
  | running hpc' | queued _ _ hpc' | finished hpc' => cases hpc.symm.trans hpc'

theorem Where.of_finished (h : Where x past rest f s) (hpc : s.fut.pc f = .finished) :
    rest = [] := by
  cases h with
  | finished _ hrest => exact hrest
  | running hpc' | queued _ _ hpc' | final hpc' => cases hpc.symm.trans hpc'

/-- A coroutine executes on one thread. -/
theorem thread_of_top {t u : Tid} (hstk : Stacks s.fut) (htop : atTop s.fut t f)
    (hmem : f ∈ s.fut.stack u) : t = u :=
  hstk.apart t u f (List.mem_of_mem_head? htop) hmem

/-- The rest of the way, as long as the awaiter keeps the thread `x` busy. -/
def Onward (s : Contexts V E) (x : Tid) (past past' : List Op) : Prop :=
  s.fut.stack x ≠ [] → journey x past ≠ .back → journey x past' ≠ .back

/-- **STEP** of the body itself. -/
theorem Travels.acts (h : Travels last x past rest f s) (hstk : Stacks s.fut)
    (hentry : ¬ P.IsEntry f) (hs : step P out s e = some s') (hf : f = actor e) :
    ∃ past' rest', past' ++ rest' = past ++ rest ∧ Travels last x past' rest' f s' ∧
      Onward s x past past' := by
  obtain ⟨hpermit, hfut⟩ := step_eq_some.mp hs
  obtain ⟨⟨n, env, hcode⟩, hw⟩ := h
  obtain ⟨hborn, hcreated, hwaits⟩ := hw.pc_cases
  obtain ⟨fut', queue'⟩ := s'
  dsimp only at hpermit hfut
  -- a body of this kind only makes pure steps, awaits its `schedule()`s and ends
  cases step_cases hfut with
  | start t c _ _ hpc =>
      obtain rfl : f = c := hf
      exact absurd hpc hcreated
  | pureStep t c n' env' k hcode' htop hpc =>
      obtain rfl : f = c := hf
      obtain rfl := Option.some.inj hpermit
      obtain ⟨hstack, hqueue⟩ := hw.of_running hpc
      obtain ⟨r, rfl, hk⟩ := pureNext_compile
        ((congrArg Code.pureNext (hcode.symm.trans hcode')).trans rfl)
      refine ⟨past ++ [.pureStep], r, by simp, ⟨⟨n, env, ?_⟩, ?_⟩, ?_⟩
      · rw [setCode_code, Function.update_self, hk]
      · refine .running hpc ?_ hqueue
        rw [place_snoc]
        exact hstack
      · intro _ hback
        rw [journey_snoc]
        cases hj : journey x past <;> simp_all [Journey.next]
  | create t c n' env' child k hcode' htop hpc =>
      obtain rfl : f = c := hf
      have hcall := congrArg (Code.call 0) (hcode.symm.trans hcode')
      rw [call_compile] at hcall
      cases hcall
  | leafReady t c n' env' l k g hcode' htop hpc =>
      obtain rfl : f = c := hf
      obtain ⟨hlocal, rfl⟩ := enabled_eq_some.mp hpermit
      obtain ⟨hstack, hqueue⟩ := hw.of_running hpc
      obtain rfl := thread_of_top hstk htop hstack
      rw [hcode] at hlocal
      obtain ⟨r, rfl, hafter⟩ := leaf_compile hlocal
      refine ⟨past ++ [.schedule (place x past)], r, by simp, ⟨⟨n, env, ?_⟩, ?_⟩, ?_⟩
      · simp [continueWith, hcode, hafter]
      · refine .running (by simp [continueWith]) ?_ hqueue
        rw [place_snoc]
        exact hstack
      · exact fun _ => journey_same
  | leafSuspend t c n' env' l k g hcode' htop hpc =>
      obtain rfl : f = c := hf
      obtain ⟨y, hleaf, hpermit⟩ := Option.bind_eq_some_iff.mp hpermit
      obtain ⟨-, rfl⟩ := enabled_eq_some.mp hpermit
      obtain ⟨-, hqueue⟩ := hw.of_running hpc
      rw [hcode] at hleaf
      obtain ⟨r, rfl, -⟩ := leaf_compile hleaf
      refine ⟨past, _, rfl, ⟨⟨n, env, hcode⟩, .queued y r (by simp) rfl ?_⟩, fun _ h => h⟩
      intro z
      by_cases hz : z = y
      · subst hz
        simp [hqueue]
      · simp [hz, hqueue]
  | leafResume t c n' env' l k g hcode' huser hpc =>
      obtain rfl : f = c := hf
      obtain ⟨⟨hidle, hhead⟩, rfl⟩ := enabled_eq_some.mp hpermit
      obtain ⟨y, r, rfl, hqueue⟩ := hw.of_queued hpc
      obtain ⟨tail, htail⟩ := List.head?_eq_some_iff.mp hhead
      -- `f` is in no queue but that of `y`
      have hty : t = y := by
        by_contra hne
        have hcount := hqueue t
        rw [htail, List.count_cons_self, if_neg hne] at hcount
        omega
      subst hty
      have hl : l = t := by
        have hleaf := congrArg Code.leaf (hcode.symm.trans hcode')
        exact (Option.some.inj hleaf).symm
      subst hl
      obtain ⟨r', hr', hafter⟩ := leaf_compile
        (show (⟨n, env, compile last (.schedule l :: r)⟩ : Code V E Tid).leaf = some l from rfl)
      obtain rfl : r = r' := (List.cons.inj hr').2
      refine ⟨past ++ [.schedule l], r, by simp, ⟨⟨n, env, ?_⟩, ?_⟩, ?_⟩
      · simp [continueWith, hcode, hafter]
      · refine .running (by simp [continueWith]) ?_ fun z => ?_
        · rw [place_snoc]
          simp
        · have hcount := hqueue z
          by_cases hz : z = l
          · subst hz
            rw [htail, List.count_cons_self, if_pos rfl] at hcount
            simp only [Function.update_self, htail, List.tail_cons]
            omega
          · simpa [hz] using hcount
      · -- a loop that resumes the body is inside no other coroutine
        intro hbusy hback
        refine journey_other hback ?_
        rintro rfl
        exact hbusy hidle
  | awaitReady t c g r hres htop hpc hawait =>
      obtain rfl : f = c := hf
      rw [hcode] at hawait
      exact absurd hawait (awaited_compile g)
  | awaitSuspend t c g htop hpc hawait =>
      obtain rfl : f = c := hf
      rw [hcode] at hawait
      exact absurd hawait (awaited_compile g)
  | storeContinuation t c g htop hpc =>
      obtain rfl : f = c := hf
      exact absurd (.inl hpc) (hwaits g)
  | setFirst t c g htop hpc =>
      obtain rfl : f = c := hf
      exact absurd (.inr (.inl hpc)) (hwaits g)
  | setSecond t c g r hres htop hpc =>
      obtain rfl : f = c := hf
      exact absurd (.inr (.inl hpc)) (hwaits g)
  | finish t c r hret htop hpc =>
      obtain rfl : f = c := hf
      obtain ⟨hstack, -⟩ := hw.of_running hpc
      rw [hcode] at hret
      obtain rfl := returned_compile hret
      exact ⟨past, [], rfl, ⟨⟨n, env, hcode⟩, .final (by simp) rfl hstack⟩, fun _ h => h⟩
  | finishEntry t c r hret htop hpc hent =>
      obtain rfl : f = c := hf
      exact absurd hent hentry
  | finalFirst t g htop hpc =>
      obtain rfl : f = g := hf
      obtain ⟨rfl, -⟩ := hw.of_final hpc
      exact ⟨past, [], rfl, ⟨⟨n, env, hcode⟩, .finished (by simp) rfl⟩, fun _ h => h⟩
  | finalResume t g c r hres htop hpc hsecond hcont hsusp =>
      obtain rfl : f = g := hf
      have hne : f ≠ c := ne_of_pc hpc hsusp (by simp)
      obtain ⟨rfl, -⟩ := hw.of_final hpc
      refine ⟨past, [], rfl, ⟨⟨n, env, ?_⟩, .finished ?_ rfl⟩, fun _ h => h⟩
      · simp [continueWith, hne, hcode]
      · simp [continueWith, hne]

/-- **STEP**: whoever acts. -/
theorem Travels.step (h : Travels last x past rest f s) (hnew : s.fut.pc s.fut.next = .unborn)
    (hstk : Stacks s.fut) (hentry : ¬ P.IsEntry f)
    (hs : CoioSchedule.step P out s e = some s') :
    ∃ past' rest', past' ++ rest' = past ++ rest ∧ Travels last x past' rest' f s' ∧
      Onward s x past past' := by
  by_cases hf : f = actor e
  · exact h.acts hstk hentry hs hf
  · exact ⟨past, rest, rfl, h.aside hnew hs hf, fun _ h => h⟩

end Travels

/-! ## The future and its awaiter -/

/-- In `await_suspend` of `f`, before its exchange. -/
def Registers (f : Fid) (p : Pc) : Prop := p = .resuming f ∨ p = .stored f

/-- Who registers for a future that has been started did so before. -/
theorem registers_back {s s' : State V E Tid} {c f : Fid}
    (hs : CoioFuture.step P out s e = some s') (hf : s.pc f ≠ .created)
    (h : Registers f (s'.pc c)) : Registers f (s.pc c) := by
  cases step_cases hs with
  | pureStep => exact h
  | start | create | leafReady | leafSuspend | leafResume | awaitReady | setFirst | setSecond
  | finish | finishEntry | finalFirst => exact of_update (Registers f) (by simp [Registers]) h
  | awaitSuspend t d g htop hpc hawait hfresh =>
      have hne : g ≠ f := fun heq => hf (heq ▸ hfresh)
      have hrun : Registers f .running → Registers f (s.pc g) := by simp [Registers]
      have hres : Registers f (.resuming g) → Registers f (s.pc d) := by simp [Registers, hne]
      rcases update_cases (Registers f) h with ⟨rfl, hnew⟩ | ⟨-, h⟩
      · exact hrun hnew
      · exact of_update (Registers f) hres h
  | storeContinuation t d g htop hpc =>
      refine of_update (Registers f) (fun hreg => ?_) h
      rcases hreg with heq | heq
      · cases heq
      · cases heq
        exact .inl hpc
  | finalResume t g d r hres htop hpc hsecond hcont hsusp =>
      have hrun : Registers f .running → Registers f (s.pc d) := by simp [Registers]
      have hfin : Registers f .finished → Registers f (s.pc g) := by simp [Registers]
      rcases update_cases (Registers f) h with ⟨rfl, hnew⟩ | ⟨-, h⟩
      · exact hrun hnew
      · exact of_update (Registers f) hfin h

/-- The future `f` with the body `ops`, awaited by `c` on thread `x`: how far it has come;
    that its awaiter, while it registers, keeps `x` from resuming it; and on which threads
    the awaiter can have gone on. -/
def Tracked (last : Except E V) (x : Tid) (c f : Fid) (ops : List Op) (tr : List Event)
    (s : Contexts V E) : Prop :=
  (∃ past rest, past ++ rest = ops ∧ Travels last x past rest f s ∧
    (Registers f (s.fut.pc c) → c ∈ s.fut.stack x ∧ journey x past ≠ .back)) ∧
  (∀ t, .setSecond t c f ∈ tr → t = x ∧ journey x ops ≠ .back) ∧
  (∀ t, .finalResume t f c ∈ tr → t = place x ops)

section Tracked

variable {last : Except E V} {x : Tid} {c f : Fid} {ops : List Op} {tr : List Event}

/-- Nobody has gone on from the await of a future that has not been started. -/
theorem not_continued_of_fresh {s : State V E Tid} (hr : run (futureMachine P out) tr = some s)
    (hentry : ¬ P.IsEntry f) (hfresh : s.pc f = .created) {e : Event} (he : isContinue f e = true) :
    e ∉ tr := by
  intro hmem
  obtain ⟨-, -, hcounts⟩ := (handshake_run hr hentry).of_fresh (.inr hfresh)
  have hzero : tr.countP (isContinue f) = 0 := congrArg Counts.continues hcounts
  exact absurd he (List.countP_eq_zero.mp hzero e hmem)

/-- At the await. -/
theorem tracked_awaitSuspend {n : Nat} {env : Fin n → Fid}
    (hr : run (contextMachine P out) tr = some s)
    (hcode : s.fut.code f = ⟨n, env, compile last ops⟩)
    (hs : step P out s (.awaitSuspend x c f) = some s') :
    Tracked last x c f ops (tr ++ [.awaitSuspend x c f]) s' := by
  have hrfut := run_fut tr s hr
  obtain ⟨hpermit, hfut⟩ := step_eq_some.mp hs
  obtain ⟨fut', queue'⟩ := s'
  dsimp only at hpermit hfut
  obtain rfl := Option.some.inj hpermit
  cases step_cases hfut with
  | awaitSuspend _ _ _ htop hpc hawait hfresh =>
      have hentry := (awaited_scope hrfut (by simp [hpc]) hawait).2
      have hne : c ≠ f := ne_of_pc hpc hfresh (by simp)
      have hnone : ∀ e, isContinue f e = true → e ∉ tr ++ [.awaitSuspend x c f] := by
        intro e he hmem
        rcases List.mem_append.mp hmem with hmem | hmem
        · exact not_continued_of_fresh hrfut hentry hfresh he hmem
        · obtain rfl := List.mem_singleton.mp hmem
          cases he
      refine ⟨⟨[], ops, rfl, ⟨⟨n, env, hcode⟩, ?_⟩, fun _ => ⟨?_, by simp [journey]⟩⟩,
        fun t ht => absurd ht (hnone _ (by simp [isContinue])),
        fun t ht => absurd ht (hnone _ (by simp [isContinue]))⟩
      · exact .running (by simp) (by simp [place]) (count_queue_of_fresh hr (.inr hfresh))
      · exact mem_pushStack (List.mem_of_mem_head? htop)

/-- **STEP** of a tracked future. -/
theorem tracked_step (hr : run (contextMachine P out) tr = some s) (hentry : ¬ P.IsEntry f)
    (h : Tracked last x c f ops tr s) (hs : step P out s e = some s') :
    Tracked last x c f ops (tr ++ [e]) s' := by
  have hrfut := run_fut tr s hr
  have hfut := (step_eq_some.mp hs).2
  have hstk := stacks_run hrfut
  have hH := handshake_run hrfut hentry
  obtain ⟨⟨past, rest, rfl, htravels, hreg⟩, hset, hfinal⟩ := h
  refine ⟨?_, fun t ht => ?_, fun t ht => ?_⟩
  · -- while the awaiter registers it is on the stack of `x`, so `x` resumes nothing
    obtain ⟨past', rest', heq, htravels', honward⟩ := htravels.step (next_unborn hrfut) hstk hentry hs
    refine ⟨past', rest', heq, htravels', fun hreg' => ?_⟩
    obtain ⟨hmem, hback⟩ := hreg (registers_back hfut htravels.2.pc_cases.2.1 hreg')
    refine ⟨stays hfut hmem ?_, honward (List.ne_nil_of_mem hmem) hback⟩
    rcases hreg' with hpc | hpc <;> rw [hpc] <;> rfl
  · rcases List.mem_append.mp ht with ht | ht
    · exact hset t ht
    · -- the exchange comes second: the body has ended, and the awaiter has not moved
      obtain rfl := List.mem_singleton.mp ht
      generalize s'.fut = fut' at hfut
      cases step_cases hfut with
      | setSecond _ _ _ r hres htop hpc hsecond =>
          obtain ⟨hmem, hback⟩ := hreg (.inr hpc)
          obtain ⟨-, -, -, hbody⟩ := hH.of_registering (.inr hpc)
          have hfin : s.fut.pc f = .finished := by
            rcases hbody with ⟨-, hfirst, -⟩ | ⟨hfin, -⟩
            · cases hsecond.symm.trans hfirst
            · exact hfin
          rw [htravels.2.of_finished hfin, List.append_nil]
          exact ⟨thread_of_top hstk htop hmem, hback⟩
  · rcases List.mem_append.mp ht with ht | ht
    · exact hfinal t ht
    · obtain rfl := List.mem_singleton.mp ht
      generalize s'.fut = fut' at hfut
      cases step_cases hfut with
      | finalResume _ _ _ r hres htop hpc hsecond hcont hsusp =>
          obtain ⟨hrest, hmem⟩ := htravels.2.of_final hpc
          rw [hrest, List.append_nil]
          exact thread_of_top hstk htop hmem

/-- **RUN**: from the await on. -/
theorem tracked_run {pre : List Event} {n : Nat} {env : Fin n → Fid} {s₀ : Contexts V E}
    (hr : run (contextMachine P out) tr = some s)
    (hp : pre ++ [.awaitSuspend x c f] <+: tr) (hpre : run (contextMachine P out) pre = some s₀)
    (hcode : s₀.fut.code f = ⟨n, env, compile last ops⟩) : Tracked last x c f ops tr s := by
  obtain ⟨suf, rfl⟩ := hp
  obtain ⟨s₁, hs₁, hsuf⟩ := runFrom_append_some.mp hr
  obtain ⟨_, hpre', hs⟩ := runFrom_snoc.mp hs₁
  obtain rfl := Option.some.inj (hpre.symm.trans hpre')
  replace hs : step P out s₀ (.awaitSuspend x c f) = some s₁ := hs
  have hentry : ¬ P.IsEntry f := by
    have hfut := (step_eq_some.mp hs).2
    generalize s₁.fut = fut' at hfut
    cases step_cases hfut with
    | awaitSuspend _ _ _ htop hpc hawait =>
        exact (awaited_scope (run_fut pre s₀ hpre) (by simp [hpc]) hawait).2
  refine runFrom_history (P := fun es s => Tracked last x c f ops (_ ++ es) s) ?_ ?_ suf s hsuf
  · rw [List.append_nil]
    exact tracked_awaitSuspend hpre hcode hs
  · intro es s e s' hes ih hs
    rw [← List.append_assoc]
    exact tracked_step (runFrom_append_some.mpr ⟨s₁, hs₁, hes⟩) hentry ih hs

end Tracked

end CoioSchedule
