import Coio.ResolverProofs

/-! # The way of a DNS query, from its awaiter and back

    `async_query` makes an awaiter that knows the context of the thread it was made on.
    The awaiter pushes its own address onto the list of the resolver; the worker hands it
    to c-ares; the callback, on the worker's thread, reads the context from the awaiter and
    posts a task to it; and the task, on the thread of the context, writes the answer into
    the awaiter and resumes the coroutine.  The awaiter lives in the frame of the coroutine
    and is gone as soon as the coroutine goes on.

    A queue operation of a context is one step here, as in `Coio.IoContextProofs`; what
    comes of two that overlap is not looked at.

    So an address is passed through three threads.  Here each of them may use it only while
    there is an awaiter: `memory` says where one is, and a use of an address without one is
    a fault.  The resolver is the machine of `Coio.ResolverProofs`, as it is; what is added
    are the threads of the contexts, their tasks and the awaiters.

    The interesting moment is the end of `await_suspend`.  The query has been pushed, so it
    may be answered at any time, but `resolver.try_wakeup()` still reads the awaiter.  What
    saves it is that the task is posted to the very thread that is still inside
    `await_suspend`. -/

namespace CoioResolverAnswer

open CoioMachine CoioResolver

variable {R : Type}

abbrev Ctx := Nat

/-- `async_query_awaiter`.  A coroutine handle is the number of the query it waits for;
    `status` is not initialised. -/
structure Awaiter (R : Type) where
  ctx : Ctx
  handle : Option Nat
  status : Option Int
  result : Option R
  deriving DecidableEq

/-- What `query_callback` posts. -/
structure Task (R : Type) where
  query : Query
  status : Int
  result : Option R
  deriving DecidableEq

/-- What the thread of a context is doing. -/
inductive Activity where
  /-- it is in its loop, or in a coroutine -/
  | free
  /-- it is in `await_suspend`, behind the push -/
  | suspending (q : Query)
  deriving DecidableEq

structure World (R : Type) where
  resolver : Resolver
  memory : Ptr → Option (Awaiter R)
  /-- the tasks in the queues of all contexts, in the order of the posts -/
  tasks : List (Ctx × Task R)
  thread : Ctx → Activity
  /-- an awaiter was used that was not there -/
  fault : Bool

/-- `ARES_SUCCESS` and a list. -/
def answer (status : Int) (result : Option R) : Option R := if status = 0 then result else none

def awaitResume (a : Awaiter R) : Option R := a.status.bind fun status => answer status a.result

/-- The query that an event of the resolver calls back. -/
def calls (s : Resolver) : CoioResolver.Event → Option Query
  | .issueNow => s.qlist.head?
  | .complete q => some q
  | .destroy q => some q
  | _ => none

/-- The query whose strings `ares_getaddrinfo` reads. -/
def readsName (s : Resolver) : CoioResolver.Event → Option Query
  | .issueNow => s.qlist.head?
  | .issueLater => s.qlist.head?
  | _ => none

/-- The other events: nobody submits and nobody is called back. -/
def inward : CoioResolver.Event → Bool
  | .push _ => false
  | .add _ => false
  | .issueNow => false
  | .complete _ => false
  | .destroy _ => false
  | _ => true

inductive Event (R : Type) where
  /-- `submit_query` and `await_suspend` up to the push, on the thread of context `c` -/
  | submit (c : Ctx) (arg : Ptr)
  /-- the `try_wakeup` at the end of `await_suspend` -/
  | wakeup (c : Ctx) (q : Query)
  /-- c-ares calls back -/
  | back (e : CoioResolver.Event) (t : Task R)
  | inner (e : CoioResolver.Event)
  /-- context `c` runs a task, which resumes `h`; `await_resume` gives `r` -/
  | run (c : Ctx) (t : Task R) (h : Option Nat) (r : Option R)

/-- `awaiter->ctx->post(…)`.  The worker is a remote thread of the context, and appends to
    its queue without a lock: that this is one step, and does not overlap with the loop
    that swaps the queue, is an assumption. -/
def post (s : World R) (t : Task R) : World R :=
  match s.memory t.query.arg with
  | none => { s with fault := true }
  | some a => { s with tasks := s.tasks ++ [(a.ctx, t)] }

/-- A new awaiter, with its handle set. -/
def newAwaiter (c : Ctx) (id : Nat) : Awaiter R :=
  { ctx := c, handle := some id, status := none, result := none }

/-- The awaiter as the task leaves it. -/
def answered (a : Awaiter R) (t : Task R) : Awaiter R :=
  { a with status := some t.status, result := t.result }

/-- There is no awaiter where one is used. -/
def missing (s : World R) (used : Option Query) : Bool :=
  used.any fun q => (s.memory q.arg).isNone

def step [DecidableEq R] (s : World R) : Event R → Option (World R)
  | .submit c arg =>
      if s.thread c = .free ∧ s.memory arg = none then
        (CoioResolver.step s.resolver (.push arg)).map fun r =>
          { s with
            resolver := r
            memory := Function.update s.memory arg (some (newAwaiter c s.resolver.next))
            thread := Function.update s.thread c (.suspending ⟨s.resolver.next, arg⟩) }
      else none
  | .wakeup c q =>
      if s.thread c = .suspending q then
        (CoioResolver.step s.resolver (.add q.id)).map fun r =>
          { s with
            resolver := r
            thread := Function.update s.thread c .free
            fault := s.fault || missing s (some q) }
      else none
  | .back e t =>
      if calls s.resolver e = some t.query then
        (CoioResolver.step s.resolver e).map fun r =>
          post { s with resolver := r, fault := s.fault || missing s (readsName s.resolver e) } t
      else none
  | .inner e =>
      if inward e = true then
        (CoioResolver.step s.resolver e).map fun r =>
          { s with resolver := r, fault := s.fault || missing s (readsName s.resolver e) }
      else none
  | .run c t h r =>
      if s.thread c = .free ∧ s.tasks.find? (fun x => x.1 == c) = some (c, t) then
        match s.memory t.query.arg with
        | none => some { s with fault := true }
        | some a =>
            -- a null handle would leave the awaiter waiting
            enabled (h = a.handle ∧ r = awaitResume (answered a t))
              { s with
                memory := Function.update s.memory t.query.arg
                  (if h.isSome then none else some (answered a t))
                tasks := s.tasks.eraseP (fun x => x.1 == c) }
      else none

/-- Everything a step can do. -/
inductive Step (s : World R) : Event R → World R → Prop
  | submit (c : Ctx) (arg : Ptr) (r : Resolver) (hfree : s.thread c = .free)
      (hnew : s.memory arg = none) (hr : CoioResolver.Step s.resolver (.push arg) r) :
      Step s (.submit c arg)
        { s with
          resolver := r
          memory := Function.update s.memory arg (some (newAwaiter c s.resolver.next))
          thread := Function.update s.thread c (.suspending ⟨s.resolver.next, arg⟩) }
  | wakeup (c : Ctx) (q : Query) (r : Resolver) (hin : s.thread c = .suspending q)
      (hr : CoioResolver.Step s.resolver (.add q.id) r) :
      Step s (.wakeup c q)
        { s with
          resolver := r
          thread := Function.update s.thread c .free
          fault := s.fault || missing s (some q) }
  | back (e : CoioResolver.Event) (t : Task R) (a : Awaiter R) (r : Resolver)
      (hq : calls s.resolver e = some t.query) (ha : s.memory t.query.arg = some a)
      (hr : CoioResolver.Step s.resolver e r) :
      Step s (.back e t)
        { s with
          resolver := r
          tasks := s.tasks ++ [(a.ctx, t)]
          fault := s.fault || missing s (readsName s.resolver e) }
  | strayBack (e : CoioResolver.Event) (t : Task R) (r : Resolver)
      (hq : calls s.resolver e = some t.query) (hnone : s.memory t.query.arg = none)
      (hr : CoioResolver.Step s.resolver e r) :
      Step s (.back e t) { s with resolver := r, fault := true }
  | inner (e : CoioResolver.Event) (r : Resolver) (he : inward e = true)
      (hr : CoioResolver.Step s.resolver e r) :
      Step s (.inner e)
        { s with resolver := r, fault := s.fault || missing s (readsName s.resolver e) }
  | strayRun (c : Ctx) (t : Task R) (h : Option Nat) (r : Option R)
      (ht : s.tasks.find? (fun x => x.1 == c) = some (c, t))
      (hnone : s.memory t.query.arg = none) : Step s (.run c t h r) { s with fault := true }
  | run (c : Ctx) (t : Task R) (a : Awaiter R) (hfree : s.thread c = .free)
      (ht : s.tasks.find? (fun x => x.1 == c) = some (c, t))
      (ha : s.memory t.query.arg = some a) :
      Step s (.run c t a.handle (awaitResume (answered a t)))
        { s with
          memory := Function.update s.memory t.query.arg
            (if a.handle.isSome then none else some (answered a t))
          tasks := s.tasks.eraseP (fun x => x.1 == c) }

theorem live_push {s r : Resolver} {arg : Ptr} (hr : CoioResolver.Step s (.push arg) r) :
    r.live.Perm (⟨s.next, arg⟩ :: s.live) ∧ r.next = s.next + 1 := by
  cases hr with
  | push =>
      refine ⟨?_, rfl⟩
      simp only [Resolver.live, List.append_assoc, List.singleton_append]
      exact List.perm_middle

theorem live_add {s r : Resolver} {id : Nat} (hr : CoioResolver.Step s (.add id) r) :
    r.live = s.live ∧ r.next = s.next := by
  cases hr with
  | add => exact ⟨rfl, rfl⟩

/-- A callback takes its query out. -/
theorem live_calls {s r : Resolver} {e : CoioResolver.Event} {q : Query}
    (hq : calls s e = some q) (hr : CoioResolver.Step s e r) :
    s.live.Perm (q :: r.live) ∧ r.next = s.next := by
  cases hr with
  | issueNow q' rest hlist =>
      rw [calls, hlist, List.head?_cons, Option.some.injEq] at hq
      subst hq
      refine ⟨?_, rfl⟩
      simp only [Resolver.live, hlist, List.append_assoc, List.cons_append]
      exact List.perm_middle
  | complete q' _ hmem | destroy q' _ hmem =>
      obtain rfl : q' = q := Option.some.inj hq
      refine ⟨?_, rfl⟩
      have hout := (List.perm_cons_erase hmem).append_left (s.mQueryList ++ s.qlist)
      exact hout.trans List.perm_middle
  | _ => exact absurd hq (by simp [calls])

/-- Otherwise the queries stay. -/
theorem live_inward {s r : Resolver} {e : CoioResolver.Event} (he : inward e = true)
    (hr : CoioResolver.Step s e r) : r.live.Perm s.live ∧ r.next = s.next := by
  cases hr with
  | push | add | issueNow | complete | destroy => exact absurd he (by simp [inward])
  | swap => exact ⟨List.perm_append_comm.append_right _, rfl⟩
  | issueLater q rest hlist =>
      refine ⟨?_, rfl⟩
      simp only [Resolver.live, hlist, List.append_assoc, List.cons_append]
      refine List.Perm.append_left _ ?_
      rw [← List.append_assoc]
      exact List.perm_append_singleton ..
  | _ => exact ⟨by rw [Resolver.live, Resolver.live], rfl⟩

theorem mem_live_of_reads {s : Resolver} {e : CoioResolver.Event} {q : Query}
    (hq : readsName s e = some q) : q ∈ s.live := by
  have hmem : q ∈ s.qlist := by
    cases e with
    | issueNow | issueLater => exact List.mem_of_head? hq
    | _ => exact absurd hq (by simp [readsName])
  exact List.mem_append_left _ (List.mem_append_right _ hmem)

/-! ## The awaiters -/

/-- On context `c` there is an awaiter for `q`. -/
def Waits (memory : Ptr → Option (Awaiter R)) (c : Ctx) (q : Query) : Prop :=
  ∃ a, memory q.arg = some a ∧ a.ctx = c ∧ a.handle = some q.id

theorem Waits.written {memory : Ptr → Option (Awaiter R)} {c : Ctx} {q : Query} {p : Ptr}
    {x : Option (Awaiter R)} (h : Waits memory c q) (hne : q.arg ≠ p) :
    Waits (Function.update memory p x) c q := by
  obtain ⟨a, ha, hrest⟩ := h
  refine ⟨a, ?_, hrest⟩
  rw [Function.update_of_ne hne]
  exact ha

theorem Waits.elsewhere {memory : Ptr → Option (Awaiter R)} {c : Ctx} {q : Query} {p : Ptr}
    (h : Waits memory c q) (hnone : memory p = none) : q.arg ≠ p := by
  intro heq
  obtain ⟨a, ha, -⟩ := h
  rw [heq, hnone] at ha
  exact absurd ha (by simp)

/-- The queries whose coroutines have not been resumed. -/
def World.pending (s : World R) : List Query := s.resolver.live ++ s.tasks.map fun x => x.2.query

/-- What every reachable state keeps. -/
structure Inv (s : World R) : Prop where
  ok : s.fault = false
  waits : ∀ q ∈ s.pending, ∃ c, Waits s.memory c q
  /-- the task is in the queue of the context that the awaiter was made on -/
  posted : ∀ x ∈ s.tasks, Waits s.memory x.1 x.2.query
  inside : ∀ c q, s.thread c = .suspending q → Waits s.memory c q
  apart : (s.pending.map Query.arg).Nodup

/-- What an event adds to the queries, and what it resumes. -/
def asks (s : World R) : Event R → List Query
  | .submit _ arg => [⟨s.resolver.next, arg⟩]
  | _ => []

def resumes : Event R → List Query
  | .run _ t _ _ => [t.query]
  | _ => []

theorem missing_eq_false {s : World R} {used : Option Query}
    (h : ∀ q, used = some q → ∃ c, Waits s.memory c q) : missing s used = false := by
  cases used with
  | none => rfl
  | some q =>
      obtain ⟨c, a, ha, -⟩ := h q rfl
      simp [missing, ha]

section Steps

variable {s s' : World R} {e : Event R}

theorem Inv.mem_live (h : Inv s) {q : Query} (hq : q ∈ s.resolver.live) :
    ∃ c, Waits s.memory c q :=
  h.waits q (List.mem_append_left _ hq)

theorem Inv.reads_there (h : Inv s) (e : CoioResolver.Event) :
    missing s (readsName s.resolver e) = false :=
  missing_eq_false fun _ hq => h.mem_live (mem_live_of_reads hq)

/-- The worker calls back an awaiter that is there. -/
theorem Inv.called_there (h : Inv s) {e : CoioResolver.Event} {t : Task R} {r : Resolver}
    (hq : calls s.resolver e = some t.query) (hr : CoioResolver.Step s.resolver e r) :
    ∃ c, Waits s.memory c t.query :=
  h.mem_live ((live_calls hq hr).1.mem_iff.mpr List.mem_cons_self)

/-- The next task of a context. -/
theorem next_task {c : Ctx} {t : Task R}
    (ht : s.tasks.find? (fun x => x.1 == c) = some (c, t)) :
    s.tasks.Perm ((c, t) :: s.tasks.eraseP fun x => x.1 == c) := by
  obtain ⟨-, l₁, l₂, hl, hbefore⟩ := List.find?_eq_some_iff_append.mp ht
  have hskip : ∀ x ∈ l₁, ¬ (x.1 == c) = true := by
    intro x hx
    simpa using hbefore x hx
  rw [hl, List.eraseP_append_right _ hskip, List.eraseP_cons_of_pos (by simp)]
  exact List.perm_middle

/-- **EVERY QUERY IS KEPT** until its coroutine is resumed. -/
theorem pending_step (h : Inv s) (hs : Step s e s') :
    (s'.pending ++ resumes e).Perm (asks s e ++ s.pending) := by
  cases hs with
  | submit c arg r _ _ hr =>
      simpa [asks, resumes, World.pending] using (live_push hr).1.append_right _
  | wakeup c q r _ hr => simp [asks, resumes, World.pending, (live_add hr).1]
  | inner e r he hr =>
      simpa [asks, resumes, World.pending] using (live_inward he hr).1.append_right _
  | back e t a r hq _ hr =>
      have hlive := (live_calls hq hr).1
      simp only [asks, resumes, World.pending, List.map_append, List.map_cons, List.map_nil,
        List.append_nil, List.nil_append]
      -- the query goes from the front of the live ones to the end of the tasks
      refine List.Perm.trans ?_ (hlive.symm.append_right _)
      rw [← List.append_assoc]
      exact List.perm_append_singleton ..
  | strayBack e t r hq hnone hr =>
      obtain ⟨c, hc⟩ := h.called_there hq hr
      exact absurd rfl (hc.elsewhere hnone)
  | strayRun c t _ _ ht hnone =>
      exact absurd rfl ((h.posted _ (List.mem_of_find?_eq_some ht)).elsewhere hnone)
  | run c t a _ ht _ =>
      have htasks := (next_task ht).map fun x => x.2.query
      simp only [asks, resumes, World.pending, List.nil_append, List.append_assoc]
      refine List.Perm.append_left _ (List.Perm.trans ?_ htasks.symm)
      exact List.perm_append_singleton ..

theorem Inv.new_apart (h : Inv s) (hs : Step s e s') :
    ((asks s e ++ s.pending).map Query.arg).Nodup := by
  cases hs with
  | submit c arg r _ hnew hr =>
      refine List.nodup_cons.mpr ⟨?_, h.apart⟩
      intro hmem
      obtain ⟨q, hq, hqarg⟩ := List.mem_map.mp hmem
      obtain ⟨c', hc'⟩ := h.waits q hq
      exact hc'.elsewhere hnew hqarg
  | _ => exact h.apart

theorem Inv.step (h : Inv s) (hs : Step s e s') : Inv s' := by
  have hpending := pending_step h hs
  have hapart := (hpending.map Query.arg).nodup_iff.mpr (h.new_apart hs)
  have hapart' : (s'.pending.map Query.arg).Nodup := by
    rw [List.map_append] at hapart
    exact hapart.of_append_left
  have hmem : ∀ q ∈ s'.pending, q ∈ asks s e ∨ q ∈ s.pending := by
    intro q hq
    exact List.mem_append.mp (hpending.mem_iff.mp (List.mem_append_left _ hq))
  cases hs with
  | submit c arg r hfree hnew hr =>
      have hself : Waits (Function.update s.memory arg
          (some (newAwaiter (R := R) c s.resolver.next))) c ⟨s.resolver.next, arg⟩ :=
        ⟨_, Function.update_self .., rfl, rfl⟩
      refine ⟨h.ok, ?_, ?_, ?_, hapart'⟩
      · intro q hq
        rcases hmem q hq with hq | hq
        · obtain rfl := List.mem_singleton.mp hq
          exact ⟨c, hself⟩
        · obtain ⟨c', hc'⟩ := h.waits q hq
          exact ⟨c', hc'.written (hc'.elsewhere hnew)⟩
      · intro x hx
        exact (h.posted x hx).written ((h.posted x hx).elsewhere hnew)
      · intro c' q hin
        rcases update_cases (· = Activity.suspending q) hin with ⟨rfl, hq⟩ | ⟨-, hold⟩
        · obtain rfl := Activity.suspending.inj hq
          exact hself
        · exact (h.inside c' q hold).written ((h.inside c' q hold).elsewhere hnew)
  | wakeup c q r hin hr =>
      refine ⟨?_, ?_, h.posted, ?_, hapart'⟩
      · -- the thread is still inside, so the awaiter is still there
        have hthere : missing s (some q) = false := by
          refine missing_eq_false ?_
          rintro _ ⟨⟩
          exact ⟨c, h.inside c q hin⟩
        exact Bool.or_eq_false_iff.mpr ⟨h.ok, hthere⟩
      · intro q' hq'
        exact h.waits q' ((hmem q' hq').resolve_left List.not_mem_nil)
      · intro c' q' hin'
        exact h.inside c' q' (of_update (· = Activity.suspending q') (by simp) hin')
  | inner e r he hr =>
      refine ⟨Bool.or_eq_false_iff.mpr ⟨h.ok, h.reads_there e⟩, ?_, h.posted, h.inside, hapart'⟩
      intro q hq
      exact h.waits q ((hmem q hq).resolve_left List.not_mem_nil)
  | back e t a r hq ha hr =>
      refine ⟨Bool.or_eq_false_iff.mpr ⟨h.ok, h.reads_there e⟩, ?_, ?_, h.inside, hapart'⟩
      · intro q hq
        exact h.waits q ((hmem q hq).resolve_left List.not_mem_nil)
      · intro x hx
        rcases List.mem_append.mp hx with hx | hx
        · exact h.posted x hx
        · obtain rfl := List.mem_singleton.mp hx
          obtain ⟨c, a', ha', -, hhandle⟩ := h.called_there hq hr
          rw [ha, Option.some.injEq] at ha'
          exact ⟨a, ha, rfl, ha' ▸ hhandle⟩
  | strayBack e t r hq hnone hr =>
      obtain ⟨c, hc⟩ := h.called_there hq hr
      exact absurd rfl (hc.elsewhere hnone)
  | strayRun c t _ _ ht hnone =>
      exact absurd rfl ((h.posted _ (List.mem_of_find?_eq_some ht)).elsewhere hnone)
  | run c t a hfree ht ha =>
      have hown := h.posted _ (List.mem_of_find?_eq_some ht)
      have hother : ∀ q ∈ s.resolver.live ++ (s.tasks.eraseP fun x => x.1 == c).map
          (fun x => x.2.query), q.arg ≠ t.query.arg := by
        intro q hq heq
        rw [List.map_append, List.nodup_append] at hapart
        exact hapart.2.2 q.arg (List.mem_map_of_mem hq) t.query.arg
          (List.mem_map_of_mem List.mem_cons_self) heq
      refine ⟨h.ok, ?_, ?_, ?_, hapart'⟩
      · intro q hq
        obtain ⟨c', hc'⟩ := h.waits q ((hmem q hq).resolve_left List.not_mem_nil)
        exact ⟨c', hc'.written (hother q hq)⟩
      · intro x hx
        refine (h.posted x (List.mem_of_mem_eraseP hx)).written (hother x.2.query ?_)
        exact List.mem_append_right _ (List.mem_map_of_mem hx)
      · intro c' q hin
        refine (h.inside c' q hin).written ?_
        intro heq
        -- the awaiter is on the context that runs the task, which is not inside
        obtain ⟨a', ha', hctx, -⟩ := h.inside c' q hin
        obtain ⟨a'', ha'', hctx', -⟩ := hown
        rw [heq, ha''] at ha'
        obtain rfl := Option.some.inj ha'
        rw [← hctx, hctx', hfree] at hin
        exact absurd hin (by simp)

end Steps

/-! ## Whose answer it is -/

def submission : Event R → Option (Ctx × Ptr)
  | .submit c arg => some (c, arg)
  | _ => none

/-- The submissions of a run in order: the context and the address. -/
def submissions (tr : List (Event R)) : List (Ctx × Ptr) := tr.filterMap submission

/-- The queries of these submissions. -/
def asked (tr : List (Event R)) : List Query := (submissions tr).mapIdx fun id x => ⟨id, x.2⟩

/-- The queries whose coroutines a run has resumed, in order. -/
def resumed (tr : List (Event R)) : List Query := tr.flatMap resumes

/-- What is resumed is the coroutine of the query, on the context of its submission, and
    it gets what c-ares has said about the query. -/
structure Own (tr : List (Event R)) (c : Ctx) (t : Task R) (h : Option Nat) (r : Option R) :
    Prop where
  handle : h = some t.query.id
  submitted : (submissions tr)[t.query.id]? = some (c, t.query.arg)
  called : ∃ e, .back e t ∈ tr
  result : r = answer t.status t.result

theorem submissions_snoc (tr : List (Event R)) (e : Event R) :
    submissions (tr ++ [e]) = submissions tr ++ (submission e).toList := by
  rw [submissions, List.filterMap_append, submissions]
  cases h : submission e <;> simp [h]

theorem asked_snoc (tr : List (Event R)) (e : Event R) (s : World R)
    (hnext : s.resolver.next = (submissions tr).length) :
    asked (tr ++ [e]) = asked tr ++ asks s e := by
  rw [asked, submissions_snoc, List.mapIdx_append, asked]
  cases e <;> simp [submission, asks, hnext]

theorem resumed_snoc (tr : List (Event R)) (e : Event R) :
    resumed (tr ++ [e]) = resumed tr ++ resumes e := by
  rw [resumed, List.flatMap_append, List.flatMap_singleton, resumed]

/-- An earlier submission keeps its number. -/
theorem submission_kept {tr : List (Event R)} {i : Nat} {x : Ctx × Ptr}
    (h : (submissions tr)[i]? = some x) (e : Event R) :
    (submissions (tr ++ [e]))[i]? = some x := by
  obtain ⟨hi, -⟩ := List.getElem?_eq_some_iff.mp h
  rw [submissions_snoc, List.getElem?_append_left hi, h]

theorem Own.later {tr : List (Event R)} {c : Ctx} {t : Task R} {h : Option Nat} {r : Option R}
    (hown : Own tr c t h r) (e : Event R) : Own (tr ++ [e]) c t h r := by
  obtain ⟨e', he'⟩ := hown.called
  exact ⟨hown.handle, submission_kept hown.submitted e, ⟨e', List.mem_append_left _ he'⟩,
    hown.result⟩

/-- What every run keeps between its events and its state. -/
structure Story (tr : List (Event R)) (s : World R) : Prop where
  inv : Inv s
  next_eq : s.resolver.next = (submissions tr).length
  kept : (s.pending ++ resumed tr).Perm (asked tr)
  made : ∀ p a id, s.memory p = some a → a.handle = some id →
    (submissions tr)[id]? = some (a.ctx, p)
  called : ∀ x ∈ s.tasks, ∃ e, .back e x.2 ∈ tr
  own : ∀ c t h r, .run c t h r ∈ tr → Own tr c t h r

section Steps

variable {tr : List (Event R)} {s s' : World R} {e : Event R}

theorem next_step (hs : Step s e s') :
    s'.resolver.next = s.resolver.next + (submission e).toList.length := by
  cases hs with
  | submit c arg r _ _ hr => exact (live_push hr).2
  | wakeup c q r _ hr => exact (live_add hr).2
  | back e t a r hq _ hr => exact (live_calls hq hr).2
  | strayBack e t r hq _ hr => exact (live_calls hq hr).2
  | inner e r he hr => exact (live_inward he hr).2
  | strayRun => rfl
  | run => rfl

/-- An awaiter was there before, or has just been made. -/
theorem memory_step (hs : Step s e s') {p : Ptr} {a : Awaiter R} {id : Nat}
    (ha : s'.memory p = some a) (hid : a.handle = some id) :
    s.memory p = some a ∨ (id = s.resolver.next ∧ submission e = some (a.ctx, p)) := by
  cases hs with
  | submit c arg r =>
      rcases update_cases (· = some a) ha with ⟨rfl, hnew⟩ | ⟨-, hold⟩
      · obtain rfl := Option.some.inj hnew
        exact .inr ⟨(Option.some.inj hid).symm, rfl⟩
      · exact .inl hold
  | run c t a' _ _ ha' =>
      rcases update_cases (· = some a) ha with ⟨rfl, hnew⟩ | ⟨-, hold⟩
      · -- only an awaiter without a handle would stay
        split at hnew
        · exact absurd hnew (by simp)
        · rename_i hnone
          obtain rfl := Option.some.inj hnew
          exact absurd (Option.isSome_of_eq_some hid) hnone
      · exact .inl hold
  | _ => exact .inl ha

theorem Story.made_step (h : Story tr s) (hs : Step s e s') (p : Ptr) (a : Awaiter R) (id : Nat)
    (ha : s'.memory p = some a) (hid : a.handle = some id) :
    (submissions (tr ++ [e]))[id]? = some (a.ctx, p) := by
  rcases memory_step hs ha hid with hold | ⟨rfl, hsub⟩
  · exact submission_kept (h.made p a id hold hid) e
  · rw [submissions_snoc, h.next_eq, hsub]
    exact List.getElem?_concat_length

/-- A task that is run resumes what it should. -/
theorem Story.own_step (h : Story tr s) {c : Ctx} {t : Task R} {handle : Option Nat}
    {r : Option R} (hs : Step s (.run c t handle r) s') : Own tr c t handle r := by
  cases hs with
  | strayRun _ _ _ _ ht hnone =>
      exact absurd rfl ((h.inv.posted _ (List.mem_of_find?_eq_some ht)).elsewhere hnone)
  | run _ _ a _ ht ha =>
      have hmem := List.mem_of_find?_eq_some ht
      obtain ⟨a', ha', hctx, hhandle⟩ := h.inv.posted _ hmem
      rw [ha, Option.some.injEq] at ha'
      subst ha'
      obtain rfl : a.ctx = c := hctx
      exact ⟨hhandle, h.made _ a _ ha hhandle, h.called _ hmem, rfl⟩

theorem Story.step (h : Story tr s) (hs : Step s e s') : Story (tr ++ [e]) s' := by
  refine ⟨h.inv.step hs, ?_, ?_, h.made_step hs, ?_, ?_⟩
  · rw [next_step hs, submissions_snoc, List.length_append, h.next_eq]
  · rw [resumed_snoc, asked_snoc tr e s h.next_eq]
    calc
      _ = s'.pending ++ resumed tr ++ resumes e := (List.append_assoc ..).symm
      List.Perm _ (s'.pending ++ resumes e ++ resumed tr) := by
        simp only [List.append_assoc]
        exact List.perm_append_comm.append_left _
      List.Perm _ (asks s e ++ s.pending ++ resumed tr) :=
        (pending_step h.inv hs).append_right _
      List.Perm _ (asked tr ++ asks s e) := by
        rw [List.append_assoc]
        exact (h.kept.append_left _).trans List.perm_append_comm
  · intro x hx
    have hcalled : x ∈ s.tasks ∨ ∃ e', e = .back e' x.2 := by
      cases hs with
      | back e' t a =>
          refine (List.mem_append.mp hx).imp id ?_
          intro hx
          obtain rfl := List.mem_singleton.mp hx
          exact ⟨e', rfl⟩
      | run => exact .inl (List.mem_of_mem_eraseP hx)
      | _ => exact .inl hx
    rcases hcalled with hx | ⟨e', rfl⟩
    · obtain ⟨e', he'⟩ := h.called x hx
      exact ⟨e', List.mem_append_left _ he'⟩
    · exact ⟨e', List.mem_append_right _ List.mem_cons_self⟩
  · intro c t handle r hmem
    rcases List.mem_append.mp hmem with hmem | hmem
    · exact (h.own c t handle r hmem).later e
    · obtain rfl := List.mem_singleton.mp hmem
      exact (h.own_step hs).later _

end Steps

section Runs

variable [DecidableEq R]

end Runs

end CoioResolverAnswer
