import Coio.RingProofs
import Coio.TaskQueueProofs

/-! # `loop()` — what an iteration does, and when it is the last one

    Three things about `io_context::loop` that no single function shows.

    An iteration comes to its end.  `for_each_cqe` looks at the tail of the ring again
    after each completion, and user code runs inside it and inside every task.  But what
    a resumed coroutine starts is only submitted when the iteration is over, and what a
    task enqueues only goes into the next batch, so each step of the loop uses up
    something that was there before (`forward_step`).  And the loop is never stuck: when
    it sleeps, the timer that it has just submitted will wake it (`timerSet_step`).

    An iteration leaves nothing behind.  Whatever was enqueued before it has run at its
    end.

    The loop returns when it is told to, and not otherwise.  `m_is_stopped` is reset on
    entry, so a request that comes before `run()` is lost. -/

namespace CoioIoLoop

open CoioMachine CoioIoContext CoioRing CoioTaskQueue
open CoioRemoteQueue (Queue)

variable {X : Type} {n : Nat}

/-! ## An iteration comes to its end -/

/-- A step of the code of `loop()`, from its test to the next, except the call of a task. -/
def control : Event X → Bool
  | .resume .. => true
  | .skip => true
  | .seen => true
  | .cqesDone => true
  | .check _ => true
  | .swap _ => true
  | .drained _ => true
  | .nonpollSubmit => true
  | .nonpollNull => true
  | .wake => true
  | .pollSubmit => true
  | _ => false

/-- A completion is taken from the ring. -/
def takes : Event X → Bool
  | .resume .. => true
  | .skip => true
  | _ => false

/-- The operations that are completed or will be, without another submission. -/
def pending (s : State X) : Nat := s.cq.length + s.inflight.length

/-- How many of `k` pending completions `for_each_cqe` has still to take. -/
def takeAt : Pc → Nat → Nat
  | .cqes, k => k
  | .inResume, k => k - 1
  | .seen, k => k - 1
  | _, _ => 0

/-- How many steps of its own the loop has still to go, with `k` pending. -/
def goAt : Pc → Nat → Nat
  | .cqes, k => 2 * k + 12
  | .inResume, k => 2 * k + 11
  | .seen, k => 2 * k + 11
  | pc, _ => 12 - phase pc

def toTake (s : State X) : Nat := takeAt s.pc (pending s)

def toGo (s : State X) : Nat := goAt s.pc (pending s)

variable [DecidableEq X]

theorem loop_cases {s s' : State X} {e : Event X} (hs : step n s e = some s') :
    (s'.pc = s.pc ∧ control e = false) ∨ PcMove s e s.pc s'.pc := by
  rcases pc_cases hs with hstay | hmove
  · refine .inl ⟨hstay, ?_⟩
    cases e with
    | resume op a h res flag =>
        obtain ⟨c, rest, -, ⟨hpc, -⟩, rfl⟩ := resume_cases hs
        cases hstay.trans hpc
    | skip | cqesDone | drained q | nonpollSubmit | nonpollNull | wake | pollSubmit =>
        obtain ⟨⟨hpc, -⟩, rfl⟩ := enabled_eq_some.mp hs
        have hpc' := hstay.trans hpc
        first
          | cases hpc'
          | (cases q <;> cases hpc')
    | seen | swap q =>
        obtain ⟨hpc, rfl⟩ := enabled_eq_some.mp hs
        cases hstay.trans hpc
    | check q =>
        obtain ⟨hpc, rfl⟩ := enabled_eq_some.mp hs
        have hpc' : (if (s.queue q).isEmpty then afterResolve q else .swap q) = Pc.check q :=
          hstay.trans hpc
        split at hpc'
        · cases q <;> cases hpc'
        · cases hpc'
    | _ => rfl
  · exact .inr hmove

omit [DecidableEq X] in
theorem pending_complete {s : State X} (op : OpId) (res : Int32) (flags : UInt32) :
    pending (complete s op res flags) = pending s := by
  have hlength := (ring_complete s op res flags).length_eq
  obtain ⟨-, -, -, -, hsq⟩ := complete_frame s op res flags
  simp only [ring, List.length_append, List.length_map, hsq] at hlength
  unfold pending
  omega

/-- Nobody but the loop submits or takes. -/
theorem pending_step {s s' : State X} {e : Event X} (he : control e = false)
    (hs : step n s e = some s') : pending s' = pending s := by
  cases e with
  | complete op res flags =>
      obtain ⟨-, rfl⟩ := enabled_eq_some.mp hs
      exact pending_complete op res flags
  | post inLocal x | dispatch inLocal x | coSpawn inLocal x =>
      obtain ⟨-, rfl⟩ := enabled_eq_some.mp hs
      cases inLocal <;> rfl
  | loopTest =>
      obtain ⟨-, rfl⟩ := enabled_eq_some.mp hs
      obtain ⟨pc, cnt, h⟩ := loopTest_eq s
      rw [h]
      rfl
  | userReturn =>
      obtain ⟨-, rfl⟩ := enabled_eq_some.mp hs
      obtain ⟨pc, h⟩ := userReturn_eq s
      rw [h]
      rfl
  | requestStop | tokenStop token | suspendIo op a h | suspendNull a h | enterRun m | runNext q x
  | userThrow q =>
      obtain ⟨-, rfl⟩ := enabled_eq_some.mp hs
      rfl
  | _ => cases he

omit [DecidableEq X] in
theorem takes_control {e : Event X} (he : control e = false) : takes e = false := by
  cases e with
  | resume op a h res flag => cases he
  | skip => cases he
  | _ => rfl

/-- **STEP LEMMA**: inside an iteration nothing gives the loop more to do, and each step
    that it takes leaves it less. -/
theorem forward_step {s s' : State X} {e : Event X} (hI : RingInv s) (he : e ≠ .loopTest)
    (hs : step n s e = some s') :
    toGo s' + (control e).toNat ≤ toGo s ∧ toTake s' + (takes e).toNat ≤ toTake s := by
  show goAt s'.pc (pending s') + _ ≤ goAt s.pc (pending s) ∧
    takeAt s'.pc (pending s') + _ ≤ takeAt s.pc (pending s)
  rcases loop_cases hs with ⟨hstay, hquiet⟩ | hmove
  · rw [hstay, pending_step hquiet hs, hquiet, takes_control hquiet]
    exact ⟨Nat.le_refl _, Nat.le_refl _⟩
  · generalize hpc : s.pc = pc at hmove ⊢
    generalize hpc' : s'.pc = pc' at hmove ⊢
    cases hmove with
    | goOn => exact absurd rfl he
    | stop => exact absurd rfl he
    | resume op a h res flag =>
        obtain ⟨c, rest, hcq, -, rfl⟩ := resume_cases hs
        have hsame : pending (resumeCqe s c a) = pending s := rfl
        have hsome : 0 < s.cq.length := by rw [hcq]; exact Nat.succ_pos _
        simp only [goAt, takeAt, control, takes, hsame, Bool.toNat_true]
        unfold pending
        omega
    | skip =>
        obtain ⟨⟨-, c, hc, -⟩, rfl⟩ := enabled_eq_some.mp hs
        have hsame : pending { s with pc := .seen } = pending s := rfl
        have hsome : 0 < s.cq.length := List.length_pos_of_mem (List.mem_of_mem_head? hc)
        simp only [goAt, takeAt, control, takes, hsame, Bool.toNat_true]
        unfold pending
        omega
    | returnCqe =>
        rw [pending_step rfl hs]
        exact ⟨Nat.le_refl _, Nat.le_refl _⟩
    | seen =>
        obtain ⟨c, rest, hcq, -⟩ := hI.head (.inr hpc)
        obtain ⟨-, rfl⟩ := enabled_eq_some.mp hs
        have hone : pending (cqeSeen s) + 1 = pending s := by
          simp only [pending, cqeSeen, hcq, List.tail_cons, List.length_cons]
          omega
        simp only [goAt, takeAt, control, takes, Bool.toNat_true, Bool.toNat_false]
        omega
    | cqesDone =>
        simp only [goAt, takeAt, control, takes, phase, rank, Bool.toNat_true, Bool.toNat_false]
        omega
    | suspendNull a h pc hu => exact ⟨Nat.zero_le _, Nat.zero_le _⟩
    | checkEmpty q | drained q | checkSwap q | swap q | runNext q | returnTask q | throw q =>
        cases q <;> simp [goAt, takeAt, control, takes, phase, rank, afterResolve]
    | _ => simp [goAt, takeAt, control, takes, phase]

/-! ## The loop is never stuck -/

/-- A loop that sleeps has a completion to look at, or its timer runs. -/
def TimerSet (s : State X) : Prop :=
  s.pc = .wait → s.cq ≠ [] ∨ ∃ x ∈ s.inflight, x.data = none

theorem timerSet_step (s : State X) (e : Event X) (s' : State X) (hT : TimerSet s)
    (hs : step n s e = some s') : TimerSet s' := by
  intro hwait
  rcases pc_cases hs with hstay | hmove
  · have hbefore := hT (hstay.symm.trans hwait)
    cases ring_cases hs with
    | suspendIo a h he hfree hs' => exact hs' ▸ hbefore
    | nonpollSubmit he hpc hs' => cases hwait.symm.trans (hstay.trans hpc)
    | pollSubmit he hpc hs' => cases hwait.symm.trans (hstay.trans hpc)
    | complete op res flags he hmem hs' =>
        obtain ⟨data, hcq⟩ := complete_cq res flags hmem
        rw [hs', hcq]
        exact .inl (List.append_ne_nil_of_right_ne_nil _ (List.cons_ne_nil _ _))
    | resume a h c rest he hpc hcq hdata hcont hs' => cases hwait.symm.trans (hstay.trans hpc)
    | skip c rest he hpc hcq hdata hs' => cases hwait.symm.trans (hstay.trans hpc)
    | seen he hpc hs' => cases hwait.symm.trans (hstay.trans hpc)
    | quiet he hskip hseen hsq hinflight hcq hmemory hsuspended hnext =>
        rw [hcq, hinflight]
        exact hbefore
  · generalize s.pc = pc at hmove
    rw [hwait] at hmove
    generalize hpc' : Pc.wait = pc' at hmove
    cases hmove with
    | nonpollSubmit =>
        obtain ⟨-, rfl⟩ := enabled_eq_some.mp hs
        refine .inr ⟨{ op := s.nextOp, data := none }, ?_, rfl⟩
        show _ ∈ s.inflight ++ (s.sq ++ [_])
        simp
    | checkEmpty q | drained q => cases q <;> cases hpc'
    | _ => cases hpc'

theorem timerSet_run {tr : List (Event X)} {s : State X}
    (hr : run (ioMachine X n) tr = some s) : TimerSet s :=
  run_invariant (fun h => by cases h) timerSet_step hr

/-- A null submission entry is only met, and dereferenced, when the ring is full. -/
def FaultFull (n : Nat) (s : State X) : Prop := s.pc = .fault → ¬ sqeFree n s

theorem faultFull_step (s : State X) (e : Event X) (s' : State X) (hF : FaultFull n s)
    (hs : step n s e = some s') : FaultFull n s' := by
  intro hfault
  rcases pc_cases hs with hstay | hmove
  · have hbefore := hstay.symm.trans hfault
    have hsame : s'.sq = s.sq := by
      cases ring_cases hs with
      | suspendIo a h he hfree hs' =>
          subst he
          obtain ⟨⟨huser, -⟩, -⟩ := enabled_eq_some.mp hs
          rw [hbefore] at huser
          cases huser
      | nonpollSubmit he hpc hs' => cases hbefore.symm.trans hpc
      | pollSubmit he hpc hs' => cases hbefore.symm.trans hpc
      | complete op res flags he hmem hs' =>
          obtain ⟨-, -, -, -, hsq⟩ := complete_frame s op res flags
          rw [hs', hsq]
      | resume a h c rest he hpc hcq hdata hcont hs' => cases hbefore.symm.trans hpc
      | skip c rest he hpc hcq hdata hs' => cases hbefore.symm.trans hpc
      | seen he hpc hs' => cases hbefore.symm.trans hpc
      | quiet he hskip hseen hsq hinflight hcq hmemory hsuspended hnext => exact hsq
    rw [sqeFree, hsame]
    exact hF hbefore
  · generalize s.pc = pc at hmove
    rw [hfault] at hmove
    generalize hpc' : Pc.fault = pc' at hmove
    cases hmove with
    | nonpollNull =>
        obtain ⟨⟨-, -, hfull⟩, rfl⟩ := enabled_eq_some.mp hs
        exact hfull
    | suspendNull a h pc hu =>
        obtain ⟨⟨-, -, hfull⟩, rfl⟩ := enabled_eq_some.mp hs
        exact hfull
    | checkEmpty q | drained q => cases q <;> cases hpc'
    | _ => cases hpc'

theorem faultFull_run {tr : List (Event X)} {s : State X}
    (hr : run (ioMachine X n) tr = some s) : FaultFull n s :=
  run_invariant (fun h => by cases h) faultFull_step hr

/-- The loop thread can take a step of the loop: one of its own, or the call of a task. -/
def LoopCanStep (n : Nat) (s : State X) : Prop :=
  ∃ e s', step n s e = some s' ∧ (control e = true ∨ ∃ q x, e = .runNext q x)

/-- Why the loop thread, outside of user code, does not go on: it sleeps and the completion
    of its timer will wake it, or a full ring has given it a null entry. -/
def Held (n : Nat) (s : State X) : Prop :=
  (s.pc = .wait ∧ ∃ x ∈ s.inflight, x.data = none) ∨ (s.pc = .fault ∧ ¬ sqeFree n s)

/-- **PROGRESS**: outside of user code the loop can go on, except when it is held. -/
theorem loop_goes_on {tr : List (Event X)} {s : State X}
    (hr : run (ioMachine X n) tr = some s) (huser : s.pc.inUser = false)
    (htest : s.pc ≠ .test) : LoopCanStep n s ∨ Held n s := by
  have hgo : ∀ {e s'}, step n s e = some s' → control e = true → LoopCanStep n s ∨ Held n s :=
    fun hs hc => .inl ⟨_, _, hs, .inl hc⟩
  obtain ⟨pc, hpc⟩ : ∃ pc, s.pc = pc := ⟨_, rfl⟩
  cases pc with
  | outside | inResume | inTask q => rw [hpc] at huser; cases huser
  | fault => exact .inr (.inr ⟨hpc, faultFull_run hr hpc⟩)
  | test => exact absurd hpc htest
  | cqes =>
      cases hcq : s.cq with
      | nil => exact hgo (e := .cqesDone) (enabled_eq_some.mpr ⟨⟨hpc, hcq⟩, rfl⟩) rfl
      | cons c rest =>
          have hc : c ∈ s.cq := by rw [hcq]; exact List.mem_cons_self
          cases hdata : c.data with
          | none =>
              refine hgo (e := .skip) (enabled_eq_some.mpr ⟨⟨hpc, c, ?_, hdata⟩, rfl⟩) rfl
              rw [hcq]
              rfl
          | some a =>
              have howner := (ringInv_run hr).head_owner hpc hc hdata
              obtain ⟨h, hcont, -⟩ := (traceInv_run tr s hr).handle a c.op howner
              exact hgo (resume_enabled hpc hcq hdata hcont) rfl
  | seen => exact hgo (e := .seen) (enabled_eq_some.mpr ⟨hpc, rfl⟩) rfl
  | check q => exact hgo (e := .check q) (enabled_eq_some.mpr ⟨hpc, rfl⟩) rfl
  | swap q => exact hgo (e := .swap q) (enabled_eq_some.mpr ⟨hpc, rfl⟩) rfl
  | drain q =>
      cases hb : s.batch q with
      | nil => exact hgo (e := .drained q) (enabled_eq_some.mpr ⟨⟨hpc, hb⟩, rfl⟩) rfl
      | cons x rest =>
          refine .inl ⟨.runNext q x, _, enabled_eq_some.mpr ⟨⟨hpc, ?_⟩, rfl⟩, .inr ⟨q, x, rfl⟩⟩
          rw [hb]
          rfl
  | submit =>
      by_cases hmode : s.mode = .poll
      · exact hgo (e := .pollSubmit) (enabled_eq_some.mpr ⟨⟨hpc, hmode⟩, rfl⟩) rfl
      · by_cases hfree : sqeFree n s
        · exact hgo (e := .nonpollSubmit) (enabled_eq_some.mpr ⟨⟨hpc, hmode, hfree⟩, rfl⟩) rfl
        · exact hgo (e := .nonpollNull) (enabled_eq_some.mpr ⟨⟨hpc, hmode, hfree⟩, rfl⟩) rfl
  | wait =>
      rcases timerSet_run hr hpc with hcq | htimer
      · exact hgo (e := .wake) (enabled_eq_some.mpr ⟨⟨hpc, hcq⟩, rfl⟩) rfl
      · exact .inr (.inl ⟨hpc, htimer⟩)

/-! ## What an iteration runs -/

/-- Until it is swapped, a queue has what it had and what is enqueued. -/
theorem queue_grows {q : Queue} {s : State X} :
    ∀ (es : List (Event X)) (t : State X), runFrom (ioMachine X n) s es = some t →
      .swap q ∉ es → t.queue q = s.queue q ++ enqueued q es := by
  refine runFrom_history ?_ ?_
  · intro _
    exact (List.append_nil _).symm
  · intro es t e t' hr ih hs hno
    rw [List.mem_append, not_or, List.mem_singleton] at hno
    rw [enqueued_snoc, ← List.append_assoc, ← ih hno.1]
    cases queue_cases hs with
    | swap q' he hpc hs' =>
        subst he
        subst hs'
        have hq : q ≠ q' := fun h => hno.2 (congrArg Event.swap h)
        show Function.update t.queue q' [] q = t.queue q ++ []
        rw [Function.update_of_ne hq, List.append_nil]
    | runNext q' x rest he hpc hb hs' =>
        subst he
        subst hs'
        exact (List.append_nil _).symm
    | throw q' he hpc hs' =>
        subst he
        subst hs'
        exact (List.append_nil _).symm
    | quiet hb hq hr' hswap hthrow => exact hq q

/-- A batch is not added to: what runs of it, and what is left, is an initial part of it;
    only a throw drops the rest. -/
theorem batch_shrinks {q : Queue} {s : State X} :
    ∀ (es : List (Event X)) (t : State X), runFrom (ioMachine X n) s es = some t →
      .swap q ∉ es → ran q es ++ t.batch q <+: s.batch q := by
  refine runFrom_history ?_ ?_
  · intro _
    exact List.prefix_refl _
  · intro es t e t' hr ih hs hno
    rw [List.mem_append, not_or, List.mem_singleton] at hno
    have hbefore := ih hno.1
    rw [ran_snoc, List.append_assoc]
    by_cases hthrow : ∃ q', e = .userThrow q'
    · obtain ⟨q', rfl⟩ := hthrow
      obtain ⟨-, rfl⟩ := enabled_eq_some.mp hs
      refine List.IsPrefix.trans ?_ hbefore
      refine (List.prefix_append_right_inj _).mpr ?_
      show Function.update t.batch q' [] q <+: t.batch q
      by_cases hq : q = q'
      · subst hq
        rw [Function.update_self]
        exact List.nil_prefix
      · rw [Function.update_of_ne hq]
    · rw [← batch_step (Ne.symm hno.2) (fun q' h => hthrow ⟨q', h⟩) hs]
      exact hbefore

/-- What runs of a queue in one iteration are the first of the items that were enqueued
    before the iteration took it, in their order. -/
theorem runs_before_swap {tr before after : List (Event X)} {q : Queue} {s t : State X}
    (hs : run (ioMachine X n) tr = some s)
    (ht : runFrom (ioMachine X n) s (.loopTest :: (before ++ Event.swap q :: after)) = some t)
    (hno : Event.loopTest ∉ before ++ Event.swap q :: after) :
    ran q (before ++ Event.swap q :: after) <+: s.queue q ++ enqueued q before := by
  have hwhole : run (ioMachine X n)
      (tr ++ [Event.loopTest] ++ before ++ [Event.swap q] ++ after) = some t := by
    rw [show tr ++ [Event.loopTest] ++ before ++ [Event.swap q] ++ after
      = tr ++ Event.loopTest :: (before ++ Event.swap q :: after) by simp]
    exact runFrom_append_some.mpr ⟨s, hs, ht⟩
  have honce : ∀ mid mid',
      mid ++ [Event.swap q] ++ mid' ++ [Event.swap q] <+: before ++ Event.swap q :: after →
        False := by
    intro mid mid' hp
    have hp' : tr ++ [Event.loopTest] ++ mid ++ [Event.swap q] ++ mid' ++ [Event.swap q]
        <+: tr ++ [Event.loopTest] ++ before ++ [Event.swap q] ++ after := by
      simpa using hp
    refine hno (hp.subset ?_)
    have hin := one_swap hwhole hp'
    simp [hin]
  have hbefore : Event.swap q ∉ before := by
    intro hin
    obtain ⟨mid, mid', rfl⟩ := List.append_of_mem hin
    exact honce mid mid' ⟨after, by simp⟩
  have hafter : Event.swap q ∉ after := by
    intro hin
    obtain ⟨mid, mid', rfl⟩ := List.append_of_mem hin
    exact honce before mid ⟨mid', by simp⟩
  obtain ⟨u, hu, hrest⟩ := runFrom_append_some.mp
    (show runFrom (ioMachine X n) s ((Event.loopTest :: before) ++ (Event.swap q :: after)) = some t
      from ht)
  obtain ⟨v, hswap, hlast⟩ := runFrom_cons_some.mp hrest
  obtain ⟨-, rfl⟩ := enabled_eq_some.mp hswap
  have hstart : tr ++ [Event.loopTest] ++ before
      <+: tr ++ [Event.loopTest] ++ before ++ [Event.swap q] ++ after :=
    ⟨[Event.swap q] ++ after, by simp⟩
  have hnone : ran q before = [] := no_swap_no_run hwhole hstart hbefore
  have hran : ran q (before ++ Event.swap q :: after) = ran q after := by
    rw [ran, List.flatMap_append, show before.flatMap (ranBy q) = [] from hnone]
    rfl
  have hbatch : (swapQueue u q).batch q = u.queue q := Function.update_self _ _ _
  have hdrain := batch_shrinks after t hlast hafter
  have htaken := queue_grows (q := q) _ u hu (by simp [hbefore])
  have henq : enqueued q (Event.loopTest :: before) = enqueued q before := rfl
  rw [hbatch, htaken, henq] at hdrain
  rw [hran]
  exact (List.prefix_append ..).trans hdrain

/-- The state behind a test that succeeds. -/
theorem after_test {s s' : State X} (hgo : goesOn s = true) (hs : step n s .loopTest = some s') :
    s' = { s with pc := .cqes, cnt := s.cq.length } := by
  obtain ⟨-, rfl⟩ := enabled_eq_some.mp hs
  exact if_pos hgo

/-- **AN ITERATION ENDS**: from one test of the loop to the next, the loop takes no more
    completions than there were operations completed or in flight, makes a bounded number
    of steps besides the calls of tasks, and calls of each queue only items that were
    enqueued before it was taken, in their order.  And as long as it has not come to the
    next test, it can go on whenever it is not in user code; or it sleeps with its timer
    running, or has dereferenced the null entry of a full ring. -/
theorem iteration_ends (n : Nat) (tr mid : List (Event X)) (s t : State X)
    (hs : run (ioMachine X n) tr = some s) (hgo : goesOn s = true)
    (ht : runFrom (ioMachine X n) s (.loopTest :: mid) = some t) (hno : Event.loopTest ∉ mid) :
    mid.countP takes ≤ s.cq.length + s.inflight.length ∧
    mid.countP control ≤ 2 * (s.cq.length + s.inflight.length) + 12 ∧
    (∀ q, Event.swap q ∉ mid → ran q mid = []) ∧
    (∀ q (before after : List (Event X)), mid = before ++ Event.swap q :: after →
      ran q mid <+: s.queue q ++ enqueued q before) ∧
    (t.pc.inUser = false → t.pc ≠ .test → LoopCanStep n t ∨ Held n t) := by
  obtain ⟨s', htest, hmid⟩ := runFrom_cons_some.mp ht
  have hs' : run (ioMachine X n) (tr ++ [Event.loopTest]) = some s' :=
    runFrom_snoc.mpr ⟨s, hs, htest⟩
  have hwhole : run (ioMachine X n) (tr ++ [Event.loopTest] ++ mid) = some t :=
    runFrom_append_some.mpr ⟨s', hs', hmid⟩
  have hother : ∀ e ∈ mid, e ≠ .loopTest := fun e he h => hno (h ▸ he)
  have hstart := after_test (n := n) hgo htest
  have hforward : ∀ s e s', RingInv s → e ≠ .loopTest → (ioMachine X n).step s e = some s' →
      toGo s' + (control e).toNat ≤ toGo s ∧ toTake s' + (takes e).toNat ≤ toTake s :=
    fun _ _ _ hI he hstep => forward_step hI he hstep
  have htakes := runFrom_countdown ringInv_step (fun s e s' hI he h => (hforward s e s' hI he h).2)
    (ringInv_run hs') mid t hmid hother
  have hsteps := runFrom_countdown ringInv_step (fun s e s' hI he h => (hforward s e s' hI he h).1)
    (ringInv_run hs') mid t hmid hother
  rw [hstart] at htakes hsteps
  refine ⟨(Nat.le_add_left _ _).trans htakes, (Nat.le_add_left _ _).trans hsteps, ?_, ?_,
    loop_goes_on hwhole⟩
  · intro q hq
    exact no_swap_no_run hwhole (List.prefix_refl _) hq
  · rintro q before after rfl
    exact runs_before_swap hs ht hno

/-- A loop whose first iteration has submitted one operation and its timer, and sleeps until
    the timer; then another thread posts. -/
def oneInFlight : List (Event Nat) :=
  [.suspendIo 0 100 7, .enterRun .run, .loopTest, .cqesDone, .check .remoteSpawn,
    .check .remoteTasks, .check .localTasks, .nonpollSubmit, .complete 1 (-62) 0, .wake,
    .post false 2]

/-- The iteration after that: it skips the timer, resumes the coroutine, whose operation is
    completed in between, and runs what this and a task post. -/
def resumeAndPost : List (Event Nat) :=
  [.skip, .seen, .complete 0 5 0, .resume 0 100 7 5 0, .post true 3, .userReturn, .seen,
    .cqesDone, .check .remoteSpawn, .check .remoteTasks, .swap .remoteTasks,
    .runNext .remoteTasks 2, .post true 4, .userReturn, .drained .remoteTasks, .check .localTasks,
    .swap .localTasks, .runNext .localTasks 3, .post true 5, .userReturn, .runNext .localTasks 4,
    .userReturn, .drained .localTasks, .nonpollSubmit]

theorem iteration_ends_resumeAndPost :
    ∃ s t, run (ioMachine Nat 4) oneInFlight = some s ∧
      runFrom (ioMachine Nat 4) s (.loopTest :: resumeAndPost) = some t ∧
      resumeAndPost.countP takes = 2 ∧ s.cq.length + s.inflight.length = 2 ∧
      ran .localTasks resumeAndPost = [3, 4] ∧ ran .localTasks resumeAndPost <+: [3, 4] ∧
      (LoopCanStep 4 t ∨ Held 4 t) := by
  obtain ⟨s, hs⟩ : ∃ s, run (ioMachine Nat 4) oneInFlight = some s := ⟨_, rfl⟩
  obtain ⟨t, ht, hpc⟩ : ∃ t,
      runFrom (ioMachine Nat 4) s (.loopTest :: resumeAndPost) = some t ∧ t.pc = .wait := by
    cases hs
    exact ⟨_, rfl, rfl⟩
  have hgo : goesOn s = true ∧ s.cq.length + s.inflight.length = 2 ∧
      s.queue .localTasks = [] := by
    cases hs
    exact ⟨rfl, rfl, rfl⟩
  obtain ⟨-, -, -, hruns, hheld⟩ := iteration_ends 4 _ resumeAndPost s t hs hgo.1 ht (by decide)
  have hrun := hruns .localTasks (resumeAndPost.take 16) (resumeAndPost.drop 17) rfl
  rw [hgo.2.2] at hrun
  exact ⟨s, t, hs, ht, by decide, hgo.2.1, by decide, hrun,
    hheld (by rw [hpc]; rfl) (by rw [hpc]; intro h; cases h)⟩

/-! ## An iteration leaves nothing behind -/

/-- The loop thread is not inside `loop()`. -/
def Out (s : State X) : Prop := s.pc = .outside ∨ s.pc = .fault

/-- Out of the loop, nothing of it is done. -/
theorem out_step {s s' : State X} {e : Event X} (hout : Out s) (he : ∀ m, e ≠ .enterRun m)
    (hs : step n s e = some s') :
    Out s' ∧ control e = false ∧ e ≠ .loopTest ∧ ∀ q, ranBy q e = [] := by
  rcases loop_cases hs with ⟨hstay, hquiet⟩ | hmove
  · refine ⟨?_, hquiet, ?_, ?_⟩
    · rw [Out, hstay]
      exact hout
    · rintro rfl
      obtain ⟨hpc, -⟩ := enabled_eq_some.mp hs
      rw [Out, hpc] at hout
      rcases hout with h | h <;> cases h
    · intro q
      cases queue_cases hs with
      | runNext q' x rest he hpc hb hs' =>
          rw [Out, hpc] at hout
          rcases hout with h | h <;> cases h
      | swap q' he => rw [he]; rfl
      | throw q' he => rw [he]; rfl
      | quiet hb hq hr hswap hthrow => exact hr q
  · generalize hpc : s.pc = pc at hmove
    generalize hpc' : s'.pc = pc' at hmove
    rw [Out, hpc] at hout
    cases hmove with
    | enterRun m => exact absurd rfl (he m)
    | suspendNull a h pc hu => exact ⟨.inr hpc', rfl, (by intro h; cases h), fun q => rfl⟩
    | _ => rcases hout with h | h <;> cases h

theorem out_run {s : State X} (hout : Out s) :
    ∀ (es : List (Event X)) (t : State X), runFrom (ioMachine X n) s es = some t →
      (∀ m, .enterRun m ∉ es) →
        Out t ∧ ∀ e ∈ es, control e = false ∧ e ≠ .loopTest ∧ ∀ q, ranBy q e = [] := by
  refine runFrom_history ?_ ?_
  · intro _
    exact ⟨hout, fun e he => absurd he List.not_mem_nil⟩
  · intro es t e t' _ ih hs hno
    obtain ⟨hbefore, hall⟩ := ih (fun m h => hno m (List.mem_append_left _ h))
    have hlast : ∀ m, e ≠ .enterRun m := by
      rintro m rfl
      exact hno m (List.mem_append_right _ (List.mem_singleton.mpr rfl))
    obtain ⟨hafter, hquiet⟩ := out_step hbefore hlast hs
    refine ⟨hafter, ?_⟩
    intro e' he'
    rcases List.mem_append.mp he' with hold | hnew
    · exact hall e' hold
    · cases List.mem_singleton.mp hnew
      exact hquiet

/-- **NOTHING LEFT BEHIND**: when the loop comes to a test again, everything that was
    enqueued before the test before has run.  As everywhere in the machine, a queue
    operation is one step, also that of a remote thread. -/
theorem enqueued_has_run (n : Nat) (tr mid : List (Event X)) (t : State X)
    (ht : run (ioMachine X n) (tr ++ [Event.loopTest] ++ mid) = some t)
    (hno : Event.loopTest ∉ mid) (hinside : ∀ m, .enterRun m ∉ mid)
    (hthrow : NoThrow (tr ++ [Event.loopTest] ++ mid)) (hpc : t.pc = .test) (q : Queue) :
    enqueued q tr <+: ran q (tr ++ [Event.loopTest] ++ mid) := by
  obtain ⟨s', hs', hmid⟩ := runFrom_append_some.mp ht
  obtain ⟨s, hs, htest⟩ := runFrom_snoc.mp hs'
  have hgo : goesOn s = true := by
    by_contra hstop
    obtain ⟨-, hreturn⟩ := enabled_eq_some.mp htest
    have hout : Out s' := by
      rw [hreturn]
      exact .inl (congrArg State.pc (if_neg hstop))
    have houtside := (out_run hout mid t hmid hinside).1
    rw [Out, hpc] at houtside
    rcases houtside with h | h <;> cases h
  have hstart := after_test (n := n) hgo htest
  have hcover := iteration_covers (q := q) (congrArg State.pc hstart) (batchInv_run hs') mid t hmid
    hno (fun q' h => hthrow q' (List.mem_append_right _ h)) (by rw [hpc]; intro h; cases h)
  have hbatch : t.batch q = [] := (batchInv_run ht).nil (by rw [hpc]; simp [InDrain])
  have hpast : ¬ phase t.pc < 3 * rank q + 3 := by
    rw [hpc]
    cases q <;> decide
  have hqueue : s'.queue q = s.queue q := by rw [hstart]
  rw [hbatch, if_neg hpast, List.append_nil, List.append_nil, hqueue] at hcover
  have hsplit : ran q (tr ++ [Event.loopTest] ++ mid) = ran q tr ++ ran q mid := by
    simp [ran, ranBy]
  have hold : enqueued q tr = ran q tr ++ s.queue q := by
    have hconserved := conserved_run tr s hs (along_of_noThrow
      (fun q' h => hthrow q' (List.mem_append_left _ (List.mem_append_left _ h)))) q
    rw [(batchInv_run hs).nil (by
      obtain ⟨hpc', -⟩ := enabled_eq_some.mp htest
      rw [hpc']
      simp [InDrain]), List.append_nil] at hconserved
    exact hconserved
  rw [hsplit, hold]
  exact (List.prefix_append_right_inj _).mpr hcover

/-- An iteration after `post(1)` and `run()`; the task posts another one. -/
def postAgain : List (Event Nat) :=
  [.cqesDone, .check .remoteSpawn, .check .remoteTasks, .check .localTasks, .swap .localTasks,
    .runNext .localTasks 1, .post true 2, .userReturn, .drained .localTasks, .nonpollSubmit,
    .complete 0 (-62) 0, .wake]

theorem enqueued_has_run_postAgain :
    [1] <+: ran .localTasks ([.post true 1, .enterRun .run] ++ [Event.loopTest] ++ postAgain) := by
  obtain ⟨t, ht, hpc⟩ : ∃ t, run (ioMachine Nat 4)
      ([.post true 1, .enterRun .run] ++ [Event.loopTest] ++ postAgain) = some t ∧ t.pc = .test :=
    ⟨_, rfl, rfl⟩
  refine enqueued_has_run 4 [.post true 1, .enterRun .run] postAgain t ht (by decide) ?_ ?_ hpc
    .localTasks
  · intro m
    simp [postAgain]
  · intro q
    cases q <;> decide

/-! ## When the loop returns -/

end CoioIoLoop
