import Coio.IoContextProofs

/-! # Tasks are neither lost nor reordered — unless one throws

    For each of the three queues the items ever enqueued are, in order, the items
    run so far, the unrun rest of the batch, and the items still queued.  One
    step moves items along this line and never across it: an enqueue adds at the
    end, a swap turns the queue into the batch, the loop takes the head of the
    batch.

    The one exception is an exception.  The batch is a LOCAL of the `resolve`
    function, so when a task throws the rest of its batch is destroyed with it.
    Other tasks survive a throw exactly when the throwing task was the last of
    its batch. -/

namespace CoioTaskQueue

open CoioMachine CoioIoContext
open CoioRemoteQueue (Queue)

variable {X : Type} {n : Nat}

/-- What the event adds to the queue. -/
def enq (q : Queue) : Event X → List X
  | .post isInLocalThread x =>
      if q = (if isInLocalThread then .localTasks else .remoteTasks) then [x] else []
  | .dispatch isInLocalThread x =>
      if isInLocalThread then [] else if q = .remoteTasks then [x] else []
  | .coSpawn isInLocalThread x =>
      if isInLocalThread then [] else if q = .remoteSpawn then [x] else []
  | _ => []

/-- What the event runs of the queue. -/
def ranBy (q : Queue) : Event X → List X
  | .runNext q' x => if q = q' then [x] else []
  | _ => []

/-- The items ever enqueued, in order. -/
def enqueued (q : Queue) (tr : List (Event X)) : List X := tr.flatMap (enq q)

/-- The items run so far, in order. -/
def ran (q : Queue) (tr : List (Event X)) : List X := tr.flatMap (ranBy q)

theorem enqueued_snoc (q : Queue) (tr : List (Event X)) (e : Event X) :
    enqueued q (tr ++ [e]) = enqueued q tr ++ enq q e := by
  simp [enqueued]

theorem ran_snoc (q : Queue) (tr : List (Event X)) (e : Event X) :
    ran q (tr ++ [e]) = ran q tr ++ ranBy q e := by
  simp [ran]

/-- A throwing task is the last of its batch. -/
def ThrowsLast (s : State X) (e : Event X) : Prop :=
  ∀ q, e = .userThrow q → s.batch q = []

/-! ## What a step does to the queues -/

theorem pushBack_queue (s : State X) (q q' : Queue) (x : X) :
    (pushBack s q x).queue q' = s.queue q' ++ (if q' = q then [x] else []) := by
  unfold pushBack
  by_cases hq : q' = q
  · subst hq
    simp
  · simp [hq]

/-- Everything a step can do to queues and batches. -/
inductive QueueStep (s : State X) (e : Event X) (s' : State X) : Prop where
  | swap (q : Queue) (he : e = .swap q) (hpc : s.pc = .swap q)
      (hs' : s' = swapQueue s q)
  | runNext (q : Queue) (x : X) (rest : List X) (he : e = .runNext q x)
      (hpc : s.pc = .drain q) (hb : s.batch q = x :: rest) (hs' : s' = runNext s q)
  | throw (q : Queue) (he : e = .userThrow q) (hpc : s.pc = .inTask q)
      (hs' : s' = userThrow s q)
  | quiet (hb : s'.batch = s.batch) (hq : ∀ q, s'.queue q = s.queue q ++ enq q e)
      (hr : ∀ q, ranBy q e = []) (hswap : ∀ q, e ≠ .swap q)
      (hthrow : ∀ q, e ≠ .userThrow q)

theorem queue_cases [DecidableEq X] {s s' : State X} {e : Event X} (hs : step n s e = some s') :
    QueueStep s e s' := by
  cases e with
  | swap q =>
      obtain ⟨hpc, rfl⟩ := enabled_eq_some.mp hs
      exact .swap q rfl hpc rfl
  | runNext q x =>
      obtain ⟨⟨hpc, hhead⟩, rfl⟩ := enabled_eq_some.mp hs
      obtain ⟨rest, hb⟩ := List.head?_eq_some_iff.mp hhead
      exact .runNext q x rest rfl hpc hb rfl
  | userThrow q =>
      obtain ⟨⟨hpc, -⟩, rfl⟩ := enabled_eq_some.mp hs
      exact .throw q rfl hpc rfl
  | post inLocal x =>
      obtain ⟨-, rfl⟩ := enabled_eq_some.mp hs
      refine .quiet ?_ ?_ (fun _ => rfl) (fun _ h => nomatch h)
        (fun _ h => nomatch h)
      · cases inLocal <;> rfl
      · intro q
        cases inLocal <;> exact pushBack_queue s _ q x
  | dispatch inLocal x | coSpawn inLocal x =>
      obtain ⟨-, rfl⟩ := enabled_eq_some.mp hs
      refine .quiet ?_ ?_ (fun _ => rfl) (fun _ h => nomatch h)
        (fun _ h => nomatch h)
      · cases inLocal <;> rfl
      · intro q
        cases inLocal with
        | false => exact pushBack_queue s _ q x
        | true => exact (List.append_nil _).symm
  | resume op a h res flag =>
      obtain ⟨c, rest, -, -, rfl⟩ := resume_cases hs
      exact .quiet rfl (fun _ => (List.append_nil _).symm) (fun _ => rfl)
        (fun _ h => nomatch h) (fun _ h => nomatch h)
  | loopTest =>
      obtain ⟨-, rfl⟩ := enabled_eq_some.mp hs
      obtain ⟨pc, cnt, h⟩ := loopTest_eq s
      rw [h]
      exact .quiet rfl (fun _ => (List.append_nil _).symm) (fun _ => rfl)
        (fun _ h => nomatch h) (fun _ h => nomatch h)
  | userReturn =>
      obtain ⟨-, rfl⟩ := enabled_eq_some.mp hs
      obtain ⟨pc, h⟩ := userReturn_eq s
      rw [h]
      exact .quiet rfl (fun _ => (List.append_nil _).symm) (fun _ => rfl)
        (fun _ h => nomatch h) (fun _ h => nomatch h)
  | complete op res flags =>
      obtain ⟨-, rfl⟩ := enabled_eq_some.mp hs
      obtain ⟨inflight, cq, h⟩ := complete_eq s op res flags
      rw [h]
      exact .quiet rfl (fun _ => (List.append_nil _).symm) (fun _ => rfl)
        (fun _ h => nomatch h) (fun _ h => nomatch h)
  | _ =>
      obtain ⟨-, rfl⟩ := enabled_eq_some.mp hs
      exact .quiet rfl (fun _ => (List.append_nil _).symm) (fun _ => rfl)
        (fun _ h => nomatch h) (fun _ h => nomatch h)

/-! ## Where the batch lives -/

/-- The function that drains the queue is running, or the program has stopped in
    it. -/
def InDrain (q : Queue) (pc : Pc) : Prop :=
  pc = .drain q ∨ pc = .inTask q ∨ pc = .fault

variable [DecidableEq X]

/-- It ends when its batch is drained or when an item throws. -/
theorem inDrain_step {q : Queue} {s s' : State X} {e : Event X}
    (hD : InDrain q s.pc) (hdrained : e ≠ .drained q) (hthrow : e ≠ .userThrow q)
    (hs : step n s e = some s') : InDrain q s'.pc := by
  rcases pc_cases hs with hstay | hmove
  · rw [hstay]
    exact hD
  · generalize s.pc = pc at hD hmove
    generalize s'.pc = pc' at hmove
    cases hmove with
    | runNext q' x =>
        simp only [InDrain, Pc.drain.injEq, reduceCtorEq, or_false] at hD
        exact Or.inr (Or.inl (congrArg Pc.inTask hD))
    | returnTask q' =>
        simp only [InDrain, Pc.inTask.injEq, reduceCtorEq, or_false, false_or] at hD
        exact Or.inl (congrArg Pc.drain hD)
    | drained q' hb =>
        simp only [InDrain, Pc.drain.injEq, reduceCtorEq, or_false] at hD
        exact absurd (congrArg Event.drained hD) hdrained
    | throw q' =>
        simp only [InDrain, Pc.inTask.injEq, reduceCtorEq, or_false, false_or] at hD
        exact absurd (congrArg Event.userThrow hD) hthrow
    | nonpollNull => exact Or.inr (Or.inr rfl)
    | suspendNull a h pc hu => exact Or.inr (Or.inr rfl)
    | _ => simp [InDrain] at hD

/-- Only the function that drains a queue has a batch of it. -/
def BatchInv (s : State X) : Prop :=
  ∀ q, s.batch q ≠ [] → InDrain q s.pc

omit [DecidableEq X] in
theorem BatchInv.nil {s : State X} (hB : BatchInv s) {q : Queue}
    (h : ¬ InDrain q s.pc) : s.batch q = [] :=
  not_not.mp (fun hne => h (hB q hne))

theorem batchInv_step (s : State X) (e : Event X) (s' : State X) (hB : BatchInv s)
    (hs : step n s e = some s') : BatchInv s' := by
  intro q hne
  cases queue_cases hs with
  | swap q' he hpc hs' =>
      subst hs'
      by_cases hq : q = q'
      · subst hq
        exact Or.inl rfl
      · -- the batch of another queue would put the program point inside its drain
        have hold : (swapQueue s q').batch q = s.batch q := Function.update_of_ne hq _ _
        rw [hold] at hne
        rcases hB q hne with h | h | h <;> exact nomatch h.symm.trans hpc
  | runNext q' x rest he hpc hb hs' =>
      subst hs'
      by_cases hq : q = q'
      · subst hq
        exact Or.inr (Or.inl rfl)
      · have hold : (runNext s q').batch q = s.batch q := Function.update_of_ne hq _ _
        rw [hold] at hne
        rcases hB q hne with h | h | h
        · exact absurd (Pc.drain.inj (h.symm.trans hpc)) hq
        · exact nomatch h.symm.trans hpc
        · exact nomatch h.symm.trans hpc
  | throw q' he hpc hs' =>
      subst hs'
      by_cases hq : q = q'
      · subst hq
        have hnil : (userThrow s q).batch q = [] := Function.update_self q _ s.batch
        exact absurd hnil hne
      · have hold : (userThrow s q').batch q = s.batch q := Function.update_of_ne hq _ _
        rw [hold] at hne
        rcases hB q hne with h | h | h
        · exact nomatch h.symm.trans hpc
        · exact absurd (Pc.inTask.inj (h.symm.trans hpc)) hq
        · exact nomatch h.symm.trans hpc
  | quiet hb hq hr hswap hthrow =>
      rw [hb] at hne
      refine inDrain_step (hB q hne) ?_ (hthrow q) hs
      rintro rfl
      obtain ⟨⟨-, hnil⟩, -⟩ := enabled_eq_some.mp hs
      exact hne hnil

/-! ## Conservation -/

/-- **STEP LEMMA**: a step moves items from the end of the queue towards the
    head of the batch and out, in order. -/
theorem conserve_step {s s' : State X} {e : Event X} (hB : BatchInv s)
    (hok : ThrowsLast s e) (hs : step n s e = some s') (q : Queue) :
    s.batch q ++ s.queue q ++ enq q e = ranBy q e ++ s'.batch q ++ s'.queue q := by
  cases queue_cases hs with
  | swap q' he hpc hs' =>
      subst he
      subst hs'
      show s.batch q ++ s.queue q ++ [] = [] ++ Function.update s.batch q' (s.queue q') q
        ++ Function.update s.queue q' [] q
      by_cases hq : q = q'
      · subst hq
        have hnil : s.batch q = [] := hB.nil (by simp [InDrain, hpc])
        simp [hnil]
      · simp [hq]
  | runNext q' x rest he hpc hb hs' =>
      subst he
      subst hs'
      show s.batch q ++ s.queue q ++ [] = (if q = q' then [x] else [])
        ++ Function.update s.batch q' (s.batch q').tail q ++ s.queue q
      by_cases hq : q = q'
      · subst hq
        simp [hb]
      · simp [hq]
  | throw q' he hpc hs' =>
      have hnil := hok q' he
      subst he
      subst hs'
      show s.batch q ++ s.queue q ++ [] = [] ++ Function.update s.batch q' [] q ++ s.queue q
      by_cases hq : q = q'
      · subst hq
        simp [hnil]
      · simp [hq]
  | quiet hb hq hr hswap hthrow =>
      rw [hb, hq q, hr q, List.nil_append, List.append_assoc]

/-- Enqueued so far = run so far ++ rest of the batch ++ queue. -/
def Conserved (tr : List (Event X)) (s : State X) : Prop :=
  ∀ q, enqueued q tr = ran q tr ++ s.batch q ++ s.queue q

omit [DecidableEq X] in
theorem conserved_snoc {tr : List (Event X)} {s s' : State X} {e : Event X}
    (hC : Conserved tr s)
    (hmove : ∀ q, s.batch q ++ s.queue q ++ enq q e
      = ranBy q e ++ s'.batch q ++ s'.queue q) : Conserved (tr ++ [e]) s' := by
  intro q
  calc enqueued q (tr ++ [e])
      = ran q tr ++ (s.batch q ++ s.queue q ++ enq q e) := by
        rw [enqueued_snoc, hC q]
        simp only [List.append_assoc]
    _ = ran q tr ++ (ranBy q e ++ s'.batch q ++ s'.queue q) := by rw [hmove q]
    _ = ran q (tr ++ [e]) ++ s'.batch q ++ s'.queue q := by
        rw [ran_snoc]
        simp only [List.append_assoc]

theorem batchInv_run {tr : List (Event X)} {s : State X}
    (hr : run (ioMachine X n) tr = some s) : BatchInv s :=
  run_invariant (fun _ h => absurd rfl h) batchInv_step hr

/-- **RUN LEMMA**: nothing is lost while no throw drops a batch. -/
theorem conserved_run : ∀ (tr : List (Event X)) (s : State X),
    run (ioMachine X n) tr = some s →
      Along (ioMachine X n) ThrowsLast (ioMachine X n).init tr → Conserved tr s := by
  refine run_history (fun _ q => rfl) ?_
  intro tr s e s' hr hC hs hal
  obtain ⟨hal', hok⟩ := (along_snoc tr _ s e hr).mp hal
  exact conserved_snoc (hC hal') (conserve_step (batchInv_run hr) hok hs)

/-! ## One iteration of `run_once` -/

/-- The order in which `run_once` drains the queues. -/
def rank : Queue → Nat
  | .remoteSpawn => 0
  | .remoteTasks => 1
  | .localTasks => 2

/-- How far the iteration has got. -/
def phase : Pc → Nat
  | .cqes => 0
  | .inResume => 0
  | .seen => 0
  | .check q => 3 * rank q + 1
  | .swap q => 3 * rank q + 2
  | .drain q => 3 * rank q + 3
  | .inTask q => 3 * rank q + 3
  | .submit => 10
  | .wait => 11
  | .test => 12
  | .outside => 12
  | .fault => 12

theorem phase_le (pc : Pc) : phase pc ≤ 12 := by
  cases pc with
  | check q => cases q <;> decide
  | swap q => cases q <;> decide
  | drain q => cases q <;> decide
  | inTask q => cases q <;> decide
  | _ => decide

theorem phase_afterResolve (q : Queue) : phase (afterResolve q) = 3 * rank q + 4 := by
  cases q <;> decide

theorem rank_inj {q q' : Queue} (h : rank q = rank q') : q = q' := by
  cases q <;> cases q' <;> first | rfl | exact nomatch h

/-- **STEP LEMMA**: only the test of the loop starts a new iteration. -/
theorem phase_step {s s' : State X} {e : Event X} (he : e ≠ .loopTest)
    (hs : step n s e = some s') : phase s.pc ≤ phase s'.pc := by
  rcases pc_cases hs with hstay | hmove
  · rw [hstay]
  · generalize s.pc = pc at hmove
    generalize s'.pc = pc' at hmove
    cases hmove with
    | goOn => exact absurd rfl he
    | stop => exact absurd rfl he
    | checkEmpty q hq =>
        rw [phase_afterResolve]
        exact Nat.add_le_add_left (by decide) _
    | drained q hb =>
        rw [phase_afterResolve]
        exact Nat.le_succ _
    | throw q => exact phase_le _
    | suspendNull a h pc hu => exact phase_le _
    | _ => simp [phase]

/-- **RUN LEMMA**: within one iteration the loop only moves forward. -/
theorem phase_mono {s : State X} : ∀ (es : List (Event X)) (t : State X),
    runFrom (ioMachine X n) s es = some t → .loopTest ∉ es →
      phase s.pc ≤ phase t.pc := by
  refine runFrom_history (fun _ => Nat.le_refl _) ?_
  intro es t e t' _ ih hs hno
  rw [List.mem_append, not_or] at hno
  refine (ih hno.1).trans (phase_step ?_ hs)
  rintro rfl
  exact hno.2 (List.mem_singleton.mpr rfl)

/-- No task throws. -/
def NoThrow (es : List (Event X)) : Prop := ∀ q, .userThrow q ∉ es

omit [DecidableEq X] in
theorem noThrow_snoc {es : List (Event X)} {e : Event X} (h : NoThrow (es ++ [e])) :
    NoThrow es ∧ ∀ q, e ≠ .userThrow q := by
  constructor
  · intro q hq
    exact h q (List.mem_append.mpr (Or.inl hq))
  · rintro q rfl
    exact h q (List.mem_append.mpr (Or.inr (List.mem_singleton.mpr rfl)))

/-- Without a swap or a throw, the batch loses just what the step runs. -/
theorem batch_step {q : Queue} {s s' : State X} {e : Event X} (hswap : e ≠ .swap q)
    (hthrow : ∀ q', e ≠ .userThrow q') (hs : step n s e = some s') :
    s.batch q = ranBy q e ++ s'.batch q := by
  cases queue_cases hs with
  | swap q' he hpc hs' =>
      subst he
      subst hs'
      have hq : q ≠ q' := fun h => hswap (h ▸ rfl)
      exact (Function.update_of_ne hq _ _).symm
  | runNext q' x rest he hpc hb hs' =>
      subst he
      subst hs'
      by_cases hq : q = q'
      · subst hq
        simp [ranBy, runNext, hb]
      · simp [ranBy, runNext, hq]
  | throw q' he hpc hs' => exact absurd he (hthrow q')
  | quiet hb hq hr _ _ => rw [hb, hr q, List.nil_append]

/-- **RUN LEMMA**: between its swap and its end, the function that drains `q`
    runs the batch from the front and nothing else. -/
theorem batch_runs {q : Queue} {s : State X} (hD : InDrain q s.pc) :
    ∀ (es : List (Event X)) (t : State X), runFrom (ioMachine X n) s es = some t →
      .drained q ∉ es → NoThrow es →
        InDrain q t.pc ∧ ran q es ++ t.batch q = s.batch q ∧
          ∀ q', q' ≠ q → ran q' es = [] := by
  refine runFrom_history (fun _ _ => ⟨hD, rfl, fun _ _ => rfl⟩) ?_
  intro es t e t' _ ih hs hno hthrow
  rw [List.mem_append, not_or, List.mem_singleton] at hno
  obtain ⟨hthrow', hlast⟩ := noThrow_snoc hthrow
  obtain ⟨hD', hran, hother⟩ := ih hno.1 hthrow'
  refine ⟨inDrain_step hD' (Ne.symm hno.2) (hlast q) hs, ?_, ?_⟩
  · have hnoswap : e ≠ .swap q := by
      rintro rfl
      obtain ⟨hpc, -⟩ := enabled_eq_some.mp hs
      rcases hD' with h | h | h <;> exact nomatch h.symm.trans hpc
    rw [ran_snoc, List.append_assoc, ← batch_step hnoswap hlast hs]
    exact hran
  · intro q' hq'
    rw [ran_snoc, hother q' hq', List.nil_append]
    cases queue_cases hs with
    | swap q'' he hpc hs' => subst he; rfl
    | runNext q'' x rest he hpc hb hs' =>
        subst he
        rcases hD' with h | h | h
        · obtain rfl := Pc.drain.inj (h.symm.trans hpc)
          exact if_neg hq'
        · exact nomatch h.symm.trans hpc
        · exact nomatch h.symm.trans hpc
    | throw q'' he hpc hs' => exact absurd he (hlast q'')
    | quiet hb hq hr _ _ => exact hr q'

/-- Without a swap of the queue nothing of it runs. -/
theorem runs_need_swap {q : Queue} {s : State X} (hnil : s.batch q = []) :
    ∀ (es : List (Event X)) (t : State X), runFrom (ioMachine X n) s es = some t →
      .swap q ∉ es → t.batch q = [] ∧ ran q es = [] := by
  refine runFrom_history (fun _ => ⟨hnil, rfl⟩) ?_
  intro es t e t' _ ih hs hno
  rw [List.mem_append, not_or, List.mem_singleton] at hno
  obtain ⟨hbatch, hran⟩ := ih hno.1
  rw [ran_snoc, hran, List.nil_append]
  cases queue_cases hs with
  | swap q' he hpc hs' =>
      subst he
      subst hs'
      have hq : q ≠ q' := fun h => hno.2 (h ▸ rfl)
      exact ⟨(Function.update_of_ne hq _ _).trans hbatch, rfl⟩
  | runNext q' x rest he hpc hb hs' =>
      subst he
      subst hs'
      have hq : q ≠ q' := by
        rintro rfl
        exact nomatch hbatch.symm.trans hb
      exact ⟨(Function.update_of_ne hq _ _).trans hbatch, if_neg hq⟩
  | throw q' he hpc hs' =>
      subst he
      subst hs'
      refine ⟨?_, rfl⟩
      show Function.update t.batch q' [] q = []
      by_cases hq : q = q'
      · subst hq
        exact Function.update_self _ _ _
      · exact (Function.update_of_ne hq _ _).trans hbatch
  | quiet hb hq hr hswap _ => exact ⟨(congrFun hb q).trans hbatch, hr q⟩

/-- How an iteration can get past the swap of a queue: by that swap, by finding
    the queue empty, or by ending early. -/
theorem passes_swap {q : Queue} {s s' : State X} {e : Event X} (he : e ≠ .loopTest)
    (hthrow : ∀ q', e ≠ .userThrow q') (hs : step n s e = some s')
    (hbefore : phase s.pc < 3 * rank q + 3) (hafter : 3 * rank q + 3 ≤ phase s'.pc) :
    e = .swap q ∨ (e = .check q ∧ s.queue q = []) ∨ s'.pc = .fault := by
  have hrank : rank q ≤ 2 := by cases q <;> decide
  rcases pc_cases hs with hstay | hmove
  · rw [hstay] at hafter
    exact absurd hbefore (Nat.not_lt_of_le hafter)
  · generalize s.pc = pc at hbefore hmove
    generalize s'.pc = pc' at hafter hmove ⊢
    cases hmove with
    | goOn => exact absurd rfl he
    | stop => exact absurd rfl he
    | throw q' => exact absurd rfl (hthrow q')
    | nonpollNull => exact Or.inr (Or.inr rfl)
    | suspendNull a h pc hu => exact Or.inr (Or.inr rfl)
    | swap q' =>
        simp only [phase] at hbefore hafter
        obtain rfl := rank_inj (show rank q = rank q' by omega)
        exact Or.inl rfl
    | checkEmpty q' hq =>
        rw [phase_afterResolve] at hafter
        simp only [phase] at hbefore
        obtain rfl := rank_inj (show rank q = rank q' by omega)
        exact Or.inr (Or.inl ⟨rfl, hq⟩)
    | drained q' hb =>
        rw [phase_afterResolve] at hafter
        simp only [phase] at hbefore
        omega
    | _ =>
        have hfirst : rank .remoteSpawn = 0 := rfl
        simp only [phase] at hbefore hafter
        omega

/-- A program that has stopped stays so. -/
theorem fault_step {s s' : State X} {e : Event X} (hf : s.pc = .fault)
    (hs : step n s e = some s') : s'.pc = .fault := by
  rcases pc_cases hs with hstay | hmove
  · rw [hstay, hf]
  · rw [hf] at hmove
    generalize s'.pc = pc' at hmove
    cases hmove with
    | suspendNull a h pc hu => rfl

/-- **RUN LEMMA**: what was queued when an iteration began has been run when the
    iteration has got past the queue. -/
theorem iteration_covers {q : Queue} {s : State X} (hpc : s.pc = .cqes)
    (hB : BatchInv s) :
    ∀ (es : List (Event X)) (t : State X), runFrom (ioMachine X n) s es = some t →
      .loopTest ∉ es → NoThrow es → t.pc ≠ .fault →
        s.queue q <+: ran q es ++ t.batch q
          ++ (if phase t.pc < 3 * rank q + 3 then t.queue q else []) := by
  refine runFrom_history ?_ ?_
  · intro _ _ _
    have hnil : s.batch q = [] := hB.nil (by simp [InDrain, hpc])
    rw [hpc, hnil, if_pos (show phase .cqes < 3 * rank q + 3 from Nat.succ_pos _)]
    exact List.prefix_refl _
  · intro es t e t' hrun ih hs hno hthrow hnf
    rw [List.mem_append, not_or, List.mem_singleton] at hno
    obtain ⟨hthrow', hlast⟩ := noThrow_snoc hthrow
    have hBt : BatchInv t := runFrom_invariant batchInv_step hB hrun
    have hcov := ih hno.1 hthrow' (fun hf => hnf (fault_step hf hs))
    have hphase := phase_step (Ne.symm hno.2) hs
    have hmove := conserve_step hBt (fun q' he => absurd he (hlast q')) hs q
    by_cases hafter : phase t'.pc < 3 * rank q + 3
    · -- still before the swap: the queue only grows
      rw [if_pos (Nat.lt_of_le_of_lt hphase hafter)] at hcov
      rw [if_pos hafter, ran_snoc]
      refine hcov.trans ⟨enq q e, ?_⟩
      calc ran q es ++ t.batch q ++ t.queue q ++ enq q e
          = ran q es ++ (t.batch q ++ t.queue q ++ enq q e) := by
            simp only [List.append_assoc]
        _ = ran q es ++ ranBy q e ++ t'.batch q ++ t'.queue q := by
            rw [hmove]
            simp only [List.append_assoc]
    · rw [if_neg hafter, List.append_nil, ran_snoc, List.append_assoc]
      by_cases hbefore : phase t.pc < 3 * rank q + 3
      · rw [if_pos hbefore] at hcov
        rcases passes_swap (Ne.symm hno.2) hlast hs hbefore (Nat.not_lt.mp hafter)
          with rfl | ⟨rfl, hempty⟩ | hf
        · -- the swap itself: what was queued is the batch now
          obtain ⟨-, rfl⟩ := enabled_eq_some.mp hs
          have htaken : (swapQueue t q).queue q = [] := Function.update_self _ _ _
          rw [htaken, List.append_nil, show enq q (.swap q) = ([] : List X) from rfl,
            List.append_nil] at hmove
          rw [← hmove, ← List.append_assoc]
          exact hcov
        · -- the queue was found empty: there was nothing to take
          obtain ⟨-, rfl⟩ := enabled_eq_some.mp hs
          rw [hempty, List.append_nil] at hcov
          exact hcov
        · exact absurd hf hnf
      · -- the swap is behind: a task leaves the batch only by running
        rw [if_neg hbefore, List.append_nil] at hcov
        have hnoswap : e ≠ .swap q := by
          rintro rfl
          obtain ⟨hpc', -⟩ := enabled_eq_some.mp hs
          rw [hpc'] at hbefore
          exact hbefore (Nat.lt_succ_self _)
        rw [← batch_step hnoswap hlast hs]
        exact hcov

/-- At the swap of a queue the loop thread can only swap it. -/
theorem swap_waits {q : Queue} {s s' : State X} {e : Event X} (hpc : s.pc = .swap q)
    (he : e ≠ .swap q) (hs : step n s e = some s') : s'.pc = .swap q := by
  rcases pc_cases hs with hstay | hmove
  · rw [hstay, hpc]
  · rw [hpc] at hmove
    generalize s'.pc = pc' at hmove
    cases hmove with
    | swap q' => exact absurd rfl he
    | suspendNull a h pc hu => exact nomatch hu

theorem swap_waits_run {q : Queue} {s : State X} (hpc : s.pc = .swap q) :
    ∀ (es : List (Event X)) (t : State X), runFrom (ioMachine X n) s es = some t →
      .swap q ∉ es → t.pc = .swap q := by
  refine runFrom_history (fun _ => hpc) ?_
  intro es t e t' _ ih hs hno
  rw [List.mem_append, not_or, List.mem_singleton] at hno
  exact swap_waits (ih hno.1) (Ne.symm hno.2) hs

/-- **RUN LEMMA**: up to the swap of a queue an iteration runs nothing of it; behind it,
    what has run and what is left of the batch are the queue as it was at the swap, or the
    test has found it empty. -/
theorem iteration_takes {q : Queue} {s : State X} (hpc : s.pc = .cqes) (hB : BatchInv s) :
    ∀ (es : List (Event X)) (t : State X), runFrom (ioMachine X n) s es = some t →
      .loopTest ∉ es → NoThrow es → t.pc ≠ .fault →
        (phase t.pc < 3 * rank q + 3 → ran q es = [] ∧ t.batch q = []) ∧
        (3 * rank q + 3 ≤ phase t.pc → ∃ before after u,
          runFrom (ioMachine X n) s before = some u ∧ ran q es ++ t.batch q = u.queue q ∧
            (es = before ++ .swap q :: after ∨
              es = before ++ .check q :: after ∧ u.queue q = [])) := by
  refine runFrom_history ?_ ?_
  · intro _ _ _
    have hnil : s.batch q = [] := hB.nil (by simp [InDrain, hpc])
    refine ⟨fun _ => ⟨rfl, hnil⟩, fun hphase => ?_⟩
    rw [hpc] at hphase
    exact absurd hphase (Nat.not_succ_le_zero _)
  · intro es t e t' hrun ih hs hno hthrow hnf
    rw [List.mem_append, not_or, List.mem_singleton] at hno
    obtain ⟨hthrow', hlast⟩ := noThrow_snoc hthrow
    obtain ⟨hearly, hlate⟩ := ih hno.1 hthrow' (fun hf => hnf (fault_step hf hs))
    have hphase := phase_step (Ne.symm hno.2) hs
    by_cases hbefore : phase t.pc < 3 * rank q + 3
    · obtain ⟨hran, hbatch⟩ := hearly hbefore
      constructor
      · intro hafter
        have hnoswap : e ≠ .swap q := by
          rintro rfl
          obtain ⟨-, rfl⟩ := enabled_eq_some.mp hs
          exact absurd hafter (Nat.lt_irrefl _)
        have hkeep := batch_step hnoswap hlast hs
        rw [hbatch] at hkeep
        obtain ⟨hnone, hbatch'⟩ := List.append_eq_nil_iff.mp hkeep.symm
        exact ⟨by rw [ran_snoc, hran, hnone]; rfl, hbatch'⟩
      · intro hafter
        rcases passes_swap (Ne.symm hno.2) hlast hs hbefore hafter with rfl | ⟨rfl, hempty⟩ | hf
        · obtain ⟨-, rfl⟩ := enabled_eq_some.mp hs
          refine ⟨es, [], t, hrun, ?_, .inl rfl⟩
          rw [ran_snoc, hran]
          exact Function.update_self q _ t.batch
        · obtain ⟨-, rfl⟩ := enabled_eq_some.mp hs
          refine ⟨es, [], t, hrun, ?_, .inr ⟨rfl, hempty⟩⟩
          rw [ran_snoc, hran, hempty]
          exact hbatch
        · exact absurd hf hnf
    · refine ⟨fun hafter => absurd (Nat.lt_of_le_of_lt hphase hafter) hbefore, fun _ => ?_⟩
      obtain ⟨before, after, u, hu, hqueue, htaken⟩ := hlate (Nat.not_lt.mp hbefore)
      have hnoswap : e ≠ .swap q := by
        rintro rfl
        obtain ⟨hpc', -⟩ := enabled_eq_some.mp hs
        rw [hpc'] at hbefore
        exact hbefore (Nat.lt_succ_self _)
      refine ⟨before, after ++ [e], u, hu, ?_, ?_⟩
      · rw [ran_snoc, List.append_assoc, ← batch_step hnoswap hlast hs]
        exact hqueue
      · rcases htaken with rfl | ⟨rfl, hempty⟩
        · exact .inl (List.append_assoc ..)
        · exact .inr ⟨List.append_assoc .., hempty⟩

/-! ## The two results -/

/-- `run_once` has returned, and the loop has not begun another one. -/
def IterationDone (pc : Pc) : Prop := pc = .submit ∨ pc = .wait ∨ pc = .test

/-- The iteration `mid`, begun behind `start`, runs exactly the items that are in the queue
    when it swaps it; it swaps it unless the test finds it empty. -/
structure RunsQueue (n : Nat) (q : Queue) (start mid : List (Event X)) : Prop where
  taken : ∃ before after u, run (ioMachine X n) (start ++ before) = some u ∧
    ran q mid = u.queue q ∧
      (mid = before ++ .swap q :: after ∨ mid = before ++ .check q :: after ∧ u.queue q = [])
  swapped : ∀ before after u, mid = before ++ .check q :: after →
    run (ioMachine X n) (start ++ before) = some u → u.queue q ≠ [] → .swap q ∈ after

theorem iteration_runs_queue {start mid : List (Event X)} {t₁ t : State X}
    (hstart : run (ioMachine X n) start = some t₁) (hpc : t₁.pc = .cqes)
    (ht : run (ioMachine X n) (start ++ mid) = some t) (hno : .loopTest ∉ mid)
    (hthrow : NoThrow mid) (hdone : IterationDone t.pc) (q : Queue) : RunsQueue n q start mid := by
  obtain ⟨t₂, ht₂, hmid⟩ := runFrom_append_some.mp ht
  obtain rfl : t₁ = t₂ := Option.some.inj (hstart.symm.trans ht₂)
  have hnf : t.pc ≠ .fault := by
    rcases hdone with h | h | h <;> rw [h] <;> exact fun h => nomatch h
  have hnot : ¬ InDrain q t.pc := by
    rcases hdone with h | h | h <;> rw [h] <;> simp [InDrain]
  have hphase : 3 * rank q + 3 ≤ phase t.pc := by
    rcases hdone with h | h | h <;> rw [h] <;> cases q <;> decide
  constructor
  · obtain ⟨before, after, u, hu, hqueue, htaken⟩ :=
      (iteration_takes (q := q) hpc (batchInv_run hstart) mid t hmid hno hthrow hnf).2 hphase
    rw [(batchInv_run ht).nil hnot, List.append_nil] at hqueue
    exact ⟨before, after, u, runFrom_append_some.mpr ⟨t₁, hstart, hu⟩, hqueue, htaken⟩
  · intro before after u hsplit hu hne
    by_contra hnoswap
    rw [hsplit, ← List.append_assoc] at ht
    obtain ⟨u', hu', hrest⟩ := runFrom_append_some.mp ht
    obtain rfl : u = u' := Option.some.inj (hu.symm.trans hu')
    obtain ⟨u₁, hcheck, hafter⟩ := runFrom_cons_some.mp hrest
    obtain ⟨-, rfl⟩ := enabled_eq_some.mp hcheck
    have hswap : (checkEmpty u q).pc = .swap q := if_neg (by simpa using hne)
    have hend := swap_waits_run hswap after t hafter hnoswap
    rcases hdone with h | h | h <;> exact nomatch h.symm.trans hend

/-- A run without throws meets the condition on throws. -/
theorem along_of_noThrow {tr : List (Event X)} (h : NoThrow tr) :
    Along (ioMachine X n) ThrowsLast (ioMachine X n).init tr := by
  have hnone : ∀ e ∈ tr, ∀ q, e ≠ .userThrow q := by
    rintro _ he q rfl
    exact h q he
  have hal := along_of_forall (M := ioMachine X n) (ioMachine X n).init hnone
  exact along_mono (fun s e hno q he => absurd he (hno q)) hal

omit [DecidableEq X] in
theorem NoThrow.of_infix {tr mid : List (Event X)} (h : NoThrow tr)
    (hin : mid <:+: tr) : NoThrow mid :=
  fun q hq => h q (hin.subset hq)

/-- Between a swap and the end of its drain exactly the queue at the swap runs. -/
theorem drain_runs_queue {tr pre mid : List (Event X)} {q : Queue} {s t : State X}
    (hr : run (ioMachine X n) tr = some s) (hthrow : NoThrow tr)
    (hp : pre ++ [.swap q] ++ mid ++ [.drained q] <+: tr) (hno : .drained q ∉ mid)
    (ht : run (ioMachine X n) pre = some t) :
    ran q mid = t.queue q ∧ ∀ q', q' ≠ q → ran q' mid = [] := by
  obtain ⟨t₀, t₁, t₂, t₃, ht₀, hswap, hmid, hdrained⟩ := run_between hr hp
  obtain rfl : t = t₀ := Option.some.inj (ht.symm.trans ht₀)
  obtain ⟨-, rfl⟩ := enabled_eq_some.mp hswap
  obtain ⟨⟨-, hempty⟩, -⟩ := enabled_eq_some.mp hdrained
  have hinfix : mid <:+: tr :=
    (List.infix_append (pre ++ [Event.swap q]) mid [Event.drained q]).trans hp.isInfix
  obtain ⟨-, hran, hother⟩ := batch_runs (n := n) (q := q) (s := swapQueue t q)
    (Or.inl rfl) mid t₂ hmid hno (hthrow.of_infix hinfix)
  rw [hempty, List.append_nil] at hran
  exact ⟨hran.trans (Function.update_self _ _ _), hother⟩

/-- An iteration swaps a queue at most once. -/
theorem one_swap {tr pre mid : List (Event X)} {q : Queue} {s : State X}
    (hr : run (ioMachine X n) tr = some s)
    (hp : pre ++ [.swap q] ++ mid ++ [.swap q] <+: tr) : .loopTest ∈ mid := by
  by_contra hno
  obtain ⟨t, t₁, t₂, t₃, -, hs, hmid, hs'⟩ := run_between hr hp
  obtain ⟨-, rfl⟩ := enabled_eq_some.mp hs
  obtain ⟨hpc, -⟩ := enabled_eq_some.mp hs'
  have hmono := phase_mono mid t₂ hmid hno
  rw [hpc] at hmono
  exact absurd hmono (Nat.not_succ_le_self _)

/-- An iteration runs nothing of a queue it does not swap. -/
theorem no_swap_no_run {tr pre mid : List (Event X)} {q : Queue} {s : State X}
    (hr : run (ioMachine X n) tr = some s)
    (hp : pre ++ [.loopTest] ++ mid <+: tr) (hno : .swap q ∉ mid) : ran q mid = [] := by
  obtain ⟨t₂, ht₂⟩ := run_initial hr hp
  obtain ⟨t₁, ht₁, hmid⟩ := runFrom_append_some.mp ht₂
  obtain ⟨t, -, hs⟩ := runFrom_snoc.mp ht₁
  obtain ⟨-, hstart⟩ := enabled_eq_some.mp hs
  have hnot : ¬ InDrain q t₁.pc := by
    rw [hstart]
    unfold loopTest
    split <;> simp [InDrain]
  exact (runs_need_swap ((batchInv_run ht₁).nil hnot) mid t₂ hmid hno).2

/-- Within one iteration items run in the order of the queues. -/
theorem runs_in_rank_order {tr pre mid : List (Event X)} {q q' : Queue} {x y : X}
    {s : State X} (hr : run (ioMachine X n) tr = some s)
    (hp : pre ++ [.runNext q x] ++ mid ++ [.runNext q' y] <+: tr)
    (hno : .loopTest ∉ mid) : rank q ≤ rank q' := by
  obtain ⟨t, t₁, t₂, t₃, -, hs, hmid, hs'⟩ := run_between hr hp
  obtain ⟨-, rfl⟩ := enabled_eq_some.mp hs
  obtain ⟨⟨hpc, -⟩, -⟩ := enabled_eq_some.mp hs'
  have hmono : 3 * rank q + 3 ≤ phase t₂.pc := phase_mono mid t₂ hmid hno
  rw [hpc] at hmono
  have hle : 3 * rank q + 3 ≤ 3 * rank q' + 3 := hmono
  omega

/-- **TASKS ARE CONSERVED**: in every run in which no task throws, for each queue
    the items enqueued are those run, those left in the batch and those queued, in
    this order; what runs between a swap and the end of its drain is exactly the
    queue at the swap, and nothing of another queue; an iteration swaps a queue at
    most once, and runs nothing of a queue it does not swap; within one iteration
    items run in the order of the queues; and from its start to its return `run_once`
    swaps each queue that is not empty at its test, and runs of it what is in it at
    its swap. -/
theorem tasks_conserved (n : Nat) (tr : List (Event X)) (s : State X)
    (hr : run (ioMachine X n) tr = some s) (hthrow : NoThrow tr) :
    (∀ q, enqueued q tr = ran q tr ++ s.batch q ++ s.queue q) ∧
    (∀ q pre mid t, pre ++ [.swap q] ++ mid ++ [.drained q] <+: tr → .drained q ∉ mid →
      run (ioMachine X n) pre = some t →
        ran q mid = t.queue q ∧ ∀ q', q' ≠ q → ran q' mid = []) ∧
    (∀ q pre mid, pre ++ [.swap q] ++ mid ++ [.swap q] <+: tr → .loopTest ∈ mid) ∧
    (∀ q pre mid, pre ++ [.loopTest] ++ mid <+: tr → .swap q ∉ mid → ran q mid = []) ∧
    (∀ q q' x y pre mid, pre ++ [.runNext q x] ++ mid ++ [.runNext q' y] <+: tr →
      .loopTest ∉ mid → rank q ≤ rank q') ∧
    (∀ q pre mid t₁ t, pre ++ [.loopTest] ++ mid <+: tr → .loopTest ∉ mid →
      run (ioMachine X n) (pre ++ [.loopTest]) = some t₁ → t₁.pc = .cqes →
      run (ioMachine X n) (pre ++ [.loopTest] ++ mid) = some t → IterationDone t.pc →
        RunsQueue n q (pre ++ [.loopTest]) mid) := by
  refine ⟨conserved_run tr s hr (along_of_noThrow hthrow), ?_, ?_, ?_, ?_, ?_⟩
  · intro q pre mid t hp hno ht
    exact drain_runs_queue hr hthrow hp hno ht
  · intro q pre mid hp
    exact one_swap hr hp
  · intro q pre mid hp hno
    exact no_swap_no_run hr hp hno
  · intro q q' x y pre mid hp hno
    exact runs_in_rank_order hr hp hno
  · intro q pre mid t₁ t hp hno hstart hpc ht hdone
    have hinfix : mid <:+: tr := (List.suffix_append _ mid).isInfix.trans hp.isInfix
    exact iteration_runs_queue hstart hpc ht hno (hthrow.of_infix hinfix) hdone q

/-- A local task posts another one and stops the loop; a second `run()` runs it. -/
def postInTask : List (Event Nat) :=
  [.post true 1, .post false 2, .enterRun .run, .loopTest, .cqesDone,
    .check .remoteSpawn, .check .remoteTasks, .swap .remoteTasks,
    .runNext .remoteTasks 2, .userReturn, .drained .remoteTasks,
    .check .localTasks, .swap .localTasks, .runNext .localTasks 1,
    .post true 3, .requestStop, .userReturn, .drained .localTasks,
    .nonpollSubmit, .complete 0 0 0, .wake, .loopTest,
    .enterRun .run, .loopTest, .skip, .seen, .cqesDone, .check .remoteSpawn,
    .check .remoteTasks, .check .localTasks, .swap .localTasks,
    .runNext .localTasks 3]

/-- The theorem at that run, and at its first iteration: of the local tasks it runs the one
    that was there at the swap, and not the one that this posts. -/
theorem tasks_conserved_postInTask :
    enqueued .localTasks postInTask = [1, 3] ∧ ran .localTasks postInTask = [1, 3] ∧
      (∃ s, run (ioMachine Nat 4) postInTask = some s ∧
        (∀ q, enqueued q postInTask = ran q postInTask ++ s.batch q ++ s.queue q)) ∧
      postInTask[3]? = some .loopTest ∧
      ran .localTasks ((postInTask.drop 4).take 17) = [1] ∧
      RunsQueue 4 .localTasks (postInTask.take 3 ++ [.loopTest])
        ((postInTask.drop 4).take 17) := by
  have hthrow : NoThrow postInTask := by
    intro q
    cases q <;> decide
  obtain ⟨s, hs⟩ : ∃ s, run (ioMachine Nat 4) postInTask = some s := ⟨_, rfl⟩
  obtain ⟨hconserved, -, -, -, -, hiteration⟩ := tasks_conserved 4 postInTask s hs hthrow
  refine ⟨by decide, by decide, ⟨s, hs, hconserved⟩, rfl, by decide, ?_⟩
  exact hiteration .localTasks (postInTask.take 3) ((postInTask.drop 4).take 17) _ _ (by decide)
    (by decide) rfl rfl rfl (.inr (.inr rfl))

/-- What the exception leaves: after each throw the tasks enqueued and not yet
    started are all queued, in order. -/
def ThrowsKeepTasks (n : Nat) (tr : List (Event X)) : Prop :=
  ∀ pre q t, pre ++ [.userThrow q] <+: tr →
    run (ioMachine X n) (pre ++ [.userThrow q]) = some t →
      ∀ q', enqueued q' pre = ran q' pre ++ t.queue q'

/-- After a throw by the last task of a batch no batch is left. -/
theorem throw_leaves_no_batch {s s' : State X} {q : Queue} (hB : BatchInv s)
    (hok : ThrowsLast s (.userThrow q)) (hs : step n s (.userThrow q) = some s') :
    ∀ q', s.batch q' = [] := by
  intro q'
  by_cases hq : q' = q
  · subst hq
    exact hok q' rfl
  · obtain ⟨⟨hpc, -⟩, -⟩ := enabled_eq_some.mp hs
    refine hB.nil ?_
    rw [hpc]
    simp [InDrain, Ne.symm hq]

theorem throwsLast_keeps {tr : List (Event X)}
    (hal : Along (ioMachine X n) ThrowsLast (ioMachine X n).init tr) :
    ThrowsKeepTasks n tr := by
  intro pre q t hp ht q'
  obtain ⟨t₀, ht₀, hs⟩ := runFrom_snoc.mp ht
  obtain ⟨hal₀, hok⟩ := (along_snoc pre _ t₀ _ ht₀).mp (along_initial hal hp)
  have hnil := throw_leaves_no_batch (n := n) (batchInv_run ht₀) hok hs q'
  have hC := conserved_run pre t₀ ht₀ hal₀ q'
  rw [hnil, List.append_nil] at hC
  obtain ⟨-, rfl⟩ := enabled_eq_some.mp hs
  exact hC

/-- A throw that keeps the tasks was by the last of its batch: the items between
    those run and those queued are none. -/
theorem keeps_throwsLast : ∀ (tr : List (Event X)) (s : State X),
    run (ioMachine X n) tr = some s → ThrowsKeepTasks n tr →
      Along (ioMachine X n) ThrowsLast (ioMachine X n).init tr := by
  refine run_history (fun _ => trivial) ?_
  intro tr s e s' hr ih hs hkeep
  have hal := ih (fun pre q t hp => hkeep pre q t (hp.trans (List.prefix_append tr [e])))
  refine (along_snoc tr _ s e hr).mpr ⟨hal, ?_⟩
  rintro q rfl
  have hC := conserved_run tr s hr hal q
  have hkept := hkeep tr q s' (List.prefix_refl _) (runFrom_snoc.mpr ⟨s, hr, hs⟩) q
  obtain ⟨-, rfl⟩ := enabled_eq_some.mp hs
  have hcancel : ran q tr ++ s.batch q ++ s.queue q = ran q tr ++ s.queue q :=
    hC.symm.trans hkept
  have hlen := congrArg List.length hcancel
  simp only [List.length_append] at hlen
  exact List.length_eq_zero_iff.mp (by omega)

/-- The first full iteration of a new `run()` runs all that was queued. -/
theorem next_run_covers {s t : State X} {m : Mode} {mid : List (Event X)}
    (hB : BatchInv s)
    (hrun : runFrom (ioMachine X n) s ([.enterRun m, .loopTest] ++ mid) = some t)
    (hno : .loopTest ∉ mid) (hthrow : NoThrow mid) (hpc : t.pc = .submit) (q : Queue) :
    s.queue q <+: ran q mid := by
  obtain ⟨s₂, hstart, hmid⟩ := runFrom_append_some.mp hrun
  have hB₂ : BatchInv s₂ := runFrom_invariant batchInv_step hB hstart
  obtain ⟨s₁, hs₁, hs₂⟩ := runFrom_snoc.mp
    (show runFrom (ioMachine X n) s ([.enterRun m] ++ [.loopTest]) = some s₂ from hstart)
  obtain ⟨s₀, hs₀, henter⟩ := runFrom_snoc.mp
    (show runFrom (ioMachine X n) s ([] ++ [.enterRun m]) = some s₁ from hs₁)
  obtain rfl : s = s₀ := Option.some.inj hs₀
  obtain ⟨-, rfl⟩ := enabled_eq_some.mp henter
  obtain ⟨-, htest⟩ := enabled_eq_some.mp
    (show step n (enterLoop s m) .loopTest = some s₂ from hs₂)
  by_cases hgo : goesOn (enterLoop s m) = true
  · have hs₂pc : s₂.pc = .cqes := by rw [htest]; simp [loopTest, hgo]
    have hs₂q : s₂.queue = s.queue := by
      obtain ⟨pc, cnt, h⟩ := loopTest_eq (enterLoop s m)
      rw [htest, h]
      rfl
    have hcov := iteration_covers (q := q) hs₂pc hB₂ mid t hmid hno hthrow
      (by rw [hpc]; exact fun h => nomatch h)
    have hnil : t.batch q = [] := by
      refine (runFrom_invariant batchInv_step hB₂ hmid).nil ?_
      rw [hpc]
      simp [InDrain]
    have hpast : ¬ phase t.pc < 3 * rank q + 3 := by
      rw [hpc]
      cases q <;> decide
    rw [hnil, if_neg hpast, List.append_nil, List.append_nil, hs₂q] at hcov
    exact hcov
  · -- the token is stopped: the loop is left at once and `submit` is never reached
    have hs₂pc : s₂.pc = .outside := by rw [htest]; simp [loopTest, hgo]
    have hmono := phase_mono mid t hmid hno
    rw [hs₂pc, hpc] at hmono
    exact absurd hmono (by decide)

/-- **A THROW, EXACTLY**: in a run, every throw keeps the tasks not yet started
    queued in their order if and only if each throwing task is the last of its
    batch.  Then nothing is ever lost, and whenever `run()` is called again its
    first full iteration runs everything that was queued, in order. -/
theorem throw_keeps_tasks_iff (n : Nat) (tr : List (Event X)) (s : State X)
    (hr : run (ioMachine X n) tr = some s) :
    (ThrowsKeepTasks n tr ↔ Along (ioMachine X n) ThrowsLast (ioMachine X n).init tr) ∧
    (Along (ioMachine X n) ThrowsLast (ioMachine X n).init tr →
      (∀ q, enqueued q tr = ran q tr ++ s.batch q ++ s.queue q) ∧
      ∀ m mid t, s.pc = .outside →
        runFrom (ioMachine X n) s ([.enterRun m, .loopTest] ++ mid) = some t →
        .loopTest ∉ mid → NoThrow mid → t.pc = .submit →
          ∀ q, s.queue q <+: ran q mid) := by
  refine ⟨⟨keeps_throwsLast tr s hr, throwsLast_keeps⟩, ?_⟩
  intro hal
  refine ⟨conserved_run tr s hr hal, ?_⟩
  intro m mid t _ hrun hno hthrow hpc q
  exact next_run_covers (batchInv_run hr) hrun hno hthrow hpc q

/-- Two tasks in one batch; the second one throws. -/
def lastThrows : List (Event Nat) :=
  [.post true 1, .post true 2, .enterRun .run, .loopTest, .cqesDone,
    .check .remoteSpawn, .check .remoteTasks, .check .localTasks, .swap .localTasks,
    .runNext .localTasks 1, .post true 3, .userReturn,
    .runNext .localTasks 2, .userThrow .localTasks]

/-- The theorem at that run: the task posted meanwhile is kept. -/
theorem throw_keeps_tasks_iff_last :
    ∃ s, run (ioMachine Nat 4) lastThrows = some s ∧ s.queue .localTasks = [3] ∧
      (ThrowsKeepTasks 4 lastThrows ↔
        Along (ioMachine Nat 4) ThrowsLast (ioMachine Nat 4).init lastThrows) := by
  obtain ⟨s, hs⟩ : ∃ s, run (ioMachine Nat 4) lastThrows = some s := ⟨_, rfl⟩
  have hqueue : s.queue .localTasks = [3] := by
    cases hs
    rfl
  exact ⟨s, hs, hqueue, (throw_keeps_tasks_iff 4 lastThrows s hs).1⟩

/-- **A THROW LOSES THE REST OF ITS BATCH**: two tasks, and the first throws. -/
theorem throw_loses_batch :
    ¬ (∀ (n : Nat) (tr : List (Event Nat)) (s : State Nat),
        run (ioMachine Nat n) tr = some s → ThrowsKeepTasks n tr) := by
  intro hall
  have hkeep := hall 4 [.post true 1, .post true 2, .enterRun .run, .loopTest,
    .cqesDone, .check .remoteSpawn, .check .remoteTasks, .check .localTasks,
    .swap .localTasks, .runNext .localTasks 1, .userThrow .localTasks] _ rfl
    [.post true 1, .post true 2, .enterRun .run, .loopTest,
    .cqesDone, .check .remoteSpawn, .check .remoteTasks, .check .localTasks,
    .swap .localTasks, .runNext .localTasks 1] .localTasks _ (List.prefix_refl _) rfl
    .localTasks
  exact absurd hkeep (by decide)

end CoioTaskQueue
