import Coio.IoContextProofs
import Mathlib.Algebra.Group.Nat.Defs

/-! # The last entry of the submission ring

    Two callers draw entries: `io_awaiter::await_suspend`, which only asserts that
    it got one, and `nonpoll_submit`, which does not look at all.  Between two
    submissions the ring holds exactly the suspensions made since the last one
    (`unsubmitted_run`), so with at most `n` of them the awaiters always get their
    entry.  But `nonpoll_submit` asks for one more, for its timer, BEFORE it
    submits. -/

namespace CoioSubmission

open CoioMachine CoioIoContext
open CoioRemoteQueue (Queue)

variable {X : Type} {n : Nat}

/-- The suspensions since the last submission, one event further. -/
def countSuspensions (k : Nat) : Event X → Nat
  | .suspendIo _ _ _ => k + 1
  | .suspendNull _ _ => k + 1
  | .nonpollSubmit => 0
  | .nonpollNull => 0
  | .pollSubmit => 0
  | _ => k

/-- How many awaiters have suspended since the last submission. -/
def sinceSubmission (tr : List (Event X)) : Nat := tr.foldl countSuspensions 0

theorem sinceSubmission_snoc (tr : List (Event X)) (e : Event X) :
    sinceSubmission (tr ++ [e]) = countSuspensions (sinceSubmission tr) e := by
  simp [sinceSubmission]

/-- A call of `io_uring_get_sqe` returned null. -/
def NullEntry : Event X → Prop
  | .suspendNull _ _ => True
  | .nonpollNull => True
  | _ => False

/-- `nonpoll_submit` is called. -/
def NonpollCall : Event X → Prop
  | .nonpollSubmit => True
  | .nonpollNull => True
  | _ => False

variable [DecidableEq X]

/-- **STEP LEMMA**: a step that draws no null entry counts right. -/
theorem unsubmitted_step {s s' : State X} {e : Event X} (hok : ¬ NullEntry e)
    (hs : step n s e = some s') : s'.sq.length = countSuspensions s.sq.length e := by
  cases e with
  | suspendNull a h => exact absurd trivial hok
  | nonpollNull => exact absurd trivial hok
  | suspendIo op a h =>
      obtain ⟨-, rfl⟩ := enabled_eq_some.mp hs
      exact List.length_append
  | resume op a h res flag =>
      obtain ⟨c, rest, -, -, rfl⟩ := resume_cases hs
      rfl
  | complete op res flags =>
      obtain ⟨-, rfl⟩ := enabled_eq_some.mp hs
      obtain ⟨inflight, cq, h⟩ := complete_eq s op res flags
      rw [h]
      rfl
  | post inLocal x =>
      obtain ⟨-, rfl⟩ := enabled_eq_some.mp hs
      cases inLocal <;> rfl
  | dispatch inLocal x =>
      obtain ⟨-, rfl⟩ := enabled_eq_some.mp hs
      cases inLocal <;> rfl
  | coSpawn inLocal x =>
      obtain ⟨-, rfl⟩ := enabled_eq_some.mp hs
      cases inLocal <;> rfl
  | loopTest =>
      obtain ⟨-, rfl⟩ := enabled_eq_some.mp hs
      obtain ⟨pc, cnt, h⟩ := loopTest_eq s
      rw [h]
      rfl
  | userReturn =>
      obtain ⟨-, rfl⟩ := enabled_eq_some.mp hs
      obtain ⟨pc, h⟩ := userReturn_eq s
      rw [h]
      rfl
  | _ =>
      obtain ⟨-, rfl⟩ := enabled_eq_some.mp hs
      rfl

/-- **RUN LEMMA**: the submission ring holds the suspensions since the last
    submission. -/
theorem unsubmitted_run : ∀ (tr : List (Event X)) (s : State X),
    run (ioMachine X n) tr = some s → (∀ e ∈ tr, ¬ NullEntry e) →
      s.sq.length = sinceSubmission tr := by
  refine run_history (fun _ => rfl) ?_
  intro tr s e s' _ ih hs hok
  have hlast : ¬ NullEntry e := hok e (List.mem_append_right _ (List.mem_singleton.mpr rfl))
  rw [unsubmitted_step hlast hs, sinceSubmission_snoc,
    ih (fun e he => hok e (List.mem_append_left _ he))]

/-- A null entry is drawn from a full ring. -/
theorem null_of_full {s s' : State X} {e : Event X} (he : NullEntry e)
    (hs : step n s e = some s') : n ≤ s.sq.length := by
  cases e with
  | suspendNull a h =>
      obtain ⟨⟨-, -, hfull⟩, -⟩ := enabled_eq_some.mp hs
      exact Nat.not_lt.mp hfull
  | nonpollNull =>
      obtain ⟨⟨-, -, hfull⟩, -⟩ := enabled_eq_some.mp hs
      exact Nat.not_lt.mp hfull
  | _ => exact he.elim

/-- **THE LAST ENTRY, EXACTLY**: take a run in which at most `n` awaiters suspend
    between two submissions.  Every `io_uring_get_sqe` returns an entry if and only
    if fewer than `n` have suspended whenever `nonpoll_submit` is called. -/
theorem entries_never_null_iff (n : Nat) (tr : List (Event X)) (s : State X)
    (hr : run (ioMachine X n) tr = some s)
    (hbound : ∀ pre, pre <+: tr → sinceSubmission pre ≤ n) :
    (∀ e ∈ tr, ¬ NullEntry e) ↔
      ∀ pre e, pre ++ [e] <+: tr → NonpollCall e → sinceSubmission pre < n := by
  constructor
  · intro hok pre e hp he
    obtain ⟨t, t', ht, hs⟩ := run_at hr hp
    have hpre : ∀ e' ∈ pre ++ [e], ¬ NullEntry e' := fun e' he' => hok e' (hp.subset he')
    rw [← unsubmitted_run pre t ht (fun e' he' => hpre e' (List.mem_append_left _ he'))]
    cases e with
    | nonpollSubmit =>
        obtain ⟨⟨-, -, hfree⟩, -⟩ := enabled_eq_some.mp hs
        exact hfree
    | nonpollNull =>
        exact absurd trivial (hpre _ (List.mem_append_right _ (List.mem_singleton.mpr rfl)))
    | _ => exact he.elim
  · intro hcalls
    -- by induction on the run: no event so far has drawn a null entry
    suffices h : ∀ (es : List (Event X)) (t : State X), run (ioMachine X n) es = some t →
        es <+: tr → ∀ e ∈ es, ¬ NullEntry e from h tr s hr (List.prefix_refl _)
    refine run_history (fun _ e he => nomatch he) ?_
    intro es t e t' hrun ih hs hp e' he' hnull
    have hprev := ih ((List.prefix_append es [e]).trans hp)
    rcases List.mem_append.mp he' with hold | hlast
    · exact hprev e' hold hnull
    · obtain rfl := List.mem_singleton.mp hlast
      have hfull := null_of_full hnull hs
      rw [unsubmitted_run es t hrun hprev] at hfull
      cases e' with
      | suspendNull a h =>
          have hnext := hbound _ hp
          rw [sinceSubmission_snoc] at hnext
          exact absurd (Nat.lt_of_lt_of_le (Nat.lt_succ_self _) hnext) (Nat.not_lt.mpr hfull)
      | nonpollNull =>
          exact absurd (hcalls es _ hp trivial) (Nat.not_lt.mpr hfull)
      | _ => exact hnull.elim

/-- One awaiter suspends before `run()`. -/
def oneSuspension : List (Event Nat) :=
  [.suspendIo 0 100 7, .enterRun .run, .loopTest, .cqesDone, .check .remoteSpawn,
    .check .remoteTasks, .check .localTasks, .nonpollSubmit]

/-- A bound on all prefixes of a list, from its finitely many prefixes. -/
theorem bound_of_inits {tr : List (Event Nat)} {n : Nat}
    (h : ∀ pre ∈ tr.inits, sinceSubmission pre ≤ n) :
    ∀ pre, pre <+: tr → sinceSubmission pre ≤ n :=
  fun pre hp => h pre (List.mem_inits pre tr |>.mpr hp)

/-- The theorem at that run, in a ring of two entries. -/
theorem entries_never_null_iff_one :
    (∀ e ∈ oneSuspension, ¬ NullEntry e) ↔
      ∀ pre e, pre ++ [e] <+: oneSuspension → NonpollCall e → sinceSubmission pre < 2 :=
  entries_never_null_iff 2 oneSuspension _ rfl (bound_of_inits (by decide))

/-- **THE LAST ENTRY IS NOT USABLE**: two awaiters suspend in a ring of two entries,
    and `nonpoll_submit` gets a null entry for its timer. -/
theorem last_entry_null :
    ¬ (∀ (k : Nat) (tr : List (Event Nat)) (s : State Nat),
        run (ioMachine Nat (2 ^ k)) tr = some s →
        (∀ pre, pre <+: tr → sinceSubmission pre ≤ 2 ^ k) →
          ∀ e ∈ tr, ¬ NullEntry e) := by
  intro hall
  refine hall 1 [.suspendIo 0 100 7, .suspendIo 1 101 8, .enterRun .run, .loopTest,
    .cqesDone, .check .remoteSpawn, .check .remoteTasks, .check .localTasks,
    .nonpollNull] _ rfl (bound_of_inits (by decide)) .nonpollNull (by decide) trivial

end CoioSubmission
