import Coio.MachineProofs
import Coio.CountdownProofs

/-! # `awaitable_counter` — the countdown a coroutine can await

    The counter holds an atomic `cnt` and a plain `continuation`.  The awaiting
    coroutine LOADS `cnt` (`await_ready`) and, if it was not zero, STORES its
    handle (`await_suspend`); each of the `N` notifiers does a `fetch_sub`, and
    the one that saw `1` READS the handle and resumes it.

    The load and the store are two steps.  The last notifier can run to its end
    between them, reads a null handle, and nobody is left to resume the
    coroutine that suspends afterwards.  This is the only way to lose the
    wakeup: a run is free of lost wakeups exactly when the store never comes
    after the last notifier has returned.
    The other half of the contract (one resume at most, and only at zero) holds
    in every run. -/

namespace CoioCounter

open CoioMachine CoioCountdown

/-- A coroutine handle, by address. -/
abbrev Handle := Nat

/-- `awaitable_counter`; a null handle is `none`. -/
structure AwaitableCounter where
  continuation : Option Handle
  cnt : UInt64
  deriving DecidableEq

/-- `awaiter::await_ready`. -/
def awaitReady (c : AwaitableCounter) : Bool :=
  c.cnt == 0

/-- `awaiter::await_suspend`. -/
def awaitSuspend (c : AwaitableCounter) (h : Handle) : AwaitableCounter :=
  { c with continuation := some h }

/-- `cnt.fetch_sub(1)`: the old value, and the counter after it. -/
def fetchSub (c : AwaitableCounter) : UInt64 × AwaitableCounter :=
  (c.cnt, { c with cnt := c.cnt - 1 })

/-- `notify_complete_one` run without interruption: the counter after it and
    the handle it resumes, if any. -/
def notifyCompleteOne (c : AwaitableCounter) : AwaitableCounter × Option Handle :=
  if (fetchSub c).1 == 1 then
    ((fetchSub c).2, (fetchSub c).2.continuation)
  else
    ((fetchSub c).2, none)

/-! ## Unsigned arithmetic of the count -/

theorem toNat_sub_one {c : UInt64} (h : 0 < c.toNat) :
    (c - 1).toNat = c.toNat - 1 := by
  have hle : (1 : UInt64) ≤ c := by
    rw [UInt64.le_iff_toNat_le]
    exact h
  rw [UInt64.toNat_sub_of_le c 1 hle]
  rfl

theorem eq_zero_iff_toNat {c : UInt64} : c = 0 ↔ c.toNat = 0 := by
  rw [← UInt64.toNat_inj]
  rfl

theorem eq_one_iff_toNat {c : UInt64} : c = 1 ↔ c.toNat = 1 := by
  rw [← UInt64.toNat_inj]
  rfl

/-! ## The race: one awaiting coroutine, `N` notifiers, atomic steps -/

/-- Where one call of `notify_complete_one` stands. -/
inductive Notifier where
  /-- about to `fetch_sub` -/
  | called
  /-- `fetch_sub` returned 1; the handle is not read yet -/
  | last
  | returned
  deriving DecidableEq

/-- Where the awaiting coroutine stands. -/
inductive Awaiter where
  | called
  /-- `await_ready` returned false; the handle is not stored yet -/
  | notReady
  | suspended
  /-- `await_ready` returned true -/
  | ready
  | resumed
  deriving DecidableEq

structure Race where
  counter : AwaitableCounter
  awaiter : Awaiter
  notifier : Nat → Notifier

/-- The atomic steps.  The read of the handle is two events, by what it finds. -/
inductive Event where
  | load
  | store
  | fetchSub (i : Nat)
  | readNull (i : Nat)
  | readResume (i : Nat)
  deriving DecidableEq

/-- One atomic step; `h` is the awaiting coroutine's handle. -/
def step (N : UInt64) (h : Handle) (s : Race) : Event → Option Race
  | .load =>
      if s.awaiter = .called then
        some { s with awaiter := if awaitReady s.counter then .ready else .notReady }
      else none
  | .store =>
      if s.awaiter = .notReady then
        some { s with counter := awaitSuspend s.counter h, awaiter := .suspended }
      else none
  | .fetchSub i =>
      if i < N.toNat ∧ s.notifier i = .called then
        some { s with
          counter := (CoioCounter.fetchSub s.counter).2
          notifier := Function.update s.notifier i
            (if (CoioCounter.fetchSub s.counter).1 == 1 then .last else .returned) }
      else none
  | .readNull i =>
      if s.notifier i = .last ∧ s.counter.continuation = none then
        some { s with notifier := Function.update s.notifier i .returned }
      else none
  | .readResume i =>
      if s.notifier i = .last ∧ s.counter.continuation ≠ none then
        some { s with
          notifier := Function.update s.notifier i .returned
          awaiter := .resumed }
      else none

/-- `N` notifiers are called, `cnt` starts at `N`, no handle is stored. -/
def raceMachine (N : UInt64) (h : Handle) : Machine Race Event where
  init := { counter := { continuation := none, cnt := N }
            awaiter := .called
            notifier := fun _ => .called }
  step := step N h

/-- All calls have returned, the coroutine is suspended, nobody resumed it. -/
def LostWakeup (N : UInt64) (s : Race) : Prop :=
  (∀ i, i < N.toNat → s.notifier i = .returned) ∧ s.awaiter = .suspended

/-- The handle is stored while some call has not returned yet. -/
def StoreInTime (N : UInt64) (s : Race) (e : Event) : Prop :=
  e = .store → ∃ i, i < N.toNat ∧ s.notifier i ≠ .returned

def isResume : Event → Bool
  | .readResume _ => true
  | _ => false

/-- Everything a step of the race can do. -/
inductive Step (N : UInt64) (h : Handle) (s : Race) : Event → Race → Prop where
  | load (hcalled : s.awaiter = .called) :
      Step N h s .load { s with awaiter := if awaitReady s.counter then .ready else .notReady }
  | store (hnot : s.awaiter = .notReady) :
      Step N h s .store { s with counter := awaitSuspend s.counter h, awaiter := .suspended }
  | fetchSub (i : Nat) (hi : i < N.toNat) (hc : s.notifier i = .called) :
      Step N h s (.fetchSub i)
        { s with
          counter := (CoioCounter.fetchSub s.counter).2
          notifier := Function.update s.notifier i
            (if (CoioCounter.fetchSub s.counter).1 == 1 then .last else .returned) }
  | readNull (i : Nat) (hlast : s.notifier i = .last)
      (hnull : s.counter.continuation = none) :
      Step N h s (.readNull i) { s with notifier := Function.update s.notifier i .returned }
  | readResume (i : Nat) (hlast : s.notifier i = .last)
      (hset : s.counter.continuation ≠ none) :
      Step N h s (.readResume i)
        { s with notifier := Function.update s.notifier i .returned, awaiter := .resumed }

/-- **INVERSION** of the step function. -/
theorem step_cases {N : UInt64} {h : Handle} {s s' : Race} {e : Event}
    (hs : step N h s e = some s') : Step N h s e s' := by
  cases e with
  | load =>
      obtain ⟨hcalled, rfl⟩ := enabled_eq_some.mp hs
      exact .load hcalled
  | store =>
      obtain ⟨hnot, rfl⟩ := enabled_eq_some.mp hs
      exact .store hnot
  | fetchSub i =>
      obtain ⟨⟨hi, hc⟩, rfl⟩ := enabled_eq_some.mp hs
      exact .fetchSub i hi hc
  | readNull i =>
      obtain ⟨⟨hlast, hnull⟩, rfl⟩ := enabled_eq_some.mp hs
      exact .readNull i hlast hnull
  | readResume i =>
      obtain ⟨⟨hlast, hset⟩, rfl⟩ := enabled_eq_some.mp hs
      exact .readResume i hlast hset

/-- What every reachable state of the race satisfies. -/
structure RaceInv (N : UInt64) (s : Race) : Prop where
  cnt : s.counter.cnt.toNat = pending N.toNat (fun i => s.notifier i == .called)
  lastZero : ∀ i, s.notifier i = .last → i < N.toNat ∧ s.counter.cnt.toNat = 0
  lastUnique : ∀ i j, s.notifier i = .last → s.notifier j = .last → i = j
  stored : s.counter.continuation ≠ none ↔
    s.awaiter = .suspended ∨ s.awaiter = .resumed
  resumedAll : s.awaiter = .resumed → ∀ i, i < N.toNat → s.notifier i = .returned

theorem raceInv_init (N : UInt64) (h : Handle) :
    RaceInv N (raceMachine N h).init where
  cnt := (pending_all (fun _ _ => rfl)).symm
  lastZero := fun i hi => nomatch hi
  lastUnique := fun i j hi => nomatch hi
  stored := by simp [raceMachine]
  resumedAll := fun h' => nomatch h'

/-- The count after a `fetch_sub` by a call that had not done it yet. -/
theorem fetchSub_cnt {N : UInt64} {s : Race} (hI : RaceInv N s) {i : Nat}
    (hi : i < N.toNat) (hc : s.notifier i = .called) :
    0 < s.counter.cnt.toNat ∧
      (s.counter.cnt - 1).toNat = s.counter.cnt.toNat - 1 := by
  have hpos : 0 < s.counter.cnt.toNat := by
    rw [hI.cnt]
    exact pending_pos hi (by simp [hc])
  exact ⟨hpos, toNat_sub_one hpos⟩

/-- The last notifier returning changes nothing about who is still pending. -/
theorem last_returns {N : UInt64} {s : Race} (hI : RaceInv N s) {i : Nat}
    (hlast : s.notifier i = .last) :
    s.counter.cnt.toNat
        = pending N.toNat
          (fun j => Function.update s.notifier i .returned j == .called) ∧
      (∀ j, Function.update s.notifier i .returned j ≠ .last) := by
  constructor
  · rw [hI.cnt]
    refine pending_congr ?_
    intro j _
    by_cases hji : j = i
    · subst hji; simp [hlast]
    · simp [Function.update_of_ne hji]
  · intro j hj
    by_cases hji : j = i
    · subst hji; simp at hj
    · rw [Function.update_of_ne hji] at hj
      exact hji (hI.lastUnique j i hj hlast)

/-- Once the last notifier returns, every notifier has returned. -/
theorem last_returns_all {N : UInt64} {s : Race} (hI : RaceInv N s) {i : Nat}
    (hlast : s.notifier i = .last) :
    ∀ j, j < N.toNat → Function.update s.notifier i .returned j = .returned := by
  intro j hj
  have hzero : pending N.toNat
      (fun j => Function.update s.notifier i .returned j == .called) = 0 := by
    rw [← (last_returns hI hlast).1]
    exact (hI.lastZero i hlast).2
  have hnc := pending_eq_zero.mp hzero j hj
  have hnl := (last_returns hI hlast).2 j
  cases hnj : Function.update s.notifier i .returned j with
  | called => rw [hnj] at hnc; exact nomatch hnc
  | last => exact absurd hnj hnl
  | returned => rfl

/-- A `fetch_sub` keeps the invariant. -/
theorem raceInv_fetchSub {N : UInt64} {s : Race} (hI : RaceInv N s) {i : Nat}
    (hi : i < N.toNat) (hc : s.notifier i = .called) :
    RaceInv N { s with
      counter := (fetchSub s.counter).2
      notifier := Function.update s.notifier i
        (if (fetchSub s.counter).1 == 1 then .last else .returned) } := by
  obtain ⟨hpos, hsub⟩ := fetchSub_cnt hI hi hc
  -- while the count is positive no call has seen 1 yet
  have hnolast : ∀ j, s.notifier j ≠ .last := by
    intro j hj
    have := (hI.lastZero j hj).2
    omega
  have honly : ∀ j, Function.update s.notifier i
      (if s.counter.cnt == 1 then Notifier.last else .returned) j = .last → j = i := by
    intro j hj
    by_contra hne
    rw [Function.update_of_ne hne] at hj
    exact hnolast j hj
  refine ⟨?_, ?_, ?_, hI.stored, ?_⟩
  · have hleave := pending_leave
      (p := fun j => s.notifier j == .called)
      (q := fun j => Function.update s.notifier i
        (if s.counter.cnt == 1 then Notifier.last else .returned) j == .called)
      (i := i) (by simp [hc])
      (by by_cases h1 : s.counter.cnt = 1 <;> simp [h1])
      (by intro j hj; simp [Function.update_of_ne hj]) N.toNat hi
    have hcnt := hI.cnt
    show (s.counter.cnt - 1).toNat = _
    rw [hsub, hcnt, ← hleave]
    rfl
  · intro j hj
    have hji := honly j hj
    subst hji
    refine ⟨hi, ?_⟩
    by_cases h1 : s.counter.cnt = 1
    · show (s.counter.cnt - 1).toNat = 0
      rw [hsub, eq_one_iff_toNat.mp h1]
    · simp [fetchSub, h1] at hj
  · intro j k hj hk
    rw [honly j hj, honly k hk]
  · intro hres
    exact nomatch hc.symm.trans (hI.resumedAll hres i hi)

/-- **STEP LEMMA** for the race. -/
theorem raceInv_step {N : UInt64} {h : Handle} (s : Race) (e : Event) (s' : Race)
    (hI : RaceInv N s) (hs : step N h s e = some s') : RaceInv N s' := by
  cases step_cases hs with
  | load hcalled =>
      have hst := hI.stored
      rw [hcalled] at hst
      refine ⟨hI.cnt, hI.lastZero, hI.lastUnique, ?_, ?_⟩
      · cases hr : awaitReady s.counter <;> simp_all
      · intro hres
        cases hr : awaitReady s.counter <;> simp_all
  | store =>
      refine ⟨hI.cnt, hI.lastZero, hI.lastUnique, ?_, fun hres => nomatch hres⟩
      simp [awaitSuspend]
  | fetchSub i hi hc => exact raceInv_fetchSub hI hi hc
  | readNull i hlast hnull =>
      obtain ⟨hcnt, hnl⟩ := last_returns hI hlast
      refine ⟨hcnt, fun j hj => absurd hj (hnl j), fun j k hj => absurd hj (hnl j),
        hI.stored, ?_⟩
      intro hres
      exact absurd hnull (hI.stored.mpr (Or.inr hres))
  | readResume i hlast hset =>
      obtain ⟨hcnt, hnl⟩ := last_returns hI hlast
      refine ⟨hcnt, fun j hj => absurd hj (hnl j), fun j k hj => absurd hj (hnl j),
        ?_, fun _ => last_returns_all hI hlast⟩
      exact ⟨fun _ => Or.inr rfl, fun _ => hset⟩

/-! ## The wakeup -/

/-- A suspended coroutine still has a call that will see it. -/
def Awake (N : UInt64) (s : Race) : Prop :=
  s.awaiter = .suspended → ∃ i, i < N.toNat ∧ s.notifier i ≠ .returned

/-- A `fetch_sub` leaves a call that has not returned: itself, if it saw 1, else
    one of those still counted. -/
theorem fetchSub_leaves_one {N : UInt64} {s : Race} (hI : RaceInv N s) {i : Nat}
    (hi : i < N.toNat) (hc : s.notifier i = .called) :
    ∃ j, j < N.toNat ∧ Function.update s.notifier i
      (if (fetchSub s.counter).1 == 1 then .last else .returned) j ≠ .returned := by
  obtain ⟨hpos, hsub⟩ := fetchSub_cnt hI hi hc
  by_cases h1 : s.counter.cnt = 1
  · refine ⟨i, hi, ?_⟩
    simp [fetchSub, h1]
  · have hne : s.counter.cnt.toNat ≠ 1 := fun h => h1 (eq_one_iff_toNat.mpr h)
    have hpos' : 0 < (s.counter.cnt - 1).toNat := by omega
    obtain ⟨j, hj, hcalled⟩ := exists_of_pending_pos
      (Nat.lt_of_lt_of_eq hpos' (raceInv_fetchSub hI hi hc).cnt)
    exact ⟨j, hj, fun hret => nomatch hret.symm.trans (beq_iff_eq.mp hcalled)⟩

/-- **STEP LEMMA** for the wakeup: only a late store breaks it. -/
theorem awake_step {N : UInt64} {h : Handle} (s : Race) (e : Event) (s' : Race)
    (hI : RaceInv N s ∧ Awake N s) (hok : StoreInTime N s e)
    (hs : step N h s e = some s') : RaceInv N s' ∧ Awake N s' := by
  refine ⟨raceInv_step s e s' hI.1 hs, ?_⟩
  intro hsusp
  cases step_cases hs with
  | load => cases hr : awaitReady s.counter <;> simp [hr] at hsusp
  | store => exact hok rfl
  | fetchSub i hi hc => exact fetchSub_leaves_one hI.1 hi hc
  | readNull i hlast hnull => exact absurd hnull (hI.1.stored.mpr (Or.inl hsusp))
  | readResume i => exact nomatch hsusp

/-- A resume finds the count at zero and the coroutine suspended. -/
theorem resume_at_zero {N : UInt64} {s : Race} (hI : RaceInv N s) {i : Nat}
    (hlast : s.notifier i = .last) (hset : s.counter.continuation ≠ none) :
    s.counter.cnt = 0 ∧ s.awaiter = .suspended := by
  obtain ⟨hi, hzero⟩ := hI.lastZero i hlast
  refine ⟨eq_zero_iff_toNat.mpr hzero, ?_⟩
  rcases hI.stored.mp hset with hsusp | hres
  · exact hsusp
  · exact nomatch hlast.symm.trans (hI.resumedAll hres i hi)

/-- The number of resumes so far is one exactly after the coroutine was resumed. -/
theorem resumes_count (N : UInt64) (h : Handle) :
    ∀ (tr : List Event) (s : Race), run (raceMachine N h) tr = some s →
      RaceInv N s ∧
        tr.countP isResume = if s.awaiter = .resumed then 1 else 0 := by
  refine run_history ⟨raceInv_init N h, rfl⟩ ?_
  intro tr s e s' _ hP hs
  obtain ⟨hI, hcount⟩ := hP
  refine ⟨raceInv_step s e s' hI hs, ?_⟩
  rw [countP_snoc, hcount]
  cases step_cases hs with
  | load hcalled => cases hr : awaitReady s.counter <;> simp [hcalled, isResume]
  | store hnot => simp [hnot, isResume]
  | fetchSub => simp [isResume]
  | readNull => simp [isResume]
  | readResume i hlast hset => simp [(resume_at_zero hI hlast hset).2, isResume]

/-- **THE WAKEUP, EXACTLY**: a run never loses the wakeup if and only if the
    handle is never stored after all calls have returned; and in every run the
    coroutine is resumed at most once, and only while it is suspended and the
    count is zero. -/
theorem wakeup_iff_store_in_time (N : UInt64) (h : Handle)
    (tr : List Event) (s : Race) (hr : run (raceMachine N h) tr = some s) :
    (Throughout (raceMachine N h) (fun t => ¬ LostWakeup N t) tr ↔
      Along (raceMachine N h) (StoreInTime N) (raceMachine N h).init tr) ∧
    tr.countP isResume ≤ 1 ∧
    (∀ pre i, pre ++ [.readResume i] <+: tr → ∀ t, run (raceMachine N h) pre = some t →
      t.counter.cnt = 0 ∧ t.awaiter = .suspended) := by
  refine ⟨⟨?_, ?_⟩, ?_, ?_⟩
  · -- a late store shows at once: the state after it has lost the wakeup
    refine along_of_throughout ?_ tr s hr
    intro s e s' hs hP hstore
    subst hstore
    by_contra hno
    cases step_cases (show step N h s .store = some s' from hs) with
    | store =>
        refine hP ⟨?_, rfl⟩
        intro i hi
        by_contra hne
        exact hno ⟨i, hi, hne⟩
  · intro hal pre hp t ht hlost
    have hI := throughout_along (I := fun s => RaceInv N s ∧ Awake N s)
      ⟨raceInv_init N h, fun hsusp => nomatch hsusp⟩
      (fun s e s' hI hok hs => awake_step s e s' hI hok hs) hal pre hp t ht
    obtain ⟨i, hi, hn⟩ := hI.2 hlost.2
    exact hn (hlost.1 i hi)
  · have hcount := (resumes_count N h tr s hr).2
    rw [hcount]
    split <;> omega
  · intro pre i hp t ht
    have hI := (resumes_count N h pre t ht).1
    obtain ⟨u, hu⟩ := run_initial hr hp
    obtain ⟨t', ht', hstep⟩ := runFrom_snoc.mp hu
    obtain rfl : t = t' := Option.some.inj (ht.symm.trans ht')
    cases step_cases (show step N h t (.readResume i) = some u from hstep) with
    | readResume _ hlast hset => exact resume_at_zero hI hlast hset

/-- The theorem at one notifier that comes after the store. -/
theorem wakeup_iff_store_in_time_one :
    (Throughout (raceMachine 1 0) (fun t => ¬ LostWakeup 1 t)
        [.load, .store, .fetchSub 0, .readResume 0] ↔
      Along (raceMachine 1 0) (StoreInTime 1) (raceMachine 1 0).init
        [.load, .store, .fetchSub 0, .readResume 0]) ∧
    [Event.load, .store, .fetchSub 0, .readResume 0].countP isResume ≤ 1 ∧
    (∀ pre i, pre ++ [.readResume i] <+: [.load, .store, .fetchSub 0, .readResume 0] →
      ∀ t, run (raceMachine 1 0) pre = some t →
        t.counter.cnt = 0 ∧ t.awaiter = .suspended) :=
  wakeup_iff_store_in_time 1 0 [.load, .store, .fetchSub 0, .readResume 0] _ rfl

/-- **THE WAKEUP CAN BE LOST**: one notifier, which runs to its end between the
    coroutine's load and its store. -/
theorem wakeup_lost :
    ¬ (∀ (N : UInt64) (h : Handle) (tr : List Event) (s : Race), 0 < N →
        run (raceMachine N h) tr = some s → ¬ LostWakeup N s) := by
  intro hall
  refine hall 1 0 [.load, .fetchSub 0, .readNull 0, .store] _ (by decide) rfl ⟨?_, rfl⟩
  intro i hi
  have h1 : (1 : UInt64).toNat = 1 := rfl
  obtain rfl : i = 0 := by omega
  rfl

end CoioCounter
