import Coio.MachineProofs
import Mathlib.Algebra.Group.Nat.Defs
import Mathlib.Data.Finset.Card
import Mathlib.Order.Interval.Finset.Nat

/-! # `async_resolver` — one worker thread, any number of queries

    A submitter pushes its query onto `m_query_list` under the mutex and then adds
    one to `m_pending_cnt`.  The worker swaps the list for its own, hands each
    query to c-ares, asks c-ares for its descriptors, lets it process them, and
    sleeps on the count when it is zero.  A query is called back at once or later;
    the callback posts the result and then subtracts one.

    Push and add are two steps, so a query can be called back before it is counted
    and the count goes below zero for a while.  It is unsigned; `pending_count`
    says what it is at all times.  The worker sleeps only when there is nothing to
    do (`live_nil_of_blocked`).  But it leaves its loop when c-ares has no
    descriptor, which is so whenever nothing is outstanding: before the first
    query, or when all queries so far have been called back (`stays_step`).

    A query is known to c-ares by the address of its awaiter.  Awaiters that are
    waiting are distinct objects, so there are fewer of them than addresses; this
    is what keeps the count from coming round to zero. -/

namespace CoioResolver

open CoioMachine

/-! ## The state -/

/-- The address of an awaiter. -/
structure Ptr where
  addr : Nat
  nonnull : 0 < addr
  in_range : addr < 2 ^ 64
  deriving DecidableEq

/-- `query_info`, with the number of the submission; host and service are not looked at. -/
structure Query where
  id : Nat
  arg : Ptr
  deriving DecidableEq

/-- Where the worker stands. -/
inductive Pc where
  /-- `while (!token.stop_requested())` -/
  | top
  /-- `if (!m_query_list.empty())` -/
  | test
  | swap
  /-- `for (auto &q : qlist)` -/
  | issue
  /-- in a callback of `ares_getaddrinfo`, before its `fetch_sub` -/
  | issueCallback
  /-- `nfds = ares_fds(...)` -/
  | fds
  /-- `select` and `ares_process` -/
  | process
  /-- in a callback of `ares_process`, before its `fetch_sub` -/
  | processCallback
  /-- `if (m_pending_cnt.load() == 0)` -/
  | load
  /-- `std::atomic_wait(&m_pending_cnt, 0)` -/
  | wait
  /-- behind the loop -/
  | left
  deriving DecidableEq

/-- The destructor: `request_stop`, then `try_wakeup`, then `ares_destroy`. -/
inductive Destructor where
  | idle
  | requested
  | woken
  /-- in a callback of `ares_destroy`, before its `fetch_sub` -/
  | destroyCallback
  deriving DecidableEq

structure Resolver where
  mQueryList : List Query
  /-- what the worker has still to issue -/
  qlist : List Query
  /-- the queries that c-ares has not called back -/
  outstanding : List Query
  /-- the queries that have been called back, in order -/
  completed : List Query
  mPendingCnt : Nat
  /-- the submitters between `push_back` and `try_wakeup` -/
  adding : List Nat
  /-- the number of submissions -/
  next : Nat
  destructor : Destructor
  pc : Pc
  deriving DecidableEq

/-- The queries whose awaiters are waiting. -/
def Resolver.live (s : Resolver) : List Query := s.mQueryList ++ s.qlist ++ s.outstanding

/-- `fetch_add(1)` and `fetch_sub(1)` on a `uint64_t`. -/
def fetchAdd (n : Nat) : Nat := (n + 1) % 2 ^ 64

def fetchSub (n : Nat) : Nat := (n + (2 ^ 64 - 1)) % 2 ^ 64

/-! ## The steps -/

inductive Event where
  /-- a submitter, under the mutex -/
  | push (arg : Ptr)
  /-- the `try_wakeup` of a submitter, which then returns -/
  | add (id : Nat)
  | requestStop
  /-- the `try_wakeup` of the destructor -/
  | wakeup
  | check
  | test
  | swap
  /-- `ares_getaddrinfo`, which calls back at once; the callback posts -/
  | issueNow
  /-- `ares_getaddrinfo`, which leaves the query outstanding -/
  | issueLater
  | issued
  | fds
  /-- `ares_process` calls back an outstanding query; the callback posts -/
  | complete (q : Query)
  /-- the `fetch_sub` of a callback, which then returns -/
  | sub
  | processed
  | load
  | wake
  /-- `ares_destroy` calls back an outstanding query; the callback posts -/
  | destroy (q : Query)
  /-- the `fetch_sub` of that callback -/
  | destroySub
  deriving DecidableEq

/-- One atomic step.  An awaiter that is submitted is not one that is waiting. -/
def step (s : Resolver) : Event → Option Resolver
  | .push arg => enabled (arg ∉ s.live.map Query.arg)
      { s with
        mQueryList := s.mQueryList ++ [⟨s.next, arg⟩]
        adding := s.adding ++ [s.next]
        next := s.next + 1 }
  | .add id => enabled (id ∈ s.adding)
      { s with adding := s.adding.erase id, mPendingCnt := fetchAdd s.mPendingCnt }
  | .requestStop => enabled (s.destructor = .idle) { s with destructor := .requested }
  | .wakeup => enabled (s.destructor = .requested)
      { s with destructor := .woken, mPendingCnt := fetchAdd s.mPendingCnt }
  | .check => enabled (s.pc = .top)
      { s with pc := if s.destructor = .idle then .test else .left }
  | .test => enabled (s.pc = .test)
      { s with pc := if s.mQueryList = [] then .issue else .swap }
  | .swap => enabled (s.pc = .swap)
      { s with qlist := s.mQueryList, mQueryList := s.qlist, pc := .issue }
  | .issueNow => s.qlist.head?.bind fun q => enabled (s.pc = .issue)
      { s with qlist := s.qlist.tail, completed := s.completed ++ [q], pc := .issueCallback }
  | .issueLater => s.qlist.head?.bind fun q => enabled (s.pc = .issue)
      { s with qlist := s.qlist.tail, outstanding := s.outstanding ++ [q] }
  | .issued => enabled (s.pc = .issue ∧ s.qlist = []) { s with pc := .fds }
  | .fds => enabled (s.pc = .fds)
      { s with pc := if s.outstanding = [] then .left else .process }
  | .complete q => enabled (s.pc = .process ∧ q ∈ s.outstanding)
      { s with
        outstanding := s.outstanding.erase q
        completed := s.completed ++ [q]
        pc := .processCallback }
  | .sub => enabled (s.pc = .issueCallback ∨ s.pc = .processCallback)
      { s with
        mPendingCnt := fetchSub s.mPendingCnt
        pc := if s.pc = .issueCallback then .issue else .process }
  | .processed => enabled (s.pc = .process) { s with pc := .load }
  | .load => enabled (s.pc = .load) { s with pc := if s.mPendingCnt = 0 then .wait else .top }
  | .wake => enabled (s.pc = .wait ∧ s.mPendingCnt ≠ 0) { s with pc := .top }
  | .destroy q => enabled (s.destructor = .woken ∧ q ∈ s.outstanding)
      { s with
        outstanding := s.outstanding.erase q
        completed := s.completed ++ [q]
        destructor := .destroyCallback }
  | .destroySub => enabled (s.destructor = .destroyCallback)
      { s with mPendingCnt := fetchSub s.mPendingCnt, destructor := .woken }

def resolverMachine : Machine Resolver Event where
  init :=
    { mQueryList := [], qlist := [], outstanding := [], completed := [], mPendingCnt := 0
      adding := [], next := 0, destructor := .idle, pc := .top }
  step := step

/-- Everything a step can do. -/
inductive Step (s : Resolver) : Event → Resolver → Prop
  | push (arg : Ptr) (hnew : arg ∉ s.live.map Query.arg) :
      Step s (.push arg)
        { s with
          mQueryList := s.mQueryList ++ [⟨s.next, arg⟩]
          adding := s.adding ++ [s.next]
          next := s.next + 1 }
  | add (id : Nat) (hmem : id ∈ s.adding) :
      Step s (.add id)
        { s with adding := s.adding.erase id, mPendingCnt := fetchAdd s.mPendingCnt }
  | requestStop (hidle : s.destructor = .idle) :
      Step s .requestStop { s with destructor := .requested }
  | wakeup (hreq : s.destructor = .requested) :
      Step s .wakeup { s with destructor := .woken, mPendingCnt := fetchAdd s.mPendingCnt }
  | check (hpc : s.pc = .top) :
      Step s .check { s with pc := if s.destructor = .idle then .test else .left }
  | test (hpc : s.pc = .test) :
      Step s .test { s with pc := if s.mQueryList = [] then .issue else .swap }
  | swap (hpc : s.pc = .swap) :
      Step s .swap { s with qlist := s.mQueryList, mQueryList := s.qlist, pc := .issue }
  | issueNow (q : Query) (rest : List Query) (hq : s.qlist = q :: rest) (hpc : s.pc = .issue) :
      Step s .issueNow
        { s with qlist := rest, completed := s.completed ++ [q], pc := .issueCallback }
  | issueLater (q : Query) (rest : List Query) (hq : s.qlist = q :: rest) (hpc : s.pc = .issue) :
      Step s .issueLater { s with qlist := rest, outstanding := s.outstanding ++ [q] }
  | issued (hpc : s.pc = .issue) (hq : s.qlist = []) : Step s .issued { s with pc := .fds }
  | fds (hpc : s.pc = .fds) :
      Step s .fds { s with pc := if s.outstanding = [] then .left else .process }
  | complete (q : Query) (hpc : s.pc = .process) (hq : q ∈ s.outstanding) :
      Step s (.complete q)
        { s with
          outstanding := s.outstanding.erase q
          completed := s.completed ++ [q]
          pc := .processCallback }
  | sub (hpc : s.pc = .issueCallback ∨ s.pc = .processCallback) :
      Step s .sub
        { s with
          mPendingCnt := fetchSub s.mPendingCnt
          pc := if s.pc = .issueCallback then .issue else .process }
  | processed (hpc : s.pc = .process) : Step s .processed { s with pc := .load }
  | load (hpc : s.pc = .load) :
      Step s .load { s with pc := if s.mPendingCnt = 0 then .wait else .top }
  | wake (hpc : s.pc = .wait) (hcnt : s.mPendingCnt ≠ 0) : Step s .wake { s with pc := .top }
  | destroy (q : Query) (hwoken : s.destructor = .woken) (hq : q ∈ s.outstanding) :
      Step s (.destroy q)
        { s with
          outstanding := s.outstanding.erase q
          completed := s.completed ++ [q]
          destructor := .destroyCallback }
  | destroySub (hback : s.destructor = .destroyCallback) :
      Step s .destroySub { s with mPendingCnt := fetchSub s.mPendingCnt, destructor := .woken }

/-- A step on the next query to issue. -/
theorem issue_cases {s s' : Resolver} {f : Query → Resolver}
    (h : (s.qlist.head?.bind fun q => enabled (s.pc = .issue) (f q)) = some s') :
    ∃ q rest, s.qlist = q :: rest ∧ s.pc = .issue ∧ s' = f q := by
  obtain ⟨q, hq, hs⟩ := Option.bind_eq_some_iff.mp h
  obtain ⟨hpc, rfl⟩ := enabled_eq_some.mp hs
  obtain ⟨rest, hrest⟩ := List.head?_eq_some_iff.mp hq
  exact ⟨q, rest, hrest, hpc, rfl⟩

/-- **INVERSION** of the step function. -/
theorem step_cases {s s' : Resolver} {e : Event} (hs : step s e = some s') : Step s e s' := by
  cases e with
  | push arg =>
      obtain ⟨hnew, rfl⟩ := enabled_eq_some.mp hs
      exact .push arg hnew
  | add id =>
      obtain ⟨hmem, rfl⟩ := enabled_eq_some.mp hs
      exact .add id hmem
  | requestStop =>
      obtain ⟨hidle, rfl⟩ := enabled_eq_some.mp hs
      exact .requestStop hidle
  | wakeup =>
      obtain ⟨hreq, rfl⟩ := enabled_eq_some.mp hs
      exact .wakeup hreq
  | check =>
      obtain ⟨hpc, rfl⟩ := enabled_eq_some.mp hs
      exact .check hpc
  | test =>
      obtain ⟨hpc, rfl⟩ := enabled_eq_some.mp hs
      exact .test hpc
  | swap =>
      obtain ⟨hpc, rfl⟩ := enabled_eq_some.mp hs
      exact .swap hpc
  | issueNow =>
      obtain ⟨q, rest, hq, hpc, rfl⟩ := issue_cases hs
      rw [hq]
      exact .issueNow q rest hq hpc
  | issueLater =>
      obtain ⟨q, rest, hq, hpc, rfl⟩ := issue_cases hs
      rw [hq]
      exact .issueLater q rest hq hpc
  | issued =>
      obtain ⟨⟨hpc, hq⟩, rfl⟩ := enabled_eq_some.mp hs
      exact .issued hpc hq
  | fds =>
      obtain ⟨hpc, rfl⟩ := enabled_eq_some.mp hs
      exact .fds hpc
  | complete q =>
      obtain ⟨⟨hpc, hq⟩, rfl⟩ := enabled_eq_some.mp hs
      exact .complete q hpc hq
  | sub =>
      obtain ⟨hpc, rfl⟩ := enabled_eq_some.mp hs
      exact .sub hpc
  | processed =>
      obtain ⟨hpc, rfl⟩ := enabled_eq_some.mp hs
      exact .processed hpc
  | load =>
      obtain ⟨hpc, rfl⟩ := enabled_eq_some.mp hs
      exact .load hpc
  | wake =>
      obtain ⟨⟨hpc, hcnt⟩, rfl⟩ := enabled_eq_some.mp hs
      exact .wake hpc hcnt
  | destroy q =>
      obtain ⟨⟨hwoken, hq⟩, rfl⟩ := enabled_eq_some.mp hs
      exact .destroy q hwoken hq
  | destroySub =>
      obtain ⟨hback, rfl⟩ := enabled_eq_some.mp hs
      exact .destroySub hback

/-! ## What a run has done -/

def isPush : Event → Bool
  | .push _ => true
  | _ => false

def isAdd : Event → Bool
  | .add _ => true
  | .wakeup => true
  | _ => false

def isSub : Event → Bool
  | .sub => true
  | .destroySub => true
  | _ => false

def isIssue : Event → Bool
  | .issueNow => true
  | .issueLater => true
  | _ => false

def isPost : Event → Bool
  | .issueNow => true
  | .complete _ => true
  | .destroy _ => true
  | _ => false

/-- The submissions, the finished `fetch_add`s and the finished callbacks of a run. -/
def pushes (es : List Event) : Nat := es.countP isPush

def adds (es : List Event) : Nat := es.countP isAdd

def finished (es : List Event) : Nat := es.countP isSub

/-- The `ares_getaddrinfo` calls, and the callbacks that have posted. -/
def issues (es : List Event) : Nat := es.countP isIssue

def posts (es : List Event) : Nat := es.countP isPost

/-- Whether the worker is in a callback that has not subtracted yet. -/
def inCallback : Pc → Nat
  | .issueCallback => 1
  | .processCallback => 1
  | _ => 0

/-- The same of the destructor, and whether it has added its one. -/
def Destructor.inCallback : Destructor → Nat
  | .destroyCallback => 1
  | _ => 0

def Destructor.added : Destructor → Nat
  | .idle => 0
  | .requested => 0
  | .woken => 1
  | .destroyCallback => 1

theorem tally_snoc (es : List Event) (e : Event) :
    pushes (es ++ [e]) = pushes es + (isPush e).toNat ∧
      adds (es ++ [e]) = adds es + (isAdd e).toNat ∧
      finished (es ++ [e]) = finished es + (isSub e).toNat ∧
      issues (es ++ [e]) = issues es + (isIssue e).toNat ∧
      posts (es ++ [e]) = posts es + (isPost e).toNat :=
  ⟨countP_snoc .., countP_snoc .., countP_snoc .., countP_snoc .., countP_snoc ..⟩

/-- What every run keeps between its events and its state. -/
structure Account (es : List Event) (s : Resolver) : Prop where
  next_eq : s.next = pushes es
  adds_eq : adds es + s.adding.length = pushes es + s.destructor.added
  finished_eq : s.completed.length = finished es + inCallback s.pc + s.destructor.inCallback
  posts_eq : s.completed.length = posts es
  issues_eq : s.outstanding.length + posts es = issues es
  count_lt : s.mPendingCnt < 2 ^ 64
  count_eq : (s.mPendingCnt + finished es) % 2 ^ 64 = adds es % 2 ^ 64

/-- An event that counts as nothing and moves only the worker and its lists. -/
theorem Account.silent {es : List Event} {s : Resolver} {e : Event} {pc : Pc}
    {list qlist : List Query} (h : Account es s)
    (he : isPush e = false ∧ isAdd e = false ∧ isSub e = false ∧ isIssue e = false ∧
      isPost e = false) (hpc : inCallback pc = inCallback s.pc) :
    Account (es ++ [e]) { s with mQueryList := list, qlist := qlist, pc := pc } := by
  obtain ⟨hpush, hadd, hsub, hissue, hpost⟩ := he
  have hpushes : pushes (es ++ [e]) = pushes es := countP_snoc_of_not hpush
  have hadds : adds (es ++ [e]) = adds es := countP_snoc_of_not hadd
  have hfinished : finished (es ++ [e]) = finished es := countP_snoc_of_not hsub
  have hissues : issues (es ++ [e]) = issues es := countP_snoc_of_not hissue
  have hposts : posts (es ++ [e]) = posts es := countP_snoc_of_not hpost
  refine ⟨?_, ?_, ?_, ?_, ?_, h.count_lt, ?_⟩
  · rw [hpushes]
    exact h.next_eq
  · rw [hadds, hpushes]
    exact h.adds_eq
  · rw [hfinished, hpc]
    exact h.finished_eq
  · rw [hposts]
    exact h.posts_eq
  · rw [hposts, hissues]
    exact h.issues_eq
  · rw [hfinished, hadds]
    exact h.count_eq

section Count

variable {es : List Event} {s : Resolver} {f a : Nat}

theorem Account.count_same (h : Account es s) (hf : f = finished es + 0) (ha : a = adds es + 0) :
    (s.mPendingCnt + f) % 2 ^ 64 = a % 2 ^ 64 := by
  rw [hf, ha]
  exact h.count_eq

theorem Account.count_fetchAdd (h : Account es s) (hf : f = finished es + 0)
    (ha : a = adds es + 1) :
    fetchAdd s.mPendingCnt < 2 ^ 64 ∧ (fetchAdd s.mPendingCnt + f) % 2 ^ 64 = a % 2 ^ 64 := by
  have hcount := h.count_eq
  unfold fetchAdd
  omega

/-- At zero the count wraps around, and the sum is still right. -/
theorem Account.count_fetchSub (h : Account es s) (hf : f = finished es + 1)
    (ha : a = adds es + 0) :
    fetchSub s.mPendingCnt < 2 ^ 64 ∧ (fetchSub s.mPendingCnt + f) % 2 ^ 64 = a % 2 ^ 64 := by
  have hcount := h.count_eq
  unfold fetchSub
  omega

end Count

theorem account_step {es : List Event} {s s' : Resolver} {e : Event} (h : Account es s)
    (hs : Step s e s') : Account (es ++ [e]) s' := by
  obtain ⟨hp, ha, hf, hi, ho⟩ := tally_snoc es e
  obtain ⟨hnext, hadds, hfinished, hposts, hissues, -, -⟩ := id h
  cases hs
  -- what the event counts as
  all_goals
    simp only [isPush, isAdd, isSub, isIssue, isPost, Bool.toNat_true, Bool.toNat_false]
      at hp ha hf hi ho
  case push arg hnew =>
    refine ⟨?_, ?_, ?_, ?_, ?_, h.count_lt, h.count_same hf ha⟩ <;>
      simp only [List.length_append, List.length_singleton] <;> omega
  case add id hmem =>
    have hpos := List.length_pos_of_mem hmem
    refine ⟨?_, ?_, ?_, ?_, ?_, (h.count_fetchAdd hf ha).1, (h.count_fetchAdd hf ha).2⟩ <;>
      simp only [List.length_erase_of_mem hmem] <;> omega
  case requestStop hidle =>
    rw [hidle] at hadds hfinished
    refine ⟨?_, ?_, ?_, ?_, ?_, h.count_lt, h.count_same hf ha⟩ <;>
      simp only [Destructor.added, Destructor.inCallback] at * <;> omega
  case wakeup hreq =>
    rw [hreq] at hadds hfinished
    refine ⟨?_, ?_, ?_, ?_, ?_, (h.count_fetchAdd hf ha).1, (h.count_fetchAdd hf ha).2⟩ <;>
      simp only [Destructor.added, Destructor.inCallback] at * <;> omega
  case issueNow q rest hq hpc =>
    rw [hpc] at hfinished
    refine ⟨?_, ?_, ?_, ?_, ?_, h.count_lt, h.count_same hf ha⟩ <;>
      simp only [List.length_append, List.length_singleton, inCallback] at * <;> omega
  case issueLater q rest hq hpc =>
    refine ⟨?_, ?_, ?_, ?_, ?_, h.count_lt, h.count_same hf ha⟩ <;>
      simp only [List.length_append, List.length_singleton] <;> omega
  case complete q hpc hq =>
    have hpos := List.length_pos_of_mem hq
    rw [hpc] at hfinished
    refine ⟨?_, ?_, ?_, ?_, ?_, h.count_lt, h.count_same hf ha⟩ <;>
      simp only [List.length_append, List.length_singleton, List.length_erase_of_mem hq,
        inCallback] at * <;> omega
  case sub hpc =>
    have hback : inCallback s.pc = 1 := by
      rcases hpc with hpc | hpc <;> rw [hpc] <;> rfl
    have hdone : inCallback (if s.pc = .issueCallback then .issue else .process) = 0 := by
      split <;> rfl
    refine ⟨?_, ?_, ?_, ?_, ?_, (h.count_fetchSub hf ha).1, (h.count_fetchSub hf ha).2⟩ <;>
      simp only [hdone] <;> omega
  case destroy q hwoken hq =>
    have hpos := List.length_pos_of_mem hq
    rw [hwoken] at hadds hfinished
    refine ⟨?_, ?_, ?_, ?_, ?_, h.count_lt, h.count_same hf ha⟩ <;>
      simp only [List.length_append, List.length_singleton, List.length_erase_of_mem hq,
        Destructor.added, Destructor.inCallback] at * <;> omega
  case destroySub hback =>
    rw [hback] at hadds hfinished
    refine ⟨?_, ?_, ?_, ?_, ?_, (h.count_fetchSub hf ha).1, (h.count_fetchSub hf ha).2⟩ <;>
      simp only [Destructor.added, Destructor.inCallback] at * <;> omega
  -- the worker moves on, neither into a callback nor out of one
  case check hpc | test hpc | fds hpc | load hpc =>
    refine h.silent (by decide) ?_
    rw [hpc]
    split <;> rfl
  case swap hpc | issued hpc _ | processed hpc | wake hpc _ =>
    refine h.silent (by decide) ?_
    rw [hpc]
    rfl

theorem run_account : ∀ es s, run resolverMachine es = some s → Account es s := by
  refine run_history ⟨rfl, rfl, rfl, rfl, rfl, by decide, rfl⟩ ?_
  exact fun es s e s' _ h hs => account_step h (step_cases hs)

/-- The destructor has started when stop has been requested. -/
theorem run_stop : ∀ es s, run resolverMachine es = some s →
    (.requestStop ∈ es ↔ s.destructor ≠ .idle) := by
  refine run_history (by decide) ?_
  intro es s e s' _ h hs
  rw [List.mem_append, List.mem_singleton, h]
  cases step_cases hs with
  | requestStop hidle => exact ⟨fun _ => nofun, fun _ => .inr rfl⟩
  | wakeup hreq => exact ⟨fun _ => nofun, fun _ => .inl (by rw [hreq]; nofun)⟩
  | destroy q hwoken => exact ⟨fun _ => nofun, fun _ => .inl (by rw [hwoken]; nofun)⟩
  | destroySub hback => exact ⟨fun _ => nofun, fun _ => .inl (by rw [hback]; nofun)⟩
  | _ => exact or_iff_left nofun

/-! ## Where a query is -/

/-- The address that a submitter pushes. -/
def pushed : Event → Option Ptr
  | .push arg => some arg
  | _ => none

/-- The queries that have been submitted, in order. -/
def submitted (es : List Event) : List Query := (es.filterMap pushed).mapIdx Query.mk

/-- How often a query is in one of the four places. -/
def Resolver.places (s : Resolver) (q : Query) : Nat :=
  s.mQueryList.count q + s.qlist.count q + s.outstanding.count q + s.completed.count q

theorem submitted_length (es : List Event) : (submitted es).length = pushes es := by
  rw [submitted, List.length_mapIdx, List.length_filterMap_eq_countP, pushes]
  congr
  funext e
  cases e <;> rfl

theorem submitted_push (es : List Event) (arg : Ptr) :
    submitted (es ++ [Event.push arg]) = submitted es ++ [Query.mk (pushes es) arg] := by
  rw [← submitted_length, submitted, submitted, List.filterMap_append, List.mapIdx_append,
    List.length_mapIdx]
  simp [pushed]

theorem submitted_of_not {es : List Event} {e : Event} (h : pushed e = none) :
    submitted (es ++ [e]) = submitted es := by
  rw [submitted, List.filterMap_append, List.filterMap_cons_none h, List.filterMap_nil,
    List.append_nil, submitted]

/-- No two submissions have the same number. -/
theorem submitted_nodup (es : List Event) : (submitted es).Nodup := by
  rw [List.nodup_iff_injective_getElem]
  intro i j hij
  simp only [submitted, List.getElem_mapIdx, Query.mk.injEq] at hij
  exact Fin.ext hij.1

/-- A submitted query is in one place. -/
theorem run_places : ∀ es s, run resolverMachine es = some s →
    ∀ q, s.places q = (submitted es).count q := by
  refine run_history (fun q => rfl) ?_
  intro es s e s' hr h hs q
  have hplaces := h q
  unfold Resolver.places at hplaces ⊢
  cases step_cases hs with
  | push arg =>
      rw [submitted_push, (run_account es s hr).next_eq, List.count_append, List.count_append]
      dsimp only
      omega
  | swap =>
      rw [submitted_of_not rfl]
      dsimp only
      omega
  | issueNow q' rest hq hpc | issueLater q' rest hq hpc =>
      rw [submitted_of_not rfl, List.count_append, List.count_singleton]
      rw [hq, List.count_cons] at hplaces
      dsimp only
      omega
  | complete q' _ hq | destroy q' _ hq =>
      -- the callback takes it from `outstanding` to `completed`
      have hmoved := (List.perm_cons_erase hq).count_eq q
      rw [List.count_cons] at hmoved
      rw [submitted_of_not rfl, List.count_append, List.count_singleton]
      dsimp only
      omega
  | _ =>
      rw [submitted_of_not rfl]
      exact hplaces

/-! ## The awaiters that wait -/

/-- Whether the worker is in its `for` loop. -/
def issuing : Pc → Bool
  | .issue => true
  | .issueCallback => true
  | _ => false

/-- What every reachable state keeps: the worker has queries to issue only while it
    issues them, and the awaiters that wait are distinct. -/
structure Distinct (s : Resolver) : Prop where
  qlist_nil : issuing s.pc = false → s.qlist = []
  count_le : ∀ p, (s.live.map Query.arg).count p ≤ 1

theorem live_count (s : Resolver) (p : Ptr) :
    (s.live.map Query.arg).count p =
      (s.mQueryList.map Query.arg).count p + (s.qlist.map Query.arg).count p +
        (s.outstanding.map Query.arg).count p := by
  rw [Resolver.live, List.map_append, List.map_append, List.count_append, List.count_append]

/-- A step that leaves the lists alone. -/
theorem Distinct.keep {s s' : Resolver} (h : Distinct s)
    (hlists : s'.mQueryList = s.mQueryList ∧ s'.qlist = s.qlist ∧
      s'.outstanding = s.outstanding) (hnil : issuing s'.pc = false → s.qlist = []) :
    Distinct s' := by
  obtain ⟨hlist, hqlist, hout⟩ := hlists
  refine ⟨fun hpc => hqlist.trans (hnil hpc), fun p => ?_⟩
  rw [Resolver.live, hlist, hqlist, hout]
  exact h.count_le p

/-- A callback takes its query out of the channel. -/
theorem Distinct.calledBack {s s' : Resolver} (h : Distinct s) (q : Query)
    (hlists : s'.mQueryList = s.mQueryList ∧ s'.qlist = s.qlist ∧
      s'.outstanding = s.outstanding.erase q) (hnil : issuing s'.pc = false → s.qlist = []) :
    Distinct s' := by
  obtain ⟨hlist, hqlist, hout⟩ := hlists
  refine ⟨fun hpc => hqlist.trans (hnil hpc), fun p => ?_⟩
  have hle := h.count_le p
  have hsub : (s.outstanding.erase q).Sublist s.outstanding := List.erase_sublist
  have hfewer := (hsub.map Query.arg).count_le p
  rw [live_count] at hle ⊢
  rw [hlist, hqlist, hout]
  omega

theorem Distinct.step {s s' : Resolver} {e : Event} (h : Distinct s) (hs : Step s e s') :
    Distinct s' := by
  cases hs with
  | push arg hnew =>
      refine ⟨h.qlist_nil, fun p => ?_⟩
      have hle := h.count_le p
      rw [live_count] at hle ⊢
      rw [List.map_append, List.count_append, List.map_singleton, List.count_singleton]
      dsimp only
      -- the new awaiter was not waiting, the others are as before
      by_cases hp : arg = p
      · subst hp
        have hzero := List.count_eq_zero.mpr hnew
        rw [live_count] at hzero
        rw [if_pos (beq_self_eq_true arg)]
        omega
      · rw [if_neg (by simpa using hp)]
        omega
  | swap hpc =>
      have hnil := h.qlist_nil (by rw [hpc]; rfl)
      refine ⟨nofun, fun p => ?_⟩
      have hle := h.count_le p
      rw [live_count, hnil] at hle ⊢
      dsimp only
      omega
  | issueNow q rest hq hpc =>
      refine ⟨nofun, fun p => ?_⟩
      have hle := h.count_le p
      rw [live_count] at hle ⊢
      rw [hq, List.map_cons, List.count_cons] at hle
      dsimp only
      omega
  | issueLater q rest hq hpc =>
      refine ⟨fun hissue => ?_, fun p => ?_⟩
      · rw [hpc] at hissue
        exact nomatch hissue
      · have hle := h.count_le p
        rw [live_count] at hle ⊢
        rw [hq, List.map_cons, List.count_cons] at hle
        rw [List.map_append, List.count_append, List.map_singleton, List.count_singleton]
        dsimp only
        omega
  | complete q hpc hq =>
      exact h.calledBack q ⟨rfl, rfl, rfl⟩ (fun _ => h.qlist_nil (by rw [hpc]; rfl))
  | destroy q hwoken hq => exact h.calledBack q ⟨rfl, rfl, rfl⟩ h.qlist_nil
  | issued hpc hq => exact h.keep ⟨rfl, rfl, rfl⟩ (fun _ => hq)
  | sub hpc =>
      refine h.keep ⟨rfl, rfl, rfl⟩ (fun hout => h.qlist_nil ?_)
      rcases hpc with hpc | hpc
      · rw [if_pos hpc] at hout
        exact nomatch hout
      · rw [hpc]
        rfl
  | check hpc | test hpc | fds hpc | processed hpc | load hpc | wake hpc =>
      exact h.keep ⟨rfl, rfl, rfl⟩ (fun _ => h.qlist_nil (by rw [hpc]; rfl))
  | add | requestStop | wakeup | destroySub => exact h.keep ⟨rfl, rfl, rfl⟩ h.qlist_nil

theorem run_distinct {es : List Event} {s : Resolver} (hr : run resolverMachine es = some s) :
    Distinct s :=
  run_invariant ⟨fun _ => rfl, fun _ => Nat.zero_le 1⟩
    (fun _ _ _ h hs => h.step (step_cases hs)) hr

/-- Distinct objects have distinct addresses, and there are fewer than `2 ^ 64`. -/
theorem length_lt_of_nodup {args : List Ptr} (h : args.Nodup) : args.length < 2 ^ 64 := by
  have haddr : (args.map Ptr.addr).Nodup := h.map fun ⟨_, _, _⟩ ⟨_, _, _⟩ heq => by
    obtain rfl := heq
    rfl
  have hsub : (args.map Ptr.addr).toFinset ⊆ Finset.Ico 1 (2 ^ 64) := by
    intro a ha
    obtain ⟨p, _, rfl⟩ := List.mem_map.mp (List.mem_toFinset.mp ha)
    exact Finset.mem_Ico.mpr ⟨p.nonnull, p.in_range⟩
  have hcard := Finset.card_le_card hsub
  rw [List.toFinset_card_of_nodup haddr, List.length_map, Nat.card_Ico] at hcard
  omega

theorem live_length_lt {es : List Event} {s : Resolver} (hr : run resolverMachine es = some s) :
    s.live.length < 2 ^ 64 := by
  have hnodup := List.nodup_iff_count_le_one.mpr (run_distinct hr).count_le
  rw [← List.length_map Query.arg]
  exact length_lt_of_nodup hnodup

/-! ## Sleeping -/

/-- The worker is blocked in `atomic_wait`. -/
def Blocked (s : Resolver) : Prop := s.pc = .wait ∧ s.mPendingCnt = 0

theorem pending_count {es : List Event} {s : Resolver} (hr : run resolverMachine es = some s) :
    (s.mPendingCnt : Int) = ((adds es : Int) - finished es) % 2 ^ 64 := by
  have hlt := (run_account es s hr).count_lt
  have hcount := (run_account es s hr).count_eq
  omega

/-- The queries that have not been called back are those still in the other places. -/
theorem live_add_completed {es : List Event} {s : Resolver}
    (hr : run resolverMachine es = some s) : s.live.length + s.completed.length = pushes es := by
  have hperm : (s.live ++ s.completed).Perm (submitted es) := by
    rw [List.perm_iff_count]
    intro q
    rw [← run_places es s hr q, Resolver.live, List.count_append, List.count_append,
      List.count_append, Resolver.places]
  rw [← submitted_length, ← hperm.length_eq, List.length_append]

/-- A count of zero is exact: there is no room for `2 ^ 64` awaiters to wait. -/
theorem live_nil_of_blocked {es : List Event} {s : Resolver}
    (hr : run resolverMachine es = some s) (hblocked : Blocked s) (hadding : s.adding = [])
    (hstop : s.destructor = .idle) : s.live = [] := by
  have hadds := (run_account es s hr).adds_eq
  have hfinished := (run_account es s hr).finished_eq
  have hcount := (run_account es s hr).count_eq
  have hlive := live_add_completed hr
  have hlt := live_length_lt hr
  rw [hadding, hstop, List.length_nil, Destructor.added] at hadds
  simp only [hblocked.1, hstop, inCallback, Destructor.inCallback] at hfinished
  rw [hblocked.2] at hcount
  exact List.eq_nil_of_length_eq_zero (by omega)

/-- **THE WORKER SLEEPS ONLY WHEN IDLE**: in every run the count is the number of
    finished `fetch_add`s less the number of finished callbacks; every submitted
    query is in exactly one place and nothing else is in any; and when the worker is
    blocked, with every submitter back and no stop requested, nothing is left to do. -/
theorem worker_sleeps_idle {es : List Event} {s : Resolver}
    (hr : run resolverMachine es = some s) :
    (s.mPendingCnt : Int) = ((adds es : Int) - finished es) % 2 ^ 64 ∧
      (∀ q, s.places q = if q ∈ submitted es then 1 else 0) ∧
      (Blocked s → s.adding = [] → .requestStop ∉ es →
        s.mQueryList = [] ∧ s.qlist = [] ∧ s.outstanding = []) := by
  refine ⟨pending_count hr, fun q => ?_, fun hblocked hadding hstop => ?_⟩
  · rw [run_places es s hr q, (submitted_nodup es).count]
  · have hidle : s.destructor = .idle := by
      by_contra hne
      exact hstop ((run_stop es s hr).mpr hne)
    have hnil := live_nil_of_blocked hr hblocked hadding hidle
    rw [Resolver.live, List.append_eq_nil_iff, List.append_eq_nil_iff] at hnil
    exact ⟨hnil.1.1, hnil.1.2, hnil.2⟩

/-- The query is called back before it is counted: the count is `2 ^ 64 - 1` in between. -/
def lateAdd : List Event :=
  [.push ⟨8, by decide, by decide⟩, .check, .test, .swap, .issueLater, .issued, .fds,
    .complete ⟨0, 8, by decide, by decide⟩, .sub, .add 0, .processed, .load]

/-- The worker goes to sleep behind it. -/
theorem worker_sleeps_idle_lateAdd :
    ∃ s, run resolverMachine lateAdd = some s ∧ Blocked s ∧
      s.mQueryList = [] ∧ s.qlist = [] ∧ s.outstanding = [] := by
  have hrun : (run resolverMachine lateAdd).map (fun s => (s.pc, s.mPendingCnt, s.adding)) =
      some (.wait, 0, []) := by decide +kernel
  obtain ⟨s, hs, hend⟩ := Option.map_eq_some_iff.mp hrun
  have hpc : s.pc = .wait := congrArg Prod.fst hend
  have hcnt : s.mPendingCnt = 0 := congrArg (fun x => x.2.1) hend
  have hadding : s.adding = [] := congrArg (fun x => x.2.2) hend
  exact ⟨s, hs, ⟨hpc, hcnt⟩, (worker_sleeps_idle hs).2.2 ⟨hpc, hcnt⟩ hadding (by decide)⟩

/-! ## Leaving -/

/-- The worker is in its loop unless stop has been requested. -/
def Stays (s : Resolver) : Prop := s.pc = .left → s.destructor ≠ .idle

instance : DecidablePred Stays :=
  fun s => inferInstanceAs (Decidable (s.pc = .left → s.destructor ≠ .idle))

/-- A query waits to be issued or called back, stop has not been requested, and no thread is
    there to do it. -/
def Stranded (s : Resolver) : Prop :=
  s.pc = .left ∧ s.destructor = .idle ∧ (s.mQueryList ≠ [] ∨ s.outstanding ≠ [])

instance : DecidablePred Stranded :=
  fun s => inferInstanceAs
    (Decidable (s.pc = .left ∧ s.destructor = .idle ∧ (s.mQueryList ≠ [] ∨ s.outstanding ≠ [])))

/-- The one step that can take the worker out early is `nfds == 0`. -/
theorem stays_step {s s' : Resolver} {e : Event} (h : Stays s)
    (hfds : e = .fds → s.destructor ≠ .idle ∨ s.outstanding ≠ []) (hs : Step s e s') :
    Stays s' := by
  intro hleft
  cases hs with
  | requestStop | wakeup | destroy | destroySub => nofun
  | push | add | issueLater => exact h hleft
  | check hpc =>
      intro hidle
      rw [if_pos hidle] at hleft
      exact nomatch hleft
  | fds hpc =>
      rcases hfds rfl with hstop | hout
      · exact hstop
      · rw [if_neg hout] at hleft
        exact nomatch hleft
  | test hpc | load hpc | sub hpc =>
      dsimp only at hleft
      split at hleft <;> exact nomatch hleft
  | swap | issueNow | issued | complete | processed | wake => exact nomatch hleft

/-- Some query that has been issued has not been called back. -/
theorem outstanding_iff {es : List Event} {s : Resolver}
    (hr : run resolverMachine es = some s) : s.outstanding ≠ [] ↔ posts es < issues es := by
  have hissues := (run_account es s hr).issues_eq
  rw [← List.length_pos_iff]
  omega

/-- The condition at each `ares_fds`. -/
def AlwaysOutstanding (es : List Event) : Prop :=
  ∀ before, before ++ [.fds] <+: es → .requestStop ∈ before ∨ posts before < issues before

theorem stays_of_outstanding : ∀ es s, run resolverMachine es = some s →
    AlwaysOutstanding es → Stays s := by
  refine run_history (fun _ => nofun) ?_
  intro es s e s' hr h hs hout
  refine stays_step (h fun before hb => hout before (hb.trans (List.prefix_append ..))) ?_
    (step_cases hs)
  rintro rfl
  rw [← run_stop es s hr, outstanding_iff hr]
  exact hout es List.prefix_rfl

/-- **WHEN THE WORKER STAYS**: in a run it never leaves early exactly when at each `ares_fds`
    some issued query has not been called back, or stop has been requested; and then no query
    is ever stranded. -/
theorem worker_stays_iff {es : List Event} {s : Resolver}
    (hr : run resolverMachine es = some s) :
    (Throughout resolverMachine Stays es ↔ AlwaysOutstanding es) ∧
      (AlwaysOutstanding es → Throughout resolverMachine (fun t => ¬ Stranded t) es) := by
  have hstays : AlwaysOutstanding es → Throughout resolverMachine Stays es :=
    fun hout pre hp t ht =>
      stays_of_outstanding pre t ht fun before hb => hout before (hb.trans hp)
  refine ⟨⟨fun hth before hb => ?_, hstays⟩, fun hout pre hp t ht hstranded => ?_⟩
  · obtain ⟨t, t', ht, hs⟩ := run_at hr hb
    rw [run_stop before t ht, ← outstanding_iff ht]
    by_contra hnone
    obtain ⟨hidle, hnil⟩ := not_or.mp hnone
    -- the worker breaks out of the loop here
    have ht' : run resolverMachine (before ++ [.fds]) = some t' := runFrom_snoc.mpr ⟨t, ht, hs⟩
    obtain ⟨hpc, rfl⟩ := enabled_eq_some.mp hs
    have hleft : (if t.outstanding = [] then Pc.left else .process) = .left :=
      if_pos (not_not.mp hnil)
    have hstop := hth _ hb _ ht' hleft
    exact hidle hstop
  · exact hstays hout pre hp t ht hstranded.1 hstranded.2.1

/-- A query that c-ares keeps until the worker has asked for the descriptors. -/
def slowQuery : List Event :=
  [.check, .push ⟨8, by decide, by decide⟩, .add 0, .test, .swap, .issueLater, .issued, .fds,
    .complete ⟨0, 8, by decide, by decide⟩, .sub, .processed, .load]

/-- The worker stays, and sleeps behind the query. -/
theorem worker_stays_iff_slowQuery :
    (∃ s, run resolverMachine slowQuery = some s) ∧
      Throughout resolverMachine Stays slowQuery ∧
      Throughout resolverMachine (fun t => ¬ Stranded t) slowQuery := by
  obtain ⟨s, hs⟩ : ∃ s, run resolverMachine slowQuery = some s :=
    Option.isSome_iff_exists.mp (by decide +kernel)
  have hstays : Throughout resolverMachine Stays slowQuery :=
    throughout_of_inits (by decide +kernel)
  obtain ⟨hiff, hnever⟩ := worker_stays_iff hs
  exact ⟨⟨s, hs⟩, hstays, hnever (hiff.mp hstays)⟩

/-- The worker's first pass finds no query and c-ares no descriptor. -/
def earlyBreak : List Event :=
  [.check, .test, .issued, .fds, .push ⟨8, by decide, by decide⟩, .add 0]

/-- Nobody but the worker takes a query out of its place. -/
theorem Stranded.step {s s' : Resolver} {e : Event} (h : Stranded s)
    (hstop : e ≠ .requestStop) (hs : Step s e s') : Stranded s' := by
  obtain ⟨hleft, hidle, hwork⟩ := h
  have hgone {pc : Pc} (hpc : s.pc = pc) (hne : pc ≠ .left) : Stranded s' :=
    absurd (hpc.symm.trans hleft) hne
  cases hs with
  | push => exact ⟨hleft, hidle, .inl (List.append_ne_nil_of_right_ne_nil _ nofun)⟩
  | add => exact ⟨hleft, hidle, hwork⟩
  | requestStop => exact absurd rfl hstop
  | wakeup hreq | destroy _ hreq | destroySub hreq => exact nomatch hidle.symm.trans hreq
  | sub hpc => exact hpc.elim (hgone · nofun) (hgone · nofun)
  | check hpc | test hpc | swap hpc | issueNow _ _ _ hpc | issueLater _ _ _ hpc | issued hpc
  | fds hpc | complete _ hpc | processed hpc | load hpc | wake hpc => exact hgone hpc nofun

theorem Stranded.run {s : Resolver} (h : Stranded s) : ∀ es t,
    runFrom resolverMachine s es = some t → .requestStop ∉ es → Stranded t := by
  refine runFrom_history (fun _ => h) ?_
  intro es t e t' _ ih hs hstop
  rw [List.mem_append, List.mem_singleton, not_or] at hstop
  exact (ih hstop.1).step (Ne.symm hstop.2) (step_cases hs)

/-- The query that comes then is counted and never looked at, whatever happens until stop. -/
theorem query_stranded :
    ∃ s, run resolverMachine earlyBreak = some s ∧ .requestStop ∉ earlyBreak ∧ Stranded s ∧
      ∀ es t, runFrom resolverMachine s es = some t → .requestStop ∉ es → Stranded t := by
  obtain ⟨s, hs, hstranded⟩ : ∃ s, run resolverMachine earlyBreak = some s ∧ Stranded s :=
    ⟨_, rfl, by decide⟩
  exact ⟨s, hs, by decide, hstranded, hstranded.run⟩

end CoioResolver
