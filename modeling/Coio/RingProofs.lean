import Coio.IoContextProofs
import Mathlib.Data.List.Nodup
import Mathlib.Data.List.Perm.Basic

/-! # Completions reach their awaiters

    A suspended `io_awaiter` has ONE entry in the rings: unsubmitted, in flight,
    or completed and not yet seen.  Submitting, completing and marking as seen
    move entries around without copying them, so up to order the rings (`ring`)
    only change when `get_sqe` adds an entry and when the head completion is
    marked as seen.  For whole runs it follows that each suspension is resumed
    once, by its own completion.

    The head completion stays in the ring while its coroutine runs, and the
    awaiter's address may be used again meanwhile; `Processed` marks that one
    entry whose address no longer means anything. -/

namespace CoioRing

open CoioMachine CoioIoContext
open CoioRemoteQueue (Queue)

variable {X : Type} {n : Nat}

/-- The entry a completion comes from. -/
def toEntry (c : Cqe) : Entry := { op := c.op, data := c.data }

/-- All entries: unsubmitted, in flight, completed and not yet seen. -/
def ring (s : State X) : List Entry := s.sq ++ s.inflight ++ s.cq.map toEntry

/-! ## What the operations do to the rings, up to order -/

theorem ring_submitAll (s : State X) : (ring (submitAll s)).Perm (ring s) := by
  show ([] ++ (s.inflight ++ s.sq) ++ s.cq.map toEntry).Perm _
  rw [List.nil_append]
  exact List.Perm.append_right _ List.perm_append_comm

theorem ring_getSqe (s : State X) (data : Option Addr) :
    (ring (getSqe s data)).Perm ({ op := s.nextOp, data := data } :: ring s) := by
  show ((s.sq ++ [_]) ++ s.inflight ++ s.cq.map toEntry).Perm _
  simp only [ring, List.append_assoc, List.singleton_append]
  exact List.perm_middle

/-- The element found is the one erased. -/
theorem find?_eraseP_perm {p : Entry → Bool} {x : Entry} :
    ∀ {l : List Entry}, l.find? p = some x → (x :: l.eraseP p).Perm l := by
  intro l
  induction l with
  | nil => intro h; exact nomatch h
  | cons y l ih =>
      intro h
      cases hy : p y with
      | true =>
          rw [List.find?_cons_of_pos hy] at h
          obtain rfl := Option.some.inj h
          rw [List.eraseP_cons_of_pos hy]
      | false =>
          have hy' : ¬ p y = true := by simp [hy]
          rw [List.find?_cons_of_neg hy'] at h
          rw [List.eraseP_cons_of_neg hy']
          exact (List.Perm.swap y x _).trans ((ih h).cons y)

theorem ring_complete (s : State X) (op : OpId) (res : Int32) (flags : UInt32) :
    (ring (complete s op res flags)).Perm (ring s) := by
  unfold complete
  split
  · exact List.Perm.refl _
  · rename_i x hx
    have hop : x.op = op := by simpa using List.find?_some hx
    have hentry : toEntry { op := op, data := x.data, res := res, flags := flags } = x := by
      rw [← hop]
      rfl
    show (s.sq ++ s.inflight.eraseP (fun e => e.op == op)
      ++ (s.cq ++ [_]).map toEntry).Perm (s.sq ++ s.inflight ++ s.cq.map toEntry)
    rw [List.map_append, List.map_singleton, hentry, List.append_assoc, List.append_assoc]
    refine List.Perm.append_left s.sq ?_
    have hback : (s.cq.map toEntry ++ [x]).Perm (x :: s.cq.map toEntry) :=
      List.perm_append_singleton x _
    exact ((hback.append_left _).trans List.perm_middle).trans
      ((find?_eraseP_perm hx).append_right _)

theorem ring_cqeSeen {s : State X} {c : Cqe} {rest : List Cqe} (hcq : s.cq = c :: rest) :
    (ring s).Perm (toEntry c :: ring (cqeSeen s)) := by
  show (s.sq ++ s.inflight ++ s.cq.map toEntry).Perm
    (toEntry c :: (s.sq ++ s.inflight ++ s.cq.tail.map toEntry))
  rw [hcq]
  exact List.perm_middle

/-! ## What a step does to the rings -/

/-- Does the event suspend, complete or resume operation `op`? -/
def isSuspend (op : OpId) : Event X → Bool
  | .suspendIo op' _ _ => op' == op
  | _ => false

def isComplete (op : OpId) : Event X → Bool
  | .complete op' _ _ => op' == op
  | _ => false

def isResume (op : OpId) : Event X → Bool
  | .resume op' _ _ _ _ => op' == op
  | _ => false

/-- The event neither suspends, nor completes, nor resumes. -/
def Silent (e : Event X) : Prop :=
  ∀ op, isSuspend op e = false ∧ isComplete op e = false ∧ isResume op e = false

/-- Everything a step can do to the rings and the awaiters. -/
inductive RingStep (s : State X) (e : Event X) (s' : State X) : Prop where
  | suspendIo (a : Addr) (h : Handle) (he : e = .suspendIo s.nextOp a h)
      (hfree : s.suspended a = none) (hs' : s' = awaitSuspend s a h)
  | nonpollSubmit (he : Silent e) (hpc : s.pc = .submit) (hs' : s' = nonpollSubmit s)
  | pollSubmit (he : Silent e) (hpc : s.pc = .submit) (hs' : s' = pollSubmit s)
  | complete (op : OpId) (res : Int32) (flags : UInt32) (he : e = .complete op res flags)
      (hmem : ∃ x ∈ s.inflight, x.op = op) (hs' : s' = complete s op res flags)
  | resume (a : Addr) (h : Handle) (c : Cqe) (rest : List Cqe)
      (he : e = .resume c.op a h c.res c.flags.toInt32) (hpc : s.pc = .cqes)
      (hcq : s.cq = c :: rest) (hdata : c.data = some a)
      (hcont : (s.memory a).continuation = some h) (hs' : s' = resumeCqe s c a)
  | skip (c : Cqe) (rest : List Cqe) (he : Silent e) (hpc : s.pc = .cqes)
      (hcq : s.cq = c :: rest) (hdata : c.data = none) (hs' : s' = { s with pc := .seen })
  | seen (he : Silent e) (hpc : s.pc = .seen) (hs' : s' = cqeSeen s)
  | quiet (he : Silent e) (hskip : e ≠ .skip) (hseen : e ≠ .seen)
      (hsq : s'.sq = s.sq) (hinflight : s'.inflight = s.inflight) (hcq : s'.cq = s.cq)
      (hmemory : s'.memory = s.memory) (hsuspended : s'.suspended = s.suspended)
      (hnext : s'.nextOp = s.nextOp)

theorem ring_cases [DecidableEq X] {s s' : State X} {e : Event X} (hs : step n s e = some s') :
    RingStep s e s' := by
  have hquiet : ∀ op : OpId, false = false ∧ false = false ∧ false = false :=
    fun _ => ⟨rfl, rfl, rfl⟩
  cases e with
  | suspendIo op a h =>
      obtain ⟨⟨-, hfree, rfl, -⟩, rfl⟩ := enabled_eq_some.mp hs
      exact .suspendIo a h rfl hfree rfl
  | nonpollSubmit =>
      obtain ⟨⟨hpc, -⟩, rfl⟩ := enabled_eq_some.mp hs
      exact .nonpollSubmit hquiet hpc rfl
  | pollSubmit =>
      obtain ⟨⟨hpc, -⟩, rfl⟩ := enabled_eq_some.mp hs
      exact .pollSubmit hquiet hpc rfl
  | complete op res flags =>
      obtain ⟨hmem, rfl⟩ := enabled_eq_some.mp hs
      exact .complete op res flags rfl hmem rfl
  | resume op a h res flag =>
      obtain ⟨c, rest, hcq, ⟨hpc, rfl, hdata, hcont, rfl, rfl⟩, rfl⟩ := resume_cases hs
      exact .resume a h c rest rfl hpc hcq hdata hcont rfl
  | skip =>
      obtain ⟨⟨hpc, c, hhead, hdata⟩, rfl⟩ := enabled_eq_some.mp hs
      obtain ⟨rest, hcq⟩ := List.head?_eq_some_iff.mp hhead
      exact .skip c rest hquiet hpc hcq hdata rfl
  | seen =>
      obtain ⟨hpc, rfl⟩ := enabled_eq_some.mp hs
      exact .seen hquiet hpc rfl
  | post inLocal x =>
      obtain ⟨-, rfl⟩ := enabled_eq_some.mp hs
      cases inLocal <;> exact .quiet hquiet (fun h => nomatch h) (fun h => nomatch h)
        rfl rfl rfl rfl rfl rfl
  | dispatch inLocal x =>
      obtain ⟨-, rfl⟩ := enabled_eq_some.mp hs
      cases inLocal <;> exact .quiet hquiet (fun h => nomatch h) (fun h => nomatch h)
        rfl rfl rfl rfl rfl rfl
  | coSpawn inLocal x =>
      obtain ⟨-, rfl⟩ := enabled_eq_some.mp hs
      cases inLocal <;> exact .quiet hquiet (fun h => nomatch h) (fun h => nomatch h)
        rfl rfl rfl rfl rfl rfl
  | loopTest =>
      obtain ⟨-, rfl⟩ := enabled_eq_some.mp hs
      obtain ⟨pc, cnt, h⟩ := loopTest_eq s
      rw [h]
      exact .quiet hquiet (fun h => nomatch h) (fun h => nomatch h)
        rfl rfl rfl rfl rfl rfl
  | userReturn =>
      obtain ⟨-, rfl⟩ := enabled_eq_some.mp hs
      obtain ⟨pc, h⟩ := userReturn_eq s
      rw [h]
      exact .quiet hquiet (fun h => nomatch h) (fun h => nomatch h)
        rfl rfl rfl rfl rfl rfl
  | _ =>
      obtain ⟨-, rfl⟩ := enabled_eq_some.mp hs
      exact .quiet hquiet (fun h => nomatch h) (fun h => nomatch h)
        rfl rfl rfl rfl rfl rfl

/-! ## The rings and the suspended awaiters -/

/-- The head completion has been taken: its awaiter has been resumed, or it had
    none. -/
def Processed (s : State X) (op : OpId) : Prop :=
  (s.pc = .inResume ∨ s.pc = .seen ∨ s.pc = .fault) ∧ ∃ c ∈ s.cq.head?, c.op = op

structure RingInv (s : State X) : Prop where
  nodup : ((ring s).map Entry.op).Nodup
  below : ∀ x ∈ ring s, x.op < s.nextOp
  waiting : ∀ a op, s.suspended a = some op → { op := op, data := some a } ∈ ring s
  owner : ∀ a op, { op := op, data := some a } ∈ ring s →
    s.suspended a = some op ∨ Processed s op
  head : s.pc = .inResume ∨ s.pc = .seen →
    ∃ c rest, s.cq = c :: rest ∧ ∀ a, s.suspended a ≠ some c.op

/-- Two entries of one operation are the same entry. -/
theorem RingInv.entry_eq {s : State X} (hI : RingInv s) {x y : Entry}
    (hx : x ∈ ring s) (hy : y ∈ ring s) (hop : x.op = y.op) : x = y :=
  List.inj_on_of_nodup_map hI.nodup hx hy hop

/-- Moving entries around keeps the invariant. -/
theorem RingInv.of_perm {s s' : State X} (hI : RingInv s)
    (hring : (ring s').Perm (ring s)) (hsuspended : s'.suspended = s.suspended)
    (hnext : s'.nextOp = s.nextOp) (hproc : ∀ op, Processed s op → Processed s' op)
    (hhead : s'.pc = .inResume ∨ s'.pc = .seen →
      ∃ c rest, s'.cq = c :: rest ∧ ∀ a, s.suspended a ≠ some c.op) : RingInv s' where
  nodup := (hring.map Entry.op).nodup_iff.mpr hI.nodup
  below := fun x hx => hnext ▸ hI.below x (hring.mem_iff.mp hx)
  waiting := fun a op h => hring.mem_iff.mpr (hI.waiting a op (hsuspended ▸ h))
  owner := by
    intro a op h
    rw [hsuspended]
    exact (hI.owner a op (hring.mem_iff.mp h)).imp_right (hproc op)
  head := by
    rw [hsuspended]
    exact hhead

/-- A new entry gets a new number. -/
theorem RingInv.grow {s s' : State X} {data : Option Addr} (hI : RingInv s)
    (hring : (ring s').Perm ({ op := s.nextOp, data := data } :: ring s))
    (hnext : s'.nextOp = s.nextOp + 1) :
    ((ring s').map Entry.op).Nodup ∧ ∀ x ∈ ring s', x.op < s'.nextOp := by
  constructor
  · refine (hring.map Entry.op).nodup_iff.mpr (List.nodup_cons.mpr ⟨?_, hI.nodup⟩)
    intro hmem
    obtain ⟨x, hx, hop⟩ := List.mem_map.mp hmem
    exact absurd (hI.below x hx) (by simp [hop])
  · intro x hx
    rw [hnext]
    rcases List.mem_cons.mp (hring.mem_iff.mp hx) with rfl | hold
    · exact Nat.lt_succ_self _
    · exact (hI.below x hold).trans (Nat.lt_succ_self _)

theorem ringInv_awaitSuspend {s : State X} {a : Addr} {h : Handle} (hI : RingInv s)
    (hfree : s.suspended a = none) : RingInv (awaitSuspend s a h) := by
  have hring : (ring (awaitSuspend s a h)).Perm
      ({ op := s.nextOp, data := some a } :: ring s) := ring_getSqe s (some a)
  obtain ⟨hnodup, hbelow⟩ := hI.grow hring rfl
  refine ⟨hnodup, hbelow, ?_, ?_, ?_⟩
  · intro b op hb
    have hb' : Function.update s.suspended a (some s.nextOp) b = some op := hb
    rw [hring.mem_iff]
    rcases update_cases (· = some op) hb' with ⟨rfl, hnew⟩ | ⟨-, hb'⟩
    · obtain rfl := Option.some.inj hnew
      exact List.mem_cons_self ..
    · exact List.mem_cons_of_mem _ (hI.waiting b op hb')
  · intro b op hmem
    show Function.update s.suspended a (some s.nextOp) b = some op ∨ Processed s op
    rcases List.mem_cons.mp (hring.mem_iff.mp hmem) with hnew | hold
    · obtain ⟨rfl, hdata⟩ := Entry.mk.inj hnew
      obtain rfl := Option.some.inj hdata
      exact Or.inl (Function.update_self _ _ _)
    · rcases hI.owner b op hold with hsusp | hproc
      · -- the address `a` was free, so the older awaiter is elsewhere
        have hba : b ≠ a := by
          rintro rfl
          exact nomatch hfree.symm.trans hsusp
        exact Or.inl ((Function.update_of_ne hba _ _).trans hsusp)
      · exact Or.inr hproc
  · intro hpc
    obtain ⟨c, rest, hcq, hnot⟩ := hI.head hpc
    refine ⟨c, rest, hcq, ?_⟩
    intro b hb
    have hb' : Function.update s.suspended a (some s.nextOp) b = some c.op := hb
    rcases update_cases (· = some c.op) hb' with ⟨-, hb'⟩ | ⟨-, hb'⟩
    · have hin : toEntry c ∈ ring s := by
        refine List.mem_append.mpr (Or.inr (List.mem_map.mpr ⟨c, ?_, rfl⟩))
        rw [hcq]
        exact List.mem_cons_self ..
      have hlt : c.op < s.nextOp := hI.below (toEntry c) hin
      exact absurd (Option.some.inj hb') (Nat.ne_of_gt hlt)
    · exact hnot b hb'

theorem ringInv_nonpollSubmit {s : State X} (hI : RingInv s) (hpc : s.pc = .submit) :
    RingInv (nonpollSubmit s) := by
  have hring : (ring (nonpollSubmit s)).Perm
      ({ op := s.nextOp, data := none } :: ring s) :=
    (ring_submitAll (getSqe s none)).trans (ring_getSqe s none)
  obtain ⟨hnodup, hbelow⟩ := hI.grow hring rfl
  refine ⟨hnodup, hbelow, ?_, ?_, fun h => by rcases h with h | h <;> exact nomatch h⟩
  · intro b op hb
    exact hring.mem_iff.mpr (List.mem_cons_of_mem _ (hI.waiting b op hb))
  · intro b op hmem
    rcases List.mem_cons.mp (hring.mem_iff.mp hmem) with hnew | hold
    · exact nomatch (Entry.mk.inj hnew).2
    · rcases hI.owner b op hold with hsusp | ⟨hp, -⟩
      · exact Or.inl hsusp
      · rcases hp with h | h | h <;> exact nomatch h.symm.trans hpc

theorem mem_ring_of_cq {s : State X} {c : Cqe} (hc : c ∈ s.cq) : toEntry c ∈ ring s :=
  List.mem_append.mpr (Or.inr (List.mem_map.mpr ⟨c, hc, rfl⟩))

/-- At the start of its treatment the head completion's awaiter is suspended, in
    the suspension the completion is for. -/
theorem RingInv.head_owner {s : State X} (hI : RingInv s) (hpc : s.pc = .cqes)
    {c : Cqe} (hc : c ∈ s.cq) {a : Addr} (hdata : c.data = some a) :
    s.suspended a = some c.op := by
  have hmem : ({ op := c.op, data := some a } : Entry) ∈ ring s := by
    rw [← hdata]
    exact mem_ring_of_cq hc
  rcases hI.owner a c.op hmem with hsusp | ⟨hp, -⟩
  · exact hsusp
  · rcases hp with h | h | h <;> exact nomatch h.symm.trans hpc

/-- Who is still suspended after the awaiter at `a` was resumed. -/
theorem suspended_of_freed {suspended : Addr → Option Nat} {a b : Addr} {op : Nat}
    (hb : Function.update suspended a none b = some op) : b ≠ a ∧ suspended b = some op := by
  rcases update_cases (· = some op) hb with ⟨-, hb⟩ | hb
  · cases hb
  · exact hb

theorem ringInv_resume {s : State X} {c : Cqe} {rest : List Cqe} {a : Addr}
    (hI : RingInv s) (hpc : s.pc = .cqes) (hcq : s.cq = c :: rest)
    (hdata : c.data = some a) : RingInv (resumeCqe s c a) := by
  have hc : c ∈ s.cq := hcq ▸ List.mem_cons_self ..
  have hhead : s.suspended a = some c.op := hI.head_owner hpc hc hdata
  refine ⟨hI.nodup, hI.below, ?_, ?_, ?_⟩
  · intro b op hb
    obtain ⟨-, hb'⟩ := suspended_of_freed hb
    exact hI.waiting b op hb'
  · intro b op hmem
    show Function.update s.suspended a none b = some op ∨ _
    rcases hI.owner b op hmem with hsusp | ⟨hp, -⟩
    · by_cases hba : b = a
      · subst hba
        obtain rfl := Option.some.inj (hhead.symm.trans hsusp)
        exact Or.inr ⟨Or.inl rfl, c, by rw [show (resumeCqe s c b).cq = s.cq from rfl, hcq]; rfl, rfl⟩
      · exact Or.inl ((Function.update_of_ne hba _ _).trans hsusp)
    · rcases hp with h | h | h <;> exact nomatch h.symm.trans hpc
  · intro _
    refine ⟨c, rest, hcq, ?_⟩
    intro b hb
    obtain ⟨hba, hb'⟩ := suspended_of_freed hb
    have heq := hI.entry_eq (hI.waiting b c.op hb') (mem_ring_of_cq hc) rfl
    obtain ⟨-, hdata'⟩ := Entry.mk.inj heq
    exact hba (Option.some.inj (hdata'.trans hdata))

theorem ringInv_skip {s : State X} {c : Cqe} {rest : List Cqe} (hI : RingInv s)
    (hpc : s.pc = .cqes) (hcq : s.cq = c :: rest) (hdata : c.data = none) :
    RingInv { s with pc := .seen } := by
  refine hI.of_perm (List.Perm.refl _) rfl rfl ?_ ?_
  · rintro op ⟨hp, -⟩
    rcases hp with h | h | h <;> exact nomatch h.symm.trans hpc
  · intro _
    refine ⟨c, rest, hcq, ?_⟩
    intro a ha
    have hc : c ∈ s.cq := hcq ▸ List.mem_cons_self ..
    have heq := hI.entry_eq (hI.waiting a c.op ha) (mem_ring_of_cq hc) rfl
    exact nomatch (Entry.mk.inj heq).2.trans hdata

theorem ringInv_cqeSeen {s : State X} (hI : RingInv s) (hpc : s.pc = .seen) :
    RingInv (cqeSeen s) := by
  obtain ⟨c, rest, hcq, hnot⟩ := hI.head (Or.inr hpc)
  have hring := ring_cqeSeen hcq
  have hnodup := (hring.map Entry.op).nodup_iff.mp hI.nodup
  rw [List.map_cons, List.nodup_cons] at hnodup
  have hsub : ∀ x, x ∈ ring (cqeSeen s) → x ∈ ring s :=
    fun x hx => hring.mem_iff.mpr (List.mem_cons_of_mem _ hx)
  refine ⟨hnodup.2, fun x hx => hI.below x (hsub x hx), ?_, ?_, ?_⟩
  · intro a op ha
    rcases List.mem_cons.mp (hring.mem_iff.mp (hI.waiting a op ha)) with heq | hmem
    · obtain ⟨rfl, -⟩ := Entry.mk.inj heq
      exact absurd ha (hnot a)
    · exact hmem
  · intro a op hmem
    rcases hI.owner a op (hsub _ hmem) with hsusp | ⟨-, c', hc', hop⟩
    · exact Or.inl hsusp
    · rw [hcq] at hc'
      obtain rfl := Option.some.inj hc'
      exact absurd (List.mem_map.mpr ⟨_, hmem, hop.symm⟩) hnodup.1
  · intro h
    rcases h with h | h <;> exact nomatch h

/-- A completion changes the two rings of the kernel and nothing else. -/
theorem complete_frame (s : State X) (op : OpId) (res : Int32) (flags : UInt32) :
    (complete s op res flags).pc = s.pc ∧
      (complete s op res flags).suspended = s.suspended ∧
      (complete s op res flags).memory = s.memory ∧
      (complete s op res flags).nextOp = s.nextOp ∧
      (complete s op res flags).sq = s.sq := by
  obtain ⟨inflight, cq, h⟩ := complete_eq s op res flags
  rw [h]
  exact ⟨rfl, rfl, rfl, rfl, rfl⟩

/-- The new completion goes to the end. -/
theorem complete_cq {s : State X} {op : OpId} (res : Int32) (flags : UInt32)
    (hmem : ∃ x ∈ s.inflight, x.op = op) :
    ∃ data, (complete s op res flags).cq
      = s.cq ++ [{ op := op, data := data, res := res, flags := flags }] := by
  unfold complete
  split
  · rename_i hnone
    obtain ⟨x, hx, hop⟩ := hmem
    exact absurd (List.find?_eq_none.mp hnone x hx) (by simp [hop])
  · rename_i x hx
    exact ⟨x.data, rfl⟩

theorem ringInv_complete {s : State X} {op : OpId} (res : Int32) (flags : UInt32)
    (hI : RingInv s) (hmem : ∃ x ∈ s.inflight, x.op = op) :
    RingInv (complete s op res flags) := by
  obtain ⟨hpc, hsuspended, -, hnext, -⟩ := complete_frame s op res flags
  obtain ⟨data, hcq⟩ := complete_cq res flags hmem
  refine hI.of_perm (ring_complete s op res flags) hsuspended hnext ?_ ?_
  · rintro op' ⟨hp, c, hc, hop⟩
    obtain ⟨rest, hs⟩ := List.head?_eq_some_iff.mp hc
    refine ⟨hpc ▸ hp, c, ?_, hop⟩
    rw [hcq, hs]
    rfl
  · rw [hpc]
    intro h
    obtain ⟨c, rest, hs, hnot⟩ := hI.head h
    exact ⟨c, rest ++ [_], by rw [hcq, hs]; rfl, hnot⟩

/-- Control leaves the treatment of the head completion only by marking it. -/
theorem processed_stays [DecidableEq X] {s s' : State X} {e : Event X}
    (hs : step n s e = some s') (hseen : e ≠ .seen)
    (hp : s.pc = .inResume ∨ s.pc = .seen ∨ s.pc = .fault) :
    s'.pc = .inResume ∨ s'.pc = .seen ∨ s'.pc = .fault := by
  rcases pc_cases hs with hstay | hmove
  · rw [hstay]
    exact hp
  · generalize s.pc = pc at hp hmove
    generalize s'.pc = pc' at hmove
    cases hmove with
    | seen => exact absurd rfl hseen
    | returnCqe => exact Or.inr (Or.inl rfl)
    | suspendNull a h pc hu => exact Or.inr (Or.inr rfl)
    | _ => simp at hp

/-- Control enters it only by taking a completion. -/
theorem treatment_entered [DecidableEq X] {s s' : State X} {e : Event X}
    (hs : step n s e = some s') (he : Silent e) (hskip : e ≠ .skip)
    (hp : s'.pc = .inResume ∨ s'.pc = .seen) : s.pc = .inResume ∨ s.pc = .seen := by
  rcases pc_cases hs with hstay | hmove
  · rw [← hstay]
    exact hp
  · generalize s.pc = pc at hmove
    generalize s'.pc = pc' at hp hmove
    cases hmove with
    | returnCqe => exact Or.inl rfl
    | skip => exact absurd rfl hskip
    | resume op a h res flag =>
        have hno := (he op).2.2
        simp [isResume] at hno
    | checkEmpty q hq => cases q <;> simp [afterResolve] at hp
    | drained q hb => cases q <;> simp [afterResolve] at hp
    | _ => simp at hp

/-- **STEP LEMMA** for the rings. -/
theorem ringInv_step [DecidableEq X] (s : State X) (e : Event X) (s' : State X)
    (hI : RingInv s) (hs : step n s e = some s') : RingInv s' := by
  cases ring_cases hs with
  | suspendIo a h he hfree hs' => exact hs' ▸ ringInv_awaitSuspend hI hfree
  | nonpollSubmit he hpc hs' => exact hs' ▸ ringInv_nonpollSubmit hI hpc
  | pollSubmit he hpc hs' =>
      subst hs'
      refine hI.of_perm (ring_submitAll s) rfl rfl ?_ ?_
      · rintro op ⟨hp, -⟩
        rcases hp with h | h | h <;> exact nomatch h.symm.trans hpc
      · intro h
        rcases h with h | h <;> exact nomatch h
  | complete op res flags he hmem hs' => exact hs' ▸ ringInv_complete res flags hI hmem
  | resume a h c rest he hpc hcq hdata hcont hs' =>
      exact hs' ▸ ringInv_resume hI hpc hcq hdata
  | skip c rest he hpc hcq hdata hs' => exact hs' ▸ ringInv_skip hI hpc hcq hdata
  | seen he hpc hs' => exact hs' ▸ ringInv_cqeSeen hI hpc
  | quiet he hskip hseen hsq hinflight hcq hmemory hsuspended hnext =>
      have hring : ring s' = ring s := by
        unfold ring
        rw [hsq, hinflight, hcq]
      refine hI.of_perm (hring ▸ List.Perm.refl _) hsuspended hnext ?_ ?_
      · rintro op ⟨hp, hc⟩
        exact ⟨processed_stays hs hseen hp, hcq ▸ hc⟩
      · intro hp
        rw [hcq]
        exact hI.head (treatment_entered hs he hskip hp)

theorem ringInv_run [DecidableEq X] {tr : List (Event X)} {s : State X}
    (hr : run (ioMachine X n) tr = some s) : RingInv s := by
  refine run_invariant ?_ ringInv_step hr
  exact { nodup := List.nodup_nil
          below := fun x hx => nomatch hx
          waiting := fun a op h => nomatch h
          owner := fun a op h => nomatch h
          head := fun h => by rcases h with h | h <;> exact nomatch h }

/-! ## Suspensions, completions and resumptions along a run -/

def suspensions (op : OpId) (tr : List (Event X)) : Nat := tr.countP (isSuspend op)

def completions (op : OpId) (tr : List (Event X)) : Nat := tr.countP (isComplete op)

def resumes (op : OpId) (tr : List (Event X)) : Nat := tr.countP (isResume op)

theorem mem_of_silent {tr : List (Event X)} {e x : Event X} (he : Silent e)
    (hx : x ∈ tr ++ [e]) (hloud : ¬ Silent x) : x ∈ tr := by
  rcases List.mem_append.mp hx with hold | hlast
  · exact hold
  · obtain rfl := List.mem_singleton.mp hlast
    exact absurd he hloud

theorem suspend_loud (op : OpId) (a : Addr) (h : Handle) :
    ¬ Silent (.suspendIo op a h : Event X) := by
  intro hs
  have := (hs op).1
  simp [isSuspend] at this

theorem complete_loud (op : OpId) (res : Int32) (flags : UInt32) :
    ¬ Silent (.complete op res flags : Event X) := by
  intro hs
  have := (hs op).2.1
  simp [isComplete] at this

theorem resume_loud (op : OpId) (a : Addr) (h : Handle) (res flag : Int32) :
    ¬ Silent (.resume op a h res flag : Event X) := by
  intro hs
  have := (hs op).2.2
  simp [isResume] at this

/-- What the events of a run say about the state it reaches. -/
structure TraceInv (tr : List (Event X)) (s : State X) : Prop where
  started : ∀ op a h, .suspendIo op a h ∈ tr → op < s.nextOp
  suspendedOnce : ∀ op, suspensions op tr ≤ 1
  handle : ∀ a op, s.suspended a = some op →
    ∃ h, (s.memory a).continuation = some h ∧ .suspendIo op a h ∈ tr
  completed : ∀ c ∈ s.cq, .complete c.op c.res c.flags ∈ tr
  done : ∀ op res flags, .complete op res flags ∈ tr →
    op < s.nextOp ∧ ∀ x ∈ s.sq ++ s.inflight, x.op ≠ op
  completedOnce : ∀ op, completions op tr ≤ 1
  resumed : ∀ op a h res flag, .resume op a h res flag ∈ tr →
    .suspendIo op a h ∈ tr ∧ ∃ flags, .complete op res flags ∈ tr ∧ flags.toInt32 = flag
  count : ∀ op a h, .suspendIo op a h ∈ tr →
    resumes op tr = if s.suspended a = some op then 0 else 1

/-- Steps that concern no awaiter. -/
theorem TraceInv.silent {tr : List (Event X)} {s s' : State X} {e : Event X}
    (hT : TraceInv tr s) (he : Silent e) (hnext : s.nextOp ≤ s'.nextOp)
    (hsuspended : s'.suspended = s.suspended) (hmemory : s'.memory = s.memory)
    (hcq : ∀ c ∈ s'.cq, c ∈ s.cq)
    (hentries : ∀ x ∈ s'.sq ++ s'.inflight, x ∈ s.sq ++ s.inflight ∨ x.op = s.nextOp) :
    TraceInv (tr ++ [e]) s' where
  started := fun op a h hm =>
    Nat.lt_of_lt_of_le (hT.started op a h (mem_of_silent he hm (suspend_loud op a h))) hnext
  suspendedOnce := fun op => (countP_snoc_of_not (he op).1).trans_le (hT.suspendedOnce op)
  handle := by
    intro a op ha
    rw [hsuspended] at ha
    rw [hmemory]
    obtain ⟨h, hc, hm⟩ := hT.handle a op ha
    exact ⟨h, hc, List.mem_append_left _ hm⟩
  completed := fun c hc => List.mem_append_left _ (hT.completed c (hcq c hc))
  done := by
    intro op res flags hm
    obtain ⟨hlt, hne⟩ := hT.done op res flags (mem_of_silent he hm (complete_loud op res flags))
    refine ⟨Nat.lt_of_lt_of_le hlt hnext, ?_⟩
    intro x hx
    rcases hentries x hx with hold | hnew
    · exact hne x hold
    · rw [hnew]
      exact Nat.ne_of_gt hlt
  completedOnce := fun op => (countP_snoc_of_not (he op).2.1).trans_le (hT.completedOnce op)
  resumed := by
    intro op a h res flag hm
    obtain ⟨hsus, flags, hcomp, hflag⟩ :=
      hT.resumed op a h res flag (mem_of_silent he hm (resume_loud op a h res flag))
    exact ⟨List.mem_append_left _ hsus, flags, List.mem_append_left _ hcomp, hflag⟩
  count := by
    intro op a h hm
    rw [hsuspended]
    exact (countP_snoc_of_not (he op).2.2).trans
      (hT.count op a h (mem_of_silent he hm (suspend_loud op a h)))

/-- An operation not yet started has no events. -/
theorem TraceInv.fresh {tr : List (Event X)} {s : State X} (hT : TraceInv tr s) :
    suspensions s.nextOp tr = 0 ∧ resumes s.nextOp tr = 0 := by
  constructor
  · refine List.countP_eq_zero.mpr ?_
    intro e he hs
    cases e with
    | suspendIo op a h =>
        obtain rfl : op = s.nextOp := by simpa [isSuspend] using hs
        exact absurd (hT.started _ a h he) (Nat.lt_irrefl _)
    | _ => exact nomatch hs
  · refine List.countP_eq_zero.mpr ?_
    intro e he hs
    cases e with
    | resume op a h res flag =>
        obtain rfl : op = s.nextOp := by simpa [isResume] using hs
        exact absurd (hT.started _ a h (hT.resumed _ a h res flag he).1) (Nat.lt_irrefl _)
    | _ => exact nomatch hs

/-- An operation that is still in the rings has not completed. -/
theorem TraceInv.not_completed {tr : List (Event X)} {s : State X} {op : OpId} {x : Entry}
    (hT : TraceInv tr s) (hx : x ∈ s.sq ++ s.inflight) (hop : x.op = op) :
    completions op tr = 0 := by
  refine List.countP_eq_zero.mpr ?_
  intro e he hs
  cases e with
  | complete op' res flags =>
      obtain rfl : op' = op := by simpa [isComplete] using hs
      exact (hT.done _ res flags he).2 x hx hop
  | _ => exact nomatch hs

theorem mem_snoc_of_ne {tr : List (Event X)} {e x : Event X} (hx : x ∈ tr ++ [e])
    (hne : x ≠ e) : x ∈ tr := by
  rcases List.mem_append.mp hx with hold | hlast
  · exact hold
  · exact absurd (List.mem_singleton.mp hlast) hne

theorem traceInv_suspend {tr : List (Event X)} {s : State X} {a : Addr} {h : Handle}
    (hT : TraceInv tr s) (hfree : s.suspended a = none) :
    TraceInv (tr ++ [.suspendIo s.nextOp a h]) (awaitSuspend s a h) where
  started := by
    intro op b h' hm
    show op < s.nextOp + 1
    rcases List.mem_append.mp hm with hold | hlast
    · exact (hT.started op b h' hold).trans (Nat.lt_succ_self _)
    · obtain ⟨rfl, -, -⟩ := Event.suspendIo.inj (List.mem_singleton.mp hlast)
      exact Nat.lt_succ_self _
  suspendedOnce := by
    intro op
    refine countP_snoc_le_one (hT.suspendedOnce op) ?_
    intro hop
    obtain rfl : s.nextOp = op := by simpa [isSuspend] using hop
    exact hT.fresh.1
  handle := by
    intro b op hb
    have hb' : Function.update s.suspended a (some s.nextOp) b = some op := hb
    show ∃ h', (Function.update s.memory a ((s.memory a).setContinuation h) b).continuation
      = some h' ∧ _
    by_cases hba : b = a
    · subst hba
      rw [Function.update_self] at hb'
      obtain rfl := Option.some.inj hb'
      rw [Function.update_self]
      exact ⟨h, rfl, List.mem_append_right _ (List.mem_singleton.mpr rfl)⟩
    · rw [Function.update_of_ne hba] at hb' ⊢
      obtain ⟨h', hc, hm⟩ := hT.handle b op hb'
      exact ⟨h', hc, List.mem_append_left _ hm⟩
  completed := fun c hc => List.mem_append_left _ (hT.completed c hc)
  done := by
    intro op res flags hm
    obtain ⟨hlt, hne⟩ := hT.done op res flags (mem_snoc_of_ne hm (fun h => nomatch h))
    refine ⟨hlt.trans (Nat.lt_succ_self _), ?_⟩
    intro x hx
    have hx' : x ∈ (s.sq ++ [{ op := s.nextOp, data := some a }]) ++ s.inflight := hx
    simp only [List.mem_append, List.mem_singleton] at hx' hne
    rcases hx' with (hsq | rfl) | hin
    · exact hne x (Or.inl hsq)
    · exact Nat.ne_of_gt hlt
    · exact hne x (Or.inr hin)
  completedOnce := fun op => (countP_snoc_of_not rfl).trans_le (hT.completedOnce op)
  resumed := by
    intro op b h' res flag hm
    obtain ⟨hsus, flags, hcomp, hflag⟩ :=
      hT.resumed op b h' res flag (mem_snoc_of_ne hm (fun h => nomatch h))
    exact ⟨List.mem_append_left _ hsus, flags, List.mem_append_left _ hcomp, hflag⟩
  count := by
    intro op b h' hm
    have hsame : resumes op (tr ++ [.suspendIo s.nextOp a h]) = resumes op tr :=
      countP_snoc_of_not rfl
    rw [hsame]
    show resumes op tr
      = if Function.update s.suspended a (some s.nextOp) b = some op then 0 else 1
    rcases List.mem_append.mp hm with hold | hlast
    · have hlt := hT.started op b h' hold
      rw [hT.count op b h' hold]
      by_cases hba : b = a
      · -- the address is used again: the older suspension there is over
        subst hba
        have hne : s.nextOp ≠ op := Nat.ne_of_gt hlt
        simp [hfree, hne]
      · rw [Function.update_of_ne hba]
    · obtain ⟨rfl, rfl, -⟩ := Event.suspendIo.inj (List.mem_singleton.mp hlast)
      rw [Function.update_self, if_pos rfl]
      exact hT.fresh.2

theorem traceInv_complete {tr : List (Event X)} {s : State X} {op : OpId} {res : Int32}
    {flags : UInt32} (hT : TraceInv tr s) (hI : RingInv s)
    (hmem : ∃ x ∈ s.inflight, x.op = op) :
    TraceInv (tr ++ [.complete op res flags]) (complete s op res flags) := by
  obtain ⟨-, hsuspended, hmemory, hnext, hsq⟩ := complete_frame s op res flags
  obtain ⟨data, hcq⟩ := complete_cq res flags hmem
  have hI' := ringInv_complete res flags hI hmem
  have hinflight : ∀ x ∈ (complete s op res flags).inflight, x ∈ s.inflight := by
    unfold complete
    split
    · exact fun x hx => hx
    · exact fun x hx => List.mem_of_mem_eraseP hx
  refine ⟨?_, ?_, ?_, ?_, ?_, ?_, ?_, ?_⟩
  · intro op' a h hm
    rw [hnext]
    exact hT.started op' a h (mem_snoc_of_ne hm (fun h => nomatch h))
  · exact fun op' => (countP_snoc_of_not rfl).trans_le (hT.suspendedOnce op')
  · intro a op' ha
    rw [hsuspended] at ha
    rw [hmemory]
    obtain ⟨h, hc, hm⟩ := hT.handle a op' ha
    exact ⟨h, hc, List.mem_append_left _ hm⟩
  · intro c hc
    rw [hcq] at hc
    rcases List.mem_append.mp hc with hold | hnew
    · exact List.mem_append_left _ (hT.completed c hold)
    · obtain rfl := List.mem_singleton.mp hnew
      exact List.mem_append_right _ (List.mem_singleton.mpr rfl)
  · intro op' res' flags' hm
    rcases List.mem_append.mp hm with hold | hlast
    · obtain ⟨hlt, hne⟩ := hT.done op' res' flags' hold
      refine ⟨hnext ▸ hlt, ?_⟩
      intro x hx
      rw [hsq] at hx
      rcases List.mem_append.mp hx with hxsq | hxin
      · exact hne x (List.mem_append_left _ hxsq)
      · exact hne x (List.mem_append_right _ (hinflight x hxin))
    · obtain ⟨rfl, -, -⟩ := Event.complete.inj (List.mem_singleton.mp hlast)
      obtain ⟨x₀, hx₀, rfl⟩ := hmem
      refine ⟨hnext ▸ hI.below x₀ (List.mem_append_left _ (List.mem_append_right _ hx₀)), ?_⟩
      -- the entry is in the completion ring now, and occurs once
      have hdisj := hI'.nodup
      unfold ring at hdisj
      rw [List.map_append, List.nodup_append] at hdisj
      intro x hx
      refine hdisj.2.2 x.op (List.mem_map.mpr ⟨x, hx, rfl⟩) x₀.op ?_
      rw [hcq, List.map_append, List.map_append]
      exact List.mem_append_right _ (List.mem_singleton.mpr rfl)
  · intro op'
    refine countP_snoc_le_one (hT.completedOnce op') ?_
    intro hop
    obtain rfl : op = op' := by simpa [isComplete] using hop
    obtain ⟨x, hx, hxop⟩ := hmem
    exact hT.not_completed (List.mem_append_right _ hx) hxop
  · intro op' a h res' flag hm
    obtain ⟨hsus, flags', hcomp, hflag⟩ :=
      hT.resumed op' a h res' flag (mem_snoc_of_ne hm (fun h => nomatch h))
    exact ⟨List.mem_append_left _ hsus, flags', List.mem_append_left _ hcomp, hflag⟩
  · intro op' a h hm
    rw [hsuspended]
    exact (countP_snoc_of_not rfl).trans
      (hT.count op' a h (mem_snoc_of_ne hm (fun h => nomatch h)))

theorem traceInv_resume {tr : List (Event X)} {s : State X} {a : Addr} {h : Handle}
    {c : Cqe} {rest : List Cqe} (hT : TraceInv tr s) (hI : RingInv s)
    (hpc : s.pc = .cqes) (hcq : s.cq = c :: rest) (hdata : c.data = some a)
    (hcont : (s.memory a).continuation = some h) :
    TraceInv (tr ++ [.resume c.op a h c.res c.flags.toInt32]) (resumeCqe s c a) := by
  have hc : c ∈ s.cq := hcq ▸ List.mem_cons_self ..
  have howner : s.suspended a = some c.op := hI.head_owner hpc hc hdata
  obtain ⟨h', hcont', hstarted⟩ := hT.handle a c.op howner
  obtain rfl : h = h' := Option.some.inj (hcont.symm.trans hcont')
  refine ⟨?_, ?_, ?_, ?_, ?_, ?_, ?_, ?_⟩
  · intro op b h' hm
    exact hT.started op b h' (mem_snoc_of_ne hm (fun h => nomatch h))
  · exact fun op => (countP_snoc_of_not rfl).trans_le (hT.suspendedOnce op)
  · intro b op hb
    obtain ⟨hba, hb'⟩ := suspended_of_freed hb
    obtain ⟨h', hc', hm⟩ := hT.handle b op hb'
    refine ⟨h', ?_, List.mem_append_left _ hm⟩
    show (Function.update s.memory a _ b).continuation = some h'
    rw [Function.update_of_ne hba]
    exact hc'
  · exact fun c' hc' => List.mem_append_left _ (hT.completed c' hc')
  · intro op res flags hm
    exact hT.done op res flags (mem_snoc_of_ne hm (fun h => nomatch h))
  · exact fun op => (countP_snoc_of_not rfl).trans_le (hT.completedOnce op)
  · intro op b h' res flag hm
    rcases List.mem_append.mp hm with hold | hlast
    · obtain ⟨hsus, flags, hcomp, hflag⟩ := hT.resumed op b h' res flag hold
      exact ⟨List.mem_append_left _ hsus, flags, List.mem_append_left _ hcomp, hflag⟩
    · obtain ⟨rfl, rfl, rfl, rfl, rfl⟩ := Event.resume.inj (List.mem_singleton.mp hlast)
      exact ⟨List.mem_append_left _ hstarted, c.flags,
        List.mem_append_left _ (hT.completed c hc), rfl⟩
  · intro op b h' hm
    have hold : .suspendIo op b h' ∈ tr := mem_snoc_of_ne hm (fun h => nomatch h)
    have hcount := hT.count op b h' hold
    unfold resumes at hcount ⊢
    rw [countP_snoc, hcount]
    show _ = if Function.update s.suspended a none b = some op then 0 else 1
    by_cases hop : c.op = op
    · -- the operation resumed here: it had not been resumed, and no other awaiter has it
      subst hop
      have hzero := hT.count c.op a h hstarted
      rw [if_pos howner] at hzero
      have hbsus : s.suspended b = some c.op := by
        by_contra hne
        rw [if_neg hne] at hcount
        exact nomatch hcount.symm.trans hzero
      have heq := hI.entry_eq (hI.waiting b c.op hbsus) (hI.waiting a c.op howner) rfl
      obtain rfl := Option.some.inj (Entry.mk.inj heq).2
      simp [isResume, hbsus]
    · -- another operation: it is not the one suspended at `a`
      by_cases hba : b = a
      · subst hba
        simp [isResume, hop, howner]
      · simp [isResume, hop, hba]

/-- **RUN LEMMA**: the events of a run and the state it reaches agree. -/
theorem traceInv_run [DecidableEq X] : ∀ (tr : List (Event X)) (s : State X),
    run (ioMachine X n) tr = some s → TraceInv tr s := by
  refine run_history ?_ ?_
  · exact { started := fun _ _ _ h => nomatch h
            suspendedOnce := fun _ => Nat.zero_le _
            handle := fun _ _ h => nomatch h
            completed := fun _ h => nomatch h
            done := fun _ _ _ h => nomatch h
            completedOnce := fun _ => Nat.zero_le _
            resumed := fun _ _ _ _ _ h => nomatch h
            count := fun _ _ _ h => nomatch h }
  · intro tr s e s' hr hT hs
    have hI := ringInv_run hr
    cases ring_cases hs with
    | suspendIo a h he hfree hs' =>
        subst he
        exact hs' ▸ traceInv_suspend hT hfree
    | nonpollSubmit he hpc hs' =>
        subst hs'
        refine hT.silent he (Nat.le_succ _) rfl rfl (fun c hc => hc) ?_
        intro x hx
        have hx' : x ∈ [] ++ (s.inflight ++ (s.sq ++ [{ op := s.nextOp, data := none }])) := hx
        simp only [List.nil_append, List.mem_append, List.mem_singleton] at hx' ⊢
        rcases hx' with hin | hsq | rfl
        · exact Or.inl (Or.inr hin)
        · exact Or.inl (Or.inl hsq)
        · exact Or.inr rfl
    | pollSubmit he hpc hs' =>
        subst hs'
        refine hT.silent he (Nat.le_refl _) rfl rfl (fun c hc => hc) ?_
        intro x hx
        have hx' : x ∈ [] ++ (s.inflight ++ s.sq) := hx
        simp only [List.nil_append, List.mem_append] at hx' ⊢
        exact Or.inl hx'.symm
    | complete op res flags he hmem hs' =>
        subst he
        exact hs' ▸ traceInv_complete hT hI hmem
    | resume a h c rest he hpc hcq hdata hcont hs' =>
        subst he
        exact hs' ▸ traceInv_resume hT hI hpc hcq hdata hcont
    | skip c rest he hpc hcq hdata hs' =>
        subst hs'
        exact hT.silent he (Nat.le_refl _) rfl rfl (fun c hc => hc) (fun x hx => Or.inl hx)
    | seen he hpc hs' =>
        subst hs'
        exact hT.silent he (Nat.le_refl _) rfl rfl
          (fun c hc => List.mem_of_mem_tail hc) (fun x hx => Or.inl hx)
    | quiet he hskip hseen hsq hinflight hcq hmemory hsuspended hnext =>
        refine hT.silent he (Nat.le_of_eq hnext.symm) hsuspended hmemory
          (fun c hc => hcq ▸ hc) ?_
        intro x hx
        rw [hsq, hinflight] at hx
        exact Or.inl hx

/-- The entries of one operation, in all three rings. -/
def entriesOf (s : State X) (op : OpId) : List Entry :=
  (ring s).filter (fun x => x.op == op)

/-- A suspended awaiter has exactly one entry, with its address. -/
theorem RingInv.entriesOf_eq {s : State X} (hI : RingInv s) {a : Addr} {op : OpId}
    (ha : s.suspended a = some op) : entriesOf s op = [{ op := op, data := some a }] := by
  have hmem := hI.waiting a op ha
  have hnodup : (entriesOf s op).Nodup := (hI.nodup.of_map Entry.op).filter _
  refine List.perm_singleton.mp
    ((List.perm_ext_iff_of_nodup hnodup (List.nodup_singleton _)).mpr ?_)
  intro x
  rw [entriesOf, List.mem_filter, beq_iff_eq, List.mem_singleton]
  constructor
  · rintro ⟨hx, hop⟩
    exact hI.entry_eq hx hmem hop
  · rintro rfl
    exact ⟨hmem, rfl⟩

/-- Behind the step that resumes, the awaiter has the result that `await_resume` hands on,
    and the handle it was suspended with. -/
theorem resume_stores [DecidableEq X] {n : Nat} {s s' : State X} {op : OpId} {a : Addr}
    {h : Handle} {res flag : Int32} (hs : step n s (.resume op a h res flag) = some s') :
    s'.pc = .inResume ∧ (s'.memory a).continuation = some h ∧
      ∀ (R : Type) (getResult : Int32 → Int32 → R),
        (s'.memory a).awaitResume getResult = getResult res flag := by
  obtain ⟨c, rest, -, ⟨-, -, -, hcont, rfl, rfl⟩, rfl⟩ := resume_cases hs
  have hstored : (resumeCqe s c a).memory a = (s.memory a).setResult c.res c.flags :=
    Function.update_self a _ s.memory
  rw [hstored]
  exact ⟨rfl, hcont, fun R getResult => rfl⟩

/-- **COMPLETIONS ARE MATCHED**: in every state of every run, a suspended awaiter
    has exactly one entry in the submission ring, in flight and in the completion
    ring together, and it carries its address; each suspension has been resumed
    once if its awaiter has left it and not at all otherwise; a resumption is of a
    coroutine that had suspended, with the result and flags of the one completion
    of its own operation, and these are what its `await_resume` then reads; and the
    head completion resumes the awaiter it belongs to, or, with null data, nothing. -/
theorem completions_matched [DecidableEq X] (n : Nat) (tr : List (Event X))
    (s : State X) (hr : run (ioMachine X n) tr = some s) :
    (∀ a op, s.suspended a = some op →
      entriesOf s op = [{ op := op, data := some a }]) ∧
    (∀ op, suspensions op tr ≤ 1 ∧ completions op tr ≤ 1) ∧
    (∀ op a h, .suspendIo op a h ∈ tr →
      resumes op tr = if s.suspended a = some op then 0 else 1) ∧
    (∀ op a h res flag, .resume op a h res flag ∈ tr → .suspendIo op a h ∈ tr ∧
      ∃ flags, .complete op res flags ∈ tr ∧ flags.toInt32 = flag) ∧
    (∀ pre op a h res flag, pre ++ [.resume op a h res flag] <+: tr →
      ∃ t, run (ioMachine X n) (pre ++ [.resume op a h res flag]) = some t ∧ t.pc = .inResume ∧
        (t.memory a).continuation = some h ∧
        ∀ (R : Type) (getResult : Int32 → Int32 → R),
          (t.memory a).awaitResume getResult = getResult res flag) ∧
    (∀ c rest, s.pc = .cqes → s.cq = c :: rest →
      (∀ a, c.data = some a → s.suspended a = some c.op ∧
        ∃ h, step n s (.resume c.op a h c.res c.flags.toInt32) = some (resumeCqe s c a)) ∧
      (c.data = none → ∀ op a h res flag, step n s (.resume op a h res flag) = none)) := by
  have hI := ringInv_run hr
  have hT := traceInv_run tr s hr
  refine ⟨fun a op ha => hI.entriesOf_eq ha, fun op => ⟨hT.suspendedOnce op,
    hT.completedOnce op⟩, hT.count, hT.resumed, ?_, ?_⟩
  · intro pre op a h res flag hp
    obtain ⟨t, ht⟩ := run_initial hr hp
    obtain ⟨t₀, -, hs⟩ := runFrom_snoc.mp ht
    exact ⟨t, ht, resume_stores (n := n) hs⟩
  intro c rest hpc hcq
  have hc : c ∈ s.cq := hcq ▸ List.mem_cons_self ..
  constructor
  · intro a hdata
    have howner := hI.head_owner hpc hc hdata
    obtain ⟨h, hcont, -⟩ := hT.handle a c.op howner
    exact ⟨howner, h, resume_enabled hpc hcq hdata hcont⟩
  · intro hdata op a h res flag
    cases hres : step n s (.resume op a h res flag) with
    | none => rfl
    | some s' =>
        obtain ⟨c', rest', hcq', ⟨-, -, hdata', -⟩, -⟩ := resume_cases hres
        obtain ⟨rfl, -⟩ := List.cons.inj (hcq.symm.trans hcq')
        exact nomatch hdata.symm.trans hdata'

/-- A coroutine suspends, its completion comes after the timer's, and it suspends
    again at the same address while that completion is still unseen. -/
def suspendTwice : List (Event Nat) :=
  [.suspendIo 0 100 7, .enterRun .run, .loopTest, .cqesDone, .check .remoteSpawn,
    .check .remoteTasks, .check .localTasks, .nonpollSubmit, .complete 1 0 0,
    .complete 0 5 2, .wake, .loopTest, .skip, .seen, .resume 0 100 7 5 2,
    .suspendIo 2 100 7]

/-- The theorem at that run. -/
theorem completions_matched_suspendTwice :
    ∃ s, run (ioMachine Nat 4) suspendTwice = some s ∧ s.suspended 100 = some 2 ∧
      entriesOf s 2 = [{ op := 2, data := some 100 }] ∧
      resumes 0 suspendTwice = 1 ∧ resumes 2 suspendTwice = 0 ∧
      ∃ t, run (ioMachine Nat 4) (suspendTwice.take 15) = some t ∧
        (t.memory 100).awaitResume Prod.mk = (5, 2) := by
  have hmain := completions_matched 4 suspendTwice _ rfl
  obtain ⟨t, ht, -, -, hread⟩ :=
    hmain.2.2.2.2.1 (suspendTwice.take 14) 0 100 7 5 2 (by decide)
  exact ⟨_, rfl, rfl, hmain.1 100 2 rfl, hmain.2.2.1 0 100 7 (by decide),
    hmain.2.2.1 2 100 7 (by decide), t, ht, hread _ Prod.mk⟩

end CoioRing
