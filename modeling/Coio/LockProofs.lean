import Mathlib.Data.List.Basic
import Mathlib.Logic.Function.Basic

/-! # One mutex, several resources — what a lock discipline gives

    Threads run straight-line code made of `lock`, `unlock` and operations on
    resources.  An operation takes TWO steps: it reads the resource when the
    thread enters it and writes the resource when the thread leaves it, so two
    operations that overlap on one resource lose an update.

    `Guarded` is the static discipline: the code takes the mutex before each
    operation on a protected resource and gives it back at the end.  If every
    thread runs guarded code (`LockInv`), then

    * a thread inside an operation on a protected resource holds the mutex
      (`inside_holds`), hence is alone there (`inside_unique`);
    * the completed operations on it form a sequential history (`Legal`): each
      acts on the value the one before it left. -/

namespace CoioLock

variable {τ ρ ω α β : Type} [DecidableEq τ]

/-- One instruction of a thread. -/
inductive Instr (ρ ω : Type) where
  | lock
  | unlock
  | op (r : ρ) (o : ω)

/-- The threads, the mutex and the resources.  `inside t` is the operation's
    resource and the value it read on entry; `hist` lists the completed
    operations on each resource with their results. -/
structure Threads (τ ρ ω α β : Type) where
  holder : Option τ
  code : τ → List (Instr ρ ω)
  inside : τ → Option (ρ × α)
  value : ρ → α
  hist : ρ → List (ω × β)

/-- An idle thread is given the code of the function it calls. -/
def call (s : Threads τ ρ ω α β) (t : τ) (c : List (Instr ρ ω)) :
    Option (Threads τ ρ ω α β) :=
  if (s.code t).isEmpty then
    some { s with code := Function.update s.code t c }
  else none

/-- A thread takes its next step. -/
def exec [DecidableEq ρ] (apply : ω → α → α × β) (s : Threads τ ρ ω α β) (t : τ) :
    Option (Threads τ ρ ω α β) :=
  match s.code t with
  | [] => none
  | .lock :: c =>
      if s.holder = none then
        some { s with holder := some t, code := Function.update s.code t c }
      else none
  | .unlock :: c =>
      if s.holder = some t then
        some { s with holder := none, code := Function.update s.code t c }
      else none
  | .op r o :: c =>
      match s.inside t with
      | none =>
          some { s with
            inside := Function.update s.inside t (some (r, s.value r)) }
      | some (_, a) =>
          some { s with
            code := Function.update s.code t c
            inside := Function.update s.inside t none
            value := Function.update s.value r (apply o a).1
            hist := Function.update s.hist r (s.hist r ++ [(o, (apply o a).2)]) }

/-- Everything a step of thread `t` can do. -/
inductive ExecStep [DecidableEq ρ] (apply : ω → α → α × β)
    (s : Threads τ ρ ω α β) (t : τ) : Threads τ ρ ω α β → Prop where
  | lock (c : List (Instr ρ ω)) (hc : s.code t = .lock :: c) (hfree : s.holder = none) :
      ExecStep apply s t
        { s with holder := some t, code := Function.update s.code t c }
  | unlock (c : List (Instr ρ ω)) (hc : s.code t = .unlock :: c)
      (hheld : s.holder = some t) :
      ExecStep apply s t
        { s with holder := none, code := Function.update s.code t c }
  | enter (r : ρ) (o : ω) (c : List (Instr ρ ω)) (hc : s.code t = .op r o :: c)
      (hout : s.inside t = none) :
      ExecStep apply s t
        { s with inside := Function.update s.inside t (some (r, s.value r)) }
  | leave (r r' : ρ) (o : ω) (a : α) (c : List (Instr ρ ω))
      (hc : s.code t = .op r o :: c) (hin : s.inside t = some (r', a)) :
      ExecStep apply s t
        { s with
          code := Function.update s.code t c
          inside := Function.update s.inside t none
          value := Function.update s.value r (apply o a).1
          hist := Function.update s.hist r (s.hist r ++ [(o, (apply o a).2)]) }

theorem exec_cases [DecidableEq ρ] {apply : ω → α → α × β}
    {s s' : Threads τ ρ ω α β} {t : τ} (hs : exec apply s t = some s') : ExecStep apply s t s' := by
  unfold exec at hs
  cases hc : s.code t with
  | nil => rw [hc] at hs; exact nomatch hs
  | cons i c =>
      rw [hc] at hs
      cases i with
      | lock =>
          by_cases hfree : s.holder = none
          · obtain rfl := Option.some.inj ((if_pos hfree).symm.trans hs)
            exact .lock c hc hfree
          · exact nomatch (if_neg hfree).symm.trans hs
      | unlock =>
          by_cases hheld : s.holder = some t
          · obtain rfl := Option.some.inj ((if_pos hheld).symm.trans hs)
            exact .unlock c hc hheld
          · exact nomatch (if_neg hheld).symm.trans hs
      | op r o =>
          cases hin : s.inside t with
          | none =>
              simp only [hin] at hs
              obtain rfl := Option.some.inj hs
              exact .enter r o c hc hin
          | some ra =>
              obtain ⟨r', a⟩ := ra
              simp only [hin] at hs
              obtain rfl := Option.some.inj hs
              exact .leave r r' o a c hc hin

theorem call_cases {s s' : Threads τ ρ ω α β} {t : τ} {c : List (Instr ρ ω)}
    (hs : call s t c = some s') :
    s.code t = [] ∧ s' = { s with code := Function.update s.code t c } := by
  unfold call at hs
  split at hs
  · rename_i hidle
    exact ⟨List.isEmpty_iff.mp hidle, (Option.some.inj hs).symm⟩
  · exact nomatch hs

/-- A step of another thread leaves a thread's code, its operation and its view
    of the mutex alone. -/
theorem exec_frame [DecidableEq ρ] {apply : ω → α → α × β}
    {s s' : Threads τ ρ ω α β} {t u : τ} (hs : exec apply s t = some s') (hu : u ≠ t) :
    s'.code u = s.code u ∧ s'.inside u = s.inside u ∧
      (s'.holder = some u ↔ s.holder = some u) := by
  cases exec_cases hs with
  | lock c hc hfree =>
      refine ⟨Function.update_of_ne hu _ _, rfl, ?_⟩
      rw [hfree]
      exact ⟨fun h => absurd (Option.some.inj h).symm hu, fun h => nomatch h⟩
  | unlock c hc hheld =>
      refine ⟨Function.update_of_ne hu _ _, rfl, ?_⟩
      rw [hheld]
      exact ⟨(fun h => nomatch h), fun h => absurd (Option.some.inj h).symm hu⟩
  | enter r o c hc hout =>
      exact ⟨rfl, Function.update_of_ne hu _ _, Iff.rfl⟩
  | leave r r' o a c hc hin =>
      exact ⟨Function.update_of_ne hu _ _, Function.update_of_ne hu _ _, Iff.rfl⟩

/-! ## Inside an operation

    A thread inside an operation has that operation as its next instruction,
    whatever code the threads run. -/

def Current (s : Threads τ ρ ω α β) : Prop :=
  ∀ t r a, s.inside t = some (r, a) → ∃ o c, s.code t = .op r o :: c

omit [DecidableEq τ] in
theorem Current.idle {s : Threads τ ρ ω α β} {t : τ} (hC : Current s)
    (hidle : s.code t = []) : s.inside t = none := by
  cases hin : s.inside t with
  | none => rfl
  | some ra =>
      obtain ⟨o, c, hc⟩ := hC t ra.1 ra.2 hin
      rw [hidle] at hc
      exact nomatch hc

theorem current_call {s s' : Threads τ ρ ω α β} {t : τ} {c : List (Instr ρ ω)}
    (hC : Current s) (hs : call s t c = some s') : Current s' := by
  obtain ⟨hidle, rfl⟩ := call_cases hs
  intro u r a hin
  obtain ⟨o, c', hcode⟩ := hC u r a hin
  refine ⟨o, c', ?_⟩
  show Function.update s.code t c u = _
  rw [Function.update_of_ne ?_]
  · exact hcode
  · rintro rfl
    rw [hidle] at hcode
    exact nomatch hcode

theorem current_exec [DecidableEq ρ] {apply : ω → α → α × β}
    {s s' : Threads τ ρ ω α β} {t : τ} (hC : Current s)
    (hs : exec apply s t = some s') : Current s' := by
  intro u r a hin
  by_cases hu : u = t
  · subst hu
    cases exec_cases hs with
    | lock c hc hfree =>
        obtain ⟨o, c', hcode⟩ := hC u r a hin
        exact nomatch hc.symm.trans hcode
    | unlock c hc hheld =>
        obtain ⟨o, c', hcode⟩ := hC u r a hin
        exact nomatch hc.symm.trans hcode
    | enter r' o c hc hout =>
        have hra := Option.some.inj ((Function.update_self u _ _).symm.trans hin)
        obtain ⟨rfl, -⟩ := Prod.mk.inj hra
        exact ⟨o, c, hc⟩
    | leave r' q o b c hc hin' =>
        exact nomatch (Function.update_self u _ _).symm.trans hin
  · obtain ⟨hcode, hinside, -⟩ := exec_frame hs hu
    rw [hinside] at hin
    rw [hcode]
    exact hC u r a hin

/-! ## The discipline -/

/-- The code keeps the discipline: `held` says whether the thread has the mutex
    at this point. -/
def Guarded (prot : ρ → Prop) : Bool → List (Instr ρ ω) → Prop
  | held, [] => held = false
  | held, .lock :: c => held = false ∧ Guarded prot true c
  | held, .unlock :: c => held = true ∧ Guarded prot false c
  | held, .op r _ :: c => (prot r → held = true) ∧ Guarded prot held c

/-- A sequential history from `a` to `b`: each operation acts on the value the
    one before it left, and gives the recorded result. -/
def Legal (apply : ω → α → α × β) : α → List (ω × β) → α → Prop
  | a, [], b => a = b
  | a, (o, x) :: h, b => (apply o a).2 = x ∧ Legal apply (apply o a).1 h b

theorem legal_snoc {apply : ω → α → α × β} :
    ∀ {h : List (ω × β)} {a b : α} (o : ω), Legal apply a h b →
      Legal apply a (h ++ [(o, (apply o b).2)]) (apply o b).1 := by
  intro h
  induction h with
  | nil =>
      intro a b o hl
      obtain rfl : a = b := hl
      exact ⟨rfl, rfl⟩
  | cons x h ih =>
      intro a b o hl
      obtain ⟨o', y⟩ := x
      exact ⟨hl.1, ih o hl.2⟩

/-- What holds while every thread keeps the discipline. -/
structure LockInv (apply : ω → α → α × β) (prot : ρ → Prop) (init : ρ → α)
    (s : Threads τ ρ ω α β) : Prop where
  guarded : ∀ t, Guarded prot (decide (s.holder = some t)) (s.code t)
  current : Current s
  fresh : ∀ t r a, s.inside t = some (r, a) → prot r → a = s.value r
  legal : ∀ r, prot r → Legal apply (init r) (s.hist r) (s.value r)

variable {apply : ω → α → α × β} {prot : ρ → Prop} {init : ρ → α}
  {s s' : Threads τ ρ ω α β} {t : τ}

/-- **INSIDE IMPLIES HOLDING.** -/
theorem LockInv.inside_holds (hI : LockInv apply prot init s) {r : ρ} {a : α}
    (hin : s.inside t = some (r, a)) (hp : prot r) : s.holder = some t := by
  obtain ⟨o, c, hc⟩ := hI.current t r a hin
  have hg := hI.guarded t
  rw [hc] at hg
  exact of_decide_eq_true (hg.1 hp)

/-- **ALONE INSIDE**: no two threads are inside operations on protected
    resources. -/
theorem LockInv.inside_unique (hI : LockInv apply prot init s) {t' : τ} {r r' : ρ}
    {a a' : α} (hin : s.inside t = some (r, a)) (hin' : s.inside t' = some (r', a'))
    (hp : prot r) (hp' : prot r') : t = t' :=
  Option.some.inj ((hI.inside_holds hin hp).symm.trans (hI.inside_holds hin' hp'))

/-- Calling a function whose code keeps the discipline keeps the invariant. -/
theorem lockInv_call {c : List (Instr ρ ω)} (hI : LockInv apply prot init s)
    (hc : Guarded prot false c) (hs : call s t c = some s') :
    LockInv apply prot init s' := by
  have hcur := current_call hI.current hs
  obtain ⟨hidle, rfl⟩ := call_cases hs
  refine ⟨?_, hcur, hI.fresh, hI.legal⟩
  intro u
  show Guarded prot (decide (s.holder = some u)) (Function.update s.code t c u)
  by_cases hu : u = t
  · subst hu
    have hfree := hI.guarded u
    rw [hidle] at hfree
    rw [Function.update_self, show decide (s.holder = some u) = false from hfree]
    exact hc
  · rw [Function.update_of_ne hu]
    exact hI.guarded u

theorem guarded_exec [DecidableEq ρ] (hI : LockInv apply prot init s)
    (hs : exec apply s t = some s') :
    ∀ u, Guarded prot (decide (s'.holder = some u)) (s'.code u) := by
  intro u
  by_cases hu : u = t
  · subst hu
    have hg := hI.guarded u
    cases exec_cases hs with
    | lock c hc hfree =>
        rw [hc] at hg
        simp only [Function.update_self, decide_true]
        exact hg.2
    | unlock c hc hheld =>
        rw [hc] at hg
        simp only [Function.update_self]
        exact hg.2
    | enter r o c hc hout => exact hg
    | leave r r' o a c hc hin =>
        rw [hc] at hg
        simp only [Function.update_self]
        exact hg.2
  · obtain ⟨hcode, -, hholder⟩ := exec_frame hs hu
    rw [hcode, decide_eq_decide.mpr hholder]
    exact hI.guarded u

/-- **STEP LEMMA**: every step of every thread keeps the invariant. -/
theorem lockInv_exec [DecidableEq ρ] (hI : LockInv apply prot init s)
    (hs : exec apply s t = some s') : LockInv apply prot init s' := by
  have hguarded := guarded_exec hI hs
  have hcur := current_exec hI.current hs
  cases exec_cases hs with
  | lock c hc hfree => exact ⟨hguarded, hcur, hI.fresh, hI.legal⟩
  | unlock c hc hheld => exact ⟨hguarded, hcur, hI.fresh, hI.legal⟩
  | enter r o c hc hout =>
      refine ⟨hguarded, hcur, ?_, hI.legal⟩
      intro u r' a hin hp
      by_cases hu : u = t
      · subst hu
        have hra := Option.some.inj ((Function.update_self u _ _).symm.trans hin)
        obtain ⟨rfl, rfl⟩ := Prod.mk.inj hra
        rfl
      · exact hI.fresh u r' a ((Function.update_of_ne hu _ _).symm.trans hin) hp
  | leave r r' o a c hc hin =>
      obtain ⟨o', c', hc'⟩ := hI.current t r' a hin
      obtain ⟨rfl, rfl⟩ := Instr.op.inj (List.cons.inj (hc.symm.trans hc')).1
      refine ⟨hguarded, hcur, ?_, ?_⟩
      · intro u q b hin' hp
        have hu : u ≠ t := by
          rintro rfl
          exact nomatch (Function.update_self u _ _).symm.trans hin'
        have hbefore := (Function.update_of_ne hu _ _).symm.trans hin'
        show b = Function.update s.value r _ q
        -- another thread inside the same protected resource would be `t`
        rw [Function.update_of_ne ?_]
        · exact hI.fresh u q b hbefore hp
        · rintro rfl
          exact hu (hI.inside_unique hbefore hin hp hp)
      · intro q hp
        show Legal apply (init q) (Function.update s.hist r _ q)
          (Function.update s.value r _ q)
        by_cases hq : q = r
        · subst hq
          rw [Function.update_self, Function.update_self, hI.fresh t q a hin hp]
          exact legal_snoc o (hI.legal q hp)
        · rw [Function.update_of_ne hq, Function.update_of_ne hq]
          exact hI.legal q hp

end CoioLock
