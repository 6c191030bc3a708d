import Coio.RefinementProofs
import Coio.StackProofs
import Mathlib.Data.Finset.Max

/-! # No run gets stuck, and every run ends

    A program whose unfinished futures have one awaiter each can always take a
    step until all its futures are finished, and it has a bounded number of steps
    to take: the leaf operations complete in any order, on any thread, and the
    program comes to its end.

    Where nothing is on any stack and no leaf operation is pending, a suspended
    coroutine waits for one that is suspended itself, and so on without end; but
    an awaiter was started before what it awaits. -/

namespace CoioProgress

open CoioMachine CoioCoroutine CoioFuture CoioHandshake CoioFrame CoioRefinement CoioStack

variable {V E L : Type} {P : Program V E L} {out : L → Except E V}

/-! ## The coroutines on the stacks -/

/-- The coroutine is inside a call of `resume()`. -/
def active : Pc → Bool
  | .running => true
  | .resuming _ => true
  | .stored _ => true
  | .finalSuspend => true
  | _ => false

theorem active_on {g : Fid → Pc} {c : Fid} {p : Pc} (hp : active p = true) (b : Fid) :
    active (Function.update g c p b) = true ↔ b = c ∨ active (g b) = true := by
  by_cases h : b = c
  · subst h
    simp [hp]
  · simp [h]

theorem active_off {g : Fid → Pc} {c : Fid} {p : Pc} (hp : active p = false) (b : Fid) :
    active (Function.update g c p b) = true ↔ b ≠ c ∧ active (g b) = true := by
  by_cases h : b = c
  · subst h
    simp [hp]
  · simp [h]

theorem active_same {g : Fid → Pc} {c : Fid} {p : Pc} (hp : active p = active (g c))
    (b : Fid) : active (Function.update g c p b) = true ↔ active (g b) = true := by
  by_cases h : b = c
  · subst h
    simp [hp]
  · simp [h]

/-- The stacks hold the active coroutines. -/
def Stacks (s : State V E L) : Prop := OnStacks (fun c => active (s.pc c) = true) s.stack

theorem stacks_step {s s' : State V E L} {e : Event} (hnew : s.pc s.next = .unborn)
    (h : Stacks s) (hs : step P out s e = some s') : Stacks s' := by
  cases step_cases hs with
  | start t c _ _ hpc => exact h.push (by simp [hpc, active]) (active_on rfl)
  | pureStep => exact h
  | create => exact h.congr (active_same (by simp [hnew, active]))
  | leafReady t c n env l k g hcode htop hpc =>
      exact h.congr (active_same (by simp [hpc, active]))
  | leafSuspend t c n env l k g hcode htop hpc => exact h.pop htop (active_off rfl)
  | leafResume t c n env l k g hcode huser hpc =>
      exact h.push (by simp [hpc, active]) (active_on rfl)
  | awaitReady t c f r hres htop hpc => exact h.congr (active_same (by simp [hpc, active]))
  | awaitSuspend t c f htop hpc hawait hfresh =>
      have hmid := h.congr (active_same (c := c) (p := .resuming f) (by simp [hpc, active]))
      have hne : f ≠ c := ne_of_pc hfresh hpc (by simp)
      exact hmid.push (by simp [hne, hfresh, active]) (active_on rfl)
  | storeContinuation t c f htop hpc =>
      exact h.congr (active_same (by simp [hpc, active]))
  | setFirst t c f htop hpc => exact h.pop htop (active_off rfl)
  | setSecond t c f r hres htop hpc => exact h.congr (active_same (by simp [hpc, active]))
  | finish t c r hret htop hpc => exact h.congr (active_same (by simp [hpc, active]))
  | finishEntry t c r hret htop => exact h.pop htop (active_off rfl)
  | finalFirst t f htop => exact h.pop htop (active_off rfl)
  | finalResume t f c r hres htop hpc hsecond hcont hsusp =>
      have hmid := h.pop htop (active_off (p := .finished) rfl)
      have hne : c ≠ f := ne_of_pc hsusp hpc (by simp)
      exact hmid.push (by simp [hne, hsusp, active]) (active_on rfl)

theorem stacks_run {tr : List Event} {s : State V E L}
    (hr : run (futureMachine P out) tr = some s) : Stacks s := by
  refine run_history (P := fun _ s => Stacks s) ?_ ?_ tr s hr
  · refine onStacks_nil fun c => ?_
    rcases init_pc P out c with h | h <;> simp [h, active]
  · intro tr s e s' hr' h hs
    exact stacks_step (next_unborn hr') h hs

/-! ## An awaiter was started before what it awaits -/

theorem waits_update {g : Fid → Pc} {c : Fid} {p : Pc}
    (hp : ∀ f, WaitsOn f p → WaitsOn f (g c)) (a f : Fid)
    (hw : WaitsOn f (Function.update g c p a)) : WaitsOn f (g a) :=
  of_update (WaitsOn f) (hp f) hw

/-- The coroutines can be ranked so that each awaits one of higher rank. -/
def Ranked (s : State V E L) : Prop :=
  ∃ rank : Fid → Nat, ∀ c f, WaitsOn f (s.pc c) → rank c < rank f

theorem Ranked.mono {s s' : State V E L} (h : Ranked s)
    (hw : ∀ c f, WaitsOn f (s'.pc c) → WaitsOn f (s.pc c)) : Ranked s' := by
  obtain ⟨rank, hrank⟩ := h
  exact ⟨rank, fun c f h => hrank c f (hw c f h)⟩

theorem ranked_step {s s' : State V E L} {e : Event} (h : Ranked s)
    (hfresh : ∀ c f, (s.code c).awaited = some f → s.pc c ≠ .unborn → s.pc f = .created →
      ∀ a, ¬ WaitsOn f (s.pc a))
    (hs : step P out s e = some s') : Ranked s' := by
  cases step_cases hs with
  | pureStep => exact h
  | awaitSuspend t c f htop hpc hawait hcreated =>
      obtain ⟨rank, hrank⟩ := h
      have hnone := hfresh c f hawait (by simp [hpc]) hcreated
      have hne : c ≠ f := ne_of_pc hpc hcreated (by simp)
      refine ⟨Function.update rank f (rank c + 1), fun a g hw => ?_⟩
      have hw : WaitsOn g (Function.update (Function.update s.pc c (.resuming f)) f .running a) :=
        hw
      by_cases haf : a = f
      · subst haf
        simp [WaitsOn] at hw
      · rw [Function.update_of_ne haf] at hw ⊢
        by_cases hac : a = c
        · subst hac
          have hfg : f = g := by simpa [WaitsOn] using hw
          subst hfg
          rw [Function.update_self]
          exact Nat.lt_succ_self _
        · rw [Function.update_of_ne hac] at hw
          have hgf : g ≠ f := fun h => hnone a (h ▸ hw)
          rw [Function.update_of_ne hgf]
          exact hrank a g hw
  | storeContinuation t c f htop hpc =>
      exact h.mono (waits_update (by simp [WaitsOn, hpc]))
  | setFirst t c f htop hpc =>
      exact h.mono (waits_update (by simp [WaitsOn, hpc]))
  | finalResume =>
      exact h.mono fun a f hw => waits_update (by simp [WaitsOn]) a f
        (waits_update (by simp [WaitsOn]) a f hw)
  | _ => exact h.mono (waits_update (by simp [WaitsOn]))

theorem ranked_run {tr : List Event} {s : State V E L}
    (hr : run (futureMachine P out) tr = some s) : Ranked s := by
  refine run_history (P := fun _ s => Ranked s) ?_ ?_ tr s hr
  · refine ⟨fun _ => 0, fun c f hw => ?_⟩
    rcases init_pc P out c with h | h <;> simp [WaitsOn, h] at hw
  · intro tr s e s' hr' h hs
    refine ranked_step h (fun c f hawait hc hcreated => ?_) hs
    exact ((handshake_run hr' (awaited_scope hr' hc hawait).2).of_fresh (Or.inr hcreated)).2.1

/-! ## Progress -/

/-- A coroutine is about to await an unfinished future that another one, `d`, awaits
    already. -/
def SecondAwait (s : State V E L) : Prop :=
  ∃ t c d f, atTop s t c ∧ s.pc c = .running ∧ (s.code c).awaited = some f ∧
    (s.pc f).done = false ∧ WaitsOn f (s.pc d)

/-- Every future of the program has its direct-style outcome, nothing is on a stack,
    and no coroutine that was started is left. -/
def Complete (P : Program V E L) (out : L → Except E V) (s : State V E L) : Prop :=
  (∀ i < P.count, s.mResult i = some (direct P out i)) ∧ (∀ t, s.stack t = []) ∧
    ∀ c, s.pc c = .unborn ∨ s.pc c = .created ∨ s.pc c = .finished

/-- Some step is possible. -/
def CanStep (P : Program V E L) (out : L → Except E V) (s : State V E L) : Prop :=
  ∃ e s', step P out s e = some s'

section Progress

variable {tr : List Event} {s : State V E L} {t : Tid} {c f : Fid}

/-- A future that is done has its result. -/
theorem result_of_done (hr : run (futureMachine P out) tr = some s) (hf : ¬ P.IsEntry f)
    (hdone : (s.pc f).done = true) : ∃ r, s.mResult f = some r :=
  Option.isSome_iff_exists.mp (((frameInv_run hr f).result hf).trans hdone)

/-- A body that has been started and has not ended has an awaiter. -/
theorem waiter_of_live (hH : Handshake tr s f) (hlive : Live (s.pc f)) :
    ∃ d, WaitsOn f (s.pc d) := by
  cases hH with
  | fresh h => rcases h with h | h <;> simp [Live, h] at hlive
  | registering d _ hd => exact ⟨d, hd.imp_right fun h => Or.inl h.1⟩
  | waiting d _ hd => exact ⟨d, Or.inr (Or.inr hd)⟩
  | closed h => simp [Live, h] at hlive

theorem finish_progress (htop : atTop s t c) (hpc : s.pc c = .running) {r : Except E V}
    (hret : (s.code c).returned = some r) : CanStep P out s := by
  by_cases hentry : P.IsEntry c
  · exact ⟨.finishEntry t c, _, Option.bind_eq_some_iff.mpr
      ⟨r, hret, enabled_eq_some.mpr ⟨⟨htop, hpc, hentry⟩, rfl⟩⟩⟩
  · exact ⟨.finish t c, _, Option.bind_eq_some_iff.mpr
      ⟨r, hret, enabled_eq_some.mpr ⟨⟨htop, hpc, hentry⟩, rfl⟩⟩⟩

/-- At an await of `f`: it is done, it can be started, or it is awaited already. -/
theorem await_progress (hr : run (futureMachine P out) tr = some s) (htop : atTop s t c)
    (hpc : s.pc c = .running) (hawait : (s.code c).awaited = some f) :
    CanStep P out s ∨ SecondAwait s := by
  obtain ⟨hlt, hf⟩ := awaited_scope hr (by simp [hpc]) hawait
  by_cases hdone : (s.pc f).done = true
  · obtain ⟨r, hres⟩ := result_of_done hr hf hdone
    exact Or.inl ⟨.awaitReady t c f, _, Option.bind_eq_some_iff.mpr
      ⟨r, hres, enabled_eq_some.mpr ⟨⟨htop, hpc, hawait, hdone⟩, rfl⟩⟩⟩
  · by_cases hcreated : s.pc f = .created
    · exact Or.inl ⟨.awaitSuspend t c f, _,
        enabled_eq_some.mpr ⟨⟨htop, hpc, hawait, hcreated⟩, rfl⟩⟩
    · have hlive : Live (s.pc f) :=
        ⟨fun h => Nat.not_lt.mpr (((born_iff hr).2 f).mp h) hlt, hcreated,
          fun h => hdone (by rw [h]; rfl)⟩
      obtain ⟨d, hd⟩ := waiter_of_live (handshake_run hr hf) hlive
      exact Or.inr ⟨t, c, d, f, htop, hpc, hawait, Bool.eq_false_iff.mpr hdone, hd⟩

/-- User code can go on. -/
theorem running_progress (hr : run (futureMachine P out) tr = some s) (htop : atTop s t c)
    (hpc : s.pc c = .running) : CanStep P out s ∨ SecondAwait s := by
  rcases hcode : s.code c with ⟨n, env, b⟩
  cases b with
  | coReturn v => exact Or.inl (finish_progress htop hpc (by rw [hcode]; rfl))
  | throwEx e => exact Or.inl (finish_progress htop hpc (by rw [hcode]; rfl))
  | pureStep k =>
      refine Or.inl ⟨.pureStep t c, _, Option.bind_eq_some_iff.mpr
        ⟨⟨n, env, k⟩, ?_, enabled_eq_some.mpr ⟨⟨htop, hpc⟩, rfl⟩⟩⟩
      rw [hcode]; rfl
  | awaitLeaf l k h =>
      refine Or.inl ⟨.leafReady t c, _, Option.bind_eq_some_iff.mpr
        ⟨l, ?_, enabled_eq_some.mpr ⟨⟨htop, hpc⟩, rfl⟩⟩⟩
      rw [hcode]; rfl
  | create child k =>
      refine Or.inl ⟨.create t c, _, Option.bind_eq_some_iff.mpr
        ⟨(⟨n, env, child⟩, ⟨n + 1, push env s.next, k⟩), ?_,
          enabled_eq_some.mpr ⟨⟨htop, hpc⟩, rfl⟩⟩⟩
      rw [hcode]; rfl
  | awaitFuture i k h => exact await_progress hr htop hpc (by rw [hcode]; rfl)

/-- `await_suspend` and `final_awaiter` never block: whichever exchange this is, the
    other side has left what it needs. -/
theorem top_progress (hr : run (futureMachine P out) tr = some s) (htop : atTop s t c) :
    CanStep P out s ∨ SecondAwait s := by
  have hactive : active (s.pc c) = true := (stacks_run hr).top htop
  cases hpc : s.pc c with
  | running => exact running_progress hr htop hpc
  | resuming f =>
      exact Or.inl ⟨.storeContinuation t c f, _, enabled_eq_some.mpr ⟨⟨htop, hpc⟩, rfl⟩⟩
  | stored f =>
      cases hst : s.mState f with
      | false =>
          exact Or.inl ⟨.setFirst t c f, _, enabled_eq_some.mpr ⟨⟨htop, hpc, hst⟩, rfl⟩⟩
      | true =>
          have hwaits := (frameInv_run hr c).waits f (Or.inr (Or.inl hpc))
          obtain ⟨-, hf⟩ := awaited_scope hr (by simp [hpc]) hwaits
          obtain ⟨-, -, -, hbody⟩ := (handshake_run hr hf).of_registering (Or.inr hpc)
          rcases hbody with ⟨-, hst', -⟩ | ⟨hfin, -⟩
          · exact nomatch hst.symm.trans hst'
          · obtain ⟨r, hres⟩ := result_of_done hr hf (by rw [hfin]; rfl)
            exact Or.inl ⟨.setSecond t c f, _, Option.bind_eq_some_iff.mpr
              ⟨r, hres, enabled_eq_some.mpr ⟨⟨htop, hpc, hst⟩, rfl⟩⟩⟩
  | finalSuspend =>
      have hf : ¬ P.IsEntry c := fun h => (frameInv_run hr c).entry h hpc
      cases hst : s.mState c with
      | false =>
          exact Or.inl ⟨.finalFirst t c, _, enabled_eq_some.mpr ⟨⟨htop, hpc, hst⟩, rfl⟩⟩
      | true =>
          obtain ⟨r, hres⟩ := result_of_done hr hf (by rw [hpc]; rfl)
          obtain ⟨d, hcont, hsusp⟩ := (handshake_run hr hf).of_final hpc hst
          exact Or.inl ⟨.finalResume t c d, _, Option.bind_eq_some_iff.mpr
            ⟨r, hres, enabled_eq_some.mpr ⟨⟨htop, hpc, hst, hcont, hsusp⟩, rfl⟩⟩⟩
  | _ => simp [hpc, active] at hactive

/-! ## Nothing on any stack -/

theorem inUserCode_of_empty (hempty : s.stack t = []) : inUserCode s t := by
  intro c hc
  rw [atTop, hempty] at hc
  exact nomatch hc

/-- Without a pending leaf operation, nobody waits: the chain of awaits would rise
    for ever. -/
theorem none_suspended (hr : run (futureMachine P out) tr = some s)
    (hidle : ∀ c, active (s.pc c) = false) (hleaf : ∀ c, s.pc c ≠ .atLeaf) :
    ∀ c f, s.pc c ≠ .suspended f := by
  classical
  obtain ⟨rank, hrank⟩ := ranked_run hr
  -- a suspended coroutine waits for another suspended one
  have hnext : ∀ c f, s.pc c = .suspended f → ∃ g, s.pc f = .suspended g := by
    intro c f hpc
    have hwaits := (frameInv_run hr c).waits f (Or.inr (Or.inr hpc))
    obtain ⟨-, hf⟩ := awaited_scope hr (by simp [hpc]) hwaits
    have hlive := (handshake_run hr hf).of_suspended hpc
    have hact := hidle f
    have hnl := hleaf f
    cases h : s.pc f <;> simp_all [Live, active]
  intro c f hpc
  let waiting := (Finset.range s.next).filter fun c => ∃ f, s.pc c = .suspended f
  have hmem : ∀ c f, s.pc c = .suspended f → c ∈ waiting := by
    intro c f hpc
    have hlt : c < s.next := lt_next_of_born hr (by simp [hpc])
    exact Finset.mem_filter.mpr ⟨Finset.mem_range.mpr hlt, f, hpc⟩
  obtain ⟨top, htop, hmax⟩ := waiting.exists_max_image rank ⟨c, hmem c f hpc⟩
  obtain ⟨g, hg⟩ := (Finset.mem_filter.mp htop).2
  obtain ⟨g', hg'⟩ := hnext top g hg
  exact Nat.not_lt.mpr (hmax g (hmem g g' hg')) (hrank top g (Or.inr (Or.inr hg)))

/-- A pending leaf operation completes, a `oneway_task` is started, or all is done. -/
theorem quiet_progress (hr : run (futureMachine P out) tr = some s)
    (hempty : ∀ t, s.stack t = []) : CanStep P out s ∨ Complete P out s := by
  have hidle : ∀ c, active (s.pc c) = false := fun c =>
    Bool.eq_false_iff.mpr ((stacks_run hr).idle hempty c)
  have huser : inUserCode s 0 := inUserCode_of_empty (hempty 0)
  by_cases hleaf : ∃ c, s.pc c = .atLeaf
  · obtain ⟨c, hc⟩ := hleaf
    obtain ⟨l, hl⟩ := (frameInv_run hr c).leaf hc
    exact Or.inl ⟨.leafResume 0 c, _, Option.bind_eq_some_iff.mpr
      ⟨l, hl, enabled_eq_some.mpr ⟨⟨huser, hc⟩, rfl⟩⟩⟩
  by_cases hstart : ∃ i < P.count, s.pc (P.entry i) = .created
  · obtain ⟨i, hi, hc⟩ := hstart
    exact Or.inl ⟨.start 0 (P.entry i), _,
      enabled_eq_some.mpr ⟨⟨huser, isEntry_entry hi, hc⟩, rfl⟩⟩
  have hsusp := none_suspended hr hidle (fun c hc => hleaf ⟨c, hc⟩)
  have hrest : ∀ c, s.pc c = .unborn ∨ s.pc c = .created ∨ s.pc c = .finished := by
    intro c
    have hact := hidle c
    cases hc : s.pc c with
    | atLeaf => exact absurd ⟨c, hc⟩ hleaf
    | suspended f => exact absurd hc (hsusp c f)
    | _ => simp_all [active]
  refine Or.inr ⟨fun i hi => ?_, hempty, hrest⟩
  obtain ⟨hroots, hborn⟩ := born_iff hr
  have hentry : s.pc (P.entry i) = .finished := by
    rcases hrest (P.entry i) with h | h | h
    · exact absurd ((hborn _).mp h) (Nat.not_le.mpr
        (Nat.lt_of_lt_of_le (isEntry_entry hi).2 hroots))
    · exact absurd ⟨i, hi, h⟩ hstart
    · exact h
  rcases entryInv_run hr hi with ⟨-, hne⟩ | hdone
  · exact absurd hentry hne
  · obtain ⟨r, hres⟩ := result_of_done hr (not_isEntry_root hi) hdone
    rw [hres, result_direct hr hi hres]

/-- **PROGRESS**: in every state reached the program can go on, or two coroutines
    await one unfinished future, or it is complete. -/
theorem progress (hr : run (futureMachine P out) tr = some s) :
    CanStep P out s ∨ SecondAwait s ∨ Complete P out s := by
  by_cases htop : ∃ t c, atTop s t c
  · obtain ⟨t, c, htop⟩ := htop
    exact (top_progress hr htop).imp_right Or.inl
  · have hempty : ∀ t, s.stack t = [] := by
      intro t
      cases hst : s.stack t with
      | nil => rfl
      | cons c rest => exact absurd ⟨t, c, by rw [atTop, hst]; rfl⟩ htop
    exact (quiet_progress hr hempty).imp_right Or.inr

end Progress

end CoioProgress
