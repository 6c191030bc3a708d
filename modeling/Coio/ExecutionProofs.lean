import Coio.ProgressProofs
import Coio.TerminationProofs

/-! # Execution through `future` refines direct-style evaluation

    The whole statement about a run: every body is started once if it is awaited
    and never otherwise, every await continues its coroutine once, every outcome is
    the direct-style one, and the run can go on until everything is finished. -/

namespace CoioExecution

open CoioMachine CoioCoroutine CoioFuture CoioHandshake CoioFrame CoioRefinement
open CoioProgress CoioTermination

variable {V E L : Type} {P : Program V E L} {out : L → Except E V}

/-- When the program is complete, every await that suspended has been continued. -/
theorem continues_eq_starts {tr : List Event} {s : State V E L}
    (hr : run (futureMachine P out) tr = some s) (hC : Complete P out s) {f : Fid}
    (hf : ¬ P.IsEntry f) : (counts f tr).continues = (counts f tr).starts := by
  obtain ⟨-, -, hrest⟩ := hC
  have hnone : ∀ c, ¬ WaitsOn f (s.pc c) := by
    intro c
    rcases hrest c with h | h | h <;> simp [WaitsOn, h]
  cases handshake_run hr hf with
  | fresh _ _ _ hcounts => rw [hcounts]
  | registering c _ hpc => exact absurd (hpc.imp_right fun h => Or.inl h.1) (hnone c)
  | waiting c _ hpc => exact absurd (Or.inr (Or.inr hpc)) (hnone c)
  | closed _ _ _ hcounts => rw [hcounts]

/-- **REFINEMENT OF DIRECT STYLE**: take any program, any outcomes of its leaf
    operations and any run, the leaf operations completing in any order and on any
    thread.  Each awaited future is started exactly once and each unawaited one
    never; each suspended await is continued exactly once, as soon as both sides
    have done their exchange; every frame keeps and delivers its direct-style
    outcome; and unless two coroutines await one unfinished future, the run goes on
    for at most `budget` steps until every future of the program has its
    direct-style outcome and every await has been continued. -/
theorem execution_refines_direct (P : Program V E L) (out : L → Except E V)
    (tr : List Event) (s : State V E L) (hr : run (futureMachine P out) tr = some s) :
    (∀ f, ¬ P.IsEntry f → StartedOnce tr s f ∧ ContinuedOnce tr s f) ∧
      (∃ val : Fid → Except E V, (∀ i < P.count, val i = direct P out i) ∧
        Throughout (futureMachine P out) (fun t => ∀ c, Denotes out val c (frame t c)) tr) ∧
      (CanStep P out s ∨ SecondAwait s ∨ (Complete P out s ∧
        ∀ f, ¬ P.IsEntry f → (counts f tr).continues = (counts f tr).starts)) ∧
      tr.length ≤ budget P out := by
  refine ⟨fun f hf => ⟨started_once hr hf, continued_once hr hf⟩, denotation hr, ?_,
    length_le_budget hr⟩
  rcases progress hr with h | h | h
  · exact Or.inl h
  · exact Or.inr (Or.inl h)
  · exact Or.inr (Or.inr ⟨h, fun f hf => continues_eq_starts hr h hf⟩)

/-- One future that calls a coroutine and awaits it; the callee awaits a leaf. -/
def callAndAwait : Program Nat Nat Unit where
  count := 1
  body
    | 0 => .create (.awaitLeaf () .coReturn .throwEx)
        (.awaitFuture (Fin.last 0) (fun v => .coReturn (v + 1)) .throwEx)
    | _ + 1 => .coReturn 0

/-- The leaf of the callee (frame 2) is resumed on thread 7 and the callee finishes
    before its awaiter (frame 0) reaches `set_continuation`. -/
def otherThreadFirst : List Event :=
  [.start 0 1, .awaitSuspend 0 1 0, .create 0 0, .awaitSuspend 0 0 2, .leafSuspend 0 2,
    .leafResume 7 2, .finish 7 2, .finalFirst 7 2, .storeContinuation 0 0 2,
    .setSecond 0 0 2, .finish 0 0, .finalFirst 0 0, .storeContinuation 0 1 0,
    .setSecond 0 1 0, .finishEntry 0 1]

/-- The theorem at that run: the callee is started once and its awaiter continued
    once, by `await_suspend` returning false. -/
theorem execution_refines_direct_otherThreadFirst :
    ∃ s, run (futureMachine callAndAwait (fun _ => .ok 7)) otherThreadFirst = some s ∧
      s.mResult 0 = some (.ok 8) ∧ counts 2 otherThreadFirst = ⟨1, 1, 1, 1⟩ ∧
      StartedOnce otherThreadFirst s 2 ∧ ContinuedOnce otherThreadFirst s 2 ∧
      otherThreadFirst.length ≤ budget callAndAwait (fun _ => .ok 7) := by
  obtain ⟨honce, -, -, hlen⟩ :=
    execution_refines_direct callAndAwait (fun _ => .ok 7) otherThreadFirst _ rfl
  obtain ⟨hstart, hcontinue⟩ := honce 2 (by decide)
  exact ⟨_, rfl, rfl, by decide, hstart, hcontinue, hlen⟩

end CoioExecution
