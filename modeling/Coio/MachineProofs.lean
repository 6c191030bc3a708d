import Mathlib.Data.List.Basic
import Mathlib.Data.List.Infix
import Mathlib.Logic.Function.Basic

/-! # Labelled machines, their runs, and the induction rules for runs

    A component that takes step after step is a `Machine`: a start state and a
    partial step function on events.  A run is the list of events taken; it
    either gets stuck (`none`) or ends in one state, so every fact about a run
    can be evaluated on a concrete schedule.

    Three rules carry all later developments:

    * `run_invariant` — a state predicate kept by every step holds after every
      run;
    * `run_history` — the same for a predicate of the events taken so far AND
      the state reached;
    * `run_invariant_along` — the same for the runs whose steps all meet a
      condition on the state before the step.

    Nothing here knows what the machine models. -/

namespace CoioMachine

variable {σ ε : Type}

/-- A start state and a partial, labelled step function. -/
structure Machine (σ ε : Type) where
  init : σ
  step : σ → ε → Option σ

/-- A guarded transition: `s` if the guard holds. -/
def enabled (p : Prop) [Decidable p] (s : σ) : Option σ :=
  if p then some s else none

theorem enabled_eq_some {p : Prop} [Decidable p] {s s' : σ} :
    enabled p s = some s' ↔ p ∧ s' = s := by
  unfold enabled
  split
  · rename_i hp
    exact ⟨fun h => ⟨hp, (Option.some.inj h).symm⟩, fun h => congrArg some h.2.symm⟩
  · rename_i hp
    exact ⟨(fun h => nomatch h), fun h => absurd h.1 hp⟩

/-- Take the events one after another; `none` as soon as one is not enabled. -/
def runFrom (M : Machine σ ε) : σ → List ε → Option σ
  | s, [] => some s
  | s, e :: es => (M.step s e).bind (fun s' => runFrom M s' es)

/-- A run from the start state. -/
def run (M : Machine σ ε) (es : List ε) : Option σ :=
  runFrom M M.init es

/-- Every step of the run meets `ok`, read in the state before the step. -/
def Along (M : Machine σ ε) (ok : σ → ε → Prop) : σ → List ε → Prop
  | _, [] => True
  | s, e :: es => ok s e ∧ ∀ s', M.step s e = some s' → Along M ok s' es

/-- `P` holds in every state the run passes through, the last one included. -/
def Throughout (M : Machine σ ε) (P : σ → Prop) (es : List ε) : Prop :=
  ∀ pre, pre <+: es → ∀ t, run M pre = some t → P t

@[simp] theorem runFrom_nil (M : Machine σ ε) (s : σ) :
    runFrom M s [] = some s := rfl

theorem runFrom_cons (M : Machine σ ε) (s : σ) (e : ε) (es : List ε) :
    runFrom M s (e :: es) = (M.step s e).bind (fun s' => runFrom M s' es) := rfl

/-- The first step of a run, split off. -/
theorem runFrom_cons_some {M : Machine σ ε} {s t : σ} {e : ε} {es : List ε} :
    runFrom M s (e :: es) = some t ↔ ∃ s', M.step s e = some s' ∧ runFrom M s' es = some t := by
  rw [runFrom_cons, Option.bind_eq_some_iff]

/-- A run splits at every position. -/
theorem runFrom_append (M : Machine σ ε) :
    ∀ (as bs : List ε) (s : σ),
      runFrom M s (as ++ bs)
        = (runFrom M s as).bind (fun t => runFrom M t bs) := by
  intro as
  induction as with
  | nil => intro bs s; rfl
  | cons e es ih =>
      intro bs s
      rw [List.cons_append, runFrom_cons, runFrom_cons, Option.bind_assoc]
      cases M.step s e with
      | none => rfl
      | some s' => exact ih bs s'

/-- The last step of a run, split off. -/
theorem runFrom_snoc {M : Machine σ ε} {s s' : σ} {es : List ε} {e : ε} :
    runFrom M s (es ++ [e]) = some s' ↔
      ∃ t, runFrom M s es = some t ∧ M.step t e = some s' := by
  rw [runFrom_append, Option.bind_eq_some_iff]
  constructor
  · rintro ⟨t, ht, hs⟩
    rw [runFrom_cons, Option.bind_eq_some_iff] at hs
    obtain ⟨u, hu, hn⟩ := hs
    exact ⟨t, ht, hu.trans hn⟩
  · rintro ⟨t, ht, hs⟩
    refine ⟨t, ht, ?_⟩
    rw [runFrom_cons, hs]
    rfl

/-- A run over a concatenation passes through a middle state. -/
theorem runFrom_append_some {M : Machine σ ε} {s s' : σ} {as bs : List ε} :
    runFrom M s (as ++ bs) = some s' ↔
      ∃ t, runFrom M s as = some t ∧ runFrom M t bs = some s' := by
  rw [runFrom_append, Option.bind_eq_some_iff]

/-- Every prefix of a run is a run. -/
theorem run_initial {M : Machine σ ε} {es pre : List ε} {s : σ}
    (hr : run M es = some s) (hp : pre <+: es) :
    ∃ t, run M pre = some t := by
  obtain ⟨suf, rfl⟩ := hp
  obtain ⟨t, ht, -⟩ := runFrom_append_some.mp hr
  exact ⟨t, ht⟩

/-- A step of a run, with the states around it. -/
theorem run_at {M : Machine σ ε} {es pre : List ε} {e : ε} {s : σ}
    (hr : run M es = some s) (hp : pre ++ [e] <+: es) :
    ∃ t t', run M pre = some t ∧ M.step t e = some t' := by
  obtain ⟨t', ht'⟩ := run_initial hr hp
  obtain ⟨t, ht, hs⟩ := runFrom_snoc.mp ht'
  exact ⟨t, t', ht, hs⟩

/-- Two steps of a run, with the states around them. -/
theorem run_between {M : Machine σ ε} {es pre mid : List ε} {e e' : ε} {s : σ}
    (hr : run M es = some s) (hp : pre ++ [e] ++ mid ++ [e'] <+: es) :
    ∃ t t₁ t₂ t₃, run M pre = some t ∧ M.step t e = some t₁ ∧
      runFrom M t₁ mid = some t₂ ∧ M.step t₂ e' = some t₃ := by
  obtain ⟨t₂, t₃, ht₂, hs'⟩ := run_at hr hp
  obtain ⟨t₁, ht₁, hmid⟩ := runFrom_append_some.mp ht₂
  obtain ⟨t, ht, hs⟩ := runFrom_snoc.mp ht₁
  exact ⟨t, t₁, t₂, t₃, ht, hs, hmid, hs'⟩

/-- **HISTORY RULE**: a predicate of the events so far and the state reached
    holds of every run if it holds at the start and each step keeps it. -/
theorem runFrom_history {M : Machine σ ε} {s₀ : σ} {P : List ε → σ → Prop}
    (h0 : P [] s₀)
    (hstep : ∀ es s e s', runFrom M s₀ es = some s → P es s →
      M.step s e = some s' → P (es ++ [e]) s') :
    ∀ es s, runFrom M s₀ es = some s → P es s := by
  intro es
  induction es using List.reverseRecOn with
  | nil =>
      intro s hs
      obtain rfl : s₀ = s := Option.some.inj hs
      exact h0
  | append_singleton es e ih =>
      intro s hs
      obtain ⟨t, ht, he⟩ := runFrom_snoc.mp hs
      exact hstep es t e s ht (ih t ht) he

/-- The history rule for runs from the start state. -/
theorem run_history {M : Machine σ ε} {P : List ε → σ → Prop}
    (h0 : P [] M.init)
    (hstep : ∀ es s e s', run M es = some s → P es s →
      M.step s e = some s' → P (es ++ [e]) s') :
    ∀ es s, run M es = some s → P es s :=
  runFrom_history h0 hstep

/-- **INVARIANT RULE**, from any state. -/
theorem runFrom_invariant {M : Machine σ ε} {I : σ → Prop}
    (hstep : ∀ s e s', I s → M.step s e = some s' → I s') {s₀ : σ} (h0 : I s₀)
    {es : List ε} {s : σ} (hr : runFrom M s₀ es = some s) : I s :=
  runFrom_history (P := fun _ s => I s) h0
    (fun _ s e s' _ hI hs => hstep s e s' hI hs) es s hr

/-- **INVARIANT RULE**: what holds at the start and survives each step holds
    after every run. -/
theorem run_invariant {M : Machine σ ε} {I : σ → Prop} (h0 : I M.init)
    (hstep : ∀ s e s', I s → M.step s e = some s' → I s')
    {es : List ε} {s : σ} (hr : run M es = some s) : I s :=
  runFrom_invariant hstep h0 hr

/-- A condition along a run, split at the last step. -/
theorem along_snoc {M : Machine σ ε} {ok : σ → ε → Prop} :
    ∀ (es : List ε) (s t : σ) (e : ε), runFrom M s es = some t →
      (Along M ok s (es ++ [e]) ↔ Along M ok s es ∧ ok t e) := by
  intro es
  induction es with
  | nil =>
      intro s t e hr
      obtain rfl : s = t := Option.some.inj hr
      constructor
      · intro h; exact ⟨trivial, h.1⟩
      · intro h; exact ⟨h.2, fun _ _ => trivial⟩
  | cons x xs ih =>
      intro s t e hr
      rw [runFrom_cons, Option.bind_eq_some_iff] at hr
      obtain ⟨u, hu, hrest⟩ := hr
      have hih := ih u t e hrest
      constructor
      · intro h
        have hu' := hih.mp (h.2 u hu)
        refine ⟨⟨h.1, ?_⟩, hu'.2⟩
        intro s' hs'
        obtain rfl : u = s' := Option.some.inj (hu.symm.trans hs')
        exact hu'.1
      · intro h
        refine ⟨h.1.1, ?_⟩
        intro s' hs'
        obtain rfl : u = s' := Option.some.inj (hu.symm.trans hs')
        exact hih.mpr ⟨h.1.2 u hu, h.2⟩

/-- A condition along a run holds along every prefix. -/
theorem along_initial {M : Machine σ ε} {ok : σ → ε → Prop} {es pre : List ε} :
    ∀ {s : σ}, Along M ok s es → pre <+: es → Along M ok s pre := by
  induction pre generalizing es with
  | nil => intro s _ _; exact trivial
  | cons x xs ih =>
      intro s h hp
      obtain ⟨suf, rfl⟩ := hp
      exact ⟨h.1, fun s' hs' => ih (h.2 s' hs') (List.prefix_append xs suf)⟩

/-- On a concrete run, a condition along it can be evaluated. -/
instance Along.decidable (M : Machine σ ε) (ok : σ → ε → Prop) [∀ s e, Decidable (ok s e)] :
    (s : σ) → (es : List ε) → Decidable (Along M ok s es)
  | _, [] => isTrue trivial
  | s, e :: es =>
      have hrest : (∀ t ∈ M.step s e, Along M ok t es) ↔
          ∀ s', M.step s e = some s' → Along M ok s' es := Iff.rfl
      letI : ∀ t, Decidable (Along M ok t es) := fun t => Along.decidable M ok t es
      decidable_of_iff (ok s e ∧ ∀ t ∈ M.step s e, Along M ok t es) (and_congr_right' hrest)

/-- Two conditions that agree wherever `I` holds, along a run whose steps keep `I`. -/
theorem along_iff {M : Machine σ ε} {A P Q : σ → ε → Prop} {I : σ → Prop}
    (hiff : ∀ s e, I s → A s e → (P s e ↔ Q s e))
    (hstep : ∀ s e s', I s → A s e → P s e → M.step s e = some s' → I s') :
    ∀ {es : List ε} {s : σ}, Along M A s es → I s → (Along M P s es ↔ Along M Q s es) := by
  intro es
  induction es with
  | nil => intro s _ _; exact Iff.rfl
  | cons e es ih =>
      intro s hA hI
      have hrest : ∀ s', P s e → M.step s e = some s' →
          (Along M P s' es ↔ Along M Q s' es) := fun s' hP hs' =>
        ih (hA.2 s' hs') (hstep s e s' hI hA.1 hP hs')
      constructor
      · intro h
        exact ⟨(hiff s e hI hA.1).mp h.1, fun s' hs' => (hrest s' h.1 hs').mp (h.2 s' hs')⟩
      · intro h
        have hP := (hiff s e hI hA.1).mpr h.1
        exact ⟨hP, fun s' hs' => (hrest s' hP hs').mpr (h.2 s' hs')⟩

/-- A weaker condition holds along the same run. -/
theorem along_mono {M : Machine σ ε} {ok ok' : σ → ε → Prop}
    (himp : ∀ s e, ok s e → ok' s e) :
    ∀ {es : List ε} {s : σ}, Along M ok s es → Along M ok' s es := by
  intro es
  induction es with
  | nil => intro s _; exact trivial
  | cons e es ih =>
      intro s h
      exact ⟨himp s e h.1, fun s' hs' => ih (h.2 s' hs')⟩

/-- A condition that only reads the events holds along the run if it holds of
    each event. -/
theorem along_of_forall {M : Machine σ ε} {ok : ε → Prop} :
    ∀ {es : List ε} (s : σ), (∀ e ∈ es, ok e) → Along M (fun _ e => ok e) s es := by
  intro es
  induction es with
  | nil => intro s _; exact trivial
  | cons e es ih =>
      intro s h
      exact ⟨h e (List.mem_cons_self ..),
        fun s' _ => ih s' (fun e' he' => h e' (List.mem_cons_of_mem e he'))⟩

/-- The converse, for a run that does not get stuck. -/
theorem forall_of_along {M : Machine σ ε} {ok : ε → Prop} {P : σ → ε → Prop}
    (hgo : ∀ s e, P s e → ∃ s', M.step s e = some s') :
    ∀ {es : List ε} {s : σ}, Along M P s es → Along M (fun _ e => ok e) s es →
      ∀ e ∈ es, ok e := by
  intro es
  induction es with
  | nil => intro s _ _ e he; cases he
  | cons x xs ih =>
      intro s hP hok e he
      obtain ⟨s', hs'⟩ := hgo s x hP.1
      rcases List.mem_cons.mp he with rfl | he
      · exact hok.1
      · exact ih (hP.2 s' hs') (hok.2 s' hs') e he

/-- **CONDITIONAL INVARIANT RULE**: what holds at the start and survives each
    step that meets `ok` holds after every run whose steps all meet `ok`. -/
theorem run_invariant_along {M : Machine σ ε} {ok : σ → ε → Prop} {I : σ → Prop}
    (h0 : I M.init)
    (hstep : ∀ s e s', I s → ok s e → M.step s e = some s' → I s') :
    ∀ {es : List ε} {s : σ}, run M es = some s → Along M ok M.init es → I s := by
  intro es s hr
  refine run_history (P := fun es s => Along M ok M.init es → I s)
    (fun _ => h0) ?_ es s hr
  intro es s e s' hs hI he hal
  obtain ⟨hal', hok⟩ := (along_snoc es M.init s e hs).mp hal
  exact hstep s e s' (hI hal') hok he

/-- The conditional rule, for every state the run passes through. -/
theorem throughout_along {M : Machine σ ε} {ok : σ → ε → Prop} {I : σ → Prop}
    (h0 : I M.init)
    (hstep : ∀ s e s', I s → ok s e → M.step s e = some s' → I s')
    {es : List ε} (hal : Along M ok M.init es) : Throughout M I es :=
  fun _ hp _ ht => run_invariant_along h0 hstep ht (along_initial hal hp)

theorem throughout_initial {M : Machine σ ε} {P : σ → Prop} {es pre : List ε}
    (h : Throughout M P es) (hp : pre <+: es) : Throughout M P pre :=
  fun init hinit => h init (hinit.trans hp)

/-- **HISTORY RULE ALONG A RUN**: the steps of a run whose states all satisfy `Q`. -/
theorem run_history_throughout {M : Machine σ ε} {Q : σ → Prop} {P : List ε → σ → Prop}
    (h0 : P [] M.init)
    (hstep : ∀ es s e s', run M es = some s → Q s → Q s' → P es s →
      M.step s e = some s' → P (es ++ [e]) s') :
    ∀ es s, run M es = some s → Throughout M Q es → P es s := by
  refine run_history (fun _ => h0) ?_
  intro es s e s' hr ih hs hQ
  have hinit : es <+: es ++ [e] := List.prefix_append ..
  have hr' : run M (es ++ [e]) = some s' := runFrom_snoc.mpr ⟨s, hr, hs⟩
  exact hstep es s e s' hr (hQ es hinit s hr) (hQ _ (List.prefix_refl _) s' hr')
    (ih (throughout_initial hQ hinit)) hs

/-- One more step: what held throughout and holds at the end. -/
theorem throughout_snoc {M : Machine σ ε} {P : σ → Prop} {es : List ε} {e : ε}
    (h : Throughout M P es) (hlast : ∀ s, run M (es ++ [e]) = some s → P s) :
    Throughout M P (es ++ [e]) := by
  intro pre hp t ht
  rcases List.prefix_concat_iff.mp hp with rfl | hp
  · exact hlast t ht
  · exact h pre hp t ht

/-- The converse, where a step that breaks the condition shows at once: a run
    that keeps `P` throughout has met the condition at every step. -/
theorem along_of_throughout {M : Machine σ ε} {ok : σ → ε → Prop} {P : σ → Prop}
    (hbad : ∀ s e s', M.step s e = some s' → P s' → ok s e) :
    ∀ (es : List ε) (s : σ), run M es = some s → Throughout M P es →
      Along M ok M.init es := by
  refine run_history (fun _ => trivial) ?_
  intro es s e s' hs ih he hP
  have hsnoc : run M (es ++ [e]) = some s' := runFrom_snoc.mpr ⟨s, hs, he⟩
  refine (along_snoc es M.init s e hs).mpr ⟨ih ?_, ?_⟩
  · intro pre hp t ht
    exact hP pre (hp.trans (List.prefix_append es [e])) t ht
  · exact hbad s e s' he (hP (es ++ [e]) (List.prefix_refl _) s' hsnoc)

/-- A condition on the states of a run, from the finitely many prefixes. -/
theorem throughout_of_inits {M : Machine σ ε} {P : σ → Prop} [DecidablePred P] {es : List ε}
    (h : ∀ pre ∈ es.inits, (run M pre).all (fun t => decide (P t)) = true) :
    Throughout M P es := by
  intro pre hp t ht
  have hall := h pre ((List.mem_inits pre es).mpr hp)
  rw [ht] at hall
  exact of_decide_eq_true hall

/-! ## Simulation -/

/-- **SIMULATION RULE**: two machines that keep step on every event, as long as `P`
    holds of the first one, run together; neither gets stuck. -/
theorem run_simulation {τ : Type} {M : Machine σ ε} {A : Machine τ ε} {R : σ → τ → Prop}
    {P : σ → Prop} {ok : ε → Prop} (h0 : R M.init A.init)
    (hstep : ∀ s a e, R s a → P s → ok e →
      ∃ s' a', M.step s e = some s' ∧ A.step a e = some a' ∧ R s' a') :
    ∀ es : List ε, (∀ e ∈ es, ok e) → Throughout M P es →
      ∃ s a, run M es = some s ∧ run A es = some a ∧ R s a := by
  intro es
  induction es using List.reverseRecOn with
  | nil => exact fun _ _ => ⟨M.init, A.init, rfl, rfl, h0⟩
  | append_singleton es e ih =>
      intro hok hP
      obtain ⟨s, a, hs, ha, hR⟩ := ih
        (fun e' he' => hok e' (List.mem_append_left _ he'))
        (fun pre hp t ht => hP pre (hp.trans (List.prefix_append es [e])) t ht)
      obtain ⟨s', a', hs', ha', hR'⟩ := hstep s a e hR
        (hP es (List.prefix_append es [e]) s hs)
        (hok e (List.mem_append_right _ (List.mem_singleton.mpr rfl)))
      exact ⟨s', a', runFrom_snoc.mpr ⟨s, hs, hs'⟩, runFrom_snoc.mpr ⟨a, ha, ha'⟩, hR'⟩

/-! ## Watching a run -/

/-- What is seen of a run, one step after another. -/
def observed {β : Type} (M : Machine σ ε) (sees : σ → ε → List β) : σ → List ε → List β
  | _, [] => []
  | s, e :: es => sees s e ++ (M.step s e).elim [] (fun s' => observed M sees s' es)

theorem countP_snoc (p : ε → Bool) (es : List ε) (e : ε) :
    (es ++ [e]).countP p = es.countP p + (p e).toNat := by
  rw [List.countP_append]
  cases h : p e <;> simp [h]

theorem countP_snoc_of_not {p : ε → Bool} {es : List ε} {e : ε} (h : p e = false) :
    (es ++ [e]).countP p = es.countP p := by
  rw [countP_snoc, h]
  rfl

/-- An event that occurs only where it has not occurred yet occurs at most once. -/
theorem countP_snoc_le_one {p : ε → Bool} {es : List ε} {e : ε} (hone : es.countP p ≤ 1)
    (hnew : p e = true → es.countP p = 0) : (es ++ [e]).countP p ≤ 1 := by
  cases h : p e with
  | false => exact (countP_snoc_of_not h).trans_le hone
  | true =>
      rw [countP_snoc, hnew h, h]
      exact Nat.le_refl 1

/-- **COUNTDOWN RULE**: if each step of a kind uses up one of what no step adds to, a run
    has at most as many of these steps as there was of it. -/
theorem runFrom_countdown {M : Machine σ ε} {I : σ → Prop} {ok : ε → Prop} {p : ε → Bool}
    {left : σ → Nat} (hinv : ∀ s e s', I s → M.step s e = some s' → I s')
    (hstep : ∀ s e s', I s → ok e → M.step s e = some s' → left s' + (p e).toNat ≤ left s)
    {s₀ : σ} (h0 : I s₀) :
    ∀ es s, runFrom M s₀ es = some s → (∀ e ∈ es, ok e) → left s + es.countP p ≤ left s₀ := by
  refine runFrom_history (fun _ => Nat.le_refl _) ?_
  intro es s e s' hr ih hs hok
  have hone := hstep s e s' (runFrom_invariant hinv h0 hr)
    (hok e (List.mem_append_right es (List.mem_singleton.mpr rfl))) hs
  have hbefore := ih (fun e' he' => hok e' (List.mem_append_left [e] he'))
  rw [countP_snoc]
  omega

/-! ## States that keep something for each index -/

section Update

variable {α β : Type} [DecidableEq α] {g : α → β} {i k : α} {v : β}

/-- What holds at an index after an update holds of the new value, or of what was there. -/
theorem update_cases (Q : β → Prop) (h : Q (Function.update g i v k)) :
    (k = i ∧ Q v) ∨ (k ≠ i ∧ Q (g k)) := by
  by_cases hk : k = i
  · subst hk
    rw [Function.update_self] at h
    exact .inl ⟨rfl, h⟩
  · rw [Function.update_of_ne hk] at h
    exact .inr ⟨hk, h⟩

/-- What the new value has only if the old one had it, has been there before. -/
theorem of_update (Q : β → Prop) (hv : Q v → Q (g i)) (h : Q (Function.update g i v k)) :
    Q (g k) := by
  rcases update_cases Q h with ⟨rfl, hnew⟩ | ⟨-, hold⟩
  · exact hv hnew
  · exact hold

end Update

end CoioMachine
