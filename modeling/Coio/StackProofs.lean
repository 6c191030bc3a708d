import Mathlib.Data.List.Nodup
import Mathlib.Logic.Function.Basic

/-! # Activities on stacks

    Several threads, each with a stack of activities.  `OnStacks active stack` says
    that the activities on the stacks are exactly the active ones and that each is
    on one stack, once.  A call pushes an inactive one, a return pops the top one;
    both keep the relation.

    Nothing here knows what an activity is. -/

namespace CoioStack

variable {α τ : Type} {active active' : α → Prop} {stack : τ → List α}

structure OnStacks (active : α → Prop) (stack : τ → List α) : Prop where
  nodup : ∀ t, (stack t).Nodup
  apart : ∀ t u a, a ∈ stack t → a ∈ stack u → t = u
  mem_iff : ∀ a, active a ↔ ∃ t, a ∈ stack t

theorem onStacks_nil (h : ∀ a, ¬ active a) : OnStacks active (fun _ : τ => []) where
  nodup := fun _ => List.nodup_nil
  apart := fun _ _ _ ha => nomatch ha
  mem_iff := fun a => ⟨fun ha => absurd ha (h a), fun ⟨_, ha⟩ => nomatch ha⟩

theorem OnStacks.congr (h : OnStacks active stack) (hact : ∀ a, active' a ↔ active a) :
    OnStacks active' stack where
  nodup := h.nodup
  apart := h.apart
  mem_iff := fun a => (hact a).trans (h.mem_iff a)

/-- The top of a stack is active. -/
theorem OnStacks.top (h : OnStacks active stack) {t : τ} {a : α}
    (htop : (stack t).head? = some a) : active a :=
  (h.mem_iff a).mpr ⟨t, List.mem_of_mem_head? htop⟩

/-- With nothing on any stack nothing is active. -/
theorem OnStacks.idle (h : OnStacks active stack) (hempty : ∀ t, stack t = []) (a : α) :
    ¬ active a := by
  intro ha
  obtain ⟨t, ht⟩ := (h.mem_iff a).mp ha
  rw [hempty t] at ht
  exact nomatch ht

variable [DecidableEq τ]

theorem mem_update_cons {t u : τ} {a b : α} :
    b ∈ Function.update stack t (a :: stack t) u ↔ (u = t ∧ b = a) ∨ b ∈ stack u := by
  by_cases hu : u = t
  · subst hu
    simp
  · simp [hu]

/-- **CALL**: an inactive activity becomes the top of a stack. -/
theorem OnStacks.push (h : OnStacks active stack) {t : τ} {a : α} (ha : ¬ active a)
    (hact : ∀ b, active' b ↔ b = a ∨ active b) :
    OnStacks active' (Function.update stack t (a :: stack t)) := by
  have hfree : ∀ u, a ∉ stack u := fun u hu => ha ((h.mem_iff a).mpr ⟨u, hu⟩)
  refine ⟨fun u => ?_, fun u v b hu hv => ?_, fun b => ?_⟩
  · by_cases hu : u = t
    · subst hu
      rw [Function.update_self]
      exact List.nodup_cons.mpr ⟨hfree u, h.nodup u⟩
    · rw [Function.update_of_ne hu]
      exact h.nodup u
  · rcases mem_update_cons.mp hu with ⟨hut, hba⟩ | hu
    · rcases mem_update_cons.mp hv with ⟨hvt, -⟩ | hv
      · exact hut.trans hvt.symm
      · exact absurd hv (hba ▸ hfree v)
    · rcases mem_update_cons.mp hv with ⟨-, hba⟩ | hv
      · exact absurd hu (hba ▸ hfree u)
      · exact h.apart u v b hu hv
  · rw [hact, h.mem_iff]
    constructor
    · rintro (rfl | ⟨u, hu⟩)
      · exact ⟨t, mem_update_cons.mpr (Or.inl ⟨rfl, rfl⟩)⟩
      · exact ⟨u, mem_update_cons.mpr (Or.inr hu)⟩
    · rintro ⟨u, hu⟩
      rcases mem_update_cons.mp hu with ⟨-, rfl⟩ | hu
      · exact Or.inl rfl
      · exact Or.inr ⟨u, hu⟩

/-- What is left on the stacks when the top of `t` is popped. -/
theorem OnStacks.mem_update_tail (h : OnStacks active stack) {t : τ} {a : α}
    (htop : (stack t).head? = some a) {u : τ} {b : α} :
    b ∈ Function.update stack t (stack t).tail u ↔ b ≠ a ∧ b ∈ stack u := by
  obtain ⟨rest, hst⟩ := List.head?_eq_some_iff.mp htop
  have hnd := h.nodup t
  rw [hst, List.nodup_cons] at hnd
  by_cases hu : u = t
  · subst hu
    rw [Function.update_self, hst, List.tail_cons, List.mem_cons]
    constructor
    · intro hb
      exact ⟨fun heq => hnd.1 (heq ▸ hb), Or.inr hb⟩
    · rintro ⟨hne, heq | hb⟩
      · exact absurd heq hne
      · exact hb
  · rw [Function.update_of_ne hu]
    constructor
    · intro hb
      refine ⟨fun heq => hu ?_, hb⟩
      exact h.apart u t b hb (heq ▸ hst ▸ List.mem_cons_self ..)
    · exact fun hb => hb.2

/-- **RETURN**: the top of a stack is popped and is no longer active. -/
theorem OnStacks.pop (h : OnStacks active stack) {t : τ} {a : α}
    (htop : (stack t).head? = some a) (hact : ∀ b, active' b ↔ b ≠ a ∧ active b) :
    OnStacks active' (Function.update stack t (stack t).tail) := by
  refine ⟨fun u => ?_, fun u v b hu hv => ?_, fun b => ?_⟩
  · by_cases hu : u = t
    · subst hu
      rw [Function.update_self]
      exact (h.nodup u).tail
    · rw [Function.update_of_ne hu]
      exact h.nodup u
  · exact h.apart u v b ((h.mem_update_tail htop).mp hu).2 ((h.mem_update_tail htop).mp hv).2
  · rw [hact, h.mem_iff]
    constructor
    · rintro ⟨hne, u, hu⟩
      exact ⟨u, (h.mem_update_tail htop).mpr ⟨hne, hu⟩⟩
    · rintro ⟨u, hu⟩
      obtain ⟨hne, hu⟩ := (h.mem_update_tail htop).mp hu
      exact ⟨hne, u, hu⟩

end CoioStack
