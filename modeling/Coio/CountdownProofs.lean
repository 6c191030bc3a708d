import Mathlib.Data.List.Basic

/-! # Counting pending participants

    `pending n p` is the number of participants below `n` that are still
    pending.  A countdown decrements its counter once per participant, so the
    only facts ever needed are: one participant leaving lowers the number by
    one, the number is zero exactly when nobody is left, and the number only
    reads the participants below `n`. -/

namespace CoioCountdown

/-- The number of participants `i < n` with `p i`. -/
def pending (n : Nat) (p : Nat → Bool) : Nat :=
  (List.range n).countP p

theorem pending_succ (n : Nat) (p : Nat → Bool) :
    pending (n + 1) p = pending n p + (if p n = true then 1 else 0) := by
  unfold pending
  rw [List.range_succ, List.countP_append, List.countP_singleton]

theorem pending_congr {n : Nat} {p q : Nat → Bool}
    (h : ∀ i, i < n → p i = q i) : pending n p = pending n q := by
  unfold pending
  refine List.countP_congr ?_
  intro i hi
  rw [h i (List.mem_range.mp hi)]

/-- Everybody is pending at the start. -/
theorem pending_all {n : Nat} {p : Nat → Bool} (h : ∀ i, i < n → p i = true) :
    pending n p = n := by
  have hcount : (List.range n).countP p = (List.range n).length :=
    List.countP_eq_length.mpr (fun i hi => h i (List.mem_range.mp hi))
  rw [List.length_range] at hcount
  exact hcount

theorem pending_eq_zero {n : Nat} {p : Nat → Bool} :
    pending n p = 0 ↔ ∀ i, i < n → p i = false := by
  unfold pending
  rw [List.countP_eq_zero]
  constructor
  · intro h i hi
    exact Bool.eq_false_iff.mpr (h i (List.mem_range.mpr hi))
  · intro h i hi
    exact Bool.eq_false_iff.mp (h i (List.mem_range.mp hi))

/-- A positive number means somebody is left. -/
theorem exists_of_pending_pos {n : Nat} {p : Nat → Bool} (h : 0 < pending n p) :
    ∃ i, i < n ∧ p i = true := by
  obtain ⟨i, hi, hp⟩ := List.countP_pos_iff.mp h
  exact ⟨i, List.mem_range.mp hi, hp⟩

theorem pending_pos {n : Nat} {p : Nat → Bool} {i : Nat} (hi : i < n)
    (hp : p i = true) : 0 < pending n p :=
  List.countP_pos_iff.mpr ⟨i, List.mem_range.mpr hi, hp⟩

/-- **ONE LEAVES**: if exactly participant `i` stops being pending, the number
    drops by one. -/
theorem pending_leave {p q : Nat → Bool} {i : Nat} (hp : p i = true)
    (hq : q i = false) (hother : ∀ j, j ≠ i → q j = p j) :
    ∀ n, i < n → pending n q + 1 = pending n p := by
  intro n
  induction n with
  | zero => intro hi; exact absurd hi (Nat.not_lt_zero i)
  | succ n ih =>
      intro hi
      rw [pending_succ, pending_succ]
      by_cases hin : i = n
      · subst hin
        have hsame : pending i q = pending i p :=
          pending_congr (fun j hj => hother j (Nat.ne_of_lt hj))
        rw [hsame, hq, hp]
        rfl
      · have hlt : i < n := by omega
        rw [hother n (fun h => hin h.symm), ← ih hlt]
        omega

end CoioCountdown
