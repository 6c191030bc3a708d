import Mathlib.Data.List.Basic
import Mathlib.Data.List.Infix

/-! # Searching a list — one that grows at its end, or is cut

    `find s d b` is the first position at or after `b` where `d` occurs in `s`.
    A reader that appends what arrives and searches again needs three facts: the
    first occurrence stays the first when the list grows, the search may restart
    as late as an occurrence can still straddle the old end, and cutting behind
    the first occurrence gives the shortest initial part that ends with `d`.

    A parser that cuts a text at a separator needs `Cut`: where a text is put
    together around a separator, the first occurrence is the one put there if the
    text before has none and the separator does not overlap itself. -/

namespace CoioSearch

variable {α : Type} {d r s t : List α} {b i : Nat}

/-- `d` occurs in `s` at position `i`. -/
def OccursAt (d s : List α) (i : Nat) : Prop := d <+: s.drop i

instance [DecidableEq α] (d s : List α) (i : Nat) : Decidable (OccursAt d s i) :=
  inferInstanceAs (Decidable (d <+: s.drop i))

/-- An occurrence lies inside the list. -/
theorem OccursAt.le_length (h : OccursAt d s i) (hi : i ≤ s.length) :
    i + d.length ≤ s.length := by
  have hle := h.length_le
  rw [List.length_drop] at hle
  omega

/-- An initial part has the occurrences of the whole that fit into it. -/
theorem occursAt_initial (hr : r <+: s) (hi : i + d.length ≤ r.length) :
    OccursAt d r i ↔ OccursAt d s i := by
  have hdrop : r.drop i <+: s.drop i := hr.drop i
  constructor
  · intro h
    exact List.IsPrefix.trans h hdrop
  · intro h
    refine List.prefix_of_prefix_length_le h hdrop ?_
    rw [List.length_drop]
    omega

/-- To end with `d` is to have it at the last position where it fits. -/
theorem suffix_iff_occursAt (hr : r <+: s) :
    d <:+ r ↔ d.length ≤ r.length ∧ OccursAt d s (r.length - d.length) := by
  constructor
  · intro h
    have hle := h.length_le
    refine ⟨hle, (occursAt_initial hr (by omega)).mp ?_⟩
    unfold OccursAt
    rw [← List.suffix_iff_eq_drop.mp h]
  · rintro ⟨hle, h⟩
    have hocc := (occursAt_initial hr (by omega)).mpr h
    refine List.suffix_iff_eq_drop.mpr (hocc.eq_of_length ?_)
    rw [List.length_drop]
    omega

/-! ## Cutting at the first occurrence -/

/-- `s` is `a`, the first `d` of `s`, and `c`. -/
def Cut (d s a c : List α) : Prop := s = a ++ (d ++ c) ∧ ∀ j < a.length, ¬ OccursAt d s j

theorem infix_iff_occursAt : d <:+: s ↔ ∃ j ≤ s.length, OccursAt d s j := by
  constructor
  · rintro ⟨a, c, rfl⟩
    refine ⟨a.length, by simp, ?_⟩
    unfold OccursAt
    rw [List.append_assoc, List.drop_left]
    exact List.prefix_append d c
  · rintro ⟨j, -, h⟩
    exact List.IsInfix.trans (List.IsPrefix.isInfix h) (List.drop_suffix j s).isInfix

section Cut

variable {a c : List α}

theorem Cut.take (h : Cut d s a c) : s.take a.length = a := by
  rw [h.1, List.take_left]

theorem Cut.drop (h : Cut d s a c) : s.drop a.length = d ++ c := by
  rw [h.1, List.drop_left]

theorem Cut.drop_add (h : Cut d s a c) : s.drop (a.length + d.length) = c := by
  rw [← List.drop_drop, h.drop, List.drop_left]

/-- What stands before the first `d` has none. -/
theorem Cut.free (h : Cut d s a c) (hd : d ≠ []) : ¬ d <:+: a := by
  intro hin
  obtain ⟨j, hj, ho⟩ := infix_iff_occursAt.mp hin
  have hfit := ho.le_length hj
  have hpos := List.length_pos_iff.mpr hd
  exact h.2 j (by omega) ((occursAt_initial ⟨_, h.1.symm⟩ hfit).mp ho)

theorem Cut.occurs (h : Cut d s a c) : d <:+: s :=
  ⟨a, c, by rw [h.1, List.append_assoc]⟩

/-- There is one first occurrence. -/
theorem Cut.unique {a' c' : List α} (h : Cut d s a c) (h' : Cut d s a' c') : a = a' ∧ c = c' := by
  have hocc : OccursAt d s a.length := ⟨c, h.drop.symm⟩
  have hocc' : OccursAt d s a'.length := ⟨c', h'.drop.symm⟩
  have hlen : a.length = a'.length :=
    Nat.le_antisymm (Nat.le_of_not_lt fun hlt => h.2 _ hlt hocc')
      (Nat.le_of_not_lt fun hlt => h'.2 _ hlt hocc)
  constructor
  · rw [← h.take, ← h'.take, hlen]
  · rw [← h.drop_add, ← h'.drop_add, hlen]

theorem cut_nil (d c : List α) : Cut d (d ++ c) [] c :=
  ⟨rfl, fun j hj => absurd hj (Nat.not_lt_zero j)⟩

/-- One more element in front, where no occurrence begins. -/
theorem Cut.cons {x : α} (h : Cut d s a c) (hno : ¬ d <+: x :: s) : Cut d (x :: s) (x :: a) c := by
  refine ⟨congrArg (x :: ·) h.1, fun j hj => ?_⟩
  cases j with
  | zero => exact hno
  | succ j => exact h.2 j (Nat.lt_of_succ_lt_succ hj)

/-- More in front that does not have the first element of `d`. -/
theorem Cut.append {x : α} (h : Cut (x :: d) s a c) (hx : x ∉ r) :
    Cut (x :: d) (r ++ s) (r ++ a) c := by
  induction r with
  | nil => exact h
  | cons y r ih =>
      obtain ⟨hxy, hx⟩ := not_or.mp (List.mem_cons.not.mp hx)
      exact (ih hx).cons fun hpre => hxy (List.cons_prefix_cons.mp hpre).1

/-- No end of `d` is the beginning of `d`. -/
def Borderless (d : List α) : Prop := ∀ k < d.length, 0 < k → ¬ d.drop k <+: d

/-- **STRADDLE**: an occurrence that begins in `r` lies in `r`, or leaves it with an end
    of `d` at the beginning of `t`. -/
theorem occursAt_append {j : Nat} (h : OccursAt d (r ++ t) j) (hj : j ≤ r.length) :
    OccursAt d r j ∨ (r.length < j + d.length ∧ d.drop (r.length - j) <+: t) := by
  obtain ⟨u, hu⟩ := h
  rw [List.drop_append_of_le_length hj] at hu
  rcases List.append_eq_append_iff.mp hu with ⟨x, hx, -⟩ | ⟨x, hx, hux⟩
  · exact .inl ⟨x, hx.symm⟩
  · have hlen : (r.drop j).length = r.length - j := List.length_drop
    cases x with
    | nil =>
        rw [List.append_nil] at hx
        exact .inl ⟨[], by rw [List.append_nil, hx]⟩
    | cons y x =>
        refine .inr ⟨?_, u, ?_⟩
        · rw [hx, List.length_append, hlen, List.length_cons]
          omega
        · rw [hx, ← hlen, List.drop_left, hux]

/-- **CUT**: in front of a `d` without border it is enough to have no `d`. -/
theorem cut_of_borderless (hb : Borderless d) (ha : ¬ d <:+: a) :
    Cut d (a ++ (d ++ c)) a c := by
  refine ⟨rfl, fun j hj ho => ?_⟩
  rcases occursAt_append ho (Nat.le_of_lt hj) with hin | ⟨hlt, hborder⟩
  · exact ha (infix_iff_occursAt.mpr ⟨j, Nat.le_of_lt hj, hin⟩)
  · refine hb (a.length - j) (by omega) (by omega) ?_
    refine List.prefix_of_prefix_length_le hborder (List.prefix_append d c) ?_
    rw [List.length_drop]
    omega

/-- What does not have the first element of `d` adds no occurrence in front. -/
theorem infix_append_left {x : α} (hx : x ∉ r) : x :: d <:+: r ++ s ↔ x :: d <:+: s := by
  induction r with
  | nil => rfl
  | cons y r ih =>
      obtain ⟨hxy, hx⟩ := not_or.mp (List.mem_cons.not.mp hx)
      rw [List.cons_append, List.infix_cons_iff, ih hx]
      refine ⟨fun h => h.resolve_left fun hpre => hxy ?_, .inr⟩
      exact (List.cons_prefix_cons.mp hpre).1

theorem borderless_singleton (x : α) : Borderless [x] := by
  intro k hk hpos
  rw [List.length_singleton] at hk
  omega

theorem Cut.not_mem {x : α} (h : Cut [x] s a c) : x ∉ a :=
  fun hx => h.free (List.cons_ne_nil x []) ((List.singleton_infix_iff x a).mpr hx)

theorem cut_singleton {x : α} (ha : x ∉ a) :
    Cut [x] (a ++ x :: c) a c :=
  cut_of_borderless (borderless_singleton x) fun h => ha ((List.singleton_infix_iff x a).mp h)

end Cut

/-! ## The search -/

variable [DecidableEq α]

instance (d : List α) : Decidable (Borderless d) :=
  inferInstanceAs (Decidable (∀ k < d.length, 0 < k → ¬ d.drop k <+: d))

/-- The first position `i ≥ b` where `d` occurs in `s`. -/
def find (s d : List α) (b : Nat) : Option Nat :=
  (List.range (s.length + 1)).find? fun i => b ≤ i ∧ OccursAt d s i

theorem find_eq_some : find s d b = some i ↔
    b ≤ i ∧ i ≤ s.length ∧ OccursAt d s i ∧ ∀ j, b ≤ j → j < i → ¬ OccursAt d s j := by
  unfold find
  rw [List.find?_range_eq_some]
  simp only [decide_eq_true_eq, List.mem_range, Bool.not_eq_true', decide_eq_false_iff_not,
    not_and]
  constructor
  · rintro ⟨⟨hb, ho⟩, hi, hmin⟩
    exact ⟨hb, Nat.le_of_lt_succ hi, ho, fun j hbj hji => hmin j hji hbj⟩
  · rintro ⟨hb, hi, ho, hmin⟩
    exact ⟨⟨hb, ho⟩, Nat.lt_succ_of_le hi, fun j hji hbj => hmin j hbj hji⟩

theorem find_eq_none : find s d b = none ↔
    ∀ j, b ≤ j → j ≤ s.length → ¬ OccursAt d s j := by
  unfold find
  rw [List.find?_range_eq_none]
  simp only [Bool.not_eq_true', decide_eq_false_iff_not, not_and]
  exact ⟨fun h j hb hj => h j (Nat.lt_succ_of_le hj) hb,
    fun h j hj hb => h j hb (Nat.le_of_lt_succ hj)⟩

/-- **RESTART**: the search may begin where nothing lies before. -/
theorem find_restart (h : ∀ j, j < b → ¬ OccursAt d s j) : find s d b = find s d 0 := by
  cases hf : find s d b with
  | none =>
      rw [find_eq_none] at hf
      refine (find_eq_none.mpr ?_).symm
      intro j _ hj
      rcases Nat.lt_or_ge j b with hlt | hge
      · exact h j hlt
      · exact hf j hge hj
  | some i =>
      obtain ⟨-, hi, ho, hmin⟩ := find_eq_some.mp hf
      refine (find_eq_some.mpr ⟨Nat.zero_le _, hi, ho, ?_⟩).symm
      intro j _ hji
      rcases Nat.lt_or_ge j b with hlt | hge
      · exact h j hlt
      · exact hmin j hge hji

/-- The first occurrence stays the first one when the list grows. -/
theorem find_append (h : find s d 0 = some i) : find (s ++ t) d 0 = some i := by
  obtain ⟨-, hi, ho, hmin⟩ := find_eq_some.mp h
  have hfit := ho.le_length hi
  have hs : s <+: s ++ t := List.prefix_append s t
  refine find_eq_some.mpr ⟨Nat.zero_le _, hi.trans hs.length_le, ?_, ?_⟩
  · exact (occursAt_initial hs hfit).mp ho
  · intro j _ hji hj
    exact hmin j (Nat.zero_le _) hji ((occursAt_initial hs (by omega)).mpr hj)

/-- Where an occurrence in the longer list can begin, if the old list has none. -/
theorem not_occursAt_append (h : find s d 0 = none) {j : Nat} (hj : j + d.length ≤ s.length) :
    ¬ OccursAt d (s ++ t) j := fun ho =>
  find_eq_none.mp h j (Nat.zero_le _) (by omega)
    ((occursAt_initial (List.prefix_append s t) hj).mpr ho)

theorem find_eq_none_iff : find s d 0 = none ↔ ¬ d <:+: s := by
  rw [find_eq_none, infix_iff_occursAt]
  constructor
  · rintro h ⟨j, hj, ho⟩
    exact h j (Nat.zero_le j) hj ho
  · intro h j _ hj ho
    exact h ⟨j, hj, ho⟩

theorem find_singleton_eq_none {x : α} : find s [x] 0 = none ↔ x ∉ s := by
  rw [find_eq_none_iff, List.singleton_infix_iff]

theorem find_of_cut {a c : List α} (h : Cut d s a c) : find s d 0 = some a.length := by
  obtain ⟨rfl, hmin⟩ := h
  refine find_eq_some.mpr ⟨Nat.zero_le _, by simp, ?_, fun j _ hj => hmin j hj⟩
  unfold OccursAt
  rw [List.drop_left]
  exact List.prefix_append d c

theorem cut_of_find (h : find s d 0 = some i) :
    Cut d s (s.take i) (s.drop (i + d.length)) ∧ (s.take i).length = i := by
  obtain ⟨-, hi, ⟨c, hc⟩, hmin⟩ := find_eq_some.mp h
  have hlen : (s.take i).length = i := List.length_take_of_le hi
  refine ⟨⟨?_, fun j hj => hmin j (Nat.zero_le j) (hlen ▸ hj)⟩, hlen⟩
  have hrest : s.drop (i + d.length) = c := by
    rw [← List.drop_drop, ← hc, List.drop_left]
  rw [hrest, hc, List.take_append_drop]

/-! ## Cutting behind the first occurrence -/

/-- Up to and with the first `d`; everything if there is none. -/
def upTo (d s : List α) : List α :=
  match find s d 0 with
  | some i => s.take (i + d.length)
  | none => s

theorem upTo_of_some (h : find s d 0 = some i) : upTo d s = s.take (i + d.length) := by
  unfold upTo
  rw [h]

theorem upTo_of_none (h : find s d 0 = none) : upTo d s = s := by
  unfold upTo
  rw [h]

theorem upTo_initial (d s : List α) : upTo d s <+: s := by
  unfold upTo
  split
  · exact List.take_prefix ..
  · exact List.prefix_refl s

/-- The shortest initial part of `s` that ends with `d`, or all of `s`. -/
def Shortest (d s r : List α) : Prop :=
  (r <+: s ∧ d <:+ r ∧ ∀ r', r' <+: s → d <:+ r' → r.length ≤ r'.length) ∨
    (r = s ∧ ∀ r', r' <+: s → ¬ d <:+ r')

theorem suffix_take (h : find s d 0 = some i) : d <:+ s.take (i + d.length) := by
  obtain ⟨-, hi, ho, -⟩ := find_eq_some.mp h
  refine (suffix_iff_occursAt (List.take_prefix ..)).mpr ?_
  rw [List.length_take_of_le (ho.le_length hi), Nat.add_sub_cancel]
  exact ⟨Nat.le_add_left .., ho⟩

theorem not_suffix_initial (h : find s d 0 = none) (hr : r <+: s) : ¬ d <:+ r := by
  intro hd
  have hle := hr.length_le
  exact find_eq_none.mp h _ (Nat.zero_le _) (by omega) ((suffix_iff_occursAt hr).mp hd).2

theorem upTo_shortest (d s : List α) : Shortest d s (upTo d s) := by
  cases hf : find s d 0 with
  | none => exact Or.inr ⟨upTo_of_none hf, fun r' => not_suffix_initial hf⟩
  | some i =>
      obtain ⟨-, hi, ho, hmin⟩ := find_eq_some.mp hf
      rw [upTo_of_some hf]
      refine Or.inl ⟨List.take_prefix .., suffix_take hf, ?_⟩
      intro r' hr' hd
      obtain ⟨hle, hocc⟩ := (suffix_iff_occursAt hr').mp hd
      rw [List.length_take_of_le (ho.le_length hi)]
      by_contra hlt
      exact hmin _ (Nat.zero_le _) (by omega) hocc

/-- The cut ends with `d` exactly if there is one. -/
theorem suffix_upTo : d <:+ upTo d s ↔ find s d 0 ≠ none := by
  cases hf : find s d 0 with
  | none =>
      rw [upTo_of_none hf]
      exact iff_of_false (not_suffix_initial hf (List.prefix_refl s)) (fun h => h rfl)
  | some i =>
      rw [upTo_of_some hf]
      exact iff_of_true (suffix_take hf) nofun

/-- More behind the cut does not change it. -/
theorem upTo_append (h : find s d 0 = none → t = []) : upTo d (s ++ t) = upTo d s := by
  cases hf : find s d 0 with
  | none => rw [h hf, List.append_nil]
  | some i =>
      obtain ⟨-, hi, ho, -⟩ := find_eq_some.mp hf
      rw [upTo_of_some hf, upTo_of_some (find_append hf),
        List.take_append_of_le_length (ho.le_length hi)]

end CoioSearch
