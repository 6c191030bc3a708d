import Coio.MachineProofs
import Mathlib.Data.List.Nodup
import Mathlib.Logic.Function.Basic

/-! # Objects that own a handle — descriptors and coroutine frames

    A `file_descriptor_base` owns a descriptor, a `future` the frame of a coroutine.
    Both are moved, never copied, and both assign in the same way: unless the two
    fields are EQUAL the left-hand side is destroyed in place, then the field is
    copied and the right-hand side is cleared.

    Equal fields are taken for the same object or for two that own nothing.  Two
    objects never own the same handle, so that is right; but the copy and the clear
    that follow are made in any case.  An object that owns a handle and is moved
    onto itself forgets it, and nobody releases it any more.  This is the only way
    to lose a resource, and there is none to release one twice. -/

namespace CoioOwnership

open CoioMachine

/-! ## The two classes -/

/-- A class whose objects own at most one handle: the number of a descriptor, or the
    address of a frame. -/
structure HandleClass where
  /-- the field of an object that owns nothing -/
  null : Int
  /-- the test of the destructor -/
  owns : Int → Bool
  owns_null : owns null = false
  /-- what the destructor leaves in the field -/
  afterDestructor : Int → Int
  /-- has a default constructor and `close()` -/
  closeable : Bool

/-- The destructor sets `m_handle` to null. -/
def future : HandleClass where
  null := 0
  owns handle := handle != 0
  owns_null := rfl
  afterDestructor _ := 0
  closeable := false

/-- The live objects of a class, by address, and the system behind the handles.  A
    resource is known by the number of its acquisition: the system may hand out a
    handle again once what was behind it has been released. -/
structure Store where
  objects : Nat → Option Int
  resource : Int → Option Nat
  acquired : Nat
  released : List Nat
  /-- releases of a handle that nothing was behind -/
  stray : Nat

variable {C : HandleClass}

def Store.put (s : Store) (i : Nat) (field : Option Int) : Store :=
  { s with objects := Function.update s.objects i field }

/-- `::close(fd)` or `m_handle.destroy()`. -/
def release (C : HandleClass) (s : Store) (h : Int) : Store :=
  match s.resource h with
  | some r =>
      { s with resource := Function.update s.resource h none, released := s.released ++ [r] }
  | none => { s with stray := s.stray + (C.owns h).toNat }

/-- The body of the destructor of object `i`, whose field is `h`. -/
def destructor (C : HandleClass) (s : Store) (i : Nat) (h : Int) : Store :=
  (if C.owns h then release C s h else s).put i (some (C.afterDestructor h))

inductive Event where
  /-- object `i` is constructed from a handle that the system has just given out -/
  | construct (i : Nat) (h : Int)
  | default (i : Nat)
  /-- `T i(std::move(j))` -/
  | moveConstruct (i j : Nat)
  /-- `i = std::move(j)` -/
  | moveAssign (i j : Nat)
  | close (i : Nat)
  | destroy (i : Nat)
  deriving DecidableEq

def step (C : HandleClass) (s : Store) : Event → Option Store
  | .construct i h =>
      enabled (s.objects i = none ∧ C.owns h = true ∧ s.resource h = none)
        { s.put i (some h) with
          resource := Function.update s.resource h (some s.acquired)
          acquired := s.acquired + 1 }
  | .default i => enabled (C.closeable = true ∧ s.objects i = none) (s.put i (some C.null))
  | .moveConstruct i j =>
      (s.objects j).bind fun other =>
        enabled (s.objects i = none) ((s.put i (some other)).put j (some C.null))
  | .moveAssign i j =>
      (s.objects i).bind fun h =>
        (s.objects j).map fun other =>
          ((if other ≠ h then destructor C s i h else s).put i (some other)).put j (some C.null)
  | .close i =>
      (s.objects i).bind fun h =>
        enabled (C.closeable = true) ((release C s h).put i (some C.null))
  | .destroy i => (s.objects i).map fun h => (destructor C s i h).put i none

/-- What the system knows: every resource is behind one handle or has been released
    once, and nothing else has been. -/
structure Books (C : HandleClass) (s : Store) : Prop where
  owned : ∀ h r, s.resource h = some r → C.owns h = true
  inj : ∀ h h' r, s.resource h = some r → s.resource h' = some r → h = h'
  acquired_iff : ∀ r, r < s.acquired ↔ r ∈ s.released ∨ ∃ h, s.resource h = some r
  unreleased : ∀ h r, s.resource h = some r → r ∉ s.released
  nodup : s.released.Nodup
  stray_zero : s.stray = 0

section Books

variable {s : Store} {h : Int}

theorem Books.put (hb : Books C s) (i : Nat) (field : Option Int) : Books C (s.put i field) :=
  ⟨hb.owned, hb.inj, hb.acquired_iff, hb.unreleased, hb.nodup, hb.stray_zero⟩

/-- A handle that an object does not own has nothing behind it. -/
theorem Books.none_of_not_owns (hb : Books C s) (hown : C.owns h = false) :
    s.resource h = none := by
  cases hr : s.resource h with
  | none => rfl
  | some r => cases hown.symm.trans (hb.owned h r hr)

theorem release_of_some {r : Nat} (hr : s.resource h = some r) :
    release C s h =
      { s with resource := Function.update s.resource h none, released := s.released ++ [r] } := by
  unfold release
  rw [hr]

/-- What was behind the handle is released; nothing was released before. -/
theorem Books.release (hb : Books C s) (hopen : s.resource h ≠ none) :
    Books C (release C s h) := by
  obtain ⟨r₀, hr₀⟩ := Option.ne_none_iff_exists'.mp hopen
  rw [release_of_some hr₀]
  have hcases : ∀ h' r, Function.update s.resource h none h' = some r →
      h' ≠ h ∧ s.resource h' = some r := by
    intro h' r hr
    rcases update_cases (· = some r) hr with ⟨-, hr⟩ | hr
    · cases hr
    · exact hr
  refine ⟨fun h' r hr => hb.owned h' r (hcases h' r hr).2,
    fun h₁ h₂ r h1 h2 => hb.inj h₁ h₂ r (hcases h₁ r h1).2 (hcases h₂ r h2).2, fun r => ?_,
    fun h' r hr hmem => ?_, ?_, hb.stray_zero⟩
  · show r < s.acquired ↔ r ∈ s.released ++ [r₀] ∨
      ∃ h', Function.update s.resource h none h' = some r
    rw [hb.acquired_iff r, List.mem_append, List.mem_singleton]
    constructor
    · rintro (hr | ⟨h', hr⟩)
      · exact .inl (.inl hr)
      · by_cases hh : h' = h
        · subst hh
          exact .inl (.inr (Option.some.inj (hr.symm.trans hr₀)))
        · exact .inr ⟨h', by rw [Function.update_of_ne hh, hr]⟩
    · rintro ((hr | rfl) | ⟨h', hr⟩)
      · exact .inl hr
      · exact .inr ⟨h, hr₀⟩
      · exact .inr ⟨h', (hcases h' r hr).2⟩
  · obtain ⟨hne, hold⟩ := hcases h' r hr
    rcases List.mem_append.mp hmem with hmem | hmem
    · exact hb.unreleased h' r hold hmem
    · exact hne (hb.inj h' h r hold (List.mem_singleton.mp hmem ▸ hr₀))
  · refine List.nodup_append.mpr ⟨hb.nodup, by simp, fun r hr r' hr' heq => ?_⟩
    rw [List.mem_singleton.mp hr'] at heq
    exact hb.unreleased h r (heq ▸ hr₀) hr

end Books

/-! ## What a step does -/

/-- What the live objects own is there, and each handle has one owner. -/
structure Held (C : HandleClass) (s : Store) : Prop where
  backed : ∀ i h, s.objects i = some h → C.owns h = true → s.resource h ≠ none
  unique : ∀ i j h, s.objects i = some h → s.objects j = some h → C.owns h = true → i = j

/-- What is owned through `h` is released. -/
def vacate (C : HandleClass) (s : Store) (h : Int) : Store :=
  if C.owns h then release C s h else s

/-- The steps by what they come to, in a store whose objects are in order. -/
inductive Step (C : HandleClass) (s : Store) : Event → Store → Prop
  | construct (i : Nat) (h : Int) (hi : s.objects i = none) (hown : C.owns h = true)
      (hfree : s.resource h = none) :
      Step C s (.construct i h)
        { s.put i (some h) with
          resource := Function.update s.resource h (some s.acquired)
          acquired := s.acquired + 1 }
  | default (i : Nat) (hi : s.objects i = none) : Step C s (.default i) (s.put i (some C.null))
  | moveConstruct (i j : Nat) (other : Int) (hi : s.objects i = none)
      (hj : s.objects j = some other) :
      Step C s (.moveConstruct i j) ((s.put i (some other)).put j (some C.null))
  | moveAssign (i j : Nat) (h other : Int) (hne : i ≠ j) (hi : s.objects i = some h)
      (hj : s.objects j = some other) :
      Step C s (.moveAssign i j)
        ((((vacate C s h).put i (some C.null)).put i (some other)).put j (some C.null))
  | selfAssign (i : Nat) (h : Int) (hi : s.objects i = some h) :
      Step C s (.moveAssign i i) (s.put i (some C.null))
  | close (i : Nat) (h : Int) (hi : s.objects i = some h) :
      Step C s (.close i) ((vacate C s h).put i (some C.null))
  | destroy (i : Nat) (h : Int) (hi : s.objects i = some h) :
      Step C s (.destroy i) ((vacate C s h).put i none)

section Step

variable {s s' : Store} {i j : Nat} {h h' other : Int}

theorem put_put (s : Store) (i : Nat) (field field' : Option Int) :
    (s.put i field).put i field' = s.put i field' := by
  unfold Store.put
  rw [Function.update_idem]

theorem destructor_put (i : Nat) (h : Int) (field : Option Int) :
    (destructor C s i h).put i field = (vacate C s h).put i field :=
  put_put ..

/-- `::close` of a field that owns nothing does nothing. -/
theorem release_eq_vacate (hb : Books C s) : release C s h = vacate C s h := by
  unfold vacate
  cases hown : C.owns h with
  | true => rfl
  | false =>
      unfold release
      rw [hb.none_of_not_owns hown, hown]
      rfl

/-- Two objects with equal fields own nothing. -/
theorem vacate_of_eq (hh : Held C s) (hne : i ≠ j) (hi : s.objects i = some h)
    (hj : s.objects j = some h) : vacate C s h = s :=
  if_neg fun hown => hne (hh.unique i j h hi hj hown)

/-- **INVERSION** of the step function. -/
theorem step_cases {e : Event} (hb : Books C s) (hh : Held C s) (hs : step C s e = some s') :
    Step C s e s' := by
  cases e with
  | construct i h =>
      obtain ⟨⟨hi, hown, hfree⟩, rfl⟩ := enabled_eq_some.mp hs
      exact .construct i h hi hown hfree
  | default i =>
      obtain ⟨⟨-, hi⟩, rfl⟩ := enabled_eq_some.mp hs
      exact .default i hi
  | moveConstruct i j =>
      obtain ⟨other, hj, hs⟩ := Option.bind_eq_some_iff.mp hs
      obtain ⟨hi, rfl⟩ := enabled_eq_some.mp hs
      exact .moveConstruct i j other hi hj
  | moveAssign i j =>
      obtain ⟨h, hi, hs⟩ := Option.bind_eq_some_iff.mp hs
      obtain ⟨other, hj, rfl⟩ := Option.map_eq_some_iff.mp hs
      by_cases hij : i = j
      · -- the fields are equal, so nothing is destroyed
        subst hij
        obtain rfl : other = h := Option.some.inj (hj.symm.trans hi)
        rw [if_neg (not_not.mpr rfl), put_put]
        exact .selfAssign i other hi
      · have hstep := Step.moveAssign (C := C) i j h other hij hi hj
        by_cases heq : other = h
        · subst heq
          rw [vacate_of_eq hh hij hi hj, put_put] at hstep
          rw [if_neg (not_not.mpr rfl)]
          exact hstep
        · rw [put_put] at hstep
          rw [if_pos heq, destructor_put]
          exact hstep
  | close i =>
      obtain ⟨h, hi, hs⟩ := Option.bind_eq_some_iff.mp hs
      obtain ⟨-, rfl⟩ := enabled_eq_some.mp hs
      rw [release_eq_vacate hb]
      exact .close i h hi
  | destroy i =>
      obtain ⟨h, hi, rfl⟩ := Option.map_eq_some_iff.mp hs
      rw [destructor_put]
      exact .destroy i h hi

end Step

/-! ## What every run keeps -/

section Keep

variable {s s' : Store} {i j : Nat} {h h' other : Int}

theorem Store.put_self (s : Store) (i : Nat) (field : Option Int) :
    (s.put i field).objects i = field :=
  Function.update_self ..

theorem Store.put_of_ne {k : Nat} (hk : k ≠ i) (s : Store) (field : Option Int) :
    (s.put i field).objects k = s.objects k :=
  Function.update_of_ne hk ..

/-- An object that owns a handle after a `put` of a field that owns nothing has owned it
    before. -/
theorem owner_of_put {field : Option Int} {k : Nat}
    (hfield : ∀ h, field = some h → C.owns h = false) (hk : (s.put i field).objects k = some h)
    (hown : C.owns h = true) : k ≠ i ∧ s.objects k = some h := by
  rcases update_cases (· = some h) hk with ⟨-, hk⟩ | hk
  · cases hown.symm.trans (hfield h hk)
  · exact hk

theorem null_free (C : HandleClass) : ∀ h, some C.null = some h → C.owns h = false := by
  rintro h hn
  exact Option.some.inj hn ▸ C.owns_null

theorem Held.put (hh : Held C s) (i : Nat) {field : Option Int}
    (hfield : ∀ h, field = some h → C.owns h = false) : Held C (s.put i field) := by
  refine ⟨fun k h hk hown => ?_, fun k l h hk hl hown => ?_⟩
  · exact hh.backed k h (owner_of_put hfield hk hown).2 hown
  · exact hh.unique k l h (owner_of_put hfield hk hown).2 (owner_of_put hfield hl hown).2 hown

/-- After a move the handle of `j` is in `i`, and nothing else has changed hands. -/
theorem owner_of_move {k : Nat}
    (hk : ((s.put i (some other)).put j (some C.null)).objects k = some h)
    (hown : C.owns h = true) : k ≠ j ∧ ((k = i ∧ h = other) ∨ (k ≠ i ∧ s.objects k = some h)) := by
  obtain ⟨hkj, hk⟩ := owner_of_put (null_free C) hk hown
  refine ⟨hkj, ?_⟩
  rcases update_cases (· = some h) hk with ⟨hki, hk⟩ | hk
  · exact .inl ⟨hki, (Option.some.inj hk).symm⟩
  · exact .inr hk

theorem Held.move (hh : Held C s) (hj : s.objects j = some other) :
    Held C ((s.put i (some other)).put j (some C.null)) := by
  refine ⟨fun k h hk hown => ?_, fun k l h hk hl hown => ?_⟩
  · obtain ⟨-, ⟨-, rfl⟩ | ⟨-, hk⟩⟩ := owner_of_move hk hown
    · exact hh.backed j h hj hown
    · exact hh.backed k h hk hown
  · obtain ⟨hkj, hkcase⟩ := owner_of_move hk hown
    obtain ⟨hlj, hlcase⟩ := owner_of_move hl hown
    rcases hkcase with ⟨hki, hkh⟩ | ⟨-, hks⟩ <;> rcases hlcase with ⟨hli, hlh⟩ | ⟨-, hls⟩
    · exact hki.trans hli.symm
    · exact absurd (hh.unique l j h hls (hkh ▸ hj) hown) hlj
    · exact absurd (hh.unique k j h hks (hlh ▸ hj) hown) hkj
    · exact hh.unique k l h hks hls hown

theorem vacate_objects (C : HandleClass) (s : Store) (h : Int) :
    (vacate C s h).objects = s.objects := by
  unfold vacate release
  split
  · split <;> rfl
  · rfl

theorem vacate_resource (hne : h' ≠ h) : (vacate C s h).resource h' = s.resource h' := by
  unfold vacate release
  split
  · split
    · exact Function.update_of_ne hne ..
    · rfl
  · rfl

theorem Books.vacate (hb : Books C s) (hh : Held C s) (hi : s.objects i = some h) :
    Books C (vacate C s h) := by
  unfold CoioOwnership.vacate
  split
  · rename_i hown
    exact hb.release (hh.backed i h hi hown)
  · exact hb

/-- The owner of a handle lets it go. -/
theorem Held.drop (hh : Held C s) (hi : s.objects i = some h) {field : Option Int}
    (hfield : ∀ h, field = some h → C.owns h = false) : Held C ((vacate C s h).put i field) := by
  have hold : ∀ k h', ((vacate C s h).put i field).objects k = some h' → C.owns h' = true →
      k ≠ i ∧ s.objects k = some h' := by
    intro k h' hk hown
    obtain ⟨hki, hk⟩ := owner_of_put hfield hk hown
    rw [vacate_objects] at hk
    exact ⟨hki, hk⟩
  refine ⟨fun k h' hk hown => ?_, fun k l h' hk hl hown => ?_⟩
  · obtain ⟨hki, hk⟩ := hold k h' hk hown
    have hne : h' ≠ h := fun heq => hki (hh.unique k i h' hk (heq ▸ hi) hown)
    show (vacate C s h).resource h' ≠ none
    rw [vacate_resource hne]
    exact hh.backed k h' hk hown
  · exact hh.unique k l h' (hold k h' hk hown).2 (hold l h' hl hown).2 hown

/-- A new handle is in no field yet. -/
theorem Held.construct (hh : Held C s) (hfree : s.resource h = none) (i : Nat) :
    Held C { s.put i (some h) with
      resource := Function.update s.resource h (some s.acquired)
      acquired := s.acquired + 1 } := by
  have hcases : ∀ k h', (s.put i (some h)).objects k = some h' → C.owns h' = true →
      (k = i ∧ h' = h) ∨ (h' ≠ h ∧ s.objects k = some h') := by
    intro k h' hk hown
    rcases update_cases (· = some h') hk with ⟨hki, hk⟩ | ⟨-, hk⟩
    · exact .inl ⟨hki, (Option.some.inj hk).symm⟩
    · refine .inr ⟨fun heq => ?_, hk⟩
      exact hh.backed k h' hk hown (heq ▸ hfree)
  refine ⟨fun k h' hk hown => ?_, fun k l h' hk hl hown => ?_⟩
  · show Function.update s.resource h (some s.acquired) h' ≠ none
    rcases hcases k h' hk hown with ⟨-, rfl⟩ | ⟨hne, hk⟩
    · rw [Function.update_self]
      exact Option.some_ne_none _
    · rw [Function.update_of_ne hne]
      exact hh.backed k h' hk hown
  · -- either is the new object or has owned the handle before, and the handle is new
    rcases hcases k h' hk hown with ⟨hki, hkh⟩ | ⟨hne, hks⟩ <;>
      rcases hcases l h' hl hown with ⟨hli, hlh⟩ | ⟨hne', hls⟩
    · exact hki.trans hli.symm
    · exact absurd hkh hne'
    · exact absurd hlh hne
    · exact hh.unique k l h' hks hls hown

end Keep

/-- Every handle with something behind it is in the field of a live object. -/
def Covered (s : Store) : Prop := ∀ h, s.resource h ≠ none → ∃ i, s.objects i = some h

/-- There is something behind `h`, and no live object knows. -/
def Leaked (s : Store) (h : Int) : Prop := s.resource h ≠ none ∧ ∀ i, s.objects i ≠ some h

section Lost

variable {s s' : Store} {i j : Nat} {h h' other : Int}

/-- An object that owned nothing is written over. -/
theorem Covered.put (hc : Covered s) (hb : Books C s) (i : Nat)
    (hfree : ∀ h, s.objects i = some h → C.owns h = false) (field : Option Int) :
    Covered (s.put i field) := by
  intro h hr
  obtain ⟨k, hk⟩ := hc h hr
  refine ⟨k, ?_⟩
  rw [Store.put_of_ne, hk]
  rintro rfl
  exact hr (hb.none_of_not_owns (hfree h hk))

/-- A handle goes from `j` to an object that owned nothing. -/
theorem Covered.move (hc : Covered s) (hb : Books C s) (hne : i ≠ j)
    (hfree : ∀ h, s.objects i = some h → C.owns h = false) (hj : s.objects j = some other) :
    Covered ((s.put i (some other)).put j (some C.null)) := by
  intro h hr
  obtain ⟨k, hk⟩ := hc.put hb i hfree (some other) h hr
  by_cases hkj : k = j
  · -- what was in `j` is in `i` now
    subst hkj
    rw [Store.put_of_ne hne.symm, hj] at hk
    refine ⟨i, ?_⟩
    rw [Store.put_of_ne hne, Store.put_self]
    exact hk
  · exact ⟨k, by rw [Store.put_of_ne hkj, hk]⟩

theorem vacate_resource_self (hb : Books C s) : (vacate C s h).resource h = none := by
  unfold vacate release
  split
  · split
    · exact Function.update_self ..
    · assumption
  · rename_i hown
    exact hb.none_of_not_owns (Bool.eq_false_iff.mpr hown)

/-- An object that lets go of its handle releases it. -/
theorem Covered.drop (hc : Covered s) (hb : Books C s) (hi : s.objects i = some h)
    (field : Option Int) : Covered ((vacate C s h).put i field) := by
  intro h' hr
  have hne : h' ≠ h := by
    rintro rfl
    exact hr (vacate_resource_self hb)
  have hr' : s.resource h' ≠ none := vacate_resource (s := s) hne ▸ hr
  obtain ⟨k, hk⟩ := hc h' hr'
  refine ⟨k, ?_⟩
  rw [Store.put_of_ne, vacate_objects, hk]
  rintro rfl
  exact hne (Option.some.inj (hk.symm.trans hi))

theorem Leaked.put (hl : Leaked s h') (i : Nat) {field : Option Int} (hne : field ≠ some h') :
    Leaked (s.put i field) h' := by
  refine ⟨hl.1, fun k hk => ?_⟩
  rcases update_cases (· = some h') hk with ⟨-, hk⟩ | ⟨-, hk⟩
  · exact hne hk
  · exact hl.2 k hk

theorem Leaked.vacate (hl : Leaked s h') (hi : s.objects i = some h) :
    Leaked (vacate C s h) h' := by
  have hne : h' ≠ h := by
    rintro rfl
    exact hl.2 i hi
  refine ⟨?_, fun k => ?_⟩
  · rw [vacate_resource hne]
    exact hl.1
  · rw [vacate_objects]
    exact hl.2 k

end Lost

end CoioOwnership
