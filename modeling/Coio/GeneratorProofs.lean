import Coio.MachineProofs
import Mathlib.Logic.Function.Basic

/-! # `generator<T>` — one coroutine, many iterators, and a flag

    All iterators of a generator are the same handle: they share the frame, the value
    pointer and the stored exception.  The body first runs in `begin()`, and
    `m_init_begin`, a field of the generator and not of the frame, keeps a later
    `begin()` from running it again.

    So the whole state is one POSITION: not started, or at the `j`-th element after
    `j` increments.  Everything an iterator answers is read off the position, for every
    body and every mix of calls.

    The move constructor takes the handle and leaves the flag behind.  The generator it
    makes believes that the body has not been started, and its `begin()` resumes it
    once more: the current element is skipped, and a body that has ended is resumed
    after its end. -/

namespace CoioGenerator

open CoioMachine

/-! ## The coroutine -/

/-- How the body comes back from one resume. -/
inductive Outcome (T X : Type) where
  /-- `co_yield v` -/
  | yield (v : T)
  /-- `co_return`, or the end of the body -/
  | ret
  | throw (x : X)

/-- What each resume comes to.  What follows the first `ret` or `throw` is never asked
    for, so this is any finite or infinite sequence of values with either end. -/
abbrev Body (T X : Type) := Nat → Outcome T X

section

variable {T X : Type}

def Outcome.value : Outcome T X → Option T
  | .yield v => some v
  | _ => none

def Outcome.exception : Outcome T X → Option X
  | .throw x => some x
  | _ => none

/-- The body is at its final suspend point. -/
def Outcome.ends : Outcome T X → Bool
  | .yield _ => false
  | _ => true

/-- The frame of the coroutine with its promise. -/
structure Frame (X : Type) where
  /-- how often the body has been resumed -/
  resumed : Nat
  done : Bool
  /-- the `co_yield` whose operand `m_value_ptr` points to -/
  valuePtr : Option Nat
  exception : Option X
  /-- the body was resumed at its final suspend point, which is undefined behaviour -/
  overrun : Bool

def Frame.start : Frame X :=
  { resumed := 0, done := false, valuePtr := none, exception := none, overrun := false }

/-- `m_handle.resume()`. -/
def Frame.resume (body : Body T X) (f : Frame X) : Frame X :=
  if f.done then { f with overrun := true }
  else
    match body f.resumed with
    | .yield _ => { f with resumed := f.resumed + 1, valuePtr := some f.resumed }
    | .ret => { f with resumed := f.resumed + 1, done := true }
    | .throw x => { f with resumed := f.resumed + 1, done := true, exception := some x }

/-- `try_rethrow()`: the result, unless an exception is stored. -/
def Frame.tryRethrow {β : Type} (f : Frame X) (result : β) : Except X β :=
  match f.exception with
  | some x => .error x
  | none => .ok result

/-! ## Generators and iterators -/

/-- `m_handle` is null or the frame. -/
structure Iterator where
  handle : Bool

structure Generator where
  initBegin : Bool
  handle : Bool

/-- `begin()`; `none` is `std::terminate`. -/
def Generator.begin (body : Body T X) (g : Generator) (f : Frame X) :
    Option (Except X Iterator × Generator × Frame X) :=
  if !g.handle then none
  else if !g.initBegin then
    some ((f.resume body).tryRethrow ⟨g.handle⟩, { g with initBegin := true }, f.resume body)
  else some (.ok ⟨g.handle⟩, g, f)

/-- The generator that is constructed, and what is left of the other one. -/
def Generator.moveConstruct (other : Generator) : Generator × Generator :=
  (⟨false, other.handle⟩, { other with handle := false })

/-- `it == end()`. -/
def Iterator.equalsEnd (it : Iterator) (f : Frame X) : Bool := !it.handle || f.done

/-- `++it`. -/
def Iterator.increment (body : Body T X) (it : Iterator) (f : Frame X) :
    Except X Iterator × Frame X :=
  ((f.resume body).tryRethrow it, f.resume body)

/-- `*it`, with the number of the element.  The operand of a `co_yield` is there as long
    as the body is suspended at it. -/
def Iterator.deref (body : Body T X) (it : Iterator) (f : Frame X) : Option (Nat × T) :=
  if !it.handle then none
  else
    f.valuePtr.bind fun k =>
      if f.resumed = k + 1 ∧ f.done = false then (body k).value.map fun v => (k, v) else none

/-! ## The calls on one generator -/

structure State (X : Type) where
  gen : Generator
  frame : Frame X
  iterators : Nat → Option Iterator
  /-- the exceptions that have come out of calls -/
  thrown : List X

inductive Event where
  /-- `it_i = g.begin()` -/
  | begin (i : Nat)
  /-- `it_i = it_j` -/
  | copy (i j : Nat)
  /-- `++it_i` -/
  | increment (i : Nat)
  /-- `it_i = it_j++` -/
  | postIncrement (i j : Nat)
  /-- `*it_i` -/
  | deref (i : Nat)
  /-- `it_i == g.end()` -/
  | compare (i : Nat)
  deriving DecidableEq

def isBegin : Event → Bool
  | .begin _ => true
  | _ => false

def isIncrement : Event → Bool
  | .increment _ => true
  | .postIncrement _ _ => true
  | _ => false

/-- An iterator is returned to variable `i`, or an exception comes out. -/
def State.returned (s : State X) (i : Nat) : Except X Iterator → State X
  | .ok it => { s with iterators := Function.update s.iterators i (some it) }
  | .error x => { s with thrown := s.thrown ++ [x] }

/-- `it_i = ++it_j`, which nobody does at the end. -/
def advance (body : Body T X) (s : State X) (i j : Nat) : Option (State X) :=
  (s.iterators j).bind fun it =>
    enabled (it.equalsEnd s.frame = false)
      ({ s with frame := (it.increment body s.frame).2 }.returned i (it.increment body s.frame).1)

def step (body : Body T X) (s : State X) : Event → Option (State X)
  | .begin i =>
      (s.gen.begin body s.frame).map fun r =>
        { s with gen := r.2.1, frame := r.2.2 }.returned i r.1
  | .copy i j =>
      (s.iterators j).map fun it => { s with iterators := Function.update s.iterators i (some it) }
  | .increment i => advance body s i i
  -- `operator++(int)` returns what `operator++()` does
  | .postIncrement i j => advance body s i j
  | .deref i => (s.iterators i).map fun _ => s
  | .compare i => (s.iterators i).map fun _ => s

def generatorMachine (body : Body T X) : Machine (State X) Event where
  init := { gen := ⟨false, true⟩, frame := .start, iterators := fun _ => none, thrown := [] }
  step := step body

/-! ## Positions -/

/-- The frame at a position: not started, or at the `j`-th element. -/
def Frame.at (body : Body T X) : Option Nat → Frame X
  | none => .start
  | some j =>
      { resumed := j + 1
        done := (body j).ends
        valuePtr := if (body j).ends then (if j = 0 then none else some (j - 1)) else some j
        exception := (body j).exception
        overrun := false }

theorem resume_start (body : Body T X) : Frame.start.resume body = Frame.at body (some 0) := by
  unfold Frame.resume Frame.at
  cases h : body 0 <;> simp [Frame.start, h, Outcome.ends, Outcome.exception]

theorem resume_at (body : Body T X) {j : Nat} (hj : (body j).ends = false) :
    (Frame.at body (some j)).resume body = Frame.at body (some (j + 1)) := by
  cases hb : body j with
  | ret => rw [hb] at hj; cases hj
  | throw x => rw [hb] at hj; cases hj
  | yield v =>
      unfold Frame.resume Frame.at
      cases h : body (j + 1) <;> simp [hb, h, Outcome.ends, Outcome.exception]

theorem resume_ended (body : Body T X) {j : Nat} (hj : (body j).ends = true) :
    (Frame.at body (some j)).resume body = { Frame.at body (some j) with overrun := true } := by
  unfold Frame.resume
  exact if_pos hj

/-- The number of elements that are passed by a call. -/
def after (pos : Option Nat) : Event → Option Nat
  | .begin _ => some (pos.getD 0)
  | .increment _ => pos.map (· + 1)
  | .postIncrement _ _ => pos.map (· + 1)
  | _ => pos

/-- What is thrown on the way to a position. -/
def thrownAt (body : Body T X) (pos : Option Nat) : List X :=
  (pos.bind fun j => (body j).exception).toList

/-- The state is the position. -/
structure Reached (body : Body T X) (pos : Option Nat) (s : State X) : Prop where
  gen : s.gen = ⟨pos.isSome, true⟩
  frame : s.frame = Frame.at body pos
  iterators : ∀ i it, s.iterators i = some it → it = ⟨true⟩ ∧ pos.isSome = true
  thrown : s.thrown = thrownAt body pos
  passed : ∀ j, pos = some j → ∀ k < j, (body k).ends = false

variable {body : Body T X} {pos : Option Nat} {s s' : State X}

theorem reached_init (body : Body T X) : Reached body none (generatorMachine body).init :=
  ⟨rfl, rfl, fun _ _ h => absurd h (by simp [generatorMachine]), rfl, fun _ h => absurd h (by simp)⟩

/-- A variable is set to an iterator. -/
theorem Reached.assign (h : Reached body pos s) (hpos : pos.isSome = true) (i : Nat) :
    Reached body pos { s with iterators := Function.update s.iterators i (some ⟨true⟩) } := by
  refine ⟨h.gen, h.frame, fun k it hk => ⟨?_, hpos⟩, h.thrown, h.passed⟩
  have hk : Function.update s.iterators i (some ⟨true⟩) k = some it := hk
  rcases update_cases (· = some it) hk with ⟨-, hk⟩ | ⟨-, hk⟩
  · exact (Option.some.inj hk).symm
  · exact (h.iterators k it hk).1

/-- A resume lands at element `j`: the iterator is returned, or the body has thrown. -/
theorem reached_of_resume {j : Nat} (hgen : s.gen = ⟨true, true⟩)
    (hframe : s.frame = Frame.at body (some j))
    (hiters : ∀ i it, s.iterators i = some it → it = ⟨true⟩) (hthrown : s.thrown = [])
    (hpassed : ∀ k < j, (body k).ends = false) (i : Nat) :
    Reached body (some j) (s.returned i (s.frame.tryRethrow ⟨true⟩)) := by
  have hpassed' : ∀ j', some j = some j' → ∀ k < j', (body k).ends = false := by
    intro j' hj'
    exact Option.some.inj hj' ▸ hpassed
  have hexc : s.frame.exception = (body j).exception := by rw [hframe]; rfl
  unfold Frame.tryRethrow
  rw [hexc]
  -- the flag is set before `try_rethrow`: a body that throws has begun all the same
  cases hb : (body j).exception with
  | none =>
      refine Reached.assign ⟨hgen, hframe, fun k it hk => ⟨hiters k it hk, rfl⟩, ?_, hpassed'⟩ rfl i
      rw [hthrown, thrownAt, Option.bind_some, hb]
      rfl
  | some x =>
      refine ⟨hgen, hframe, fun k it hk => ⟨hiters k it hk, rfl⟩, ?_, hpassed'⟩
      show s.thrown ++ [x] = thrownAt body (some j)
      rw [hthrown, thrownAt, Option.bind_some, hb]
      rfl

theorem exception_of_not_ends {o : Outcome T X} (h : o.ends = false) : o.exception = none := by
  cases o with
  | yield v => rfl
  | ret => rfl
  | throw x => cases h

/-- **STEP** of an iterator: one element on. -/
theorem reached_advance {i j : Nat} (h : Reached body pos s) (ha : advance body s i j = some s') :
    Reached body (pos.map (· + 1)) s' := by
  obtain ⟨it, hit, ha⟩ := Option.bind_eq_some_iff.mp ha
  obtain ⟨hend, rfl⟩ := enabled_eq_some.mp ha
  obtain ⟨rfl, hpos⟩ := h.iterators j it hit
  obtain ⟨n, rfl⟩ := Option.isSome_iff_exists.mp hpos
  have hyield : (body n).ends = false := by
    rw [h.frame] at hend
    exact hend
  have hresume : s.frame.resume body = Frame.at body (some (n + 1)) := by
    rw [h.frame, resume_at body hyield]
  have hthrown : s.thrown = [] := by
    rw [h.thrown, thrownAt, Option.bind_some, exception_of_not_ends hyield]
    rfl
  refine reached_of_resume (s := { s with frame := s.frame.resume body }) h.gen hresume
    (fun k it hk => (h.iterators k it hk).1) hthrown ?_ i
  intro k hk
  rcases Nat.lt_or_eq_of_le (Nat.le_of_lt_succ hk) with hlt | rfl
  · exact h.passed n rfl k hlt
  · exact hyield

/-- **STEP** of the generator: the first `begin()` runs the body, no other one does. -/
theorem reached_begin {i : Nat} (h : Reached body pos s)
    (hs : step body s (.begin i) = some s') : Reached body (some (pos.getD 0)) s' := by
  obtain ⟨r, hbegin, rfl⟩ := Option.map_eq_some_iff.mp hs
  rw [h.gen] at hbegin
  cases pos with
  | none =>
      cases hbegin
      have hresume : s.frame.resume body = Frame.at body (some 0) := by
        rw [h.frame]
        exact resume_start body
      exact reached_of_resume (s := { s with gen := ⟨true, true⟩, frame := s.frame.resume body })
        rfl hresume (fun k it hk => (h.iterators k it hk).1) h.thrown
        (fun k hk => absurd hk (Nat.not_lt_zero k)) i
  | some j =>
      cases hbegin
      have hsame : Reached body (some j) { s with gen := ⟨true, true⟩ } :=
        ⟨rfl, h.frame, h.iterators, h.thrown, h.passed⟩
      exact hsame.assign rfl i

theorem reached_step {e : Event} (h : Reached body pos s) (hs : step body s e = some s') :
    Reached body (after pos e) s' := by
  cases e with
  | begin i => exact reached_begin h hs
  | copy i j =>
      obtain ⟨it, hit, rfl⟩ := Option.map_eq_some_iff.mp hs
      obtain ⟨rfl, hpos⟩ := h.iterators j it hit
      exact h.assign hpos i
  | increment i => exact reached_advance h hs
  | postIncrement i j => exact reached_advance h hs
  | deref i =>
      obtain ⟨-, -, rfl⟩ := Option.map_eq_some_iff.mp hs
      exact h
  | compare i =>
      obtain ⟨-, -, rfl⟩ := Option.map_eq_some_iff.mp hs
      exact h

/-- Only where there is a position can it be advanced. -/
theorem started_of_increment {e : Event} (h : Reached body pos s) (he : isIncrement e = true)
    (hs : step body s e = some s') : pos.isSome = true := by
  cases e with
  | increment i =>
      obtain ⟨it, hit, -⟩ := Option.bind_eq_some_iff.mp hs
      exact (h.iterators i it hit).2
  | postIncrement i j =>
      obtain ⟨it, hit, -⟩ := Option.bind_eq_some_iff.mp hs
      exact (h.iterators j it hit).2
  | begin | copy | deref | compare => cases he

/-- The position after the calls `es`. -/
def position (es : List Event) : Option Nat :=
  if es.countP isBegin = 0 then none else some (es.countP isIncrement)

theorem position_snoc {es : List Event} {e : Event}
    (hzero : es.countP isBegin = 0 → es.countP isIncrement = 0)
    (hinc : isIncrement e = true → es.countP isBegin ≠ 0) :
    position (es ++ [e]) = after (position es) e := by
  unfold position
  rw [countP_snoc, countP_snoc]
  by_cases hb : es.countP isBegin = 0
  · -- without a `begin()` there is no iterator that could be incremented
    cases e with
    | begin i => simp [hb, hzero hb, isBegin, isIncrement, after]
    | increment i => exact absurd hb (hinc rfl)
    | postIncrement i j => exact absurd hb (hinc rfl)
    | copy | deref | compare => simp [hb, isBegin, after]
  · cases e <;> simp [hb, isBegin, isIncrement, after]

theorem position_isSome {es : List Event} :
    (position es).isSome = true ↔ es.countP isBegin ≠ 0 := by
  unfold position
  split <;> simp_all

/-- **RUN**: the state is the position, and the position is the count of the calls. -/
theorem reached_run :
    ∀ (es : List Event) (s : State X), run (generatorMachine body) es = some s →
      Reached body (position es) s ∧
      (es.countP isBegin = 0 → es.countP isIncrement = 0) := by
  refine run_history ⟨reached_init body, fun _ => rfl⟩ ?_
  rintro es s e s' - ⟨h, hzero⟩ hs
  have hinc : isIncrement e = true → es.countP isBegin ≠ 0 := fun he =>
    position_isSome.mp (started_of_increment h he hs)
  refine ⟨position_snoc hzero hinc ▸ reached_step h hs, fun hb => ?_⟩
  rw [countP_snoc] at hb ⊢
  have hno : isIncrement e = false := by
    refine Bool.eq_false_iff.mpr fun he => hinc he ?_
    omega
  rw [hno, hzero (by omega)]
  rfl

theorem begin_ne_none (h : Reached body pos s) (i : Nat) : step body s (.begin i) ≠ none := by
  unfold step Generator.begin
  rw [h.gen]
  cases pos <;> simp

/-- An iterator is at the end exactly when the body has ended. -/
theorem equalsEnd_at {j : Nat} :
    (⟨true⟩ : Iterator).equalsEnd (Frame.at body (some j)) = true ↔ ∀ v, body j ≠ .yield v := by
  show (body j).ends = true ↔ _
  cases body j <;> simp [Outcome.ends]

theorem deref_at {j : Nat} {v : T} (hj : body j = .yield v) :
    (⟨true⟩ : Iterator).deref body (Frame.at body (some j)) = some (j, v) := by
  simp [Iterator.deref, Frame.at, hj, Outcome.ends, Outcome.value]

/-- **ITERATION**: whatever is done with a generator and the copies of its iterators, the
    body has not run before the first `begin()`.  After it, with `j` increments in all,
    the body has been resumed `j + 1` times; every iterator is at the end exactly when
    the body has ended, and points to element `j` otherwise; and the exception of the
    body has come out once.  `begin()` always returns or throws that exception. -/
theorem iteration_enumerates_the_yields (body : Body T X) (es : List Event) (s : State X)
    (hr : run (generatorMachine body) es = some s) :
    (es.countP isBegin = 0 → s.frame.resumed = 0 ∧ s.thrown = []) ∧
    (es.countP isBegin ≠ 0 → ∀ j, es.countP isIncrement = j →
      s.frame.resumed = j + 1 ∧ (∀ k < j, ∃ v, body k = .yield v) ∧
      (∀ i it, s.iterators i = some it →
        (it.equalsEnd s.frame = true ↔ ∀ v, body j ≠ .yield v) ∧
        (∀ v, body j = .yield v → it.deref body s.frame = some (j, v))) ∧
      s.thrown = (body j).exception.toList) ∧
    s.frame.overrun = false ∧ ∀ i, (generatorMachine body).step s (.begin i) ≠ none := by
  obtain ⟨h, -⟩ := reached_run es s hr
  refine ⟨fun hb => ?_, fun hb j hj => ?_, ?_, fun i => begin_ne_none h i⟩
  · rw [position, if_pos hb] at h
    rw [h.frame, h.thrown]
    exact ⟨rfl, rfl⟩
  · rw [position, if_neg hb, hj] at h
    refine ⟨by rw [h.frame]; rfl, fun k hk => ?_, fun i it hi => ?_, h.thrown⟩
    · cases hbody : body k with
      | yield v => exact ⟨v, rfl⟩
      | ret | throw =>
          have hends := h.passed j rfl k hk
          rw [hbody] at hends
          cases hends
    · obtain ⟨rfl, -⟩ := h.iterators i it hi
      rw [h.frame]
      exact ⟨equalsEnd_at, fun v => deref_at⟩
  · rw [h.frame]
    cases position es <;> rfl

/-- Two yields and a throw, through two iterators and with a second `begin()`. -/
theorem iteration_enumerates_the_yields_throw :
    ∃ s, run (generatorMachine (T := Nat) (X := String)
        (fun k => if k < 2 then .yield (k + 10) else .throw "x"))
        [.begin 0, .copy 1 0, .increment 1, .begin 2, .deref 0, .increment 2, .compare 0] =
          some s ∧
      s.frame.resumed = 3 ∧ s.thrown = ["x"] := by
  obtain ⟨s, hs⟩ : ∃ s, run (generatorMachine (T := Nat) (X := String)
      (fun k => if k < 2 then .yield (k + 10) else .throw "x"))
      [.begin 0, .copy 1 0, .increment 1, .begin 2, .deref 0, .increment 2, .compare 0] =
        some s := ⟨_, rfl⟩
  obtain ⟨hres, -, -, hthrown⟩ :=
    (iteration_enumerates_the_yields _ _ s hs).2.1 (by decide) 2 (by decide)
  exact ⟨s, hs, hres, hthrown⟩

/-! ## The move constructor -/

/-- What is seen at one step of a loop over a generator. -/
inductive Seen (T X : Type) where
  /-- element `k` -/
  | value (k : Nat) (v : T)
  | ended
  | threw (x : X)
  /-- `std::terminate`, a value pointer that dangles, or a body resumed after its end -/
  | undefined
  deriving DecidableEq

/-- At most `n` rounds of `for (; it != end(); ++it)`. -/
def loop (body : Body T X) (it : Iterator) : Nat → Frame X → List (Seen T X)
  | 0, _ => []
  | n + 1, f =>
      if it.equalsEnd f then [.ended]
      else
        match it.deref body f with
        | none => [.undefined]
        | some (k, v) =>
            .value k v ::
              match (it.increment body f).1 with
              | .error x => [.threw x]
              | .ok it' => loop body it' n (it.increment body f).2

/-- What is seen through `g.begin()` and increments. -/
def seen (body : Body T X) (g : Generator) (f : Frame X) (n : Nat) : List (Seen T X) :=
  match g.begin body f with
  | none => [.undefined]
  | some (r, _, f') =>
      if f'.overrun then [.undefined]
      else
        match r with
        | .error x => [.threw x]
        | .ok it => loop body it n f'

/-- What a loop sees from element `j` on. -/
def elements (body : Body T X) : Nat → Nat → List (Seen T X)
  | 0, _ => []
  | n + 1, j =>
      match body j with
      | .yield v =>
          .value j v ::
            match (body (j + 1)).exception with
            | some x => [.threw x]
            | none => elements body n (j + 1)
      | _ => [.ended]

theorem loop_at (body : Body T X) (n : Nat) :
    ∀ j, loop body ⟨true⟩ n (Frame.at body (some j)) = elements body n j := by
  -- on the rounds, for every element the loop may stand at
  induction n with
  | zero => exact fun j => rfl
  | succ n ih =>
      intro j
      unfold loop elements
      cases hj : body j with
      | ret | throw => rw [if_pos (equalsEnd_at.mpr (by simp [hj]))]
      | yield v =>
          have hne : ¬ (⟨true⟩ : Iterator).equalsEnd (Frame.at body (some j)) = true := by
            rw [equalsEnd_at]
            exact fun h => h v hj
          have hends : (body j).ends = false := by rw [hj]; rfl
          rw [if_neg hne, deref_at hj]
          unfold Iterator.increment Frame.tryRethrow
          rw [resume_at body hends]
          show _ :: _ = _ :: _
          congr 1
          show (match (match (body (j + 1)).exception with
            | some x => Except.error x
            | none => Except.ok (⟨true⟩ : Iterator)) with
            | .error x => [Seen.threw x]
            | .ok it' => loop body it' n (Frame.at body (some (j + 1)))) = _
          cases (body (j + 1)).exception with
          | none => exact ih (j + 1)
          | some x => rfl

/-- A started generator goes on where it is. -/
theorem seen_started (body : Body T X) (j n : Nat) :
    seen body ⟨true, true⟩ (Frame.at body (some j)) n = elements body n j :=
  loop_at body n j

/-- A generator that takes itself for new runs the body once. -/
theorem seen_new {f : Frame X} {j : Nat} (hf : f.resume body = Frame.at body (some j)) (n : Nat) :
    seen body ⟨false, true⟩ f n =
      match (body j).exception with
      | some x => [.threw x]
      | none => elements body n j := by
  unfold seen Generator.begin Frame.tryRethrow
  rw [hf]
  show (match (match (body j).exception with
    | some x => Except.error x
    | none => Except.ok (⟨true⟩ : Iterator)) with
    | .error x => [Seen.threw x]
    | .ok it => loop body it n (Frame.at body (some j))) = _
  cases (body j).exception with
  | none => exact loop_at body n j
  | some x => rfl

/-- The generator moved to at element `j` skips the element, or resumes the body after
    its end. -/
theorem seen_moved_ne (body : Body T X) (j : Nat) :
    seen body ⟨false, true⟩ (Frame.at body (some j)) 1 ≠ elements body 1 j := by
  cases hj : body j with
  | ret | throw =>
      -- the body is at its final suspend point, and `begin()` resumes it
      have hends : (body j).ends = true := by rw [hj]; rfl
      unfold seen Generator.begin elements
      rw [resume_ended body hends, hj]
      simp
  | yield v =>
      -- one round is enough: it shows element `j + 1`, or the end behind it
      have hends : (body j).ends = false := by rw [hj]; rfl
      rw [seen_new (resume_at body hends)]
      unfold elements
      rw [hj]
      cases hnext : body (j + 1) <;> simp [Outcome.exception]

/-- **MOVE**: `generator g2 = std::move(g)`, in any state that `begin()` and increments
    lead to, keeps the position IF AND ONLY IF `begin()` has never been called. -/
theorem move_keeps_the_position_iff (body : Body T X) (es : List Event) (s : State X)
    (hr : run (generatorMachine body) es = some s) :
    (∀ n, seen body s.gen.moveConstruct.1 s.frame n = seen body s.gen s.frame n) ↔
      es.countP isBegin = 0 := by
  obtain ⟨h, -⟩ := reached_run es s hr
  by_cases hb : es.countP isBegin = 0
  · rw [position, if_pos hb] at h
    rw [h.gen]
    exact iff_of_true (fun _ => rfl) hb
  · rw [position, if_neg hb] at h
    rw [h.gen, h.frame]
    refine iff_of_false (fun hall => ?_) hb
    exact seen_moved_ne body _ ((hall 1).trans (seen_started body _ 1))

/-- A generator that is moved before its first `begin()`. -/
theorem move_keeps_the_position_iff_new :
    (generatorMachine (T := Nat) (X := String) fun k => .yield k).init.gen = ⟨false, true⟩ ∧
    ∀ n, seen (T := Nat) (X := String) (fun k => .yield k)
        (Generator.moveConstruct ⟨false, true⟩).1 .start n =
      seen (fun k => .yield k) ⟨false, true⟩ .start n :=
  ⟨rfl, (move_keeps_the_position_iff (fun k => .yield k) [] (generatorMachine _).init rfl).mpr rfl⟩

/-- Two elements and a return. -/
def twoElements : Body Nat String := fun k => if k < 2 then .yield (k + 10) else .ret

/-- A generator of two elements that is moved at its first one, and at its end. -/
theorem move_skips_an_element :
    ∃ s s', run (generatorMachine twoElements) [.begin 0] = some s ∧
      seen twoElements s.gen s.frame 3 = [.value 0 10, .value 1 11, .ended] ∧
      seen twoElements s.gen.moveConstruct.1 s.frame 3 = [.value 1 11, .ended] ∧
      run (generatorMachine twoElements) [.begin 0, .increment 0, .increment 0] = some s' ∧
      seen twoElements s'.gen s'.frame 3 = [.ended] ∧
      seen twoElements s'.gen.moveConstruct.1 s'.frame 3 = [.undefined] :=
  ⟨_, _, rfl, rfl, rfl, rfl, rfl, rfl⟩

end

end CoioGenerator
