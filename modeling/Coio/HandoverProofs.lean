import Coio.ScheduleProofs

/-! # On which context a parent goes on

    `co_await child` continues the parent in one of two places.  If the exchange of
    `final_awaiter` comes first, the parent finds the child finished and goes on where it
    is.  If its own exchange comes first, it is resumed inside `final_awaiter`, on the
    thread the child has ended on.

    Which exchange comes first is a matter of timing only if both can, and it matters only
    if the two places differ: that is, when the child leaves the context of the parent and
    does not come back.  For those bodies both runs are built here. -/

namespace CoioHandover

open CoioMachine CoioCoroutine CoioFuture CoioHandshake CoioFrame CoioStack CoioSchedule

variable {V E : Type}

/-- In some run a coroutine of `P` awaits, on `x`, a future with the body `ops`, and goes
    on after it on `t`: from its own `await_suspend`, or inside the `final_awaiter` of the
    future. -/
def HandsOver (P : Program V E Tid) (out : Tid → Except E V) (last : Except E V) (x : Tid)
    (ops : List Op) (t : Tid) : Prop :=
  ∃ (pre tr : List Event) (s₀ s : Contexts V E) (c f : Fid) (n : Nat) (env : Fin n → Fid),
    run (contextMachine P out) pre = some s₀ ∧ s₀.fut.code f = ⟨n, env, compile last ops⟩ ∧
    pre ++ [.awaitSuspend x c f] <+: tr ∧ run (contextMachine P out) tr = some s ∧
    (.setSecond t c f ∈ tr ∨ .finalResume t f c ∈ tr)

variable {P : Program V E Tid} {out : Tid → Except E V} {last : Except E V} {x : Tid}
  {ops : List Op}

/-- The two places. -/
theorem handsOver_cases {t : Tid} (h : HandsOver P out last x ops t) :
    (t = x ∧ journey x ops ≠ .back) ∨ t = place x ops := by
  obtain ⟨pre, tr, s₀, s, c, f, n, env, hpre, hcode, hp, hr, hgo⟩ := h
  obtain ⟨-, hset, hfinal⟩ := tracked_run hr hp hpre hcode
  rcases hgo with hgo | hgo
  · exact .inl (hset t hgo)
  · exact .inr (hfinal t hgo)

/-! ## A body goes its way

    The body of `f` is followed while the other coroutines stand still.  They are the
    state `w`, in which `f` is on no stack. -/

/-- `f` stands at `p` with the rest `k`, and all else is as in `w`. -/
structure Beside (w : State V E Tid) (f : Fid) (p : Pc) (k : Code V E Tid)
    (stack queue : Tid → List Fid) (s : Contexts V E) : Prop where
  pc : s.fut.pc = Function.update w.pc f p
  code : s.fut.code f = k
  mState : s.fut.mState = w.mState
  mContinuation : s.fut.mContinuation = w.mContinuation
  stack : s.fut.stack = stack
  queue : s.queue = queue

/-- The stacks when `f` has been resumed on `z`. -/
def on (w : State V E Tid) (f : Fid) (z : Tid) : Tid → List Fid :=
  Function.update w.stack z (f :: w.stack z)

def Running (w : State V E Tid) (f : Fid) (last : Except E V) (z : Tid) (rest : List Op)
    (s : Contexts V E) : Prop :=
  ∃ n env, Beside w f .running ⟨n, env, compile last rest⟩ (on w f z) (fun _ => []) s

/-- Posted to `y`. -/
def Queued (w : State V E Tid) (f : Fid) (last : Except E V) (y : Tid) (rest : List Op)
    (s : Contexts V E) : Prop :=
  ∃ n env, Beside w f .atLeaf ⟨n, env, compile last (.schedule y :: rest)⟩ w.stack
    (Function.update (fun _ => []) y [f]) s

/-- Before the exchange of `final_awaiter`. -/
def Ended (w : State V E Tid) (f : Fid) (last : Except E V) (z : Tid) (s : Contexts V E) : Prop :=
  s.fut.mResult f = some last ∧
    ∃ k, Beside w f .finalSuspend k (on w f z) (fun _ => []) s

section Beside

variable {w : State V E Tid} {f : Fid} {z y : Tid} {rest : List Op} {s : Contexts V E}
  (P : Program V E Tid) (out : Tid → Except E V)

theorem atTop_on {s : State V E Tid} (h : s.stack = on w f z) : atTop s z f := by
  simp [atTop, h, on]

theorem tail_on : Function.update (on w f z) z (on w f z z).tail = w.stack := by
  simp [on]

theorem Running.pureStep (h : Running w f last z (.pureStep :: rest) s) :
    ∃ s', step P out s (.pureStep z f) = some s' ∧ Running w f last z rest s' := by
  obtain ⟨n, env, h⟩ := h
  have hpc : s.fut.pc f = .running := by simp [h.pc]
  have hnext : (s.fut.code f).pureNext = some ⟨n, env, compile last rest⟩ := by
    rw [h.code]
    rfl
  refine ⟨⟨setCode s.fut f ⟨n, env, compile last rest⟩, s.queue⟩,
    step_eq_some.mpr ⟨rfl, Option.bind_eq_some_iff.mpr ⟨_, hnext,
      enabled_eq_some.mpr ⟨⟨atTop_on h.stack, hpc⟩, rfl⟩⟩⟩, n, env, ?_⟩
  exact { h with code := by simp }

/-- What is left after a `schedule()`. -/
theorem afterAwait_schedule {n : Nat} {env : Fin n → Fid} (v : Except E V) :
    (⟨n, env, compile last (.schedule y :: rest)⟩ : Code V E Tid).afterAwait v =
      ⟨n, env, compile last rest⟩ := by
  cases v <;> rfl

/-- `schedule()` of the own context. -/
theorem Running.leafReady (h : Running w f last z (.schedule z :: rest) s) :
    ∃ s', step P out s (.leafReady z f) = some s' ∧ Running w f last z rest s' := by
  obtain ⟨n, env, h⟩ := h
  have hpc : s.fut.pc f = .running := by simp [h.pc]
  have hleaf : (s.fut.code f).leaf = some z := by
    rw [h.code]
    rfl
  refine ⟨⟨continueWith s.fut f (out z), s.queue⟩,
    step_eq_some.mpr ⟨enabled_eq_some.mpr ⟨hleaf, rfl⟩, Option.bind_eq_some_iff.mpr ⟨_, hleaf,
      enabled_eq_some.mpr ⟨⟨atTop_on h.stack, hpc⟩, rfl⟩⟩⟩, n, env, ?_⟩
  refine { h with pc := ?_, code := ?_ }
  · show Function.update s.fut.pc f .running = _
    rw [h.pc, Function.update_idem]
  · simp [continueWith, h.code, afterAwait_schedule]

/-- `schedule()` of another one: the task is posted. -/
theorem Running.leafSuspend (h : Running w f last z (.schedule y :: rest) s) (hy : y ≠ z) :
    ∃ s', step P out s (.leafSuspend z f) = some s' ∧ Queued w f last y rest s' := by
  obtain ⟨n, env, h⟩ := h
  have hpc : s.fut.pc f = .running := by simp [h.pc]
  have hleaf : (s.fut.code f).leaf = some y := by
    rw [h.code]
    rfl
  refine ⟨⟨popStack (setPc s.fut f .atLeaf) z, Function.update s.queue y (s.queue y ++ [f])⟩,
    step_eq_some.mpr ⟨Option.bind_eq_some_iff.mpr ⟨y, hleaf, enabled_eq_some.mpr ⟨hy, rfl⟩⟩,
      Option.bind_eq_some_iff.mpr ⟨_, hleaf,
        enabled_eq_some.mpr ⟨⟨atTop_on h.stack, hpc⟩, rfl⟩⟩⟩, n, env, ?_⟩
  refine { h with pc := ?_, stack := ?_, queue := ?_ }
  · show Function.update s.fut.pc f .atLeaf = _
    rw [h.pc, Function.update_idem]
  · show Function.update s.fut.stack z (s.fut.stack z).tail = _
    rw [h.stack, tail_on]
  · show Function.update s.queue y (s.queue y ++ [f]) = _
    rw [h.queue, List.nil_append]

/-- The loop of `y`, which is idle, comes to the task. -/
theorem Queued.leafResume (h : Queued w f last y rest s) (hidle : w.stack y = []) :
    ∃ s', step P out s (.leafResume y f) = some s' ∧ Running w f last y rest s' := by
  obtain ⟨n, env, h⟩ := h
  have hpc : s.fut.pc f = .atLeaf := by simp [h.pc]
  have hempty : s.fut.stack y = [] := by rw [h.stack, hidle]
  have hhead : (s.queue y).head? = some f := by simp [h.queue]
  have hleaf : (s.fut.code f).leaf = some y := by
    rw [h.code]
    rfl
  refine ⟨⟨pushStack (continueWith s.fut f (out y)) y f,
      Function.update s.queue y (s.queue y).tail⟩,
    step_eq_some.mpr ⟨enabled_eq_some.mpr ⟨⟨hempty, hhead⟩, rfl⟩,
      Option.bind_eq_some_iff.mpr ⟨_, hleaf,
        enabled_eq_some.mpr ⟨⟨CoioProgress.inUserCode_of_empty hempty, hpc⟩, rfl⟩⟩⟩, n, env, ?_⟩
  refine { h with pc := ?_, code := ?_, stack := ?_, queue := ?_ }
  · show Function.update s.fut.pc f .running = _
    rw [h.pc, Function.update_idem]
  · simp [continueWith, h.code, afterAwait_schedule]
  · show Function.update s.fut.stack y (f :: s.fut.stack y) = _
    rw [h.stack, on]
  · show Function.update s.queue y (s.queue y).tail = _
    rw [h.queue, Function.update_self, Function.update_idem, List.tail_cons]
    exact Function.update_eq_self y (fun _ => ([] : List Fid))

theorem Running.finish (h : Running w f last z [] s) (hentry : ¬ P.IsEntry f) :
    ∃ s', step P out s (.finish z f) = some s' ∧ Ended w f last z s' := by
  obtain ⟨n, env, h⟩ := h
  have hpc : s.fut.pc f = .running := by simp [h.pc]
  have hret : (s.fut.code f).returned = some last := by
    rw [h.code]
    cases last <;> rfl
  refine ⟨⟨setResult s.fut f last, s.queue⟩,
    step_eq_some.mpr ⟨rfl, Option.bind_eq_some_iff.mpr ⟨_, hret,
      enabled_eq_some.mpr ⟨⟨atTop_on h.stack, hpc, hentry⟩, rfl⟩⟩⟩, by simp, _,
    { h with pc := ?_ }⟩
  show Function.update s.fut.pc f .finalSuspend = _
  rw [h.pc, Function.update_idem]

/-- The loops that `ops` goes to are idle, but for the one it is on. -/
def Free (w : State V E Tid) : Tid → List Op → Prop
  | _, [] => True
  | z, .pureStep :: ops => Free w z ops
  | z, .schedule y :: ops => (y = z ∨ w.stack y = []) ∧ Free w y ops

theorem free_of_idle (hidle : ∀ y, w.stack y = []) : ∀ (ops : List Op) (z : Tid), Free w z ops := by
  intro ops
  induction ops with
  | nil => exact fun _ => trivial
  | cons op ops ih =>
      intro z
      cases op with
      | pureStep => exact ih z
      | schedule y => exact ⟨.inr (hidle y), ih y⟩

theorem journey_back (x : Tid) (ops : List Op) : ops.foldl (Journey.next x) .back = .back := by
  induction ops with
  | nil => rfl
  | cons op ops ih => cases op <;> exact ih

/-- A body that does not come back needs no loop but those of the other threads. -/
theorem free_of_journey (hidle : ∀ y, y ≠ x → w.stack y = []) :
    ∀ (ops : List Op) (j : Journey) (z : Tid), (j = .home → z = x) →
      ops.foldl (Journey.next x) j ≠ .back → Free w z ops := by
  intro ops
  induction ops with
  | nil => exact fun _ _ _ _ => trivial
  | cons op ops ih =>
      intro j z hhome hback
      cases op with
      | pureStep => exact ih j z hhome hback
      | schedule y =>
          by_cases hy : y = x
          · subst hy
            cases j with
            | home => exact ⟨.inl (hhome rfl).symm, ih _ y (fun _ => rfl) hback⟩
            | away =>
                -- this `schedule()` would bring it back
                refine absurd ?_ hback
                show ops.foldl (Journey.next y) (if y = y then .back else .away) = .back
                rw [if_pos rfl, journey_back]
            | back => exact absurd (journey_back y ops) hback
          · refine ⟨.inr (hidle y hy), ih _ y (fun h => ?_) hback⟩
            cases j <;> simp [Journey.next, hy] at h

/-- Where a body leaves. -/
theorem exists_leave : ∀ {ops : List Op}, journey x ops ≠ .home →
    ∃ here y rest, ops = here ++ .schedule y :: rest ∧ y ≠ x ∧ place x here = x ∧
      ∀ w : State V E Tid, Free w x here := by
  intro ops
  induction ops with
  | nil => exact fun h => absurd rfl h
  | cons op ops ih =>
      intro h
      cases op with
      | pureStep =>
          obtain ⟨here, y, rest, rfl, hy, hplace, hfree⟩ := ih h
          exact ⟨.pureStep :: here, y, rest, rfl, hy, hplace, hfree⟩
      | schedule y =>
          by_cases hy : y = x
          · subst hy
            have hnext : Journey.next y .home (.schedule y) = .home := if_pos rfl
            rw [journey, List.foldl_cons, hnext] at h
            obtain ⟨here, u, rest, rfl, hu, hplace, hfree⟩ := ih h
            exact ⟨.schedule y :: here, u, rest, rfl, hu, hplace, fun w => ⟨.inl rfl, hfree w⟩⟩
          · exact ⟨[], y, ops, rfl, hy, rfl, fun _ => trivial⟩

/-- **RUN** of the body alone: it gets to where it goes. -/
theorem Running.travel : ∀ (ops : List Op) {z : Tid} {s : Contexts V E},
    Running w f last z (ops ++ rest) s → Free w z ops →
      ∃ es s', runFrom (contextMachine P out) s es = some s' ∧
        Running w f last (place z ops) rest s' := by
  intro ops
  induction ops with
  | nil => exact fun {z s} h _ => ⟨[], s, rfl, h⟩
  | cons op ops ih =>
      intro z s h hfree
      cases op with
      | pureStep =>
          obtain ⟨s₁, hs₁, h₁⟩ := h.pureStep P out
          obtain ⟨es, s', hr, h'⟩ := ih h₁ hfree
          exact ⟨.pureStep z f :: es, s', Option.bind_eq_some_iff.mpr ⟨s₁, hs₁, hr⟩, h'⟩
      | schedule y =>
          by_cases hy : y = z
          · subst hy
            obtain ⟨s₁, hs₁, h₁⟩ := h.leafReady P out
            obtain ⟨es, s', hr, h'⟩ := ih h₁ hfree.2
            exact ⟨.leafReady y f :: es, s', Option.bind_eq_some_iff.mpr ⟨s₁, hs₁, hr⟩, h'⟩
          · -- away from `z`, whose stack is as in `w` again, and on to `y`
            obtain ⟨s₁, hs₁, h₁⟩ := h.leafSuspend P out hy
            obtain ⟨s₂, hs₂, h₂⟩ := h₁.leafResume P out (hfree.1.resolve_left hy)
            obtain ⟨es, s', hr, h'⟩ := ih h₂ hfree.2
            exact ⟨.leafSuspend z f :: .leafResume y f :: es, s',
              Option.bind_eq_some_iff.mpr ⟨s₁, hs₁, Option.bind_eq_some_iff.mpr ⟨s₂, hs₂, hr⟩⟩, h'⟩

/-- And to its end. -/
theorem Running.ends (hentry : ¬ P.IsEntry f) {ops : List Op} (h : Running w f last z ops s)
    (hfree : Free w z ops) :
    ∃ es s', runFrom (contextMachine P out) s es = some s' ∧ Ended w f last (place z ops) s' := by
  rw [← List.append_nil ops] at h
  obtain ⟨es, s₁, hr, h₁⟩ := h.travel P out ops hfree
  obtain ⟨s', hs', h'⟩ := h₁.finish P out hentry
  have hlast : runFrom (contextMachine P out) s₁ [.finish (place z ops) f] = some s' :=
    Option.bind_eq_some_iff.mpr ⟨s', hs', rfl⟩
  exact ⟨es ++ [_], s', runFrom_append_some.mpr ⟨s₁, hr, hlast⟩, h'⟩

end Beside

/-! ## The awaiter -/

/-- The coroutine `c` is in `await_suspend` of `f` on `x`, and nothing else is on the way. -/
structure Awaiter (w : State V E Tid) (x : Tid) (c f : Fid) : Prop where
  ne : c ≠ f
  pc : w.pc c = .resuming f
  mState : w.mState f = false
  stack : w.stack = Function.update (fun _ => []) x [c]

section Awaiter

variable {w : State V E Tid} {c f : Fid} {z y : Tid} {rest : List Op} {s : Contexts V E}
  (P : Program V E Tid) (out : Tid → Except E V)

/-- `m_continuation` is written. -/
theorem storeContinuation_step (htop : s.fut.stack x = [c]) (hpc : s.fut.pc c = .resuming f) :
    step P out s (.storeContinuation x c f) =
      some ⟨{ setPc s.fut c (.stored f) with
        mContinuation := Function.update s.fut.mContinuation f (some c) }, s.queue⟩ := by
  have hatTop : atTop s.fut x c := by simp [atTop, htop]
  exact step_eq_some.mpr ⟨rfl, enabled_eq_some.mpr ⟨⟨hatTop, hpc⟩, rfl⟩⟩

/-- The body has ended, and its exchange comes first: the awaiter goes on where it is. -/
theorem Ended.first (hw : Awaiter w x c f) (h : Ended w f last z s) :
    ∃ s', runFrom (contextMachine P out) s
      [.finalFirst z f, .storeContinuation x c f, .setSecond x c f] = some s' := by
  obtain ⟨hres, k, h⟩ := h
  obtain ⟨s₁, hs₁, hpc₁, hstack₁, hstate₁, hres₁⟩ : ∃ s₁, step P out s (.finalFirst z f) = some s₁ ∧
      s₁.fut.pc c = .resuming f ∧ s₁.fut.stack x = [c] ∧ s₁.fut.mState f = true ∧
      s₁.fut.mResult f = some last := by
    have hpc : s.fut.pc f = .finalSuspend := by simp [h.pc]
    have hstate : s.fut.mState f = false := by rw [h.mState, hw.mState]
    refine ⟨⟨popStack (setPc (exchange s.fut f) f .finished) z, s.queue⟩,
      step_eq_some.mpr ⟨rfl, enabled_eq_some.mpr ⟨⟨atTop_on h.stack, hpc, hstate⟩, rfl⟩⟩,
      ?_, ?_, by simp, hres⟩
    · simp [h.pc, hw.ne, hw.pc]
    · show Function.update s.fut.stack z (s.fut.stack z).tail x = [c]
      rw [h.stack, tail_on, hw.stack, Function.update_self]
  have hs₂ := storeContinuation_step P out hstack₁ hpc₁
  obtain ⟨s₃, hs₃⟩ : ∃ s₃, step P out ⟨{ setPc s₁.fut c (.stored f) with
      mContinuation := Function.update s₁.fut.mContinuation f (some c) }, s₁.queue⟩
      (.setSecond x c f) = some s₃ := by
    refine ⟨⟨continueWith (exchange _ f) c last, s₁.queue⟩,
      step_eq_some.mpr ⟨rfl, Option.bind_eq_some_iff.mpr ⟨last, hres₁,
        enabled_eq_some.mpr ⟨⟨?_, ?_, hstate₁⟩, rfl⟩⟩⟩⟩
    · show (s₁.fut.stack x).head? = some c
      rw [hstack₁, List.head?_cons]
    · exact Function.update_self ..
  exact ⟨s₃, Option.bind_eq_some_iff.mpr ⟨s₁, hs₁, Option.bind_eq_some_iff.mpr ⟨_, hs₂,
    Option.bind_eq_some_iff.mpr ⟨s₃, hs₃, rfl⟩⟩⟩⟩

/-- The others once the awaiter is suspended. -/
def registered (w : State V E Tid) (c f : Fid) : State V E Tid :=
  { w with
    pc := Function.update w.pc c (.suspended f)
    mState := Function.update w.mState f true
    mContinuation := Function.update w.mContinuation f (some c)
    stack := fun _ => [] }

/-- The awaiter registers while the body is on its way to another context. -/
theorem Queued.register (hw : Awaiter w x c f) (h : Queued w f last y rest s) :
    ∃ s', runFrom (contextMachine P out) s [.storeContinuation x c f, .setFirst x c f] = some s' ∧
      Queued (registered w c f) f last y rest s' := by
  obtain ⟨n, env, h⟩ := h
  have hstack : s.fut.stack x = [c] := by rw [h.stack, hw.stack, Function.update_self]
  have hpc : s.fut.pc c = .resuming f := by simp [h.pc, hw.ne, hw.pc]
  have hs₁ := storeContinuation_step P out hstack hpc
  generalize hfut₁ : ({ setPc s.fut c (.stored f) with
    mContinuation := Function.update s.fut.mContinuation f (some c) } : State V E Tid) = fut₁ at hs₁
  have hs₂ : step P out ⟨fut₁, s.queue⟩ (.setFirst x c f) =
      some ⟨popStack (setPc (exchange fut₁ f) c (.suspended f)) x, s.queue⟩ := by
    subst hfut₁
    refine step_eq_some.mpr ⟨rfl, enabled_eq_some.mpr ⟨⟨?_, ?_, ?_⟩, rfl⟩⟩
    · show (s.fut.stack x).head? = some c
      rw [hstack, List.head?_cons]
    · exact Function.update_self ..
    · show s.fut.mState f = false
      rw [h.mState, hw.mState]
  refine ⟨_, Option.bind_eq_some_iff.mpr ⟨_, hs₁, Option.bind_eq_some_iff.mpr ⟨_, hs₂, rfl⟩⟩,
    n, env, ?_⟩
  subst hfut₁
  refine ⟨?_, h.code, ?_, ?_, ?_, h.queue⟩
  -- what the awaiter writes and where `f` stands are different places
  · show Function.update (Function.update s.fut.pc c _) c (.suspended f) =
      Function.update (Function.update w.pc c (.suspended f)) f .atLeaf
    rw [Function.update_idem, h.pc, Function.update_comm hw.ne.symm]
  · show Function.update s.fut.mState f true = Function.update w.mState f true
    rw [h.mState]
  · show Function.update s.fut.mContinuation f (some c) =
      Function.update w.mContinuation f (some c)
    rw [h.mContinuation]
  · show Function.update s.fut.stack x (s.fut.stack x).tail = fun _ => []
    rw [hstack, h.stack, hw.stack, Function.update_idem, List.tail_cons]
    exact Function.update_eq_self x (fun _ => ([] : List Fid))

/-- The exchange of the body comes second. -/
theorem Ended.second (hne : c ≠ f) (h : Ended (registered w c f) f last z s) :
    ∃ s', step P out s (.finalResume z f c) = some s' := by
  obtain ⟨hres, k, h⟩ := h
  refine ⟨⟨pushStack (popStack (continueWith (setPc (exchange s.fut f) f .finished) c last) z) z c,
      s.queue⟩,
    step_eq_some.mpr ⟨rfl, Option.bind_eq_some_iff.mpr ⟨last, hres,
      enabled_eq_some.mpr ⟨⟨atTop_on h.stack, ?_, ?_, ?_, ?_⟩, rfl⟩⟩⟩⟩
  · simp [h.pc]
  · simp [h.mState, registered]
  · simp [h.mContinuation, registered]
  · simp [h.pc, registered, hne]

end Awaiter

/-! ## Both orders, for every body -/

section Orders

variable (out last x ops)

/-- One future with the body `ops`, and the `oneway_task` that awaits it. -/
def solo (last : Except E V) (ops : List Op) : Program V E Tid :=
  { count := 1, body := fun _ => compile last ops }

/-- Up to the await. -/
theorem solo_await :
    ∃ s₀ s₁ w, run (contextMachine (solo last ops) out) [.start x 1] = some s₀ ∧
      s₀.fut.code 0 = ⟨0, fun j => j.val, compile last ops⟩ ∧
      run (contextMachine (solo last ops) out) [.start x 1, .awaitSuspend x 1 0] = some s₁ ∧
      Awaiter w x 1 0 ∧ Running w 0 last x ops s₁ := by
  let init := (contextMachine (solo last ops) out).init
  let s₀ : Contexts V E := ⟨pushStack (setPc init.fut 1 .running) x 1, init.queue⟩
  let s₁ : Contexts V E :=
    ⟨pushStack (setPc (setPc s₀.fut 1 (.resuming 0)) 0 .running) x 0, init.queue⟩
  have hentry : (solo last ops).IsEntry 1 := ⟨Nat.le_refl 1, Nat.lt_succ_self 1⟩
  have hs₀ : step (solo last ops) out init (.start x 1) = some s₀ :=
    step_eq_some.mpr ⟨rfl, enabled_eq_some.mpr
      ⟨⟨CoioProgress.inUserCode_of_empty rfl, hentry, rfl⟩, rfl⟩⟩
  have hr₀ : run (contextMachine (solo last ops) out) [.start x 1] = some s₀ :=
    Option.bind_eq_some_iff.mpr ⟨s₀, hs₀, rfl⟩
  have hs₁ : step (solo last ops) out s₀ (.awaitSuspend x 1 0) = some s₁ := by
    refine step_eq_some.mpr ⟨rfl, enabled_eq_some.mpr ⟨⟨?_, rfl, rfl, rfl⟩, rfl⟩⟩
    simp [s₀, atTop]
  have hr₁ : run (contextMachine (solo last ops) out) ([.start x 1] ++ [.awaitSuspend x 1 0]) =
      some s₁ := runFrom_snoc.mpr ⟨s₀, hr₀, hs₁⟩
  have hstack : s₁.fut.stack = Function.update (fun _ => []) x [0, 1] := by
    show Function.update (Function.update (fun _ => []) x [1]) x
      (0 :: Function.update (fun _ => []) x [1] x) = _
    rw [Function.update_idem, Function.update_self]
  have hpop : (popStack s₁.fut x).stack = Function.update (fun _ => []) x [1] := by
    show Function.update s₁.fut.stack x (s₁.fut.stack x).tail = _
    rw [hstack, Function.update_idem, Function.update_self, List.tail_cons]
  refine ⟨s₀, s₁, popStack s₁.fut x, hr₀, rfl, hr₁, ⟨by decide, rfl, rfl, hpop⟩,
    0, _, ?_, rfl, rfl, rfl, ?_, rfl⟩
  · exact (Function.update_idem ..).symm
  · rw [on, hpop, hstack, Function.update_idem, Function.update_self]

theorem solo_not_entry : ¬ (solo last ops).IsEntry 0 := fun h => absurd h.1 (Nat.not_succ_le_zero 0)

/-- The exchange of the body comes first. -/
theorem solo_first (hback : journey x ops ≠ .back) : HandsOver (solo last ops) out last x ops x := by
  obtain ⟨s₀, s₁, w, hr₀, hcode, hr₁, hw, hrun⟩ := solo_await out last x ops
  have hidle : ∀ y, y ≠ x → w.stack y = [] := by
    intro y hy
    rw [hw.stack, Function.update_of_ne hy]
  obtain ⟨es, s₂, hr₂, hended⟩ := hrun.ends (solo last ops) out (solo_not_entry last ops)
    (free_of_journey hidle ops .home x (fun _ => rfl) hback)
  obtain ⟨s₃, hr₃⟩ := hended.first (solo last ops) out hw
  refine ⟨[.start x 1], _, s₀, s₃, 1, 0, 0, _, hr₀, hcode, List.prefix_append _ _,
    runFrom_append_some.mpr ⟨s₁, hr₁, runFrom_append_some.mpr ⟨s₂, hr₂, hr₃⟩⟩, .inl ?_⟩
  simp

/-- The exchange of the awaiter comes first. -/
theorem solo_second (hleave : journey x ops ≠ .home) :
    HandsOver (solo last ops) out last x ops (place x ops) := by
  obtain ⟨s₀, s₁, w, hr₀, hcode, hr₁, hw, hrun⟩ := solo_await out last x ops
  obtain ⟨here, y, rest, hops, hy, hplace, hfree⟩ := exists_leave (V := V) (E := E) hleave
  have hend : place x ops = place y rest := by
    rw [hops, place, List.foldl_append]
    rfl
  rw [hops] at hrun
  -- to where the body leaves; the awaiter registers; the rest of the way and the end
  obtain ⟨es, s₂, hr₂, hhere⟩ := hrun.travel (solo last ops) out here (hfree w)
  rw [hplace] at hhere
  obtain ⟨s₃, hs₃, hqueued⟩ := hhere.leafSuspend (solo last ops) out hy
  obtain ⟨s₄, hr₄, hqueued⟩ := hqueued.register (solo last ops) out hw
  obtain ⟨s₅, hs₅, hthere⟩ := hqueued.leafResume (solo last ops) out rfl
  obtain ⟨es', s₆, hr₆, hended⟩ := hthere.ends (solo last ops) out (solo_not_entry last ops)
    (free_of_idle (fun _ => rfl) rest y)
  obtain ⟨s₇, hs₇⟩ := hended.second (solo last ops) out hw.ne
  have hrest : runFrom (contextMachine (solo last ops) out) s₁ (es ++ ([.leafSuspend x 0] ++
      ([.storeContinuation x 1 0, .setFirst x 1 0] ++ ([.leafResume y 0] ++
        (es' ++ [.finalResume (place y rest) 0 1]))))) = some s₇ := by
    refine runFrom_append_some.mpr ⟨s₂, hr₂, runFrom_append_some.mpr ⟨s₃, ?_,
      runFrom_append_some.mpr ⟨s₄, hr₄, runFrom_append_some.mpr ⟨s₅, ?_,
        runFrom_append_some.mpr ⟨s₆, hr₆, ?_⟩⟩⟩⟩⟩
    · exact Option.bind_eq_some_iff.mpr ⟨s₃, hs₃, rfl⟩
    · exact Option.bind_eq_some_iff.mpr ⟨s₅, hs₅, rfl⟩
    · exact Option.bind_eq_some_iff.mpr ⟨s₇, hs₇, rfl⟩
  refine ⟨[.start x 1], _, s₀, s₇, 1, 0, 0, _, hr₀, hcode, List.prefix_append _ _,
    runFrom_append_some.mpr ⟨s₁, hr₁, hrest⟩, .inr ?_⟩
  rw [hend]
  simp

end Orders

/-! ## When timing does not matter -/

/-- Where the parent of `solo` goes on. -/
theorem handsOver_solo_iff (t : Tid) :
    HandsOver (solo last ops) out last x ops t ↔
      (t = x ∧ journey x ops ≠ .back) ∨ (t = place x ops ∧ journey x ops ≠ .home) := by
  constructor
  · intro h
    rcases handsOver_cases h with h | rfl
    · exact .inl h
    · by_cases hhome : journey x ops = .home
      · refine .inl ⟨(place_of_journey x ops).1 hhome, ?_⟩
        rw [hhome]
        simp
      · exact .inr ⟨rfl, hhome⟩
  · rintro (⟨rfl, hback⟩ | ⟨rfl, hleave⟩)
    · exact solo_first out last t ops hback
    · exact solo_second out last x ops hleave

/-- **HANDOVER**: the context on which the parent goes on is the same in all runs IF AND ONLY
    IF the child never leaves the context it was awaited on, or comes back to it at least
    once.  It is then the context the child ends on, and there is a run that gets there. -/
theorem context_after_await_determined_iff (out : Tid → Except E V) (last : Except E V) (x : Tid)
    (ops : List Op) :
    ((∀ P t t', HandsOver P out last x ops t → HandsOver P out last x ops t' → t = t') ↔
      journey x ops ≠ .away) ∧
    (journey x ops ≠ .away → ∀ P t, HandsOver P out last x ops t → t = place x ops) ∧
    HandsOver (solo last ops) out last x ops (place x ops) := by
  obtain ⟨hhome, haway⟩ := place_of_journey x ops
  have hend : journey x ops ≠ .away → ∀ P t, HandsOver P out last x ops t → t = place x ops := by
    intro hj P t h
    rcases handsOver_cases h with ⟨rfl, hback⟩ | h
    · cases hjourney : journey t ops with
      | home => exact (hhome hjourney).symm
      | away => exact absurd hjourney hj
      | back => exact absurd hjourney hback
    · exact h
  refine ⟨⟨fun h hj => ?_, fun hj P t t' ht ht' => ?_⟩, hend, ?_⟩
  · -- both orders are possible, and the places differ
    have hfirst := solo_first out last x ops (by rw [hj]; simp)
    have hsecond := solo_second out last x ops (by rw [hj]; simp)
    exact haway hj (h _ _ _ hsecond hfirst)
  · exact (hend hj P t ht).trans (hend hj P t' ht').symm
  · refine handsOver_solo_iff _ |>.mpr ?_
    by_cases hj : journey x ops = .home
    · refine .inl ⟨hhome hj, ?_⟩
      rw [hj]
      simp
    · exact .inr ⟨rfl, hj⟩

/-- The child that goes to context 1 and ends there, awaited on context 0: its parent goes
    on on 0 if the child has ended before the parent registers, and on 1 otherwise. -/
theorem context_depends_on_timing :
    ∃ s s',
      run (contextMachine (solo (Except.ok () : Except Unit Unit) [.schedule 1]) fun _ => .ok ())
        [.start 0 1, .awaitSuspend 0 1 0, .leafSuspend 0 0, .leafResume 1 0, .finish 1 0,
          .finalFirst 1 0, .storeContinuation 0 1 0, .setSecond 0 1 0] = some s ∧
      s.fut.pc 1 = .running ∧ s.fut.stack 0 = [1] ∧ s.fut.stack 1 = [] ∧
      run (contextMachine (solo (Except.ok () : Except Unit Unit) [.schedule 1]) fun _ => .ok ())
        [.start 0 1, .awaitSuspend 0 1 0, .leafSuspend 0 0, .storeContinuation 0 1 0,
          .setFirst 0 1 0, .leafResume 1 0, .finish 1 0, .finalResume 1 0 1] = some s' ∧
      s'.fut.pc 1 = .running ∧ s'.fut.stack 0 = [] ∧ s'.fut.stack 1 = [1] := by
  refine ⟨_, _, rfl, rfl, rfl, rfl, rfl, rfl, rfl, rfl⟩

end CoioHandover
