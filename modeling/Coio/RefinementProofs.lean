import Coio.FrameProofs

/-! # Every coroutine computes its direct-style outcome

    The denotation of a run gives each frame ONE outcome: what the body it was
    created with evaluates to in direct style, the futures in its scope standing
    for their own outcomes.  Along the whole run the rest of every body still
    evaluates to the outcome of its frame, and a result that is stored is that
    outcome.  So it does not matter who was suspended, on which thread a leaf
    operation completed, or which exchange continued an await. -/

namespace CoioRefinement

open CoioMachine CoioCoroutine CoioFuture CoioHandshake CoioFrame

variable {V E L : Type} {P : Program V E L} {out : L → Except E V}
variable {val : Fid → Except E V}

/-! ## The direct-style outcome of the program -/

/-- The outcomes of the first `n` futures of the program. -/
def outcomes (P : Program V E L) (out : L → Except E V) : (n : Nat) → Fin n → Except E V
  | 0 => fun i => i.elim0
  | n + 1 => push (outcomes P out n) (eval out (P.body n) (outcomes P out n))

/-- **DIRECT STYLE**: the outcome of future `i` of the program. -/
def direct (P : Program V E L) (out : L → Except E V) (i : Nat) : Except E V :=
  eval out (P.body i) (outcomes P out i)

theorem outcomes_eq (n : Nat) : outcomes P out n = fun j : Fin n => direct P out j.val := by
  induction n with
  | zero => exact funext fun i => i.elim0
  | succ n ih =>
      funext j
      cases j using Fin.lastCases with
      | last => exact push_last ..
      | cast i => exact (push_castSucc ..).trans (congrFun ih i)

/-! ## Awaits and returns keep the outcome of a body -/

/-- What the rest of a body evaluates to when each frame has the outcome `val`. -/
def value (out : L → Except E V) (val : Fid → Except E V) (k : Code V E L) : Except E V :=
  eval out k.body (val ∘ k.env)

theorem value_congr {val' : Fid → Except E V} {k : Code V E L}
    (h : ∀ i, val' (k.env i) = val (k.env i)) : value out val' k = value out val k :=
  congrArg (eval out k.body) (funext h)

theorem value_leafDone {k : Code V E L} {l : L} (hleaf : k.leaf = some l) :
    value out val (k.afterAwait (out l)) = value out val k := by
  obtain ⟨n, env, b, h, rfl⟩ := leaf_some hleaf
  exact eval_afterLeaf l b h

theorem value_awaitDone {k : Code V E L} {f : Fid} (hawait : k.awaited = some f) :
    value out val (k.afterAwait (val f)) = value out val k := by
  obtain ⟨n, env, i, b, h, rfl, rfl⟩ := awaited_some hawait
  exact eval_afterFuture (ρ := val ∘ env) i b h

theorem value_returned {k : Code V E L} {v : Except E V} (hret : k.returned = some v) :
    value out val k = v := by
  obtain ⟨n, env, b⟩ := k
  cases b with
  | coReturn => exact Option.some.inj hret
  | throwEx => exact Option.some.inj hret
  | _ => exact nomatch hret

/-- A `oneway_task` has the outcome of the future it awaits. -/
theorem value_entryCode (f : Fid) : value out val (entryCode f) = val f := by
  show pick (val f) (fun v => .ok v) (fun e => .error e) = val f
  cases val f <;> rfl

/-! ## The denotation of a run -/

/-- The rest of the body evaluates to the outcome `val c`, and a stored result is it. -/
def Denotes (out : L → Except E V) (val : Fid → Except E V) (c : Fid)
    (fr : Frame V E L) : Prop :=
  (fr.pc ≠ .unborn → value out val fr.code = val c) ∧ ∀ r, fr.mResult = some r → r = val c

/-- Every step keeps the outcome of every frame. -/
theorem denotes_step {s s' : State V E L} {c : Fid} {act : Bool}
    {fr fr' : Frame V E L} (h : FrameStep P out s s' c act fr fr') (hI : FrameInv P c fr)
    (hres : ∀ f v, s.mResult f = some v → v = val f)
    (hnew : (frame s' s.next).pc ≠ .unborn →
      value out val (frame s' s.next).code = val s.next)
    (hD : Denotes out val c fr) : Denotes out val c fr' := by
  obtain ⟨hvalue, hresult⟩ := hD
  cases h with
  | idle => exact ⟨hvalue, hresult⟩
  | born d n env child k hc hd hcode hchild =>
      rw [hchild] at hnew
      exact ⟨fun _ => hc ▸ hnew (by simp), fun r hr => nomatch hr⟩
  | create n env child k r hone hchild =>
      rw [hchild] at hnew
      have hnew : eval out child (val ∘ env) = val s.next := hnew (by simp)
      refine ⟨fun _ => ?_, hresult⟩
      show eval out k (val ∘ push env s.next) = val c
      rw [comp_push, ← hnew]
      exact hvalue (by simp)
  | leafReady l k r hleaf =>
      exact ⟨fun _ => (value_leafDone hleaf).trans (hvalue (by simp)), hresult⟩
  | leafResume l k r hleaf =>
      exact ⟨fun _ => (value_leafDone hleaf).trans (hvalue (by simp)), hresult⟩
  | awaitReady f k v r hawait hdone hv =>
      obtain rfl := hres f v hv
      exact ⟨fun _ => (value_awaitDone hawait).trans (hvalue (by simp)), hresult⟩
  | setSecond f k v r hv =>
      obtain rfl := hres f v hv
      have hawait := hI.waits f (Or.inr (Or.inl rfl))
      exact ⟨fun _ => (value_awaitDone hawait).trans (hvalue (by simp)), hresult⟩
  | resumed f k v r hv =>
      obtain rfl := hres f v hv
      have hawait := hI.waits f (Or.inr (Or.inr rfl))
      exact ⟨fun _ => (value_awaitDone hawait).trans (hvalue (by simp)), hresult⟩
  | finish k v r hret hentry =>
      have hv : v = val c := (value_returned hret).symm.trans (hvalue (by simp))
      exact ⟨fun _ => hvalue (by simp), fun r hr => Option.some.inj hr ▸ hv⟩
  | _ => exact ⟨fun _ => hvalue (by simp), hresult⟩

/-- A denotation only speaks of the frames that exist. -/
theorem denotes_congr {tr : List Event} {s : State V E L} {val' : Fid → Except E V}
    (hr : run (futureMachine P out) tr = some s) (hval : ∀ f < s.next, val' f = val f)
    (hD : ∀ c, Denotes out val c (frame s c)) : ∀ c, Denotes out val' c (frame s c) := by
  intro c
  obtain ⟨hroots, hborn⟩ := born_iff hr
  by_cases hc : c < s.next
  · refine ⟨fun hpc => ?_, fun r h => (hD c).2 r h ▸ (hval c hc).symm⟩
    have hscope : Scoped P s.next (frame s c).code := scoped_run hr c hpc
    rw [value_congr (fun i => hval _ (hscope i).1), hval c hc]
    exact (hD c).1 hpc
  · have hpc : s.pc c = .unborn := (hborn c).mpr (Nat.le_of_not_lt hc)
    refine ⟨fun h => absurd hpc h, fun r h => ?_⟩
    have hsome := (frameInv_run hr c).result
      (fun hentry => hc (Nat.lt_of_lt_of_le hentry.2 hroots))
    simp [show (frame s c).pc = .unborn from hpc, h, Pc.done] at hsome

theorem next_mono {tr pre : List Event} {s t : State V E L}
    (hr : run (futureMachine P out) tr = some s)
    (hp : pre <+: tr) (ht : run (futureMachine P out) pre = some t) : t.next ≤ s.next := by
  obtain ⟨suf, rfl⟩ := hp
  obtain ⟨u, hu, hsuf⟩ := runFrom_append_some.mp hr
  obtain rfl : t = u := Option.some.inj (ht.symm.trans hu)
  exact runFrom_invariant (I := fun s : State V E L => t.next ≤ s.next)
    (fun _ _ _ hle hs => Nat.le_trans hle (next_le hs)) (Nat.le_refl _) hsuf

/-- The outcomes of the frames a program starts with. -/
def initial (P : Program V E L) (out : L → Except E V) (c : Fid) : Except E V :=
  direct P out (if c < P.count then c else c - P.count)

theorem initial_root {i : Nat} (hi : i < P.count) : initial P out i = direct P out i :=
  congrArg (direct P out) (if_pos hi)

theorem denotes_init (c : Fid) :
    Denotes out (initial P out) c (frame (futureMachine P out).init c) := by
  refine ⟨fun hpc => ?_, fun r hr => nomatch hr⟩
  have hc := init_born out hpc
  show value out (initial P out) ((futureMachine P out).init.code c) = initial P out c
  by_cases hroot : c < P.count
  · rw [init_code_root out hroot, initial_root hroot, direct, outcomes_eq]
    refine congrArg (eval out (P.body c)) (funext fun j => ?_)
    exact initial_root (Nat.lt_trans j.isLt hroot)
  · have hlt : c - P.count < P.count :=
      Nat.sub_lt_left_of_lt_add (Nat.le_of_not_lt hroot) hc
    rw [init_code_entry out hroot, value_entryCode, initial_root hlt, initial, if_neg hroot]

/-- **REFINEMENT**: each run has a denotation.  It gives the futures of the program
    their direct-style outcomes, and each frame of the run keeps its outcome from
    its creation to its end. -/
theorem denotation {tr : List Event} {s : State V E L}
    (hr : run (futureMachine P out) tr = some s) :
    ∃ val : Fid → Except E V, (∀ i < P.count, val i = direct P out i) ∧
      Throughout (futureMachine P out) (fun t => ∀ c, Denotes out val c (frame t c)) tr := by
  refine run_history (P := fun tr _ => ∃ val : Fid → Except E V,
    (∀ i < P.count, val i = direct P out i) ∧
      Throughout (futureMachine P out) (fun t => ∀ c, Denotes out val c (frame t c)) tr)
    ?_ ?_ tr s hr
  · refine ⟨initial P out, fun _ hi => initial_root hi, ?_⟩
    intro pre hp t ht
    obtain rfl := List.prefix_nil.mp hp
    obtain rfl := Option.some.inj ht
    exact denotes_init
  · rintro tr s e s' hr' ⟨val, hroot, hall⟩ hs
    obtain ⟨hroots, hborn⟩ := born_iff hr'
    have hnext : s.pc s.next = .unborn := next_unborn hr'
    -- the next frame means what it will be created with
    let val' := Function.update val s.next (value out val (s'.code s.next))
    have hold : ∀ f < s.next, val' f = val f :=
      fun f hf => Function.update_of_ne (Nat.ne_of_lt hf) ..
    have hD := denotes_congr hr' hold (hall tr (List.prefix_refl _) s hr')
    refine ⟨val', fun i hi => (hold i (by omega)).trans (hroot i hi), throughout_snoc ?_ ?_⟩
    · intro pre hp t ht
      exact denotes_congr ht
        (fun f hf => hold f (Nat.lt_of_lt_of_le hf (next_mono hr' hp ht))) (hall pre hp t ht)
    · intro u hu c
      obtain ⟨t, ht, htu⟩ := runFrom_snoc.mp hu
      obtain rfl : s = t := Option.some.inj (hr'.symm.trans ht)
      obtain rfl : s' = u := Option.some.inj (hs.symm.trans htu)
      obtain ⟨_, hstep⟩ := frame_cases hnext hs c
      refine denotes_step hstep (frameInv_run hr' c)
        (fun f v hv => (hD f).2 v hv) (fun hpc => ?_) (hD c)
      obtain ⟨_, hborn'⟩ := frame_cases hnext hs s.next
      have hscope := hborn'.scoped_born hnext hpc (scoped_run hr')
      exact (value_congr (fun i => hold _ (hscope i).1)).trans
        (Function.update_self s.next _ val).symm

/-- A result of the program is its direct-style outcome. -/
theorem result_direct {tr : List Event} {s : State V E L}
    (hr : run (futureMachine P out) tr = some s) {i : Nat} (hi : i < P.count)
    {r : Except E V} (hres : s.mResult i = some r) : r = direct P out i := by
  obtain ⟨val, hroot, hall⟩ := denotation hr
  exact ((hall tr (List.prefix_refl _) s hr i).2 r hres).trans (hroot i hi)

end CoioRefinement
