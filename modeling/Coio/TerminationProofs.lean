import Coio.RefinementProofs
import Mathlib.Algebra.BigOperators.Group.Finset.Basic
import Mathlib.Algebra.Order.BigOperators.Group.Finset

/-! # Every run ends

    Each frame still has some steps to take: what its body costs, less what an
    await has already used up.  Every step of the program is paid for by the frame
    that acts; a call hands the cost of the child over to the new frame.  So the
    length of a run is bounded by what the program costs at the start. -/

namespace CoioTermination

open CoioMachine CoioCoroutine CoioFuture CoioHandshake CoioFrame CoioRefinement

variable {V E L : Type} {P : Program V E L} {out : L → Except E V}
variable {val : Fid → Except E V}

/-! ## What a frame still costs -/

/-- The cost of the rest of a body when each frame has the outcome `val`. -/
def codeCost (out : L → Except E V) (val : Fid → Except E V) (k : Code V E L) : Nat :=
  cost out k.body (val ∘ k.env)

theorem codeCost_leafDone (out : L → Except E V) (val : Fid → Except E V)
    {k : Code V E L} {l : L} (hleaf : k.leaf = some l) :
    codeCost out val (k.afterAwait (out l)) + 2 = codeCost out val k := by
  obtain ⟨n, env, b, h, rfl⟩ := leaf_some hleaf
  exact cost_afterLeaf l b h

theorem codeCost_awaitDone (out : L → Except E V) (val : Fid → Except E V)
    {k : Code V E L} {f : Fid} (hawait : k.awaited = some f) :
    codeCost out val (k.afterAwait (val f)) + 3 = codeCost out val k := by
  obtain ⟨n, env, i, b, h, rfl, rfl⟩ := awaited_some hawait
  exact cost_afterFuture (ρ := val ∘ env) i b h

theorem codeCost_returned {k : Code V E L} {v : Except E V} (hret : k.returned = some v) :
    codeCost out val k = 2 := by
  obtain ⟨n, env, b⟩ := k
  cases b with
  | coReturn => rfl
  | throwEx => rfl
  | _ => exact nomatch hret

/-- The steps a frame can still take. -/
def weight (P : Program V E L) (out : L → Except E V) (val : Fid → Except E V) (c : Fid)
    (fr : Frame V E L) : Nat :=
  match fr.pc with
  | .unborn => 0
  | .created => codeCost out val fr.code + if P.IsEntry c then 1 else 0
  | .running => codeCost out val fr.code
  | .atLeaf => codeCost out val fr.code - 1
  | .resuming _ => codeCost out val fr.code - 1
  | .stored _ => codeCost out val fr.code - 2
  | .suspended _ => codeCost out val fr.code - 3
  | .finalSuspend => 1
  | .finished => 0

/-- The frame that acts pays for the step. -/
theorem weight_lt_of_acts {s s' : State V E L} {c : Fid} {fr fr' : Frame V E L}
    (h : FrameStep P out s s' c true fr fr') (hI : FrameInv P c fr)
    (hres : ∀ f v, s.mResult f = some v → v = val f) (hnext : s'.next = s.next) :
    weight P out val c fr' < weight P out val c fr := by
  cases h with
  | start k r hentry =>
      show codeCost out val k < codeCost out val k + if P.IsEntry c then 1 else 0
      rw [if_pos hentry]
      exact Nat.lt_succ_self _
  | pureStep n env k r => exact Nat.lt_succ_self _
  -- a creation changes `next`; `total_lt_of_create` pays for it
  | create n env child k r hone => omega
  | leafReady l k r hleaf =>
      have := codeCost_leafDone out val hleaf
      show codeCost out val (k.afterAwait (out l)) < codeCost out val k
      omega
  | leafSuspend l k r hleaf =>
      have := codeCost_leafDone out val hleaf
      show codeCost out val k - 1 < codeCost out val k
      omega
  | leafResume l k r hleaf =>
      have := codeCost_leafDone out val hleaf
      show codeCost out val (k.afterAwait (out l)) < codeCost out val k - 1
      omega
  | awaitReady f k v r hawait hdone hv =>
      obtain rfl := hres f v hv
      have := codeCost_awaitDone out val hawait
      show codeCost out val (k.afterAwait (val f)) < codeCost out val k
      omega
  | awaitSuspend f k r hawait =>
      have := codeCost_awaitDone out val hawait
      show codeCost out val k - 1 < codeCost out val k
      omega
  | storeContinuation f k r =>
      have hawait : k.awaited = some f := hI.waits f (Or.inl rfl)
      have := codeCost_awaitDone out val hawait
      show codeCost out val k - 2 < codeCost out val k - 1
      omega
  | setFirst f k r =>
      have hawait : k.awaited = some f := hI.waits f (Or.inr (Or.inl rfl))
      have := codeCost_awaitDone out val hawait
      show codeCost out val k - 3 < codeCost out val k - 2
      omega
  | setSecond f k v r hv =>
      obtain rfl := hres f v hv
      have hawait : k.awaited = some f := hI.waits f (Or.inr (Or.inl rfl))
      have := codeCost_awaitDone out val hawait
      show codeCost out val (k.afterAwait (val f)) < codeCost out val k - 2
      omega
  | finish k v r hret =>
      show 1 < codeCost out val k
      rw [codeCost_returned hret]
      exact Nat.one_lt_two
  | finishEntry k v r hret =>
      show 0 < codeCost out val k
      rw [codeCost_returned hret]
      exact Nat.zero_lt_two
  | final => exact Nat.zero_lt_one

/-- The others do not get more to do. -/
theorem weight_le_of_passive {s s' : State V E L} {c : Fid} {fr fr' : Frame V E L}
    (h : FrameStep P out s s' c false fr fr') (hI : FrameInv P c fr)
    (hres : ∀ f v, s.mResult f = some v → v = val f) (hnew : s'.pc s.next = .unborn) :
    weight P out val c fr' ≤ weight P out val c fr := by
  cases h with
  | idle => exact Nat.le_refl _
  | born d n env child k hc hd hcode hchild =>
      exact nomatch hnew.symm.trans (congrArg Frame.pc hchild)
  | started => exact Nat.le_add_right ..
  | resumed f k v r hv =>
      obtain rfl := hres f v hv
      have hawait : k.awaited = some f := hI.waits f (Or.inr (Or.inr rfl))
      have := codeCost_awaitDone out val hawait
      show codeCost out val (k.afterAwait (val f)) ≤ codeCost out val k - 3
      omega

/-! ## What the program still costs -/

def total (P : Program V E L) (out : L → Except E V) (val : Fid → Except E V)
    (s : State V E L) : Nat :=
  ∑ c ∈ Finset.range s.next, weight P out val c (frame s c)

/-- A step that makes no frame. -/
theorem total_lt_of_same {tr : List Event} {s s' : State V E L} {e : Event}
    (hr : run (futureMachine P out) tr = some s) (hs : step P out s e = some s')
    (hD : ∀ c, Denotes out val c (frame s c)) (hnext : s'.next = s.next)
    (hnew : s'.pc s.next = .unborn) : total P out val s' < total P out val s := by
  obtain ⟨c, hc, hrest⟩ := one_acts (next_unborn hr) hs
  have hlt := weight_lt_of_acts hc (frameInv_run hr c) (fun f v hv => (hD f).2 v hv) hnext
  have hmem : c < s.next := by
    -- a frame that does not exist weighs nothing
    refine lt_next_of_born hr fun hpc => ?_
    have hpc' : (frame s c).pc = .unborn := hpc
    simp [weight, hpc'] at hlt
  rw [total, total, hnext]
  refine Finset.sum_lt_sum (fun a _ => ?_) ⟨c, Finset.mem_range.mpr hmem, hlt⟩
  by_cases ha : a = c
  · exact Nat.le_of_lt (ha ▸ hlt)
  · exact weight_le_of_passive (hrest a ha) (frameInv_run hr a)
      (fun f v hv => (hD f).2 v hv) hnew

/-- A call: the caller hands the cost of the child over. -/
theorem total_lt_of_create {tr : List Event} {s : State V E L} {c : Fid} {n : Nat}
    {env : Fin n → Fid} {child : Body V E L n} {k : Body V E L (n + 1)}
    (hr : run (futureMachine P out) tr = some s) (hpc : s.pc c = .running)
    (hcode : s.code c = ⟨n, env, .create child k⟩)
    (hval : eval out child (val ∘ env) = val s.next) :
    total P out val
        (setCode (newFrame s s.next ⟨n, env, child⟩) c ⟨n + 1, push env s.next, k⟩)
      < total P out val s := by
  have hroots := (born_iff hr).1
  have hmem : c < s.next := lt_next_of_born hr (by simp [hpc])
  have hne : s.next ≠ c := Nat.ne_of_gt hmem
  have hentry : ¬ P.IsEntry s.next := fun h => Nat.not_lt.mpr hroots h.2
  -- the cost of the creator covers both bodies and one more
  have hc : weight P out val c (frame s c)
      = codeCost out val ⟨n, env, child⟩ + codeCost out val ⟨n + 1, push env s.next, k⟩ + 1 := by
    have hframe : frame s c = ⟨.running, ⟨n, env, .create child k⟩, s.mResult c⟩ := by
      simp [frame, hpc, hcode]
    rw [hframe]
    show cost out child (val ∘ env)
      + cost out k (push (val ∘ env) (eval out child (val ∘ env))) + 1 = _
    rw [hval, ← comp_push]
    rfl
  generalize hs' : setCode (newFrame s s.next ⟨n, env, child⟩) c
    ⟨n + 1, push env s.next, k⟩ = s'
  have hc' : weight P out val c (frame s' c)
      = codeCost out val ⟨n + 1, push env s.next, k⟩ := by
    simp [← hs', weight, frame, Ne.symm hne, hpc]
  have hn' : weight P out val s.next (frame s' s.next) = codeCost out val ⟨n, env, child⟩ := by
    rw [← hs', frame_newFrame hne]
    simp [weight, hentry]
  have hrest : ∀ a ∈ Finset.range s.next, a ≠ c → frame s' a = frame s a := by
    intro a ha hac
    have hn : a ≠ s.next := Nat.ne_of_lt (Finset.mem_range.mp ha)
    simp [← hs', frame, hac, hn]
  have hnext : s'.next = s.next + 1 := by simp [← hs']
  -- split the sums at the creator and at the new frame; the other frames are the same
  have hmem' := Finset.mem_range.mpr hmem
  rw [total, total, hnext, Finset.sum_range_succ, hn',
    ← Finset.add_sum_erase _ _ hmem', ← Finset.add_sum_erase _ _ hmem', hc, hc']
  have hsame : ∑ a ∈ (Finset.range s.next).erase c, weight P out val a (frame s' a)
      = ∑ a ∈ (Finset.range s.next).erase c, weight P out val a (frame s a) := by
    refine Finset.sum_congr rfl fun a ha => ?_
    rw [hrest a (Finset.mem_of_mem_erase ha) (Finset.ne_of_mem_erase ha)]
  rw [hsame]
  omega

/-- Every step is paid for. -/
theorem total_lt {tr : List Event} {s s' : State V E L} {e : Event}
    (hr : run (futureMachine P out) tr = some s) (hs : step P out s e = some s')
    (hD : ∀ c, Denotes out val c (frame s c)) (hD' : ∀ c, Denotes out val c (frame s' c)) :
    total P out val s' < total P out val s := by
  rcases frames_step hs with ⟨hnext, hpc⟩ | ⟨hnext, hpc⟩
  · exact total_lt_of_same hr hs hD hnext ((hpc _).mpr (next_unborn hr))
  · cases step_cases hs with
    | create t c n env child k hcode htop hrun =>
        have hne : s.next ≠ c := ne_of_pc (next_unborn hr) hrun (by simp)
        have hnew := (hD' s.next).1
        rw [frame_newFrame hne] at hnew
        exact total_lt_of_create hr hrun hcode (hnew (by simp))
    | _ => exact absurd hnext (Nat.ne_of_lt (Nat.lt_succ_self _))

/-- The steps the program can take. -/
def budget (P : Program V E L) (out : L → Except E V) : Nat :=
  ∑ i ∈ Finset.range P.count, (cost out (P.body i) (outcomes P out i) + 6)

theorem weight_init_root (hroot : ∀ i < P.count, val i = direct P out i) {i : Nat}
    (hi : i < P.count) :
    weight P out val i (frame (futureMachine P out).init i)
      = cost out (P.body i) (outcomes P out i) := by
  have hframe : frame (futureMachine P out).init i
      = ⟨.created, ⟨i, fun j => j.val, P.body i⟩, none⟩ := by
    simp only [frame, init_code_root out hi]
    exact congrArg (Frame.mk · _ _) (if_pos (Nat.lt_add_left _ hi))
  rw [hframe, outcomes_eq]
  show codeCost out val _ + (if P.IsEntry i then 1 else 0) = _
  rw [if_neg (not_isEntry_root hi)]
  exact congrArg (cost out (P.body i)) (funext fun j => hroot _ (Nat.lt_trans j.isLt hi))

theorem weight_init_entry {i : Nat} (hi : i < P.count) :
    weight P out val (P.entry i) (frame (futureMachine P out).init (P.entry i)) = 6 := by
  have hnot : ¬ P.entry i < P.count := Nat.not_lt.mpr (Nat.le_add_right ..)
  have hframe : frame (futureMachine P out).init (P.entry i)
      = ⟨.created, entryCode (P.entry i - P.count), none⟩ := by
    simp only [frame, init_code_entry out hnot]
    exact congrArg (Frame.mk · _ _) (if_pos (isEntry_entry hi).2)
  rw [hframe]
  show codeCost out val (entryCode (P.entry i - P.count))
    + (if P.IsEntry (P.entry i) then 1 else 0) = 6
  rw [if_pos (isEntry_entry hi)]
  show pick (val (P.entry i - P.count)) (fun _ => 2) (fun _ => 2) + 3 + 1 = 6
  cases val (P.entry i - P.count) <;> rfl

theorem total_init (hroot : ∀ i < P.count, val i = direct P out i) :
    total P out val (futureMachine P out).init = budget P out := by
  show ∑ c ∈ Finset.range (P.count + P.count), _ = _
  rw [budget, Finset.sum_range_add, Finset.sum_add_distrib]
  congr 1
  · exact Finset.sum_congr rfl fun i hi => weight_init_root hroot (Finset.mem_range.mp hi)
  · exact Finset.sum_congr rfl fun i hi => weight_init_entry (Finset.mem_range.mp hi)

/-- **TERMINATION**: no run takes more steps than the program's budget. -/
theorem length_le_budget {tr : List Event} {s : State V E L}
    (hr : run (futureMachine P out) tr = some s) : tr.length ≤ budget P out := by
  obtain ⟨val, hroot, hall⟩ := denotation hr
  have hlen : tr.length + total P out val s ≤ total P out val (futureMachine P out).init := by
    refine run_history_throughout (Q := fun t => ∀ c, Denotes out val c (frame t c))
      (P := fun tr s =>
        tr.length + total P out val s ≤ total P out val (futureMachine P out).init)
      (by simp) ?_ tr s hr hall
    intro tr s e s' hr' hD hD' hle hs
    have hlt := total_lt hr' hs hD hD'
    rw [List.length_append, List.length_singleton]
    omega
  have := total_init hroot
  omega

end CoioTermination
