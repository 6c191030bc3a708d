import Coio.HandshakeProofs

/-! # One frame at a time

    Most of what holds of a coroutine holds of its frame alone: where it stands
    decides what its body asks for, whether it has a result, what it still has to
    do.  `FrameStep` is everything a step of the program can do to ONE frame, and
    `frame_cases` that nothing else happens.  A fact about frames is then proved
    with one case per constructor and no thought of the other frames. -/

namespace CoioFrame

open CoioMachine CoioCoroutine CoioFuture CoioHandshake

variable {V E L : Type} {P : Program V E L} {out : L → Except E V}

structure Frame (V E L : Type) where
  pc : Pc
  code : Code V E L
  mResult : Option (Except E V)

def frame (s : State V E L) (c : Fid) : Frame V E L :=
  { pc := s.pc c, code := s.code c, mResult := s.mResult c }

/-- What a step from `s` to `s'` can do to the frame of `c`.  The flag tells whether
    `c` is the one coroutine that acts. -/
inductive FrameStep (P : Program V E L) (out : L → Except E V) (s s' : State V E L)
    (c : Fid) : Bool → Frame V E L → Frame V E L → Prop where
  | idle (fr : Frame V E L) : FrameStep P out s s' c false fr fr
  /-- the frame is made by a call in `d` -/
  | born (d : Fid) (n : Nat) (env : Fin n → Fid) (child : Body V E L n)
      (k : Body V E L (n + 1)) (hnew : c = s.next) (hd : s.pc d = .running)
      (hcode : s.code d = ⟨n, env, .create child k⟩)
      (hchild : frame s' s.next = ⟨.created, ⟨n, env, child⟩, none⟩) (fr : Frame V E L)
      (hfr : fr.pc = .unborn) :
      FrameStep P out s s' c false fr ⟨.created, ⟨n, env, child⟩, none⟩
  | start (k : Code V E L) (r : Option (Except E V)) (hentry : P.IsEntry c) :
      FrameStep P out s s' c true ⟨.created, k, r⟩ ⟨.running, k, r⟩
  /-- by the coroutine that awaits it -/
  | started (k : Code V E L) (r : Option (Except E V)) :
      FrameStep P out s s' c false ⟨.created, k, r⟩ ⟨.running, k, r⟩
  | pureStep (n : Nat) (env : Fin n → Fid) (k : Body V E L n) (r : Option (Except E V)) :
      FrameStep P out s s' c true ⟨.running, ⟨n, env, .pureStep k⟩, r⟩
        ⟨.running, ⟨n, env, k⟩, r⟩
  | create (n : Nat) (env : Fin n → Fid) (child : Body V E L n) (k : Body V E L (n + 1))
      (r : Option (Except E V)) (hnext : s'.next = s.next + 1)
      (hchild : frame s' s.next = ⟨.created, ⟨n, env, child⟩, none⟩) :
      FrameStep P out s s' c true ⟨.running, ⟨n, env, .create child k⟩, r⟩
        ⟨.running, ⟨n + 1, push env s.next, k⟩, r⟩
  | leafReady (l : L) (k : Code V E L) (r : Option (Except E V))
      (hleaf : k.leaf = some l) :
      FrameStep P out s s' c true ⟨.running, k, r⟩ ⟨.running, k.afterAwait (out l), r⟩
  | leafSuspend (l : L) (k : Code V E L) (r : Option (Except E V))
      (hleaf : k.leaf = some l) :
      FrameStep P out s s' c true ⟨.running, k, r⟩ ⟨.atLeaf, k, r⟩
  | leafResume (l : L) (k : Code V E L) (r : Option (Except E V))
      (hleaf : k.leaf = some l) :
      FrameStep P out s s' c true ⟨.atLeaf, k, r⟩ ⟨.running, k.afterAwait (out l), r⟩
  | awaitReady (f : Fid) (k : Code V E L) (v : Except E V) (r : Option (Except E V))
      (hawait : k.awaited = some f) (hdone : (s.pc f).done = true)
      (hres : s.mResult f = some v) :
      FrameStep P out s s' c true ⟨.running, k, r⟩ ⟨.running, k.afterAwait v, r⟩
  | awaitSuspend (f : Fid) (k : Code V E L) (r : Option (Except E V))
      (hawait : k.awaited = some f) :
      FrameStep P out s s' c true ⟨.running, k, r⟩ ⟨.resuming f, k, r⟩
  | storeContinuation (f : Fid) (k : Code V E L) (r : Option (Except E V)) :
      FrameStep P out s s' c true ⟨.resuming f, k, r⟩ ⟨.stored f, k, r⟩
  | setFirst (f : Fid) (k : Code V E L) (r : Option (Except E V)) :
      FrameStep P out s s' c true ⟨.stored f, k, r⟩ ⟨.suspended f, k, r⟩
  | setSecond (f : Fid) (k : Code V E L) (v : Except E V) (r : Option (Except E V))
      (hres : s.mResult f = some v) :
      FrameStep P out s s' c true ⟨.stored f, k, r⟩ ⟨.running, k.afterAwait v, r⟩
  /-- by `final_awaiter` of `f` -/
  | resumed (f : Fid) (k : Code V E L) (v : Except E V) (r : Option (Except E V))
      (hres : s.mResult f = some v) :
      FrameStep P out s s' c false ⟨.suspended f, k, r⟩ ⟨.running, k.afterAwait v, r⟩
  | finish (k : Code V E L) (v : Except E V) (r : Option (Except E V))
      (hret : k.returned = some v) (hentry : ¬ P.IsEntry c) :
      FrameStep P out s s' c true ⟨.running, k, r⟩ ⟨.finalSuspend, k, some v⟩
  | finishEntry (k : Code V E L) (v : Except E V) (r : Option (Except E V))
      (hret : k.returned = some v) (hentry : P.IsEntry c) :
      FrameStep P out s s' c true ⟨.running, k, r⟩ ⟨.finished, k, r⟩
  | final (k : Code V E L) (r : Option (Except E V)) :
      FrameStep P out s s' c true ⟨.finalSuspend, k, r⟩ ⟨.finished, k, r⟩

/-- One coroutine acts, the others are passive. -/
def OneActs (P : Program V E L) (out : L → Except E V) (s s' : State V E L) : Prop :=
  ∃ c, FrameStep P out s s' c true (frame s c) (frame s' c) ∧
    ∀ a, a ≠ c → FrameStep P out s s' a false (frame s a) (frame s' a)

/-- A step of `c` that touches no other frame. -/
theorem FrameStep.alone {s s' : State V E L} {c : Fid} {fr fr' : Frame V E L}
    (h : FrameStep P out s s' c true fr fr') (hfr : frame s c = fr)
    (hfr' : frame s' c = fr') (hrest : ∀ b, b ≠ c → frame s' b = frame s b) :
    OneActs P out s s' := by
  subst hfr hfr'
  refine ⟨c, h, fun a heq => ?_⟩
  rw [hrest a heq]
  exact .idle _

/-- A step of `c` that changes the frame of `d` too. -/
theorem FrameStep.both {s s' : State V E L} {c d : Fid} {fr fr' gr gr' : Frame V E L}
    (hc : FrameStep P out s s' c true fr fr') (hfr : frame s c = fr)
    (hfr' : frame s' c = fr') (hd : FrameStep P out s s' d false gr gr')
    (hgr : frame s d = gr) (hgr' : frame s' d = gr')
    (hrest : ∀ b, b ≠ c → b ≠ d → frame s' b = frame s b) : OneActs P out s s' := by
  subst hfr hfr' hgr hgr'
  refine ⟨c, hc, fun a heq => ?_⟩
  by_cases heq' : a = d
  · exact heq' ▸ hd
  · rw [hrest a heq heq']
    exact .idle _

/-- The frame a call makes. -/
theorem frame_newFrame {s : State V E L} {f c : Fid} (h : f ≠ c) (k k' : Code V E L) :
    frame (setCode (newFrame s f k) c k') f = ⟨.created, k, none⟩ := by
  simp [frame, h]

/-- **FRAME BY FRAME**: in every step one coroutine acts. -/
theorem one_acts {s s' : State V E L} {e : Event} (hnew : s.pc s.next = .unborn)
    (hs : step P out s e = some s') : OneActs P out s s' := by
  cases step_cases hs with
  | start t c _ hentry hpc =>
      exact FrameStep.alone (c := c) (.start (s.code c) (s.mResult c) hentry)
        (by simp [frame, hpc]) (by simp [frame]) (fun b h => by simp [frame, h])
  | pureStep t c n env k hcode htop hpc =>
      exact FrameStep.alone (c := c) (.pureStep n env k (s.mResult c))
        (by simp [frame, hpc, hcode]) (by simp [frame, hpc])
        (fun b h => by simp [frame, h])
  | create t c n env child k hcode htop hpc =>
      have hne : s.next ≠ c := ne_of_pc hnew hpc (by simp)
      have hchild := frame_newFrame (s := s) hne ⟨n, env, child⟩ ⟨n + 1, push env s.next, k⟩
      exact FrameStep.both (c := c) (d := s.next)
        (.create n env child k (s.mResult c) rfl hchild)
        (by simp [frame, hpc, hcode]) (by simp [frame, Ne.symm hne, hpc])
        (.born c n env child k rfl hpc hcode hchild (frame s s.next) hnew) rfl hchild
        (fun b h h' => by simp [frame, h, h'])
  | leafReady t c n env l k g hcode htop hpc =>
      refine FrameStep.alone (c := c)
        (.leafReady l (s.code c) (s.mResult c) ?_)
        (by simp [frame, hpc]) (by simp [frame, continueWith])
        (fun b h => by simp [frame, continueWith, h])
      rw [hcode]; rfl
  | leafSuspend t c n env l k g hcode htop hpc =>
      refine FrameStep.alone (c := c) (.leafSuspend l (s.code c) (s.mResult c) ?_)
        (by simp [frame, hpc]) (by simp [frame]) (fun b h => by simp [frame, h])
      rw [hcode]; rfl
  | leafResume t c n env l k g hcode huser hpc =>
      refine FrameStep.alone (c := c)
        (.leafResume l (s.code c) (s.mResult c) ?_)
        (by simp [frame, hpc]) (by simp [frame, continueWith])
        (fun b h => by simp [frame, continueWith, h])
      rw [hcode]; rfl
  | awaitReady t c f r hres htop hpc hawait hdone =>
      exact FrameStep.alone (c := c)
        (.awaitReady f (s.code c) r (s.mResult c) hawait hdone hres)
        (by simp [frame, hpc]) (by simp [frame, continueWith])
        (fun b h => by simp [frame, continueWith, h])
  | awaitSuspend t c f htop hpc hawait hfresh =>
      -- `m_handle.resume()` inside `await_suspend`: the awaited frame starts in the same step
      have hne : c ≠ f := ne_of_pc hpc hfresh (by simp)
      exact FrameStep.both (c := c) (d := f)
        (.awaitSuspend f (s.code c) (s.mResult c) hawait)
        (by simp [frame, hpc]) (by simp [frame, hne])
        (.started (s.code f) (s.mResult f)) (by simp [frame, hfresh]) (by simp [frame])
        (fun b h h' => by simp [frame, h, h'])
  | storeContinuation t c f htop hpc =>
      exact FrameStep.alone (c := c) (.storeContinuation f (s.code c) (s.mResult c))
        (by simp [frame, hpc]) (by simp [frame]) (fun b h => by simp [frame, h])
  | setFirst t c f htop hpc hfirst =>
      exact FrameStep.alone (c := c) (.setFirst f (s.code c) (s.mResult c))
        (by simp [frame, hpc]) (by simp [frame]) (fun b h => by simp [frame, h])
  | setSecond t c f r hres htop hpc hsecond =>
      exact FrameStep.alone (c := c)
        (.setSecond f (s.code c) r (s.mResult c) hres)
        (by simp [frame, hpc]) (by simp [frame, continueWith])
        (fun b h => by simp [frame, continueWith, h])
  | finish t c r hret htop hpc hentry =>
      exact FrameStep.alone (c := c) (.finish (s.code c) r (s.mResult c) hret hentry)
        (by simp [frame, hpc]) (by simp [frame]) (fun b h => by simp [frame, h])
  | finishEntry t c r hret htop hpc hentry =>
      exact FrameStep.alone (c := c) (.finishEntry (s.code c) r (s.mResult c) hret hentry)
        (by simp [frame, hpc]) (by simp [frame]) (fun b h => by simp [frame, h])
  | finalFirst t f htop hpc hfirst =>
      exact FrameStep.alone (c := f) (.final (s.code f) (s.mResult f))
        (by simp [frame, hpc]) (by simp [frame]) (fun b h => by simp [frame, h])
  | finalResume t f c r hres htop hpc hsecond hcont hsusp =>
      -- `m_continuation.resume()`: the awaiter takes the result as its future ends
      have hne : f ≠ c := ne_of_pc hpc hsusp (by simp)
      exact FrameStep.both (c := f) (d := c) (.final (s.code f) (s.mResult f))
        (by simp [frame, hpc]) (by simp [frame, continueWith, hne])
        (.resumed f (s.code c) r (s.mResult c) hres)
        (by simp [frame, hsusp]) (by simp [frame, continueWith])
        (fun b h h' => by simp [frame, continueWith, h, h'])

theorem frame_cases {s s' : State V E L} {e : Event} (hnew : s.pc s.next = .unborn)
    (hs : step P out s e = some s') (a : Fid) :
    ∃ act, FrameStep P out s s' a act (frame s a) (frame s' a) := by
  obtain ⟨c, hc, hrest⟩ := one_acts hnew hs
  by_cases h : a = c
  · exact ⟨true, h ▸ hc⟩
  · exact ⟨false, hrest a h⟩

/-! ## Where a coroutine stands and what its frame holds -/

/-- A coroutine waits only for what its body awaits, and a future has its result
    exactly when its handle is done.  A `oneway_task` has no promise to fill. -/
structure FrameInv (P : Program V E L) (c : Fid) (fr : Frame V E L) : Prop where
  waits : ∀ f, WaitsOn f fr.pc → fr.code.awaited = some f
  leaf : fr.pc = .atLeaf → ∃ l, fr.code.leaf = some l
  result : ¬ P.IsEntry c → fr.mResult.isSome = fr.pc.done
  entry : P.IsEntry c → fr.pc ≠ .finalSuspend

theorem FrameStep.inv {s s' : State V E L} {c : Fid} {act : Bool}
    {fr fr' : Frame V E L} (h : FrameStep P out s s' c act fr fr') (hI : FrameInv P c fr) : FrameInv P c fr' := by
  cases h with
  | idle => exact hI
  | born => exact ⟨by simp [WaitsOn], by simp, by simp [Pc.done], by simp⟩
  | leafSuspend l k r hleaf =>
      exact ⟨by simp [WaitsOn], fun _ => ⟨l, hleaf⟩, hI.result, by simp⟩
  | awaitSuspend f k r hawait =>
      exact ⟨by simp [WaitsOn, hawait], by simp, hI.result, by simp⟩
  | storeContinuation f k r =>
      have hawait := hI.waits f (Or.inl rfl)
      exact ⟨by simp [WaitsOn, hawait], by simp, hI.result, by simp⟩
  | setFirst f k r =>
      have hawait := hI.waits f (Or.inr (Or.inl rfl))
      exact ⟨by simp [WaitsOn, hawait], by simp, hI.result, by simp⟩
  | finish k v r hret hentry =>
      exact ⟨by simp [WaitsOn], by simp, fun _ => rfl, fun h => absurd h hentry⟩
  | finishEntry k v r hret hentry =>
      exact ⟨by simp [WaitsOn], by simp, fun h => absurd hentry h, by simp⟩
  | _ => exact ⟨by simp [WaitsOn], by simp, hI.result, by simp⟩

theorem frameInv_run {tr : List Event} {s : State V E L}
    (hr : run (futureMachine P out) tr = some s) (c : Fid) : FrameInv P c (frame s c) := by
  refine run_history (P := fun _ s => FrameInv P c (frame s c)) ?_ ?_ tr s hr
  · have hdone : ((futureMachine P out).init.pc c).done = false := by
      rcases init_pc P out c with h | h <;> rw [h] <;> rfl
    rcases init_pc P out c with h | h <;>
      exact ⟨by simp [frame, WaitsOn, h], by simp [frame, h], fun _ => hdone.symm,
        by simp [frame, h]⟩
  · intro tr s e s' hr' hI hs
    obtain ⟨act, h⟩ := frame_cases (next_unborn hr') hs c
    exact h.inv hI

/-! ## What a body can name -/

/-- The futures in scope exist, and none of them is a `oneway_task`. -/
def Scoped (P : Program V E L) (n : Nat) (k : Code V E L) : Prop :=
  ∀ i, k.env i < n ∧ ¬ P.IsEntry (k.env i)

theorem FrameStep.scoped {s s' : State V E L} {c : Fid} {act : Bool}
    {fr fr' : Frame V E L} (h : FrameStep P out s s' c act fr fr') (hroots : P.count + P.count ≤ s.next)
    (hnext : s.next ≤ s'.next) (hall : ∀ d, s.pc d ≠ .unborn → Scoped P s.next (s.code d))
    (hfr : fr.pc ≠ .unborn → Scoped P s.next fr.code) :
    fr'.pc ≠ .unborn → Scoped P s'.next fr'.code := by
  have hmono : ∀ {k : Code V E L}, Scoped P s.next k → Scoped P s'.next k :=
    fun hk i => ⟨Nat.lt_of_lt_of_le (hk i).1 hnext, (hk i).2⟩
  cases h with
  | idle => exact fun h => hmono (hfr h)
  | born d n env child k hnew hd hcode =>
      have hparent := hall d (by simp [hd])
      rw [hcode] at hparent
      exact fun _ => hmono hparent
  | create n env child k r hone =>
      intro _ i
      rcases push_cases env s.next i with hi | ⟨j, hj⟩
      · show push env s.next i < s'.next ∧ ¬ P.IsEntry (push env s.next i)
        rw [hi]
        exact ⟨hone ▸ Nat.lt_succ_self _, fun hentry => Nat.not_lt.mpr hroots hentry.2⟩
      · show push env s.next i < s'.next ∧ ¬ P.IsEntry (push env s.next i)
        rw [hj]
        exact hmono (hfr (by simp)) j
  | _ => exact fun _ => hmono (hfr (by simp))

/-- A new frame sees what its creator sees. -/
theorem FrameStep.scoped_born {s s' : State V E L} {c : Fid} {act : Bool}
    {fr fr' : Frame V E L} (h : FrameStep P out s s' c act fr fr') (hfr : fr.pc = .unborn) (hfr' : fr'.pc ≠ .unborn)
    (hall : ∀ d, s.pc d ≠ .unborn → Scoped P s.next (s.code d)) :
    Scoped P s.next fr'.code := by
  cases h with
  | idle => exact absurd hfr hfr'
  | born d n env child k hnew hd hcode =>
      have hparent := hall d (by simp [hd])
      rw [hcode] at hparent
      exact hparent
  | _ => exact nomatch hfr

/-- `next` only grows. -/
theorem next_le {s s' : State V E L} {e : Event} (hs : step P out s e = some s') :
    s.next ≤ s'.next := by
  rcases frames_step hs with ⟨h, -⟩ | ⟨h, -⟩ <;> omega

/-- At the start every frame sees only futures of the program, and only frames before it:
    a future those before it, a `oneway_task` its future. -/
theorem init_scope {c : Fid} (hc : (futureMachine P out).init.pc c ≠ .unborn) (i) :
    ((futureMachine P out).init.code c).env i < P.count ∧
      ((futureMachine P out).init.code c).env i < c := by
  have hlt := init_born out hc
  by_cases hroot : c < P.count
  · have hcode := init_code_root out hroot
    generalize (futureMachine P out).init.code c = k at hcode i
    subst hcode
    exact ⟨Nat.lt_trans i.isLt hroot, i.isLt⟩
  · have hcode := init_code_entry out hroot
    generalize (futureMachine P out).init.code c = k at hcode i
    subst hcode
    have hle := Nat.le_of_not_lt hroot
    have hi : c - P.count < P.count := Nat.sub_lt_left_of_lt_add hle hlt
    have hpos : 0 < P.count := Nat.zero_lt_of_lt hi
    exact ⟨hi, Nat.sub_lt (Nat.lt_of_lt_of_le hpos hle) hpos⟩

theorem scoped_run {tr : List Event} {s : State V E L}
    (hr : run (futureMachine P out) tr = some s) :
    ∀ c, s.pc c ≠ .unborn → Scoped P s.next (s.code c) := by
  refine run_history (P := fun _ s => ∀ c, s.pc c ≠ .unborn → Scoped P s.next (s.code c))
    ?_ ?_ tr s hr
  · intro c hc i
    obtain ⟨hi, -⟩ := init_scope hc i
    exact ⟨Nat.lt_add_left _ hi, fun hentry => Nat.not_lt.mpr hentry.1 hi⟩
  · intro tr s e s' hr' hall hs c
    obtain ⟨act, h⟩ := frame_cases (next_unborn hr') hs c
    exact h.scoped (born_iff hr').1 (next_le hs) hall (hall c)

/-- What a coroutine awaits exists and is not a `oneway_task`. -/
theorem awaited_scope {tr : List Event} {s : State V E L}
    (hr : run (futureMachine P out) tr = some s) {c f : Fid} (hc : s.pc c ≠ .unborn)
    (hawait : (s.code c).awaited = some f) : f < s.next ∧ ¬ P.IsEntry f := by
  have hscope := scoped_run hr c hc
  obtain ⟨n, env, i, k, h, hcode, rfl⟩ := awaited_some hawait
  rw [hcode] at hscope
  exact hscope i

/-- A body that has ended stays ended. -/
theorem FrameStep.done {s s' : State V E L} {c : Fid} {act : Bool} {fr fr' : Frame V E L}
    (h : FrameStep P out s s' c act fr fr') (hd : fr.pc.done = true) :
    fr'.pc.done = true := by
  cases h with
  | idle => exact hd
  | born d n env child k hnew hd' hcode hchild _ hfr =>
      rw [hfr] at hd
      exact nomatch hd
  | final => rfl
  | _ => exact nomatch hd

/-! ## The `oneway_task` of a future -/

/-- It has not passed its await, or the future is done. -/
def EntryInv (P : Program V E L) (i : Nat) (s : State V E L) : Prop :=
  (s.code (P.entry i) = entryCode i ∧ s.pc (P.entry i) ≠ .finished) ∨ (s.pc i).done = true

/-- Only an await of `i` that continues takes the `oneway_task` on. -/
theorem FrameStep.entry {s s' : State V E L} {c : Fid} {act : Bool} {fr fr' : Frame V E L}
    (h : FrameStep P out s s' c act fr fr') {i : Nat} (hI : FrameInv P c fr)
    (hentry : P.IsEntry c) (hc : fr.pc ≠ .unborn) (hcode : fr.code = entryCode i)
    (hpc : fr.pc ≠ .finished) :
    (fr'.code = entryCode i ∧ fr'.pc ≠ .finished) ∨ ∃ v, s.mResult i = some v := by
  have hawait : fr.code.awaited = some i := by rw [hcode]; rfl
  cases h with
  | idle => exact Or.inl ⟨hcode, hpc⟩
  | born d n env child k hnew hd' hcode hchild _ hfr => exact absurd hfr hc
  | pureStep => exact nomatch hawait
  | create => exact nomatch hawait
  | leafReady l k r hleaf => exact nomatch hleaf.symm.trans (congrArg Code.leaf hcode)
  | leafSuspend l k r hleaf => exact nomatch hleaf.symm.trans (congrArg Code.leaf hcode)
  | leafResume l k r hleaf => exact nomatch hleaf.symm.trans (congrArg Code.leaf hcode)
  | awaitReady f k v r hawait' hdone hres =>
      obtain rfl := Option.some.inj (hawait.symm.trans hawait')
      exact Or.inr ⟨v, hres⟩
  | setSecond f k v r hres =>
      obtain rfl := Option.some.inj (hawait.symm.trans (hI.waits f (Or.inr (Or.inl rfl))))
      exact Or.inr ⟨v, hres⟩
  | resumed f k v r hres =>
      obtain rfl := Option.some.inj (hawait.symm.trans (hI.waits f (Or.inr (Or.inr rfl))))
      exact Or.inr ⟨v, hres⟩
  | finish k v r hret => exact nomatch hret.symm.trans (congrArg Code.returned hcode)
  | finishEntry k v r hret => exact nomatch hret.symm.trans (congrArg Code.returned hcode)
  | final => exact absurd rfl (hI.entry hentry)
  | _ => exact Or.inl ⟨hcode, by simp⟩

theorem isEntry_entry {i : Nat} (hi : i < P.count) : P.IsEntry (P.entry i) :=
  ⟨Nat.le_add_right .., Nat.add_lt_add_left hi _⟩

theorem not_isEntry_root {i : Nat} (hi : i < P.count) : ¬ P.IsEntry i :=
  fun h => Nat.not_lt.mpr h.1 hi

theorem entryInv_run {tr : List Event} {s : State V E L}
    (hr : run (futureMachine P out) tr = some s) {i : Nat} (hi : i < P.count) :
    EntryInv P i s := by
  refine run_history (P := fun _ s => EntryInv P i s) ?_ ?_ tr s hr
  · refine Or.inl ⟨?_, ?_⟩
    · have hnot : ¬ P.entry i < P.count := Nat.not_lt.mpr (Nat.le_add_right ..)
      rw [init_code_entry out hnot]
      exact congrArg entryCode (Nat.add_sub_cancel_left ..)
    · rcases init_pc P out (P.entry i) with h | h <;> simp [h]
  · intro tr s e s' hr' hE hs
    obtain ⟨hroots, hborn⟩ := born_iff hr'
    have hnew := next_unborn hr'
    obtain ⟨_, hroot⟩ := frame_cases hnew hs i
    rcases hE with ⟨hcode, hpc⟩ | hdone
    · obtain ⟨_, hentry⟩ := frame_cases hnew hs (P.entry i)
      have hlt : P.entry i < s.next := Nat.lt_of_lt_of_le (isEntry_entry hi).2 hroots
      rcases hentry.entry (frameInv_run hr' _) (isEntry_entry hi)
        (fun h => Nat.not_lt.mpr ((hborn _).mp h) hlt) hcode hpc with h | ⟨v, hv⟩
      · exact Or.inl h
      · refine Or.inr (hroot.done ?_)
        rw [← (frameInv_run hr' i).result (not_isEntry_root hi)]
        exact Option.isSome_iff_exists.mpr ⟨v, hv⟩
    · exact Or.inr (hroot.done hdone)

end CoioFrame
