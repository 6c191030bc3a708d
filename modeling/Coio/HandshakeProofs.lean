import Coio.FutureProofs

/-! # The two exchanges — each `co_await` continues exactly once

    For one future everything hangs on who does its `exchange(true)` first.  From
    outside, a future is always in one of four phases:

    * `fresh` — nobody has awaited it, its body has not been started;
    * `registering` — its one awaiter is inside `await_suspend`, before its
      exchange; the body may meanwhile have run to its end;
    * `waiting` — the awaiter's exchange came first: it is suspended, its handle
      is in `m_continuation`, and the body has not ended;
    * `closed` — both exchanges are done, the awaiter has gone on.

    `Handshake` is this, with the number of starts, of exchanges on either side
    and of continuations seen so far.  A step either does not concern the future
    (`Handshake.frame`) or takes it along one edge of that diagram. -/

namespace CoioHandshake

open CoioMachine CoioCoroutine CoioFuture

variable {V E L : Type} {P : Program V E L} {out : L → Except E V}

/-- The program point lies between `await_suspend` of `f` and its continuation. -/
def WaitsOn (f : Fid) (p : Pc) : Prop :=
  p = .resuming f ∨ p = .stored f ∨ p = .suspended f

/-- The body has been started and has not done its final exchange. -/
def Live (p : Pc) : Prop :=
  p ≠ .unborn ∧ p ≠ .created ∧ p ≠ .finished

/-! ## Counting the events of one future -/

/-- The body of `f` is started. -/
def isStart (f : Fid) : Event → Bool
  | .awaitSuspend _ _ g => g == f
  | _ => false

/-- The exchange of `set_continuation` of `f`. -/
def isSet (f : Fid) : Event → Bool
  | .setFirst _ _ g => g == f
  | .setSecond _ _ g => g == f
  | _ => false

/-- The exchange of `final_awaiter` of `f`. -/
def isFinal (f : Fid) : Event → Bool
  | .finalFirst _ g => g == f
  | .finalResume _ g _ => g == f
  | _ => false

/-- The coroutine that suspended for `f` goes on. -/
def isContinue (f : Fid) : Event → Bool
  | .setSecond _ _ g => g == f
  | .finalResume _ g _ => g == f
  | _ => false

structure Counts where
  starts : Nat
  sets : Nat
  finals : Nat
  continues : Nat
  deriving DecidableEq

def counts (f : Fid) (tr : List Event) : Counts :=
  { starts := tr.countP (isStart f)
    sets := tr.countP (isSet f)
    finals := tr.countP (isFinal f)
    continues := tr.countP (isContinue f) }

theorem counts_snoc (f : Fid) (tr : List Event) (e : Event) :
    counts f (tr ++ [e]) =
      { starts := (counts f tr).starts + (isStart f e).toNat
        sets := (counts f tr).sets + (isSet f e).toNat
        finals := (counts f tr).finals + (isFinal f e).toNat
        continues := (counts f tr).continues + (isContinue f e).toNat } := by
  simp only [counts, countP_snoc]

/-- The event takes part in no exchange of `f`. -/
def Aside (f : Fid) (e : Event) : Prop :=
  isStart f e = false ∧ isSet f e = false ∧ isFinal f e = false ∧ isContinue f e = false

theorem counts_aside {f : Fid} {tr : List Event} {e : Event} (h : Aside f e) :
    counts f (tr ++ [e]) = counts f tr := by
  obtain ⟨h₁, h₂, h₃, h₄⟩ := h
  rw [counts_snoc, h₁, h₂, h₃, h₄]
  rfl

/-! ## The phases -/

inductive Handshake (tr : List Event) (s : State V E L) (f : Fid) : Prop where
  | fresh (hpc : s.pc f = .unborn ∨ s.pc f = .created) (hstate : s.mState f = false)
      (hnone : ∀ c, ¬ WaitsOn f (s.pc c)) (hcounts : counts f tr = ⟨0, 0, 0, 0⟩)
  | registering (c : Fid) (hev : ∃ t, .awaitSuspend t c f ∈ tr)
      (hpc : s.pc c = .resuming f ∨ (s.pc c = .stored f ∧ s.mContinuation f = some c))
      (honly : ∀ c', WaitsOn f (s.pc c') → c' = c)
      (hbody : (Live (s.pc f) ∧ s.mState f = false ∧ counts f tr = ⟨1, 0, 0, 0⟩) ∨
        (s.pc f = .finished ∧ s.mState f = true ∧ counts f tr = ⟨1, 0, 1, 0⟩))
  | waiting (c : Fid) (hev : ∃ t, .awaitSuspend t c f ∈ tr)
      (hpc : s.pc c = .suspended f) (hcont : s.mContinuation f = some c)
      (honly : ∀ c', WaitsOn f (s.pc c') → c' = c) (hlive : Live (s.pc f))
      (hstate : s.mState f = true) (hcounts : counts f tr = ⟨1, 1, 0, 0⟩)
  | closed (hpc : s.pc f = .finished) (hstate : s.mState f = true)
      (hnone : ∀ c, ¬ WaitsOn f (s.pc c)) (hcounts : counts f tr = ⟨1, 1, 1, 1⟩)

/-- **FRAME**: whatever leaves the promise of `f` alone, moves no coroutine into or
    out of an await of `f`, and neither starts nor ends `f`, keeps its phase. -/
theorem Handshake.frame {tr : List Event} {s s' : State V E L} {f : Fid}
    (hH : Handshake tr s f)
    (hpc : ∀ c, s'.pc c = s.pc c ∨ (¬ WaitsOn f (s.pc c) ∧ ¬ WaitsOn f (s'.pc c)))
    (hself : s'.pc f = s.pc f ∨ (Live (s.pc f) ∧ Live (s'.pc f)))
    (hstate : s'.mState f = s.mState f)
    (hcont : s'.mContinuation f = s.mContinuation f) : Handshake tr s' f := by
  have hsame : ∀ c, WaitsOn f (s.pc c) → s'.pc c = s.pc c :=
    fun c hw => (hpc c).resolve_right (fun h => h.1 hw)
  have hback : ∀ c, WaitsOn f (s'.pc c) → WaitsOn f (s.pc c) := by
    intro c hw
    rcases hpc c with heq | ⟨-, hno⟩
    · exact heq ▸ hw
    · exact absurd hw hno
  have hlive : Live (s.pc f) → Live (s'.pc f) := by
    intro hl
    rcases hself with heq | ⟨-, hl'⟩
    · exact heq ▸ hl
    · exact hl'
  have hdead : ¬ Live (s.pc f) → s'.pc f = s.pc f :=
    fun hn => hself.resolve_right (fun h => hn h.1)
  cases hH with
  | fresh hpc₀ hst hnone hcounts =>
      have heq : s'.pc f = s.pc f := hdead (by rcases hpc₀ with h | h <;> simp [Live, h])
      exact .fresh (heq ▸ hpc₀) (hstate.trans hst) (fun c hw => hnone c (hback c hw)) hcounts
  | registering c hev hpc₀ honly hbody =>
      have hc : s'.pc c = s.pc c := hsame c (by rcases hpc₀ with h | ⟨h, -⟩ <;> simp [WaitsOn, h])
      refine .registering c hev (by rw [hc, hcont]; exact hpc₀)
        (fun c' hw => honly c' (hback c' hw)) ?_
      rw [hstate]
      rcases hbody with ⟨hl, hrest⟩ | ⟨hfin, hrest⟩
      · exact Or.inl ⟨hlive hl, hrest⟩
      · exact Or.inr ⟨(hdead (by simp [Live, hfin])).trans hfin, hrest⟩
  | waiting c hev hpc₀ hcont₀ honly hl hst hcounts =>
      exact .waiting c hev ((hsame c (Or.inr (Or.inr hpc₀))).trans hpc₀) (hcont.trans hcont₀)
        (fun c' hw => honly c' (hback c' hw)) (hlive hl) (hstate.trans hst) hcounts
  | closed hpc₀ hst hnone hcounts =>
      have heq : s'.pc f = s.pc f := hdead (by simp [Live, hpc₀])
      exact .closed (heq.trans hpc₀) (hstate.trans hst) (fun c hw => hnone c (hback c hw)) hcounts

/-- The frame rule for one coroutine that moves. -/
theorem Handshake.move {tr : List Event} {s s' : State V E L} {f c : Fid} {p : Pc}
    (hH : Handshake tr s f) (hpc : s'.pc = Function.update s.pc c p)
    (hfrom : ¬ WaitsOn f (s.pc c)) (hto : ¬ WaitsOn f p)
    (hself : f = c → Live (s.pc c) ∧ Live p) (hstate : s'.mState f = s.mState f)
    (hcont : s'.mContinuation f = s.mContinuation f) : Handshake tr s' f := by
  refine hH.frame ?_ ?_ hstate hcont
  · intro c'
    rw [hpc]
    by_cases h : c' = c
    · subst h
      rw [Function.update_self]
      exact Or.inr ⟨hfrom, hto⟩
    · exact Or.inl (Function.update_of_ne h ..)
  · rw [hpc]
    by_cases h : f = c
    · subst h
      rw [Function.update_self]
      exact Or.inr (hself rfl)
    · exact Or.inl (Function.update_of_ne h ..)

/-- An event that takes part in no exchange of `f` leaves the counts. -/
theorem Handshake.aside {tr : List Event} {s : State V E L} {f : Fid} {e : Event}
    (hH : Handshake tr s f) (he : Aside f e) : Handshake (tr ++ [e]) s f := by
  have hmem : ∀ {c}, (∃ t, Event.awaitSuspend t c f ∈ tr) →
      ∃ t, Event.awaitSuspend t c f ∈ tr ++ [e] :=
    fun ⟨t, ht⟩ => ⟨t, List.mem_append_left _ ht⟩
  cases hH with
  | fresh hpc hst hnone hcounts =>
      exact .fresh hpc hst hnone ((counts_aside he).trans hcounts)
  | registering c hev hpc honly hbody =>
      exact .registering c (hmem hev) hpc honly (by rw [counts_aside he]; exact hbody)
  | waiting c hev hpc hcont honly hl hst hcounts =>
      exact .waiting c (hmem hev) hpc hcont honly hl hst ((counts_aside he).trans hcounts)
  | closed hpc hst hnone hcounts =>
      exact .closed hpc hst hnone ((counts_aside he).trans hcounts)

/-! ## The edges -/

/-- Who awaits `f` after `c` has moved. -/
theorem only_update {g : Fid → Pc} {f c d : Fid} {p : Pc}
    (honly : ∀ c', WaitsOn f (g c') → c' = d) (hp : WaitsOn f p → c = d) :
    ∀ c', WaitsOn f (Function.update g c p c') → c' = d := by
  intro c' hw
  rcases update_cases (WaitsOn f) hw with ⟨rfl, hnew⟩ | ⟨-, hw⟩
  · exact hp hnew
  · exact honly c' hw

/-- Nobody awaits `f` once its only awaiter has moved on. -/
theorem none_update {g : Fid → Pc} {f c : Fid} {p : Pc}
    (honly : ∀ c', WaitsOn f (g c') → c' = c) (hp : ¬ WaitsOn f p) :
    ∀ c', ¬ WaitsOn f (Function.update g c p c') := by
  intro c' hw
  rcases update_cases (WaitsOn f) hw with ⟨-, hw⟩ | ⟨hne, hw⟩
  · exact hp hw
  · exact hne (honly c' hw)

theorem live_update {g : Fid → Pc} {f c : Fid} {p : Pc} (hp : Live p) (hf : Live (g f)) :
    Live (Function.update g c p f) := by
  by_cases h : f = c
  · subst h
    rwa [Function.update_self]
  · rwa [Function.update_of_ne h]

section Edges

variable {tr : List Event} {s : State V E L} {t : Tid} {c f : Fid}

/-- A body that has not been started is awaited by nobody. -/
theorem Handshake.of_fresh (hH : Handshake tr s f)
    (hpc : s.pc f = .unborn ∨ s.pc f = .created) :
    s.mState f = false ∧ (∀ c, ¬ WaitsOn f (s.pc c)) ∧ counts f tr = ⟨0, 0, 0, 0⟩ := by
  have hdead : ¬ Live (s.pc f) := by rcases hpc with h | h <;> simp [Live, h]
  have hfin : s.pc f ≠ .finished := by rcases hpc with h | h <;> simp [h]
  cases hH with
  | fresh _ hst hnone hcounts => exact ⟨hst, hnone, hcounts⟩
  | registering _ _ _ _ hbody =>
      rcases hbody with ⟨hl, -⟩ | ⟨h, -⟩
      · exact absurd hl hdead
      · exact absurd h hfin
  | waiting _ _ _ _ _ hl => exact absurd hl hdead
  | closed h => exact absurd h hfin

/-- Inside `await_suspend` of `f`: the future is registering this awaiter. -/
theorem Handshake.of_registering (hH : Handshake tr s f)
    (hpc : s.pc c = .resuming f ∨ s.pc c = .stored f) :
    (∃ t, .awaitSuspend t c f ∈ tr) ∧ (∀ c', WaitsOn f (s.pc c') → c' = c) ∧
      (s.pc c = .stored f → s.mContinuation f = some c) ∧
      ((Live (s.pc f) ∧ s.mState f = false ∧ counts f tr = ⟨1, 0, 0, 0⟩) ∨
        (s.pc f = .finished ∧ s.mState f = true ∧ counts f tr = ⟨1, 0, 1, 0⟩)) := by
  have hw : WaitsOn f (s.pc c) := hpc.imp_right Or.inl
  cases hH with
  | fresh _ _ hnone => exact absurd hw (hnone c)
  | registering d hev hd honly hbody =>
      obtain rfl := honly c hw
      refine ⟨hev, honly, ?_, hbody⟩
      intro hst
      rcases hd with h | ⟨-, h⟩
      · exact nomatch hst.symm.trans h
      · exact h
  | waiting d _ hd _ honly =>
      obtain rfl := honly c hw
      rw [hd] at hpc
      exact nomatch hpc
  | closed _ _ hnone => exact absurd hw (hnone c)

/-- In `final_awaiter` of `f`, when the other exchange has been done: the handle to
    resume is there and its coroutine is suspended. -/
theorem Handshake.of_final (hH : Handshake tr s f) (hpc : s.pc f = .finalSuspend)
    (hsecond : s.mState f = true) :
    ∃ c, s.mContinuation f = some c ∧ s.pc c = .suspended f := by
  cases hH with
  | fresh _ hst => exact nomatch hsecond.symm.trans hst
  | registering _ _ _ _ hbody =>
      rcases hbody with ⟨-, hst, -⟩ | ⟨hfin, -⟩
      · exact nomatch hsecond.symm.trans hst
      · exact nomatch hpc.symm.trans hfin
  | waiting c _ hc hcont => exact ⟨c, hcont, hc⟩
  | closed hfin => exact nomatch hpc.symm.trans hfin

/-- What a suspended coroutine waits for has been started and has not ended. -/
theorem Handshake.of_suspended (hH : Handshake tr s f) (hpc : s.pc c = .suspended f) :
    Live (s.pc f) := by
  have hw : WaitsOn f (s.pc c) := Or.inr (Or.inr hpc)
  cases hH with
  | fresh _ _ hnone => exact absurd hw (hnone c)
  | registering d _ hd honly =>
      obtain rfl := honly c hw
      simp [hpc] at hd
  | waiting _ _ _ _ _ hlive => exact hlive
  | closed _ _ hnone => exact absurd hw (hnone c)

/-- Who waits for `f` has started it. -/
theorem Handshake.awaiter (hH : Handshake tr s f) (hw : WaitsOn f (s.pc c)) :
    ∃ t, .awaitSuspend t c f ∈ tr := by
  cases hH with
  | fresh _ _ hnone => exact absurd hw (hnone c)
  | registering d hev _ honly => exact honly c hw ▸ hev
  | waiting d hev _ _ honly => exact honly c hw ▸ hev
  | closed _ _ hnone => exact absurd hw (hnone c)

/-- A new frame is fresh. -/
theorem Handshake.create (hH : Handshake tr s f) (hpc : s.pc f = .unborn)
    (k k' : Code V E L) : Handshake tr (setCode (newFrame s f k) c k') f := by
  obtain ⟨-, hnone, hcounts⟩ := hH.of_fresh (Or.inl hpc)
  exact .fresh (Or.inr (Function.update_self ..)) (Function.update_self ..)
    (none_update (fun c' hw => absurd hw (hnone c')) (by simp [WaitsOn])) hcounts

/-- `fresh → registering`: the first await starts the body. -/
theorem Handshake.awaitSuspend (hH : Handshake tr s f) (hfresh : s.pc f = .created)
    (hc : s.pc c = .running) :
    Handshake (tr ++ [.awaitSuspend t c f])
      (pushStack (setPc (setPc s c (.resuming f)) f .running) t f) f := by
  have hne : c ≠ f := ne_of_pc hc hfresh (by simp)
  obtain ⟨hst, hnone, hcounts⟩ := hH.of_fresh (Or.inr hfresh)
  refine .registering c ⟨t, by simp⟩ (Or.inl ?_) ?_ (Or.inl ⟨?_, hst, ?_⟩)
  · show Function.update (Function.update s.pc c (.resuming f)) f .running c = .resuming f
    rw [Function.update_of_ne hne, Function.update_self]
  · refine only_update (only_update ?_ (fun _ => rfl)) (by simp [WaitsOn])
    exact fun c' hw => absurd hw (hnone c')
  · show Live (Function.update (Function.update s.pc c (.resuming f)) f .running f)
    simp [Live]
  · rw [counts_snoc, hcounts]
    simp [isStart, isSet, isFinal, isContinue]

/-- `m_continuation` is written before the exchange. -/
theorem Handshake.storeContinuation (hH : Handshake tr s f) (hpc : s.pc c = .resuming f) :
    Handshake (tr ++ [.storeContinuation t c f])
      { setPc s c (.stored f) with
        mContinuation := Function.update s.mContinuation f (some c) } f := by
  have haside : Aside f (.storeContinuation t c f) := ⟨rfl, rfl, rfl, rfl⟩
  obtain ⟨⟨u, hu⟩, honly, -, hbody⟩ := hH.of_registering (Or.inl hpc)
  refine .registering c ⟨u, List.mem_append_left _ hu⟩
    (Or.inr ⟨Function.update_self .., Function.update_self ..⟩)
    (only_update honly (fun _ => rfl)) ?_
  rw [counts_aside haside]
  rcases hbody with ⟨hl, hrest⟩ | ⟨hfin, hrest⟩
  · exact Or.inl ⟨live_update (by simp [Live]) hl, hrest⟩
  · refine Or.inr ⟨?_, hrest⟩
    have hne : f ≠ c := ne_of_pc hfin hpc (by simp)
    exact (Function.update_of_ne hne ..).trans hfin

/-- `registering → waiting`: `set_continuation` comes first. -/
theorem Handshake.setFirst (hH : Handshake tr s f) (hpc : s.pc c = .stored f)
    (hfirst : s.mState f = false) :
    Handshake (tr ++ [.setFirst t c f])
      (popStack (setPc (exchange s f) c (.suspended f)) t) f := by
  obtain ⟨⟨u, hu⟩, honly, hcont, hbody⟩ := hH.of_registering (Or.inr hpc)
  rcases hbody with ⟨hl, -, hcounts⟩ | ⟨-, hst, -⟩
  · refine .waiting c ⟨u, List.mem_append_left _ hu⟩ (Function.update_self ..) (hcont hpc)
      (only_update honly (fun _ => rfl)) (live_update (by simp [Live]) hl)
      (Function.update_self ..) ?_
    rw [counts_snoc, hcounts]
    simp [isStart, isSet, isFinal, isContinue]
  · exact nomatch hfirst.symm.trans hst

/-- `registering → closed`: it comes second, the body has ended. -/
theorem Handshake.setSecond (hH : Handshake tr s f) (hpc : s.pc c = .stored f)
    (hsecond : s.mState f = true) (r : Except E V) :
    Handshake (tr ++ [.setSecond t c f]) (continueWith (exchange s f) c r) f := by
  obtain ⟨-, honly, -, hbody⟩ := hH.of_registering (Or.inr hpc)
  rcases hbody with ⟨-, hst, -⟩ | ⟨hfin, -, hcounts⟩
  · exact nomatch hsecond.symm.trans hst
  · have hne : f ≠ c := ne_of_pc hfin hpc (by simp)
    refine .closed ((Function.update_of_ne hne ..).trans hfin) (Function.update_self ..)
      (none_update honly (by simp [WaitsOn])) ?_
    rw [counts_snoc, hcounts]
    simp [isStart, isSet, isFinal, isContinue]

/-- The body ends while its awaiter is registering. -/
theorem Handshake.finalFirst (hH : Handshake tr s f) (hpc : s.pc f = .finalSuspend)
    (hfirst : s.mState f = false) :
    Handshake (tr ++ [.finalFirst t f])
      (popStack (setPc (exchange s f) f .finished) t) f := by
  cases hH with
  | fresh h => exact absurd h (by simp [hpc])
  | registering c hev hc honly hbody =>
      obtain ⟨u, hu⟩ := hev
      have hne : c ≠ f := fun h => by subst h; simp [hpc] at hc
      refine .registering c ⟨u, List.mem_append_left _ hu⟩ ?_
        (only_update honly (by simp [WaitsOn]))
        (Or.inr ⟨Function.update_self .., Function.update_self .., ?_⟩)
      · show Function.update s.pc f .finished c = .resuming f ∨
          (Function.update s.pc f .finished c = .stored f ∧ s.mContinuation f = some c)
        rwa [Function.update_of_ne hne]
      · rcases hbody with ⟨-, -, hcounts⟩ | ⟨hfin, -⟩
        · rw [counts_snoc, hcounts]
          simp [isStart, isSet, isFinal, isContinue]
        · exact nomatch hpc.symm.trans hfin
  | waiting _ _ _ _ _ _ hst => exact nomatch hfirst.symm.trans hst
  | closed hfin => exact nomatch hpc.symm.trans hfin

/-- `waiting → closed`: the body ends and resumes its awaiter. -/
theorem Handshake.finalResume (hH : Handshake tr s f) (hpc : s.pc f = .finalSuspend)
    (hsusp : s.pc c = .suspended f) (r : Except E V) :
    Handshake (tr ++ [.finalResume t f c])
      (pushStack (popStack (continueWith (setPc (exchange s f) f .finished) c r) t) t c) f := by
  have hw : WaitsOn f (s.pc c) := Or.inr (Or.inr hsusp)
  have hne : f ≠ c := ne_of_pc hpc hsusp (by simp)
  cases hH with
  | fresh _ _ hnone => exact absurd hw (hnone c)
  | registering d _ hd honly =>
      obtain rfl := honly c hw
      simp [hsusp] at hd
  | waiting d _ _ _ honly _ _ hcounts =>
      obtain rfl := honly c hw
      refine .closed ?_ (Function.update_self ..)
        (none_update (only_update honly (by simp [WaitsOn])) (by simp [WaitsOn])) ?_
      · show Function.update (Function.update s.pc f .finished) c .running f = .finished
        rw [Function.update_of_ne hne, Function.update_self]
      · rw [counts_snoc, hcounts]
        simp [isStart, isSet, isFinal, isContinue]
  | closed _ _ hnone => exact absurd hw (hnone c)

end Edges

/-! ## A whole run -/

/-- Every step of the program keeps the phases of all futures. -/
theorem handshake_step {tr : List Event} {s s' : State V E L} {e : Event} {f : Fid}
    (hnew : s.pc s.next = .unborn) (hf : ¬ P.IsEntry f) (hH : Handshake tr s f)
    (hs : step P out s e = some s') : Handshake (tr ++ [e]) s' f := by
  have hquiet : ∀ {e : Event}, Aside f e → Handshake (tr ++ [e]) s f := fun he => hH.aside he
  cases step_cases hs with
  | start t c _ hentry hpc =>
      have hne : f ≠ c := fun h => hf (h ▸ hentry)
      exact (hquiet ⟨rfl, rfl, rfl, rfl⟩).move rfl (by simp [WaitsOn, hpc])
        (by simp [WaitsOn]) (fun h => absurd h hne) rfl rfl
  | pureStep t c =>
      exact (hquiet ⟨rfl, rfl, rfl, rfl⟩).frame (fun _ => Or.inl rfl) (Or.inl rfl) rfl rfl
  | create t c n env child k =>
      by_cases hfn : f = s.next
      · subst hfn
        exact (hquiet ⟨rfl, rfl, rfl, rfl⟩).create hnew _ _
      · exact (hquiet ⟨rfl, rfl, rfl, rfl⟩).move rfl (by simp [WaitsOn, hnew])
          (by simp [WaitsOn]) (fun h => absurd h hfn)
          (Function.update_of_ne hfn ..) (Function.update_of_ne hfn ..)
  | leafReady t c n env l k h hcode htop hpc =>
      exact (hquiet ⟨rfl, rfl, rfl, rfl⟩).move rfl (by simp [WaitsOn, hpc])
        (by simp [WaitsOn]) (fun _ => by simp [Live, hpc]) rfl rfl
  | leafSuspend t c n env l k h hcode htop hpc =>
      exact (hquiet ⟨rfl, rfl, rfl, rfl⟩).move rfl (by simp [WaitsOn, hpc])
        (by simp [WaitsOn]) (fun _ => by simp [Live, hpc]) rfl rfl
  | leafResume t c n env l k h hcode huser hpc =>
      exact (hquiet ⟨rfl, rfl, rfl, rfl⟩).move rfl (by simp [WaitsOn, hpc])
        (by simp [WaitsOn]) (fun _ => by simp [Live, hpc]) rfl rfl
  | awaitReady t c g r hres htop hpc =>
      exact (hquiet ⟨rfl, rfl, rfl, rfl⟩).move rfl (by simp [WaitsOn, hpc])
        (by simp [WaitsOn]) (fun _ => by simp [Live, hpc]) rfl rfl
  | awaitSuspend t c g htop hpc hawait hfresh =>
      by_cases hfg : f = g
      · subst hfg
        exact hH.awaitSuspend hfresh hpc
      · -- two other frames move: the awaiter first, then the future it starts
        have hne : g ≠ c := ne_of_pc hfresh hpc (by simp)
        have hwait : ¬ WaitsOn f (.resuming g) := by simp [WaitsOn, Ne.symm hfg]
        have hmid : Handshake (tr ++ [.awaitSuspend t c g]) (setPc s c (.resuming g)) f := by
          refine (hquiet ⟨?_, rfl, rfl, rfl⟩).move rfl (by simp [WaitsOn, hpc]) hwait
            (fun _ => by simp [Live, hpc]) rfl rfl
          simp [isStart, Ne.symm hfg]
        exact hmid.move rfl (by simp [setPc, Function.update_of_ne hne, WaitsOn, hfresh])
          (by simp [WaitsOn]) (fun h => absurd h hfg) rfl rfl
  | storeContinuation t c g htop hpc =>
      by_cases hfg : f = g
      · subst hfg
        exact hH.storeContinuation hpc
      · exact (hquiet ⟨rfl, rfl, rfl, rfl⟩).move rfl (by simp [WaitsOn, hpc, Ne.symm hfg])
          (by simp [WaitsOn, Ne.symm hfg]) (fun _ => by simp [Live, hpc]) rfl
          (Function.update_of_ne hfg ..)
  | setFirst t c g htop hpc hfirst =>
      by_cases hfg : f = g
      · subst hfg
        exact hH.setFirst hpc hfirst
      · have haside : Aside f (.setFirst t c g) := by
          simp [Aside, isStart, isSet, isFinal, isContinue, Ne.symm hfg]
        exact (hquiet haside).move rfl (by simp [WaitsOn, hpc, Ne.symm hfg])
          (by simp [WaitsOn, Ne.symm hfg]) (fun _ => by simp [Live, hpc])
          (Function.update_of_ne hfg ..) rfl
  | setSecond t c g r hres htop hpc hsecond =>
      by_cases hfg : f = g
      · subst hfg
        exact hH.setSecond hpc hsecond r
      · have haside : Aside f (.setSecond t c g) := by
          simp [Aside, isStart, isSet, isFinal, isContinue, Ne.symm hfg]
        exact (hquiet haside).move rfl (by simp [WaitsOn, hpc, Ne.symm hfg])
          (by simp [WaitsOn]) (fun _ => by simp [Live, hpc])
          (Function.update_of_ne hfg ..) rfl
  | finish t c r hret htop hpc =>
      exact (hquiet ⟨rfl, rfl, rfl, rfl⟩).move rfl (by simp [WaitsOn, hpc])
        (by simp [WaitsOn]) (fun _ => by simp [Live, hpc]) rfl rfl
  | finishEntry t c r hret htop hpc hentry =>
      have hne : f ≠ c := fun h => hf (h ▸ hentry)
      exact (hquiet ⟨rfl, rfl, rfl, rfl⟩).move rfl (by simp [WaitsOn, hpc])
        (by simp [WaitsOn]) (fun h => absurd h hne) rfl rfl
  | finalFirst t g htop hpc hfirst =>
      by_cases hfg : f = g
      · subst hfg
        exact hH.finalFirst hpc hfirst
      · have haside : Aside f (.finalFirst t g) := by
          simp [Aside, isStart, isSet, isFinal, isContinue, Ne.symm hfg]
        exact (hquiet haside).move rfl (by simp [WaitsOn, hpc]) (by simp [WaitsOn])
          (fun h => absurd h hfg) (Function.update_of_ne hfg ..) rfl
  | finalResume t g c r hres htop hpc hsecond hcont hsusp =>
      by_cases hfg : f = g
      · subst hfg
        exact hH.finalResume hpc hsusp r
      · -- again two others: the future that ends, then the coroutine it continues
        have hne : c ≠ g := ne_of_pc hsusp hpc (by simp)
        have haside : Aside f (.finalResume t g c) := by
          simp [Aside, isStart, isSet, isFinal, isContinue, Ne.symm hfg]
        have hmid : Handshake (tr ++ [.finalResume t g c])
            (setPc (exchange s g) g .finished) f :=
          (hquiet haside).move rfl (by simp [WaitsOn, hpc]) (by simp [WaitsOn])
            (fun h => absurd h hfg) (Function.update_of_ne hfg ..) rfl
        exact hmid.move rfl
          (by simp [WaitsOn, Function.update_of_ne hne, hsusp, Ne.symm hfg])
          (by simp [WaitsOn])
          (fun _ => by simp [Live, Function.update_of_ne hne, hsusp]) rfl rfl

/-- **PHASES**: after every run, every future that a coroutine can hold is in one of
    its four phases. -/
theorem handshake_run {tr : List Event} {s : State V E L}
    (hr : run (futureMachine P out) tr = some s) {f : Fid} (hf : ¬ P.IsEntry f) :
    Handshake tr s f := by
  refine run_history (P := fun tr s => Handshake tr s f) ?_ ?_ tr s hr
  · refine .fresh (init_pc P out f) rfl (fun c => ?_) rfl
    rcases init_pc P out c with h | h <;> simp [WaitsOn, h]
  · intro tr s e s' hr' hH hs
    exact handshake_step (next_unborn hr') hf hH hs

/-! ## Starts and continuations of one future, over a whole run -/

/-- A `co_await` of `f`, whether it suspends or not. -/
def isAwait (f : Fid) : Event → Bool
  | .awaitReady _ _ g => g == f
  | .awaitSuspend _ _ g => g == f
  | _ => false

/-- The body of `f` has been started once if `f` was awaited, and otherwise never. -/
def StartedOnce (tr : List Event) (s : State V E L) (f : Fid) : Prop :=
  (counts f tr).starts = (tr.any (isAwait f)).toNat ∧
    ((counts f tr).starts = 0 → s.pc f = .unborn ∨ s.pc f = .created)

/-- The coroutine that suspended for `f`, and no other, is continued: once, by one of
    the two ways, and as soon as both exchanges are done. -/
def ContinuedOnce (tr : List Event) (s : State V E L) (f : Fid) : Prop :=
  (counts f tr).continues ≤ 1 ∧
    ((counts f tr).continues = 1 ↔ (counts f tr).sets = 1 ∧ (counts f tr).finals = 1) ∧
    ((counts f tr).finals = 1 ↔ s.pc f = .finished) ∧
    ∀ t c, .setSecond t c f ∈ tr ∨ .finalResume t f c ∈ tr → ∃ u, .awaitSuspend u c f ∈ tr

/-- Every event of a run happened in some state, after the events before it. -/
theorem mem_run {tr : List Event} {s : State V E L} {e : Event}
    (hr : run (futureMachine P out) tr = some s) (he : e ∈ tr) :
    ∃ pre t t', pre <+: tr ∧ run (futureMachine P out) pre = some t ∧
      Step P out t e t' := by
  obtain ⟨pre, suf, rfl⟩ := List.append_of_mem he
  have hp : pre ++ [e] <+: pre ++ e :: suf := ⟨suf, by simp⟩
  obtain ⟨t, t', ht, hs⟩ := run_at hr hp
  exact ⟨pre, t, t', List.prefix_append .., ht, step_cases hs⟩

theorem Handshake.starts_le {tr : List Event} {s : State V E L} {f : Fid}
    (hH : Handshake tr s f) : (counts f tr).starts ≤ 1 := by
  cases hH with
  | fresh _ _ _ hcounts => simp [hcounts]
  | registering _ _ _ _ hbody => rcases hbody with ⟨-, -, h⟩ | ⟨-, -, h⟩ <;> simp [h]
  | waiting _ _ _ _ _ _ _ hcounts => simp [hcounts]
  | closed _ _ _ hcounts => simp [hcounts]

/-- A body that was never started has not run. -/
theorem Handshake.of_starts_zero {tr : List Event} {s : State V E L} {f : Fid}
    (hH : Handshake tr s f) (h : (counts f tr).starts = 0) :
    s.pc f = .unborn ∨ s.pc f = .created := by
  cases hH with
  | fresh hpc => exact hpc
  | registering _ _ _ _ hbody => rcases hbody with ⟨-, -, hc⟩ | ⟨-, -, hc⟩ <;> simp [hc] at h
  | waiting _ _ _ _ _ _ _ hcounts => simp [hcounts] at h
  | closed _ _ _ hcounts => simp [hcounts] at h

/-- An await either starts the body or finds it done. -/
theorem starts_pos_of_await {tr : List Event} {s : State V E L}
    (hr : run (futureMachine P out) tr = some s) {f : Fid} (hf : ¬ P.IsEntry f) {e : Event}
    (he : e ∈ tr) (hawait : isAwait f e = true) : 0 < (counts f tr).starts := by
  obtain ⟨pre, u, u', hp, hu, hstep⟩ := mem_run hr he
  have hmono : (counts f pre).starts ≤ (counts f tr).starts := hp.sublist.countP_le
  cases hstep with
  | awaitReady t c g r hres htop hpc ha hdone =>
      obtain rfl : g = f := beq_iff_eq.mp hawait
      refine Nat.lt_of_lt_of_le (Nat.pos_of_ne_zero fun h0 => ?_) hmono
      have hnot : (u.pc g).done = false := by
        rcases (handshake_run hu hf).of_starts_zero h0 with h | h <;> rw [h] <;> rfl
      exact nomatch hdone.symm.trans hnot
  | awaitSuspend t c g => exact List.countP_pos_iff.mpr ⟨_, he, hawait⟩
  | _ => exact nomatch hawait

theorem started_once {tr : List Event} {s : State V E L}
    (hr : run (futureMachine P out) tr = some s) {f : Fid} (hf : ¬ P.IsEntry f) :
    StartedOnce tr s f := by
  have hH := handshake_run hr hf
  refine ⟨?_, hH.of_starts_zero⟩
  have hle := hH.starts_le
  cases hany : tr.any (isAwait f) with
  | true =>
      obtain ⟨e, he, hawait⟩ := List.any_eq_true.mp hany
      have := starts_pos_of_await hr hf he hawait
      show _ = 1
      omega
  | false =>
      refine List.countP_eq_zero.mpr fun e he hstart => ?_
      refine List.any_eq_false.mp hany e he ?_
      cases e with
      | awaitSuspend => exact hstart
      | _ => exact nomatch hstart

theorem continued_once {tr : List Event} {s : State V E L}
    (hr : run (futureMachine P out) tr = some s) {f : Fid} (hf : ¬ P.IsEntry f) :
    ContinuedOnce tr s f := by
  have hwho : ∀ t c, .setSecond t c f ∈ tr ∨ .finalResume t f c ∈ tr →
      ∃ u, .awaitSuspend u c f ∈ tr := by
    rintro t c (he | he)
    · obtain ⟨pre, u, u', hp, hu, hstep⟩ := mem_run hr he
      cases hstep with
      | setSecond _ _ _ r hres htop hpc =>
          obtain ⟨⟨w, hw⟩, -⟩ := (handshake_run hu hf).of_registering (Or.inr hpc)
          exact ⟨w, hp.subset hw⟩
    · obtain ⟨pre, u, u', hp, hu, hstep⟩ := mem_run hr he
      cases hstep with
      | finalResume _ _ _ r hres htop hpc hsecond hcont hsusp =>
          obtain ⟨w, hw⟩ := (handshake_run hu hf).awaiter (Or.inr (Or.inr hsusp))
          exact ⟨w, hp.subset hw⟩
  cases handshake_run hr hf with
  | fresh hpc _ _ hc =>
      have hne : s.pc f ≠ .finished := by rcases hpc with h | h <;> simp [h]
      exact ⟨by simp [hc], by simp [hc], by simp [hc, hne], hwho⟩
  | registering c hev hpc honly hbody =>
      rcases hbody with ⟨hl, -, hc⟩ | ⟨hfin, -, hc⟩
      · exact ⟨by simp [hc], by simp [hc], by simp [hc, hl.2.2], hwho⟩
      · exact ⟨by simp [hc], by simp [hc], by simp [hc, hfin], hwho⟩
  | waiting c hev hpc hcont honly hl hst hc =>
      exact ⟨by simp [hc], by simp [hc], by simp [hc, hl.2.2], hwho⟩
  | closed hpc hst hnone hc => exact ⟨by simp [hc], by simp [hc], by simp [hc, hpc], hwho⟩

end CoioHandshake
