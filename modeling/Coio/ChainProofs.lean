import Coio.ProgressProofs

/-! # A program with one future runs one coroutine at a time

    With one future at the top there is one `oneway_task`.  What it has started
    and what those have started in turn is a CHAIN: each waits for the one above
    it, and only the one at the head can do anything but finish its own
    `await_suspend`.  The chain is known from the events alone: an await that
    starts a body puts it on top, a body that ends is taken off.

    So no two coroutines of such a program await one unfinished future: what the
    head awaits is in its scope, and scopes cannot run in a circle. -/

namespace CoioChain

open CoioMachine CoioCoroutine CoioFuture CoioHandshake CoioFrame CoioRefinement
open CoioProgress

variable {V E L : Type} {P : Program V E L} {out : L → Except E V}

/-! ## The chain of a run -/

/-- Each waits for the one before it; the last is a `oneway_task`. -/
def Linked (P : Program V E L) (s : State V E L) : List Fid → Prop
  | [] => True
  | [c] => P.IsEntry c
  | f :: c :: cs => WaitsOn f (s.pc c) ∧ Linked P s (c :: cs)

/-- The chain holds the coroutines that have been started and have not ended, and its
    head waits for nobody in it. -/
structure Chain (P : Program V E L) (s : State V E L) (ch : List Fid) : Prop where
  linked : Linked P s ch
  live : ∀ c ∈ ch, Live (s.pc c)
  all : ∀ c, Live (s.pc c) → c ∈ ch
  free : ∀ f, ch.head? = some f → ∀ g, WaitsOn g (s.pc f) → s.pc g = .finished

theorem live_of_waits {f : Fid} {p : Pc} (h : WaitsOn f p) : Live p := by
  rcases h with rfl | rfl | rfl <;> simp [Live]

theorem waits_unique {f g : Fid} {p : Pc} (hf : WaitsOn f p) (hg : WaitsOn g p) : f = g := by
  rcases hf with rfl | rfl | rfl <;> simpa [WaitsOn] using hg

theorem linked_congr {s s' : State V E L} : ∀ {ch : List Fid},
    (∀ c ∈ ch.tail, ∀ g, WaitsOn g (s.pc c) → WaitsOn g (s'.pc c)) → Linked P s ch →
      Linked P s' ch
  | [], _, _ => trivial
  | [_], _, h => h
  | _ :: c :: _, hpc, ⟨hw, h⟩ =>
      ⟨hpc c (List.mem_cons_self ..) _ hw,
        linked_congr (fun d hd => hpc d (List.mem_cons_of_mem c hd)) h⟩

/-- All but the head wait for one in the chain. -/
theorem waits_of_mem_tail {s : State V E L} : ∀ {f : Fid} {cs : List Fid} {c : Fid},
    Linked P s (f :: cs) → c ∈ cs → ∃ g ∈ f :: cs, WaitsOn g (s.pc c)
  | f, d :: cs, c, ⟨hw, h⟩, hc => by
      rcases List.mem_cons.mp hc with rfl | hc
      · exact ⟨f, List.mem_cons_self .., hw⟩
      · obtain ⟨g, hg, hgc⟩ := waits_of_mem_tail h hc
        exact ⟨g, List.mem_cons_of_mem f hg, hgc⟩

section Head

variable {s s' : State V E L} {ch cs : List Fid} {c f : Fid} {p : Pc}

/-- **THE HEAD ACTS**: a coroutine that was started and waits for nobody alive. -/
theorem Chain.head (h : Chain P s ch) (hlive : Live (s.pc c))
    (hfree : ∀ g, WaitsOn g (s.pc c) → s.pc g = .finished) :
    ∃ cs, ch = c :: cs ∧ c ∉ cs := by
  obtain ⟨f, cs, rfl⟩ := List.exists_cons_of_ne_nil (List.ne_nil_of_mem (h.all c hlive))
  have hnot : c ∉ cs := by
    intro hc
    obtain ⟨g, hg, hw⟩ := waits_of_mem_tail h.linked hc
    exact (h.live g hg).2.2 (hfree g hw)
  rcases List.mem_cons.mp (h.all c hlive) with rfl | hc
  · exact ⟨cs, rfl, hnot⟩
  · exact absurd hc hnot

/-- User code, a leaf operation and `final_awaiter` wait for nobody at all. -/
theorem Chain.head_of_pc (h : Chain P s ch)
    (hpc : s.pc c = .running ∨ s.pc c = .atLeaf ∨ s.pc c = .finalSuspend) :
    ∃ cs, ch = c :: cs ∧ c ∉ cs := by
  have hlive : Live (s.pc c) := by rcases hpc with h | h | h <;> simp [Live, h]
  refine h.head hlive fun g hw => ?_
  rcases hpc with h | h | h <;> simp [WaitsOn, h] at hw

/-- Nobody in the chain has moved. -/
theorem Chain.same (h : Chain P s ch) (hpc : ∀ c ∈ ch, s'.pc c = s.pc c)
    (hlive : ∀ c, Live (s'.pc c) → Live (s.pc c))
    (hfin : ∀ g, s.pc g = .finished → s'.pc g = .finished) : Chain P s' ch := by
  refine ⟨linked_congr (fun c hc g hw => ?_) h.linked, fun c hc => ?_,
    fun c hc => h.all c (hlive c hc), fun f hf g hw => ?_⟩
  · rw [hpc c (List.mem_of_mem_tail hc)]
    exact hw
  · rw [hpc c hc]
    exact h.live c hc
  · rw [hpc f (List.mem_of_head? hf)] at hw
    exact hfin g (h.free f hf g hw)

/-- One that is alive moves on: the head, or another that goes on waiting for the
    same one. -/
theorem Chain.move (h : Chain P s ch) (hpc : s'.pc = Function.update s.pc c p)
    (hfrom : Live (s.pc c)) (hto : Live p)
    (hwait : ∀ g, WaitsOn g (s.pc c) → WaitsOn g p ∨ s.pc g = .finished)
    (hfree : ∀ g, WaitsOn g p → WaitsOn g (s.pc c)) : Chain P s' ch := by
  have hsame : ∀ d, d ≠ c → s'.pc d = s.pc d := fun d hd => by
    rw [hpc, Function.update_of_ne hd]
  have hself : s'.pc c = p := by rw [hpc, Function.update_self]
  have hfin : ∀ g, s.pc g = .finished → s'.pc g = .finished := by
    intro g hg
    rw [hsame g (fun hgc => hfrom.2.2 (hgc ▸ hg)), hg]
  refine ⟨linked_congr (fun d hd g hw => ?_) h.linked, fun d hd => ?_, fun d hd => ?_,
    fun f hf g hw => ?_⟩
  · by_cases hdc : d = c
    · subst hdc
      rw [hself]
      refine (hwait g hw).resolve_right fun hg => ?_
      -- not at the head, so what it waits for is alive
      obtain ⟨f, cs, rfl⟩ := List.exists_cons_of_ne_nil (List.ne_nil_of_mem (h.all d hfrom))
      obtain ⟨g', hg', hw'⟩ := waits_of_mem_tail h.linked hd
      obtain rfl := waits_unique hw hw'
      exact (h.live g hg').2.2 hg
    · rw [hsame d hdc]
      exact hw
  · by_cases hdc : d = c
    · subst hdc
      rwa [hself]
    · rw [hsame d hdc]
      exact h.live d hd
  · by_cases hdc : d = c
    · subst hdc
      exact h.all d hfrom
    · rw [hsame d hdc] at hd
      exact h.all d hd
  · by_cases hfc : f = c
    · subst hfc
      rw [hself] at hw
      exact hfin g (h.free f hf g (hfree g hw))
    · rw [hsame f hfc] at hw
      exact hfin g (h.free f hf g hw)

/-- The head starts the body of what it awaits. -/
theorem Chain.push (h : Chain P s (c :: cs)) (hc : c ∉ cs) (hf : s.pc f = .created)
    (hpc : s'.pc = Function.update (Function.update s.pc c (.resuming f)) f .running) :
    Chain P s' (f :: c :: cs) := by
  have hdead : ¬ Live (s.pc f) := by simp [Live, hf]
  have hne : c ≠ f := fun hcf => hdead (hcf ▸ h.live c (List.mem_cons_self ..))
  have hself : s'.pc c = .resuming f := by
    rw [hpc, Function.update_of_ne hne, Function.update_self]
  have hrest : ∀ d, d ≠ c → d ≠ f → s'.pc d = s.pc d := fun d hdc hdf => by
    rw [hpc, Function.update_of_ne hdf, Function.update_of_ne hdc]
  have htail : ∀ d ∈ cs, s'.pc d = s.pc d := fun d hd =>
    hrest d (fun hdc => hc (hdc ▸ hd))
      (fun hdf => hdead (hdf ▸ h.live d (List.mem_cons_of_mem c hd)))
  have hstart : s'.pc f = .running := by rw [hpc, Function.update_self]
  refine ⟨⟨by simp [WaitsOn, hself], linked_congr (fun d hd g hw => ?_) h.linked⟩,
    fun d hd => ?_, fun d hd => ?_, fun g hg g' hw => ?_⟩
  · rw [htail d hd]
    exact hw
  · rcases List.mem_cons.mp hd with rfl | hd
    · simp [Live, hstart]
    · rcases List.mem_cons.mp hd with rfl | hd
      · simp [Live, hself]
      · rw [htail d hd]
        exact h.live d (List.mem_cons_of_mem c hd)
  · by_cases hdf : d = f
    · exact hdf ▸ List.mem_cons_self ..
    · by_cases hdc : d = c
      · exact List.mem_cons_of_mem f (hdc ▸ List.mem_cons_self ..)
      · rw [hrest d hdc hdf] at hd
        exact List.mem_cons_of_mem f (h.all d hd)
  · obtain rfl : f = g := Option.some.inj hg
    simp [WaitsOn, hstart] at hw

/-- The head ends. -/
theorem Chain.pop (h : Chain P s (f :: c :: cs)) (hf : f ∉ c :: cs)
    (hpc : s'.pc = Function.update s.pc f .finished) : Chain P s' (c :: cs) := by
  have hself : s'.pc f = .finished := by rw [hpc, Function.update_self]
  have hrest : ∀ d, d ≠ f → s'.pc d = s.pc d := fun d hd => by
    rw [hpc, Function.update_of_ne hd]
  have htail : ∀ d ∈ c :: cs, s'.pc d = s.pc d := fun d hd =>
    hrest d (fun hdf => hf (hdf ▸ hd))
  refine ⟨linked_congr (fun d hd g hw => ?_) h.linked.2, fun d hd => ?_, fun d hd => ?_,
    fun g hg g' hw => ?_⟩
  · rw [htail d (List.mem_of_mem_tail hd)]
    exact hw
  · rw [htail d hd]
    exact h.live d (List.mem_cons_of_mem f hd)
  · by_cases hdf : d = f
    · subst hdf
      exact absurd hself hd.2.2
    · rw [hrest d hdf] at hd
      exact List.mem_of_ne_of_mem hdf (h.all d hd)
  · obtain rfl : c = g := Option.some.inj hg
    rw [htail c (List.mem_cons_self ..)] at hw
    obtain rfl := waits_unique h.linked.1 hw
    exact hself

end Head

section Run

variable {tr : List Event} {s s' : State V E L} {ch : List Fid} {e : Event}

/-- A future in `final_awaiter` has an awaiter behind it in the chain. -/
theorem Chain.behind (h : Chain P s ch) (hr : run (futureMachine P out) tr = some s) {f : Fid}
    (hpc : s.pc f = .finalSuspend) : ∃ c cs, ch = f :: c :: cs ∧ f ∉ c :: cs := by
  obtain ⟨cs, rfl, hf⟩ := h.head_of_pc (Or.inr (Or.inr hpc))
  cases cs with
  | nil => exact absurd hpc ((frameInv_run hr f).entry h.linked)
  | cons c cs => exact ⟨c, cs, rfl, hf⟩

end Run

/-! ## Scopes do not run in a circle -/

def InScope (k : Code V E L) (f : Fid) : Prop := ∃ i, k.env i = f

end CoioChain
