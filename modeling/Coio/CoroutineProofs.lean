import Mathlib.Data.Fin.Tuple.Basic

/-! # Coroutine bodies and their direct-style meaning

    A coroutine body is a finite tree of pure steps, awaits and a final
    `co_return` or `throw`.  It sees the futures in its scope by position: those
    its creator saw when it was created, and then those it creates itself.  An
    await has two continuations, one for a value and one for an exception, so a
    `try`/`catch` around it is the second one, and no `try` is `throwEx`.

    `eval` is the direct-style meaning: an await IS the outcome of what is
    awaited, as if it were a call.  Nothing is suspended, started or resumed.  It
    takes the outcome of each leaf operation from an oracle and the outcomes of
    the futures in scope from an environment.

    `cost` bounds the steps a body can take on the way to its end. -/

namespace CoioCoroutine

variable {V E L : Type}

inductive Body (V E L : Type) : Nat → Type where
  | coReturn {n : Nat} (v : V) : Body V E L n
  | throwEx {n : Nat} (e : E) : Body V E L n
  | pureStep {n : Nat} (k : Body V E L n) : Body V E L n
  /-- `co_await` of a leaf operation -/
  | awaitLeaf {n : Nat} (l : L) (k : V → Body V E L n) (h : E → Body V E L n) :
      Body V E L n
  /-- a call of a coroutine: the future is in scope in the rest -/
  | create {n : Nat} (child : Body V E L n) (k : Body V E L (n + 1)) : Body V E L n
  /-- `co_await` of a future in scope -/
  | awaitFuture {n : Nat} (i : Fin n) (k : V → Body V E L n) (h : E → Body V E L n) :
      Body V E L n

/-- How an await goes on with the outcome of what it awaited. -/
def pick {α : Type} (r : Except E V) (k : V → α) (h : E → α) : α :=
  match r with
  | .ok v => k v
  | .error e => h e

/-- The outcomes of the futures in scope, with one more. -/
def push {α : Type} {n : Nat} (ρ : Fin n → α) (x : α) : Fin (n + 1) → α :=
  @Fin.snoc n (fun _ => α) ρ x

theorem comp_push {α β : Type} {n : Nat} (g : α → β) (ρ : Fin n → α) (x : α) :
    g ∘ push ρ x = push (g ∘ ρ) (g x) :=
  Fin.comp_snoc g ρ x

@[simp] theorem push_last {α : Type} {n : Nat} (ρ : Fin n → α) (x : α) :
    push ρ x (Fin.last n) = x :=
  Fin.snoc_last ..

@[simp] theorem push_castSucc {α : Type} {n : Nat} (ρ : Fin n → α) (x : α) (i : Fin n) :
    push ρ x i.castSucc = ρ i :=
  Fin.snoc_castSucc ..

/-- Every entry of an extended scope is the new one or an old one. -/
theorem push_cases {α : Type} {n : Nat} (ρ : Fin n → α) (x : α) (i : Fin (n + 1)) :
    push ρ x i = x ∨ ∃ j, push ρ x i = ρ j := by
  cases i using Fin.lastCases with
  | last => exact Or.inl (push_last ρ x)
  | cast j => exact Or.inr ⟨j, push_castSucc ρ x j⟩

/-- **DIRECT STYLE**: the outcome of a body. -/
def eval (out : L → Except E V) : {n : Nat} → Body V E L n → (Fin n → Except E V) →
    Except E V
  | _, .coReturn v, _ => .ok v
  | _, .throwEx e, _ => .error e
  | _, .pureStep k, ρ => eval out k ρ
  | _, .awaitLeaf l k h, ρ => pick (out l) (fun v => eval out (k v) ρ) (fun e => eval out (h e) ρ)
  | _, .create child k, ρ => eval out k (push ρ (eval out child ρ))
  | _, .awaitFuture i k h, ρ => pick (ρ i) (fun v => eval out (k v) ρ) (fun e => eval out (h e) ρ)

/-- A bound on the steps of a body and of the futures it creates. -/
def cost (out : L → Except E V) : {n : Nat} → Body V E L n → (Fin n → Except E V) → Nat
  | _, .coReturn _, _ => 2
  | _, .throwEx _, _ => 2
  | _, .pureStep k, ρ => cost out k ρ + 1
  | _, .awaitLeaf l k h, ρ =>
      pick (out l) (fun v => cost out (k v) ρ) (fun e => cost out (h e) ρ) + 2
  | _, .create child k, ρ =>
      cost out child ρ + cost out k (push ρ (eval out child ρ)) + 1
  | _, .awaitFuture i k h, ρ =>
      pick (ρ i) (fun v => cost out (k v) ρ) (fun e => cost out (h e) ρ) + 3

/-- The body after its await has given the outcome `r`. -/
def afterAwait {n : Nat} (r : Except E V) : Body V E L n → Body V E L n
  | .awaitLeaf _ k h => pick r k h
  | .awaitFuture _ k h => pick r k h
  | b => b

theorem pick_map {α β : Type} (g : α → β) (r : Except E V) (k : V → α) (h : E → α) :
    g (pick r k h) = pick r (fun v => g (k v)) (fun e => g (h e)) := by
  cases r <;> rfl

variable {out : L → Except E V} {n : Nat} {ρ : Fin n → Except E V}

theorem eval_afterLeaf (l : L) (k : V → Body V E L n) (h : E → Body V E L n) :
    eval out (afterAwait (out l) (.awaitLeaf l k h)) ρ = eval out (.awaitLeaf l k h) ρ :=
  pick_map (fun b => eval out b ρ) (out l) k h

theorem eval_afterFuture (i : Fin n) (k : V → Body V E L n) (h : E → Body V E L n) :
    eval out (afterAwait (ρ i) (.awaitFuture i k h)) ρ
      = eval out (.awaitFuture i k h) ρ :=
  pick_map (fun b => eval out b ρ) (ρ i) k h

theorem cost_afterLeaf (l : L) (k : V → Body V E L n) (h : E → Body V E L n) :
    cost out (afterAwait (out l) (.awaitLeaf l k h)) ρ + 2
      = cost out (.awaitLeaf l k h) ρ :=
  congrArg (· + 2) (pick_map (fun b => cost out b ρ) (out l) k h)

theorem cost_afterFuture (i : Fin n) (k : V → Body V E L n) (h : E → Body V E L n) :
    cost out (afterAwait (ρ i) (.awaitFuture i k h)) ρ + 3
      = cost out (.awaitFuture i k h) ρ :=
  congrArg (· + 3) (pick_map (fun b => cost out b ρ) (ρ i) k h)

/-! ## A body in another scope -/

/-- The body with its leaf operations named by `φ` and its futures found by `σ`. -/
def relabel {L' : Type} (φ : L → L') : {m n : Nat} → (Fin m → Fin n) → Body V E L m →
    Body V E L' n
  | _, _, _, .coReturn v => .coReturn v
  | _, _, _, .throwEx e => .throwEx e
  | _, _, σ, .pureStep k => .pureStep (relabel φ σ k)
  | _, _, σ, .awaitLeaf l k h =>
      .awaitLeaf (φ l) (fun v => relabel φ σ (k v)) (fun e => relabel φ σ (h e))
  | _, n, σ, .create child k =>
      .create (relabel φ σ child) (relabel φ (push (Fin.castSucc ∘ σ) (Fin.last n)) k)
  | _, _, σ, .awaitFuture i k h =>
      .awaitFuture (σ i) (fun v => relabel φ σ (k v)) (fun e => relabel φ σ (h e))

end CoioCoroutine
