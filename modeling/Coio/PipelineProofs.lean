import Coio.TraceProofs
import Coio.TerminationProofs

/-! # Pipelines of `fmap` and `flat_map`

    `a | fmap(f)` is an awaitable of its own: it suspends as `a` does, and its
    `await_resume` calls `f`, in the coroutine that awaits it.  `a | flat_map(g)`
    calls the coroutine `flat_map_impl`, which owns `a`: when it is started it
    awaits `a`, calls `g`, awaits what `g` returns and returns that.  Building a
    pipeline starts nothing.

    `construct` builds the objects of a pipeline and hands over the last one,
    `coAwait` is `co_await` of an object; a coroutine that awaits a pipeline is
    then a body of the future machine, with everything that can happen there: a
    source completes at once or later, on any thread, before or after its awaiter
    has registered.

    What a stage refers to has to live until the stage is awaited.  `fmap` moves a
    temporary function into its object; `flat_map_impl` is a coroutine that keeps a
    reference to `g`, also when `g` is a temporary of the expression that builds the
    pipeline.  `Reach` says where a pipeline is awaited, `Origin` what holds a
    function, and a call of a function that is gone is `undefined`.  The laws hold
    of every pipeline in which what is called is alive (`Alive`), and fail of one
    that is stored, or returned by a stage, before it is awaited. -/

namespace CoioPipeline

open CoioMachine CoioCoroutine CoioFuture CoioRefinement CoioProgress CoioTermination
open CoioChain CoioTrace

variable {V E L : Type}

/-! ## The syntax -/

/-- Where a pipeline is awaited, seen from the expression that builds it. -/
inductive Reach where
  /-- in that expression -/
  | inExpression
  /-- later in the same block: it has been stored in a variable -/
  | inBlock
  /-- by the caller of the function that has built it and returned it -/
  | returned
  deriving DecidableEq

/-- Behind `auto a = p;` the expression of `p` is over. -/
def Reach.stored : Reach → Reach
  | .inExpression => .inBlock
  | .inBlock => .inBlock
  | .returned => .returned

/-- What holds a function, or an lvalue, that a pipeline refers to. -/
inductive Origin where
  /-- a temporary of the expression -/
  | temporary
  /-- a variable of the block -/
  | scoped
  /-- something that outlives the block -/
  | outer
  deriving DecidableEq

/-- Is it still there when the pipeline is awaited? -/
def Origin.lives : Origin → Reach → Bool
  | .temporary, .inExpression => true
  | .temporary, _ => false
  | .scoped, .returned => false
  | .scoped, _ => true
  | .outer, _ => true

/-- The same for a function of `fmap`, which moves a temporary into its object. -/
def Origin.livesInFmap : Origin → Reach → Bool
  | .temporary, _ => true
  | o, r => o.lives r

/-- What a pipeline starts with.  No value is `void`. -/
inductive Source (V E L : Type) where
  | just (v : Option V)
  /-- a coroutine is called -/
  | future (body : Body (Option V) E L 0)
  /-- an lvalue that has been awaited before -/
  | completed (body : Body (Option V) E L 0) (o : Origin)
  /-- the expression throws -/
  | throwing (e : E)

inductive Pipe (V E L : Type) where
  | source (a : Source V E L)
  | fmap (p : Pipe V E L) (f : Option V → Except E (Option V)) (o : Origin)
  /-- where `g` throws, the pipeline it would have returned starts with `throwing` -/
  | flatMap (p : Pipe V E L) (g : Option V → Pipe V E L) (o : Origin)
  /-- `auto a = p;` and then `std::move(a)`, or the lvalue `a` -/
  | stored (p : Pipe V E L) (moved : Bool)
  /-- the value of a function that builds `p` and returns it -/
  | returned (p : Pipe V E L)

/-- The number of stages. -/
def Pipe.length : Pipe V E L → Nat
  | .source _ => 0
  | .fmap p _ _ => p.length + 1
  | .flatMap p _ _ => p.length + 1
  | .stored p _ => p.length
  | .returned p => p.length

/-- Whether the expression of the pipeline throws. -/
def Pipe.raises : Pipe V E L → Option E
  | .source (.throwing e) => some e
  | .source _ => none
  | .fmap p _ _ => p.raises
  | .flatMap p _ _ => p.raises
  | .stored p _ => p.raises
  | .returned p => p.raises

/-! ## The objects -/

/-- What a coroutine does: a leaf operation of a source, or the call of a stage, known
    by its place.  Stage `i` of the pipeline is `[i]`; stage `j` of the pipeline that
    it returned is `[i, j]`.  A call is over at once; the machine also lets it take its
    time, which adds runs and leaves none out. -/
inductive Op (V E L : Type) where
  | leaf (l : L)
  | call (stage : List Nat) (arg : Option V) (result : Except E (Option V))
  /-- something that is gone is called or awaited -/
  | undefined (arg : Option V)

/-- The outcomes of the leaf operations, and of what is undefined: any. -/
structure Outcomes (V E L : Type) where
  leaf : L → Except E (Option V)
  undefined : Option V → Except E (Option V)

def Op.outcome (out : Outcomes V E L) : Op V E L → Except E (Option V)
  | .leaf l => out.leaf l
  | .call _ _ r => r
  | .undefined x => out.undefined x

/-- The calls of stages count. -/
def Op.mark : Op V E L → List (List Nat × Option V)
  | .leaf _ => []
  | .call stage x _ => [(stage, x)]
  | .undefined _ => []

/-- The call of a stage; a function that is gone is `none`. -/
def callOf (stage : List Nat) (fn : Option (Option V → Except E (Option V))) (x : Option V) :
    Op V E L :=
  match fn with
  | some f => .call stage x (f x)
  | none => .undefined x

/-- An awaitable object, the futures found by their place in scope. -/
inductive Awaitable (V E : Type) (n : Nat) where
  | just (v : Option V)
  | future (i : Fin n)
  | fmapAwaitable (awaitable : Awaitable V E n) (stage : List Nat)
      (continuation : Option (Option V → Except E (Option V)))
  /-- a reference to an object that is gone -/
  | dangling

/-- `co_await`, going on with `k` or with the exception in `h`. -/
def Awaitable.coAwait {n : Nat} : Awaitable V E n → (Option V → Body (Option V) E (Op V E L) n) →
    (E → Body (Option V) E (Op V E L) n) → Body (Option V) E (Op V E L) n
  | .just v, k, _ => k v
  | .future i, k, h => .awaitFuture i k h
  | .fmapAwaitable a stage fn, k, h =>
      a.coAwait (fun x => .awaitLeaf (callOf stage fn x) k h) h
  | .dangling, k, h => .awaitLeaf (.undefined none) k h

/-- `co_return co_await fn(co_await awaitable)`, where `fn` is a reference: `called` is what
    the call comes to, or `none` if the function is gone. -/
def flatMapImpl {n : Nat} (a : Awaitable V E n) (stage : List Nat)
    (called : Option (Option V → Except E (Option V)))
    (rest : Option V → Body (Option V) E (Op V E L) n) : Body (Option V) E (Op V E L) n :=
  a.coAwait (fun x => .awaitLeaf (callOf stage called x)
    (fun v => if called.isSome then rest x else .coReturn v) .throwEx) .throwEx

/-- What the call of a `flat_map` stage comes to, before anything is awaited. -/
def Pipe.called (p : Pipe V E L) : Except E (Option V) :=
  match p.raises with
  | some e => .error e
  | none => .ok none

/-- A source future, called in a scope of `n` futures. -/
def sourceBody (n : Nat) (b : Body (Option V) E L 0) : Body (Option V) E (Op V E L) n :=
  relabel .leaf (fun i => i.elim0) b

/-- What is referred to, if it is still there. -/
def ifAlive {α : Type} (alive : Bool) (a : α) : Option α := if alive then some a else none

/-- The objects are built from left to right; the last one goes to `k`, which awaits it where
    `r` says.  What a stage of `flat_map` returns is built inside the call of `g`. -/
def Pipe.construct : Pipe V E L → (r : Reach) → (path : List Nat) → (n : Nat) →
    ((m : Nat) → Awaitable V E m → Body (Option V) E (Op V E L) m) → Body (Option V) E (Op V E L) n
  | .source (.just v), _, _, n, k => k n (.just v)
  | .source (.future b), _, _, n, k =>
      .create (sourceBody n b) (k (n + 1) (.future (Fin.last n)))
  | .source (.completed b o), r, _, n, k =>
      .create (sourceBody n b) (.awaitFuture (Fin.last n)
        (fun _ => k (n + 1) (if o.lives r then .future (Fin.last n) else .dangling))
        (fun _ => k (n + 1) (if o.lives r then .future (Fin.last n) else .dangling)))
  | .source (.throwing e), _, _, _, _ => .throwEx e
  | .fmap p f o, r, path, n, k =>
      p.construct r path n fun m a =>
        k m (.fmapAwaitable a (path ++ [p.length]) (ifAlive (o.livesInFmap r) f))
  | .flatMap p g o, r, path, n, k =>
      p.construct r path n fun m a =>
        .create
          (flatMapImpl a (path ++ [p.length]) (ifAlive (o.lives r) fun x => (g x).called) fun x =>
            (g x).construct .returned (path ++ [p.length]) m fun _ b =>
              b.coAwait .coReturn .throwEx)
          (k (m + 1) (.future (Fin.last m)))
  | .stored p moved, r, path, n, k =>
      p.construct r.stored path n fun m a =>
        k m (if moved || Origin.lives .scoped r then a else .dangling)
  | .returned p, _, path, n, k => p.construct .returned path n k

/-- One coroutine: `co_return co_await p`. -/
def awaiting (p : Pipe V E L) : Program (Option V) E (Op V E L) where
  count := 1
  body
    | 0 => p.construct .inExpression [] 0 fun _ a => a.coAwait .coReturn .throwEx
    | _ + 1 => .coReturn none

/-! ## The meaning -/

def Source.result (out : Outcomes V E L) : Source V E L → Except E (Option V)
  | .just v => .ok v
  | .future b => eval out.leaf b (fun i => i.elim0)
  | .completed b _ => eval out.leaf b (fun i => i.elim0)
  | .throwing e => .error e

/-- The outcome that awaiting a pipeline should have. -/
def Pipe.meaning (out : Outcomes V E L) : Pipe V E L → Except E (Option V)
  | .source a => a.result out
  | .fmap p f _ => (p.meaning out).bind f
  | .flatMap p g _ => (p.meaning out).bind fun x => (g x).meaning out
  | .stored p _ => p.meaning out
  | .returned p => p.meaning out

/-- The calls of stages that awaiting a pipeline should make, in order. -/
def Pipe.calls (out : Outcomes V E L) : Pipe V E L → (path : List Nat) →
    List (List Nat × Option V)
  | .source _, _ => []
  | .fmap p _ _, path =>
      p.calls out path ++
        pick (p.meaning out) (fun x => [(path ++ [p.length], x)]) (fun _ => [])
  | .flatMap p g _, path =>
      p.calls out path ++
        pick (p.meaning out)
          (fun x => (path ++ [p.length], x) :: (g x).calls out (path ++ [p.length]))
          (fun _ => [])
  | .stored p _, path => p.calls out path
  | .returned p, path => p.calls out path

section Objects

variable {n : Nat} {out : Outcomes V E L}
variable {ρ : Fin n → Except E (Option V)} {τ : Fin n → List (List Nat × Option V)}

def Awaitable.value (out : Outcomes V E L) (ρ : Fin n → Except E (Option V)) :
    Awaitable V E n → Except E (Option V)
  | .just v => .ok v
  | .future i => ρ i
  | .fmapAwaitable a stage fn => (a.value out ρ).bind fun x => (callOf stage fn x).outcome out
  | .dangling => out.undefined none

def Awaitable.calls (out : Outcomes V E L) (ρ : Fin n → Except E (Option V))
    (τ : Fin n → List (List Nat × Option V)) : Awaitable V E n → List (List Nat × Option V)
  | .just _ => []
  | .future i => τ i
  | .fmapAwaitable a stage fn => a.calls out ρ τ ++
      pick (a.value out ρ) (fun x => (callOf stage fn x : Op V E L).mark) (fun _ => [])
  | .dangling => []

/-- The future that is awaited with the object. -/
def Awaitable.hot : Awaitable V E n → Option (Fin n)
  | .just _ => none
  | .future i => some i
  | .fmapAwaitable a _ _ => a.hot
  | .dangling => none

variable {h : E → Body (Option V) E (Op V E L) n}

end Objects

/-! ## Building a pipeline -/

section Sources

variable {out : Outcomes V E L} {n : Nat}

end Sources

section Stages

variable {out : Outcomes V E L} {m : Nat} {ρ : Fin m → Except E (Option V)}
variable {τ : Fin m → List (List Nat × Option V)} {q : Pipe V E L} {path : List Nat}

variable {a : Awaitable V E m} {p : Pipe V E L} {g : Option V → Pipe V E L} {alive : Bool}

end Stages

inductive Stage (V E L : Type) where
  | fmap (f : Option V → Except E (Option V))
  | flatMap (g : Option V → Pipe V E L)

/-- What a stage makes of a value: call `f`, or call `g` and await what it returns. -/
def Stage.apply (out : Outcomes V E L) : Stage V E L → Option V → Except E (Option V)
  | .fmap f, x => f x
  | .flatMap g, x => (g x).meaning out

def Pipe.start : Pipe V E L → Source V E L
  | .source a => a
  | .fmap p _ _ => p.start
  | .flatMap p _ _ => p.start
  | .stored p _ => p.start
  | .returned p => p.start

end CoioPipeline
