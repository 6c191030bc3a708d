import Coio.StreamLimitProofs
import Mathlib.Logic.Function.Basic

/-! # Copies of `stream_buffer` — six pointers and a vector that are copied apart

    The four copy and move operations are defaulted: the base class copies the six
    pointers as they are, and the vector copies its elements into storage of its own
    or hands its storage over.  A pointer is a block of storage and an offset; each
    vector has one block.  Pointers into different blocks cannot be compared or
    subtracted, and a block that has been given back cannot be read: both are
    `undefined`.

    A move hands the block over together with the pointers into it, so the target is
    the buffer the source was.  A copy points into the block of the SOURCE, while its
    own block lies idle.  An object that is moved onto itself gives its block away and
    keeps nothing.

    An object whose pointers all lie in its own block is a `StreamBuffer`, and its
    operations are the ones of that model (`attemptAt_spec`).  So a program that makes
    no copies, and moves no object onto itself, keeps every buffer in its own block,
    and nothing that is done with one buffer is seen in another.  Every other program
    breaks this at once. -/

namespace CoioStreamCopy

open CoioMachine CoioStreamBuffer CoioStreamLimit

/-! ## Pointers and blocks -/

structure Ptr where
  block : Nat
  off : Nat
  deriving DecidableEq

inductive Fault where
  | undefined
  | thrown
  deriving DecidableEq

/-- `p - q`. -/
def Ptr.minus (p q : Ptr) : Except Fault Int :=
  if p.block = q.block then pure ((p.off : Int) - q.off) else .error .undefined

/-- `p < q`. -/
def Ptr.less (p q : Ptr) : Except Fault Bool :=
  if p.block = q.block then pure (decide (signed p.off < signed q.off)) else .error .undefined

/-- A pointer moved by an `int`. -/
def Ptr.bump (p : Ptr) (n : Int) : Ptr := { p with off := CoioStreamBuffer.bump p.off n }

/-- The storage of a vector: its elements, and how many it has room for. -/
structure Block where
  bytes : List UInt8
  capacity : Nat
  deriving DecidableEq

structure Heap where
  block : Nat → Option Block
  next : Nat

def Heap.set (h : Heap) (k : Nat) (v : Block) : Heap :=
  { h with block := Function.update h.block k (some v) }

def Heap.alloc (h : Heap) (v : Block) : Heap × Nat :=
  ({ block := Function.update h.block h.next (some v), next := h.next + 1 }, h.next)

/-- A vector that has no storage has nothing to give back. -/
def Heap.free (h : Heap) : Option Nat → Heap
  | none => h
  | some k => { h with block := Function.update h.block k none }

def Heap.read (h : Heap) (p : Ptr) : Except Fault UInt8 :=
  match (h.block p.block).bind (·.bytes[p.off]?) with
  | some c => pure c
  | none => .error .undefined

def Heap.write (h : Heap) (p : Ptr) (bs : List UInt8) : Except Fault Heap :=
  match h.block p.block with
  | some v =>
      if p.off + bs.length ≤ v.bytes.length then
        pure (h.set p.block { v with bytes := overlay v.bytes p.off bs })
      else .error .undefined
  | none => .error .undefined

/-! ## The vector -/

/-- The block of a vector, and what it is; none for a vector without storage. -/
def Heap.storage (h : Heap) (m : Option Nat) : Option (Nat × Block) :=
  m.bind fun k => (h.block k).map fun v => (k, v)

def Heap.elements (h : Heap) (m : Option Nat) : List UInt8 :=
  (h.storage m).elim [] fun kv => kv.2.bytes

/-- `resize`: in place up to the capacity, otherwise in a new block. -/
def Heap.resize (h : Heap) (m : Option Nat) (n : Nat) : Except Fault (Heap × Nat) :=
  if maxSize < n then .error .thrown
  else
    match h.storage m with
    | some (k, v) =>
        if n ≤ v.capacity then
          pure (h.set k { v with bytes := CoioStreamBuffer.resize v.bytes n }, k)
        else
          pure ((h.free m).alloc
            { bytes := CoioStreamBuffer.resize v.bytes n
              capacity := min maxSize (max (2 * v.bytes.length) n) })
    | none => pure (h.alloc { bytes := CoioStreamBuffer.resize [] n, capacity := n })

/-- The copy constructor of the vector. -/
def Heap.copyVector (h : Heap) (m : Option Nat) : Heap × Nat :=
  h.alloc { bytes := h.elements m, capacity := (h.elements m).length }

/-- The copy assignment of the vector `t` from the vector `m`. -/
def Heap.assignVector (h : Heap) (t m : Option Nat) : Heap × Nat :=
  match h.storage t with
  | some (k, v) =>
      if (h.elements m).length ≤ v.capacity then (h.set k { v with bytes := h.elements m }, k)
      else
        (h.free t).alloc { bytes := h.elements m, capacity := (h.elements m).length }
  | none => h.copyVector m

/-! ## One object -/

structure Object where
  eback : Ptr
  gptr : Ptr
  egptr : Ptr
  pbase : Ptr
  pptr : Ptr
  epptr : Ptr
  /-- the block of the vector; none once it has been handed over -/
  mBuf : Option Nat
  deriving DecidableEq

def Object.pointers (o : Object) : List Ptr :=
  [o.eback, o.gptr, o.egptr, o.pbase, o.pptr, o.epptr]

/-- The constructor, once `m_buf(128)` has its block. -/
def Object.new (k : Nat) : Object :=
  { eback := ⟨k, 0⟩, gptr := ⟨k, 0⟩, egptr := ⟨k, 0⟩, pbase := ⟨k, 0⟩, pptr := ⟨k, 0⟩,
    epptr := ⟨k, 128⟩, mBuf := some k }

def Object.setg (o : Object) (eback gptr egptr : Ptr) : Object :=
  { o with eback := eback, gptr := gptr, egptr := egptr }

def Object.setp (o : Object) (pbase epptr : Ptr) : Object :=
  { o with pbase := pbase, pptr := pbase, epptr := epptr }

def Object.pbump (o : Object) (n : Int) : Object := { o with pptr := o.pptr.bump n }

def Object.gbump (o : Object) (n : Int) : Object := { o with gptr := o.gptr.bump n }

def Object.commit (o : Object) (n : Nat) : Except Fault Object := do
  let room ← o.epptr.minus o.pptr
  let o' := o.pbump (toInt (min n (toSize room)))
  pure (o'.setg o'.eback o'.gptr o'.pptr)

def Object.consume (o : Object) (n : Nat) : Except Fault Object := do
  let lags ← o.egptr.less o.pptr
  let o' := if lags then o.setg o.eback o.gptr o.pptr else o
  let size ← o'.egptr.minus o'.gptr
  pure (o'.gbump (toInt (min n (toSize size))))

/-- `p - m_buf.data()`. -/
def Object.position (o : Object) (p : Ptr) : Except Fault Nat :=
  if o.mBuf = some p.block then pure p.off else .error .undefined

/-- The second half of `reserve`, where the room is not enough. -/
def Object.grow (o : Object) (h : Heap) (n : Nat) : Except Fault (Heap × Object) := do
  let getCurPos ← o.position o.gptr
  let putCurPos ← o.position o.pptr
  let putEndPos := (putCurPos + n) % 2 ^ 64
  let (h', k) ← h.resize o.mBuf putEndPos
  let o' := { o with mBuf := some k }.setg ⟨k, 0⟩ ⟨k, getCurPos⟩ ⟨k, putCurPos⟩
  pure (h', o'.setp ⟨k, putCurPos⟩ ⟨k, putEndPos⟩)

def Object.reserve (o : Object) (h : Heap) (n : Nat) : Except Fault (Heap × Object) := do
  let room ← o.epptr.minus o.pptr
  if n ≤ toSize room then pure (h, o) else o.grow h n

/-- `*(p + i) = ...`, for the bytes of a list. -/
def Object.writeSpan (o : Object) (h : Heap) (i : Nat) (bs : List UInt8) :
    Except Fault (Heap × Object) := do
  let h' ← h.write { o.pptr with off := o.pptr.off + i } bs
  pure (h', o)

/-- `*pptr() = c; pbump(1)`. -/
def Object.putChar (o : Object) (h : Heap) (c : UInt8) : Except Fault (Heap × Object) := do
  let h' ← h.write o.pptr [c]
  pure (h', o.pbump 1)

def Object.overflow (o : Object) (h : Heap) : Option UInt8 → Except Fault (Heap × Object)
  | none => pure (h, o)
  | some c => do
      let (h', o') ← o.reserve h 64
      o'.putChar h' c

def Object.sputc (o : Object) (h : Heap) (c : UInt8) : Except Fault (Heap × Object) := do
  let room ← o.pptr.less o.epptr
  if room then o.putChar h c else o.overflow h (some c)

/-- The character that is found, if there is one. -/
def Object.underflow (o : Object) (h : Heap) : Except Fault (Option UInt8 × Object) := do
  let found ← o.gptr.less o.pptr
  if found then do
    let c ← h.read o.gptr
    pure (some c, o.setg o.eback o.gptr o.pptr)
  else pure (none, o)

def Object.sbumpc (o : Object) (h : Heap) : Except Fault Object := do
  let inside ← o.gptr.less o.egptr
  if inside then do
    let _ ← h.read o.gptr
    pure (o.gbump 1)
  else do
    let (c, o') ← o.underflow h
    pure (if c.isSome then o'.gbump 1 else o')

/-- One operation on an object; the readers change nothing. -/
def Object.exec (o : Object) (h : Heap) : Op → Except Fault (Heap × Object)
  | .prepare n i bs => do
      let (h', o') ← o.reserve h n
      o'.writeSpan h' i bs
  | .commit n => do pure (h, ← o.commit n)
  | .consume n => do pure (h, ← o.consume n)
  | .reserve n => o.reserve h n
  | .sputc c => o.sputc h c
  | .overflow c => o.overflow h c
  | .sbumpc => do pure (h, ← o.sbumpc h)
  | .underflow => do pure (h, (← o.underflow h).2)
  | .data | .size | .tryGetData _ => pure (h, o)

/-- The object after a call; an exception leaves it as it was, and nothing is known of
    what is undefined. -/
def attemptAt (h : Heap) (o : Object) (op : Op) : Option (Heap × Object) :=
  match o.exec h op with
  | .ok r => some r
  | .error .thrown => some (h, o)
  | .error .undefined => none

/-- `data()`. -/
def Heap.data (h : Heap) (o : Object) : Option (List UInt8) :=
  if o.pptr.block = o.gptr.block then
    (h.block o.gptr.block).map fun v =>
      (v.bytes.drop o.gptr.off).take (toSize ((o.pptr.off : Int) - o.gptr.off))
  else none

/-! ## An object in its own block -/

/-- The object that is the buffer `b` in block `k`. -/
def placed (k : Nat) (b : StreamBuffer) : Object :=
  { eback := ⟨k, b.eback⟩, gptr := ⟨k, b.gptr⟩, egptr := ⟨k, b.egptr⟩, pbase := ⟨k, b.pbase⟩,
    pptr := ⟨k, b.pptr⟩, epptr := ⟨k, b.epptr⟩, mBuf := some k }

/-- Block `k` is the storage of `b`. -/
def Stores (h : Heap) (k : Nat) (b : StreamBuffer) : Prop :=
  ∃ capacity, h.block k = some ⟨b.mBuf, capacity⟩

/-- The buffer in block `k` has changed, and may have moved to a new block; no other block
    has been touched. -/
structure Frame (h : Heap) (k : Nat) (h' : Heap) (k' : Nat) : Prop where
  other : ∀ m, m ≠ k → m ≠ k' → h'.block m = h.block m
  place : k' = k ∨ k' = h.next
  next_le : h.next ≤ h'.next
  lt_next : k' < h'.next

section Placed

variable {h h' : Heap} {k k' n : Nat} {b b' : StreamBuffer}

theorem Frame.refl (hk : k < h.next) : Frame h k h k :=
  ⟨fun _ _ _ => rfl, .inl rfl, Nat.le_refl _, hk⟩

theorem Frame.set (hf : Frame h k h' k') (v : Block) : Frame h k (h'.set k' v) k' := by
  refine ⟨fun m hm hm' => ?_, hf.place, hf.next_le, hf.lt_next⟩
  exact (Function.update_of_ne hm' _ _).trans (hf.other m hm hm')

theorem Frame.realloc (h : Heap) (k : Nat) (v : Block) :
    Frame h k ((h.free (some k)).alloc v).1 h.next := by
  refine ⟨fun m hm hm' => ?_, .inr rfl, Nat.le_succ _, Nat.lt_succ_self _⟩
  exact (Function.update_of_ne hm' _ _).trans (Function.update_of_ne hm _ _)

theorem stores_set (h : Heap) (k : Nat) (b : StreamBuffer) (capacity : Nat) :
    Stores (h.set k ⟨b.mBuf, capacity⟩) k b :=
  ⟨capacity, Function.update_self ..⟩

/-- What an operation of the buffer becomes for the object that is placed in block `k`. -/
def Runs (h : Heap) (k : Nat) (r : Except Fault (Heap × Object)) : Option StreamBuffer → Prop
  | none => r = .error .thrown
  | some b' => ∃ h' k', r = pure (h', placed k' b') ∧ Stores h' k' b' ∧ Frame h k h' k'

/-- One operation after another. -/
theorem Runs.bind {r : Except Fault (Heap × Object)} {x : Option StreamBuffer}
    {f : Heap × Object → Except Fault (Heap × Object)} {g : StreamBuffer → StreamBuffer}
    (hr : Runs h k r x)
    (hf : ∀ h' k' b', x = some b' → Stores h' k' b' → Frame h k h' k' →
      Runs h k (f (h', placed k' b')) (some (g b'))) :
    Runs h k (r >>= f) (x.map g) := by
  cases x with
  | none =>
      obtain rfl : r = .error .thrown := hr
      exact rfl
  | some b' =>
      obtain ⟨h', k', rfl, hstores, hframe⟩ := hr
      rw [pure_bind]
      exact hf h' k' b' rfl hstores hframe

/-! Each pointer of a placed object is an offset into its block. -/

theorem minus_placed (k a b : Nat) : (⟨k, a⟩ : Ptr).minus ⟨k, b⟩ = pure ((a : Int) - b) :=
  if_pos rfl

theorem less_placed (k a b : Nat) :
    (⟨k, a⟩ : Ptr).less ⟨k, b⟩ = pure (decide (signed a < signed b)) :=
  if_pos rfl

theorem pbump_placed (k : Nat) (b : StreamBuffer) (x : Int) :
    (placed k b).pbump x = placed k (pbump b x) := rfl

theorem gbump_placed (k : Nat) (b : StreamBuffer) (x : Int) :
    (placed k b).gbump x = placed k (gbump b x) := rfl

theorem catchUp_placed (k : Nat) (b : StreamBuffer) :
    (placed k b).setg (placed k b).eback (placed k b).gptr (placed k b).pptr
      = placed k (setg b b.eback b.gptr b.pptr) := rfl

theorem commit_placed (k : Nat) (b : StreamBuffer) (n : Nat) :
    (placed k b).commit n = pure (placed k (commit b n)) := by
  have hroom : (placed k b).epptr.minus (placed k b).pptr = pure ((b.epptr : Int) - b.pptr) :=
    minus_placed ..
  unfold Object.commit commit
  rw [hroom, pure_bind]
  dsimp only
  rw [pbump_placed, catchUp_placed]

theorem consume_placed (k : Nat) (b : StreamBuffer) (n : Nat) :
    (placed k b).consume n = pure (placed k (consume b n)) := by
  have hless : (placed k b).egptr.less (placed k b).pptr
      = pure (decide (signed b.egptr < signed b.pptr)) :=
    less_placed ..
  have hcaught : (if decide (signed b.egptr < signed b.pptr) = true
        then (placed k b).setg (placed k b).eback (placed k b).gptr (placed k b).pptr
        else placed k b)
      = placed k (if signed b.egptr < signed b.pptr then setg b b.eback b.gptr b.pptr else b) := by
    simp only [decide_eq_true_eq, catchUp_placed]
    split <;> rfl
  unfold Object.consume consume
  rw [hless, pure_bind, hcaught]
  generalize (if signed b.egptr < signed b.pptr then setg b b.eback b.gptr b.pptr else b) = c
  have hsize : (placed k c).egptr.minus (placed k c).gptr = pure ((c.egptr : Int) - c.gptr) :=
    minus_placed ..
  dsimp only
  rw [hsize, pure_bind, gbump_placed]

/-- Storage that is long enough is changed in place, otherwise there is a new block. -/
theorem resize_runs {l : List UInt8} {capacity : Nat} (hk : h.block k = some ⟨l, capacity⟩)
    (hlt : k < h.next) (hn : n ≤ maxSize) :
    ∃ h' k' capacity', h.resize (some k) n = pure (h', k') ∧
      h'.block k' = some ⟨resize l n, capacity'⟩ ∧ Frame h k h' k' := by
  have hstorage : h.storage (some k) = some (k, ⟨l, capacity⟩) := by
    unfold Heap.storage
    rw [Option.bind_some, hk, Option.map_some]
  unfold Heap.resize
  rw [if_neg (Nat.not_lt.mpr hn), hstorage]
  dsimp only
  split
  · exact ⟨_, k, capacity, rfl, Function.update_self .., (Frame.refl hlt).set _⟩
  · exact ⟨_, _, _, rfl, Function.update_self .., Frame.realloc h k _⟩

theorem reserve_runs (hk : Stores h k b) (hlt : k < h.next) (n : Nat) :
    Runs h k ((placed k b).reserve h n) (reserve b n) := by
  obtain ⟨capacity, hblock⟩ := hk
  have hroom : (placed k b).epptr.minus (placed k b).pptr = pure ((b.epptr : Int) - b.pptr) :=
    minus_placed ..
  have hget : (placed k b).position (placed k b).gptr = pure b.gptr := if_pos rfl
  have hput : (placed k b).position (placed k b).pptr = pure b.pptr := if_pos rfl
  unfold Object.reserve reserve
  rw [hroom, pure_bind]
  by_cases henough : n ≤ toSize ((b.epptr : Int) - b.pptr)
  · rw [if_pos henough, if_pos henough]
    exact ⟨h, k, rfl, ⟨capacity, hblock⟩, Frame.refl hlt⟩
  · rw [if_neg henough, if_neg henough]
    unfold Object.grow
    rw [hget, pure_bind, hput, pure_bind]
    dsimp only
    generalize (b.pptr + n) % 2 ^ 64 = e
    by_cases hthrow : maxSize < e
    · have hresize : h.resize (placed k b).mBuf e = .error .thrown := if_pos hthrow
      rw [hresize, if_pos hthrow]
      exact rfl
    · obtain ⟨h', k', capacity', hresize, hblock', hframe⟩ :=
        resize_runs hblock hlt (Nat.le_of_not_lt hthrow)
      have hresize' : h.resize (placed k b).mBuf e = pure (h', k') := hresize
      rw [hresize', if_neg hthrow, pure_bind]
      exact ⟨h', k', rfl, ⟨capacity', hblock'⟩, hframe⟩

theorem writeSpan_runs (hk : Stores h' k' b') (hf : Frame h k h' k') (i : Nat) (bs : List UInt8)
    (hi : b'.pptr + i + bs.length ≤ b'.mBuf.length) :
    Runs h k ((placed k' b').writeSpan h' i bs) (some (writeSpan b' i bs)) := by
  obtain ⟨capacity, hblock⟩ := hk
  have hwrite : h'.write ⟨k', b'.pptr + i⟩ bs
      = pure (h'.set k' ⟨overlay b'.mBuf (b'.pptr + i) bs, capacity⟩) := by
    unfold Heap.write
    dsimp only
    rw [hblock]
    exact if_pos hi
  refine ⟨h'.set k' ⟨overlay b'.mBuf (b'.pptr + i) bs, capacity⟩, k', ?_,
    stores_set h' k' (writeSpan b' i bs) capacity, hf.set _⟩
  show (h'.write ⟨k', b'.pptr + i⟩ bs >>= _) = _
  rw [hwrite, pure_bind]
  rfl

theorem putChar_runs (hk : Stores h' k' b') (hf : Frame h k h' k') (c : UInt8)
    (hroom : b'.pptr < b'.mBuf.length) :
    Runs h k ((placed k' b').putChar h' c) (some (putChar b' c)) := by
  obtain ⟨h₂, k₂, hwrite, hstores, hframe⟩ := writeSpan_runs hk hf 0 [c] hroom
  refine ⟨h₂, k₂, ?_, hstores, hframe⟩
  have hput : (placed k' b').putChar h' c
      = (placed k' b').writeSpan h' 0 [c] >>= fun r => pure (r.1, r.2.pbump 1) := by
    unfold Object.putChar Object.writeSpan
    rw [bind_assoc]
    rfl
  rw [hput, hwrite, pure_bind]
  rfl

/-- In range, the room that was asked for lies in the storage. -/
theorem room_of_reserve (hb : Sized b) (hrange : n ≤ b.epptr - b.pptr ∨ b.pptr + n < 2 ^ 64)
    (hres : reserve b n = some b') : b'.pptr + n ≤ b'.mBuf.length := by
  rcases reserve_cases hb hrange with hnone | ⟨b'', hres', hb', hview⟩
  · rw [hnone] at hres
    cases hres
  · obtain rfl : b' = b'' := Option.some.inj (hres.symm.trans hres')
    have hroom := (view b).le_grow n
    rw [← hview, Ordered.length_room] at hroom
    have hle := hb'.pptr_le_length
    omega

theorem overflow_runs (hb : Sized b) (hk : Stores h k b) (hlt : k < h.next) (c : UInt8) :
    Runs h k ((placed k b).overflow h (some c)) ((overflow b (some c)).map Prod.snd) := by
  have hover : (overflow b (some c)).map Prod.snd = (reserve b 64).map (putChar · c) := by
    unfold overflow
    rw [Option.map_map]
    rfl
  rw [hover]
  refine (reserve_runs hk hlt 64).bind fun h' k' b' hres hk' hf => putChar_runs hk' hf c ?_
  have hle : b.pptr ≤ maxSize := hb.pptr_le.trans hb.epptr_le
  have hmax : maxSize < 2 ^ 63 := by decide
  have hroom := room_of_reserve hb (.inr (by omega)) hres
  omega

theorem read_placed (hk : Stores h k b) (hlt : b.gptr < b.mBuf.length) :
    h.read (placed k b).gptr = pure (peek b) := by
  obtain ⟨capacity, hblock⟩ := hk
  have hget : b.mBuf[b.gptr]? = some (peek b) := by
    unfold peek
    rw [List.getD_eq_getElem?_getD, List.getElem?_eq_getElem hlt]
    rfl
  unfold Heap.read
  have hbytes : (h.block (placed k b).gptr.block).bind (·.bytes[(placed k b).gptr.off]?)
      = some (peek b) := by
    show (h.block k).bind (·.bytes[b.gptr]?) = _
    rw [hblock]
    exact hget
  rw [hbytes]

theorem underflow_placed (hb : Sized b) (hk : Stores h k b) :
    (placed k b).underflow h = pure ((underflow b).1, placed k (underflow b).2) := by
  have hle := hb.pptr_le_length
  have hmax := hb.pptr_le_max hb.fits
  have hinside := signed_lt_iff (hb.gptr_le_pptr.trans hmax) hmax
  have hless : (placed k b).gptr.less (placed k b).pptr
      = pure (decide (signed b.gptr < signed b.pptr)) :=
    less_placed ..
  unfold Object.underflow underflow
  rw [hless, pure_bind]
  by_cases hfound : signed b.gptr < signed b.pptr
  · rw [if_pos (decide_eq_true hfound), if_pos hfound,
      read_placed hk (Nat.lt_of_lt_of_le (hinside.mp hfound) hle), pure_bind]
    rfl
  · rw [if_neg (fun hd => hfound (of_decide_eq_true hd)), if_neg hfound]

theorem sbumpc_placed (hb : Sized b) (hk : Stores h k b) :
    (placed k b).sbumpc h = pure (placed k (sbumpc b).2) := by
  have hle := hb.egptr_le.trans hb.pptr_le_length
  have hmax := hle.trans hb.fits
  have hinside := signed_lt_iff (hb.gptr_le.trans hmax) hmax
  have hless : (placed k b).gptr.less (placed k b).egptr
      = pure (decide (signed b.gptr < signed b.egptr)) :=
    less_placed ..
  unfold Object.sbumpc sbumpc
  rw [hless, pure_bind]
  by_cases hin : signed b.gptr < signed b.egptr
  · rw [if_pos (decide_eq_true hin), if_pos hin,
      read_placed hk (Nat.lt_of_lt_of_le (hinside.mp hin) hle), pure_bind]
    rfl
  · rw [if_neg (fun hd => hin (of_decide_eq_true hd)), if_neg hin, underflow_placed hb hk, pure_bind]
    obtain ⟨c, b'⟩ := underflow b
    cases c <;> rfl

theorem sputc_runs (hb : Sized b) (hk : Stores h k b) (hlt : k < h.next) (c : UInt8) :
    Runs h k ((placed k b).sputc h c) ((sputc b c).map Prod.snd) := by
  have hinside := signed_lt_iff (hb.pptr_le_max hb.fits) hb.epptr_le
  have hless : (placed k b).pptr.less (placed k b).epptr
      = pure (decide (signed b.pptr < signed b.epptr)) :=
    less_placed ..
  unfold Object.sputc sputc
  rw [hless, pure_bind]
  by_cases hroom : signed b.pptr < signed b.epptr
  · rw [if_pos (decide_eq_true hroom), if_pos hroom]
    exact putChar_runs hk (Frame.refl hlt) c (hb.epptr_eq ▸ hinside.mp hroom)
  · rw [if_neg (fun hd => hroom (of_decide_eq_true hd)), if_neg hroom]
    exact overflow_runs hb hk hlt c

/-- **ONE OPERATION OF AN OBJECT** whose pointers lie in its own block: the buffer's. -/
theorem exec_runs (hb : Sized b) (hk : Stores h k b) (hlt : k < h.next) {op : Op}
    (hv : op.Valid) (hrange : InRange b op) :
    Runs h k ((placed k b).exec h op) ((exec b op).map Prod.fst) := by
  have hstay : ∀ b', storage b' = storage b → Runs h k (pure (h, placed k b')) (some b') := by
    intro b' hsame
    have hbytes : b'.mBuf = b.mBuf := congrArg Prod.fst hsame
    refine ⟨h, k, rfl, ?_, Frame.refl hlt⟩
    unfold Stores
    rw [hbytes]
    exact hk
  unfold Object.exec exec
  cases op with
  | prepare n i bs =>
      dsimp only
      rw [Option.map_map]
      refine (reserve_runs hk hlt n).bind fun h' k' b' hres hk' hf => writeSpan_runs hk' hf i bs ?_
      have hroom := room_of_reserve hb hrange hres
      have hin : i + bs.length ≤ n := hv
      omega
  | commit n =>
      dsimp only
      rw [commit_placed, pure_bind]
      exact hstay _ (commit_storage b n)
  | consume n =>
      dsimp only
      rw [consume_placed, pure_bind]
      exact hstay _ (storage_of_putArea (consume_putArea b n))
  | reserve n =>
      dsimp only
      rw [Option.map_map]
      have hsame : (reserve b n).map (Prod.fst ∘ fun b' => (b', Answer.done)) = reserve b n :=
        Option.map_id'
      rw [hsame]
      exact reserve_runs hk hlt n
  | sputc c =>
      dsimp only
      rw [Option.map_map]
      exact sputc_runs hb hk hlt c
  | overflow c =>
      dsimp only
      rw [Option.map_map]
      cases c with
      | none => exact hstay b rfl
      | some c => exact overflow_runs hb hk hlt c
  | sbumpc =>
      dsimp only
      rw [sbumpc_placed hb hk, pure_bind]
      exact hstay _ (storage_of_putArea (sbumpc_putArea b))
  | underflow =>
      dsimp only
      rw [underflow_placed hb hk, pure_bind]
      exact hstay _ (storage_of_putArea (underflow_putArea b))
  | data => exact hstay b rfl
  | size => exact hstay b rfl
  | tryGetData n => exact hstay b rfl

theorem attemptAt_spec (hb : Sized b) (hk : Stores h k b) (hlt : k < h.next) {op : Op}
    (hv : op.Valid) (hrange : InRange b op) :
    ∃ h' k', attemptAt h (placed k b) op = some (h', placed k' (attempt b op)) ∧
      Stores h' k' (attempt b op) ∧ Frame h k h' k' := by
  have hruns := exec_runs hb hk hlt hv hrange
  unfold attemptAt attempt
  cases hexec : exec b op with
  | none =>
      rw [hexec] at hruns
      have hthrown : (placed k b).exec h op = .error .thrown := hruns
      rw [hthrown]
      exact ⟨h, k, rfl, hk, Frame.refl hlt⟩
  | some r =>
      rw [hexec] at hruns
      obtain ⟨h', k', hok, hstores, hframe⟩ := hruns
      rw [hok]
      exact ⟨h', k', rfl, hstores, hframe⟩

/-- What is read depends on the block that the pointers lie in, whatever the vector is. -/
theorem data_block (h : Heap) (k : Nat) (b : StreamBuffer) (m : Option Nat) :
    h.data { placed k b with mBuf := m }
      = (h.block k).map fun v =>
        (v.bytes.drop b.gptr).take (toSize ((b.pptr : Int) - b.gptr)) :=
  if_pos rfl

theorem data_placed (hk : Stores h k b) : h.data (placed k b) = some (data b) := by
  obtain ⟨capacity, hblock⟩ := hk
  have hdata := data_block h k b (some k)
  rw [hblock] at hdata
  exact hdata

theorem Stores.of_block (hk : Stores h k b) (hsame : h'.block k = h.block k) : Stores h' k b := by
  obtain ⟨capacity, hblock⟩ := hk
  exact ⟨capacity, hsame.trans hblock⟩

end Placed

/-! ## The buffers of a program -/

inductive Slot where
  | absent
  | live (o : Object)
  | movedFrom (o : Object)
  deriving DecidableEq

def Slot.object : Slot → Option Object
  | .absent => none
  | .live o => some o
  | .movedFrom o => some o

def Slot.source : Slot → Option Object
  | .live o => some o
  | .absent | .movedFrom _ => none

structure State where
  heap : Heap
  objects : Nat → Slot

inductive Event where
  | construct (i : Nat)
  /-- `stream_buffer i(j)` -/
  | copyConstruct (i j : Nat)
  /-- `i = j` -/
  | copyAssign (i j : Nat)
  /-- `stream_buffer i(std::move(j))` -/
  | moveConstruct (i j : Nat)
  /-- `i = std::move(j)` -/
  | moveAssign (i j : Nat)
  | destroy (i : Nat)
  | call (i : Nat) (op : Op)
  deriving DecidableEq

/-- Object `i` is now what `j` was, and `j` has no storage any more. -/
def handOver (objects : Nat → Slot) (i j : Nat) (o : Object) : Nat → Slot :=
  Function.update (Function.update objects i (.live o)) j (.movedFrom { o with mBuf := none })

/-- Neither the copy assignment of a vector nor that of the pointers does anything to an
    object that is assigned to itself; a vector that is moved onto itself is left empty. -/
def perform (s : State) : Event → Option State
  | .construct i =>
      let (h, k) := s.heap.alloc { bytes := List.replicate 128 0, capacity := 128 }
      some ⟨h, Function.update s.objects i (.live (.new k))⟩
  | .copyConstruct i j =>
      (s.objects j).source.map fun o =>
        let (h, k) := s.heap.copyVector o.mBuf
        ⟨h, Function.update s.objects i (.live { o with mBuf := some k })⟩
  | .copyAssign i j =>
      (s.objects i).object.bind fun t =>
        (s.objects j).source.map fun o =>
          if i = j then s
          else
            let (h, k) := s.heap.assignVector t.mBuf o.mBuf
            ⟨h, Function.update s.objects i (.live { o with mBuf := some k })⟩
  | .moveConstruct i j =>
      (s.objects j).source.map fun o => ⟨s.heap, handOver s.objects i j o⟩
  | .moveAssign i j =>
      (s.objects i).object.bind fun t =>
        (s.objects j).source.map fun o => ⟨s.heap.free t.mBuf, handOver s.objects i j o⟩
  | .destroy i =>
      (s.objects i).object.map fun t =>
        ⟨s.heap.free t.mBuf, Function.update s.objects i .absent⟩
  | .call i op =>
      (s.objects i).source.bind fun o =>
        (attemptAt s.heap o op).map fun r => ⟨r.1, Function.update s.objects i (.live r.2)⟩

/-- The offsets of the pointers, which the range of an operation depends on. -/
def Object.offsets (o : Object) : StreamBuffer :=
  { mBuf := [], eback := o.eback.off, gptr := o.gptr.off, egptr := o.egptr.off,
    pbase := o.pbase.off, pptr := o.pptr.off, epptr := o.epptr.off }

/-- A correct program: an object that has been moved from is only assigned to or
    destroyed, and the operations stay in their ranges. -/
def Allowed (s : State) : Event → Prop
  | .construct i => s.objects i = .absent
  | .copyConstruct i j | .moveConstruct i j =>
      s.objects i = .absent ∧ (s.objects j).source.isSome = true
  | .copyAssign i j | .moveAssign i j =>
      (s.objects i).object.isSome = true ∧ (s.objects j).source.isSome = true
  | .destroy i => (s.objects i).object.isSome = true
  | .call i op =>
      (s.objects i).source.isSome = true ∧ op.Valid ∧ op.count < 2 ^ 64 ∧
        ∀ o ∈ (s.objects i).source, InRange o.offsets op

instance (s : State) (e : Event) : Decidable (Allowed s e) :=
  match e with
  | .construct i => inferInstanceAs (Decidable (s.objects i = .absent))
  | .copyConstruct i j | .moveConstruct i j =>
      inferInstanceAs (Decidable (s.objects i = .absent ∧ (s.objects j).source.isSome = true))
  | .copyAssign i j | .moveAssign i j =>
      inferInstanceAs (Decidable ((s.objects i).object.isSome = true ∧
        (s.objects j).source.isSome = true))
  | .destroy i => inferInstanceAs (Decidable ((s.objects i).object.isSome = true))
  | .call i op =>
      inferInstanceAs (Decidable ((s.objects i).source.isSome = true ∧ op.Valid ∧
        op.count < 2 ^ 64 ∧ ∀ o ∈ (s.objects i).source, InRange o.offsets op))

def storeMachine : Machine State Event where
  init := { heap := { block := fun _ => none, next := 0 }, objects := fun _ => .absent }
  step s e := if Allowed s e then perform s e else none

/-- `data()` of object `i`, where it can be read. -/
def dataAt (s : State) (i : Nat) : Option (List UInt8) :=
  (s.objects i).object.bind s.heap.data

/-! ## What copies and moves should keep -/

/-- The six pointers lie in the block of the vector, in their order. -/
def InOwnBlock (h : Heap) (o : Object) : Prop :=
  ∃ k v, o.mBuf = some k ∧ h.block k = some v ∧
    (∀ p ∈ o.pointers, p.block = k ∧ p.off ≤ v.bytes.length) ∧
    o.eback.off ≤ o.gptr.off ∧ o.gptr.off ≤ o.egptr.off ∧ o.egptr.off ≤ o.pptr.off ∧
    o.pptr.off ≤ o.epptr.off

/-- The target and the source of a copy or move. -/
def Event.transfer : Event → Option (Nat × Nat)
  | .copyConstruct i j | .copyAssign i j | .moveConstruct i j | .moveAssign i j => some (i, j)
  | .construct _ | .destroy _ | .call _ _ => none

/-- An event that is defined, after which every object lies in its own block, the target
    of a copy or move has the data of the source, and an operation on one object has not
    changed the data of another one. -/
def Kept (s : State) (e : Event) : Prop :=
  ∃ s', storeMachine.step s e = some s' ∧
    (∀ i o, s'.objects i = .live o → InOwnBlock s'.heap o) ∧
    (∀ i j, e.transfer = some (i, j) → dataAt s' i = dataAt s j) ∧
    (∀ i op, e = .call i op → ∀ j o, j ≠ i → s.objects j = .live o →
      dataAt s' j = dataAt s j)

/-- Not a copy of another object, and not a move of an object onto itself. -/
def Harmless : Event → Prop
  | .copyConstruct _ _ => False
  | .copyAssign i j => i = j
  | .moveAssign i j => i ≠ j
  | .construct _ | .moveConstruct _ _ | .destroy _ | .call _ _ => True

instance (e : Event) : Decidable (Harmless e) :=
  match e with
  | .copyConstruct _ _ => isFalse id
  | .copyAssign i j => inferInstanceAs (Decidable (i = j))
  | .moveAssign i j => inferInstanceAs (Decidable (i ≠ j))
  | .construct _ | .moveConstruct _ _ | .destroy _ | .call _ _ => isTrue trivial

/-! ## Every buffer in its own block -/

/-- A buffer in order, whose put area begins in front of `pptr`. -/
structure Held (b : StreamBuffer) : Prop extends Sized b where
  pbase_le : b.pbase ≤ b.pptr

theorem held_init : Held init := ⟨sized_init, Nat.le_refl _⟩

theorem reserve_pbase_le {b b' : StreamBuffer} {n : Nat} (hb : b.pbase ≤ b.pptr)
    (h : reserve b n = some b') : b'.pbase ≤ b'.pptr := by
  unfold reserve at h
  split at h
  · rw [← Option.some.inj h]
    exact hb
  · dsimp only at h
    split at h
    · cases h
    · rw [← Option.some.inj h]
      exact Nat.le_refl _

theorem held_attempt {b : StreamBuffer} (hb : Held b) {op : Op} (hv : op.Valid)
    (hc : op.count < 2 ^ 64) (hrange : InRange b op) : Held (attempt b op) := by
  have hpromised := (promised_iff_inRange hb.toSized hv hc).mpr hrange
  refine ⟨sized_attempt hb.toSized hpromised, ?_⟩
  refine attempt_keeps (fun b => b.pbase ≤ b.pptr) (hb.pptr_le_max hb.fits) hb.pbase_le ?_ ?_ ?_
    (fun _ _ _ h => h) ?_
  · intro b' harea
    have hpbase := pbase_of_storage (storage_of_putArea harea)
    have hpptr : b'.pptr = b.pptr := congrArg (·.2) harea
    rw [hpbase, hpptr]
    exact hb.pbase_le
  · rintro n rfl
    have hpbase := pbase_of_storage (commit_storage b n)
    have hpptr : (commit b n).pptr = b.pptr + min n (b.epptr - b.pptr) := hpromised.2
    rw [hpbase, hpptr]
    exact Nat.le_add_right_of_le hb.pbase_le
  · intro n b' hres
    exact reserve_pbase_le hb.pbase_le hres
  · intro b' c hmax hle
    have hpptr : (putChar b' c).pptr = b'.pptr + 1 := bump_one hmax
    rw [hpptr]
    exact Nat.le_succ_of_le hle

theorem inOwnBlock_placed {h : Heap} {k : Nat} {b : StreamBuffer} (hk : Stores h k b)
    (hb : Held b) : InOwnBlock h (placed k b) := by
  obtain ⟨capacity, hblock⟩ := hk
  have hlength := hb.epptr_eq
  have h1 := hb.eback_le
  have h2 := hb.gptr_le
  have h3 := hb.egptr_le
  have h4 := hb.pptr_le
  have h5 := hb.pbase_le
  refine ⟨k, ⟨b.mBuf, capacity⟩, rfl, hblock, ?_, h1, h2, h3, h4⟩
  intro p hp
  simp only [Object.pointers, List.mem_cons, List.not_mem_nil, or_false] at hp
  rcases hp with rfl | rfl | rfl | rfl | rfl | rfl <;>
    exact ⟨rfl, by simp only [placed]; omega⟩

/-- No two live objects have the same block. -/
def Distinct (objects : Nat → Slot) : Prop :=
  ∀ i j o o' k, objects i = .live o → objects j = .live o' → o.mBuf = some k →
    o'.mBuf = some k → i = j

/-- Every live object is a buffer in a block of its own, what has been moved from has
    none, and the blocks to come are free. -/
structure Apart (s : State) : Prop where
  held : ∀ i o, s.objects i = .live o → ∃ k b, o = placed k b ∧ Stores s.heap k b ∧ Held b
  distinct : Distinct s.objects
  given : ∀ i o, s.objects i = .movedFrom o → o.mBuf = none
  fresh : ∀ k, s.heap.next ≤ k → s.heap.block k = none

section Update

variable {objects : Nat → Slot} {i j : Nat} {slot v : Slot}

theorem slot_update (h : Function.update objects i v j = slot) :
    (j = i ∧ v = slot) ∨ (j ≠ i ∧ objects j = slot) :=
  update_cases (· = slot) h

/-- A new object in a block that no other object has. -/
theorem Distinct.insert (hd : Distinct objects) {o : Object} {k : Nat} (ho : o.mBuf = some k)
    (hmine : ∀ j o', j ≠ i → objects j = .live o' → o'.mBuf ≠ some k) :
    Distinct (Function.update objects i (.live o)) := by
  intro j₁ j₂ o₁ o₂ m h₁ h₂ hm₁ hm₂
  rcases slot_update h₁ with ⟨rfl, hnew₁⟩ | ⟨hne₁, hold₁⟩
  · rcases slot_update h₂ with ⟨rfl, -⟩ | ⟨hne₂, hold₂⟩
    · rfl
    · obtain rfl := Slot.live.inj hnew₁
      obtain rfl := Option.some.inj (ho.symm.trans hm₁)
      exact absurd hm₂ (hmine j₂ o₂ hne₂ hold₂)
  · rcases slot_update h₂ with ⟨rfl, hnew₂⟩ | ⟨hne₂, hold₂⟩
    · obtain rfl := Slot.live.inj hnew₂
      obtain rfl := Option.some.inj (ho.symm.trans hm₂)
      exact absurd hm₁ (hmine j₁ o₁ hne₁ hold₁)
    · exact hd j₁ j₂ o₁ o₂ m hold₁ hold₂ hm₁ hm₂

/-- An object that is not live any more. -/
theorem Distinct.erase (hd : Distinct objects) (hv : ∀ o, v ≠ .live o) :
    Distinct (Function.update objects i v) := by
  intro j₁ j₂ o₁ o₂ m h₁ h₂ hm₁ hm₂
  rcases slot_update h₁ with ⟨-, hnew⟩ | ⟨-, hold₁⟩
  · exact absurd hnew (hv o₁)
  rcases slot_update h₂ with ⟨-, hnew⟩ | ⟨-, hold₂⟩
  · exact absurd hnew (hv o₂)
  · exact hd j₁ j₂ o₁ o₂ m hold₁ hold₂ hm₁ hm₂

end Update

section Apart

variable {s : State} {i j k : Nat} {o t : Object} {b : StreamBuffer}

theorem Apart.lt_next (hs : Apart s) (hk : Stores s.heap k b) : k < s.heap.next := by
  by_contra hge
  obtain ⟨capacity, hblock⟩ := hk
  rw [hs.fresh k (Nat.le_of_not_lt hge)] at hblock
  cases hblock

theorem apart_init : Apart storeMachine.init where
  held := fun i o h => by cases h
  distinct := fun i j o o' k h => by cases h
  given := fun i o h => by cases h
  fresh := fun k _ => rfl

theorem Apart.inOwnBlock (hs : Apart s) (hi : s.objects i = .live o) : InOwnBlock s.heap o := by
  obtain ⟨k, b, rfl, hk, hb⟩ := hs.held i o hi
  exact inOwnBlock_placed hk hb

theorem dataAt_placed (hi : s.objects i = .live (placed k b)) (hk : Stores s.heap k b) :
    dataAt s i = some (data b) := by
  unfold dataAt
  rw [hi]
  exact data_placed hk

/-- The block of another live object. -/
theorem Apart.ne_block (hs : Apart s) {c : StreamBuffer} {m : Nat} (hne : j ≠ i)
    (hi : s.objects i = .live (placed k b)) (hj : s.objects j = .live (placed m c)) : m ≠ k := by
  rintro rfl
  exact hne (hs.distinct j i _ _ m hj hi rfl rfl)

/-- Object `i`, placed in block `k`, has become the buffer `b'` in block `k'`. -/
theorem Apart.replace (hs : Apart s) {h' : Heap} {k' : Nat} {b' : StreamBuffer}
    (hi : s.objects i = .live (placed k b)) (hf : Frame s.heap k h' k')
    (hk : Stores s.heap k b) (hk' : Stores h' k' b') (hb' : Held b') :
    Apart ⟨h', Function.update s.objects i (.live (placed k' b'))⟩ ∧
      ∀ j m c, j ≠ i → s.objects j = .live (placed m c) → Stores s.heap m c → Stores h' m c := by
  have hlt := hs.lt_next hk
  have hother : ∀ j m c, j ≠ i → s.objects j = .live (placed m c) → Stores s.heap m c →
      m ≠ k' ∧ Stores h' m c := by
    intro j m c hne hj hm
    have hmk := hs.ne_block hne hi hj
    have hmk' : m ≠ k' := by
      rcases hf.place with hplace | hplace
      · rwa [hplace]
      · have := hs.lt_next hm
        omega
    exact ⟨hmk', hm.of_block (hf.other m hmk hmk')⟩
  refine ⟨⟨?_, ?_, ?_, ?_⟩, fun j m c hne hj hm => (hother j m c hne hj hm).2⟩
  · intro j o hj
    rcases slot_update hj with ⟨-, hnew⟩ | ⟨hne, hold⟩
    · obtain rfl := Slot.live.inj hnew
      exact ⟨k', b', rfl, hk', hb'⟩
    · obtain ⟨m, c, rfl, hm, hc⟩ := hs.held j o hold
      exact ⟨m, c, rfl, (hother j m c hne hold hm).2, hc⟩
  · refine hs.distinct.insert rfl ?_
    intro j o hne hj hmine
    obtain ⟨m, c, rfl, hm, -⟩ := hs.held j o hj
    exact (hother j m c hne hj hm).1 (Option.some.inj hmine)
  · intro j o hj
    rcases slot_update hj with ⟨-, hnew⟩ | ⟨-, hold⟩
    · cases hnew
    · exact hs.given j o hold
  · intro m hm
    have hge : h'.next ≤ m := hm
    have hle := hf.next_le
    have hlt' := hf.lt_next
    exact (hf.other m (by omega) (by omega)).trans (hs.fresh m (by omega))

/-- Object `i` gives its block back. -/
theorem Apart.vacate (hs : Apart s) (hi : (s.objects i).object = some t) :
    Apart ⟨s.heap.free t.mBuf, Function.update s.objects i .absent⟩ ∧
      ∀ j m c, j ≠ i → s.objects j = .live (placed m c) → Stores s.heap m c →
        Stores (s.heap.free t.mBuf) m c := by
  have hnext : (s.heap.free t.mBuf).next = s.heap.next := by
    cases t.mBuf <;> rfl
  have hother : ∀ j m c, j ≠ i → s.objects j = .live (placed m c) → Stores s.heap m c →
      Stores (s.heap.free t.mBuf) m c := by
    intro j m c hne hj hm
    cases hslot : s.objects i with
    | absent =>
        rw [hslot] at hi
        cases hi
    | live o =>
        rw [hslot] at hi
        obtain rfl : o = t := Option.some.inj hi
        obtain ⟨k, b, rfl, -, -⟩ := hs.held i o hslot
        exact hm.of_block (Function.update_of_ne (hs.ne_block hne hslot hj) _ _)
    | movedFrom o =>
        rw [hslot] at hi
        obtain rfl : o = t := Option.some.inj hi
        rw [hs.given i o hslot]
        exact hm
  refine ⟨⟨?_, ?_, ?_, ?_⟩, hother⟩
  · intro j o hj
    rcases slot_update hj with ⟨-, hnew⟩ | ⟨hne, hold⟩
    · cases hnew
    · obtain ⟨m, c, rfl, hm, hc⟩ := hs.held j o hold
      exact ⟨m, c, rfl, hother j m c hne hold hm, hc⟩
  · exact hs.distinct.erase (by simp)
  · intro j o hj
    rcases slot_update hj with ⟨-, hnew⟩ | ⟨-, hold⟩
    · cases hnew
    · exact hs.given j o hold
  · intro m hm
    have hge : s.heap.next ≤ m := hnext ▸ hm
    have hfree := hs.fresh m hge
    show (s.heap.free t.mBuf).block m = none
    cases t.mBuf with
    | none => exact hfree
    | some k =>
        by_cases hmk : m = k
        · rw [hmk]
          exact Function.update_self ..
        · exact (Function.update_of_ne hmk _ _).trans hfree

/-- The block of `j` is now the block of `i`, which had none. -/
theorem Apart.handOver (hs : Apart s) (hi : s.objects i = .absent) (hj : s.objects j = .live o) :
    Apart ⟨s.heap, handOver s.objects i j o⟩ := by
  have hij : i ≠ j := by
    rintro rfl
    rw [hi] at hj
    cases hj
  obtain ⟨k, b, rfl, hk, hb⟩ := hs.held j o hj
  -- the source is emptied first, so that the block has one owner all the time
  have hswap : CoioStreamCopy.handOver s.objects i j (placed k b)
      = Function.update (Function.update s.objects j (.movedFrom { placed k b with mBuf := none }))
        i (.live (placed k b)) :=
    Function.update_comm hij _ _ _
  rw [hswap]
  refine ⟨?_, ?_, ?_, hs.fresh⟩
  · intro l o hl
    rcases slot_update hl with ⟨-, hnew⟩ | ⟨-, hold⟩
    · obtain rfl := Slot.live.inj hnew
      exact ⟨k, b, rfl, hk, hb⟩
    · rcases slot_update hold with ⟨-, hgone⟩ | ⟨-, hold⟩
      · cases hgone
      · exact hs.held l o hold
  · refine (hs.distinct.erase (by simp)).insert rfl ?_
    intro l o' _ hl hmine
    rcases slot_update hl with ⟨-, hgone⟩ | ⟨hne, hold⟩
    · cases hgone
    · exact hne (hs.distinct l j o' _ k hold hj hmine rfl)
  · intro l o hl
    rcases slot_update hl with ⟨-, hnew⟩ | ⟨-, hold⟩
    · cases hnew
    · rcases slot_update hold with ⟨-, hgone⟩ | ⟨-, hold⟩
      · obtain rfl := Slot.movedFrom.inj hgone
        rfl
      · exact hs.given l o hold

/-- A new object has a new block. -/
theorem Apart.construct (hs : Apart s) (i : Nat) (v : Block) (hv : v.bytes = init.mBuf) :
    Apart ⟨(s.heap.alloc v).1, Function.update s.objects i (.live (placed s.heap.next init))⟩ := by
  have hold_block : ∀ m, m ≠ s.heap.next → (s.heap.alloc v).1.block m = s.heap.block m :=
    fun m hm => Function.update_of_ne hm _ _
  have hne_next : ∀ {m c}, Stores s.heap m c → m ≠ s.heap.next :=
    fun hm => Nat.ne_of_lt (hs.lt_next hm)
  refine ⟨?_, ?_, ?_, ?_⟩
  · intro j o hj
    rcases slot_update hj with ⟨-, hnew⟩ | ⟨-, hold⟩
    · obtain rfl := Slot.live.inj hnew
      have hstores : Stores (s.heap.alloc v).1 s.heap.next init := by
        refine ⟨v.capacity, ?_⟩
        rw [← hv]
        exact Function.update_self ..
      exact ⟨_, init, rfl, hstores, held_init⟩
    · obtain ⟨m, c, rfl, hm, hc⟩ := hs.held j o hold
      exact ⟨m, c, rfl, hm.of_block (hold_block m (hne_next hm)), hc⟩
  · refine hs.distinct.insert rfl ?_
    intro j o _ hj hmine
    obtain ⟨m, c, rfl, hm, -⟩ := hs.held j o hj
    exact hne_next hm (Option.some.inj hmine)
  · intro j o hj
    rcases slot_update hj with ⟨-, hnew⟩ | ⟨-, hold⟩
    · cases hnew
    · exact hs.given j o hold
  · intro m hm
    have hge : s.heap.next + 1 ≤ m := hm
    exact (hold_block m (by omega)).trans (hs.fresh m (by omega))

/-! ## One event -/

theorem live_of_source {slot : Slot} (h : slot.source.isSome = true) : ∃ o, slot = .live o := by
  cases slot with
  | live o => exact ⟨o, rfl⟩
  | absent => cases h
  | movedFrom o => cases h

theorem step_of_allowed {e : Event} (ha : Allowed s e) : storeMachine.step s e = perform s e :=
  if_pos ha

theorem perform_copyAssign (hi : (s.objects i).object = some t) (hj : s.objects j = .live o) :
    perform s (.copyAssign i j) = some
      (if i = j then s
        else ⟨(s.heap.assignVector t.mBuf o.mBuf).1, Function.update s.objects i
          (.live { o with mBuf := some (s.heap.assignVector t.mBuf o.mBuf).2 })⟩) := by
  unfold perform
  dsimp only
  rw [hi, hj]
  rfl

theorem perform_moveAssign (hi : (s.objects i).object = some t) (hj : s.objects j = .live o) :
    perform s (.moveAssign i j) = some ⟨s.heap.free t.mBuf, handOver s.objects i j o⟩ := by
  unfold perform
  dsimp only
  rw [hi, hj]
  rfl

theorem inRange_offsets (k : Nat) (b : StreamBuffer) (op : Op) :
    InRange (placed k b).offsets op ↔ InRange b op := by
  cases op <;> exact Iff.rfl

/-- What a harmless event leads to. -/
structure Leads (s : State) (e : Event) (s' : State) : Prop where
  step : storeMachine.step s e = some s'
  apart : Apart s'
  transfer : ∀ i j, e.transfer = some (i, j) → dataAt s' i = dataAt s j
  others : ∀ i op, e = .call i op → ∀ j o, j ≠ i → s.objects j = .live o →
    dataAt s' j = dataAt s j

theorem Leads.kept {e : Event} {s' : State} (hl : Leads s e s') : Kept s e :=
  ⟨s', hl.step, fun _ _ hi => hl.apart.inOwnBlock hi, hl.transfer, hl.others⟩

theorem leads_construct (hs : Apart s) (ha : Allowed s (.construct i)) :
    ∃ s', Leads s (.construct i) s' :=
  ⟨_, step_of_allowed ha, hs.construct i _ rfl, by simp [Event.transfer], by simp⟩

theorem leads_copySelf (hs : Apart s) (ha : Allowed s (.copyAssign i i)) :
    ∃ s', Leads s (.copyAssign i i) s' := by
  obtain ⟨o, hi⟩ := live_of_source ha.2
  refine ⟨s, ?_, hs, ?_, by simp⟩
  · rw [step_of_allowed ha, perform_copyAssign (congrArg Slot.object hi) hi, if_pos rfl]
  · intro l m hlm
    obtain ⟨rfl, rfl⟩ := Prod.mk.inj (Option.some.inj hlm)
    rfl

/-- After a move, the target reads what the source did. -/
theorem dataAt_handOver {h' : Heap} (hij : i ≠ j) (hj : s.objects j = .live (placed k b))
    (hk : Stores s.heap k b) (hk' : Stores h' k b) :
    dataAt ⟨h', handOver s.objects i j (placed k b)⟩ i = dataAt s j := by
  have hi : handOver s.objects i j (placed k b) i = .live (placed k b) := by
    unfold handOver
    rw [Function.update_of_ne hij, Function.update_self]
  rw [dataAt_placed hi hk', dataAt_placed hj hk]

theorem leads_moveConstruct (hs : Apart s) (ha : Allowed s (.moveConstruct i j)) :
    ∃ s', Leads s (.moveConstruct i j) s' := by
  obtain ⟨o, hj⟩ := live_of_source ha.2
  have hij : i ≠ j := by
    rintro rfl
    rw [ha.1] at hj
    cases hj
  obtain ⟨k, b, rfl, hk, hb⟩ := hs.held j o hj
  refine ⟨⟨s.heap, handOver s.objects i j (placed k b)⟩, ?_, hs.handOver ha.1 hj, ?_, by simp⟩
  · rw [step_of_allowed ha]
    unfold perform
    dsimp only
    rw [hj]
    rfl
  · intro l m hlm
    obtain ⟨rfl, rfl⟩ := Prod.mk.inj (Option.some.inj hlm)
    exact dataAt_handOver hij hj hk hk

theorem leads_moveAssign (hs : Apart s) (ha : Allowed s (.moveAssign i j)) (hij : i ≠ j) :
    ∃ s', Leads s (.moveAssign i j) s' := by
  obtain ⟨t, hi⟩ := Option.isSome_iff_exists.mp ha.1
  obtain ⟨o, hj⟩ := live_of_source ha.2
  obtain ⟨k, b, rfl, hk, hb⟩ := hs.held j o hj
  -- the target gives its own block back before it takes the other one
  obtain ⟨hvacant, hother⟩ := hs.vacate hi
  have hk' := hother j k b hij.symm hj hk
  have hj' : Function.update s.objects i .absent j = .live (placed k b) :=
    (Function.update_of_ne hij.symm _ _).trans hj
  have hsame : handOver (Function.update s.objects i .absent) i j (placed k b)
      = handOver s.objects i j (placed k b) := by
    unfold handOver
    rw [Function.update_idem]
  have hapart := hvacant.handOver (Function.update_self ..) hj'
  refine ⟨⟨s.heap.free t.mBuf, handOver s.objects i j (placed k b)⟩, ?_, hsame ▸ hapart, ?_, by simp⟩
  · rw [step_of_allowed ha, perform_moveAssign hi hj]
  · intro l m hlm
    obtain ⟨rfl, rfl⟩ := Prod.mk.inj (Option.some.inj hlm)
    exact dataAt_handOver hij hj hk hk'

theorem leads_destroy (hs : Apart s) (ha : Allowed s (.destroy i)) :
    ∃ s', Leads s (.destroy i) s' := by
  obtain ⟨t, hi⟩ := Option.isSome_iff_exists.mp ha
  refine ⟨_, ?_, (hs.vacate hi).1, by simp [Event.transfer], by simp⟩
  rw [step_of_allowed ha]
  unfold perform
  dsimp only
  rw [hi]
  rfl

theorem leads_call (hs : Apart s) {op : Op} (ha : Allowed s (.call i op)) :
    ∃ s', Leads s (.call i op) s' := by
  have hstep := step_of_allowed ha
  obtain ⟨hlive, hv, hc, hrange⟩ := ha
  obtain ⟨o, hi⟩ := live_of_source hlive
  obtain ⟨k, b, rfl, hk, hb⟩ := hs.held i o hi
  have hsource : (s.objects i).source = some (placed k b) := by rw [hi]; rfl
  have hin : InRange b op := (inRange_offsets k b op).mp (hrange _ hsource)
  obtain ⟨h', k', hcall, hk', hf⟩ := attemptAt_spec hb.toSized hk (hs.lt_next hk) hv hin
  obtain ⟨hapart, hother⟩ := hs.replace hi hf hk hk' (held_attempt hb hv hc hin)
  refine ⟨_, ?_, hapart, by simp [Event.transfer], ?_⟩
  · rw [hstep]
    unfold perform
    dsimp only
    rw [hsource, Option.bind_some, hcall]
    rfl
  · intro l op' hcall' j o hne hj
    obtain ⟨rfl, rfl⟩ := Event.call.inj hcall'
    obtain ⟨m, c, rfl, hm, -⟩ := hs.held j o hj
    have hj' : Function.update s.objects i (.live (placed k' (attempt b op))) j
        = .live (placed m c) :=
      (Function.update_of_ne hne _ _).trans hj
    rw [dataAt_placed hj' (hother j m c hne hj hm), dataAt_placed hj hm]

/-- **STEP**: a harmless event leaves every buffer in its own block. -/
theorem leads_of_harmless (hs : Apart s) {e : Event} (ha : Allowed s e) (hh : Harmless e) :
    ∃ s', Leads s e s' := by
  cases e with
  | construct i => exact leads_construct hs ha
  | copyConstruct i j => exact absurd hh id
  | copyAssign i j =>
      obtain rfl : i = j := hh
      exact leads_copySelf hs ha
  | moveConstruct i j => exact leads_moveConstruct hs ha
  | moveAssign i j => exact leads_moveAssign hs ha hh
  | destroy i => exact leads_destroy hs ha
  | call i op => exact leads_call hs ha

/-- The pointers of a copy lie in the block of the vector only if it is the same block. -/
theorem block_of_inOwnBlock {h : Heap} {k' : Nat}
    (hown : InOwnBlock h { placed k b with mBuf := some k' }) : k' = k := by
  obtain ⟨m, v, hm, -, hpointers, -⟩ := hown
  obtain rfl : k' = m := Option.some.inj hm
  exact (hpointers ⟨k, b.eback⟩ (List.mem_cons_self ..)).1.symm

/-- A vector that is assigned to keeps its block or gets a new one. -/
theorem assignVector_block (h : Heap) (t m : Option Nat) :
    (h.assignVector t m).2 = h.next ∨ t = some (h.assignVector t m).2 := by
  unfold Heap.assignVector
  cases hstorage : h.storage t with
  | none => exact .inl rfl
  | some kv =>
      obtain ⟨k, v⟩ := kv
      obtain ⟨k', ht, hmap⟩ := Option.bind_eq_some_iff.mp hstorage
      obtain ⟨v', -, hkv⟩ := Option.map_eq_some_iff.mp hmap
      obtain ⟨rfl, rfl⟩ := Prod.mk.inj hkv
      dsimp only
      split
      · exact .inr ht
      · refine .inl ?_
        cases t <;> rfl

theorem not_kept_copyConstruct (hs : Apart s) (ha : Allowed s (.copyConstruct i j)) :
    ¬ Kept s (.copyConstruct i j) := by
  rintro ⟨s', hstep, hown, -⟩
  obtain ⟨o, hj⟩ := live_of_source ha.2
  obtain ⟨k, b, rfl, hk, -⟩ := hs.held j o hj
  rw [step_of_allowed ha] at hstep
  unfold perform at hstep
  dsimp only at hstep
  rw [hj] at hstep
  obtain rfl := Option.some.inj hstep
  have hblock := block_of_inOwnBlock (hown i _ (Function.update_self ..))
  exact Nat.ne_of_gt (hs.lt_next hk) hblock

theorem not_kept_copyAssign (hs : Apart s) (ha : Allowed s (.copyAssign i j)) (hij : i ≠ j) :
    ¬ Kept s (.copyAssign i j) := by
  rintro ⟨s', hstep, hown, -⟩
  obtain ⟨t, hi⟩ := Option.isSome_iff_exists.mp ha.1
  obtain ⟨o, hj⟩ := live_of_source ha.2
  obtain ⟨k, b, rfl, hk, -⟩ := hs.held j o hj
  rw [step_of_allowed ha, perform_copyAssign hi hj, if_neg hij] at hstep
  obtain rfl := Option.some.inj hstep
  have hblock := block_of_inOwnBlock (hown i _ (Function.update_self ..))
  rcases assignVector_block s.heap t.mBuf (some k) with hnew | hkept
  · exact Nat.ne_of_gt (hs.lt_next hk) (hnew.symm.trans hblock)
  · -- the target would have had the block of the source all along
    have htarget : t.mBuf = some k := hkept.trans (congrArg some hblock)
    cases hslot : s.objects i with
    | absent =>
        rw [hslot] at hi
        cases hi
    | live o =>
        rw [hslot] at hi
        obtain rfl : o = t := Option.some.inj hi
        exact hij (hs.distinct i j o _ k hslot hj htarget rfl)
    | movedFrom o =>
        rw [hslot] at hi
        obtain rfl : o = t := Option.some.inj hi
        rw [hs.given i o hslot] at htarget
        cases htarget

theorem not_kept_selfMove (hs : Apart s) (ha : Allowed s (.moveAssign i i)) :
    ¬ Kept s (.moveAssign i i) := by
  rintro ⟨s', hstep, -, htransfer, -⟩
  obtain ⟨o, hi⟩ := live_of_source ha.2
  obtain ⟨k, b, rfl, hk, -⟩ := hs.held i o hi
  rw [step_of_allowed ha, perform_moveAssign (congrArg Slot.object hi) hi] at hstep
  obtain rfl := Option.some.inj hstep
  have hdata := htransfer i i rfl
  rw [dataAt_placed hi hk] at hdata
  have hgone : (s.heap.free (some k)).data { placed k b with mBuf := none } = none := by
    have hfree : (s.heap.free (some k)).block k = none := Function.update_self ..
    rw [data_block, hfree]
    rfl
  have hslot : handOver s.objects i i (placed k b) i = .movedFrom { placed k b with mBuf := none } :=
    Function.update_self ..
  unfold dataAt at hdata
  dsimp only at hdata
  rw [hslot] at hdata
  exact absurd (hgone.symm.trans hdata) (by simp)

/-- **STEP**: an event keeps the representation exactly if it is harmless. -/
theorem kept_iff_harmless (hs : Apart s) {e : Event} (ha : Allowed s e) :
    Kept s e ↔ Harmless e := by
  constructor
  · intro hkept
    cases e with
    | copyConstruct i j => exact absurd hkept (not_kept_copyConstruct hs ha)
    | copyAssign i j =>
        by_contra hij
        exact not_kept_copyAssign hs ha hij hkept
    | moveAssign i j =>
        rintro rfl
        exact not_kept_selfMove hs ha hkept
    | construct i => exact trivial
    | moveConstruct i j => exact trivial
    | destroy i => exact trivial
    | call i op => exact trivial
  · intro hh
    obtain ⟨s', hl⟩ := leads_of_harmless hs ha hh
    exact hl.kept

theorem apart_step {s' : State} {e : Event} (hs : Apart s) (ha : Allowed s e) (hk : Kept s e)
    (hstep : storeMachine.step s e = some s') : Apart s' := by
  obtain ⟨s'', hl⟩ := leads_of_harmless hs ha ((kept_iff_harmless hs ha).mp hk)
  obtain rfl : s'' = s' := Option.some.inj (hl.step.symm.trans hstep)
  exact hl.apart

end Apart

/-! ## Every program -/

/-- **COPIES SHARE THE STORAGE**: for every correct program, every event keeps the objects
    in their own blocks, hands the data on and leaves the other objects alone, exactly if
    no object is copied to another one and none is moved onto itself. -/
theorem stream_buffer_copies_iff (es : List Event)
    (hallowed : Along storeMachine Allowed storeMachine.init es) :
    Along storeMachine Kept storeMachine.init es ↔ ∀ e ∈ es, Harmless e := by
  have hiff : Along storeMachine Kept storeMachine.init es ↔
      Along storeMachine (fun _ e => Harmless e) storeMachine.init es :=
    along_iff (I := Apart) (fun s e hs ha => kept_iff_harmless hs ha)
      (fun s e s' hs ha hk hstep => apart_step hs ha hk hstep) hallowed apart_init
  constructor
  · intro hkept
    refine forall_of_along ?_ hkept (hiff.mp hkept)
    rintro s e ⟨s', hstep, -⟩
    exact ⟨s', hstep⟩
  · intro hharmless
    exact hiff.mpr (along_of_forall _ hharmless)

/-- A buffer is filled, handed on twice and read. -/
def movedAround : List Event :=
  [.construct 0, .call 0 (.prepare 5 0 [104, 101, 108, 108, 111]), .call 0 (.commit 5),
    .moveConstruct 1 0, .construct 2, .moveAssign 2 1, .copyAssign 2 2, .call 2 (.consume 2),
    .call 2 (.reserve 200), .moveAssign 0 2, .destroy 1, .destroy 2]

/-- The theorem at that program. -/
theorem stream_buffer_copies_iff_movedAround :
    Along storeMachine Kept storeMachine.init movedAround ∧
      (run storeMachine movedAround).map (dataAt · 0) = some (some [108, 108, 111]) :=
  ⟨(stream_buffer_copies_iff movedAround (by decide +kernel)).mpr (by decide),
    by decide +kernel⟩

/-- A filled buffer is copied. -/
def copied : List Event :=
  [.construct 0, .call 0 (.prepare 5 0 [104, 101, 108, 108, 111]), .call 0 (.commit 5),
    .copyConstruct 1 0]

/-- The pointers of the copy lie in block 0 and its vector is block 1; once the source asks
    for more room than its block has, the data of the copy is gone. -/
theorem copy_reads_the_source :
    Along storeMachine Allowed storeMachine.init (copied ++ [.call 0 (.reserve 200)]) ∧
      ((run storeMachine copied).map fun s =>
          ((s.objects 1).source.map fun o => (o.pointers.map Ptr.block, o.mBuf), dataAt s 1))
        = some (some ([0, 0, 0, 0, 0, 0], some 1), some [104, 101, 108, 108, 111]) ∧
      (run storeMachine (copied ++ [.call 0 (.reserve 200)])).map (dataAt · 1)
        = some none := by
  decide +kernel

end CoioStreamCopy
