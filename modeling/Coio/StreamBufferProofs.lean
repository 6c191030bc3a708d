import Coio.MachineProofs
import Mathlib.Algebra.Group.Nat.Defs

/-! # `stream_buffer` — six pointers into a growing vector, and the queue they keep

    `stream_buffer` keeps its bytes in one vector and finds them through the six
    pointers of `std::streambuf`.  The get area runs from `gptr` to `egptr`, the
    put area from `pptr` to `epptr`.  `egptr` may lag behind `pptr`: a put moves
    only `pptr`, and `commit`, `consume` and `underflow` catch up.  `reserve`
    grows the vector and rebuilds all six pointers; nothing ever moves back.

    `pbump` and `gbump` take an `int`, the counts are `size_t`.  Both conversions
    are modelled, so the refinement below is stated for positions and counts
    below `2 ^ 31`, where they are exact.  An offset has 64 bits and a sign: a pointer
    that a conversion moves in front of the storage stays there.

    The queue is `gptr` to `pptr`; what lies behind `pptr` is room that has been
    written or not.  `ByteQueue` is that view, with what each operation means for
    it.  Every sequence of operations answers as the queue does and keeps the
    pointers in order. -/

namespace CoioStreamBuffer

open CoioMachine

/-! ## Machine integers -/

/-- A pointer difference as a `size_t`. -/
def toSize (d : Int) : Nat := (d % ((2 ^ 64 : Nat) : Int)).toNat

/-- A `size_t` as an `int`. -/
def toInt (n : Nat) : Int := Int.bmod n (2 ^ 32)

/-- `pbump` and `gbump`: a pointer moved by an `int`.  An offset in front of the storage is
    the two's complement of its distance. -/
def bump (p : Nat) (n : Int) : Nat := toSize (p + n)

/-- Where an offset lies, for comparisons. -/
def signed (p : Nat) : Int := if p < 2 ^ 63 then p else p - (2 ^ 64 : Nat)

/-- `std::vector::max_size()` of a `vector<char>`. -/
def maxSize : Nat := 2 ^ 63 - 1

theorem toSize_sub {a b : Nat} (hle : b ≤ a) (ha : a < 2 ^ 64) :
    toSize ((a : Int) - b) = a - b := by
  unfold toSize
  omega

theorem toInt_small {n : Nat} (h : n < 2 ^ 31) : toInt n = n := by
  unfold toInt
  rw [Int.bmod_eq_of_le] <;> omega

theorem bump_ofNat {p n : Nat} (h : p + n < 2 ^ 64) : bump p n = p + n := by
  unfold bump toSize
  omega

theorem bump_small {p n : Nat} (hp : p + n < 2 ^ 64) (h : n < 2 ^ 31) :
    bump p (toInt n) = p + n := by
  rw [toInt_small h]
  exact bump_ofNat hp

theorem bump_one {p : Nat} (h : p ≤ maxSize) : bump p 1 = p + 1 := by
  unfold maxSize at h
  exact bump_ofNat (n := 1) (by omega)

/-- Inside a vector the sign does not matter. -/
theorem signed_lt_iff {p q : Nat} (hp : p ≤ maxSize) (hq : q ≤ maxSize) :
    signed p < signed q ↔ p < q := by
  unfold maxSize at hp hq
  unfold signed
  rw [if_pos (by omega), if_pos (by omega)]
  exact Int.ofNat_lt

/-! ## The buffer -/

/-- The storage and the pointers, as offsets from `m_buf.data()`. -/
structure StreamBuffer where
  mBuf : List UInt8
  eback : Nat
  gptr : Nat
  egptr : Nat
  pbase : Nat
  pptr : Nat
  epptr : Nat
  deriving DecidableEq

/-- The constructor: `m_buf(128)`. -/
def init : StreamBuffer :=
  { mBuf := List.replicate 128 0, eback := 0, gptr := 0, egptr := 0, pbase := 0, pptr := 0,
    epptr := 128 }

def setg (b : StreamBuffer) (eback gptr egptr : Nat) : StreamBuffer :=
  { b with eback := eback, gptr := gptr, egptr := egptr }

/-- `setp` also puts `pptr` at the beginning. -/
def setp (b : StreamBuffer) (pbase epptr : Nat) : StreamBuffer :=
  { b with pbase := pbase, pptr := pbase, epptr := epptr }

def pbump (b : StreamBuffer) (n : Int) : StreamBuffer := { b with pptr := bump b.pptr n }

def gbump (b : StreamBuffer) (n : Int) : StreamBuffer := { b with gptr := bump b.gptr n }

def commit (b : StreamBuffer) (n : Nat) : StreamBuffer :=
  let b' := pbump b (toInt (min n (toSize ((b.epptr : Int) - b.pptr))))
  setg b' b'.eback b'.gptr b'.pptr

def consume (b : StreamBuffer) (n : Nat) : StreamBuffer :=
  let b' := if signed b.egptr < signed b.pptr then setg b b.eback b.gptr b.pptr else b
  gbump b' (toInt (min n (toSize ((b'.egptr : Int) - b'.gptr))))

def size (b : StreamBuffer) : Nat := toSize ((b.pptr : Int) - b.gptr)

def data (b : StreamBuffer) : List UInt8 := (b.mBuf.drop b.gptr).take (size b)

def tryGetData (b : StreamBuffer) (n : Nat) : Option (List UInt8) :=
  if size b < n then none else some ((b.mBuf.drop b.gptr).take n)

/-- `std::vector::resize`. -/
def resize (l : List UInt8) (n : Nat) : List UInt8 :=
  l.take n ++ List.replicate (n - l.length) 0

/-- `none` is the `std::length_error` of `resize`; nothing has been changed then. -/
def reserve (b : StreamBuffer) (n : Nat) : Option StreamBuffer :=
  if n ≤ toSize ((b.epptr : Int) - b.pptr) then some b
  else
    let putEndPos := (b.pptr + n) % 2 ^ 64
    if maxSize < putEndPos then none
    else
      let b' := setg { b with mBuf := resize b.mBuf putEndPos } 0 b.gptr b.pptr
      some (setp b' b.pptr putEndPos)

/-- `prepare`; the span it returns begins at `pptr`. -/
def prepare (b : StreamBuffer) (n : Nat) : Option StreamBuffer := reserve b n

/-- Bytes written over the list from position `i` on. -/
def overlay (l : List UInt8) (i : Nat) (bs : List UInt8) : List UInt8 :=
  l.take i ++ bs ++ l.drop (i + bs.length)

/-- The caller of `prepare` writes into the span, from its position `i` on. -/
def writeSpan (b : StreamBuffer) (i : Nat) (bs : List UInt8) : StreamBuffer :=
  { b with mBuf := overlay b.mBuf (b.pptr + i) bs }

/-- `*gptr()`. -/
def peek (b : StreamBuffer) : UInt8 := b.mBuf.getD b.gptr 0

/-- `eof` is `none`. -/
def underflow (b : StreamBuffer) : Option UInt8 × StreamBuffer :=
  if signed b.gptr < signed b.pptr then
    let b' := setg b b.eback b.gptr b.pptr
    (some (peek b'), b')
  else (none, b)

/-- The put of one character where there is room: `*pptr() = c; pbump(1)`. -/
def putChar (b : StreamBuffer) (c : UInt8) : StreamBuffer :=
  pbump (writeSpan b 0 [c]) 1

/-- The argument `none` is `eof`, which `not_eof` turns into another value. -/
def overflow (b : StreamBuffer) : Option UInt8 → Option (Option UInt8 × StreamBuffer)
  | none => some (some 0, b)
  | some c => (reserve b 64).map fun b' => (some c, putChar b' c)

/-! `std::streambuf` calls `overflow` and `underflow` where the areas are used up. -/

def sputc (b : StreamBuffer) (c : UInt8) : Option (Option UInt8 × StreamBuffer) :=
  if signed b.pptr < signed b.epptr then some (some c, putChar b c) else overflow b (some c)

/-- `uflow` takes the character that `underflow` has found. -/
def sbumpc (b : StreamBuffer) : Option UInt8 × StreamBuffer :=
  if signed b.gptr < signed b.egptr then (some (peek b), gbump b 1)
  else
    match underflow b with
    | (some c, b') => (some c, gbump b' 1)
    | (none, b') => (none, b')

/-! ## Operations and answers -/

inductive Op where
  /-- `prepare(n)`, then `bs` written into the span from its position `i` on -/
  | prepare (n i : Nat) (bs : List UInt8)
  | commit (n : Nat)
  | consume (n : Nat)
  | reserve (n : Nat)
  | sputc (c : UInt8)
  | overflow (c : Option UInt8)
  | sbumpc
  | underflow
  | data
  | size
  | tryGetData (n : Nat)
  deriving DecidableEq

/-- The bytes written lie in the span. -/
def Op.Valid : Op → Prop
  | .prepare n i bs => i + bs.length ≤ n
  | _ => True

instance (op : Op) : Decidable op.Valid :=
  match op with
  | .prepare n i bs => inferInstanceAs (Decidable (i + bs.length ≤ n))
  | .commit _ | .consume _ | .reserve _ | .sputc _ | .overflow _ | .sbumpc | .underflow
  | .data | .size | .tryGetData _ => isTrue trivial

/-- The count an operation is given. -/
def Op.count : Op → Nat
  | .prepare n _ _ => n
  | .commit n => n
  | .consume n => n
  | .reserve n => n
  | .tryGetData n => n
  | _ => 0

/-- The room an operation leaves. -/
def Op.asks : Op → Option Nat
  | .prepare n _ _ => some n
  | .reserve n => some n
  | _ => none

inductive Answer where
  | done
  | char (c : Option UInt8)
  | bytes (bs : List UInt8)
  | size (n : Nat)
  | found (bs : Option (List UInt8))
  deriving DecidableEq

/-- One operation; `none` is an exception. -/
def exec (b : StreamBuffer) : Op → Option (StreamBuffer × Answer)
  | .prepare n i bs => (prepare b n).map fun b' => (writeSpan b' i bs, .done)
  | .commit n => some (commit b n, .done)
  | .consume n => some (consume b n, .done)
  | .reserve n => (reserve b n).map fun b' => (b', .done)
  | .sputc c => (sputc b c).map fun r => (r.2, .char r.1)
  | .overflow c => (overflow b c).map fun r => (r.2, .char r.1)
  | .sbumpc => some ((sbumpc b).2, .char (sbumpc b).1)
  | .underflow => some ((underflow b).2, .char (underflow b).1)
  | .data => some (b, .bytes (data b))
  | .size => some (b, .size (size b))
  | .tryGetData n => some (b, .found (tryGetData b n))

/-- The buffer and the answers it has given. -/
def bufferMachine : Machine (StreamBuffer × List Answer) Op where
  init := (init, [])
  step s op := (exec s.1 op).map fun r => (r.1, s.2 ++ [r.2])

/-! ## The queue -/

/-- Bytes to get, and the bytes behind them that can be committed. -/
structure ByteQueue where
  queue : List UInt8
  room : List UInt8
  deriving DecidableEq

/-- At least `n` bytes of room; the new ones are zero. -/
def ByteQueue.grow (q : ByteQueue) (n : Nat) : ByteQueue :=
  { q with room := q.room ++ List.replicate (n - q.room.length) 0 }

/-- One character is appended; it takes the first place of the room. -/
def ByteQueue.put (q : ByteQueue) (c : UInt8) : ByteQueue :=
  { queue := q.queue ++ [c], room := q.room.drop 1 }

/-- What an operation means for the queue. -/
def ByteQueue.exec (q : ByteQueue) : Op → ByteQueue × Answer
  | .prepare n i bs => ({ q.grow n with room := overlay (q.grow n).room i bs }, .done)
  | .commit n => (⟨q.queue ++ q.room.take n, q.room.drop n⟩, .done)
  | .consume n => ({ q with queue := q.queue.drop n }, .done)
  | .reserve n => (q.grow n, .done)
  | .sputc c => ((q.grow (if q.room = [] then 64 else 0)).put c, .char (some c))
  | .overflow none => (q, .char (some 0))
  | .overflow (some c) => ((q.grow 64).put c, .char (some c))
  | .sbumpc => ({ q with queue := q.queue.tail }, .char q.queue.head?)
  | .underflow => (q, .char q.queue.head?)
  | .data => (q, .bytes q.queue)
  | .size => (q, .size q.queue.length)
  | .tryGetData n =>
      (q, .found (if n ≤ q.queue.length then some (q.queue.take n) else none))

theorem ByteQueue.le_grow (q : ByteQueue) (n : Nat) : n ≤ (q.grow n).room.length := by
  simp only [ByteQueue.grow, List.length_append, List.length_replicate]
  omega

theorem length_overlay {l : List UInt8} {i : Nat} {bs : List UInt8}
    (h : i + bs.length ≤ l.length) : (overlay l i bs).length = l.length := by
  simp only [overlay, List.length_append, List.length_take, List.length_drop]
  omega

/-- An operation that asks for room leaves it. -/
theorem ByteQueue.le_room {q : ByteQueue} {op : Op} {n : Nat} (hv : op.Valid)
    (hask : op.asks = some n) : n ≤ (q.exec op).1.room.length := by
  cases op with
  | prepare m i bs =>
      obtain rfl : m = n := Option.some.inj hask
      show m ≤ (overlay (q.grow m).room i bs).length
      rw [length_overlay (Nat.le_trans hv (q.le_grow m))]
      exact q.le_grow m
  | reserve m =>
      obtain rfl : m = n := Option.some.inj hask
      exact q.le_grow m
  | _ => exact nomatch hask

def queueMachine : Machine (ByteQueue × List Answer) Op where
  init := (⟨[], List.replicate 128 0⟩, [])
  step s op := some ((s.1.exec op).1, s.2 ++ [(s.1.exec op).2])

/-! ## The pointers stay in order -/

/-- The order of the pointers; the put area reaches to the end of the storage. -/
structure Ordered (b : StreamBuffer) : Prop where
  eback_le : b.eback ≤ b.gptr
  gptr_le : b.gptr ≤ b.egptr
  egptr_le : b.egptr ≤ b.pptr
  pptr_le : b.pptr ≤ b.epptr
  epptr_eq : b.epptr = b.mBuf.length

/-- The queue that a buffer keeps. -/
def view (b : StreamBuffer) : ByteQueue :=
  { queue := data b, room := b.mBuf.drop b.pptr }

/-- The storage is no longer than a vector can be. -/
def Fits (b : StreamBuffer) : Prop := b.mBuf.length ≤ maxSize

section InOrder

variable {b : StreamBuffer}

theorem Ordered.gptr_le_pptr (hb : Ordered b) : b.gptr ≤ b.pptr :=
  hb.gptr_le.trans hb.egptr_le

theorem Ordered.pptr_le_length (hb : Ordered b) : b.pptr ≤ b.mBuf.length :=
  hb.epptr_eq ▸ hb.pptr_le

theorem Fits.length_lt (hf : Fits b) : b.mBuf.length < 2 ^ 64 :=
  Nat.lt_of_le_of_lt hf (by decide)

theorem Ordered.pptr_le_max (hb : Ordered b) (hf : Fits b) : b.pptr ≤ maxSize :=
  hb.pptr_le_length.trans hf

theorem Ordered.size_eq (hb : Ordered b) (hf : Fits b) : size b = b.pptr - b.gptr :=
  toSize_sub hb.gptr_le_pptr (Nat.lt_of_le_of_lt hb.pptr_le_length hf.length_lt)

theorem Ordered.room_eq (hb : Ordered b) (hf : Fits b) :
    toSize ((b.epptr : Int) - b.pptr) = (view b).room.length := by
  have hlt : b.epptr < 2 ^ 64 := hb.epptr_eq ▸ hf.length_lt
  rw [toSize_sub hb.pptr_le hlt, hb.epptr_eq]
  exact List.length_drop.symm

theorem Ordered.data_eq (hb : Ordered b) (hf : Fits b) :
    data b = (b.mBuf.drop b.gptr).take (b.pptr - b.gptr) := by
  unfold data
  rw [hb.size_eq hf]

theorem Ordered.length_data (hb : Ordered b) (hf : Fits b) :
    (data b).length = b.pptr - b.gptr := by
  have hle := hb.pptr_le_length
  rw [hb.data_eq hf, List.length_take, List.length_drop]
  omega

theorem Ordered.length_room (b : StreamBuffer) :
    (view b).room.length = b.mBuf.length - b.pptr :=
  List.length_drop

/-! ## What each operation does to the queue -/

/-- A window of a list, made longer at its end. -/
theorem window_append (l : List UInt8) {g p : Nat} (hle : g ≤ p) (k : Nat) :
    (l.drop g).take (p + k - g) = (l.drop g).take (p - g) ++ (l.drop p).take k := by
  rw [Nat.sub_add_comm hle, List.take_add, List.drop_drop, Nat.add_sub_cancel' hle]

/-- `pptr` moves over `k` bytes of the room. -/
theorem advance_spec (hb : Ordered b) (hf : Fits b) {k e : Nat}
    (hk : k ≤ (view b).room.length) (hge : b.gptr ≤ e) (hep : e ≤ b.pptr + k) :
    Ordered { b with pptr := b.pptr + k, egptr := e } ∧
      view { b with pptr := b.pptr + k, egptr := e }
        = ⟨data b ++ (view b).room.take k, (view b).room.drop k⟩ := by
  have hroom := Ordered.length_room b
  have hle := hb.pptr_le_length
  have hord : Ordered { b with pptr := b.pptr + k, egptr := e } := by
    refine ⟨hb.eback_le, hge, hep, ?_, hb.epptr_eq⟩
    show b.pptr + k ≤ b.epptr
    rw [hb.epptr_eq]
    omega
  have hqueue : (b.mBuf.drop b.gptr).take (b.pptr + k - b.gptr)
      = data b ++ (view b).room.take k := by
    rw [window_append b.mBuf hb.gptr_le_pptr, hb.data_eq hf]
    rfl
  exact ⟨hord, congrArg₂ ByteQueue.mk ((hord.data_eq hf).trans hqueue) List.drop_drop.symm⟩

/-- `gptr` moves over `k` bytes of the queue. -/
theorem retire_spec (hb : Ordered b) (hf : Fits b) {k e : Nat}
    (hk : b.gptr + k ≤ e) (hep : e ≤ b.pptr) :
    Ordered { b with gptr := b.gptr + k, egptr := e } ∧
      view { b with gptr := b.gptr + k, egptr := e }
        = { view b with queue := (data b).drop k } := by
  have hord : Ordered { b with gptr := b.gptr + k, egptr := e } :=
    ⟨Nat.le_add_right_of_le hb.eback_le, hk, hep, hb.pptr_le, hb.epptr_eq⟩
  have hqueue : (b.mBuf.drop (b.gptr + k)).take (b.pptr - (b.gptr + k)) = (data b).drop k := by
    rw [hb.data_eq hf, List.drop_take, List.drop_drop, Nat.sub_sub]
  exact ⟨hord, congrArg₂ ByteQueue.mk ((hord.data_eq hf).trans hqueue) rfl⟩

/-- `commit` as arithmetic on the pointers. -/
theorem commit_bump (hb : Ordered b) (hf : Fits b) (n : Nat) :
    commit b n = { b with
      pptr := bump b.pptr (toInt (min n (view b).room.length))
      egptr := bump b.pptr (toInt (min n (view b).room.length)) } := by
  unfold commit pbump setg
  dsimp only
  rw [hb.room_eq hf]

/-- The same, when the bytes taken can be counted by an `int`. -/
theorem commit_eq (hb : Ordered b) (hf : Fits b) {n : Nat}
    (hn : min n (view b).room.length < 2 ^ 31) :
    commit b n = { b with
      pptr := b.pptr + min n (view b).room.length
      egptr := b.pptr + min n (view b).room.length } := by
  have hroom := Ordered.length_room b
  have hle := hb.pptr_le_length
  have hlt := hf.length_lt
  rw [commit_bump hb hf, bump_small (by omega) hn]

theorem commit_spec (hb : Ordered b) (hf : Fits b) {n : Nat}
    (hn : min n (view b).room.length < 2 ^ 31) :
    Ordered (commit b n) ∧ (commit b n).mBuf = b.mBuf ∧
      view (commit b n) = ⟨data b ++ (view b).room.take n, (view b).room.drop n⟩ := by
  rw [commit_eq hb hf hn]
  obtain ⟨hord, hview⟩ := advance_spec hb hf (Nat.min_le_right n (view b).room.length)
    (Nat.le_add_right_of_le hb.gptr_le_pptr) (Nat.le_refl _)
  refine ⟨hord, rfl, hview.trans ?_⟩
  have htake : (view b).room.take (min n (view b).room.length) = (view b).room.take n :=
    List.take_eq_take_iff.mpr (by simp)
  have hdrop : (view b).room.drop (min n (view b).room.length) = (view b).room.drop n :=
    List.drop_eq_drop_iff.mpr (by simp)
  rw [htake, hdrop]

/-- `consume` as arithmetic on the pointers. -/
theorem consume_bump (hb : Ordered b) (hf : Fits b) (n : Nat) :
    consume b n = { b with
      gptr := bump b.gptr (toInt (min n (data b).length))
      egptr := b.pptr } := by
  have hmax := hb.pptr_le_max hf
  have hcaught : (if signed b.egptr < signed b.pptr then setg b b.eback b.gptr b.pptr else b)
      = { b with egptr := b.pptr } := by
    split
    · rfl
    · rename_i hnot
      have hle : b.pptr ≤ b.egptr :=
        Nat.le_of_not_lt (mt (signed_lt_iff (hb.egptr_le.trans hmax) hmax).mpr hnot)
      exact congrArg (fun e => { b with egptr := e }) (Nat.le_antisymm hb.egptr_le hle)
  have hsize : toSize ((b.pptr : Int) - b.gptr) = (data b).length := by
    rw [hb.length_data hf]
    exact hb.size_eq hf
  unfold consume gbump
  rw [hcaught]
  dsimp only
  rw [hsize]

/-- The same, when the bytes dropped can be counted by an `int`. -/
theorem consume_eq (hb : Ordered b) (hf : Fits b) {n : Nat}
    (hn : min n (data b).length < 2 ^ 31) :
    consume b n = { b with gptr := b.gptr + min n (data b).length, egptr := b.pptr } := by
  have hlen := hb.length_data hf
  have hgp := hb.gptr_le_pptr
  have hle := hb.pptr_le_length
  have hlt := hf.length_lt
  rw [consume_bump hb hf, bump_small (by omega) hn]

theorem consume_spec (hb : Ordered b) (hf : Fits b) {n : Nat}
    (hn : min n (data b).length < 2 ^ 31) :
    Ordered (consume b n) ∧ (consume b n).mBuf = b.mBuf ∧
      view (consume b n) = { view b with queue := (data b).drop n } := by
  have hlen := hb.length_data hf
  have hgp := hb.gptr_le_pptr
  rw [consume_eq hb hf hn]
  obtain ⟨hord, hview⟩ := retire_spec hb hf (k := min n (data b).length)
    (show b.gptr + min n (data b).length ≤ b.pptr by omega) (Nat.le_refl _)
  refine ⟨hord, rfl, hview.trans ?_⟩
  have hdrop : (data b).drop (min n (data b).length) = (data b).drop n :=
    List.drop_eq_drop_iff.mpr (by simp)
  rw [hdrop]

theorem resize_longer (l : List UInt8) {n : Nat} (h : l.length ≤ n) :
    resize l n = l ++ List.replicate (n - l.length) 0 := by
  unfold resize
  rw [List.take_of_length_le h]

/-- `reserve`, when the new end can be a vector's size. -/
theorem reserve_spec (hb : Ordered b) (hf : Fits b) {n : Nat} (hn : b.pptr + n ≤ maxSize) :
    ∃ b', reserve b n = some b' ∧ Ordered b' ∧ Fits b' ∧ view b' = (view b).grow n ∧
      b'.mBuf.length = max b.mBuf.length (b.pptr + n) := by
  have hroom := Ordered.length_room b
  have hle := hb.pptr_le_length
  unfold reserve
  rw [hb.room_eq hf]
  by_cases henough : n ≤ (view b).room.length
  · refine ⟨b, if_pos henough, hb, hf, ?_, ?_⟩
    · unfold ByteQueue.grow
      rw [Nat.sub_eq_zero_of_le henough]
      simp
    · rw [Nat.max_eq_left (by omega)]
  · have hmod : (b.pptr + n) % 2 ^ 64 = b.pptr + n :=
      Nat.mod_eq_of_lt (Nat.lt_of_le_of_lt hn (by decide))
    rw [if_neg henough, hmod, if_neg (Nat.not_lt.mpr hn)]
    have hlonger := resize_longer b.mBuf (n := b.pptr + n) (by omega)
    have hlength : (resize b.mBuf (b.pptr + n)).length = b.pptr + n := by
      rw [hlonger, List.length_append, List.length_replicate]
      omega
    have hord : Ordered (setp (setg { b with mBuf := resize b.mBuf (b.pptr + n) } 0 b.gptr b.pptr)
        b.pptr (b.pptr + n)) :=
      ⟨Nat.zero_le _, hb.gptr_le_pptr, Nat.le_refl _, Nat.le_add_right .., hlength.symm⟩
    have hfits : Fits (setp (setg { b with mBuf := resize b.mBuf (b.pptr + n) } 0 b.gptr b.pptr)
        b.pptr (b.pptr + n)) :=
      hlength.trans_le hn
    refine ⟨_, rfl, hord, hfits, ?_, ?_⟩
    · have hqueue : ((resize b.mBuf (b.pptr + n)).drop b.gptr).take (b.pptr - b.gptr) = data b := by
        rw [hlonger, hb.data_eq hf, List.drop_append_of_le_length (hb.gptr_le_pptr.trans hle),
          List.take_append_of_le_length (by rw [List.length_drop]; omega)]
      have hrest : (resize b.mBuf (b.pptr + n)).drop b.pptr
          = (view b).room ++ List.replicate (n - (view b).room.length) 0 := by
        rw [hlonger, List.drop_append_of_le_length hle, hroom]
        exact congrArg (fun k => _ ++ List.replicate k 0) (by omega)
      exact congrArg₂ ByteQueue.mk ((hord.data_eq hfits).trans hqueue) hrest
    · exact hlength.trans (by omega)

theorem reserve_pptr {b' : StreamBuffer} {n : Nat} (h : reserve b n = some b') :
    b'.pptr = b.pptr := by
  unfold reserve at h
  split at h
  · rw [← Option.some.inj h]
  · dsimp only at h
    split at h
    · cases h
    · rw [← Option.some.inj h]
      rfl

theorem writeSpan_nil (b : StreamBuffer) (i : Nat) : writeSpan b i [] = b := by
  unfold writeSpan overlay
  rw [List.append_nil, List.length_nil, Nat.add_zero, List.take_append_drop]

/-- Bytes written into the span leave the queue alone. -/
theorem writeSpan_spec (hb : Ordered b) (hf : Fits b) {i : Nat} {bs : List UInt8}
    (hi : i + bs.length ≤ (view b).room.length) :
    Ordered (writeSpan b i bs) ∧ Fits (writeSpan b i bs) ∧
      view (writeSpan b i bs) = { view b with room := overlay (view b).room i bs } := by
  have hroom := Ordered.length_room b
  have hle := hb.pptr_le_length
  have hgp := hb.gptr_le_pptr
  have hlength : (overlay b.mBuf (b.pptr + i) bs).length = b.mBuf.length :=
    length_overlay (by omega)
  have hord : Ordered (writeSpan b i bs) :=
    ⟨hb.eback_le, hb.gptr_le, hb.egptr_le, hb.pptr_le, hb.epptr_eq.trans hlength.symm⟩
  have hfits : Fits (writeSpan b i bs) := hlength.trans_le hf
  refine ⟨hord, hfits, ?_⟩
  have hsplit : overlay b.mBuf (b.pptr + i) bs
      = b.mBuf.take b.pptr ++ overlay (b.mBuf.drop b.pptr) i bs := by
    unfold overlay
    rw [List.take_add, List.drop_drop, Nat.add_assoc, List.append_assoc, List.append_assoc,
      List.append_assoc]
  have htake : (b.mBuf.take b.pptr).length = b.pptr := by
    rw [List.length_take]
    omega
  have hqueue : ((overlay b.mBuf (b.pptr + i) bs).drop b.gptr).take (b.pptr - b.gptr)
      = data b := by
    rw [hsplit, hb.data_eq hf, List.drop_append_of_le_length (hgp.trans_eq htake.symm),
      List.take_append_of_le_length (by rw [List.length_drop, htake]), List.drop_take,
      List.take_take, Nat.min_self]
  have hrest : (overlay b.mBuf (b.pptr + i) bs).drop b.pptr
      = overlay (b.mBuf.drop b.pptr) i bs := by
    rw [hsplit]
    exact List.drop_left' htake
  exact congrArg₂ ByteQueue.mk ((hord.data_eq hfits).trans hqueue) hrest

/-- A character put where there is room. -/
theorem putChar_spec (hb : Ordered b) (hf : Fits b) (c : UInt8) (hroom : (view b).room ≠ []) :
    Ordered (putChar b c) ∧ view (putChar b c) = (view b).put c := by
  have hpos : 0 + [c].length ≤ (view b).room.length := List.length_pos_iff.mpr hroom
  obtain ⟨hw, hwf, hview⟩ := writeSpan_spec hb hf hpos
  have hplace : (view (writeSpan b 0 [c])).room = c :: (view b).room.drop 1 := by
    rw [hview]
    rfl
  obtain ⟨hord, hadv⟩ := advance_spec hw hwf (k := 1) (e := b.egptr)
    (by rw [hplace]; exact Nat.succ_pos _) hw.gptr_le (Nat.le_add_right_of_le hw.egptr_le)
  have hone := bump_one (hb.pptr_le_max hf)
  have hput : putChar b c = { writeSpan b 0 [c] with pptr := b.pptr + 1 } :=
    congrArg (fun p => { writeSpan b 0 [c] with pptr := p }) hone
  rw [hput]
  refine ⟨hord, hadv.trans ?_⟩
  have hqueue : data (writeSpan b 0 [c]) = data b := congrArg ByteQueue.queue hview
  rw [hplace, hqueue]
  rfl

theorem overflow_spec (hb : Ordered b) (hf : Fits b) (hlen : b.pptr + 64 ≤ maxSize) (c : UInt8) :
    ∃ b', overflow b (some c) = some (some c, b') ∧ Ordered b' ∧
      view b' = ((view b).grow 64).put c := by
  obtain ⟨b', hres, hb', hf', hview, -⟩ := reserve_spec hb hf hlen
  have hroom : (view b').room ≠ [] := by
    rw [hview]
    exact List.length_pos_iff.mp (Nat.lt_of_lt_of_le (by decide) ((view b).le_grow 64))
  obtain ⟨hord, hput⟩ := putChar_spec hb' hf' c hroom
  refine ⟨putChar b' c, ?_, hord, hput.trans (by rw [hview])⟩
  unfold overflow
  rw [hres]
  rfl

theorem grow_zero (q : ByteQueue) : q.grow 0 = q := by
  unfold ByteQueue.grow
  rw [Nat.zero_sub]
  simp

theorem sputc_spec (hb : Ordered b) (hf : Fits b) (hlen : b.pptr + 64 ≤ maxSize) (c : UInt8) :
    ∃ b', sputc b c = some (some c, b') ∧ Ordered b' ∧
      view b' = ((view b).grow (if (view b).room = [] then 64 else 0)).put c := by
  have hroom := Ordered.length_room b
  have hless := signed_lt_iff (hb.pptr_le_max hf) (hb.epptr_eq.trans_le hf)
  unfold sputc
  by_cases hlt : b.pptr < b.epptr
  · have hne : (view b).room ≠ [] := by
      refine List.length_pos_iff.mp ?_
      rw [hroom, ← hb.epptr_eq]
      omega
    rw [if_pos (hless.mpr hlt), if_neg hne, grow_zero]
    exact ⟨_, rfl, putChar_spec hb hf c hne⟩
  · have hnil : (view b).room = [] := by
      refine List.length_eq_zero_iff.mp ?_
      rw [hroom, ← hb.epptr_eq]
      omega
    rw [if_neg (mt hless.mp hlt), if_pos hnil]
    exact overflow_spec hb hf hlen c

/-- The character at `gptr` is the head of the queue. -/
theorem head_data (hb : Ordered b) (hf : Fits b) :
    (data b).head? = if b.gptr < b.pptr then some (peek b) else none := by
  have hle := hb.pptr_le_length
  rw [hb.data_eq hf, List.head?_take]
  by_cases hlt : b.gptr < b.pptr
  · rw [if_neg (by omega), if_pos hlt, List.head?_drop]
    unfold peek
    rw [List.getD_eq_getElem?_getD, List.getElem?_eq_getElem (by omega), Option.getD_some]
  · rw [if_pos (by omega), if_neg hlt]

/-- Inside the storage, `underflow` and `sbumpc` compare offsets. -/
theorem underflow_eq (hb : Ordered b) (hf : Fits b) :
    underflow b =
      if b.gptr < b.pptr then (some (peek b), { b with egptr := b.pptr }) else (none, b) := by
  have hmax := hb.pptr_le_max hf
  have hless := signed_lt_iff (hb.gptr_le_pptr.trans hmax) hmax
  by_cases hlt : b.gptr < b.pptr
  · rw [if_pos hlt]
    exact if_pos (hless.mpr hlt)
  · rw [if_neg hlt]
    exact if_neg (mt hless.mp hlt)

theorem sbumpc_eq (hb : Ordered b) (hf : Fits b) :
    sbumpc b =
      if b.gptr < b.egptr then (some (peek b), { b with gptr := b.gptr + 1 })
      else if b.gptr < b.pptr then
        (some (peek b), { b with gptr := b.gptr + 1, egptr := b.pptr })
      else (none, b) := by
  have hmax := hb.pptr_le_max hf
  have hgmax := hb.gptr_le_pptr.trans hmax
  have hless := signed_lt_iff hgmax (hb.egptr_le.trans hmax)
  have hstep : ∀ e, gbump { b with egptr := e } 1 = { b with gptr := b.gptr + 1, egptr := e } :=
    fun e => congrArg (fun p => { b with gptr := p, egptr := e }) (bump_one hgmax)
  unfold sbumpc
  rw [underflow_eq hb hf]
  by_cases hget : b.gptr < b.egptr
  · rw [if_pos hget, if_pos (hless.mpr hget)]
    exact congrArg (some (peek b), ·) (hstep b.egptr)
  · rw [if_neg hget, if_neg (mt hless.mp hget)]
    by_cases hlt : b.gptr < b.pptr
    · rw [if_pos hlt, if_pos hlt]
      exact congrArg (some (peek b), ·) (hstep b.pptr)
    · rw [if_neg hlt, if_neg hlt]

theorem underflow_spec (hb : Ordered b) (hf : Fits b) :
    (underflow b).1 = (data b).head? ∧ Ordered (underflow b).2 ∧
      view (underflow b).2 = view b := by
  rw [head_data hb hf, underflow_eq hb hf]
  by_cases hlt : b.gptr < b.pptr
  · rw [if_pos hlt, if_pos hlt]
    exact ⟨rfl, ⟨hb.eback_le, hb.gptr_le_pptr, Nat.le_refl _, hb.pptr_le, hb.epptr_eq⟩, rfl⟩
  · rw [if_neg hlt, if_neg hlt]
    exact ⟨rfl, hb, rfl⟩

theorem sbumpc_spec (hb : Ordered b) (hf : Fits b) :
    (sbumpc b).1 = (data b).head? ∧ Ordered (sbumpc b).2 ∧
      view (sbumpc b).2 = { view b with queue := (data b).tail } := by
  rw [head_data hb hf, ← List.drop_one, sbumpc_eq hb hf]
  by_cases hget : b.gptr < b.egptr
  · rw [if_pos hget, if_pos (Nat.lt_of_lt_of_le hget hb.egptr_le)]
    exact ⟨rfl, retire_spec hb hf hget hb.egptr_le⟩
  · rw [if_neg hget]
    by_cases hlt : b.gptr < b.pptr
    · -- the get area is used up, but bytes have been put behind it
      rw [if_pos hlt, if_pos hlt]
      exact ⟨rfl, retire_spec hb hf hlt (Nat.le_refl _)⟩
    · rw [if_neg hlt, if_neg hlt]
      have hnil : data b = [] := by
        refine List.length_eq_zero_iff.mp ?_
        rw [hb.length_data hf]
        omega
      refine ⟨rfl, hb, ?_⟩
      show view b = ⟨(data b).drop 1, (view b).room⟩
      rw [hnil]
      exact congrArg (ByteQueue.mk · (view b).room) hnil

theorem size_spec (hb : Ordered b) (hf : Fits b) : size b = (data b).length :=
  (hb.size_eq hf).trans (hb.length_data hf).symm

theorem tryGetData_spec (hb : Ordered b) (hf : Fits b) (n : Nat) :
    tryGetData b n = if n ≤ (data b).length then some ((data b).take n) else none := by
  have hsize := size_spec hb hf
  unfold tryGetData
  by_cases hn : n ≤ (data b).length
  · have htake : (data b).take n = (b.mBuf.drop b.gptr).take n := by
      unfold data
      rw [List.take_take, hsize, Nat.min_eq_left hn]
    rw [if_neg (by omega), if_pos hn, htake]
  · rw [if_pos (by omega), if_neg hn]

end InOrder

/-! ## Every sequence of operations -/

/-- All positions are below `2 ^ 31`. -/
def Small (b : StreamBuffer) : Prop := b.mBuf.length < 2 ^ 31

instance (b : StreamBuffer) : Decidable (Small b) :=
  inferInstanceAs (Decidable (b.mBuf.length < 2 ^ 31))

/-- **ONE OPERATION**: it answers as the queue does and keeps the order. -/
theorem exec_spec {b : StreamBuffer} (hb : Ordered b) (hs : Small b) {op : Op} (hv : op.Valid)
    (hc : op.count < 2 ^ 31) :
    ∃ b', exec b op = some (b', ((view b).exec op).2) ∧ Ordered b' ∧
      view b' = ((view b).exec op).1 := by
  have hsmall : b.mBuf.length < 2 ^ 31 := hs
  have hf : Fits b := hsmall.le.trans (by decide)
  have hp : b.pptr < 2 ^ 31 := Nat.lt_of_le_of_lt hb.pptr_le_length hsmall
  have hmax : ∀ n, n < 2 ^ 31 → b.pptr + n ≤ maxSize := fun n hn => by
    unfold maxSize
    omega
  cases op with
  | prepare n i bs =>
      obtain ⟨b', hres, hb', hf', hview, -⟩ := reserve_spec hb hf (hmax n hc)
      have hi : i + bs.length ≤ (view b').room.length := by
        rw [hview]
        exact Nat.le_trans hv ((view b).le_grow n)
      obtain ⟨hord, -, hwrite⟩ := writeSpan_spec hb' hf' hi
      refine ⟨writeSpan b' i bs, ?_, hord, hwrite.trans (by rw [hview]; rfl)⟩
      show (reserve b n).map _ = _
      rw [hres]
      rfl
  | commit n =>
      obtain ⟨hord, -, hview⟩ := commit_spec hb hf
        (Nat.lt_of_le_of_lt (Nat.min_le_left n (view b).room.length) hc)
      exact ⟨_, rfl, hord, hview⟩
  | consume n =>
      obtain ⟨hord, -, hview⟩ := consume_spec hb hf
        (Nat.lt_of_le_of_lt (Nat.min_le_left n (data b).length) hc)
      exact ⟨_, rfl, hord, hview⟩
  | reserve n =>
      obtain ⟨b', hres, hb', -, hview, -⟩ := reserve_spec hb hf (hmax n hc)
      refine ⟨b', ?_, hb', hview⟩
      show (reserve b n).map _ = _
      rw [hres]
      rfl
  | sputc c =>
      obtain ⟨b', hput, hb', hview⟩ := sputc_spec hb hf (hmax 64 (by decide)) c
      refine ⟨b', ?_, hb', hview⟩
      show (sputc b c).map _ = _
      rw [hput]
      rfl
  | overflow c =>
      cases c with
      | none => exact ⟨b, rfl, hb, rfl⟩
      | some c =>
          obtain ⟨b', hput, hb', hview⟩ := overflow_spec hb hf (hmax 64 (by decide)) c
          refine ⟨b', ?_, hb', hview⟩
          show (overflow b (some c)).map _ = _
          rw [hput]
          rfl
  | sbumpc =>
      obtain ⟨hanswer, hord, hview⟩ := sbumpc_spec hb hf
      exact ⟨_, congrArg (fun a => some ((sbumpc b).2, Answer.char a)) hanswer, hord, hview⟩
  | underflow =>
      obtain ⟨hanswer, hord, hview⟩ := underflow_spec hb hf
      exact ⟨_, congrArg (fun a => some ((underflow b).2, Answer.char a)) hanswer, hord, hview⟩
  | data => exact ⟨b, rfl, hb, rfl⟩
  | size => exact ⟨b, congrArg (fun k => some (b, Answer.size k)) (size_spec hb hf), hb, rfl⟩
  | tryGetData n =>
      exact ⟨b, congrArg (fun o => some (b, Answer.found o)) (tryGetData_spec hb hf n), hb, rfl⟩

/-- The buffer keeps the queue and has answered as it. -/
def Keeps (s : StreamBuffer × List Answer) (a : ByteQueue × List Answer) : Prop :=
  Ordered s.1 ∧ view s.1 = a.1 ∧ s.2 = a.2

theorem keeps_init : Keeps bufferMachine.init queueMachine.init :=
  ⟨⟨Nat.le_refl _, Nat.le_refl _, Nat.le_refl _, Nat.zero_le _, rfl⟩, by decide +kernel, rfl⟩

theorem keeps_step (s : StreamBuffer × List Answer) (a : ByteQueue × List Answer) (op : Op)
    (hK : Keeps s a) (hs : Small s.1) (hop : op.Valid ∧ op.count < 2 ^ 31) :
    ∃ s' a', bufferMachine.step s op = some s' ∧ queueMachine.step a op = some a' ∧
      Keeps s' a' := by
  obtain ⟨hb, hview, hanswers⟩ := hK
  obtain ⟨b', hexec, hb', hview'⟩ := exec_spec hb hs hop.1 hop.2
  refine ⟨(b', s.2 ++ [((view s.1).exec op).2]), _, ?_, rfl, hb', ?_, ?_⟩
  · show (exec s.1 op).map _ = _
    rw [hexec]
    rfl
  · rw [hview', hview]
  · rw [hview, hanswers]

/-- **THE BUFFER IS A QUEUE**: after every sequence of operations whose positions
    and counts stay below `2 ^ 31`, the operations have answered as on the queue of
    bytes, the pointers are in order, `data()` is the queue, and a `prepare` or
    `reserve` has left the room it was asked for. -/
theorem stream_buffer_refines_queue (ops : List Op)
    (hops : ∀ op ∈ ops, op.Valid ∧ op.count < 2 ^ 31)
    (hsmall : Throughout bufferMachine (fun s => Small s.1) ops) :
    ∃ b q answers, run bufferMachine ops = some (b, answers) ∧
      run queueMachine ops = some (q, answers) ∧ Ordered b ∧ data b = q.queue ∧
      b.mBuf.drop b.pptr = q.room ∧
      ∀ n, ops.getLast?.bind Op.asks = some n → n ≤ b.epptr - b.pptr := by
  obtain ⟨⟨b, answers⟩, ⟨q, answers'⟩, hrun, hrun', hb, hview, hanswers⟩ :=
    run_simulation keeps_init keeps_step ops hops hsmall
  obtain rfl : answers = answers' := hanswers
  have hroom : b.mBuf.drop b.pptr = q.room := congrArg ByteQueue.room hview
  refine ⟨b, q, answers, hrun, hrun', hb, congrArg ByteQueue.queue hview, hroom, ?_⟩
  intro n hn
  obtain ⟨op, hlast, hask⟩ := Option.bind_eq_some_iff.mp hn
  obtain ⟨pre, rfl⟩ := List.getLast?_eq_some_iff.mp hlast
  obtain ⟨⟨q', answers'⟩, -, hstep⟩ := runFrom_snoc.mp hrun'
  have hq : (q'.exec op).1 = q := congrArg Prod.fst (Option.some.inj hstep)
  have hle := ByteQueue.le_room (q := q') (hops op (by simp)).1 hask
  rw [hq, ← hroom, List.length_drop, ← hb.epptr_eq] at hle
  exact hle

/-- Five bytes are written, committed, found and consumed. -/
def writeHello : List Op :=
  [.prepare 32 0 [104, 101, 108, 108, 111], .tryGetData 5, .commit 5, .tryGetData 5,
    .consume 5, .data]

/-- The theorem at that sequence. -/
theorem stream_buffer_refines_queue_writeHello :
    ∃ b q answers, run bufferMachine writeHello = some (b, answers) ∧
      run queueMachine writeHello = some (q, answers) ∧ Ordered b ∧ data b = q.queue ∧
      b.mBuf.drop b.pptr = q.room ∧
      ∀ n, writeHello.getLast?.bind Op.asks = some n → n ≤ b.epptr - b.pptr :=
  stream_buffer_refines_queue writeHello (by decide) (throughout_of_inits (by decide +kernel))

end CoioStreamBuffer
