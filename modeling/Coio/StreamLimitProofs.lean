import Coio.StreamBufferProofs

/-! # `stream_buffer` at the limits of its types

    `commit` and `consume` give `pbump` and `gbump` a `size_t` where they take an
    `int`, and `reserve` adds the request to the put position before it resizes.
    `CoioStreamBuffer` stays below the sizes at which this matters; here every
    `size_t` is an argument.

    Each operation has a range.  A `commit` or `consume` moves its pointer as it
    should exactly if what it takes can be counted by an `int`.  A `reserve` or
    `prepare` either throws or leaves the room it was asked for, exactly if the room
    is already there or the new end is a `size_t`: where the sum wraps, the vector is
    cut off below `pptr`.  The operations of a run all do what they should exactly if
    they all stay in their ranges. -/

namespace CoioStreamLimit

open CoioMachine CoioStreamBuffer

/-! ## Calls -/

/-- The buffer after a call; `resize` throws before anything has been changed. -/
def attempt (b : StreamBuffer) (op : Op) : StreamBuffer := (exec b op).elim b Prod.fst

def callMachine : Machine StreamBuffer Op where
  init := init
  step b op := some (attempt b op)

/-- What is promised of a call. -/
def Promised (b : StreamBuffer) (op : Op) : Prop :=
  Ordered (attempt b op) ∧
    match op with
    | .commit n => (attempt b op).pptr = b.pptr + min n (b.epptr - b.pptr)
    | .consume n => (attempt b op).gptr = b.gptr + min n (b.pptr - b.gptr)
    | .reserve n | .prepare n _ _ =>
        (exec b op = none ∧ attempt b op = b) ∨
          (data (attempt b op) = data b ∧ n ≤ (attempt b op).epptr - (attempt b op).pptr)
    | _ => True

/-- Where the conversions and the sum are exact. -/
def InRange (b : StreamBuffer) : Op → Prop
  | .commit n => min n (b.epptr - b.pptr) < 2 ^ 31
  | .consume n => min n (b.pptr - b.gptr) < 2 ^ 31
  | .reserve n | .prepare n _ _ => n ≤ b.epptr - b.pptr ∨ b.pptr + n < 2 ^ 64
  | _ => True

instance (b : StreamBuffer) (op : Op) : Decidable (InRange b op) :=
  match op with
  | .commit n => inferInstanceAs (Decidable (min n (b.epptr - b.pptr) < 2 ^ 31))
  | .consume n => inferInstanceAs (Decidable (min n (b.pptr - b.gptr) < 2 ^ 31))
  | .reserve n | .prepare n _ _ =>
      inferInstanceAs (Decidable (n ≤ b.epptr - b.pptr ∨ b.pptr + n < 2 ^ 64))
  | .sputc _ | .overflow _ | .sbumpc | .underflow | .data | .size | .tryGetData _ =>
      isTrue trivial

/-- The pointers are in order, and the storage is no longer than a vector can be. -/
structure Sized (b : StreamBuffer) : Prop extends Ordered b where
  epptr_le : b.epptr ≤ maxSize

theorem sized_init : Sized init :=
  ⟨keeps_init.1, by decide⟩

/-! ## Narrowing -/

/-- A pointer that should stay in a vector moves as far as the count says exactly if the
    count is an `int`. -/
theorem bump_exact_iff {p k : Nat} (hpk : p + k ≤ maxSize) :
    bump p (toInt k) = p + k ↔ k < 2 ^ 31 := by
  unfold maxSize at hpk
  constructor
  · intro h
    by_contra hk
    have hlow : -(2 ^ 31) ≤ toInt k := Int.le_bmod (by decide)
    have hhigh : toInt k < 2 ^ 31 := Int.bmod_lt (by decide)
    -- the pointer is `k - toInt k` bytes off, less than the `2 ^ 64` that would not show
    unfold bump toSize at h
    omega
  · exact bump_small (by omega)

section Calls

variable {b : StreamBuffer}

theorem Sized.fits (hb : Sized b) : Fits b :=
  hb.epptr_eq.symm.trans_le hb.epptr_le

theorem Sized.length_room (hb : Sized b) : (view b).room.length = b.epptr - b.pptr := by
  rw [Ordered.length_room, hb.epptr_eq]

/-! ## One call -/

theorem commit_promised_iff (hb : Sized b) (n : Nat) :
    Promised b (.commit n) ↔ InRange b (.commit n) := by
  have hroom := hb.length_room
  have hmax := hb.epptr_le
  have hpptr := hb.pptr_le
  have hmove : (commit b n).pptr = bump b.pptr (toInt (min n (b.epptr - b.pptr))) := by
    rw [commit_bump hb.toOrdered hb.fits, hroom]
  have hexact : (commit b n).pptr = b.pptr + min n (b.epptr - b.pptr) ↔
      min n (b.epptr - b.pptr) < 2 ^ 31 := by
    rw [hmove]
    exact bump_exact_iff (by omega)
  constructor
  · rintro ⟨-, hadvance⟩
    exact hexact.mp hadvance
  · intro hrange
    have hn : min n (view b).room.length < 2 ^ 31 := hroom.symm ▸ hrange
    exact ⟨(commit_spec hb.toOrdered hb.fits hn).1, hexact.mpr hrange⟩

theorem consume_promised_iff (hb : Sized b) (n : Nat) :
    Promised b (.consume n) ↔ InRange b (.consume n) := by
  have hlength := hb.length_data hb.fits
  have hmax := hb.pptr_le_max hb.fits
  have hgp := hb.gptr_le_pptr
  have hmove : (consume b n).gptr = bump b.gptr (toInt (min n (b.pptr - b.gptr))) := by
    rw [consume_bump hb.toOrdered hb.fits, hlength]
  have hexact : (consume b n).gptr = b.gptr + min n (b.pptr - b.gptr) ↔
      min n (b.pptr - b.gptr) < 2 ^ 31 := by
    rw [hmove]
    exact bump_exact_iff (by omega)
  constructor
  · rintro ⟨-, hadvance⟩
    exact hexact.mp hadvance
  · intro hrange
    have hn : min n (data b).length < 2 ^ 31 := hlength.symm ▸ hrange
    exact ⟨(consume_spec hb.toOrdered hb.fits hn).1, hexact.mpr hrange⟩

/-- A new end that no vector can have. -/
theorem reserve_throws (hb : Sized b) {n : Nat} (hlow : maxSize < b.pptr + n)
    (hhigh : b.pptr + n < 2 ^ 64) : reserve b n = none := by
  have hle := hb.epptr_le
  have hpptr := hb.pptr_le
  unfold reserve
  rw [hb.room_eq hb.fits, hb.length_room, if_neg (by omega), Nat.mod_eq_of_lt hhigh]
  exact if_pos hlow

/-- A new end that wraps lies below `pptr`. -/
theorem reserve_wraps (hb : Sized b) {n : Nat} (hn : n < 2 ^ 64)
    (hroom : b.epptr - b.pptr < n) (hwrap : 2 ^ 64 ≤ b.pptr + n) :
    ∃ b', reserve b n = some b' ∧ b'.epptr < b'.pptr := by
  have hle : b.pptr ≤ maxSize := hb.pptr_le.trans hb.epptr_le
  have hmax : maxSize < 2 ^ 64 := by decide
  obtain ⟨e, hmod, hshort⟩ : ∃ e, (b.pptr + n) % 2 ^ 64 = e ∧ e < b.pptr := by
    refine ⟨b.pptr + n - 2 ^ 64, ?_, by omega⟩
    rw [Nat.mod_eq_sub_mod hwrap]
    exact Nat.mod_eq_of_lt (by omega)
  refine ⟨setp (setg { b with mBuf := resize b.mBuf e } 0 b.gptr b.pptr) b.pptr e, ?_, hshort⟩
  unfold reserve
  rw [hb.room_eq hb.fits, hb.length_room, if_neg (Nat.not_le.mpr hroom), hmod]
  exact if_neg (Nat.not_lt.mpr (hshort.le.trans hle))

/-- Only `reserve` moves the end of the storage. -/
theorem reserve_epptr_le {b' : StreamBuffer} {n : Nat} (hb : b.epptr ≤ maxSize)
    (h : reserve b n = some b') : b'.epptr ≤ maxSize := by
  unfold reserve at h
  split at h
  · rw [← Option.some.inj h]
    exact hb
  · dsimp only at h
    split at h
    · cases h
    · rename_i hle
      rw [← Option.some.inj h]
      exact Nat.le_of_not_lt hle

/-- In range, `reserve` throws or makes room. -/
theorem reserve_cases (hb : Sized b) {n : Nat}
    (hrange : n ≤ b.epptr - b.pptr ∨ b.pptr + n < 2 ^ 64) :
    reserve b n = none ∨
      ∃ b', reserve b n = some b' ∧ Sized b' ∧ view b' = (view b).grow n := by
  have hmax := hb.epptr_le
  have hpptr := hb.pptr_le
  by_cases hthrow : maxSize < b.pptr + n
  · refine .inl (reserve_throws hb hthrow ?_)
    rcases hrange with henough | hhigh
    · omega
    · exact hhigh
  · obtain ⟨b', hres, hb', -, hview, -⟩ :=
      reserve_spec hb.toOrdered hb.fits (Nat.le_of_not_lt hthrow)
    exact .inr ⟨b', hres, ⟨hb', reserve_epptr_le hmax hres⟩, hview⟩

/-- A call that makes room and then writes into it, if it writes at all. -/
theorem room_promised_iff (hb : Sized b) {op : Op} {n : Nat} (i : Nat) (bs : List UInt8)
    (hn : n < 2 ^ 64) (hi : i + bs.length ≤ n)
    (hexec : exec b op = (reserve b n).map fun b' => (writeSpan b' i bs, .done)) :
    (Ordered (attempt b op) ∧ ((exec b op = none ∧ attempt b op = b) ∨
        (data (attempt b op) = data b ∧ n ≤ (attempt b op).epptr - (attempt b op).pptr))) ↔
      n ≤ b.epptr - b.pptr ∨ b.pptr + n < 2 ^ 64 := by
  have hattempt : attempt b op = (reserve b n).elim b (writeSpan · i bs) := by
    unfold attempt
    rw [hexec, Option.elim_map]
    rfl
  constructor
  · rintro ⟨hord, -⟩
    by_contra hout
    obtain ⟨hroom, hwrap⟩ := not_or.mp hout
    obtain ⟨b', hres, hlt⟩ := reserve_wraps hb hn (Nat.lt_of_not_le hroom) (Nat.le_of_not_lt hwrap)
    rw [hattempt, hres] at hord
    exact absurd hord.pptr_le (Nat.not_le.mpr hlt)
  · intro hrange
    rcases reserve_cases hb hrange with hnone | ⟨b', hres, hb', hview⟩
    · rw [hattempt, hexec, hnone]
      exact ⟨hb.toOrdered, .inl ⟨rfl, rfl⟩⟩
    · have hroom : n ≤ (view b').room.length := by
        rw [hview]
        exact (view b).le_grow n
      obtain ⟨hord, -, hwrite⟩ := writeSpan_spec hb'.toOrdered hb'.fits (hi.trans hroom)
      have hdata : data (writeSpan b' i bs) = data b :=
        (congrArg ByteQueue.queue hwrite).trans (congrArg ByteQueue.queue hview)
      rw [hattempt, hres]
      exact ⟨hord, .inr ⟨hdata, hb'.length_room ▸ hroom⟩⟩

/-- `overflow` asks for 64 bytes, which never wraps. -/
theorem overflow_ordered (hb : Sized b) (c : UInt8) :
    Ordered ((overflow b (some c)).elim b Prod.snd) := by
  by_cases hthrow : maxSize < b.pptr + 64
  · have hle : b.pptr ≤ maxSize := hb.pptr_le.trans hb.epptr_le
    have hhigh : b.pptr + 64 < 2 ^ 64 := by
      unfold maxSize at hle
      omega
    unfold overflow
    rw [reserve_throws hb hthrow hhigh]
    exact hb.toOrdered
  · obtain ⟨b', hput, hb', -⟩ :=
      overflow_spec hb.toOrdered hb.fits (Nat.le_of_not_lt hthrow) c
    rw [hput]
    exact hb'

theorem sputc_ordered (hb : Sized b) (c : UInt8) : Ordered ((sputc b c).elim b Prod.snd) := by
  have hless := signed_lt_iff (hb.pptr_le_max hb.fits) hb.epptr_le
  unfold sputc
  by_cases hlt : b.pptr < b.epptr
  · have hroom : (view b).room ≠ [] := by
      refine List.length_pos_iff.mp ?_
      rw [hb.length_room]
      omega
    rw [if_pos (hless.mpr hlt)]
    exact (putChar_spec hb.toOrdered hb.fits c hroom).1
  · rw [if_neg (mt hless.mp hlt)]
    exact overflow_ordered hb c

/-- **ONE CALL**: it does what is promised exactly if it stays in its range. -/
theorem promised_iff_inRange (hb : Sized b) {op : Op} (hv : op.Valid) (hc : op.count < 2 ^ 64) :
    Promised b op ↔ InRange b op := by
  cases op with
  | prepare n i bs => exact room_promised_iff hb i bs hc hv rfl
  | commit n => exact commit_promised_iff hb n
  | consume n => exact consume_promised_iff hb n
  | reserve n =>
      refine room_promised_iff hb 0 [] hc (Nat.zero_le n) ?_
      show (reserve b n).map _ = _
      congr 1
      funext b'
      rw [writeSpan_nil]
  | sputc c =>
      refine iff_of_true ⟨?_, trivial⟩ trivial
      unfold attempt exec
      rw [Option.elim_map]
      exact sputc_ordered hb c
  | overflow c =>
      refine iff_of_true ⟨?_, trivial⟩ trivial
      cases c with
      | none => exact hb.toOrdered
      | some c =>
          unfold attempt exec
          rw [Option.elim_map]
          exact overflow_ordered hb c
  | sbumpc => exact iff_of_true ⟨(sbumpc_spec hb.toOrdered hb.fits).2.1, trivial⟩ trivial
  | underflow => exact iff_of_true ⟨(underflow_spec hb.toOrdered hb.fits).2.1, trivial⟩ trivial
  | data => exact iff_of_true ⟨hb.toOrdered, trivial⟩ trivial
  | size => exact iff_of_true ⟨hb.toOrdered, trivial⟩ trivial
  | tryGetData n => exact iff_of_true ⟨hb.toOrdered, trivial⟩ trivial

/-! ## Every sequence of calls -/

/-- What holds of the buffer, and of what is made of it once there is room. -/
theorem elim_reserve (Q : StreamBuffer → Prop) {f : StreamBuffer → StreamBuffer} {n : Nat}
    (hb : Q b) (hf : ∀ b', reserve b n = some b' → Q (f b')) : Q ((reserve b n).elim b f) := by
  cases hres : reserve b n with
  | none => exact hb
  | some b' => exact hf b' hres

/-- What a `commit` leaves as it is. -/
def storage (b : StreamBuffer) : List UInt8 × Nat × Nat := (b.mBuf, b.pbase, b.epptr)

/-- What the operations on the get area leave as it is. -/
def putArea (b : StreamBuffer) : (List UInt8 × Nat × Nat) × Nat := (storage b, b.pptr)

theorem setg_putArea (b : StreamBuffer) (e g h : Nat) : putArea (setg b e g h) = putArea b := rfl

theorem gbump_putArea (b : StreamBuffer) (k : Int) : putArea (gbump b k) = putArea b := rfl

theorem pbump_storage (b : StreamBuffer) (k : Int) : storage (pbump b k) = storage b := rfl

theorem commit_storage (b : StreamBuffer) (n : Nat) : storage (commit b n) = storage b := by
  unfold commit
  exact (congrArg Prod.fst (setg_putArea ..)).trans (pbump_storage b _)

theorem consume_putArea (b : StreamBuffer) (n : Nat) : putArea (consume b n) = putArea b := by
  unfold consume
  rw [gbump_putArea]
  split
  · exact setg_putArea ..
  · rfl

theorem underflow_putArea (b : StreamBuffer) : putArea (underflow b).2 = putArea b := by
  unfold underflow
  split
  · exact setg_putArea ..
  · rfl

theorem sbumpc_putArea (b : StreamBuffer) : putArea (sbumpc b).2 = putArea b := by
  have hunder := underflow_putArea b
  unfold sbumpc
  split
  · exact gbump_putArea ..
  · generalize underflow b = r at hunder
    obtain ⟨c, b'⟩ := r
    cases c with
    | none => exact hunder
    | some c => exact (gbump_putArea b' 1).trans hunder

theorem storage_of_putArea {b' : StreamBuffer} (h : putArea b' = putArea b) :
    storage b' = storage b :=
  congrArg Prod.fst h

theorem pbase_of_storage {b' : StreamBuffer} (h : storage b' = storage b) : b'.pbase = b.pbase :=
  congrArg (·.2.1) h

theorem epptr_le_of_storage {b' : StreamBuffer} (h : storage b' = storage b)
    (hb : b.epptr ≤ maxSize) : b'.epptr ≤ maxSize :=
  (congrArg (fun t => t.2.2) h).trans_le hb

/-- A property of the put area that survives `reserve` and a put character, a `commit` in
    range and bytes written into the span, survives every call. -/
theorem attempt_keeps (Q : StreamBuffer → Prop) (hmax : b.pptr ≤ maxSize) (hb : Q b) {op : Op}
    (harea : ∀ b', putArea b' = putArea b → Q b')
    (hcommit : ∀ n, op = .commit n → Q (commit b n))
    (hreserve : ∀ n b', reserve b n = some b' → Q b')
    (hwrite : ∀ b' i bs, Q b' → Q (writeSpan b' i bs))
    (hput : ∀ b' c, b'.pptr ≤ maxSize → Q b' → Q (putChar b' c)) : Q (attempt b op) := by
  have hover : ∀ c, Q ((overflow b (some c)).elim b Prod.snd) := by
    intro c
    unfold overflow
    rw [Option.elim_map]
    exact elim_reserve Q hb fun b' hres =>
      hput b' c ((reserve_pptr hres).trans_le hmax) (hreserve 64 b' hres)
  unfold attempt exec
  cases op with
  | prepare n i bs =>
      dsimp only
      rw [Option.elim_map]
      exact elim_reserve Q hb fun b' hres => hwrite b' i bs (hreserve n b' hres)
  | commit n => exact hcommit n rfl
  | consume n => exact harea _ (consume_putArea b n)
  | reserve n =>
      dsimp only
      rw [Option.elim_map]
      exact elim_reserve Q hb (hreserve n)
  | sputc c =>
      dsimp only
      rw [Option.elim_map]
      unfold sputc
      split
      · exact hput b c hmax hb
      · exact hover c
  | overflow c =>
      dsimp only
      rw [Option.elim_map]
      cases c with
      | none => exact hb
      | some c => exact hover c
  | sbumpc => exact harea _ (sbumpc_putArea b)
  | underflow => exact harea _ (underflow_putArea b)
  | data => exact hb
  | size => exact hb
  | tryGetData n => exact hb

/-- No call makes the storage longer than a vector can be. -/
theorem attempt_epptr_le (hb : Sized b) (op : Op) : (attempt b op).epptr ≤ maxSize := by
  refine attempt_keeps (fun b => b.epptr ≤ maxSize) (hb.pptr_le_max hb.fits) hb.epptr_le ?_ ?_ ?_
    (fun _ _ _ h => h) (fun _ _ _ h => h)
  · intro b' harea
    exact epptr_le_of_storage (storage_of_putArea harea) hb.epptr_le
  · intro n _
    exact epptr_le_of_storage (commit_storage b n) hb.epptr_le
  · intro n b' hres
    exact reserve_epptr_le hb.epptr_le hres

theorem sized_attempt (hb : Sized b) {op : Op} (hpromised : Promised b op) : Sized (attempt b op) :=
  ⟨hpromised.1, attempt_epptr_le hb op⟩

end Calls

/-- **THE RANGES ARE EXACT**: for every sequence of calls with `size_t` arguments, each
    call does what is promised of it exactly if each call stays in its range. -/
theorem stream_buffer_limits_iff (ops : List Op)
    (hops : ∀ op ∈ ops, op.Valid ∧ op.count < 2 ^ 64) :
    Along callMachine Promised callMachine.init ops ↔
      Along callMachine InRange callMachine.init ops := by
  refine along_iff (I := Sized) (A := fun _ op => op.Valid ∧ op.count < 2 ^ 64) ?_ ?_
    (along_of_forall _ hops) sized_init
  · intro b op hb hop
    exact promised_iff_inRange hb hop.1 hop.2
  · intro b op b' hb hop hpromised hstep
    obtain rfl : attempt b op = b' := Option.some.inj hstep
    exact sized_attempt hb hpromised

/-- The theorem at a short exchange. -/
theorem stream_buffer_limits_iff_writeHello :
    Along callMachine InRange callMachine.init writeHello ∧
      Along callMachine Promised callMachine.init writeHello := by
  have hrange : Along callMachine InRange callMachine.init writeHello := by decide +kernel
  exact ⟨hrange, (stream_buffer_limits_iff writeHello (by decide)).mpr hrange⟩

/-! ## Out of range -/

/-- Ten bytes are committed, and almost `2 ^ 64` asked for. -/
def reserveAll : List Op := [.commit 10, .reserve (2 ^ 64 - 5)]

/-- The storage of a new buffer that has been asked for four gibibytes. -/
theorem reserve_four_gib :
    ∃ b, reserve init (2 ^ 32) = some b ∧ Sized b ∧ b.pptr = 0 ∧ b.epptr = 2 ^ 32 := by
  obtain ⟨b, hres, hb, -, -, hlength⟩ :=
    reserve_spec sized_init.toOrdered sized_init.fits (n := 2 ^ 32) (by decide)
  have hepptr : b.epptr = 2 ^ 32 := by
    have hlength_init : init.mBuf.length = 128 := List.length_replicate
    have hpptr_init : init.pptr = 0 := rfl
    rw [hb.epptr_eq, hlength, hlength_init, hpptr_init]
    omega
  have hsized : b.epptr ≤ maxSize := by
    rw [hepptr]
    decide
  exact ⟨b, hres, ⟨hb, hsized⟩, reserve_pptr hres, hepptr⟩

theorem attempt_reserve {b b' : StreamBuffer} {n : Nat} (h : reserve b n = some b') :
    attempt b (.reserve n) = b' := by
  unfold attempt exec
  dsimp only
  rw [h]
  rfl

/-- A request that wraps leaves five bytes of storage behind a `pptr` at ten, and a
    `commit` of four gibibytes commits nothing. -/
theorem limits_exceeded :
    ((run callMachine reserveAll).map fun b => (b.pptr, b.epptr, b.mBuf.length))
        = some (10, 5, 5) ∧
      ∃ b, run callMachine [.reserve (2 ^ 32)] = some b ∧ b.epptr - b.pptr = 2 ^ 32 ∧
        run callMachine [.reserve (2 ^ 32), .commit (2 ^ 32)] = some (commit b (2 ^ 32)) ∧
        (commit b (2 ^ 32)).pptr = b.pptr := by
  refine ⟨by decide +kernel, ?_⟩
  obtain ⟨b, hres, hb, hpptr, hepptr⟩ := reserve_four_gib
  have hspace : b.epptr - b.pptr = 2 ^ 32 := by
    rw [hepptr, hpptr]
    decide
  have hzero : toInt (min (2 ^ 32) (2 ^ 32)) = 0 := by decide
  have hstill : bump 0 0 = 0 := by decide
  refine ⟨b, congrArg some (attempt_reserve hres), hspace, ?_, ?_⟩
  · show some (commit (attempt init (.reserve (2 ^ 32))) (2 ^ 32)) = _
    rw [attempt_reserve hres]
  · rw [commit_bump hb.toOrdered hb.fits, hb.length_room, hspace, hzero, hpptr]
    exact hstill

end CoioStreamLimit
