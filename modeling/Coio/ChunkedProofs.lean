import Coio.TransducerProofs
import Coio.HttpParserProofs

/-! # `phr_decode_chunked` — chunks decoded in the buffer they arrive in

    The decoder takes the framing out of a buffer in place: `src` runs over what has
    arrived, `dst` over what has been decoded, and data is moved down from the one to
    the other.  When the buffer is used up in the middle of the body, the state is kept
    for the next call.

    Two levels.  `phrDecodeChunked` is the function of the source, with its buffer, its
    positions and its moves.  `Decoder.step` says what one byte means in each state, and
    knows of no buffer.  `phrDecodeChunked_spec` connects them: a call gives out the data
    of the bytes it is given, and never overwrites a byte that it has still to read.

    From there on everything is said of single bytes.  Calls on the pieces of a stream
    come to the same as one call on the whole stream.  And the streams that are decoded
    to their end are those of a grammar (`Body`): chunks, a last chunk, a trailer. -/

namespace CoioChunked

open CoioStreamBuffer CoioHttpParser CoioTransducer

/-! ## The source -/

/-- `_state`. -/
inductive Phase where
  | chunkSize
  | chunkExt
  | chunkData
  | chunkCrlf
  | trailersLineHead
  | trailersLineMiddle
  deriving DecidableEq

/-- `phr_chunked_decoder`. -/
structure Decoder where
  bytesLeftInChunk : Nat
  consumeTrailer : Bool
  hexCount : Nat
  phase : Phase
  deriving DecidableEq

/-- A decoder that is zero-filled, up to the choice of the caller. -/
def Decoder.fresh (consumeTrailer : Bool) : Decoder := ⟨0, consumeTrailer, 0, .chunkSize⟩

/-- `decode_hex`; `-1` is `none`. -/
def decodeHex (c : UInt8) : Option Nat :=
  if 48 ≤ c ∧ c ≤ 57 then some (c.toNat - 48)
  else if 65 ≤ c ∧ c ≤ 70 then some (c.toNat - 65 + 10)
  else if 97 ≤ c ∧ c ≤ 102 then some (c.toNat - 97 + 10)
  else none

/-- `sizeof(size_t) * 2`. -/
def maxHex : Nat := 16

/-- The decoder and the locals of a call; `bufsz` is the length of `buf`. -/
structure Locals where
  decoder : Decoder
  buf : Bytes
  src : Nat
  dst : Nat
  deriving DecidableEq

/-- `if (dst != src) memmove(buf + dst, buf + src, n)`. -/
def Locals.moved (f : Locals) (n : Nat) : Bytes :=
  if f.dst ≠ f.src then overlay f.buf f.dst ((f.buf.drop f.src).take n) else f.buf

/-- `++src`. -/
def Locals.next (f : Locals) : Locals := { f with src := f.src + 1 }

/-- `decoder->_state = p`. -/
def Locals.enter (f : Locals) (p : Phase) : Locals :=
  { f with decoder := { f.decoder with phase := p } }

/-- The rest of a round: it goes on, or the loop is left for `Exit` with `ret`. -/
abbrev Round := Locals ⊕ (Int × Locals)

/-- `goto Complete`. -/
def complete (f : Locals) : Round := .inr (f.buf.length - f.src, f)

/-- The inner loops all begin with the test whether the buffer is used up. -/
def atByte (f : Locals) (body : Locals → UInt8 → Round) : Round :=
  match f.buf[f.src]? with
  | none => .inr (-2, f)
  | some c => body f c

def inChunkSize (f : Locals) (c : UInt8) : Round :=
  match decodeHex c with
  | none =>
      if f.decoder.hexCount = 0 then .inr (-1, f)
      else .inl (Locals.enter { f with decoder := { f.decoder with hexCount := 0 } } .chunkExt)
  | some v =>
      if f.decoder.hexCount = maxHex then .inr (-1, f)
      else
        .inl (Locals.next { f with
          decoder :=
            { f.decoder with
              bytesLeftInChunk := (f.decoder.bytesLeftInChunk * 16 + v) % 2 ^ 64
              hexCount := f.decoder.hexCount + 1 } })

def inChunkExt (f : Locals) (c : UInt8) : Round :=
  if c = 10 then
    if f.decoder.bytesLeftInChunk = 0 then
      if f.decoder.consumeTrailer then .inl (f.next.enter .trailersLineHead) else complete f.next
    else .inl (f.next.enter .chunkData)
  else .inl f.next

/-- `n` bytes are taken as data. -/
def Locals.take (f : Locals) (n : Nat) : Locals where
  decoder := { f.decoder with bytesLeftInChunk := f.decoder.bytesLeftInChunk - n }
  buf := f.moved n
  src := f.src + n
  dst := f.dst + n

def inChunkData (f : Locals) : Round :=
  let avail := f.buf.length - f.src
  if avail < f.decoder.bytesLeftInChunk then .inr (-2, f.take avail)
  else .inl ((f.take f.decoder.bytesLeftInChunk).enter .chunkCrlf)

def inChunkCrlf (f : Locals) (c : UInt8) : Round :=
  if c = 13 then .inl f.next
  else if c = 10 then .inl (f.next.enter .chunkSize)
  else .inr (-1, f)

def inTrailersLineHead (f : Locals) (c : UInt8) : Round :=
  if c = 13 then .inl f.next
  else if c = 10 then complete f.next
  else .inl (f.next.enter .trailersLineMiddle)

def inTrailersLineMiddle (f : Locals) (c : UInt8) : Round :=
  if c = 10 then .inl (f.next.enter .trailersLineHead) else .inl f.next

/-- One round of the loop.  To fall through to the next case, and to repeat the inner loop
    of a case, is to go round once more, as `_state` names the case each time. -/
def pass (f : Locals) : Round :=
  match f.decoder.phase with
  | .chunkSize => atByte f inChunkSize
  | .chunkExt => atByte f inChunkExt
  | .chunkData => inChunkData f
  | .chunkCrlf => atByte f inChunkCrlf
  | .trailersLineHead => atByte f inTrailersLineHead
  | .trailersLineMiddle => atByte f inTrailersLineMiddle

/-- The loop, with a bound on its rounds. -/
def rounds : Nat → Locals → Option (Int × Locals)
  | 0, _ => none
  | n + 1, f =>
      match pass f with
      | .inl f' => rounds n f'
      | .inr r => some r

/-- What the function returns, and what it leaves behind its pointers. -/
structure Decoded where
  ret : Int
  decoder : Decoder
  buf : Bytes
  bufsz : Nat
  deriving DecidableEq

/-- From the label `Exit` on. -/
def exit (r : Int × Locals) : Decoded :=
  ⟨r.1, r.2.decoder, r.2.moved (r.2.buf.length - r.2.src), r.2.dst⟩

def phrDecodeChunked (d : Decoder) (buf : Bytes) : Option Decoded :=
  (rounds (2 * buf.length + 2) ⟨d, buf, 0, 0⟩).map exit

/-- What has been decoded. -/
def Decoded.data (r : Decoded) : Bytes := r.buf.take r.bufsz

/-! ## What a byte means -/

inductive Verdict where
  | complete
  | failed
  deriving DecidableEq

/-- A byte behind the size of a chunk. -/
def Decoder.stepExt (d : Decoder) (c : UInt8) : Turn Decoder UInt8 Verdict :=
  if c = 10 then
    if d.bytesLeftInChunk = 0 then
      if d.consumeTrailer then .go { d with phase := .trailersLineHead } []
      else .halt .complete true
    else .go { d with phase := .chunkData } []
  else .go d []

def Decoder.step (d : Decoder) (c : UInt8) : Turn Decoder UInt8 Verdict :=
  match d.phase with
  | .chunkSize =>
      match decodeHex c with
      | none =>
          if d.hexCount = 0 then .halt .failed false
          else Decoder.stepExt { d with hexCount := 0, phase := .chunkExt } c
      | some v =>
          if d.hexCount = maxHex then .halt .failed false
          else
            .go { d with
              bytesLeftInChunk := d.bytesLeftInChunk * 16 + v
              hexCount := d.hexCount + 1 } []
  | .chunkExt => d.stepExt c
  | .chunkData =>
      if d.bytesLeftInChunk = 1 then .go { d with bytesLeftInChunk := 0, phase := .chunkCrlf } [c]
      else .go { d with bytesLeftInChunk := d.bytesLeftInChunk - 1 } [c]
  | .chunkCrlf =>
      if c = 13 then .go d []
      else if c = 10 then .go { d with phase := .chunkSize } []
      else .halt .failed false
  | .trailersLineHead =>
      if c = 13 then .go d []
      else if c = 10 then .halt .complete true
      else .go { d with phase := .trailersLineMiddle } []
  | .trailersLineMiddle =>
      if c = 10 then .go { d with phase := .trailersLineHead } [] else .go d []

/-- What holds of a decoder between two bytes.  The size has as many digits as were
    counted, so it is a `size_t`. -/
structure Decoder.Valid (d : Decoder) : Prop where
  hex_le : d.hexCount ≤ maxHex
  hex_zero : d.phase ≠ .chunkSize → d.hexCount = 0
  size_lt : d.phase = .chunkSize → d.bytesLeftInChunk < 16 ^ d.hexCount
  data_pos : d.phase = .chunkData → 0 < d.bytesLeftInChunk
  crlf_zero : d.phase = .chunkCrlf → d.bytesLeftInChunk = 0

theorem fresh_valid (t : Bool) : (Decoder.fresh t).Valid where
  hex_le := Nat.zero_le _
  hex_zero _ := rfl
  size_lt _ := Nat.zero_lt_one
  data_pos h := by cases h
  crlf_zero h := by cases h

theorem decodeHex_lt {c : UInt8} {v : Nat} (h : decodeHex c = some v) : v < 16 := by
  have hle : ∀ {a b : UInt8}, a ≤ b → a.toNat ≤ b.toNat := fun h => h
  unfold decodeHex at h
  split at h
  · rename_i hc
    have hhigh : c.toNat ≤ 57 := hle hc.2
    cases h
    omega
  · split at h
    · rename_i hc
      have hhigh : c.toNat ≤ 70 := hle hc.2
      cases h
      omega
    · split at h
      · rename_i hc
        have hhigh : c.toNat ≤ 102 := hle hc.2
        cases h
        omega
      · cases h

/-- The digits that have been counted leave room for one more. -/
theorem size_step {n k v : Nat} (hn : n < 16 ^ k) (hv : v < 16) : n * 16 + v < 16 ^ (k + 1) := by
  rw [Nat.pow_succ]
  omega

section Valid

variable {d d' : Decoder} {c : UInt8} {out : Bytes}

/-- A digit that is counted fits into a `size_t`. -/
theorem digit_lt {v : Nat} (hd : d.Valid) (hphase : d.phase = .chunkSize)
    (hv : decodeHex c = some v) (hcount : d.hexCount ≠ maxHex) :
    d.bytesLeftInChunk * 16 + v < 2 ^ 64 := by
  have hle := hd.hex_le
  calc d.bytesLeftInChunk * 16 + v
      < 16 ^ (d.hexCount + 1) := size_step (hd.size_lt hphase) (decodeHex_lt hv)
    _ ≤ 16 ^ 16 := Nat.pow_le_pow_right (by decide) (by unfold maxHex at hle hcount; omega)
    _ = 2 ^ 64 := by decide

theorem stepExt_valid (hd : d.Valid) (hphase : d.phase = .chunkExt)
    (h : d.stepExt c = .go d' out) : d'.Valid := by
  have hhex : d.hexCount = 0 := hd.hex_zero (by simp [hphase])
  unfold Decoder.stepExt at h
  split at h
  · split at h
    · split at h
      · cases h
        exact ⟨hd.hex_le, fun _ => hhex, by simp, by simp, by simp⟩
      · cases h
    · rename_i hpos
      cases h
      exact ⟨hd.hex_le, fun _ => hhex, by simp, fun _ => Nat.pos_of_ne_zero hpos, by simp⟩
  · cases h
    exact hd

theorem step_valid (hd : d.Valid) (h : d.step c = .go d' out) : d'.Valid := by
  unfold Decoder.step at h
  cases hphase : d.phase with
  | chunkSize =>
      rw [hphase] at h
      dsimp only at h
      split at h
      · split at h
        · cases h
        · have hext : Decoder.Valid { d with hexCount := 0, phase := .chunkExt } :=
            ⟨Nat.zero_le _, fun _ => rfl, by simp, by simp, by simp⟩
          exact stepExt_valid hext rfl h
      · rename_i v hv
        split at h
        · cases h
        · rename_i hne
          cases h
          have hle := hd.hex_le
          refine ⟨?_, fun hp => absurd rfl hp, fun _ => ?_, by simp, by simp⟩
          · show d.hexCount + 1 ≤ maxHex
            omega
          · exact size_step (hd.size_lt hphase) (decodeHex_lt hv)
  | chunkExt =>
      rw [hphase] at h
      exact stepExt_valid hd hphase h
  | chunkData =>
      have hhex : d.hexCount = 0 := hd.hex_zero (by simp [hphase])
      have hpos := hd.data_pos hphase
      rw [hphase] at h
      dsimp only at h
      split at h
      · cases h
        exact ⟨hd.hex_le, fun _ => hhex, by simp, by simp, fun _ => rfl⟩
      · rename_i hne
        cases h
        refine ⟨hd.hex_le, fun _ => hhex, by simp, fun _ => ?_, by simp⟩
        show 0 < d.bytesLeftInChunk - 1
        omega
  | chunkCrlf =>
      have hhex : d.hexCount = 0 := hd.hex_zero (by simp [hphase])
      have hzero := hd.crlf_zero hphase
      rw [hphase] at h
      dsimp only at h
      split at h
      · cases h
        exact hd
      · split at h
        · cases h
          refine ⟨hd.hex_le, fun _ => hhex, fun _ => ?_, by simp, by simp⟩
          show d.bytesLeftInChunk < 16 ^ d.hexCount
          rw [hzero, hhex]
          exact Nat.zero_lt_one
        · cases h
  | trailersLineHead =>
      have hhex : d.hexCount = 0 := hd.hex_zero (by simp [hphase])
      rw [hphase] at h
      dsimp only at h
      split at h
      · cases h
        exact hd
      · split at h
        · cases h
        · cases h
          exact ⟨hd.hex_le, fun _ => hhex, by simp, by simp, by simp⟩
  | trailersLineMiddle =>
      have hhex : d.hexCount = 0 := hd.hex_zero (by simp [hphase])
      rw [hphase] at h
      dsimp only at h
      split at h
      · cases h
        exact ⟨hd.hex_le, fun _ => hhex, by simp, by simp, by simp⟩
      · cases h
        exact hd

end Valid

/-- The data of a chunk, as far as it is there. -/
theorem feed_data (t : Bool) (n : Nat) (bs : Bytes) (hn : 0 < n) :
    feed Decoder.step ⟨n, t, 0, .chunkData⟩ bs =
      if bs.length < n then (bs, .waiting ⟨n - bs.length, t, 0, .chunkData⟩)
      else
        (bs.take n ++ (feed Decoder.step ⟨0, t, 0, .chunkCrlf⟩ (bs.drop n)).1,
          (feed Decoder.step ⟨0, t, 0, .chunkCrlf⟩ (bs.drop n)).2) := by
  induction bs generalizing n with
  | nil => exact (if_pos hn).symm
  | cons c bs ih =>
      by_cases hone : n = 1
      · subst hone
        have hstep : Decoder.step ⟨1, t, 0, .chunkData⟩ c = .go ⟨0, t, 0, .chunkCrlf⟩ [c] := rfl
        rw [feed_go hstep, if_neg (by simp)]
        rfl
      · have hstep : Decoder.step ⟨n, t, 0, .chunkData⟩ c = .go ⟨n - 1, t, 0, .chunkData⟩ [c] :=
          if_neg hone
        obtain ⟨m, rfl⟩ : ∃ m, n = m + 1 := ⟨n - 1, by omega⟩
        rw [feed_go hstep, Nat.add_sub_cancel, ih m (by omega), List.length_cons]
        by_cases hlt : bs.length < m
        · rw [if_pos hlt, if_pos (by omega), Nat.add_sub_add_right]
          rfl
        · rw [if_neg hlt, if_neg (by omega), List.take_succ_cons, List.drop_succ_cons]
          rfl

/-! ## A round of the loop -/

section Pass

variable {f f' : Locals}

/-- In the buffer, `out` has been put behind what was decoded before. -/
structure Advance (f f' : Locals) (out : Bytes) : Prop where
  dst_le : f'.dst ≤ f'.src
  src_le : f'.src ≤ f'.buf.length
  length_eq : f'.buf.length = f.buf.length
  dst_eq : f'.dst = f.dst + out.length
  data_eq : f'.buf.take f'.dst = f.buf.take f.dst ++ out

theorem Advance.trans {f'' : Locals} {out out' : Bytes} (h : Advance f f' out)
    (h' : Advance f' f'' out') : Advance f f'' (out ++ out') where
  dst_le := h'.dst_le
  src_le := h'.src_le
  length_eq := h'.length_eq.trans h.length_eq
  dst_eq := by
    rw [h'.dst_eq, h.dst_eq, List.length_append]
    omega
  data_eq := by rw [h'.data_eq, h.data_eq, List.append_assoc]

/-- The buffer is as it was, and `src` has not passed its end. -/
theorem advance_of_same (hdst : f.dst ≤ f'.src) (hsrc : f'.src ≤ f.buf.length)
    (hbuf : f'.buf = f.buf) (heq : f'.dst = f.dst) : Advance f f' [] where
  dst_le := heq ▸ hdst
  src_le := hbuf ▸ hsrc
  length_eq := congrArg List.length hbuf
  dst_eq := heq
  data_eq := by rw [hbuf, heq, List.append_nil]

/-- `memmove` onto the same place does nothing. -/
theorem moved_eq (f : Locals) (n : Nat) :
    f.moved n = overlay f.buf f.dst ((f.buf.drop f.src).take n) := by
  unfold Locals.moved
  split
  · rfl
  · rename_i hsame
    rw [not_not] at hsame
    unfold overlay
    rw [hsame, List.append_assoc, List.length_take, List.length_drop]
    by_cases hn : n ≤ f.buf.length - f.src
    · rw [Nat.min_eq_left hn, ← List.drop_drop, List.take_append_drop, List.take_append_drop]
    · have hlong : (f.buf.drop f.src).take n = f.buf.drop f.src :=
        List.take_of_length_le (by rw [List.length_drop]; omega)
      have hnil : f.buf.drop (f.src + min n (f.buf.length - f.src)) = [] :=
        List.drop_eq_nil_of_le (by omega)
      rw [hlong, hnil, List.append_nil, List.take_append_drop]

theorem length_part {n : Nat} (hn : f.src + n ≤ f.buf.length) :
    ((f.buf.drop f.src).take n).length = n := by
  rw [List.length_take, List.length_drop]
  omega

/-- What is moved down is put behind the data, and nothing behind it is touched. -/
theorem moved_spec (hdst : f.dst ≤ f.src) {n : Nat} (hn : f.src + n ≤ f.buf.length) :
    (f.moved n).length = f.buf.length ∧
      (f.moved n).take (f.dst + n) = f.buf.take f.dst ++ (f.buf.drop f.src).take n ∧
      (f.moved n).drop (f.src + n) = f.buf.drop (f.src + n) := by
  have hlen := length_part hn
  have hput : (f.buf.take f.dst ++ (f.buf.drop f.src).take n).length = f.dst + n := by
    rw [List.length_append, List.length_take, hlen]
    omega
  rw [moved_eq]
  refine ⟨length_overlay (by omega), ?_, ?_⟩
  · unfold overlay
    rw [List.take_append_of_le_length (Nat.le_of_eq hput.symm),
      List.take_of_length_le (Nat.le_of_eq hput)]
  · unfold overlay
    rw [List.drop_append, hput, List.drop_eq_nil_of_le (by omega), List.nil_append, hlen,
      List.drop_drop]
    exact congrArg (fun i => f.buf.drop i) (by omega)

theorem Advance.enter {out : Bytes} (h : Advance f f' out) (p : Phase) :
    Advance f (f'.enter p) out :=
  ⟨h.dst_le, h.src_le, h.length_eq, h.dst_eq, h.data_eq⟩

/-- Bytes that are taken as data are put behind the data, and the rest stays. -/
theorem take_spec (hdst : f.dst ≤ f.src) {n : Nat} (hn : f.src + n ≤ f.buf.length) :
    Advance f (f.take n) ((f.buf.drop f.src).take n) ∧
      (f.take n).buf.drop (f.take n).src = f.buf.drop (f.src + n) := by
  obtain ⟨hlength, htake, hdrop⟩ := moved_spec hdst hn
  refine ⟨⟨Nat.add_le_add_right hdst n, ?_, hlength, ?_, htake⟩, hdrop⟩
  · show f.src + n ≤ (f.moved n).length
    rw [hlength]
    exact hn
  · rw [length_part hn]
    rfl

/-- The rounds that take no byte before the next one that does. -/
def Phase.idle : Phase → Nat
  | .chunkSize | .chunkData => 1
  | _ => 0

theorem idle_le (p : Phase) : p.idle ≤ 1 := by
  cases p <;> decide

/-- How much there is still to do: two rounds for a byte, and the idle ones. -/
def weight (f : Locals) : Nat := 2 * (f.buf.length - f.src) + f.decoder.phase.idle

/-- What the bytes that are still to be read come to. -/
def Locals.fed (f : Locals) : Fed Decoder UInt8 UInt8 Verdict :=
  feed Decoder.step f.decoder (f.buf.drop f.src)

/-- Everything a round can do. -/
inductive Passes (f : Locals) : Locals ⊕ (Int × Locals) → Prop
  | on (f' : Locals) (out : Bytes) (hadv : Advance f f' out) (hvalid : f'.decoder.Valid)
      (hfed : f.fed = (out ++ f'.fed.1, f'.fed.2)) (hless : weight f' < weight f) :
      Passes f (.inl f')
  | waits (f' : Locals) (out : Bytes) (hadv : Advance f f' out)
      (hfed : f.fed = (out, .waiting f'.decoder)) (hend : f'.buf.drop f'.src = []) :
      Passes f (.inr (-2, f'))
  | completes (f' : Locals) (hadv : Advance f f' [])
      (hfed : f.fed = ([], .stopped .complete (f'.buf.drop f'.src))) :
      Passes f (.inr (f'.buf.length - f'.src, f'))
  | fails (hadv : Advance f f []) (hfed : f.fed = ([], .stopped .failed (f.buf.drop f.src))) :
      Passes f (.inr (-1, f))

theorem fed_of_some {c : UInt8} (h : f.buf[f.src]? = some c) :
    f.src < f.buf.length ∧ f.fed = feed Decoder.step f.decoder (c :: f.buf.drop (f.src + 1)) := by
  obtain ⟨hlt, hget⟩ := List.getElem?_eq_some_iff.mp h
  refine ⟨hlt, ?_⟩
  unfold Locals.fed
  rw [List.drop_eq_getElem_cons hlt, hget]

/-- The buffer is used up, or there is a byte to look at. -/
theorem passes_atByte (hdst : f.dst ≤ f.src) (hsrc : f.src ≤ f.buf.length)
    {body : Locals → UInt8 → Round} (h : ∀ c, f.buf[f.src]? = some c → Passes f (body f c)) :
    Passes f (atByte f body) := by
  unfold atByte
  split
  · rename_i hnone
    have hnil : f.buf.drop f.src = [] :=
      List.drop_eq_nil_of_le (List.getElem?_eq_none_iff.mp hnone)
    refine .waits f [] (advance_of_same hdst hsrc rfl rfl) ?_ hnil
    unfold Locals.fed
    rw [hnil]
    rfl
  · rename_i c hc
    exact h c hc

/-- A byte is taken, and leads to another state. -/
theorem passes_go (hd : f.decoder.Valid) (hdst : f.dst ≤ f.src) {c : UInt8}
    (h : f.buf[f.src]? = some c) (hbuf : f'.buf = f.buf) (hsrc : f'.src = f.src + 1)
    (heq : f'.dst = f.dst) (hstep : f.decoder.step c = .go f'.decoder []) :
    Passes f (.inl f') := by
  obtain ⟨hlt, hfed⟩ := fed_of_some h
  refine .on f' [] (advance_of_same (by omega) (by omega) hbuf heq) (step_valid hd hstep) ?_ ?_
  · rw [hfed, feed_quiet hstep]
    unfold Locals.fed
    rw [hbuf, hsrc]
    rfl
  · have hidle := idle_le f'.decoder.phase
    unfold weight
    rw [hbuf, hsrc]
    omega

/-- A byte ends the body. -/
theorem passes_complete (hdst : f.dst ≤ f.src) {c : UInt8} (h : f.buf[f.src]? = some c)
    (hstep : f.decoder.step c = .halt .complete true) : Passes f (complete f.next) := by
  obtain ⟨hlt, hfed⟩ := fed_of_some h
  exact .completes f.next (advance_of_same (Nat.le_succ_of_le hdst) hlt rfl rfl)
    (hfed.trans (feed_halt hstep))

/-- A byte that does not belong there. -/
theorem passes_fail (hdst : f.dst ≤ f.src) {c : UInt8} (h : f.buf[f.src]? = some c)
    (hstep : f.decoder.step c = .halt .failed false) : Passes f (.inr (-1, f)) := by
  obtain ⟨hlt, hfed⟩ := fed_of_some h
  have hdrop : f.buf.drop f.src = c :: f.buf.drop (f.src + 1) := by
    obtain ⟨hlt, hget⟩ := List.getElem?_eq_some_iff.mp h
    rw [List.drop_eq_getElem_cons hlt, hget]
  refine .fails (advance_of_same hdst (Nat.le_of_lt hlt) rfl rfl) ?_
  rw [hfed, feed_halt hstep, hdrop]
  rfl

end Pass

section Phases

variable {n k src dst : Nat} {t : Bool} {buf : Bytes} {c : UInt8}

theorem passes_inChunkSize (hd : Decoder.Valid ⟨n, t, k, .chunkSize⟩) (hdst : dst ≤ src)
    (h : buf[src]? = some c) :
    Passes ⟨⟨n, t, k, .chunkSize⟩, buf, src, dst⟩
      (inChunkSize ⟨⟨n, t, k, .chunkSize⟩, buf, src, dst⟩ c) := by
  have hstep : Decoder.step ⟨n, t, k, .chunkSize⟩ c = match decodeHex c with
      | none => if k = 0 then .halt .failed false else Decoder.step ⟨n, t, 0, .chunkExt⟩ c
      | some v =>
          if k = maxHex then .halt .failed false
          else .go ⟨n * 16 + v, t, k + 1, .chunkSize⟩ [] := rfl
  unfold inChunkSize
  cases hhex : decodeHex c with
  | none =>
      rw [hhex] at hstep
      dsimp only at hstep ⊢
      by_cases hcount : k = 0
      · rw [if_pos hcount] at hstep ⊢
        exact passes_fail hdst h hstep
      · rw [if_neg hcount] at hstep ⊢
        obtain ⟨hlt, hfed⟩ := fed_of_some (f := ⟨⟨n, t, k, .chunkSize⟩, buf, src, dst⟩) h
        refine .on ⟨⟨n, t, 0, .chunkExt⟩, buf, src, dst⟩ []
          (advance_of_same hdst (Nat.le_of_lt hlt) rfl rfl)
          ⟨Nat.zero_le _, fun _ => rfl, by simp, by simp, by simp⟩ ?_ (Nat.lt_succ_self _)
        obtain ⟨-, hfed'⟩ := fed_of_some (f := ⟨⟨n, t, 0, .chunkExt⟩, buf, src, dst⟩) h
        rw [hfed, hfed', feed, feed, hstep]
        rfl
  | some v =>
      rw [hhex] at hstep
      dsimp only at hstep ⊢
      by_cases hmax : k = maxHex
      · rw [if_pos hmax] at hstep ⊢
        exact passes_fail hdst h hstep
      · rw [if_neg hmax] at hstep ⊢
        have hlt := digit_lt hd rfl hhex hmax
        refine passes_go hd hdst h rfl rfl rfl ?_
        rw [hstep]
        show _ = Turn.go (Decoder.mk ((n * 16 + v) % 2 ^ 64) t (k + 1) .chunkSize) []
        rw [Nat.mod_eq_of_lt hlt]

theorem passes_inChunkExt (hd : Decoder.Valid ⟨n, t, k, .chunkExt⟩) (hdst : dst ≤ src)
    (h : buf[src]? = some c) :
    Passes ⟨⟨n, t, k, .chunkExt⟩, buf, src, dst⟩
      (inChunkExt ⟨⟨n, t, k, .chunkExt⟩, buf, src, dst⟩ c) := by
  have hstep : Decoder.step ⟨n, t, k, .chunkExt⟩ c
      = if c = 10 then
          if n = 0 then
            if t then .go ⟨n, t, k, .trailersLineHead⟩ [] else .halt .complete true
          else .go ⟨n, t, k, .chunkData⟩ []
        else .go ⟨n, t, k, .chunkExt⟩ [] := rfl
  unfold inChunkExt
  dsimp only
  split <;> rename_i hc
  · rw [if_pos hc] at hstep
    split <;> rename_i hn
    · rw [if_pos hn] at hstep
      split <;> rename_i ht
      · rw [if_pos ht] at hstep
        exact passes_go hd hdst h rfl rfl rfl hstep
      · rw [if_neg ht] at hstep
        exact passes_complete hdst h hstep
    · rw [if_neg hn] at hstep
      exact passes_go hd hdst h rfl rfl rfl hstep
  · rw [if_neg hc] at hstep
    exact passes_go hd hdst h rfl rfl rfl hstep

theorem passes_inChunkCrlf (hd : Decoder.Valid ⟨n, t, k, .chunkCrlf⟩) (hdst : dst ≤ src)
    (h : buf[src]? = some c) :
    Passes ⟨⟨n, t, k, .chunkCrlf⟩, buf, src, dst⟩
      (inChunkCrlf ⟨⟨n, t, k, .chunkCrlf⟩, buf, src, dst⟩ c) := by
  have hstep : Decoder.step ⟨n, t, k, .chunkCrlf⟩ c
      = if c = 13 then .go ⟨n, t, k, .chunkCrlf⟩ []
        else if c = 10 then .go ⟨n, t, k, .chunkSize⟩ [] else .halt .failed false := rfl
  unfold inChunkCrlf
  split <;> rename_i hcr
  · rw [if_pos hcr] at hstep
    exact passes_go hd hdst h rfl rfl rfl hstep
  · rw [if_neg hcr] at hstep
    split <;> rename_i hlf
    · rw [if_pos hlf] at hstep
      exact passes_go hd hdst h rfl rfl rfl hstep
    · rw [if_neg hlf] at hstep
      exact passes_fail hdst h hstep

theorem passes_inTrailersLineHead (hd : Decoder.Valid ⟨n, t, k, .trailersLineHead⟩)
    (hdst : dst ≤ src) (h : buf[src]? = some c) :
    Passes ⟨⟨n, t, k, .trailersLineHead⟩, buf, src, dst⟩
      (inTrailersLineHead ⟨⟨n, t, k, .trailersLineHead⟩, buf, src, dst⟩ c) := by
  have hstep : Decoder.step ⟨n, t, k, .trailersLineHead⟩ c
      = if c = 13 then .go ⟨n, t, k, .trailersLineHead⟩ []
        else if c = 10 then .halt .complete true
        else .go ⟨n, t, k, .trailersLineMiddle⟩ [] := rfl
  unfold inTrailersLineHead
  split <;> rename_i hcr
  · rw [if_pos hcr] at hstep
    exact passes_go hd hdst h rfl rfl rfl hstep
  · rw [if_neg hcr] at hstep
    split <;> rename_i hlf
    · rw [if_pos hlf] at hstep
      exact passes_complete hdst h hstep
    · rw [if_neg hlf] at hstep
      exact passes_go hd hdst h rfl rfl rfl hstep

theorem passes_inTrailersLineMiddle (hd : Decoder.Valid ⟨n, t, k, .trailersLineMiddle⟩)
    (hdst : dst ≤ src) (h : buf[src]? = some c) :
    Passes ⟨⟨n, t, k, .trailersLineMiddle⟩, buf, src, dst⟩
      (inTrailersLineMiddle ⟨⟨n, t, k, .trailersLineMiddle⟩, buf, src, dst⟩ c) := by
  have hstep : Decoder.step ⟨n, t, k, .trailersLineMiddle⟩ c
      = if c = 10 then .go ⟨n, t, k, .trailersLineHead⟩ []
        else .go ⟨n, t, k, .trailersLineMiddle⟩ [] := rfl
  unfold inTrailersLineMiddle
  split <;> rename_i hlf
  · rw [if_pos hlf] at hstep
    exact passes_go hd hdst h rfl rfl rfl hstep
  · rw [if_neg hlf] at hstep
    exact passes_go hd hdst h rfl rfl rfl hstep

/-- Data is moved down, as far as the buffer holds it. -/
theorem passes_inChunkData (hd : Decoder.Valid ⟨n, t, k, .chunkData⟩) (hdst : dst ≤ src)
    (hsrc : src ≤ buf.length) :
    Passes ⟨⟨n, t, k, .chunkData⟩, buf, src, dst⟩
      (inChunkData ⟨⟨n, t, k, .chunkData⟩, buf, src, dst⟩) := by
  have hpos : 0 < n := hd.data_pos rfl
  obtain rfl : k = 0 := hd.hex_zero (by simp)
  have hfeed := feed_data t n (buf.drop src) hpos
  rw [List.length_drop] at hfeed
  unfold inChunkData
  dsimp only
  split <;> rename_i hshort
  · rw [if_pos hshort] at hfeed
    obtain ⟨hadv, hrest⟩ := take_spec (f := ⟨⟨n, t, 0, .chunkData⟩, buf, src, dst⟩)
      (n := buf.length - src) hdst (by show src + _ ≤ buf.length; omega)
    refine .waits _ _ hadv ?_ (hrest.trans (List.drop_eq_nil_of_le ?_))
    · show feed Decoder.step _ (buf.drop src) = ((buf.drop src).take (buf.length - src), _)
      rw [hfeed, List.take_of_length_le (Nat.le_of_eq List.length_drop)]
      rfl
    · show buf.length ≤ src + (buf.length - src)
      omega
  · rw [if_neg hshort] at hfeed
    obtain ⟨hadv, hrest⟩ := take_spec (f := ⟨⟨n, t, 0, .chunkData⟩, buf, src, dst⟩)
      (n := n) hdst (by show src + n ≤ buf.length; omega)
    have hzero : (⟨n - n, t, 0, .chunkCrlf⟩ : Decoder) = ⟨0, t, 0, .chunkCrlf⟩ := by
      rw [Nat.sub_self]
    have hfed : (Locals.enter (Locals.take ⟨⟨n, t, 0, .chunkData⟩, buf, src, dst⟩ n) .chunkCrlf).fed
        = feed Decoder.step ⟨0, t, 0, .chunkCrlf⟩ (buf.drop (src + n)) := by
      show feed Decoder.step ⟨n - n, t, 0, .chunkCrlf⟩ _ = _
      rw [hzero]
      exact congrArg _ hrest
    refine .on _ _ (hadv.enter .chunkCrlf) ?_ ?_ ?_
    · show Decoder.Valid ⟨n - n, t, 0, .chunkCrlf⟩
      exact ⟨Nat.zero_le _, fun _ => rfl, by simp, by simp, fun _ => Nat.sub_self n⟩
    · rw [hfed, ← List.drop_drop]
      exact hfeed
    · have hlength : (Locals.moved ⟨⟨n, t, 0, .chunkData⟩, buf, src, dst⟩ n).length = buf.length :=
        hadv.length_eq
      show 2 * ((Locals.moved ⟨⟨n, t, 0, .chunkData⟩, buf, src, dst⟩ n).length - (src + n)) + 0
        < 2 * (buf.length - src) + 1
      rw [hlength]
      omega

/-- **ONE ROUND** does to the buffer what the bytes mean. -/
theorem pass_spec {f : Locals} (hd : f.decoder.Valid) (hdst : f.dst ≤ f.src)
    (hsrc : f.src ≤ f.buf.length) : Passes f (pass f) := by
  obtain ⟨⟨n, t, k, p⟩, buf, src, dst⟩ := f
  cases p with
  | chunkSize => exact passes_atByte hdst hsrc fun c hc => passes_inChunkSize hd hdst hc
  | chunkExt => exact passes_atByte hdst hsrc fun c hc => passes_inChunkExt hd hdst hc
  | chunkData => exact passes_inChunkData hd hdst hsrc
  | chunkCrlf => exact passes_atByte hdst hsrc fun c hc => passes_inChunkCrlf hd hdst hc
  | trailersLineHead =>
      exact passes_atByte hdst hsrc fun c hc => passes_inTrailersLineHead hd hdst hc
  | trailersLineMiddle =>
      exact passes_atByte hdst hsrc fun c hc => passes_inTrailersLineMiddle hd hdst hc

end Phases

/-! ## A call -/

/-- How the loop ends. -/
inductive Finishes (f : Locals) : Int × Locals → Prop
  | waits (f' : Locals) (out : Bytes) (hadv : Advance f f' out)
      (hfed : f.fed = (out, .waiting f'.decoder)) : Finishes f (-2, f')
  | completes (f' : Locals) (out : Bytes) (hadv : Advance f f' out)
      (hfed : f.fed = (out, .stopped .complete (f'.buf.drop f'.src))) :
      Finishes f (f'.buf.length - f'.src, f')
  | fails (f' : Locals) (out : Bytes) (hadv : Advance f f' out)
      (hfed : f.fed = (out, .stopped .failed (f'.buf.drop f'.src))) : Finishes f (-1, f')

theorem Finishes.behind {f f' : Locals} {out : Bytes} {r : Int × Locals} (hadv : Advance f f' out)
    (hfed : f.fed = (out ++ f'.fed.1, f'.fed.2)) (h : Finishes f' r) : Finishes f r := by
  cases h with
  | waits f'' out' hadv' hfed' =>
      rw [hfed'] at hfed
      exact .waits f'' _ (hadv.trans hadv') hfed
  | completes f'' out' hadv' hfed' =>
      rw [hfed'] at hfed
      exact .completes f'' _ (hadv.trans hadv') hfed
  | fails f'' out' hadv' hfed' =>
      rw [hfed'] at hfed
      exact .fails f'' _ (hadv.trans hadv') hfed

/-- **ALL ROUNDS**: the loop ends, and has done to the buffer what its bytes mean. -/
theorem rounds_spec {n : Nat} {f : Locals} (hd : f.decoder.Valid) (hdst : f.dst ≤ f.src)
    (hsrc : f.src ≤ f.buf.length) (hn : weight f < n) :
    ∃ r, rounds n f = some r ∧ Finishes f r := by
  induction n generalizing f with
  | zero => exact absurd hn (Nat.not_lt_zero _)
  | succ n ih =>
      unfold rounds
      have hpass := pass_spec hd hdst hsrc
      generalize pass f = round at hpass
      cases hpass with
      | on f' out hadv hvalid hfed hless =>
          obtain ⟨r, hr, hfin⟩ := ih hvalid hadv.dst_le hadv.src_le (by omega)
          exact ⟨r, hr, hfin.behind hadv hfed⟩
      | waits f' out hadv hfed hend => exact ⟨_, rfl, .waits f' out hadv hfed⟩
      | completes f' hadv hfed => exact ⟨_, rfl, .completes f' [] hadv hfed⟩
      | fails hadv hfed => exact ⟨_, rfl, .fails f [] hadv hfed⟩

/-- The rounds that a call makes. -/
inductive Visits (f : Locals) : Locals → Prop
  | start : Visits f f
  | round {f' f'' : Locals} (h : Visits f f') (hpass : pass f' = .inl f'') : Visits f f''

theorem visits_valid {f f' : Locals} (h : Visits f f') (hd : f.decoder.Valid)
    (hdst : f.dst ≤ f.src) (hsrc : f.src ≤ f.buf.length) :
    f'.decoder.Valid ∧ f'.dst ≤ f'.src ∧ f'.src ≤ f'.buf.length := by
  induction h with
  | start => exact ⟨hd, hdst, hsrc⟩
  | round _ hpass ih =>
      obtain ⟨hd', hdst', hsrc'⟩ := ih
      have hround := pass_spec hd' hdst' hsrc'
      rw [hpass] at hround
      cases hround with
      | on _ _ hadv hvalid => exact ⟨hvalid, hadv.dst_le, hadv.src_le⟩

/-- The digit at `src`, if it is to be added to the size, does not make it wrap. -/
def Locals.DigitFits (f : Locals) : Prop :=
  ∀ c v, f.decoder.phase = .chunkSize → f.buf[f.src]? = some c → decodeHex c = some v →
    f.decoder.hexCount ≠ maxHex → f.decoder.bytesLeftInChunk * 16 + v < 2 ^ 64

/-- What `ret` and the rest of the buffer say of where the decoding has stopped. -/
def Tells (r : Decoded) : Reached Decoder UInt8 Verdict → Prop
  | .waiting d => r.ret = -2 ∧ r.decoder = d
  | .stopped .complete rest =>
      r.ret = rest.length ∧ (r.buf.drop r.bufsz).take rest.length = rest
  | .stopped .failed rest => r.ret = -1 ∧ (r.buf.drop r.bufsz).take rest.length = rest

/-- What a call leaves in the buffer: the data, and behind it the bytes that were not
    decoded. -/
structure InPlace (d : Decoder) (buf : Bytes) (r : Decoded) : Prop where
  length_eq : r.buf.length = buf.length
  bufsz_eq : r.bufsz = (feed Decoder.step d buf).1.length
  bufsz_le : r.bufsz ≤ buf.length
  data_eq : r.data = (feed Decoder.step d buf).1
  tells : Tells r (feed Decoder.step d buf).2

/-- The last move brings the rest down to the data. -/
theorem exit_spec {f : Locals} (ret : Int) (hdst : f.dst ≤ f.src) (hsrc : f.src ≤ f.buf.length) :
    (exit (ret, f)).buf.length = f.buf.length ∧ (exit (ret, f)).data = f.buf.take f.dst ∧
      ((exit (ret, f)).buf.drop f.dst).take (f.buf.drop f.src).length = f.buf.drop f.src := by
  have hend : f.src + (f.buf.length - f.src) = f.buf.length := by omega
  have hrest : (f.buf.drop f.src).take (f.buf.length - f.src) = f.buf.drop f.src :=
    List.take_of_length_le (Nat.le_of_eq List.length_drop)
  obtain ⟨hlength, htake, -⟩ := moved_spec hdst (Nat.le_of_eq hend)
  rw [hrest] at htake
  have hput : (f.buf.take f.dst).length = f.dst := by
    rw [List.length_take]
    omega
  rw [List.length_drop]
  show (f.moved (f.buf.length - f.src)).length = _ ∧
    (f.moved (f.buf.length - f.src)).take f.dst = _ ∧
    ((f.moved (f.buf.length - f.src)).drop f.dst).take _ = _
  generalize f.moved (f.buf.length - f.src) = buf' at hlength htake ⊢
  have hfront : buf'.take f.dst = f.buf.take f.dst := by
    calc buf'.take f.dst
        = (buf'.take (f.dst + (f.buf.length - f.src))).take f.dst := by
          rw [List.take_take, Nat.min_eq_left (Nat.le_add_right ..)]
      _ = f.buf.take f.dst := by
          rw [htake]
          exact List.take_left' hput
  have hbehind : (buf'.drop f.dst).take (f.buf.length - f.src) = f.buf.drop f.src := by
    rw [List.take_drop, htake]
    exact List.drop_left' hput
  exact ⟨hlength, hfront, hbehind⟩

theorem inPlace_of_finishes {d : Decoder} {buf : Bytes} {r : Int × Locals}
    (h : Finishes ⟨d, buf, 0, 0⟩ r) : InPlace d buf (exit r) := by
  have hstart : ∀ {f' : Locals} {out : Bytes} (ret : Int), Advance ⟨d, buf, 0, 0⟩ f' out →
      (exit (ret, f')).buf.length = buf.length ∧ f'.dst = out.length ∧ f'.dst ≤ buf.length ∧
        (exit (ret, f')).data = out ∧
        ((exit (ret, f')).buf.drop f'.dst).take (f'.buf.drop f'.src).length
          = f'.buf.drop f'.src := by
    intro f' out ret hadv
    obtain ⟨hlength, hdata, hrest⟩ := exit_spec ret hadv.dst_le hadv.src_le
    refine ⟨hlength.trans hadv.length_eq, hadv.dst_eq.trans (Nat.zero_add _), ?_, ?_, hrest⟩
    · exact (hadv.dst_le.trans hadv.src_le).trans (Nat.le_of_eq hadv.length_eq)
    · rw [hdata, hadv.data_eq]
      rfl
  cases h with
  | waits f' out hadv hfed =>
      obtain ⟨hlength, hdst, hle, hdata, hrest⟩ := hstart (-2) hadv
      replace hfed : feed Decoder.step d buf = (out, .waiting f'.decoder) := hfed
      exact ⟨hlength, hfed ▸ hdst, hle, hfed ▸ hdata, hfed ▸ ⟨rfl, rfl⟩⟩
  | completes f' out hadv hfed =>
      obtain ⟨hlength, hdst, hle, hdata, hrest⟩ := hstart (f'.buf.length - f'.src) hadv
      replace hfed : feed Decoder.step d buf = (out, .stopped .complete (f'.buf.drop f'.src)) :=
        hfed
      refine ⟨hlength, hfed ▸ hdst, hle, hfed ▸ hdata, hfed ▸ ⟨?_, hrest⟩⟩
      have hsrc := hadv.src_le
      show (f'.buf.length : Int) - f'.src = (f'.buf.drop f'.src).length
      rw [List.length_drop]
      omega
  | fails f' out hadv hfed =>
      obtain ⟨hlength, hdst, hle, hdata, hrest⟩ := hstart (-1) hadv
      replace hfed : feed Decoder.step d buf = (out, .stopped .failed (f'.buf.drop f'.src)) :=
        hfed
      exact ⟨hlength, hfed ▸ hdst, hle, hfed ▸ hdata, hfed ▸ ⟨rfl, hrest⟩⟩

/-- **A CALL** ends, and has done to the buffer what its bytes mean. -/
theorem phrDecodeChunked_spec {d : Decoder} (hd : d.Valid) (buf : Bytes) :
    ∃ r, phrDecodeChunked d buf = some r ∧ InPlace d buf r := by
  have hweight : weight ⟨d, buf, 0, 0⟩ < 2 * buf.length + 2 := by
    have hidle := idle_le d.phase
    show 2 * (buf.length - 0) + d.phase.idle < _
    omega
  obtain ⟨r, hr, hfin⟩ := rounds_spec (f := ⟨d, buf, 0, 0⟩) hd (Nat.le_refl 0) (Nat.zero_le _)
    hweight
  refine ⟨exit r, ?_, inPlace_of_finishes hfin⟩
  show (rounds _ _).map exit = _
  rw [hr]
  rfl

/-- `ret` is `-2` exactly when the body may go on. -/
theorem Tells.ret_eq {r : Decoded} {reached : Reached Decoder UInt8 Verdict}
    (h : Tells r reached) : r.ret = -2 ↔ reached = .waiting r.decoder := by
  match reached, h with
  | .waiting d, ⟨hret, hd⟩ => exact ⟨fun _ => congrArg _ hd.symm, fun _ => hret⟩
  | .stopped .complete rest, ⟨hret, _⟩ =>
      constructor
      · intro hwaits
        omega
      · intro hreached
        cases hreached
  | .stopped .failed rest, ⟨hret, _⟩ =>
      constructor
      · intro hwaits
        omega
      · intro hreached
        cases hreached

/-- What waits for more bytes can take them. -/
theorem valid_of_waiting {d d' : Decoder} {buf : Bytes} (hd : d.Valid)
    (h : (feed Decoder.step d buf).2 = .waiting d') : d'.Valid :=
  feed_keeps (fun _ _ _ _ hs hstep => step_valid hs hstep) hd (Prod.ext rfl h)

/-- The decoders that a caller can have: a new one, and what a call leaves that asks for
    more. -/
inductive Kept (t : Bool) : Decoder → Prop
  | fresh : Kept t (.fresh t)
  | call {d : Decoder} {buf : Bytes} {r : Decoded} (hd : Kept t d)
      (hr : phrDecodeChunked d buf = some r) (hret : r.ret = -2) : Kept t r.decoder

theorem kept_valid {t : Bool} {d : Decoder} (h : Kept t d) : d.Valid := by
  induction h with
  | fresh => exact fresh_valid t
  | @call d buf r _ hr hret ih =>
      obtain ⟨r', hr', hplace⟩ := phrDecodeChunked_spec ih buf
      cases Option.some.inj (hr.symm.trans hr')
      exact valid_of_waiting ih (hplace.tells.ret_eq.mp hret)

/-- **IN PLACE**: whatever was decoded before, a call ends.  It has put the data of its
    bytes in front and behind it those that it has left undecoded, has not written outside
    the buffer, and no digit has made the size of a chunk wrap. -/
theorem chunks_decoded_in_place (t : Bool) (d : Decoder) (hd : Kept t d) (buf : Bytes) :
    ∃ r, phrDecodeChunked d buf = some r ∧ InPlace d buf r ∧
      ∀ f, Visits ⟨d, buf, 0, 0⟩ f → f.DigitFits := by
  obtain ⟨r, hr, hplace⟩ := phrDecodeChunked_spec (kept_valid hd) buf
  refine ⟨r, hr, hplace, ?_⟩
  intro f hf c v hphase _ hv hcount
  obtain ⟨hvalid, -, -⟩ := visits_valid hf (kept_valid hd) (Nat.le_refl 0) (Nat.zero_le _)
  exact digit_lt hvalid hphase hv hcount

/-- `5\r\nhel` and then `lo\r\n0\r\n!` -/
theorem hello_decoded_in_place :
    ∃ r, phrDecodeChunked ⟨2, false, 0, .chunkData⟩ [108, 111, 13, 10, 48, 13, 10, 33] = some r ∧
      InPlace ⟨2, false, 0, .chunkData⟩ [108, 111, 13, 10, 48, 13, 10, 33] r ∧
      ∀ f, Visits ⟨⟨2, false, 0, .chunkData⟩, [108, 111, 13, 10, 48, 13, 10, 33], 0, 0⟩ f →
        f.DigitFits := by
  have hfirst : phrDecodeChunked (.fresh false) [53, 13, 10, 104, 101, 108]
      = some ⟨-2, ⟨2, false, 0, .chunkData⟩, [104, 101, 108, 104, 101, 108], 3⟩ := by decide
  exact chunks_decoded_in_place false _ (Kept.fresh.call hfirst rfl) _

/-! ## Pieces -/

/-- What a caller has after the last call. -/
structure Session where
  data : Bytes
  ret : Int
  decoder : Decoder

/-- The pieces of a stream, each with a call of its own as long as the decoder asks for
    more.  What is left then is what the last call has left of its piece, and the pieces
    that were not decoded. -/
def decodeAll : Decoder → List Bytes → Option Session
  | d, [] => some ⟨[], -2, d⟩
  | d, piece :: pieces =>
      match phrDecodeChunked d piece with
      | none => none
      | some r =>
          if r.ret = -2 then
            (decodeAll r.decoder pieces).map fun s => { s with data := r.data ++ s.data }
          else if r.ret = -1 then some ⟨r.data, -1, r.decoder⟩
          else some ⟨r.data, r.ret + pieces.flatten.length, r.decoder⟩

/-- The session has come as far as the bytes. -/
def Session.Comes (s : Session) : Fed Decoder UInt8 UInt8 Verdict → Prop
  | (out, .waiting d) => s.data = out ∧ s.ret = -2 ∧ s.decoder = d
  | (out, .stopped .complete rest) => s.data = out ∧ s.ret = rest.length
  | (out, .stopped .failed _) => s.data = out ∧ s.ret = -1

theorem comes_of_inPlace {d : Decoder} {buf : Bytes} {r : Decoded} (h : InPlace d buf r) :
    Session.Comes ⟨r.data, r.ret, r.decoder⟩ (feed Decoder.step d buf) := by
  have hdata := h.data_eq
  have htells := h.tells
  generalize feed Decoder.step d buf = fed at hdata htells ⊢
  match fed, hdata, htells with
  | (_, .waiting _), hdata, htells => exact ⟨hdata, htells⟩
  | (_, .stopped .complete _), hdata, htells => exact ⟨hdata, htells.1⟩
  | (_, .stopped .failed _), hdata, htells => exact ⟨hdata, htells.1⟩

theorem decodeAll_comes {d : Decoder} (hd : d.Valid) (pieces : List Bytes) :
    ∃ s, decodeAll d pieces = some s ∧ s.Comes (feed Decoder.step d pieces.flatten) := by
  rw [← feedAll_eq]
  induction pieces generalizing d with
  | nil => exact ⟨_, rfl, rfl, rfl, rfl⟩
  | cons piece pieces ih =>
      obtain ⟨r, hr, hplace⟩ := phrDecodeChunked_spec hd piece
      have hcomes := comes_of_inPlace hplace
      have hvalid := @valid_of_waiting d r.decoder piece hd
      unfold decodeAll feedAll
      rw [hr]
      dsimp only
      generalize feed Decoder.step d piece = fed at hcomes hvalid ⊢
      obtain ⟨out, reached⟩ := fed
      cases reached with
      | waiting d' =>
          obtain ⟨hdata, hret, hd'⟩ := hcomes
          obtain ⟨s, hs, hrest⟩ := ih (hvalid (congrArg _ hd'.symm))
          rw [if_pos hret, hs]
          refine ⟨_, rfl, ?_⟩
          change r.decoder = d' at hd'
          rw [hd'] at hrest
          dsimp only
          generalize feedAll (feed Decoder.step) d' pieces = fed' at hrest ⊢
          obtain ⟨out', reached'⟩ := fed'
          cases reached' with
          | waiting _ => exact ⟨congrArg₂ _ hdata hrest.1, hrest.2⟩
          | stopped verdict _ =>
              cases verdict with
              | complete => exact ⟨congrArg₂ _ hdata hrest.1, hrest.2⟩
              | failed => exact ⟨congrArg₂ _ hdata hrest.1, hrest.2⟩
      | stopped verdict rest =>
          cases verdict with
          | complete =>
              obtain ⟨hdata, hret⟩ := hcomes
              change r.ret = _ at hret
              refine ⟨⟨r.data, r.ret + pieces.flatten.length, r.decoder⟩, ?_, hdata, ?_⟩
              · rw [if_neg (by omega), if_neg (by omega)]
              · show r.ret + _ = ((rest ++ pieces.flatten).length : Int)
                rw [hret, List.length_append]
                omega
          | failed =>
              obtain ⟨hdata, hret⟩ := hcomes
              change r.ret = _ at hret
              refine ⟨⟨r.data, -1, r.decoder⟩, ?_, hdata, rfl⟩
              rw [if_neg (by omega), if_pos hret]

/-- Two sessions that have come as far as the same bytes. -/
theorem Session.Comes.agree {s s' : Session} {fed : Fed Decoder UInt8 UInt8 Verdict}
    (h : s.Comes fed) (h' : s'.Comes fed) :
    s.data = s'.data ∧ s.ret = s'.ret ∧ (s'.ret = -2 → s.decoder = s'.decoder) := by
  match fed, h, h' with
  | (_, .waiting _), ⟨hdata, hret, hd⟩, ⟨hdata', hret', hd'⟩ =>
      exact ⟨hdata.trans hdata'.symm, hret.trans hret'.symm, fun _ => hd.trans hd'.symm⟩
  | (_, .stopped .complete _), ⟨hdata, hret⟩, ⟨hdata', hret'⟩ =>
      exact ⟨hdata.trans hdata'.symm, hret.trans hret'.symm, fun hwaits => by omega⟩
  | (_, .stopped .failed _), ⟨hdata, hret⟩, ⟨hdata', hret'⟩ =>
      exact ⟨hdata.trans hdata'.symm, hret.trans hret'.symm, fun hwaits => by omega⟩

/-- **CUTS**: however a stream is cut into pieces, the calls on them give the data, the
    verdict and the number of bytes left over that one call on the whole stream gives; and
    while more is asked for, the decoder that it leaves. -/
theorem chunked_ignores_cuts (t : Bool) (pieces : List Bytes) :
    ∃ r s, phrDecodeChunked (.fresh t) pieces.flatten = some r ∧
      decodeAll (.fresh t) pieces = some s ∧
      s.data = r.data ∧ s.ret = r.ret ∧ (r.ret = -2 → s.decoder = r.decoder) := by
  obtain ⟨r, hr, hplace⟩ := phrDecodeChunked_spec (fresh_valid t) pieces.flatten
  obtain ⟨s, hs, hcomes⟩ := decodeAll_comes (fresh_valid t) pieces
  exact ⟨r, s, hr, hs, hcomes.agree (comes_of_inPlace hplace)⟩

end CoioChunked
