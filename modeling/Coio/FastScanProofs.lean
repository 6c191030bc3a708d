import Coio.HttpRequestParserProofs

/-! # The fast loops of the parser

    The parser scans for the end of a token in one of two ways.  With SSE 4.2 it first goes
    over the buffer in blocks of sixteen bytes (`findchar_fast`) and hands over to the plain
    loop where a block holds a byte of interest, or where less than a block is left.
    Without it, `get_token_to_eol` goes over eight bytes at a time.

    A fast loop may stop too early; the plain loop goes on from there.  It must not pass a
    byte that the plain loop would have looked at.  `findcharFast_skips` says so for any
    scanner, and the bytes that are passed are then checked against each of them. -/

namespace CoioFastScan

open CoioHttpParser CoioHttpRequestParser CoioHttpGrammar

/-! ## The source -/

/-- The bytes of the ranges, each with its first and its last byte. -/
def inRanges (ranges : List (UInt8 × UInt8)) (c : UInt8) : Bool :=
  ranges.any fun r => r.1 ≤ c && c ≤ r.2

/-- `_mm_cmpestri` on a block: the index of the first byte that is in the ranges, or 16. -/
def cmpestri (ranges : List (UInt8 × UInt8)) (b16 : Bytes) : Nat := b16.findIdx (inRanges ranges)

/-- The loop of `findchar_fast` over as many blocks; whether it has found a byte, and where
    it stands. -/
def findInBlocks (ranges : List (UInt8 × UInt8)) : Nat → Nat → Bytes → Bool × Nat × Bytes
  | 0, pos, buf => (false, pos, buf)
  | blocks + 1, pos, buf =>
      let r := cmpestri ranges (buf.take 16)
      if r ≠ 16 then (true, pos + r, buf.drop r)
      else findInBlocks ranges blocks (pos + 16) (buf.drop 16)

/-- `findchar_fast`, with SSE 4.2. -/
def findcharFast (ranges : List (UInt8 × UInt8)) (pos : Nat) (buf : Bytes) : Bool × Nat × Bytes :=
  if 16 ≤ buf.length then findInBlocks ranges (buf.length / 16) pos buf else (false, pos, buf)

/-- `ranges1` of `get_token_to_eol`. -/
def ctlRanges : List (UInt8 × UInt8) := [(0, 8), (10, 31), (127, 127)]

/-- `ranges1` of `parse_headers`. -/
def nameRanges : List (UInt8 × UInt8) :=
  [(0, 32), (34, 34), (40, 41), (44, 44), (47, 47), (58, 64), (91, 93), (123, 255)]

/-- `ranges2` of `ADVANCE_TOKEN`. -/
def wordRanges : List (UInt8 × UInt8) := [(0, 32), (127, 127)]

/-- `get_token_to_eol` from `FOUND_CTL` on. -/
def foundCtl (start pos : Nat) : Bytes → Except Int (Span × Nat × Bytes)
  | [] => .error (-2)
  | c :: rest =>
      if c = 13 then
        match rest with
        | [] => .error (-2)
        | c' :: rest' =>
            if c' = 10 then .ok (⟨start, pos - start⟩, pos + 2, rest') else .error (-1)
      else if c = 10 then .ok (⟨start, pos - start⟩, pos + 1, rest)
      else .error (-1)

/-- `get_token_to_eol`, with SSE 4.2. -/
def getTokenToEolSse (start pos : Nat) (buf : Bytes) : Except Int (Span × Nat × Bytes) :=
  match findcharFast ctlRanges pos buf with
  | (true, pos', buf') => foundCtl start pos' buf'
  | (false, pos', buf') => getTokenToEol start pos' buf'

/-- The name of a header, with SSE 4.2. -/
def scanNameSse (pos : Nat) (buf : Bytes) : Except Int (Nat × Bytes) :=
  match findcharFast nameRanges pos buf with
  | (_, pos', buf') => scanName pos' buf'

/-- `ADVANCE_TOKEN`, with SSE 4.2. -/
def advanceTokenSse (start pos : Nat) (buf : Bytes) : Except Int (Span × Nat × Bytes) :=
  match findcharFast wordRanges pos buf with
  | (_, pos', buf') => advanceToken start pos' buf'

/-- `IS_PRINTABLE_ASCII`: the subtraction is one of `unsigned int`. -/
def isPrintableAscii (c : UInt8) : Bool := c.toUInt32 - 32 < 95

/-- `DOIT`, so many times; `inr` is the jump to `NonPrintable`. -/
def doit : Nat → Nat → Bytes → (Nat × Bytes) ⊕ (Nat × UInt8 × Bytes)
  | 0, pos, buf => .inl (pos, buf)
  | _ + 1, pos, [] => .inl (pos, [])
  | n + 1, pos, c :: rest =>
      if isPrintableAscii c then doit n (pos + 1) rest else .inr (pos, c, rest)

/-- The loop over eight bytes at a time, and the plain one behind it; a round takes at
    least one byte. -/
def unrolled (start : Nat) : Nat → Nat → Bytes → Except Int (Span × Nat × Bytes)
  | 0, pos, buf => getTokenToEol start pos buf
  | rounds + 1, pos, buf =>
      if 8 ≤ buf.length then
        match doit 8 pos buf with
        | .inl (pos', buf') => unrolled start rounds pos' buf'
        | .inr (pos', c, rest) =>
            if isCtl c then foundCtl start pos' (c :: rest) else unrolled start rounds (pos' + 1) rest
      else getTokenToEol start pos buf

/-- `get_token_to_eol`, without SSE 4.2. -/
def getTokenToEolUnrolled (start pos : Nat) (buf : Bytes) : Except Int (Span × Nat × Bytes) :=
  unrolled start buf.length pos buf

/-! ## Blocks -/

section Blocks

variable {α : Type} {ranges : List (UInt8 × UInt8)} {scan : Nat → Bytes → α}

/-- A scanner passes over bytes outside of the ranges. -/
theorem scan_skip (hskip : ∀ pos c rest, inRanges ranges c = false →
      scan pos (c :: rest) = scan (pos + 1) rest)
    {pos : Nat} {bs rest : Bytes} (hbs : ∀ c ∈ bs, inRanges ranges c = false) :
    scan pos (bs ++ rest) = scan (pos + bs.length) rest := by
  induction bs generalizing pos with
  | nil => rfl
  | cons c bs ih =>
      obtain ⟨hc, hrest⟩ := List.forall_mem_cons.mp hbs
      rw [List.cons_append, hskip pos c _ hc, ih hrest, List.length_cons,
        Nat.succ_add_eq_add_succ]

/-- Where a block loop stops, and why. -/
structure Stops (ranges : List (UInt8 × UInt8)) (scan : Nat → Bytes → α) (pos : Nat) (buf : Bytes)
    (r : Bool × Nat × Bytes) : Prop where
  same : scan r.2.1 r.2.2 = scan pos buf
  found : r.1 = true → ∃ c rest, r.2.2 = c :: rest ∧ inRanges ranges c = true

theorem findInBlocks_stops (hskip : ∀ pos c rest, inRanges ranges c = false →
      scan pos (c :: rest) = scan (pos + 1) rest)
    {blocks pos : Nat} {buf : Bytes} (hlong : 16 * blocks ≤ buf.length) :
    Stops ranges scan pos buf (findInBlocks ranges blocks pos buf) := by
  induction blocks generalizing pos buf with
  | zero => exact ⟨rfl, fun h => by cases h⟩
  | succ blocks ih =>
      have hblock : (buf.take 16).length = 16 := List.length_take_of_le (by omega)
      have hle : cmpestri ranges (buf.take 16) ≤ 16 :=
        (List.findIdx_le_length : cmpestri ranges (buf.take 16) ≤ _).trans_eq hblock
      -- the bytes before the index are passed
      have hbefore : ∀ c ∈ buf.take (cmpestri ranges (buf.take 16)), inRanges ranges c = false := by
        intro c hc
        obtain ⟨i, hi, rfl⟩ := List.mem_iff_getElem.mp hc
        rw [List.length_take] at hi
        have hfirst : i < (buf.take 16).findIdx (inRanges ranges) := by
          show i < cmpestri ranges (buf.take 16)
          omega
        have hnot := List.not_of_lt_findIdx hfirst
        rw [List.getElem_take] at hnot ⊢
        exact hnot
      have hpassed : scan (pos + cmpestri ranges (buf.take 16))
          (buf.drop (cmpestri ranges (buf.take 16))) = scan pos buf := by
        have hlength : (buf.take (cmpestri ranges (buf.take 16))).length
            = cmpestri ranges (buf.take 16) := List.length_take_of_le (by omega)
        have hskipped : scan pos (buf.take (cmpestri ranges (buf.take 16)) ++
            buf.drop (cmpestri ranges (buf.take 16))) = _ := scan_skip hskip hbefore
        rw [List.take_append_drop, hlength] at hskipped
        exact hskipped.symm
      unfold findInBlocks
      dsimp only
      split
      · rename_i hfound
        refine ⟨hpassed, fun _ => ?_⟩
        have hlt : (buf.take 16).findIdx (inRanges ranges) < (buf.take 16).length := by
          show cmpestri ranges (buf.take 16) < _
          omega
        have hin := List.findIdx_getElem (w := hlt)
        rw [List.getElem_take] at hin
        exact ⟨_, _, List.drop_eq_getElem_cons (by
          show cmpestri ranges (buf.take 16) < _
          omega), hin⟩
      · rename_i hnone
        rw [not_not] at hnone
        rw [hnone] at hpassed
        have hless : 16 * blocks ≤ (buf.drop 16).length := by
          rw [List.length_drop]
          omega
        have hrest : Stops ranges scan (pos + 16) (buf.drop 16) _ := ih hless
        exact ⟨hrest.same.trans hpassed, hrest.found⟩

/-- **BLOCKS**: a scanner that passes over the bytes outside of the ranges goes on from
    where the block loop stops as if it had come there by itself. -/
theorem findcharFast_skips (hskip : ∀ pos c rest, inRanges ranges c = false →
      scan pos (c :: rest) = scan (pos + 1) rest) (pos : Nat) (buf : Bytes) :
    Stops ranges scan pos buf (findcharFast ranges pos buf) := by
  unfold findcharFast
  split
  · exact findInBlocks_stops hskip (Nat.mul_div_le _ _)
  · exact ⟨rfl, fun h => by cases h⟩

end Blocks

/-! ## The bytes that are passed -/

/-- What holds of all 256 bytes. -/
theorem forall_byte {p : UInt8 → Bool} (h : ∀ n < 256, p (UInt8.ofNat n) = true) (c : UInt8) :
    p c = true := by
  have hc := h c.toNat c.toNat_lt
  rwa [UInt8.ofNat_toNat] at hc

theorem inRanges_ctl (c : UInt8) : inRanges ctlRanges c = isCtl c :=
  eq_of_beq (forall_byte (p := fun c => inRanges ctlRanges c == isCtl c) (by decide +kernel) c)

theorem token_of_not_inRanges {c : UInt8} (hc : inRanges nameRanges c = false) :
    c ≠ 58 ∧ isToken c = true := by
  have hall := forall_byte (p := fun c => inRanges nameRanges c || (c != 58 && isToken c))
    (by decide +kernel) c
  simpa [hc] using hall

theorem word_of_not_inRanges {c : UInt8} (hc : inRanges wordRanges c = false) :
    c ≠ 32 ∧ isWordChar c = true := by
  have hall := forall_byte (p := fun c => inRanges wordRanges c || (c != 32 && isWordChar c))
    (by decide +kernel) c
  simpa [hc] using hall

theorem not_ctl_of_printable {c : UInt8} (hc : isPrintableAscii c = true) : isCtl c = false := by
  have hall := forall_byte (p := fun c => !isPrintableAscii c || !isCtl c) (by decide +kernel) c
  simpa [hc] using hall

section Agree

variable {start pos : Nat} {buf : Bytes}

theorem foundCtl_eq {c : UInt8} {rest : Bytes} (hc : isCtl c = true) :
    foundCtl start pos (c :: rest) = getTokenToEol start pos (c :: rest) := by
  rw [getTokenToEol.eq_def]
  dsimp only
  rw [if_pos hc]
  rfl

theorem getTokenToEolSse_eq : getTokenToEolSse start pos buf = getTokenToEol start pos buf := by
  have hskip : ∀ pos c rest, inRanges ctlRanges c = false →
      getTokenToEol start pos (c :: rest) = getTokenToEol start (pos + 1) rest :=
    fun pos c rest hc => getTokenToEol_step (inRanges_ctl c ▸ hc)
  have hstops := findcharFast_skips hskip pos buf
  unfold getTokenToEolSse
  generalize findcharFast ctlRanges pos buf = r at hstops
  obtain ⟨found, pos', buf'⟩ := r
  cases found with
  | false => exact hstops.same
  | true =>
      obtain ⟨c, rest, hbuf, hc⟩ := hstops.found rfl
      dsimp only at hbuf ⊢
      rw [← hstops.same, hbuf, foundCtl_eq (inRanges_ctl c ▸ hc)]

theorem scanNameSse_eq : scanNameSse pos buf = scanName pos buf := by
  have hskip : ∀ pos c rest, inRanges nameRanges c = false →
      scanName pos (c :: rest) = scanName (pos + 1) rest := by
    intro pos c rest hc
    obtain ⟨hcolon, htoken⟩ := token_of_not_inRanges hc
    rw [scanName, if_neg hcolon, if_pos htoken]
  exact (findcharFast_skips hskip pos buf).same

theorem advanceTokenSse_eq : advanceTokenSse start pos buf = advanceToken start pos buf := by
  have hskip : ∀ pos c rest, inRanges wordRanges c = false →
      advanceToken start pos (c :: rest) = advanceToken start (pos + 1) rest := by
    intro pos c rest hc
    obtain ⟨hspace, hword⟩ := word_of_not_inRanges hc
    rw [advanceToken, if_neg hspace, if_pos hword]
  exact (findcharFast_skips hskip pos buf).same

/-- `DOIT` passes no byte that the plain loop would stop at. -/
theorem doit_passes (start pos : Nat) (buf : Bytes) (n : Nat) :
    (∀ pos' buf', doit n pos buf = .inl (pos', buf') →
      getTokenToEol start pos' buf' = getTokenToEol start pos buf) ∧
    ∀ pos' c rest, doit n pos buf = .inr (pos', c, rest) →
      getTokenToEol start pos' (c :: rest) = getTokenToEol start pos buf := by
  induction n generalizing pos buf with
  | zero =>
      constructor
      · rintro _ _ ⟨⟩
        rfl
      · rintro _ _ _ ⟨⟩
  | succ n ih =>
      cases buf with
      | nil =>
          constructor
          · rintro _ _ ⟨⟩
            rfl
          · rintro _ _ _ ⟨⟩
      | cons c rest =>
          by_cases hc : isPrintableAscii c = true
          · rw [doit, if_pos hc, getTokenToEol_step (not_ctl_of_printable hc)]
            exact ih (pos + 1) rest
          · rw [doit, if_neg hc]
            constructor
            · rintro _ _ ⟨⟩
            · rintro _ _ _ ⟨⟩
              rfl

theorem unrolled_eq (rounds : Nat) : unrolled start rounds pos buf = getTokenToEol start pos buf := by
  induction rounds generalizing pos buf with
  | zero => rfl
  | succ rounds ih =>
      obtain ⟨hall, hstopped⟩ := doit_passes start pos buf 8
      rw [unrolled]
      split
      · split
        · rename_i hdoit
          rw [ih, hall _ _ hdoit]
        · rename_i pos' c rest hdoit
          rw [← hstopped _ _ _ hdoit]
          cases hc : isCtl c with
          | true => exact foundCtl_eq hc
          | false => exact ih.trans (getTokenToEol_step hc).symm
      · rfl

end Agree

/-- **FAST AND PLAIN**: for every input, the loops over blocks of sixteen and of eight bytes
    give what the plain loops give: the token, the position behind it, or the error. -/
theorem fast_scans_agree (start pos : Nat) (buf : Bytes) :
    getTokenToEolSse start pos buf = getTokenToEol start pos buf ∧
      getTokenToEolUnrolled start pos buf = getTokenToEol start pos buf ∧
      scanNameSse pos buf = scanName pos buf ∧
      advanceTokenSse start pos buf = advanceToken start pos buf :=
  ⟨getTokenToEolSse_eq, unrolled_eq buf.length, scanNameSse_eq, advanceTokenSse_eq⟩

end CoioFastScan
