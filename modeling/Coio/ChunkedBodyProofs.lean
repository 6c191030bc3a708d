import Coio.ChunkedProofs

/-! # The streams that `phr_decode_chunked` decodes to their end

    `Body` is the grammar that the decoder accepts, written as the sender would: chunks
    with their size lines, a last chunk of size zero and, if the caller has asked for it,
    a trailer.  It is wider than the one of the standard.  A line ends in a line feed with
    any number of carriage returns before it, and whatever follows the digits of a size
    up to the line feed is an extension.

    `feed_body` says that a rendered body is decoded to its data, `body_of_stopped` that
    nothing else is decoded to its end. -/

namespace CoioChunked

open CoioStreamBuffer CoioHttpParser CoioTransducer

/-! ## The grammar -/

/-- The number that digits add to. -/
def sizeOfHex (n : Nat) (digits : Bytes) : Nat :=
  digits.foldl (fun n c => n * 16 + (decodeHex c).getD 0) n

/-- The digits of a size, and what stands behind them. -/
structure SizeLine where
  digits : Bytes
  ext : Bytes
  hex : ∀ c ∈ digits, (decodeHex c).isSome = true
  some_digit : digits ≠ []
  room : digits.length ≤ maxHex
  no_digit : ∀ c ∈ ext.head?, decodeHex c = none
  no_lf : 10 ∉ ext

def SizeLine.size (line : SizeLine) : Nat := sizeOfHex 0 line.digits

def SizeLine.render (line : SizeLine) : Bytes := line.digits ++ (line.ext ++ [10])

/-- The end of a line: `n` carriage returns and a line feed. -/
def eol (n : Nat) : Bytes := List.replicate n 13 ++ [10]

structure Chunk where
  line : SizeLine
  data : Bytes
  crs : Nat
  some_data : data ≠ []
  size_eq : line.size = data.length

def Chunk.render (chunk : Chunk) : Bytes :=
  chunk.line.render ++ (chunk.data ++ eol chunk.crs)

/-- A line of the trailer that is not empty. -/
structure TrailerLine where
  crs : Nat
  first : UInt8
  text : Bytes
  first_ne : first ≠ 13 ∧ first ≠ 10
  no_lf : 10 ∉ text

def TrailerLine.render (line : TrailerLine) : Bytes :=
  List.replicate line.crs 13 ++ line.first :: (line.text ++ [10])

structure Trailer where
  lines : List TrailerLine
  crs : Nat

def Trailer.render (trailer : Trailer) : Bytes :=
  trailer.lines.flatMap TrailerLine.render ++ eol trailer.crs

/-- A body; the trailer is there if the caller wants it consumed. -/
structure Body (t : Bool) where
  chunks : List Chunk
  last : SizeLine
  last_size : last.size = 0
  trailer : Option Trailer
  trailer_eq : trailer.isSome = t

variable {t : Bool}

def Body.render (body : Body t) : Bytes :=
  body.chunks.flatMap Chunk.render ++ (body.last.render ++ (body.trailer.map Trailer.render).getD [])

def Body.data (body : Body t) : Bytes := body.chunks.flatMap Chunk.data

/-! ## Lines -/

section Lines

variable {n k : Nat} {bs : Bytes}

theorem step_digit {c : UInt8} {v : Nat} (hv : decodeHex c = some v) (hk : k ≠ maxHex) :
    Decoder.step ⟨n, t, k, .chunkSize⟩ c = .go ⟨n * 16 + v, t, k + 1, .chunkSize⟩ [] := by
  rw [Decoder.step.eq_def]
  dsimp only
  rw [hv]
  exact if_neg hk

/-- The byte behind the digits is the first one of the extension. -/
theorem feed_behind_digits {c : UInt8} (hc : decodeHex c = none) (hk : k ≠ 0) :
    feed Decoder.step ⟨n, t, k, .chunkSize⟩ (c :: bs)
      = feed Decoder.step ⟨n, t, 0, .chunkExt⟩ (c :: bs) := by
  have hstep : Decoder.step ⟨n, t, k, .chunkSize⟩ c = Decoder.step ⟨n, t, 0, .chunkExt⟩ c := by
    rw [Decoder.step.eq_def]
    dsimp only
    rw [hc]
    exact if_neg hk
  rw [feed, feed, hstep]

theorem feed_digits {digits : Bytes} (hhex : ∀ c ∈ digits, (decodeHex c).isSome = true)
    (hroom : k + digits.length ≤ maxHex) :
    feed Decoder.step ⟨n, t, k, .chunkSize⟩ (digits ++ bs)
      = feed Decoder.step ⟨sizeOfHex n digits, t, k + digits.length, .chunkSize⟩ bs := by
  induction digits generalizing n k with
  | nil => rfl
  | cons c digits ih =>
      obtain ⟨hc, hdigits⟩ := List.forall_mem_cons.mp hhex
      obtain ⟨v, hv⟩ := Option.isSome_iff_exists.mp hc
      rw [List.length_cons] at hroom
      rw [List.cons_append, feed_quiet (step_digit hv (by omega)), ih hdigits (by omega)]
      have hsize : sizeOfHex n (c :: digits) = sizeOfHex (n * 16 + v) digits := by
        show sizeOfHex (n * 16 + (decodeHex c).getD 0) digits = _
        rw [hv]
        rfl
      rw [hsize, List.length_cons, Nat.add_right_comm, Nat.add_assoc]

theorem step_ext {c : UInt8} (hc : c ≠ 10) :
    Decoder.step ⟨n, t, 0, .chunkExt⟩ c = .go ⟨n, t, 0, .chunkExt⟩ [] := if_neg hc

theorem feed_ext {ext : Bytes} (hext : 10 ∉ ext) :
    feed Decoder.step ⟨n, t, 0, .chunkExt⟩ (ext ++ bs) = feed Decoder.step ⟨n, t, 0, .chunkExt⟩ bs :=
  feed_passes fun _ ha => step_ext fun h => hext (h ▸ ha)

/-- A size line comes to the line feed at its end. -/
theorem feed_line (line : SizeLine) :
    feed Decoder.step (.fresh t) (line.render ++ bs)
      = feed Decoder.step ⟨line.size, t, 0, .chunkExt⟩ (10 :: bs) := by
  have hlength : 0 + line.digits.length ≠ 0 := by
    rw [Nat.zero_add]
    exact mt List.length_eq_zero_iff.mp line.some_digit
  have hnone : ∀ {c cs}, line.ext ++ 10 :: bs = c :: cs → decodeHex c = none := by
    intro c cs hsplit
    have hno := line.no_digit
    cases hext : line.ext with
    | nil =>
        rw [hext] at hsplit
        cases hsplit
        rfl
    | cons c' ext =>
        rw [hext] at hsplit hno
        cases hsplit
        exact hno _ rfl
  obtain ⟨c, cs, hsplit⟩ : ∃ c cs, line.ext ++ 10 :: bs = c :: cs :=
    List.exists_cons_of_ne_nil (List.append_ne_nil_of_right_ne_nil _ (List.cons_ne_nil _ _))
  calc feed Decoder.step (.fresh t) (line.render ++ bs)
      = feed Decoder.step ⟨0, t, 0, .chunkSize⟩ (line.digits ++ (line.ext ++ 10 :: bs)) := by
        rw [SizeLine.render, List.append_assoc, List.append_assoc]
        rfl
    _ = feed Decoder.step ⟨line.size, t, 0, .chunkExt⟩ (line.ext ++ 10 :: bs) := by
        rw [feed_digits line.hex (Nat.zero_add _ ▸ line.room), hsplit,
          feed_behind_digits (hnone hsplit) hlength]
        rfl
    _ = feed Decoder.step ⟨line.size, t, 0, .chunkExt⟩ (10 :: bs) := feed_ext line.no_lf

end Lines

/-! ## What is rendered is decoded -/

section Rendered

variable {bs : Bytes}

theorem feed_crs {d : Decoder} (hd : Decoder.step d 13 = .go d []) (n : Nat) :
    feed Decoder.step d (List.replicate n 13 ++ bs) = feed Decoder.step d bs :=
  feed_passes fun _ ha => List.eq_of_mem_replicate ha ▸ hd

theorem feed_eol (n : Nat) :
    feed Decoder.step ⟨0, t, 0, .chunkCrlf⟩ (eol n ++ bs) = feed Decoder.step (.fresh t) bs := by
  have hlf : Decoder.step ⟨0, t, 0, .chunkCrlf⟩ 10 = .go (.fresh t) [] := rfl
  rw [eol, List.append_assoc, feed_crs rfl]
  exact feed_quiet hlf

theorem feed_chunk (chunk : Chunk) :
    feed Decoder.step (.fresh t) (chunk.render ++ bs)
      = (chunk.data ++ (feed Decoder.step (.fresh t) bs).1,
          (feed Decoder.step (.fresh t) bs).2) := by
  have hpos : 0 < chunk.line.size := chunk.size_eq ▸ List.length_pos_of_ne_nil chunk.some_data
  have hlf : Decoder.step ⟨chunk.line.size, t, 0, .chunkExt⟩ 10
      = .go ⟨chunk.line.size, t, 0, .chunkData⟩ [] :=
    if_neg (Nat.ne_of_gt hpos)
  rw [Chunk.render, List.append_assoc, feed_line, feed_quiet hlf, feed_data _ _ _ hpos,
    chunk.size_eq, List.append_assoc, if_neg (by simp), List.take_left, List.drop_left, feed_eol]

theorem feed_chunks (chunks : List Chunk) :
    feed Decoder.step (.fresh t) (chunks.flatMap Chunk.render ++ bs)
      = (chunks.flatMap Chunk.data ++ (feed Decoder.step (.fresh t) bs).1,
          (feed Decoder.step (.fresh t) bs).2) := by
  induction chunks with
  | nil => rfl
  | cons chunk chunks ih =>
      rw [List.flatMap_cons, List.flatMap_cons, List.append_assoc, feed_chunk, ih,
        List.append_assoc]

theorem feed_trailerLine (line : TrailerLine) :
    feed Decoder.step ⟨0, t, 0, .trailersLineHead⟩ (line.render ++ bs)
      = feed Decoder.step ⟨0, t, 0, .trailersLineHead⟩ bs := by
  have hfirst : Decoder.step ⟨0, t, 0, .trailersLineHead⟩ line.first
      = .go ⟨0, t, 0, .trailersLineMiddle⟩ [] :=
    (if_neg line.first_ne.1).trans (if_neg line.first_ne.2)
  have hmiddle : ∀ c ∈ line.text, Decoder.step ⟨0, t, 0, .trailersLineMiddle⟩ c
      = .go ⟨0, t, 0, .trailersLineMiddle⟩ [] := fun c hc =>
    if_neg fun (h : c = 10) => line.no_lf (h ▸ hc)
  have hlf : Decoder.step ⟨0, t, 0, .trailersLineMiddle⟩ 10
      = .go ⟨0, t, 0, .trailersLineHead⟩ [] := rfl
  rw [TrailerLine.render, List.append_assoc, feed_crs rfl, List.cons_append, feed_quiet hfirst,
    List.append_assoc, feed_passes hmiddle]
  exact feed_quiet hlf

theorem feed_trailer (trailer : Trailer) :
    feed Decoder.step ⟨0, t, 0, .trailersLineHead⟩ (trailer.render ++ bs)
      = ([], .stopped .complete bs) := by
  obtain ⟨lines, crs⟩ := trailer
  induction lines with
  | nil =>
      have hlf : Decoder.step ⟨0, t, 0, .trailersLineHead⟩ 10 = .halt .complete true := rfl
      show feed Decoder.step _ (eol crs ++ bs) = _
      rw [eol, List.append_assoc, feed_crs rfl]
      exact feed_halt hlf
  | cons line lines ih =>
      rw [Trailer.render, List.flatMap_cons, List.append_assoc, List.append_assoc,
        feed_trailerLine, ← List.append_assoc]
      exact ih

/-- **RENDERED**: a body is decoded to its data, and what follows it is left alone. -/
theorem feed_body (body : Body t) :
    feed Decoder.step (.fresh t) (body.render ++ bs) = (body.data, .stopped .complete bs) := by
  obtain ⟨chunks, last, hlast, trailer, htrailer⟩ := body
  have hend : feed Decoder.step ⟨0, t, 0, .chunkExt⟩
      (10 :: ((trailer.map Trailer.render).getD [] ++ bs)) = ([], .stopped .complete bs) := by
    cases trailer with
    | none =>
        subst htrailer
        have hlf : Decoder.step ⟨0, false, 0, .chunkExt⟩ 10 = .halt .complete true := rfl
        exact feed_halt hlf
    | some trailer =>
        subst htrailer
        have hlf : Decoder.step ⟨0, true, 0, .chunkExt⟩ 10
            = .go ⟨0, true, 0, .trailersLineHead⟩ [] := rfl
        exact (feed_quiet hlf).trans (feed_trailer trailer)
  rw [Body.render, List.append_assoc, feed_chunks, List.append_assoc, feed_line, hlast, hend,
    List.append_nil]
  rfl

end Rendered

/-! ## What is decoded was rendered -/

section Decoded

variable {n k : Nat} {buf out rest : Bytes}

/-- Behind the digits stands a byte that is none, and there is a digit. -/
theorem digits_of_stopped
    (h : feed Decoder.step ⟨n, t, k, .chunkSize⟩ buf = (out, .stopped .complete rest))
    (hk : k ≤ maxHex) :
    ∃ digits c bs, buf = digits ++ c :: bs ∧ (∀ c ∈ digits, (decodeHex c).isSome = true) ∧
      k + digits.length ≤ maxHex ∧ k + digits.length ≠ 0 ∧ decodeHex c = none ∧
      feed Decoder.step ⟨sizeOfHex n digits, t, 0, .chunkExt⟩ (c :: bs)
        = (out, .stopped .complete rest) := by
  induction buf generalizing n k with
  | nil => cases (Prod.mk.inj h).2
  | cons c buf ih =>
      cases hc : decodeHex c with
      | none =>
          have hk0 : k ≠ 0 := by
            rintro rfl
            have hstep : Decoder.step ⟨n, t, 0, .chunkSize⟩ c = .halt .failed false := by
              rw [Decoder.step.eq_def]
              dsimp only
              rw [hc]
              rfl
            rw [feed_halt hstep] at h
            cases (Prod.mk.inj h).2
          rw [feed_behind_digits hc hk0] at h
          exact ⟨[], c, buf, rfl, fun _ hm => absurd hm List.not_mem_nil, hk, hk0, hc, h⟩
      | some v =>
          have hroom : k ≠ maxHex := by
            rintro rfl
            have hstep : Decoder.step ⟨n, t, maxHex, .chunkSize⟩ c = .halt .failed false := by
              rw [Decoder.step.eq_def]
              dsimp only
              rw [hc]
              rfl
            rw [feed_halt hstep] at h
            cases (Prod.mk.inj h).2
          rw [feed_quiet (step_digit hc hroom)] at h
          obtain ⟨digits, c', bs, rfl, hhex, hle, hne, hnone, hfeed⟩ := ih h (by omega)
          refine ⟨c :: digits, c', bs, rfl, List.forall_mem_cons.mpr ⟨?_, hhex⟩, ?_, ?_, hnone, ?_⟩
          · rw [hc]
            rfl
          · rw [List.length_cons]
            omega
          · rw [List.length_cons]
            omega
          · rw [← hfeed]
            show feed Decoder.step ⟨sizeOfHex (n * 16 + (decodeHex c).getD 0) digits, _, _, _⟩ _ = _
            rw [hc]
            rfl

theorem line_of_stopped
    (h : feed Decoder.step (.fresh t) buf = (out, .stopped .complete rest)) :
    ∃ (line : SizeLine) (bs : Bytes), buf = line.render ++ bs ∧
      feed Decoder.step ⟨line.size, t, 0, .chunkExt⟩ (10 :: bs)
        = (out, .stopped .complete rest) := by
  obtain ⟨digits, c, bs, rfl, hhex, hroom, hne, hnone, hfeed⟩ :=
    digits_of_stopped h (Nat.zero_le _)
  obtain ⟨ext, c', bs', hsplit, hext, hc', hfeed'⟩ := stopped_behind (p := (· != 10))
    (fun c hc => step_ext (by simpa using hc)) hfeed
  have hlf : c' = 10 := by simpa using hc'
  subst hlf
  rw [Nat.zero_add] at hroom hne
  refine ⟨⟨digits, ext, hhex, mt List.length_eq_zero_iff.mpr hne, hroom, ?_, ?_⟩, bs', ?_, hfeed'⟩
  · intro c'' hhead
    cases ext with
    | nil => cases hhead
    | cons e ext =>
        cases hhead
        cases hsplit
        exact hnone
  · intro hmem
    have hten := hext 10 hmem
    cases hten
  · show _ = (digits ++ (ext ++ [10])) ++ bs'
    rw [hsplit, List.append_assoc, List.append_assoc]
    rfl

/-- Carriage returns are passed over, up to the byte that matters. -/
theorem crs_of_stopped {d : Decoder} {verdict : Verdict} (hd : Decoder.step d 13 = .go d [])
    (h : feed Decoder.step d buf = (out, .stopped verdict rest)) :
    ∃ n c bs, buf = List.replicate n 13 ++ c :: bs ∧ c ≠ 13 ∧
      feed Decoder.step d (c :: bs) = (out, .stopped verdict rest) := by
  have hpass : ∀ c : UInt8, (c == 13) = true → Decoder.step d c = .go d [] := by
    intro c hc
    rw [eq_of_beq hc]
    exact hd
  obtain ⟨run, c, bs, rfl, hrun, hc, hfeed⟩ := stopped_behind hpass h
  refine ⟨run.length, c, bs, ?_, ne_of_beq_false hc, hfeed⟩
  rw [← List.eq_replicate_of_mem fun b hb => eq_of_beq (hrun b hb)]

theorem chunk_of_stopped (hn : 0 < n)
    (h : feed Decoder.step ⟨n, t, 0, .chunkData⟩ buf = (out, .stopped .complete rest)) :
    ∃ data crs bs out', buf = data ++ (eol crs ++ bs) ∧ data.length = n ∧ out = data ++ out' ∧
      feed Decoder.step (.fresh t) bs = (out', .stopped .complete rest) := by
  rw [feed_data _ _ _ hn] at h
  split at h
  · cases (Prod.mk.inj h).2
  · rename_i hlong
    obtain ⟨hout, hreached⟩ := Prod.mk.inj h
    obtain ⟨crs, c, bs, hsplit, hc, hfeed⟩ := crs_of_stopped rfl (Prod.ext rfl hreached)
    have hlf : c = 10 := by
      by_contra hne
      have hstep : Decoder.step ⟨0, t, 0, .chunkCrlf⟩ c = .halt .failed false :=
        (if_neg hc).trans (if_neg hne)
      rw [feed_halt hstep] at hfeed
      cases (Prod.mk.inj hfeed).2
    subst hlf
    have hstep : Decoder.step ⟨0, t, 0, .chunkCrlf⟩ 10 = .go (.fresh t) [] := rfl
    rw [feed_quiet hstep] at hfeed
    refine ⟨buf.take n, crs, bs, _, ?_, List.length_take_of_le (Nat.le_of_not_lt hlong), hout.symm,
      hfeed⟩
    rw [eol, List.append_assoc]
    show _ = buf.take n ++ (List.replicate crs 13 ++ 10 :: bs)
    rw [← hsplit, List.take_append_drop]

theorem trailer_of_stopped
    (h : feed Decoder.step ⟨0, t, 0, .trailersLineHead⟩ buf = (out, .stopped .complete rest)) :
    ∃ trailer : Trailer, buf = trailer.render ++ rest ∧ out = [] := by
  induction hlength : buf.length using Nat.strong_induction_on generalizing buf with
  | _ m ih =>
      obtain ⟨crs, c, bs, rfl, hc, hfeed⟩ := crs_of_stopped rfl h
      by_cases hlf : c = 10
      · subst hlf
        have hstep : Decoder.step ⟨0, t, 0, .trailersLineHead⟩ 10 = .halt .complete true := rfl
        rw [feed_halt hstep] at hfeed
        cases hfeed
        refine ⟨⟨[], crs⟩, ?_, rfl⟩
        show _ = eol crs ++ bs
        rw [eol, List.append_assoc]
        rfl
      · have hstep : Decoder.step ⟨0, t, 0, .trailersLineHead⟩ c
            = .go ⟨0, t, 0, .trailersLineMiddle⟩ [] := (if_neg hc).trans (if_neg hlf)
        rw [feed_quiet hstep] at hfeed
        have hpass : ∀ c : UInt8, (c != 10) = true → Decoder.step ⟨0, t, 0, .trailersLineMiddle⟩ c
            = .go ⟨0, t, 0, .trailersLineMiddle⟩ [] := fun c hc =>
          if_neg (by simpa using hc)
        obtain ⟨text, c', bs', rfl, htext, hc', hfeed'⟩ := stopped_behind hpass hfeed
        have hlf' : c' = 10 := by simpa using hc'
        subst hlf'
        have hstep' : Decoder.step ⟨0, t, 0, .trailersLineMiddle⟩ 10
            = .go ⟨0, t, 0, .trailersLineHead⟩ [] := rfl
        rw [feed_quiet hstep'] at hfeed'
        have hshorter : bs'.length < m := by
          rw [← hlength]
          simp only [List.length_append, List.length_cons]
          omega
        obtain ⟨⟨lines, crs'⟩, rfl, hout⟩ := ih _ hshorter hfeed' rfl
        have hno : 10 ∉ text := by
          intro hmem
          cases htext 10 hmem
        refine ⟨⟨⟨crs, c, text, ⟨hc, hlf⟩, hno⟩ :: lines, crs'⟩, ?_, hout⟩
        simp only [Trailer.render, TrailerLine.render, List.flatMap_cons, List.append_assoc,
          List.cons_append, List.nil_append]

theorem body_of_stopped
    (h : feed Decoder.step (.fresh t) buf = (out, .stopped .complete rest)) :
    ∃ body : Body t, buf = body.render ++ rest ∧ out = body.data := by
  induction hlength : buf.length using Nat.strong_induction_on generalizing buf out with
  | _ m ih =>
      obtain ⟨line, bs, rfl, hfeed⟩ := line_of_stopped h
      by_cases hsize : line.size = 0
      · rw [hsize] at hfeed
        cases ht : t with
        | false =>
            subst ht
            have hstep : Decoder.step ⟨0, false, 0, .chunkExt⟩ 10 = .halt .complete true := rfl
            rw [feed_halt hstep] at hfeed
            cases hfeed
            refine ⟨⟨[], line, hsize, none, rfl⟩, ?_, rfl⟩
            show _ = (line.render ++ []) ++ bs
            rw [List.append_nil]
        | true =>
            subst ht
            have hstep : Decoder.step ⟨0, true, 0, .chunkExt⟩ 10
                = .go ⟨0, true, 0, .trailersLineHead⟩ [] := rfl
            rw [feed_quiet hstep] at hfeed
            obtain ⟨trailer, rfl, rfl⟩ := trailer_of_stopped hfeed
            refine ⟨⟨[], line, hsize, some trailer, rfl⟩, ?_, rfl⟩
            exact (List.append_assoc ..).symm
      · have hstep : Decoder.step ⟨line.size, t, 0, .chunkExt⟩ 10
            = .go ⟨line.size, t, 0, .chunkData⟩ [] := if_neg hsize
        rw [feed_quiet hstep] at hfeed
        obtain ⟨data, crs, bs', out', rfl, hdata, rfl, hrest⟩ :=
          chunk_of_stopped (Nat.pos_of_ne_zero hsize) hfeed
        have hshorter : bs'.length < m := by
          rw [← hlength, eol]
          simp only [List.length_append, List.length_cons]
          omega
        obtain ⟨⟨chunks, last, hlast, trailer, htrailer⟩, rfl, rfl⟩ := ih _ hshorter hrest rfl
        have hsome : data ≠ [] := by
          rintro rfl
          exact hsize hdata.symm
        refine ⟨⟨⟨line, data, crs, hsome, hdata.symm⟩ :: chunks, last, hlast, trailer, htrailer⟩,
          ?_, rfl⟩
        simp only [Body.render, Chunk.render, List.flatMap_cons, List.append_assoc]

end Decoded

/-- **THE GRAMMAR**: a stream is decoded to its end, with some data and some bytes left
    over, exactly if it is a body with that data and that many bytes behind it. -/
theorem chunked_accepts_bodies (t : Bool) (buf data : Bytes) (left : Nat) :
    (∃ r, phrDecodeChunked (.fresh t) buf = some r ∧ r.ret = left ∧ r.data = data) ↔
      ∃ (body : Body t) (rest : Bytes), buf = body.render ++ rest ∧ rest.length = left ∧
        body.data = data := by
  obtain ⟨r, hr, hplace⟩ := phrDecodeChunked_spec (fresh_valid t) buf
  have hcomes := comes_of_inPlace hplace
  constructor
  · rintro ⟨r', hr', hret, hdata⟩
    cases Option.some.inj (hr.symm.trans hr')
    cases hfeed : feed Decoder.step (.fresh t) buf with
    | mk out reached =>
        rw [hfeed] at hcomes
        match reached, hcomes, hfeed with
        | .waiting d, ⟨_, hwaits, _⟩, _ =>
            change r.ret = -2 at hwaits
            omega
        | .stopped .failed rest, ⟨_, hfails⟩, _ =>
            change r.ret = -1 at hfails
            omega
        | .stopped .complete rest, ⟨hout, hlength⟩, hfeed =>
            change r.data = out at hout
            change r.ret = rest.length at hlength
            obtain ⟨body, hbuf, hbody⟩ := body_of_stopped hfeed
            exact ⟨body, rest, hbuf, by omega, hbody.symm.trans (hout.symm.trans hdata)⟩
  · rintro ⟨body, rest, rfl, hlength, hdata⟩
    rw [feed_body] at hcomes
    obtain ⟨hout, hret⟩ := hcomes
    exact ⟨r, hr, hret.trans (congrArg _ hlength), hout.trans hdata⟩

end CoioChunked
