import Coio.HttpIncrementalProofs
import Coio.HttpDecodeProofs

/-! # `phr_parse_request` — the other end of the connection

    The parser that the client uses for responses can also read requests.  Its header
    lines are the same; before them stand a method, a target and the version, and before
    those at most one empty line.

    Two things are shown.  `request_heads_accepted` gives the grammar that is accepted.
    And what `build_msg` writes is read back as it was meant (`request_read_back`), so the
    two ends of the repository agree on the format.

    In this copy of the parser `last_len` is where the parsing begins.  It is not the length of an
    earlier, incomplete part, as in `phr_parse_response`.  Requests that stand one behind the
    other in a buffer can therefore be read in turn (`requests_read_in_turn`). -/

namespace CoioHttpRequestParser

open CoioStreamBuffer CoioHttpParser CoioHttpRead CoioHttpHeader CoioHttpGrammar
open CoioHttpIncremental CoioHttpMessage CoioHttpUrl CoioHttpDecode

/-! ## The source -/

/-- The return value, and what is written through the pointers. -/
structure PhrRequest where
  ret : Int
  method : Span
  path : Span
  minorVersion : Int
  headers : List PhrHeader
  deriving DecidableEq

/-- The bytes that neither end a token nor are refused in `ADVANCE_TOKEN`. -/
def isWordChar (c : UInt8) : Bool := !(c ≤ 32 || c == 127)

/-- `ADVANCE_TOKEN` and the `++buf` behind it, from the token that begins at `start`. -/
def advanceToken (start : Nat) : Nat → Bytes → Except Int (Span × Nat × Bytes)
  | _, [] => .error (-2)
  | pos, c :: rest =>
      if c = 32 then .ok (⟨start, pos - start⟩, pos + 1, rest)
      else if isWordChar c then advanceToken start (pos + 1) rest
      else .error (-1)

/-- The empty line that some clients put before a request. -/
def skipEmptyLine (pos : Nat) : Bytes → Except Int (Nat × Bytes)
  | [] => .error (-2)
  | c :: rest =>
      if c = 13 then
        match rest with
        | [] => .error (-2)
        | c' :: rest' => if c' = 10 then .ok (pos + 2, rest') else .error (-1)
      else if c = 10 then .ok (pos + 1, rest)
      else .ok (pos, c :: rest)

/-- The end of the request line. -/
def endRequestLine (pos : Nat) : Bytes → Except Int (Nat × Bytes)
  | [] => .error (-1)
  | c :: rest =>
      if c = 13 then
        match rest with
        | [] => .error (-2)
        | c' :: rest' => if c' = 10 then .ok (pos + 2, rest') else .error (-1)
      else if c = 10 then .ok (pos + 1, rest)
      else .error (-1)

/-- The digit that `parse_http_version` reads. -/
def minorOf (buf : Bytes) : Int := ((buf.drop 7).head?.getD 0).toNat - 48

/-- `parse_request` on what stands at `pos`; the value is returned relative to `start`. -/
def parseRequest (maxHeaders start pos : Nat) (buf : Bytes) : PhrRequest :=
  match skipEmptyLine pos buf with
  | .error r => ⟨r, ⟨0, 0⟩, ⟨0, 0⟩, -1, []⟩
  | .ok (pos, buf) =>
      match advanceToken pos pos buf with
      | .error r => ⟨r, ⟨0, 0⟩, ⟨0, 0⟩, -1, []⟩
      | .ok (method, pos, buf) =>
          match advanceToken pos pos buf with
          | .error r => ⟨r, method, ⟨0, 0⟩, -1, []⟩
          | .ok (path, pos, buf) =>
              match parseHttpVersion buf with
              | .error r => ⟨r, method, path, -1, []⟩
              | .ok rest =>
                  match endRequestLine (pos + 8) rest with
                  | .error r => ⟨r, method, path, minorOf buf, []⟩
                  | .ok (pos, rest) =>
                      match parseHeaders maxHeaders [] pos rest with
                      | (headers, .error r) => ⟨r, method, path, minorOf buf, headers⟩
                      | (headers, .ok pos') =>
                          ⟨toInt (pos' - start), method, path, minorOf buf, headers⟩

/-- `phr_parse_request`. -/
def phrParseRequest (maxHeaders lastLen : Nat) (buf : Bytes) : PhrRequest :=
  if lastLen ≠ 0 then
    match isComplete lastLen buf with
    | .error r => ⟨r, ⟨0, 0⟩, ⟨0, 0⟩, -1, []⟩
    | .ok _ => parseRequest maxHeaders lastLen lastLen (buf.drop lastLen)
  else parseRequest maxHeaders lastLen lastLen (buf.drop lastLen)

/-! ## The grammar -/

def Word (bs : Bytes) : Prop := ∀ c ∈ bs, isWordChar c = true

structure RequestHead where
  /-- the empty line before it, and whether that has a carriage return -/
  emptyLine : Option Bool
  method : Bytes
  path : Bytes
  minor : UInt8
  lineCr : Bool
  lines : List HeaderLine
  cr : Bool
  method_word : Word method
  path_word : Word path
  minor_digit : isDigit minor = true
  starts : Starts lines

namespace RequestHead

def before (head : RequestHead) : Bytes := (head.emptyLine.map lineEnd).getD []

/-- All up to the header lines. -/
def line (head : RequestHead) : Bytes :=
  head.before ++ (head.method ++ 32 ::
    (head.path ++ 32 :: (httpOne ++ head.minor :: lineEnd head.lineCr)))

def render (head : RequestHead) : Bytes := head.line ++ (renderLines head.lines ++ lineEnd head.cr)

end RequestHead

/-! ## Scanning -/

section Scan

variable {start pos pos' : Nat} {buf rest : Bytes}

theorem advanceToken_render {word : Bytes} (hword : Word word) :
    advanceToken start pos (word ++ 32 :: rest)
      = .ok (⟨start, pos + word.length - start⟩, pos + word.length + 1, rest) := by
  induction word generalizing pos with
  | nil => rfl
  | cons c word ih =>
      obtain ⟨hc, hrest⟩ := List.forall_mem_cons.mp hword
      have hspace : c ≠ 32 := by
        rintro rfl
        exact absurd hc (by decide)
      rw [List.cons_append, advanceToken, if_neg hspace, if_pos hc, ih hrest, List.length_cons,
        Nat.succ_add_eq_add_succ]

theorem word_of_ok {v : Span} (h : advanceToken start pos buf = .ok (v, pos', rest)) :
    ∃ word, Word word ∧ buf = word ++ 32 :: rest := by
  induction buf generalizing pos with
  | nil => cases h
  | cons c buf ih =>
      rw [advanceToken] at h
      split at h
      · rename_i hspace
        cases h
        exact ⟨[], List.forall_mem_nil _, by rw [hspace]; rfl⟩
      · split at h
        · rename_i hc
          obtain ⟨word, hword, rfl⟩ := ih h
          exact ⟨c :: word, List.forall_mem_cons.mpr ⟨hc, hword⟩, rfl⟩
        · cases h

/-- What a request begins with when no empty line stands before it. -/
def NoLineEnd (bs : Bytes) : Prop := ∃ c cs, bs = c :: cs ∧ c ≠ 13 ∧ c ≠ 10

theorem noLineEnd_word {word : Bytes} (hword : Word word) : NoLineEnd (word ++ 32 :: rest) := by
  cases word with
  | nil => exact ⟨32, rest, rfl, by decide, by decide⟩
  | cons c word =>
      have hc := hword c List.mem_cons_self
      refine ⟨c, _, rfl, ?_, ?_⟩
      · rintro rfl
        exact absurd hc (by decide)
      · rintro rfl
        exact absurd hc (by decide)

theorem skipEmptyLine_render (emptyLine : Option Bool) (hrest : NoLineEnd rest) :
    skipEmptyLine pos ((emptyLine.map lineEnd).getD [] ++ rest)
      = .ok (pos + ((emptyLine.map lineEnd).getD []).length, rest) := by
  cases emptyLine with
  | some cr => cases cr <;> rfl
  | none =>
      obtain ⟨c, cs, rfl, hcr, hlf⟩ := hrest
      show skipEmptyLine pos (c :: cs) = _
      rw [skipEmptyLine.eq_def]
      dsimp only
      rw [if_neg hcr, if_neg hlf]
      rfl

theorem emptyLine_of_ok (h : skipEmptyLine pos buf = .ok (pos', rest)) :
    ∃ emptyLine : Option Bool, buf = (emptyLine.map lineEnd).getD [] ++ rest := by
  cases buf with
  | nil => cases h
  | cons c bs =>
      rw [skipEmptyLine.eq_def] at h
      dsimp only at h
      split at h
      · rename_i hcr
        match bs, h with
        | c' :: bs, h =>
            dsimp only at h
            split at h
            · rename_i hlf
              cases h
              exact ⟨some true, by rw [hcr, hlf]; rfl⟩
            · cases h
      · split at h
        · rename_i hlf
          cases h
          exact ⟨some false, by rw [hlf]; rfl⟩
        · cases h
          exact ⟨none, rfl⟩

theorem endRequestLine_render (cr : Bool) :
    endRequestLine pos (lineEnd cr ++ rest) = .ok (pos + (lineEnd cr).length, rest) := by
  cases cr <;> rfl

theorem lineEnd_of_ok (h : endRequestLine pos buf = .ok (pos', rest)) :
    ∃ cr, buf = lineEnd cr ++ rest := by
  cases buf with
  | nil => cases h
  | cons c bs =>
      rw [endRequestLine.eq_def] at h
      dsimp only at h
      split at h
      · rename_i hcr
        match bs, h with
        | c' :: bs, h =>
            dsimp only at h
            split at h
            · rename_i hlf
              cases h
              exact ⟨true, by rw [hcr, hlf]; rfl⟩
            · cases h
      · split at h
        · rename_i hlf
          cases h
          exact ⟨false, by rw [hlf]; rfl⟩
        · cases h

theorem advanceToken_error {r : Int} (h : advanceToken start pos buf = .error r) : r < 0 := by
  induction buf generalizing pos with
  | nil =>
      cases h
      decide
  | cons c buf ih =>
      rw [advanceToken] at h
      split at h
      · cases h
      · split at h
        · exact ih h
        · cases h
          decide

theorem skipEmptyLine_error {r : Int} (h : skipEmptyLine pos buf = .error r) : r < 0 := by
  match buf, h with
  | [], h =>
      cases h
      decide
  | [c], h =>
      rw [skipEmptyLine.eq_def] at h
      dsimp only at h
      split at h
      · cases h
        decide
      · split at h <;> cases h
  | c :: c' :: bs, h =>
      rw [skipEmptyLine.eq_def] at h
      dsimp only at h
      split at h
      · split at h
        · cases h
        · cases h
          decide
      · split at h <;> cases h

theorem endRequestLine_error {r : Int} (h : endRequestLine pos buf = .error r) : r < 0 := by
  match buf, h with
  | [], h =>
      cases h
      decide
  | [c], h =>
      rw [endRequestLine.eq_def] at h
      dsimp only at h
      split at h
      · cases h
        decide
      · split at h
        · cases h
        · cases h
          decide
  | c :: c' :: bs, h =>
      rw [endRequestLine.eq_def] at h
      dsimp only at h
      split at h
      · split at h
        · cases h
        · cases h
          decide
      · split at h
        · cases h
        · cases h
          decide

theorem parseHttpVersion_error {r : Int} (h : parseHttpVersion buf = .error r) : r < 0 := by
  have hsteady := parseHttpVersion_steady buf []
  rw [h] at hsteady
  rcases hsteady.error_cases with ⟨rfl, -⟩ | rfl
  · decide
  · decide

theorem parseHeaders_error {left : Nat} {found headers : List PhrHeader} {r : Int}
    (h : parseHeaders left found pos buf = (headers, .error r)) : r < 0 := by
  have hstands : CoioTransducer.Stands (-1) (-2) (parseHeaders left found pos buf)
      (parseHeaders left found pos (buf ++ [])) := parseHeaders_stands buf []
  rw [h] at hstands
  rcases hstands.error_cases with ⟨rfl, -⟩ | rfl
  · decide
  · decide

end Scan

/-! ## The head -/

section Head

variable {maxHeaders start pos : Nat} {buf : Bytes}

/-- The answer to a head that stands at `pos`. -/
def RequestHead.answer (head : RequestHead) (start pos : Nat) : PhrRequest where
  ret := toInt (pos + head.render.length - start)
  method := ⟨pos + head.before.length, head.method.length⟩
  path := ⟨pos + head.before.length + head.method.length + 1, head.path.length⟩
  minorVersion := head.minor.toNat - 48
  headers := headersFrom (pos + head.line.length) head.lines

/-- A head that is rendered is read back, whatever follows it. -/
theorem parseRequest_render {head : RequestHead} (hroom : head.lines.length ≤ maxHeaders)
    (rest : Bytes) :
    parseRequest maxHeaders start pos (head.render ++ rest) = head.answer start pos := by
  obtain ⟨emptyLine, method, path, minor, lineCr, lines, cr, hmethod, hpath, hminor, hstarts⟩ := head
  generalize hhead : RequestHead.mk emptyLine method path minor lineCr lines cr hmethod hpath hminor
    hstarts = head
  have hsplit : head.render ++ rest
      = (emptyLine.map lineEnd).getD [] ++ (method ++ 32 :: (path ++ 32 ::
          (httpOne ++ minor :: (lineEnd lineCr ++ (renderLines lines ++ (lineEnd cr ++ rest)))))) := by
    rw [← hhead]
    simp only [RequestHead.render, RequestHead.line, RequestHead.before, List.append_assoc,
      List.cons_append]
  have hversion : parseHttpVersion (httpOne ++ minor ::
      (lineEnd lineCr ++ (renderLines lines ++ (lineEnd cr ++ rest))))
      = .ok (lineEnd lineCr ++ (renderLines lines ++ (lineEnd cr ++ rest))) := by
    cases lineCr
    · exact parseHttpVersion_render hminor
    · exact parseHttpVersion_render hminor
  have hline : pos + ((emptyLine.map lineEnd).getD []).length + method.length + 1 + path.length + 1
      + 8 + (lineEnd lineCr).length = pos + head.line.length := by
    rw [← hhead]
    simp only [RequestHead.line, RequestHead.before, httpOne, List.length_append, List.length_cons,
      List.length_nil]
    omega
  have hall : pos + head.line.length + (renderLines lines ++ lineEnd cr).length
      = pos + head.render.length := by
    rw [← hhead, Nat.add_assoc, ← List.length_append]
    rfl
  rw [hsplit, parseRequest, skipEmptyLine_render _ (noLineEnd_word hmethod)]
  dsimp only
  rw [advanceToken_render hmethod]
  dsimp only
  rw [advanceToken_render hpath]
  dsimp only
  rw [hversion]
  dsimp only
  rw [endRequestLine_render]
  dsimp only
  rw [hline, parseHeaders_render hroom (.inr hstarts), hall, Nat.add_sub_cancel_left,
    Nat.add_sub_cancel_left, ← hhead]
  rfl

/-- What is read to its end is a head. -/
theorem head_of_nonneg (h : 0 ≤ (parseRequest maxHeaders start pos buf).ret) :
    ∃ (head : RequestHead) (rest : Bytes), head.lines.length ≤ maxHeaders ∧
      buf = head.render ++ rest := by
  unfold parseRequest at h
  split at h
  · rename_i hskip
    exact absurd h (Int.not_le.mpr (skipEmptyLine_error hskip))
  rename_i pos₁ buf₁ hskip
  split at h
  · rename_i hmethod
    exact absurd h (Int.not_le.mpr (advanceToken_error hmethod))
  rename_i method pos₂ buf₂ hmethod
  split at h
  · rename_i hpath
    exact absurd h (Int.not_le.mpr (advanceToken_error hpath))
  rename_i path pos₃ buf₃ hpath
  split at h
  · rename_i hversion
    exact absurd h (Int.not_le.mpr (parseHttpVersion_error hversion))
  rename_i buf₄ hversion
  split at h
  · rename_i hend
    exact absurd h (Int.not_le.mpr (endRequestLine_error hend))
  rename_i pos₅ buf₅ hend
  split at h
  · rename_i hheaders
    exact absurd h (Int.not_le.mpr (parseHeaders_error hheaders))
  rename_i headers pos' hheaders
  obtain ⟨emptyLine, rfl⟩ := emptyLine_of_ok hskip
  obtain ⟨word, hword, rfl⟩ := word_of_ok hmethod
  obtain ⟨target, htarget, rfl⟩ := word_of_ok hpath
  obtain ⟨minor, hminor, -, rfl⟩ := version_of_ok hversion
  obtain ⟨lineCr, rfl⟩ := lineEnd_of_ok hend
  obtain ⟨lines, cr, rest, hroom, hstarts, rfl⟩ := lines_of_ok hheaders
  refine ⟨⟨emptyLine, word, target, minor, lineCr, lines, cr, hword, htarget, hminor,
    hstarts.resolve_left (absurd rfl)⟩, rest, hroom, ?_⟩
  simp only [RequestHead.render, RequestHead.line, RequestHead.before, List.append_assoc,
    List.cons_append]

end Head

/-! ## What is found -/

/-- The answer to `buf` is the one that `head` asks for. -/
structure ReadsRequest (buf : Bytes) (r : PhrRequest) (head : RequestHead) : Prop where
  ret_eq : r.ret = head.render.length
  method_eq : slice buf r.method = head.method
  path_eq : slice buf r.path = head.path
  minor_eq : r.minorVersion = head.minor.toNat - 48
  fields_eq : r.headers.map (fun h => (slice buf h.name, slice buf h.value))
    = head.lines.map HeaderLine.field

theorem readsRequest_answer (l rest : Bytes) (head : RequestHead)
    (hsmall : head.render.length < 2 ^ 31) :
    ReadsRequest (l ++ (head.render ++ rest)) (head.answer l.length l.length) head := by
  obtain ⟨emptyLine, method, path, minor, lineCr, lines, cr, hmethod, hpath, hminor, hstarts⟩ := head
  generalize hhead : RequestHead.mk emptyLine method path minor lineCr lines cr hmethod hpath hminor
    hstarts = head at hsmall ⊢
  constructor
  · rw [RequestHead.answer, Nat.add_sub_cancel_left, toInt_small hsmall]
  · have hsplit : l ++ (head.render ++ rest) = (l ++ head.before) ++ (method ++ (32 ::
        (path ++ 32 :: (httpOne ++ minor :: (lineEnd lineCr ++ (renderLines lines ++
          (lineEnd cr ++ rest))))))) := by
      rw [← hhead]
      simp only [RequestHead.render, RequestHead.line, List.append_assoc, List.cons_append]
    have hmethod : (head.answer l.length l.length).method
        = ⟨(l ++ head.before).length, method.length⟩ := by
      rw [List.length_append, ← hhead]
      rfl
    rw [hsplit, hmethod, slice_middle, ← hhead]
  · have hsplit : l ++ (head.render ++ rest) = (l ++ (head.before ++ (method ++ [32]))) ++
        (path ++ (32 :: (httpOne ++ minor :: (lineEnd lineCr ++ (renderLines lines ++
          (lineEnd cr ++ rest)))))) := by
      rw [← hhead]
      simp only [RequestHead.render, RequestHead.line, List.append_assoc, List.cons_append,
        List.nil_append]
    have hpath : (head.answer l.length l.length).path
        = ⟨(l ++ (head.before ++ (method ++ [32]))).length, path.length⟩ := by
      simp only [List.length_append, List.length_cons, List.length_nil, ← Nat.add_assoc, ← hhead]
      rfl
    rw [hsplit, hpath, slice_middle, ← hhead]
  · rfl
  · have hsplit : l ++ (head.render ++ rest)
        = (l ++ head.line) ++ (renderLines head.lines ++ (lineEnd head.cr ++ rest)) := by
      simp only [RequestHead.render, List.append_assoc]
    have hheaders : (head.answer l.length l.length).headers
        = headersFrom (l ++ head.line).length head.lines := by
      rw [List.length_append]
      rfl
    rw [hsplit, hheaders]
    exact slice_headersFrom _ _ _

theorem readsRequest_start {maxHeaders : Nat} {head : RequestHead}
    (hroom : head.lines.length ≤ maxHeaders) (hsmall : head.render.length < 2 ^ 31)
    (rest : Bytes) :
    ReadsRequest (head.render ++ rest) (phrParseRequest maxHeaders 0 (head.render ++ rest))
      head := by
  show ReadsRequest _ (parseRequest maxHeaders 0 0 (head.render ++ rest)) head
  rw [parseRequest_render hroom]
  exact readsRequest_answer [] rest head hsmall

/-- **REQUESTS**: what is accepted is exactly a head with room for its lines, and then the
    method, the target, the version and the fields are the ones that it was written with. -/
theorem request_heads_accepted (maxHeaders : Nat) (buf : Bytes) (hbuf : buf.length < 2 ^ 31) :
    (0 ≤ (phrParseRequest maxHeaders 0 buf).ret ↔
      ∃ (head : RequestHead) (rest : Bytes), head.lines.length ≤ maxHeaders ∧
        buf = head.render ++ rest) ∧
    ∀ (head : RequestHead) (rest : Bytes), head.lines.length ≤ maxHeaders →
      buf = head.render ++ rest → ReadsRequest buf (phrParseRequest maxHeaders 0 buf) head := by
  have hreads : ∀ (head : RequestHead) (rest : Bytes), head.lines.length ≤ maxHeaders →
      buf = head.render ++ rest → ReadsRequest buf (phrParseRequest maxHeaders 0 buf) head := by
    rintro head rest hroom rfl
    rw [List.length_append] at hbuf
    exact readsRequest_start hroom (by omega) rest
  refine ⟨⟨fun hret => head_of_nonneg hret, ?_⟩, hreads⟩
  rintro ⟨head, rest, hroom, hsplit⟩
  rw [(hreads head rest hroom hsplit).ret_eq]
  exact Int.natCast_nonneg _

/-- `"\nG / HTTP/1.1\r\nb:d\n\n"` -/
def shortRequest : RequestHead where
  emptyLine := some false
  method := [71]
  path := [47]
  minor := 49
  lineCr := true
  lines := [.named [98] [] [100] false (by decide) (List.all_eq_true.mp rfl) (List.forall_mem_nil _)
    (List.forall_mem_singleton.mpr (by decide)) (by rintro _ ⟨⟩; rfl)]
  cr := false
  method_word := List.all_eq_true.mp rfl
  path_word := List.all_eq_true.mp rfl
  minor_digit := by decide
  starts := by
    rintro _ ⟨⟩
    trivial

theorem request_heads_accepted_short :
    0 ≤ (phrParseRequest 1 0 shortRequest.render).ret ∧
      ReadsRequest shortRequest.render (phrParseRequest 1 0 shortRequest.render) shortRequest := by
  obtain ⟨haccepted, hreads⟩ := request_heads_accepted 1 shortRequest.render (by decide)
  have hsplit : shortRequest.render = shortRequest.render ++ [] := (List.append_nil _).symm
  exact ⟨haccepted.mpr ⟨shortRequest, [], by decide, hsplit⟩,
    hreads shortRequest [] (by decide) hsplit⟩

/-! ## A request behind others -/

/-- A head has no bare carriage return, and ends in a blank line. -/
theorem requestHead_ends (head : RequestHead) :
    NoBareCr head.render ∧ ∃ pre, pre ≠ [] ∧ head.render = pre ++ 10 :: lineEnd head.cr := by
  have hword : ∀ {bs : Bytes}, Word bs → 13 ∉ bs := fun hbs hmem =>
    absurd (hbs 13 hmem) (by decide)
  have hminor : 13 ≠ head.minor := by
    intro heq
    have hdigit := head.minor_digit
    rw [← heq] at hdigit
    exact absurd hdigit (by decide)
  have htext : 13 ∉ head.method ++ 32 :: (head.path ++ 32 :: (httpOne ++ [head.minor])) := by
    simp only [List.mem_append, List.mem_cons, List.not_mem_nil, or_false, not_or]
    exact ⟨hword head.method_word, by decide, hword head.path_word, by decide, by decide, hminor⟩
  have hbefore : NoBareCr head.before ∧ head.before.getLast? ≠ some 13 := by
    rw [RequestHead.before]
    cases head.emptyLine with
    | none => exact ⟨noBareCr_of_not_mem List.not_mem_nil, by simp⟩
    | some cr => exact ⟨noBareCr_lineEnd cr, by cases cr <;> decide⟩
  have hline : head.line = (head.before ++
      (head.method ++ 32 :: (head.path ++ 32 :: (httpOne ++ [head.minor])))) ++
        lineEnd head.lineCr := by
    simp only [RequestHead.line, List.append_assoc, List.cons_append, List.nil_append]
  have hclean : NoBareCr head.line := by
    rw [hline, List.append_assoc]
    exact hbefore.1.append hbefore.2 (noBareCr_line htext head.lineCr)
  obtain ⟨hlines, hlast⟩ := noBareCr_lines hclean (hline ▸ getLast?_lineEnd _ _) head.lines
  have hnot : (head.line ++ renderLines head.lines).getLast? ≠ some 13 := by
    rw [hlast]
    decide
  rw [RequestHead.render, ← List.append_assoc]
  refine ⟨hlines.append hnot (noBareCr_lineEnd head.cr), ?_⟩
  obtain ⟨pre, hpre⟩ := List.getLast?_eq_some_iff.mp hlast
  refine ⟨pre, ?_, ?_⟩
  · rintro rfl
    have hlength := congrArg List.length hpre
    simp only [RequestHead.line, httpOne, List.length_append, List.length_cons, List.length_nil]
      at hlength
    omega
  · rw [hpre, List.append_assoc]
    rfl

/-- A request is read at any position that has no bare carriage return just before it. -/
theorem phrParseRequest_at {maxHeaders : Nat} {head : RequestHead}
    (hroom : head.lines.length ≤ maxHeaders) {l : Bytes}
    (hl : NoBareCr (l.drop (l.length - 3) ++ head.render)) (rest : Bytes) :
    phrParseRequest maxHeaders l.length (l ++ (head.render ++ rest))
      = head.answer l.length l.length := by
  have hparsed : parseRequest maxHeaders l.length l.length ((l ++ (head.render ++ rest)).drop l.length)
      = head.answer l.length l.length := by
    rw [List.drop_left]
    exact parseRequest_render hroom rest
  unfold phrParseRequest
  split
  · obtain ⟨-, pre, -, hpre⟩ := requestHead_ends head
    have hlook : lookedAt l.length (l ++ (head.render ++ rest))
        = (l.drop (l.length - 3) ++ pre) ++ 10 :: (lineEnd head.cr ++ rest) := by
      rw [lookedAt, List.drop_append_of_le_length (Nat.sub_le _ _), hpre]
      simp only [List.append_assoc, List.cons_append]
    have hclean : NoBareCr ((l.drop (l.length - 3) ++ pre) ++ 10 :: lineEnd head.cr) := by
      rw [List.append_assoc, ← hpre]
      exact hl
    obtain ⟨r, hr⟩ := completeFrom_ok _ _ rest hclean (Nat.zero_le 1)
    rw [isComplete_eq, hlook, hr]
    exact hparsed
  · exact hparsed

def renderAll (heads : List RequestHead) : Bytes := heads.flatMap RequestHead.render

theorem noBareCr_renderAll (heads : List RequestHead) :
    NoBareCr (renderAll heads) ∧ (renderAll heads).getLast? ≠ some 13 := by
  induction heads with
  | nil => exact ⟨noBareCr_of_not_mem List.not_mem_nil, by simp [renderAll]⟩
  | cons head heads ih =>
      obtain ⟨hclean, pre, -, hpre⟩ := requestHead_ends head
      have hend : head.render.getLast? = some 10 := by
        rw [hpre, ← List.singleton_append, ← List.append_assoc]
        exact getLast?_lineEnd _ _
      rw [show renderAll (head :: heads) = head.render ++ renderAll heads from rfl]
      refine ⟨hclean.append (by rw [hend]; decide) ih.1, ?_⟩
      rw [List.getLast?_append]
      cases hlast : (renderAll heads).getLast? with
      | none => simp [hend]
      | some c => simpa [hlast] using ih.2

/-- **IN TURN**: behind any number of requests, the next one in the buffer is read, and its
    parts are found where they stand. -/
theorem requests_read_in_turn (maxHeaders : Nat) (done : List RequestHead) (head : RequestHead)
    (rest : Bytes) (hroom : head.lines.length ≤ maxHeaders) (hsmall : head.render.length < 2 ^ 31) :
    ReadsRequest (renderAll done ++ (head.render ++ rest))
      (phrParseRequest maxHeaders (renderAll done).length
        (renderAll done ++ (head.render ++ rest))) head := by
  obtain ⟨hdone, hend⟩ := noBareCr_renderAll done
  have hclean : NoBareCr (renderAll done ++ head.render) :=
    hdone.append hend (requestHead_ends head).1
  have hl : NoBareCr ((renderAll done).drop ((renderAll done).length - 3) ++ head.render) := by
    refine hclean.of_part (List.IsSuffix.isInfix ?_)
    rw [← List.drop_append_of_le_length (Nat.sub_le _ _)]
    exact List.drop_suffix _ _
  rw [phrParseRequest_at hroom hl]
  exact readsRequest_answer _ _ _ hsmall

theorem requests_read_in_turn_third :
    ReadsRequest (renderAll [shortRequest, shortRequest] ++ (shortRequest.render ++ [13]))
      (phrParseRequest 1 (renderAll [shortRequest, shortRequest]).length
        (renderAll [shortRequest, shortRequest] ++ (shortRequest.render ++ [13]))) shortRequest :=
  requests_read_in_turn 1 [shortRequest, shortRequest] shortRequest [13] (by decide) (by decide)

/-! ## What `build_msg` writes -/

/-- A URL and a header map of which all reaches the other end as it is. -/
structure Sendable (mHeaders : List (Bytes × Bytes)) (u : Url) : Prop where
  target : Word (sent u)
  host : Text u.host ∧ ∀ c ∈ u.host.head?, isBlank c = false
  headers : ∀ h ∈ mHeaders, h.1 ≠ [] ∧ (∀ c ∈ h.1, isToken c = true) ∧ Text h.2 ∧
    ∀ c ∈ h.2.head?, isBlank c = false

section Built

variable {mHeaders : List (Bytes × Bytes)} {u : Url} {method : HttpMethod} {body : Bytes}

/-- The lines of the header map. -/
theorem mapLines (hm : ∀ h ∈ mHeaders, h.1 ≠ [] ∧ (∀ c ∈ h.1, isToken c = true) ∧ Text h.2 ∧
    ∀ c ∈ h.2.head?, isBlank c = false) :
    ∃ lines : List HeaderLine, lines.length = mHeaders.length ∧
      renderLines lines = mHeaders.flatMap (fun h => h.1 ++ [58, 32] ++ h.2 ++ crlf) ∧
      lines.map HeaderLine.field = mHeaders := by
  induction mHeaders with
  | nil => exact ⟨[], rfl, rfl, rfl⟩
  | cons h mHeaders ih =>
      obtain ⟨⟨hsome, hname, hvalue, hstart⟩, hrest⟩ := List.forall_mem_cons.mp hm
      obtain ⟨lines, hlength, hrender, hfield⟩ := ih hrest
      refine ⟨.named h.1 [32] h.2 true hsome hname space_blank hvalue hstart :: lines, ?_, ?_, ?_⟩
      · rw [List.length_cons, List.length_cons, hlength]
      · rw [renderLines_cons, hrender, List.flatMap_cons]
        simp only [HeaderLine.render, lineEnd, crlf, List.append_assoc, List.cons_append,
          List.nil_append, if_true]
      · rw [List.map_cons, hfield]
        rfl

theorem digit_text {c : UInt8} (hc : isDigit c = true) : isCtl c = false ∧ isBlank c = false := by
  have hlow : 48 ≤ c.toNat := by
    rw [isDigit, Bool.and_eq_true, decide_eq_true_eq] at hc
    exact hc.1
  have hhigh : c.toNat ≤ 57 := by
    rw [isDigit, Bool.and_eq_true, decide_eq_true_eq, decide_eq_true_eq] at hc
    exact hc.2
  have hne : ∀ b : UInt8, b.toNat < 48 ∨ 57 < b.toNat → c ≠ b := by
    rintro b hb rfl
    omega
  have hlt : ¬ c < 32 := by
    rw [UInt8.lt_iff_toNat_lt]
    show ¬ c.toNat < 32
    omega
  constructor
  · simp [isCtl, hlt, hne 127 (.inr (by decide))]
  · simp [isBlank, hne 32 (.inl (by decide)), hne 9 (.inl (by decide))]

/-- The line that announces the body. -/
theorem lengthLine (n : Nat) :
    ∃ line : HeaderLine, line.render = lengthKey ++ decimal n ++ crlf ∧
      line.field = (lengthName, decimal n) := by
  obtain ⟨-, hdigits, -⟩ := decimal_spec n
  have htext : Text (decimal n) := fun c hc => (digit_text (hdigits c hc)).1
  have hstart : ∀ c ∈ (decimal n).head?, isBlank c = false := fun c hc =>
    (digit_text (hdigits c (List.mem_of_mem_head? hc))).2
  refine ⟨.named lengthName [32] (decimal n) true (by decide) (List.all_eq_true.mp rfl)
    space_blank htext hstart, ?_, rfl⟩
  simp [HeaderLine.render, lineEnd, lengthKey, lengthName, crlf]

/-- The message is a head and the body. -/
theorem built_head (hs : Sendable mHeaders u) (hbody : method ≠ .post → body = []) :
    ∃ head : RequestHead, buildMsg mHeaders u method body = head.render ++ body ∧
      head.method = toStr method ∧ head.path = sent u ∧ head.minor = 48 ∧
      head.lines.length ≤ mHeaders.length + 2 ∧
      head.lines.map HeaderLine.field = ((hostName, u.host) :: mHeaders)
        ++ (if method = .post then [(lengthName, decimal body.length)] else []) := by
  have hcond : (body ≠ [] ∨ method = .post) ↔ method = .post := by
    refine ⟨fun h => h.elim (fun hne => ?_) id, .inr⟩
    by_contra hpost
    exact hne (hbody hpost)
  obtain ⟨lines, hlength, hrender, hfield⟩ := mapLines hs.headers
  obtain ⟨announce, hannounce, hfield'⟩ := lengthLine body.length
  have hmethod : Word (toStr method) := by
    refine List.all_eq_true.mp ?_
    cases method <;> rfl
  have hhost : ∃ line : HeaderLine, line.Named ∧ line.render = hostName ++ 58 :: (u.host ++ crlf) ∧
      line.field = (hostName, u.host) :=
    ⟨.named hostName [] u.host true (by decide) (List.all_eq_true.mp rfl) (List.forall_mem_nil _)
      hs.host.1 hs.host.2, trivial, rfl, rfl⟩
  obtain ⟨host, hnamed, hhostRender, hhostField⟩ := hhost
  refine ⟨⟨none, toStr method, sent u, 48, true,
    host :: (lines ++ if method = .post then [announce] else []), true, hmethod, hs.target,
    by decide, ?_⟩, ?_, rfl, rfl, rfl, ?_, ?_⟩
  · rintro _ ⟨⟩
    exact hnamed
  · have hlines : renderLines (host :: (lines ++ if method = .post then [announce] else []))
        = hostName ++ 58 :: (u.host ++ crlf) ++ (mHeaders.flatMap (fun h => h.1 ++ [58, 32] ++ h.2 ++ crlf)
          ++ if method = .post then lengthKey ++ decimal body.length ++ crlf else []) := by
      rw [renderLines_cons, hhostRender, ← hrender, ← hannounce]
      split <;> simp [renderLines]
    rw [RequestHead.render, hlines, buildMsg_eq]
    simp [RequestHead.line, RequestHead.before, requestLine, afterLine, hcond, hostName, httpOne,
      lineEnd, crlf]
  · show (host :: (lines ++ _)).length ≤ _
    split <;> simp [hlength]
  · show (host :: (lines ++ _)).map HeaderLine.field = _
    rw [List.map_cons, List.map_append, hfield, hhostField]
    split <;> simp [hfield']

end Built

/-- `msg` was read as one request of that method, target and fields, with `body` behind it. -/
structure ReadBack (msg : Bytes) (r : PhrRequest) (method : HttpMethod) (target body : Bytes)
    (fields : List (Bytes × Bytes)) : Prop where
  ret_eq : r.ret + body.length = msg.length
  body_eq : msg.drop r.ret.toNat = body
  method_eq : slice msg r.method = toStr method
  target_eq : slice msg r.path = target
  minor_eq : r.minorVersion = 0
  fields_eq : r.headers.map (fun h => (slice msg h.name, slice msg h.value)) = fields

/-- **READ BACK**: what `build_msg` writes for a sendable URL and header map is read as one
    request, whose method, target and fields are the ones that were asked for, and behind
    which the body stands. -/
theorem request_read_back (adds : List (Bytes × Bytes)) (u : Url) (method : HttpMethod)
    (body : Bytes) (maxHeaders : Nat) (hs : Sendable (headerMap adds) u)
    (hbody : method ≠ .post → body = []) (hroom : (headerMap adds).length + 2 ≤ maxHeaders)
    (hsmall : (buildMsg (headerMap adds) u method body).length < 2 ^ 31) :
    ReadBack (buildMsg (headerMap adds) u method body)
      (phrParseRequest maxHeaders 0 (buildMsg (headerMap adds) u method body)) method (sent u) body
      (((hostName, u.host) :: headerMap adds)
        ++ (if method = .post then [(lengthName, decimal body.length)] else [])) := by
  obtain ⟨head, hmsg, hmethod, hpath, hminor, hlines, hfields⟩ := built_head hs hbody
  rw [hmsg] at hsmall ⊢
  rw [List.length_append] at hsmall
  have hreads := readsRequest_start (hlines.trans hroom) (by omega) body
  constructor
  · rw [hreads.ret_eq, List.length_append]
    rfl
  · rw [hreads.ret_eq]
    exact List.drop_left
  · exact hreads.method_eq.trans hmethod
  · exact hreads.path_eq.trans hpath
  · rw [hreads.minor_eq, hminor]
    rfl
  · exact hreads.fields_eq.trans hfields

/-- A `post` to `h://h/p?q` with one added header. -/
theorem request_read_back_post :
    ReadBack (buildMsg (headerMap [([98], [99])]) ⟨[104], [104], [47, 112], [113]⟩ .post [13, 10])
      (phrParseRequest 3 0
        (buildMsg (headerMap [([98], [99])]) ⟨[104], [104], [47, 112], [113]⟩ .post [13, 10]))
      .post [47, 112, 63, 113] [13, 10]
      [(hostName, [104]), ([98], [99]), (lengthName, [50])] := by
  have htarget : Word (sent ⟨[104], [104], [47, 112], [113]⟩) := List.all_eq_true.mp rfl
  have htext : ∀ c : UInt8, isCtl c = false → Text [c] := fun c hc =>
    List.forall_mem_singleton.mpr hc
  have hstart : ∀ c : UInt8, isBlank c = false → ∀ c' ∈ [c].head?, isBlank c' = false := by
    rintro c hc _ ⟨⟩
    exact hc
  have hheaders : ∀ h ∈ headerMap [([98], [99])], h.1 ≠ [] ∧ (∀ c ∈ h.1, isToken c = true) ∧
      Text h.2 ∧ ∀ c ∈ h.2.head?, isBlank c = false := by
    intro h hh
    cases List.mem_singleton.mp hh
    exact ⟨by decide, List.all_eq_true.mp rfl, htext 99 (by decide), hstart 99 (by decide)⟩
  exact request_read_back [([98], [99])] ⟨[104], [104], [47, 112], [113]⟩ .post [13, 10] 3
    ⟨htarget, ⟨htext 104 (by decide), hstart 104 (by decide)⟩, hheaders⟩ (absurd rfl) (by decide) (by decide)

end CoioHttpRequestParser
