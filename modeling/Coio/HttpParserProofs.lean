import Coio.StreamBufferProofs

/-! # `http_parser` — a response head, from bytes to fields

    `phr_parse_response` (picohttpparser) reads the status line and the header
    lines and reports how far it came: the length of the head, `-1` for a head
    that is malformed, `-2` for one that ends too early.  Whatever it returns, it
    has written the status, the message and the headers found so far through its
    pointers.  Names and values are parts of the string it was given.

    `parse_response` calls it, looks for `content-length` among the headers found
    and converts its value with `std::stoi`, which may throw.  It returns what the
    parser returned.  Results of later sections take the parser as a parameter;
    `picoParse` is the one that the code uses. -/

namespace CoioHttpParser

open CoioStreamBuffer

abbrev Bytes := List UInt8

/-- The exceptions that can leave the functions modelled here; all of them are
    `std::exception`s. -/
inductive Exn where
  /-- `make_system_error(code)` -/
  | systemError (code : Int)
  | invalidArgument
  | outOfRange
  | lengthError
  | logicError
  | runtimeError
  deriving DecidableEq

/-! ## `phr_parse_response` -/

/-- A part of the string that is parsed; a null pointer comes with length zero. -/
structure Span where
  off : Nat
  len : Nat
  deriving DecidableEq

/-- `phr_header`; the name of a continuing line is null. -/
structure PhrHeader where
  name : Span
  value : Span
  deriving DecidableEq

/-- The return value, and what is written through the pointers. -/
structure PhrResult where
  ret : Int
  status : Int
  msg : Span
  headers : List PhrHeader
  deriving DecidableEq

def isDigit (c : UInt8) : Bool := 48 ≤ c && c ≤ 57

/-- `token_char_map`. -/
def isToken (c : UInt8) : Bool :=
  isDigit c || (65 ≤ c && c ≤ 90) || (97 ≤ c && c ≤ 122) ||
    [33, 35, 36, 37, 38, 39, 42, 43, 45, 46, 94, 95, 96, 124, 126].contains c

/-- The bytes that end a token in `get_token_to_eol`: control characters other than
    a tab. -/
def isCtl (c : UInt8) : Bool := (c < 32 && c != 9) || c == 127

/-! A pointer into the buffer is its position and the bytes from there on; the error
    is the value of `*ret` when null is returned. -/

/-- `get_token_to_eol`, from the token that begins at `start`. -/
def getTokenToEol (start : Nat) : Nat → Bytes → Except Int (Span × Nat × Bytes)
  | _, [] => .error (-2)
  | pos, c :: rest =>
      if isCtl c then
        if c = 13 then
          match rest with
          | [] => .error (-2)
          | c' :: rest' =>
              if c' = 10 then .ok (⟨start, pos - start⟩, pos + 2, rest') else .error (-1)
        else if c = 10 then .ok (⟨start, pos - start⟩, pos + 1, rest)
        else .error (-1)
      else getTokenToEol start (pos + 1) rest

/-- The name of a header, up to its colon. -/
def scanName : Nat → Bytes → Except Int (Nat × Bytes)
  | _, [] => .error (-2)
  | pos, c :: rest =>
      if c = 58 then .ok (pos, rest)
      else if isToken c then scanName (pos + 1) rest
      else .error (-1)

def skipBlanks : Nat → Bytes → Except Int (Nat × Bytes)
  | _, [] => .error (-2)
  | pos, c :: rest =>
      if c = 32 ∨ c = 9 then skipBlanks (pos + 1) rest else .ok (pos, c :: rest)

/-- One header line; `continues` when it may continue the header before it. -/
def parseHeader (continues : Bool) (pos : Nat) (buf : Bytes) :
    Except Int (PhrHeader × Nat × Bytes) :=
  if continues && (buf.head? == some 32 || buf.head? == some 9) then do
    let (value, pos', rest') ← getTokenToEol pos pos buf
    .ok (⟨⟨0, 0⟩, value⟩, pos', rest')
  else do
    let (colon, rest) ← scanName pos buf
    if colon = pos then .error (-1)
    else
      let (start, rest) ← skipBlanks (colon + 1) rest
      let (value, pos', rest') ← getTokenToEol start start rest
      .ok (⟨⟨pos, colon - pos⟩, value⟩, pos', rest')

/-- `parse_headers`, with `left` entries of the array unused: the headers found, and
    the position behind the blank line. -/
def parseHeaders : Nat → List PhrHeader → Nat → Bytes → List PhrHeader × Except Int Nat
  | _, found, _, [] => (found, .error (-2))
  | left, found, pos, c :: rest =>
      if c = 13 then
        match rest with
        | [] => (found, .error (-2))
        | c' :: _ => if c' = 10 then (found, .ok (pos + 2)) else (found, .error (-1))
      else if c = 10 then (found, .ok (pos + 1))
      else
        match left with
        | 0 => (found, .error (-1))
        | left + 1 =>
            match parseHeader (!found.isEmpty) pos (c :: rest) with
            | .error r => (found, .error r)
            | .ok (h, pos', rest') => parseHeaders left (found ++ [h]) pos' rest'

/-- `"HTTP/1."`. -/
def httpOne : Bytes := [72, 84, 84, 80, 47, 49, 46]

/-- `parse_http_version`: the bytes behind the minor version. -/
def parseHttpVersion (buf : Bytes) : Except Int Bytes :=
  if buf.length < 9 then .error (-2)
  else if buf.take 7 ≠ httpOne then .error (-1)
  else if (buf.drop 7).head?.any isDigit then .ok (buf.drop 8)
  else .error (-1)

/-- `PARSE_INT_3`: the digits are added to the status one by one. -/
def parseInt3 (buf : Bytes) : Int × Except Int Bytes :=
  let digit (i : Nat) : Option Int := (buf[i]?.filter isDigit).map fun c => (c.toNat : Int) - 48
  match digit 0 with
  | none => (0, .error (-1))
  | some a =>
      match digit 1 with
      | none => (100 * a, .error (-1))
      | some b =>
          match digit 2 with
          | none => (100 * a + 10 * b, .error (-1))
          | some c => (100 * a + 10 * b + c, .ok (buf.drop 3))

/-- `phr_parse_response` with room for `maxHeaders` headers and `last_len` zero. -/
def phrParseResponse (maxHeaders : Nat) (buf : Bytes) : PhrResult :=
  let failed (r status : Int) : PhrResult := ⟨r, status, ⟨0, 0⟩, []⟩
  match parseHttpVersion buf with
  | .error r => failed r 0
  | .ok rest =>
      if rest.head? ≠ some 32 then failed (-1) 0
      else if (rest.drop 1).length < 4 then failed (-2) 0
      else
        match parseInt3 (rest.drop 1) with
        | (status, .error r) => failed r status
        | (status, .ok rest) =>
            if rest.head? ≠ some 32 then failed (-1) status
            else
              match getTokenToEol 13 13 (rest.drop 1) with
              | .error r => failed r status
              | .ok (msg, pos, rest) =>
                  match parseHeaders maxHeaders [] pos rest with
                  | (headers, .error r) => ⟨r, status, msg, headers⟩
                  | (headers, .ok pos') => ⟨toInt pos', status, msg, headers⟩

/-! ## `http_parser` -/

/-- A `string_view`: a part of the string `owner`. -/
structure View where
  owner : Nat
  span : Span
  deriving DecidableEq

structure HeaderView where
  name : View
  value : View
  deriving DecidableEq

/-- `http_parser`; `headers` are the first `headers_cnt` ones. -/
structure HttpParser where
  headers : List HeaderView
  bodyLen : Nat
  message : View
  status : Int
  deriving DecidableEq

def HttpParser.init : HttpParser :=
  { headers := [], bodyLen := 0, message := ⟨0, ⟨0, 0⟩⟩, status := 0 }

def numHeaders : Nat := 100

/-- The parser as `parse_response` calls it. -/
def picoParse : Bytes → PhrResult := phrParseResponse numHeaders

def slice (str : Bytes) (v : Span) : Bytes := (str.drop v.off).take v.len

def toLower (c : UInt8) : UInt8 := if 65 ≤ c ∧ c ≤ 90 then c + 32 else c

def isLowerEqual (a b : Bytes) : Bool := a.map toLower == b.map toLower

/-- `get_header_value`, on the headers of the string `str`; empty if there is none. -/
def getHeaderValue (str : Bytes) (headers : List PhrHeader) (key : Bytes) : Bytes :=
  match headers.find? fun h => isLowerEqual (slice str h.name) key with
  | some h => slice str h.value
  | none => []

/-- `"content-length"`. -/
def contentLength : Bytes := [99, 111, 110, 116, 101, 110, 116, 45, 108, 101, 110, 103, 116, 104]

def isSpace (c : UInt8) : Bool := c == 32 || (9 ≤ c && c ≤ 13)

/-- The number that decimal digits denote. -/
def digitsValue (ds : Bytes) : Nat := ds.foldl (fun n c => 10 * n + (c.toNat - 48)) 0

/-- The sign of a number, and what follows it. -/
def takeSign : Bytes → Bool × Bytes
  | 45 :: rest => (true, rest)
  | 43 :: rest => (false, rest)
  | rest => (false, rest)

/-- `std::stoi`. -/
def stoi (str : Bytes) : Except Exn Int :=
  let (negative, rest) := takeSign (str.dropWhile isSpace)
  let digits := rest.takeWhile isDigit
  if digits = [] then .error .invalidArgument
  else
    let n : Int := digitsValue digits
    let v := if negative then -n else n
    if v < -2147483648 ∨ 2147483647 < v then .error .outOfRange else .ok v

/-- An `int` as a `size_t`. -/
def intToSize (v : Int) : Nat := toSize v

/-- `parse_response` with the parser `phr`: what it returns or throws, and the fields
    it leaves; its argument is the string `owner`. -/
def parseResponse (phr : Bytes → PhrResult) (owner : Nat) (str : Bytes) (p : HttpParser) :
    Except Exn Int × HttpParser :=
  let r := phr str
  let found : HttpParser :=
    { p with
      headers := r.headers.map fun h => ⟨⟨owner, h.name⟩, ⟨owner, h.value⟩⟩
      message := ⟨owner, r.msg⟩
      status := r.status }
  let contentLen := getHeaderValue str r.headers contentLength
  if contentLen = [] then (.ok r.ret, found)
  else
    match stoi contentLen with
    | .error e => (.error e, found)
    | .ok v => (.ok r.ret, { found with bodyLen := intToSize v })

/-! ## The announced length -/

/-- The number that the first `content-length` of the head denotes, as `stoi` reads it. -/
def announced (phr : Bytes → PhrResult) (str : Bytes) : Except Exn Int :=
  if getHeaderValue str (phr str).headers contentLength = [] then .ok 0
  else stoi (getHeaderValue str (phr str).headers contentLength)

section Announced

variable {phr : Bytes → PhrResult} {owner : Nat} {str : Bytes} {p : HttpParser}

/-- What is returned is what the parser has returned. -/
theorem parseResponse_ret {len : Int} (h : (parseResponse phr owner str p).1 = .ok len) :
    len = (phr str).ret := by
  unfold parseResponse at h
  dsimp only at h
  split at h
  · exact (Except.ok.inj h).symm
  · split at h
    · exact nomatch h
    · exact (Except.ok.inj h).symm

theorem parseResponse_error {e : Exn} (h : announced phr str = .error e) :
    (parseResponse phr owner str p).1 = .error e := by
  unfold announced at h
  unfold parseResponse
  dsimp only
  split at h
  · exact nomatch h
  · rename_i hne
    rw [if_neg hne, h]

/-- A parser that has no length yet takes the announced one. -/
theorem parseResponse_ok {v : Int} (h : announced phr str = .ok v) (hp : p.bodyLen = 0) :
    (parseResponse phr owner str p).1 = .ok (phr str).ret ∧
      (parseResponse phr owner str p).2.bodyLen = intToSize v := by
  unfold announced at h
  unfold parseResponse
  dsimp only
  split at h
  · rename_i hnil
    rw [if_pos hnil, ← Except.ok.inj h]
    exact ⟨rfl, hp⟩
  · rename_i hne
    rw [if_neg hne, h]
    exact ⟨rfl, rfl⟩

/-- `stoi` gives an `int`. -/
theorem stoi_range {v : Int} (h : stoi str = .ok v) : -2147483648 ≤ v ∧ v ≤ 2147483647 := by
  unfold stoi at h
  dsimp only at h
  split at h
  · exact nomatch h
  · generalize (if (takeSign (str.dropWhile isSpace)).1 = true then _ else _ : Int) = v' at h
    split at h
    · exact nomatch h
    · rename_i hrange
      rw [← Except.ok.inj h]
      omega

theorem announced_range {v : Int} (h : announced phr str = .ok v) :
    -2147483648 ≤ v ∧ v ≤ 2147483647 := by
  unfold announced at h
  split at h
  · rw [← Except.ok.inj h]
    decide
  · exact stoi_range h

theorem intToSize_of_nonneg {v : Int} (hv : 0 ≤ v) (hle : v ≤ 2147483647) :
    intToSize v = v.toNat := by
  unfold intToSize toSize
  omega

/-- A negative length becomes a very large one. -/
theorem intToSize_of_neg {v : Int} (hv : v < 0) (hle : -2147483648 ≤ v) :
    2 ^ 64 - 2 ^ 31 ≤ intToSize v := by
  unfold intToSize toSize
  omega

end Announced

end CoioHttpParser
