import Coio.HttpRequestProofs

/-! # `http_header` — the headers of a response

    `parse_response` finds the headers of a head and keeps them as views: two
    pointers into the string it was given.  That string is the local `head` of
    `read_headers`.  The coroutine ends, the string with it, and only then does
    `request` copy the names and the values into the `http_header` of the response.

    So nothing of what is copied can be read any more, however long the head was and
    however many headers it had.  The one copy that does no harm is that of an empty
    view, which reads nothing; and no header that `phr_parse_response` finds is empty. -/

namespace CoioHttpHeader

open CoioHttpParser CoioHttpRead CoioHttpMessage CoioHttpClient CoioHttpRequest CoioProg

/-! ## The class -/

/-- `http_header`: the copied strings; `none` is one that was copied from a string that
    is gone. -/
abbrev HttpHeader := List (Option Bytes × Option Bytes)

/-- `http_header::get_header_value`; the outer `none` is the error of reading a string
    that was never there, the inner one is `nullopt`. -/
def HttpHeader.getHeaderValue : HttpHeader → Bytes → Option (Option Bytes)
  | [], _ => some none
  | (none, _) :: _, _ => none
  | (some k, v) :: rest, key =>
      if isLowerEqual k key then v.map some else HttpHeader.getHeaderValue rest key

/-- The headers of a head, each with its name and its value, in order. -/
def fields (phr : Bytes → PhrResult) (head : Bytes) : List (Bytes × Bytes) :=
  (phr head).headers.map fun h => (slice head h.name, slice head h.value)

/-- The value of the first field that has the name `key`, up to case. -/
def firstValue (fs : List (Bytes × Bytes)) (key : Bytes) : Option Bytes :=
  (fs.find? fun f => isLowerEqual f.1 key).map Prod.snd

/-- The `http_header` that holds the fields. -/
def copied (fs : List (Bytes × Bytes)) : HttpHeader := fs.map fun f => (some f.1, some f.2)

/-- What is asked of the headers of a response, where those of its head are `fs`. -/
structure HeadersReturned (fs : List (Bytes × Bytes)) (header : HttpHeader) : Prop where
  /-- they are the received ones, in order -/
  same : header = copied fs
  /-- a name is looked up among the received ones -/
  found : ∀ key, header.getHeaderValue key = some (firstValue fs key)
  /-- nothing has been read of a string that is gone -/
  alive : ∀ f ∈ header, f.1 ≠ none ∧ f.2 ≠ none

theorem getHeaderValue_copied (fs : List (Bytes × Bytes)) (key : Bytes) :
    (copied fs).getHeaderValue key = some (firstValue fs key) := by
  induction fs with
  | nil => rfl
  | cons f fs ih =>
      show (if isLowerEqual f.1 key then some (some f.2) else (copied fs).getHeaderValue key) = _
      unfold firstValue
      rw [List.find?_cons]
      cases hkey : isLowerEqual f.1 key with
      | true => rfl
      | false => exact ih

/-- All that is asked follows from the first part. -/
theorem headersReturned_iff_eq {fs : List (Bytes × Bytes)} {header : HttpHeader} :
    HeadersReturned fs header ↔ header = copied fs := by
  refine ⟨HeadersReturned.same, ?_⟩
  rintro rfl
  refine ⟨rfl, getHeaderValue_copied fs, fun f hf => ?_⟩
  obtain ⟨f', -, rfl⟩ := List.mem_map.mp hf
  exact ⟨Option.some_ne_none _, Option.some_ne_none _⟩

/-! ## Views that outlive their string -/

section Views

variable {phr : Bytes → PhrResult} {head : Bytes}

/-- What is copied through a view when its string is gone. -/
def leftOver (v : Span) : Option Bytes := if v.len = 0 then some [] else none

/-- Only an empty view is copied as it should be. -/
theorem leftOver_eq_slice_iff (head : Bytes) (v : Span) :
    leftOver v = some (slice head v) ↔ v.len = 0 := by
  unfold leftOver
  split
  · rename_i hzero
    unfold slice
    rw [hzero, List.take_zero]
    exact iff_of_true rfl rfl
  · rename_i hpos
    exact iff_of_false (Option.some_ne_none _).symm hpos

theorem parseResponse_headers (phr : Bytes → PhrResult) (owner : Nat) (str : Bytes)
    (p : HttpParser) :
    (parseResponse phr owner str p).2.headers
      = (phr str).headers.map fun h => ⟨⟨owner, h.name⟩, ⟨owner, h.value⟩⟩ := by
  unfold parseResponse
  dsimp only
  split
  · rfl
  · split <;> rfl

/-- The string of `read_headers` is the last one, and it is gone. -/
theorem readView_parsed (phr : Bytes → PhrResult) (head : Bytes) (w : World) (v : Span) :
    readView (parsed phr head w).strings ⟨w.strings.length, v⟩ = leftOver v := by
  have hgone : (parsed phr head w).strings[w.strings.length]? = some none :=
    List.getElem?_concat_length
  unfold readView leftOver
  split
  · rfl
  · rw [hgone]
    rfl

/-- What `request` copies behind the head. -/
theorem startResponse_header (phr : Bytes → PhrResult) (head : Bytes) (w : World) :
    (startResponse (parsed phr head w)).header
      = (phr head).headers.map fun h => (leftOver h.name, leftOver h.value) := by
  show (parseResponse phr w.strings.length head w.client.mParser).2.headers.map _ = _
  rw [parseResponse_headers, List.map_map]
  refine List.map_congr_left fun h _ => ?_
  exact Prod.ext (readView_parsed phr head w h.name) (readView_parsed phr head w h.value)

/-- The copies are right where there was nothing to copy. -/
theorem leftOver_copied_iff (phr : Bytes → PhrResult) (head : Bytes) :
    ((phr head).headers.map fun h => (leftOver h.name, leftOver h.value))
        = copied (fields phr head) ↔
      ∀ h ∈ (phr head).headers, h.name.len = 0 ∧ h.value.len = 0 := by
  unfold copied fields
  rw [List.map_map, List.map_inj_left]
  refine forall₂_congr fun h _ => ?_
  show (leftOver h.name, leftOver h.value)
      = (some (slice head h.name), some (slice head h.value)) ↔ _
  rw [Prod.mk.injEq, leftOver_eq_slice_iff, leftOver_eq_slice_iff]

end Views

/-! ## Headers as they are found -/

/-- A header that has something to copy. -/
def NonEmpty (h : PhrHeader) : Prop := h.name.len ≠ 0 ∨ h.value.len ≠ 0

/-- A token reaches at least to where it has been scanned. -/
theorem getTokenToEol_len {start pos pos' : Nat} {buf rest : Bytes} {v : Span}
    (h : getTokenToEol start pos buf = .ok (v, pos', rest)) : pos - start ≤ v.len := by
  induction buf generalizing pos with
  | nil => cases h
  | cons c buf ih =>
      unfold getTokenToEol at h
      split at h
      · split at h
        · split at h
          · cases h
          · split at h
            · cases h
              exact Nat.le_refl _
            · cases h
        · split at h
          · cases h
            exact Nat.le_refl _
          · cases h
      · have := ih h
        omega

/-- The blank that begins a line is part of its token. -/
theorem getTokenToEol_blank {pos pos' : Nat} {buf rest : Bytes} {v : Span}
    (hblank : buf.head? = some 32 ∨ buf.head? = some 9)
    (h : getTokenToEol pos pos buf = .ok (v, pos', rest)) : v.len ≠ 0 := by
  cases buf with
  | nil => cases h
  | cons c buf =>
      have hctl : isCtl c = false := by
        rcases hblank with hc | hc <;> rw [Option.some.inj hc] <;> rfl
      unfold getTokenToEol at h
      rw [if_neg (by simp [hctl])] at h
      have hlen := getTokenToEol_len h
      omega

theorem scanName_le {pos colon : Nat} {buf rest : Bytes}
    (h : scanName pos buf = .ok (colon, rest)) : pos ≤ colon := by
  induction buf generalizing pos with
  | nil => cases h
  | cons c buf ih =>
      unfold scanName at h
      split at h
      · cases h
        exact Nat.le_refl _
      · split at h
        · have hle := ih h
          omega
        · cases h

/-- A parser that succeeds has succeeded in its first part. -/
theorem exists_of_bind_ok {ε α β : Type} {x : Except ε α} {f : α → Except ε β} {b : β}
    (h : x >>= f = .ok b) : ∃ a, x = .ok a ∧ f a = .ok b := by
  cases x with
  | error e => cases h
  | ok a => exact ⟨a, rfl, h⟩

/-- A line that continues has a value, as its blank is part of it; every other line
    has a name. -/
theorem parseHeader_nonEmpty {continues : Bool} {pos pos' : Nat} {buf rest : Bytes}
    {h : PhrHeader} (hparse : parseHeader continues pos buf = .ok (h, pos', rest)) :
    NonEmpty h := by
  unfold parseHeader at hparse
  split at hparse
  · rename_i hcont
    have hblank : buf.head? = some 32 ∨ buf.head? = some 9 := by
      simpa using (Bool.and_eq_true_iff.mp hcont).2
    obtain ⟨t, htoken, hok⟩ := exists_of_bind_ok hparse
    cases hok
    exact .inr (getTokenToEol_blank hblank htoken)
  · obtain ⟨t, hname, hrest⟩ := exists_of_bind_ok hparse
    have hle := scanName_le hname
    dsimp only at hrest
    split at hrest
    · cases hrest
    · rename_i hne
      obtain ⟨t', -, hrest⟩ := exists_of_bind_ok hrest
      obtain ⟨t'', -, hok⟩ := exists_of_bind_ok hrest
      cases hok
      refine .inl ?_
      show t.1 - pos ≠ 0
      omega

/-- Every header that is found has something to copy. -/
theorem parseHeaders_nonEmpty {left pos : Nat} {found : List PhrHeader} {buf : Bytes}
    (hfound : ∀ h ∈ found, NonEmpty h) : ∀ h ∈ (parseHeaders left found pos buf).1, NonEmpty h := by
  fun_induction parseHeaders left found pos buf with
  -- the last case is the line that is taken into the list
  | case8 found pos c rest _ _ left h pos' rest' hparse ih =>
      refine ih fun h' hh' => ?_
      rcases List.mem_append.mp hh' with hold | hnew
      · exact hfound h' hold
      · rw [List.mem_singleton.mp hnew]
        exact parseHeader_nonEmpty hparse
  | _ => exact hfound

theorem picoParse_nonEmpty (head : Bytes) : ∀ h ∈ (picoParse head).headers, NonEmpty h := by
  have hall : ∀ left pos buf, ∀ h ∈ (parseHeaders left [] pos buf).1, NonEmpty h :=
    fun _ _ _ => parseHeaders_nonEmpty fun _ hh => absurd hh List.not_mem_nil
  have hnone : ∀ h ∈ ([] : List PhrHeader), NonEmpty h := fun _ hh => absurd hh List.not_mem_nil
  unfold picoParse phrParseResponse
  dsimp only
  split
  · exact hnone
  split
  · exact hnone
  split
  · exact hnone
  split
  · exact hnone
  split
  · exact hnone
  split
  · exact hnone
  split
  all_goals
    rename_i pos rest _ _ _ _ hheaders
    intro h hh
    exact hall numHeaders pos rest h (hheaders ▸ hh)

/-! ## Through the request -/

section Request

variable {phr : Bytes → PhrResult} {head : Bytes} {r : HttpResponse}

/-- Reading the body leaves the headers of the response. -/
theorem readResponse_header (response : HttpResponse) (w : World) :
    Ends (readResponse response) w fun o _ =>
      ∀ r, o = .value (.ok r) → r.header = response.header := by
  unfold readResponse
  split
  · refine ends_pure fun r hr => ?_
    rw [← Except.ok.inj (Outcome.value.inj hr)]
  · refine ends_bind (Q := fun _ _ => True) trivial ?_ ?_ ?_
    · intro rsp w' _
      refine ends_pure fun r hr => ?_
      rw [← Except.ok.inj (Outcome.value.inj hr)]
    · exact fun e w' _ r hr => nomatch hr
    · exact fun w' _ r hr => nomatch hr

/-- A response is made only of a head that was accepted. -/
theorem receive_header {w w₁ : World} (hhead : readUntil dcrlf w = (.value head, w₁))
    (hr : (receive phr w).1 = .value (.ok r)) :
    r.header = (startResponse (parsed phr head w₁)).header := by
  have hrefused : ∀ {w'}, readHeaders phr w = (.value false, w') → False := fun h => by
    rw [receive_false h] at hr
    exact nomatch Outcome.value.inj hr
  by_cases hs : dcrlf <:+ head
  · have hparsed : readHeaders phr w = _ := readHeaders_parsed hhead hs
    cases hparse : (parseResponse phr w₁.strings.length head w₁.client.mParser).1 with
    | error e =>
        rw [hparse] at hparsed
        have hthrown : receive phr w = (.thrown e, parsed phr head w₁) := bind_thrown hparsed
        rw [hthrown] at hr
        exact nomatch hr
    | ok len =>
        rw [hparse] at hparsed
        by_cases hlen : len = 0
        · have hfalse : readHeaders phr w = (.value false, parsed phr head w₁) := by
            rw [hparsed, hlen]
            rfl
          exact (hrefused hfalse).elim
        · have htrue : readHeaders phr w = (.value true, parsed phr head w₁) := by
            rw [hparsed]
            exact congrArg (fun b => (Outcome.value b, _)) (decide_eq_true hlen)
          rw [receive_true htrue] at hr
          exact readResponse_header _ _ r hr
  · exact (hrefused (readHeaders_short hhead hs)).elim

/-- The headers of a response, in terms of those of its head. -/
theorem request_header {req : Req} {u : Url} {n : Nat} {w w₀ w₁ w₂ : World}
    (hconn : establish req.method req.url req.body w = (.value (.ok u), w₀))
    (hsend : send (buildMsg w₀.client.mHeaders u req.method req.body) w₀ = (.value n, w₁))
    (hhead : readUntil dcrlf w₁ = (.value head, w₂))
    (hr : (request phr req.method req.url req.body w).1 = .value (.ok r)) :
    r.header = (phr head).headers.map fun h => (leftOver h.name, leftOver h.value) := by
  rw [request_receives hconn hsend] at hr
  rw [receive_header hhead hr, startResponse_header]

end Request

/-- **RETURNED HEADERS**: whatever the head that is read, the headers of the response
    are those of the head exactly if each of them has an empty name and an empty value.
    All others are copied when the string they point into is gone. -/
theorem headers_returned_iff (phr : Bytes → PhrResult) (req : Req) (u : Url) (n : Nat)
    (head : Bytes) (r : HttpResponse) (w w₀ w₁ w₂ : World)
    (hconn : establish req.method req.url req.body w = (.value (.ok u), w₀))
    (hsend : send (buildMsg w₀.client.mHeaders u req.method req.body) w₀ = (.value n, w₁))
    (hhead : readUntil dcrlf w₁ = (.value head, w₂))
    (hr : (request phr req.method req.url req.body w).1 = .value (.ok r)) :
    HeadersReturned (fields phr head) r.header ↔
      ∀ h ∈ (phr head).headers, h.name.len = 0 ∧ h.value.len = 0 := by
  rw [headersReturned_iff_eq, request_header hconn hsend hhead hr]
  exact leftOver_copied_iff phr head

/-- `"HTTP/1.1 200 OK\r\n\r\n"`. -/
def noFields : Bytes :=
  [72, 84, 84, 80, 47, 49, 46, 49, 32, 50, 48, 48, 32, 79, 75, 13, 10, 13, 10]

/-- The theorem at a head without headers and at one with a header. -/
theorem headers_returned_iff_noFields :
    HeadersReturned (fields picoParse noFields) [] ∧
      ¬ HeadersReturned (fields picoParse fiveAnnounced) [(none, none)] := by
  have hnone := headers_returned_iff picoParse getRoot ⟨http, [97], [47], []⟩ 26 noFields
    ⟨[], [], 0, 200⟩ ((Session.new 3).meets (replies noFields)) _ _ _
    (Prod.ext (by decide +kernel) rfl) (Prod.ext (by decide +kernel) rfl)
    (Prod.ext (by decide +kernel) rfl) (by decide +kernel)
  have hone := headers_returned_iff picoParse getRoot ⟨http, [97], [47], []⟩ 26 fiveAnnounced
    ⟨[(none, none)], [], 5, 200⟩ ((Session.new 3).meets (replies fiveAnnounced)) _ _ _
    (Prod.ext (by decide +kernel) rfl) (Prod.ext (by decide +kernel) rfl)
    (Prod.ext (by decide +kernel) rfl) (by decide +kernel)
  refine ⟨hnone.mpr (by decide), fun hreturned => ?_⟩
  exact absurd (hone.mp hreturned) (by decide)

/-- One header is received, and a response returned whose header cannot be read. -/
theorem copied_too_late :
    fields picoParse fiveAnnounced
        = [([67, 111, 110, 116, 101, 110, 116, 45, 76, 101, 110, 103, 116, 104], [53])] ∧
      ∃ r, ((Session.new 3).run picoParse getRoot
          (replies (fiveAnnounced ++ [97, 98, 99, 100, 101]))).1 = .value (.ok r) ∧
        r.header = [(none, none)] ∧ HttpHeader.getHeaderValue r.header contentLength = none :=
  ⟨by decide, ⟨[(none, none)], [97, 98, 99, 100, 101], 5, 200⟩, by decide +kernel, rfl, rfl⟩

/-- With the parser of the source, the headers are right exactly if there are none. -/
theorem pico_returned_iff {req : Req} {u : Url} {n : Nat} {head : Bytes} {r : HttpResponse}
    {w w₀ w₁ w₂ : World}
    (hconn : establish req.method req.url req.body w = (.value (.ok u), w₀))
    (hsend : send (buildMsg w₀.client.mHeaders u req.method req.body) w₀ = (.value n, w₁))
    (hhead : readUntil dcrlf w₁ = (.value head, w₂))
    (hr : (request picoParse req.method req.url req.body w).1 = .value (.ok r)) :
    HeadersReturned (fields picoParse head) r.header ↔ fields picoParse head = [] := by
  rw [headersReturned_iff_eq, request_header hconn hsend hhead hr, leftOver_copied_iff]
  constructor
  · intro hempty
    refine List.map_eq_nil_iff.mpr (List.eq_nil_iff_forall_not_mem.mpr fun h hh => ?_)
    obtain ⟨hname, hvalue⟩ := hempty h hh
    rcases picoParse_nonEmpty head h hh with hne | hne
    · exact hne hname
    · exact hne hvalue
  · intro hnil h hh
    rw [List.map_eq_nil_iff.mp hnil] at hh
    exact absurd hh List.not_mem_nil

end CoioHttpHeader
