import Coio.HttpParserProofs
import Mathlib.Data.List.TakeWhile

/-! # What `parse_response` makes of a head, and what it remembers

    The length of the body is the value of the first `content-length`, converted by
    `std::stoi`.  That reads more than numbers: blanks and a sign in front, anything
    behind the digits.  It reads less than a `size_t` holds, and throws at the rest.
    And an empty value is not converted at all.

    Of the fields of a parser all but `body_len` are written by every call.  A head
    without a length leaves the one of an earlier head in place. -/

namespace CoioHttpHead

open CoioStreamBuffer CoioHttpParser

/-! ## Reading the length -/

/-- The value of the first `content-length`, if there is one. -/
def lengthField (phr : Bytes → PhrResult) (str : Bytes) : Option Bytes :=
  ((phr str).headers.find? fun h => isLowerEqual (slice str h.name) contentLength).map
    fun h => slice str h.value

/-- Decimal digits, and at least one. -/
def Number (v : Bytes) : Prop := v ≠ [] ∧ ∀ c ∈ v, isDigit c = true

instance (v : Bytes) : Decidable (Number v) :=
  decidable_of_iff (v.isEmpty = false ∧ v.all isDigit = true)
    (and_congr List.isEmpty_eq_false_iff List.all_eq_true)

section Length

variable {phr : Bytes → PhrResult} {owner : Nat} {str v : Bytes} {p : HttpParser}

theorem getHeaderValue_eq (phr : Bytes → PhrResult) (str : Bytes) :
    getHeaderValue str (phr str).headers contentLength = (lengthField phr str).getD [] := by
  unfold getHeaderValue lengthField
  cases (phr str).headers.find? fun h => isLowerEqual (slice str h.name) contentLength <;> rfl

/-- A digit is neither a blank nor a sign. -/
theorem not_isSpace_of_isDigit {c : UInt8} (hc : isDigit c = true) :
    isSpace c = false ∧ c ≠ 45 ∧ c ≠ 43 := by
  simp only [isDigit, isSpace, Bool.and_eq_true, Bool.or_eq_false_iff, Bool.and_eq_false_iff,
    decide_eq_true_eq, decide_eq_false_iff_not, beq_eq_false_iff_ne, ne_eq,
    UInt8.le_iff_toNat_le, ← UInt8.toNat_inj] at hc ⊢
  simp only [UInt8.reduceToNat] at hc ⊢
  omega

/-- **STOI** of a number: the number, as far as an `int` goes. -/
theorem stoi_number (hv : Number v) :
    stoi v = if 2147483647 < (digitsValue v : Int) then .error .outOfRange
      else .ok (digitsValue v) := by
  obtain ⟨hne, hdigits⟩ := hv
  have hdrop : v.dropWhile isSpace = v := by
    cases v with
    | nil => rfl
    | cons c v =>
        rw [List.dropWhile_cons_of_neg]
        rw [(not_isSpace_of_isDigit (hdigits c List.mem_cons_self)).1]
        exact Bool.false_ne_true
  have hsign : takeSign v = (false, v) := by
    cases v with
    | nil => rfl
    | cons c v =>
        obtain ⟨-, hminus, hplus⟩ := not_isSpace_of_isDigit (hdigits c List.mem_cons_self)
        unfold takeSign
        split
        · rename_i heq
          exact absurd (List.cons.inj heq).1 hminus
        · rename_i heq
          exact absurd (List.cons.inj heq).1 hplus
        · rfl
  have htake : v.takeWhile isDigit = v := List.takeWhile_eq_self_iff.mpr hdigits
  unfold stoi
  simp only [hdrop, hsign, htake, hne, if_false, Bool.false_eq_true]
  have hlow : ¬ (digitsValue v : Int) < -2147483648 := by omega
  simp only [hlow, false_or]

theorem parseResponse_none (owner : Nat) (p : HttpParser) (h : lengthField phr str = none) :
    (parseResponse phr owner str p).1 = .ok (phr str).ret ∧
      (parseResponse phr owner str p).2.bodyLen = p.bodyLen := by
  unfold parseResponse
  dsimp only
  rw [getHeaderValue_eq, h]
  exact ⟨rfl, rfl⟩

theorem parseResponse_number (owner : Nat) (p : HttpParser) (h : lengthField phr str = some v)
    (hv : Number v) (hlt : digitsValue v < 2 ^ 31) :
    (parseResponse phr owner str p).1 = .ok (phr str).ret ∧
      (parseResponse phr owner str p).2.bodyLen = digitsValue v := by
  have hstoi : stoi v = .ok (digitsValue v : Int) := by
    rw [stoi_number hv, if_neg (by omega)]
  have hsize : intToSize (digitsValue v) = digitsValue v := by
    rw [intToSize_of_nonneg (by omega) (by omega)]
    rfl
  unfold parseResponse
  dsimp only
  rw [getHeaderValue_eq, h, Option.getD_some, if_neg hv.1, hstoi]
  exact ⟨rfl, hsize⟩

theorem parseResponse_too_large (h : lengthField phr str = some v) (hv : Number v)
    (hle : 2 ^ 31 ≤ digitsValue v) :
    (parseResponse phr owner str p).1 = .error .outOfRange := by
  have hstoi : stoi v = .error .outOfRange := by
    rw [stoi_number hv, if_pos (by omega)]
  unfold parseResponse
  dsimp only
  rw [getHeaderValue_eq, h, Option.getD_some, if_neg hv.1, hstoi]

end Length

/-- A number that fits is read; anything else is refused with a negative result; nothing is
    thrown, and the length is never set to what the field does not denote. -/
structure ReadOrRefused (phr : Bytes → PhrResult) (owner : Nat) (str : Bytes) (p : HttpParser) :
    Prop where
  read : ∀ v, lengthField phr str = some v → Number v → digitsValue v < 2 ^ 64 →
    (parseResponse phr owner str p).2.bodyLen = digitsValue v
  refused : ∀ v, lengthField phr str = some v → ¬ (Number v ∧ digitsValue v < 2 ^ 64) →
    ∃ r < 0, (parseResponse phr owner str p).1 = .ok r
  returns : ∃ r, (parseResponse phr owner str p).1 = .ok r
  denoted : (parseResponse phr owner str p).2.bodyLen = p.bodyLen ∨
    ∃ v, lengthField phr str = some v ∧ Number v ∧
      (parseResponse phr owner str p).2.bodyLen = digitsValue v

/-- **CONTENT-LENGTH**: for a head that is accepted, the length is read exactly or refused IF
    AND ONLY IF there is none, or it is a number that fits into an `int`. -/
theorem content_length_read_or_refused_iff (phr : Bytes → PhrResult) (owner : Nat) (str : Bytes)
    (p : HttpParser) (hacc : 0 ≤ (phr str).ret) :
    ReadOrRefused phr owner str p ↔
      ∀ v, lengthField phr str = some v → Number v ∧ digitsValue v < 2 ^ 31 := by
  constructor
  · intro h v hv
    by_cases hfits : Number v ∧ digitsValue v < 2 ^ 64
    · -- `stoi` throws at a number that does not fit into an `int`
      refine ⟨hfits.1, Nat.lt_of_not_le fun hle => ?_⟩
      obtain ⟨r, hr⟩ := h.returns
      rw [parseResponse_too_large hv hfits.1 hle] at hr
      cases hr
    · -- nothing but the parse of the head makes the result negative, and that succeeded
      obtain ⟨r, hneg, hr⟩ := h.refused v hv hfits
      have hret := parseResponse_ret hr
      omega
  · intro hsmall
    cases hv : lengthField phr str with
    | none =>
        obtain ⟨hret, hlen⟩ := parseResponse_none owner p hv
        refine ⟨fun v hv' => ?_, fun v hv' => ?_, ⟨_, hret⟩, .inl hlen⟩
        all_goals
          rw [hv] at hv'
          cases hv'
    | some v =>
        obtain ⟨hnum, hlt⟩ := hsmall v hv
        obtain ⟨hret, hlen⟩ := parseResponse_number owner p hv hnum hlt
        refine ⟨fun v' hv' _ _ => ?_, fun v' hv' hbad => ?_, ⟨_, hret⟩, .inr ⟨v, hv, hnum, hlen⟩⟩
        all_goals obtain rfl : v = v' := Option.some.inj (hv.symm.trans hv')
        · exact hlen
        · exact absurd ⟨hnum, by omega⟩ hbad

/-- `"HTTP/1.0 200 OK\r\nContent-Length: "`, a value and a blank line. -/
def headWith (v : Bytes) : Bytes :=
  [72, 84, 84, 80, 47, 49, 46, 48, 32, 50, 48, 48, 32, 79, 75, 13, 10,
    67, 111, 110, 116, 101, 110, 116, 45, 76, 101, 110, 103, 116, 104, 58, 32] ++ v
    ++ [13, 10, 13, 10]

/-- A length of twelve. -/
theorem content_length_read_or_refused_iff_twelve :
    ReadOrRefused picoParse 0 (headWith [49, 50]) HttpParser.init := by
  refine (content_length_read_or_refused_iff picoParse 0 _ _ (by decide)).mpr fun v hv => ?_
  obtain rfl : [49, 50] = v := Option.some.inj ((by decide : _ = _).symm.trans hv)
  exact ⟨by decide, by decide⟩

/-- Five heads that are accepted: `"+5"` and `"5x"` are taken for 5, an empty value for 0,
    `"-1"` for 2^64 - 1, and `"2147483648"` throws. -/
theorem content_length_misread :
    ((parseResponse picoParse 0 (headWith [43, 53]) HttpParser.init).1 = .ok 39 ∧
      (parseResponse picoParse 0 (headWith [43, 53]) HttpParser.init).2.bodyLen = 5) ∧
    ((parseResponse picoParse 0 (headWith [53, 120]) HttpParser.init).1 = .ok 39 ∧
      (parseResponse picoParse 0 (headWith [53, 120]) HttpParser.init).2.bodyLen = 5) ∧
    ((parseResponse picoParse 0 (headWith []) HttpParser.init).1 = .ok 37 ∧
      (parseResponse picoParse 0 (headWith []) HttpParser.init).2.bodyLen = 0) ∧
    ((parseResponse picoParse 0 (headWith [45, 49]) HttpParser.init).1 = .ok 39 ∧
      (parseResponse picoParse 0 (headWith [45, 49]) HttpParser.init).2.bodyLen = 2 ^ 64 - 1) ∧
    (parseResponse picoParse 0 (headWith [50, 49, 52, 55, 52, 56, 51, 54, 52, 56])
      HttpParser.init).1 = .error .outOfRange := by
  decide

/-! ## What a parser remembers -/

/-- The length that a call with `str` sets, if it sets one. -/
def lengthSet (phr : Bytes → PhrResult) (str : Bytes) : Option Nat :=
  if getHeaderValue str (phr str).headers contentLength = [] then none
  else (stoi (getHeaderValue str (phr str).headers contentLength)).toOption.map intToSize

/-- One parser, and calls with the strings `c.2`, which are kept at `c.1`. -/
def parseAll (phr : Bytes → PhrResult) (calls : List (Nat × Bytes)) : HttpParser :=
  calls.foldl (fun p c => (parseResponse phr c.1 c.2 p).2) HttpParser.init

section Memory

variable {phr : Bytes → PhrResult}

/-- **FRAME**: a call reads nothing of the parser, and leaves only the length. -/
theorem parseResponse_eq (phr : Bytes → PhrResult) (owner : Nat) (str : Bytes) (p : HttpParser) :
    parseResponse phr owner str p =
      ((parseResponse phr owner str HttpParser.init).1,
        { (parseResponse phr owner str HttpParser.init).2 with
          bodyLen := (lengthSet phr str).getD p.bodyLen }) := by
  unfold parseResponse lengthSet
  dsimp only
  split
  · rfl
  · cases stoi (getHeaderValue str (phr str).headers contentLength) <;> rfl

theorem bodyLen_parseResponse (phr : Bytes → PhrResult) (owner : Nat) (str : Bytes) (p : HttpParser) :
    (parseResponse phr owner str p).2.bodyLen = (lengthSet phr str).getD p.bodyLen := by
  rw [parseResponse_eq]

/-- The length that is left is the last one that was set. -/
theorem bodyLen_parseAll (phr : Bytes → PhrResult) (calls : List (Nat × Bytes)) :
    (parseAll phr calls).bodyLen =
      ((calls.filterMap fun c => lengthSet phr c.2).getLast?).getD 0 := by
  unfold parseAll
  induction calls using List.reverseRecOn with
  | nil => rfl
  | append_singleton calls c ih =>
      rw [List.foldl_append, List.filterMap_append]
      show (parseResponse phr c.1 c.2 _).2.bodyLen = _
      rw [bodyLen_parseResponse, ih]
      cases hset : lengthSet phr c.2 with
      | none => simp [hset]
      | some n => simp [hset]

end Memory

/-- **MEMORY**: after any calls, the next one returns and leaves what it does on a new parser
    IF AND ONLY IF it sets a length itself, or the length that the calls before it have set
    last is zero or none. -/
theorem parser_has_no_memory_iff (phr : Bytes → PhrResult) (calls : List (Nat × Bytes))
    (owner : Nat) (str : Bytes) :
    parseResponse phr owner str (parseAll phr calls) =
        parseResponse phr owner str HttpParser.init ↔
      lengthSet phr str ≠ none ∨
        ((calls.filterMap fun c => lengthSet phr c.2).getLast?).getD 0 = 0 := by
  rw [← bodyLen_parseAll, parseResponse_eq phr owner str (parseAll phr calls)]
  have hlen := bodyLen_parseResponse phr owner str HttpParser.init
  cases hset : lengthSet phr str with
  | none =>
      rw [hset, Option.getD_none] at hlen
      rw [Option.getD_none]
      constructor
      · intro heq
        have hbody := congrArg (fun o => o.2.bodyLen) heq
        exact .inr (hbody.trans hlen)
      · intro h
        have hzero := h.resolve_left fun hne => hne rfl
        have hsame : (parseAll phr calls).bodyLen =
            (parseResponse phr owner str HttpParser.init).2.bodyLen := hzero.trans hlen.symm
        rw [hsame]
  | some n =>
      rw [hset, Option.getD_some] at hlen
      rw [Option.getD_some, ← hlen]
      exact iff_of_true rfl (.inl (Option.some_ne_none _))

/-- A head without a length, after one with a length of five. -/
theorem length_is_remembered :
    (parseResponse picoParse 1
        [72, 84, 84, 80, 47, 49, 46, 48, 32, 50, 48, 48, 32, 79, 75, 13, 10, 13, 10]
        (parseAll picoParse [(0, headWith [53])])).2.bodyLen = 5 ∧
      (parseResponse picoParse 1
        [72, 84, 84, 80, 47, 49, 46, 48, 32, 50, 48, 48, 32, 79, 75, 13, 10, 13, 10]
        HttpParser.init).2.bodyLen = 0 := by
  decide

end CoioHttpHead
