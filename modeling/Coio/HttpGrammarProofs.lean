import Coio.TransducerProofs
import Coio.HttpHeaderProofs

/-! # The heads that `phr_parse_response` accepts

    `ResponseHead` is the grammar of the parser, as a sender would write it: the status
    line, the header lines, a blank line.  A line ends in a line feed, with a carriage
    return before it or without.  A header line has a name, a colon, blanks and a value;
    from the second one on it may also begin with a blank, and continues the line before.

    Each function of the parser has one lemma that says what it accepts and what it makes
    of it, as an equivalence: from left to right the input is cut into what was read and
    the rest, from right to left what is rendered is read back.  `parseHeaders_iff` and
    `accepted_iff` put them together. -/

namespace CoioHttpGrammar

open CoioStreamBuffer CoioHttpParser CoioHttpHeader CoioTransducer

/-! ## The grammar -/

def lineEnd (cr : Bool) : Bytes := if cr then [13, 10] else [10]

def isBlank (c : UInt8) : Bool := c == 32 || c == 9

/-- What can stand up to the end of a line. -/
def Text (bs : Bytes) : Prop := ∀ c ∈ bs, isCtl c = false

structure StatusLine where
  minor : UInt8
  hundreds : UInt8
  tens : UInt8
  ones : UInt8
  msg : Bytes
  cr : Bool
  minor_digit : isDigit minor = true
  hundreds_digit : isDigit hundreds = true
  tens_digit : isDigit tens = true
  ones_digit : isDigit ones = true
  msg_text : Text msg

def StatusLine.render (line : StatusLine) : Bytes :=
  httpOne ++ line.minor :: 32 :: line.hundreds :: line.tens :: line.ones :: 32 ::
    (line.msg ++ lineEnd line.cr)

/-- The number that three digits denote. -/
def digitsStatus (hundreds tens ones : UInt8) : Int :=
  100 * ((hundreds.toNat : Int) - 48) + 10 * ((tens.toNat : Int) - 48) + ((ones.toNat : Int) - 48)

def StatusLine.status (line : StatusLine) : Int := digitsStatus line.hundreds line.tens line.ones

/-- A header line. -/
inductive HeaderLine where
  | named (name blanks value : Bytes) (cr : Bool) (some_name : name ≠ [])
      (name_token : ∀ c ∈ name, isToken c = true) (blank : ∀ c ∈ blanks, isBlank c = true)
      (value_text : Text value) (value_start : ∀ c ∈ value.head?, isBlank c = false)
  /-- a line that continues the one before -/
  | folded (first : UInt8) (rest : Bytes) (cr : Bool) (first_blank : isBlank first = true)
      (rest_text : Text rest)

namespace HeaderLine

def render : HeaderLine → Bytes
  | named name blanks value cr .. => name ++ 58 :: (blanks ++ (value ++ lineEnd cr))
  | folded first rest cr .. => first :: (rest ++ lineEnd cr)

def Named : HeaderLine → Prop
  | named .. => True
  | folded .. => False

/-- The name and the value; a continuing line has the name of none. -/
def field : HeaderLine → Bytes × Bytes
  | named name _ value .. => (name, value)
  | folded first rest .. => ([], first :: rest)

/-- Where they stand, if the line stands at `pos`. -/
def header (pos : Nat) : HeaderLine → PhrHeader
  | named name blanks value .. =>
      ⟨⟨pos, name.length⟩, ⟨pos + name.length + 1 + blanks.length, value.length⟩⟩
  | folded _ rest .. => ⟨⟨0, 0⟩, ⟨pos, rest.length + 1⟩⟩

end HeaderLine

/-- The headers of lines that stand one behind the other from `pos` on. -/
def headersFrom : Nat → List HeaderLine → List PhrHeader
  | _, [] => []
  | pos, line :: lines => line.header pos :: headersFrom (pos + line.render.length) lines

/-- The first line has none to continue. -/
def Starts (lines : List HeaderLine) : Prop := ∀ line ∈ lines.head?, line.Named

structure ResponseHead where
  status : StatusLine
  lines : List HeaderLine
  cr : Bool
  starts : Starts lines

def renderLines (lines : List HeaderLine) : Bytes := lines.flatMap HeaderLine.render

theorem renderLines_cons (line : HeaderLine) (lines : List HeaderLine) :
    renderLines (line :: lines) = line.render ++ renderLines lines := rfl

def ResponseHead.render (head : ResponseHead) : Bytes :=
  head.status.render ++ (renderLines head.lines ++ lineEnd head.cr)

/-! ## Scanning -/

section Scan

variable {start pos pos' : Nat} {buf rest : Bytes}

theorem text_cons {c : UInt8} {bs : Bytes} : Text (c :: bs) ↔ isCtl c = false ∧ Text bs :=
  List.forall_mem_cons

theorem getTokenToEol_step {c : UInt8} (hc : isCtl c = false) :
    getTokenToEol start pos (c :: rest) = getTokenToEol start (pos + 1) rest := by
  rw [getTokenToEol.eq_def]
  exact if_neg (by rw [hc]; exact Bool.false_ne_true)

/-- A token is text up to the end of its line. -/
theorem getTokenToEol_render {text : Bytes} (htext : Text text) (cr : Bool) :
    getTokenToEol start pos (text ++ (lineEnd cr ++ rest))
      = .ok (⟨start, pos + text.length - start⟩, pos + (text ++ lineEnd cr).length, rest) := by
  induction text generalizing pos with
  | nil => cases cr <;> rfl
  | cons c text ih =>
      obtain ⟨hc, hrest⟩ := text_cons.mp htext
      rw [List.cons_append, getTokenToEol_step hc, ih hrest, List.length_cons, List.cons_append,
        List.length_cons, Nat.succ_add_eq_add_succ, Nat.succ_add_eq_add_succ]

theorem token_of_ok {v : Span} (h : getTokenToEol start pos buf = .ok (v, pos', rest)) :
    ∃ text cr, Text text ∧ buf = text ++ (lineEnd cr ++ rest) := by
  induction buf generalizing pos with
  | nil => cases h
  | cons c buf ih =>
      unfold getTokenToEol at h
      split at h
      · split at h
        · rename_i hcr
          cases buf with
          | nil => cases h
          | cons c' buf =>
              dsimp only at h
              split at h
              · rename_i hlf
                cases h
                exact ⟨[], true, List.forall_mem_nil _, by rw [hcr, hlf]; rfl⟩
              · cases h
        · split at h
          · rename_i hlf
            cases h
            exact ⟨[], false, List.forall_mem_nil _, by rw [hlf]; rfl⟩
          · cases h
      · rename_i hc
        obtain ⟨text, cr, htext, rfl⟩ := ih h
        exact ⟨c :: text, cr, text_cons.mpr ⟨Bool.eq_false_iff.mpr hc, htext⟩, rfl⟩

/-- A name is what stands before the colon. -/
theorem scanName_render {name : Bytes} (hname : ∀ c ∈ name, isToken c = true) :
    scanName pos (name ++ 58 :: rest) = .ok (pos + name.length, rest) := by
  induction name generalizing pos with
  | nil => rfl
  | cons c name ih =>
      obtain ⟨hc, hrest⟩ := List.forall_mem_cons.mp hname
      have hcolon : c ≠ 58 := by
        rintro rfl
        exact absurd hc (by decide)
      rw [List.cons_append, scanName, if_neg hcolon, if_pos hc, ih hrest, List.length_cons,
        Nat.succ_add_eq_add_succ]

theorem name_of_ok {colon : Nat} (h : scanName pos buf = .ok (colon, rest)) :
    ∃ name, (∀ c ∈ name, isToken c = true) ∧ buf = name ++ 58 :: rest ∧
      colon = pos + name.length := by
  induction buf generalizing pos with
  | nil => cases h
  | cons c buf ih =>
      unfold scanName at h
      split at h
      · rename_i hcolon
        cases h
        exact ⟨[], List.forall_mem_nil _, by rw [hcolon]; rfl, rfl⟩
      · split at h
        · rename_i hc
          obtain ⟨name, hname, rfl, rfl⟩ := ih h
          refine ⟨c :: name, List.forall_mem_cons.mpr ⟨hc, hname⟩, rfl, ?_⟩
          rw [List.length_cons, Nat.succ_add_eq_add_succ]
        · cases h

theorem isBlank_iff {c : UInt8} : isBlank c = true ↔ c = 32 ∨ c = 9 := by
  rw [isBlank, Bool.or_eq_true, beq_iff_eq, beq_iff_eq]

/-- Blanks are skipped up to a byte that is none. -/
theorem skipBlanks_render {blanks : Bytes} {c : UInt8} (hblanks : ∀ c ∈ blanks, isBlank c = true)
    (hc : isBlank c = false) :
    skipBlanks pos (blanks ++ c :: rest) = .ok (pos + blanks.length, c :: rest) := by
  induction blanks generalizing pos with
  | nil =>
      have hnot : ¬ (c = 32 ∨ c = 9) := by
        intro h
        rw [isBlank_iff.mpr h] at hc
        cases hc
      rw [List.nil_append, skipBlanks, if_neg hnot]
      rfl
  | cons b blanks ih =>
      obtain ⟨hb, hrest⟩ := List.forall_mem_cons.mp hblanks
      rw [List.cons_append, skipBlanks, if_pos (isBlank_iff.mp hb), ih hrest, List.length_cons,
        Nat.succ_add_eq_add_succ]

theorem blanks_of_ok (h : skipBlanks pos buf = .ok (pos', rest)) :
    ∃ blanks, (∀ c ∈ blanks, isBlank c = true) ∧ buf = blanks ++ rest ∧
      ∀ c ∈ rest.head?, isBlank c = false := by
  induction buf generalizing pos with
  | nil => cases h
  | cons c buf ih =>
      unfold skipBlanks at h
      split at h
      · rename_i hc
        obtain ⟨blanks, hblanks, rfl, hstop⟩ := ih h
        exact ⟨c :: blanks, List.forall_mem_cons.mpr ⟨isBlank_iff.mpr hc, hblanks⟩, rfl, hstop⟩
      · rename_i hc
        cases h
        refine ⟨[], List.forall_mem_nil _, rfl, ?_⟩
        rintro _ ⟨⟩
        exact Bool.eq_false_iff.mpr (mt isBlank_iff.mp hc)

end Scan

/-! ## Header lines -/

section Lines

variable {continues : Bool} {pos pos' : Nat} {buf rest : Bytes} {h : PhrHeader}

theorem isBlank_of_isToken {c : UInt8} (hc : isToken c = true) : isBlank c = false := by
  rw [Bool.eq_false_iff]
  intro hblank
  rcases isBlank_iff.mp hblank with rfl | rfl
  · exact absurd hc (by decide)
  · exact absurd hc (by decide)

theorem isCtl_of_isBlank {c : UInt8} (hc : isBlank c = true) : isCtl c = false := by
  rcases isBlank_iff.mp hc with rfl | rfl
  · rfl
  · rfl

/-- Whether a line is read as one that continues. -/
theorem startsBlank_iff :
    (continues && (buf.head? == some 32 || buf.head? == some 9)) = true ↔
      continues = true ∧ ∃ c bs, buf = c :: bs ∧ isBlank c = true := by
  rw [Bool.and_eq_true]
  refine and_congr_right fun _ => ?_
  cases buf with
  | nil => simp
  | cons c bs => simp [isBlank]

theorem parseHeader_folded (hb : ∃ c bs, buf = c :: bs ∧ isBlank c = true)
    (hcont : continues = true) :
    parseHeader continues pos buf
      = (getTokenToEol pos pos buf).bind fun r => .ok (⟨⟨0, 0⟩, r.1⟩, r.2.1, r.2.2) := by
  unfold parseHeader
  rw [if_pos (startsBlank_iff.mpr ⟨hcont, hb⟩)]
  rfl

theorem parseHeader_named (hb : continues = true → ∀ c bs, buf = c :: bs → isBlank c = false) :
    parseHeader continues pos buf
      = (scanName pos buf).bind fun n =>
          if n.1 = pos then .error (-1)
          else (skipBlanks (n.1 + 1) n.2).bind fun b =>
            (getTokenToEol b.1 b.1 b.2).bind fun r =>
              .ok (⟨⟨pos, n.1 - pos⟩, r.1⟩, r.2.1, r.2.2) := by
  unfold parseHeader
  rw [if_neg]
  · rfl
  · intro hstart
    obtain ⟨hcont, c, bs, hbuf, hc⟩ := startsBlank_iff.mp hstart
    rw [hb hcont c bs hbuf] at hc
    cases hc

/-- A line that is rendered is read back. -/
theorem parseHeader_render {line : HeaderLine} (hline : line.Named ∨ continues = true) :
    parseHeader continues pos (line.render ++ rest)
      = .ok (line.header pos, pos + line.render.length, rest) := by
  cases line with
  | named name blanks value cr hsome hname hblanks hvalue hstart =>
      have hrender : (HeaderLine.named name blanks value cr hsome hname hblanks hvalue
          hstart).render ++ rest = name ++ 58 :: (blanks ++ (value ++ (lineEnd cr ++ rest))) := by
        show (name ++ 58 :: (blanks ++ (value ++ lineEnd cr))) ++ rest = _
        simp only [List.append_assoc, List.cons_append]
      obtain ⟨c, bs, hvalue', hc⟩ : ∃ c bs, value ++ (lineEnd cr ++ rest) = c :: bs ∧
          isBlank c = false := by
        cases value with
        | nil => cases cr <;> exact ⟨_, _, rfl, rfl⟩
        | cons c value => exact ⟨c, _, rfl, hstart c rfl⟩
      have hfirst : continues = true → ∀ c bs,
          name ++ 58 :: (blanks ++ (value ++ (lineEnd cr ++ rest))) = c :: bs →
          isBlank c = false := by
        intro _ c bs hsplit
        obtain ⟨c', name', rfl⟩ := List.exists_cons_of_ne_nil hsome
        cases hsplit
        exact isBlank_of_isToken (hname _ List.mem_cons_self)
      have hne : pos + name.length ≠ pos := by
        have hlength := mt List.length_eq_zero_iff.mp hsome
        omega
      have hskip : skipBlanks (pos + name.length + 1) (blanks ++ (value ++ (lineEnd cr ++ rest)))
          = .ok (pos + name.length + 1 + blanks.length, value ++ (lineEnd cr ++ rest)) := by
        rw [hvalue']
        exact skipBlanks_render hblanks hc
      have hlength : pos + name.length + 1 + blanks.length + (value ++ lineEnd cr).length
          = pos + (name ++ 58 :: (blanks ++ (value ++ lineEnd cr))).length := by
        simp only [List.length_append, List.length_cons]
        omega
      rw [hrender, parseHeader_named hfirst, scanName_render hname]
      show (if pos + name.length = pos then _ else _) = _
      rw [if_neg hne, hskip]
      show (getTokenToEol _ _ _).bind _ = _
      rw [getTokenToEol_render hvalue, Nat.add_sub_cancel_left, hlength]
      show Except.ok (PhrHeader.mk ⟨pos, pos + name.length - pos⟩ _, _) = _
      rw [Nat.add_sub_cancel_left]
      rfl
  | folded first text cr hfirst htext =>
      have hcont : continues = true := hline.resolve_left id
      have htext' : Text (first :: text) := text_cons.mpr ⟨isCtl_of_isBlank hfirst, htext⟩
      have hrender : (HeaderLine.folded first text cr hfirst htext).render ++ rest
          = (first :: text) ++ (lineEnd cr ++ rest) := by
        show (first :: (text ++ lineEnd cr)) ++ rest = _
        simp only [List.append_assoc, List.cons_append]
      rw [hrender, parseHeader_folded ⟨first, _, List.cons_append, hfirst⟩ hcont,
        getTokenToEol_render htext', Nat.add_sub_cancel_left]
      rfl

theorem line_of_ok (hok : parseHeader continues pos buf = .ok (h, pos', rest)) :
    ∃ line : HeaderLine, (line.Named ∨ continues = true) ∧ buf = line.render ++ rest := by
  by_cases hb : continues = true ∧ ∃ c bs, buf = c :: bs ∧ isBlank c = true
  · obtain ⟨hcont, c, bs, rfl, hc⟩ := hb
    rw [parseHeader_folded ⟨_, _, rfl, hc⟩ hcont] at hok
    obtain ⟨⟨v, p, rest⟩, htoken, hr⟩ := exists_of_bind_ok hok
    cases hr
    obtain ⟨text, cr, htext, hsplit⟩ := token_of_ok htoken
    cases text with
    | nil =>
        exfalso
        cases cr
        · cases hsplit
          cases hc
        · cases hsplit
          cases hc
    | cons c' text =>
        cases hsplit
        refine ⟨.folded c text cr hc (text_cons.mp htext).2, .inr hcont, ?_⟩
        exact congrArg (List.cons c) (List.append_assoc text (lineEnd cr) rest).symm
  · have hfirst : continues = true → ∀ c bs, buf = c :: bs → isBlank c = false := by
      intro hcont c bs hbuf
      exact Bool.eq_false_iff.mpr fun hc => hb ⟨hcont, c, bs, hbuf, hc⟩
    rw [parseHeader_named hfirst] at hok
    obtain ⟨⟨colon, rest₁⟩, hname, hok⟩ := exists_of_bind_ok hok
    obtain ⟨name, htoken, rfl, rfl⟩ := name_of_ok hname
    dsimp only at hok
    split at hok
    · cases hok
    · rename_i hne
      obtain ⟨⟨pos₂, rest₂⟩, hskip, hok⟩ := exists_of_bind_ok hok
      obtain ⟨⟨v, p, rest⟩, hvalue, hr⟩ := exists_of_bind_ok hok
      cases hr
      obtain ⟨blanks, hblanks, rfl, hstop⟩ := blanks_of_ok hskip
      obtain ⟨value, cr, htext, rfl⟩ := token_of_ok hvalue
      have hsome : name ≠ [] := by
        rintro rfl
        exact hne rfl
      have hstart : ∀ c ∈ value.head?, isBlank c = false := by
        intro c hc
        cases value with
        | nil => cases hc
        | cons c' value => exact hstop c hc
      refine ⟨.named name blanks value cr hsome htoken hblanks htext hstart, .inl trivial, ?_⟩
      show _ = (name ++ 58 :: (blanks ++ (value ++ lineEnd cr))) ++ rest
      simp only [List.append_assoc, List.cons_append]

/-- A line begins neither with a carriage return nor with a line feed. -/
theorem line_start (line : HeaderLine) :
    ∃ c bs, line.render = c :: bs ∧ c ≠ 13 ∧ c ≠ 10 := by
  cases line with
  | named name blanks value cr hsome hname =>
      obtain ⟨c, name, rfl⟩ := List.exists_cons_of_ne_nil hsome
      have hc := hname c List.mem_cons_self
      refine ⟨c, _, rfl, ?_, ?_⟩
      · rintro rfl
        exact absurd hc (by decide)
      · rintro rfl
        exact absurd hc (by decide)
  | folded first text cr hfirst =>
      refine ⟨first, _, rfl, ?_, ?_⟩
      · rintro rfl
        exact absurd hfirst (by decide)
      · rintro rfl
        exact absurd hfirst (by decide)

end Lines

/-! ## All lines -/

section Headers

variable {left pos pos' : Nat} {found headers : List PhrHeader} {buf rest : Bytes}

theorem parseHeaders_line {c : UInt8} {bs : Bytes} {h : PhrHeader} (hcr : c ≠ 13) (hlf : c ≠ 10)
    (hline : parseHeader (!found.isEmpty) pos (c :: bs) = .ok (h, pos', rest)) :
    parseHeaders (left + 1) found pos (c :: bs) = parseHeaders left (found ++ [h]) pos' rest := by
  rw [parseHeaders.eq_def]
  dsimp only
  rw [if_neg hcr, if_neg hlf, hline]

theorem parseHeaders_lineEnd (cr : Bool) :
    parseHeaders left found pos (lineEnd cr ++ rest)
      = (found, .ok (pos + (lineEnd cr).length)) := by
  cases cr
  · rw [parseHeaders.eq_def]
    rfl
  · rw [parseHeaders.eq_def]
    rfl

/-- Lines that are rendered are read back, as many as there is room for. -/
theorem parseHeaders_render {lines : List HeaderLine} (hroom : lines.length ≤ left)
    (hstarts : found ≠ [] ∨ Starts lines) (cr : Bool) :
    parseHeaders left found pos (renderLines lines ++ (lineEnd cr ++ rest))
      = (found ++ headersFrom pos lines, .ok (pos + (renderLines lines ++ lineEnd cr).length)) := by
  induction lines generalizing left found pos with
  | nil =>
      rw [headersFrom, List.append_nil]
      exact parseHeaders_lineEnd cr
  | cons line lines ih =>
      obtain ⟨left, rfl⟩ : ∃ m, left = m + 1 := ⟨left - 1, by
        rw [List.length_cons] at hroom
        omega⟩
      obtain ⟨c, bs, hline, hcr, hlf⟩ := line_start line
      have hnamed : line.Named ∨ (!found.isEmpty) = true := by
        rcases hstarts with hfound | hnamed
        · right
          cases found with
          | nil => exact absurd rfl hfound
          | cons _ _ => rfl
        · exact .inl (hnamed line rfl)
      have hsplit : renderLines (line :: lines) ++ (lineEnd cr ++ rest)
          = line.render ++ (renderLines lines ++ (lineEnd cr ++ rest)) := by
        rw [renderLines_cons, List.append_assoc]
      have hparsed : parseHeader (!found.isEmpty) pos
          (line.render ++ (renderLines lines ++ (lineEnd cr ++ rest))) = _ :=
        parseHeader_render hnamed
      have hlength : pos + line.render.length + (renderLines lines ++ lineEnd cr).length
          = pos + (renderLines (line :: lines) ++ lineEnd cr).length := by
        simp only [renderLines_cons, List.length_append]
        omega
      rw [hsplit]
      rw [hline, List.cons_append] at hparsed ⊢
      rw [parseHeaders_line hcr hlf hparsed, ih (Nat.le_of_succ_le_succ hroom) (.inl (by simp)),
        ← hline, hlength, List.append_assoc]
      rfl

/-- What was read last, and from where reading goes on. -/
theorem parseHeaders_cases (h : parseHeaders left found pos buf = (headers, .ok pos')) :
    (∃ cr rest, buf = lineEnd cr ++ rest) ∨
      ∃ n line rest header pos₁, left = n + 1 ∧ (HeaderLine.Named line ∨ found ≠ []) ∧
        buf = line.render ++ rest ∧
        parseHeaders n (found ++ [header]) pos₁ rest = (headers, .ok pos') := by
  cases buf with
  | nil => cases (Prod.mk.inj (parseHeaders.eq_def .. ▸ h)).2
  | cons c bs =>
      rw [parseHeaders.eq_def] at h
      dsimp only at h
      split at h
      · rename_i hcr
        cases bs with
        | nil => cases (Prod.mk.inj h).2
        | cons c' bs =>
            dsimp only at h
            split at h
            · rename_i hlf
              exact .inl ⟨true, bs, by rw [hcr, hlf]; rfl⟩
            · cases (Prod.mk.inj h).2
      · split at h
        · rename_i hlf
          exact .inl ⟨false, bs, by rw [hlf]; rfl⟩
        · cases left with
          | zero => cases (Prod.mk.inj h).2
          | succ n =>
              dsimp only at h
              split at h
              · cases (Prod.mk.inj h).2
              · rename_i header pos₁ rest hline
                obtain ⟨line, hnamed, hbuf⟩ := line_of_ok hline
                have hfound : line.Named ∨ found ≠ [] := by
                  refine hnamed.imp_right fun hsome => ?_
                  rintro rfl
                  cases hsome
                exact .inr ⟨n, line, rest, header, pos₁, rfl, hfound, hbuf, h⟩

theorem lines_of_ok (h : parseHeaders left found pos buf = (headers, .ok pos')) :
    ∃ lines cr rest, lines.length ≤ left ∧ (found ≠ [] ∨ Starts lines) ∧
      buf = renderLines lines ++ (lineEnd cr ++ rest) := by
  induction left generalizing found pos buf with
  | zero =>
      rcases parseHeaders_cases h with ⟨cr, rest, rfl⟩ | ⟨n, _, _, _, _, hn, _⟩
      · exact ⟨[], cr, rest, Nat.le_refl 0, .inr (by rintro _ ⟨⟩), rfl⟩
      · cases hn
  | succ left ih =>
      rcases parseHeaders_cases h with
        ⟨cr, rest, rfl⟩ | ⟨n, line, rest, header, pos₁, hn, hnamed, rfl, hrest⟩
      · exact ⟨[], cr, rest, Nat.zero_le _, .inr (by rintro _ ⟨⟩), rfl⟩
      · cases hn
        obtain ⟨lines, cr, rest', hroom, -, rfl⟩ := ih hrest
        refine ⟨line :: lines, cr, rest', Nat.succ_le_succ hroom, ?_, ?_⟩
        · refine hnamed.symm.imp_right fun hline => ?_
          rintro _ ⟨⟩
          exact hline
        · rw [renderLines_cons, List.append_assoc]

end Headers

/-! ## More bytes -/

/-- More bytes behind those that were not read. -/
def behind {α : Type} (more : Bytes) (r : α × Nat × Bytes) : α × Nat × Bytes :=
  (r.1, r.2.1, r.2.2 ++ more)

def behindPos (more : Bytes) (r : Nat × Bytes) : Nat × Bytes := (r.1, r.2 ++ more)

section More

variable {start pos left : Nat} (buf more : Bytes)

theorem getTokenToEol_steady :
    Steady (-1) (-2) (behind more) (getTokenToEol start pos buf)
      (getTokenToEol start pos (buf ++ more)) := by
  induction buf generalizing pos with
  | nil => exact .tooEarly _
  | cons c buf ih =>
      cases hctl : isCtl c with
      | false =>
          rw [List.cons_append, getTokenToEol_step hctl, getTokenToEol_step hctl]
          exact ih
      | true =>
          rw [getTokenToEol.eq_def, getTokenToEol.eq_def start pos (c :: buf ++ more)]
          dsimp only [List.cons_append]
          rw [if_pos hctl, if_pos hctl]
          by_cases hcr : c = 13
          · rw [if_pos hcr, if_pos hcr]
            cases buf with
            | nil => exact .tooEarly _
            | cons c' buf =>
                dsimp only [List.cons_append]
                by_cases hlf : c' = 10
                · rw [if_pos hlf, if_pos hlf]
                  exact .value _
                · rw [if_neg hlf, if_neg hlf]
                  exact .refusal
          · rw [if_neg hcr, if_neg hcr]
            by_cases hlf : c = 10
            · rw [if_pos hlf, if_pos hlf]
              exact .value _
            · rw [if_neg hlf, if_neg hlf]
              exact .refusal

theorem scanName_steady :
    Steady (-1) (-2) (behindPos more) (scanName pos buf) (scanName pos (buf ++ more)) := by
  induction buf generalizing pos with
  | nil => exact .tooEarly _
  | cons c buf ih =>
      rw [List.cons_append, scanName, scanName]
      by_cases hcolon : c = 58
      · rw [if_pos hcolon, if_pos hcolon]
        exact .value _
      · rw [if_neg hcolon, if_neg hcolon]
        by_cases hc : isToken c = true
        · rw [if_pos hc, if_pos hc]
          exact ih
        · rw [if_neg hc, if_neg hc]
          exact .refusal

theorem skipBlanks_steady :
    Steady (-1) (-2) (behindPos more) (skipBlanks pos buf) (skipBlanks pos (buf ++ more)) := by
  induction buf generalizing pos with
  | nil => exact .tooEarly _
  | cons c buf ih =>
      rw [List.cons_append, skipBlanks, skipBlanks]
      by_cases hc : c = 32 ∨ c = 9
      · rw [if_pos hc, if_pos hc]
        exact ih
      · rw [if_neg hc, if_neg hc]
        exact .value _

theorem parseHeader_steady {continues : Bool} :
    Steady (-1) (-2) (behind more) (parseHeader continues pos buf)
      (parseHeader continues pos (buf ++ more)) := by
  cases buf with
  | nil =>
      have hearly : parseHeader continues pos [] = .error (-2) := by
        cases continues <;> rfl
      rw [hearly]
      exact .tooEarly _
  | cons c bs =>
      unfold parseHeader
      rw [List.cons_append, List.head?_cons, List.head?_cons, ← List.cons_append]
      split
      · exact (getTokenToEol_steady _ _).bind fun _ => .value _
      · refine (scanName_steady _ _).bind fun n => ?_
        dsimp only [behindPos]
        split
        · exact .refusal
        · refine (skipBlanks_steady _ _).bind fun b => ?_
          exact (getTokenToEol_steady _ _).bind fun _ => .value _

/-- The blank line is read as soon as it is there. -/
theorem parseHeaders_blank_stands {found : List PhrHeader} {c : UInt8} {bs : Bytes}
    (hc : c = 13 ∨ c = 10) :
    Stands (-1) (-2) (parseHeaders left found pos (c :: bs))
      (parseHeaders left found pos (c :: (bs ++ more))) := by
  rw [parseHeaders.eq_def, parseHeaders.eq_def]
  rcases hc with rfl | rfl
  · cases bs with
    | nil => exact .tooEarly _ _
    | cons c' bs =>
        by_cases hlf : c' = 10
        · simp only [List.cons_append, hlf, if_true]
          exact .value _ _
        · simp only [List.cons_append, hlf, if_true, if_false]
          exact .refusal _
  · exact .value _ _

theorem parseHeaders_stands {found : List PhrHeader} :
    Stands (-1) (-2) (parseHeaders left found pos buf) (parseHeaders left found pos (buf ++ more)) := by
  induction left generalizing found pos buf with
  | zero =>
      cases buf with
      | nil =>
          rw [parseHeaders.eq_def]
          exact .tooEarly _ _
      | cons c bs =>
          rw [List.cons_append]
          by_cases hc : c = 13 ∨ c = 10
          · exact parseHeaders_blank_stands more hc
          · rw [not_or] at hc
            rw [parseHeaders.eq_def, parseHeaders.eq_def]
            dsimp only
            rw [if_neg hc.1, if_neg hc.2, if_neg hc.1]
            exact .refusal _
  | succ left ih =>
      cases buf with
      | nil =>
          rw [parseHeaders.eq_def]
          exact .tooEarly _ _
      | cons c bs =>
          rw [List.cons_append]
          by_cases hc : c = 13 ∨ c = 10
          · exact parseHeaders_blank_stands more hc
          · rw [not_or] at hc
            have hsteady : Steady (-1) (-2) (behind more)
                (parseHeader (!found.isEmpty) pos (c :: bs))
                (parseHeader (!found.isEmpty) pos (c :: (bs ++ more))) :=
              parseHeader_steady _ _
            rw [parseHeaders.eq_def, parseHeaders.eq_def (left + 1) found pos (c :: (bs ++ more))]
            dsimp only
            rw [if_neg hc.1, if_neg hc.2, if_neg hc.1, if_neg hc.2]
            generalize parseHeader (!found.isEmpty) pos (c :: bs) = x at hsteady ⊢
            generalize parseHeader (!found.isEmpty) pos (c :: (bs ++ more)) = y at hsteady ⊢
            cases hsteady with
            | value r => exact ih _
            | refusal => exact .refusal _
            | tooEarly y => exact .tooEarly _ _

end More

/-! ## The status line -/

section Status

variable {buf rest : Bytes}

/-- `"HTTP/1."`, a digit, and something behind it. -/
theorem parseHttpVersion_render {minor c : UInt8} (hminor : isDigit minor = true) :
    parseHttpVersion (httpOne ++ minor :: c :: rest) = .ok (c :: rest) := by
  have hlength : ¬ (httpOne ++ minor :: c :: rest).length < 9 := by
    simp [httpOne]
  unfold parseHttpVersion
  rw [if_neg hlength, if_neg (fun h => h rfl)]
  exact if_pos hminor

theorem version_of_ok (h : parseHttpVersion buf = .ok rest) :
    ∃ minor, isDigit minor = true ∧ rest ≠ [] ∧ buf = httpOne ++ minor :: rest := by
  unfold parseHttpVersion at h
  split at h
  · cases h
  · rename_i hlong
    split at h
    · cases h
    · rename_i hone
      rw [not_not] at hone
      split at h
      · rename_i hdigit
        cases h
        cases hdrop : buf.drop 7 with
        | nil =>
            rw [hdrop] at hdigit
            cases hdigit
        | cons minor bs =>
            rw [hdrop] at hdigit
            have hsome : buf.drop 8 ≠ [] := by
              rw [ne_eq, List.drop_eq_nil_iff]
              omega
            refine ⟨minor, hdigit, hsome, ?_⟩
            have htail : buf.drop 8 = bs := by
              rw [show buf.drop 8 = (buf.drop 7).drop 1 from
                (List.drop_drop (i := 1) (j := 7)).symm, hdrop]
              rfl
            rw [htail, ← hdrop, ← hone, List.take_append_drop]
      · cases h

theorem parseInt3_render {a b c : UInt8} (ha : isDigit a = true) (hb : isDigit b = true)
    (hc : isDigit c = true) :
    parseInt3 (a :: b :: c :: rest) = (digitsStatus a b c, .ok rest) := by
  simp [parseInt3, Option.filter, ha, hb, hc, digitsStatus]

theorem status_of_ok {status : Int} (h : parseInt3 buf = (status, .ok rest)) :
    ∃ a b c, isDigit a = true ∧ isDigit b = true ∧ isDigit c = true ∧
      buf = a :: b :: c :: rest := by
  have hdigit : ∀ (bs : Bytes) {v : Int},
      (bs[0]?.filter isDigit).map (fun c => (c.toNat : Int) - 48) = some v →
        ∃ c bs', bs = c :: bs' ∧ isDigit c = true := by
    intro bs v hv
    cases bs with
    | nil => cases hv
    | cons c bs =>
        cases hc : isDigit c with
        | true => exact ⟨c, bs, rfl, hc⟩
        | false => simp [Option.filter, hc] at hv
  unfold parseInt3 at h
  dsimp only at h
  split at h
  · cases (Prod.mk.inj h).2
  · rename_i hfirst
    obtain ⟨a, bs, rfl, ha⟩ := hdigit _ hfirst
    split at h
    · cases (Prod.mk.inj h).2
    · rename_i hsecond
      obtain ⟨b, bs, rfl, hb⟩ := hdigit bs hsecond
      split at h
      · cases (Prod.mk.inj h).2
      · rename_i hthird
        obtain ⟨c, bs, rfl, hc⟩ := hdigit bs hthird
        cases h
        exact ⟨a, b, c, ha, hb, hc, rfl⟩

theorem parseHttpVersion_steady (buf more : Bytes) :
    Steady (-1) (-2) (· ++ more) (parseHttpVersion buf) (parseHttpVersion (buf ++ more)) := by
  by_cases hshort : buf.length < 9
  · rw [parseHttpVersion, if_pos hshort]
    exact .tooEarly _
  · have hlong : ¬ (buf ++ more).length < 9 := by
      rw [List.length_append]
      omega
    have hhead : (buf.drop 7 ++ more).head? = (buf.drop 7).head? := by
      obtain ⟨minor, bs, hdrop⟩ : ∃ c bs, buf.drop 7 = c :: bs :=
        List.exists_cons_of_ne_nil (by
          rw [ne_eq, List.drop_eq_nil_iff]
          omega)
      rw [hdrop]
      rfl
    unfold parseHttpVersion
    rw [if_neg hshort, if_neg hlong, List.take_append_of_le_length (by omega),
      List.drop_append_of_le_length (by omega), List.drop_append_of_le_length (by omega), hhead]
    by_cases hone : buf.take 7 ≠ httpOne
    · rw [if_pos hone, if_pos hone]
      exact .refusal
    · rw [if_neg hone, if_neg hone]
      by_cases hdigit : (buf.drop 7).head?.any isDigit = true
      · rw [if_pos hdigit, if_pos hdigit]
        exact .value _
      · rw [if_neg hdigit, if_neg hdigit]
        exact .refusal

/-- There is nothing too early about four bytes. -/
theorem parseInt3_stands {buf : Bytes} (hbuf : 4 ≤ buf.length) (more : Bytes) :
    (∃ status rest, parseInt3 buf = (status, .ok rest) ∧
        parseInt3 (buf ++ more) = (status, .ok (rest ++ more))) ∨
      ∃ status, parseInt3 buf = (status, .error (-1)) ∧
        parseInt3 (buf ++ more) = (status, .error (-1)) := by
  match buf, hbuf with
  | a :: b :: c :: d :: bs, _ =>
      cases ha : isDigit a with
      | false => exact .inr ⟨0, by simp [parseInt3, Option.filter, ha]⟩
      | true =>
          cases hb : isDigit b with
          | false =>
              exact .inr ⟨100 * ((a.toNat : Int) - 48), by simp [parseInt3, Option.filter, ha, hb]⟩
          | true =>
              cases hc : isDigit c with
              | false =>
                  exact .inr ⟨100 * ((a.toNat : Int) - 48) + 10 * ((b.toNat : Int) - 48), by
                    simp [parseInt3, Option.filter, ha, hb, hc]⟩
              | true => exact .inl ⟨_, _, parseInt3_render ha hb hc, parseInt3_render ha hb hc⟩

end Status

/-! ## The head -/

section Head

variable {maxHeaders : Nat} {buf : Bytes}

/-- What is left to do behind the space that follows the status. -/
def afterStatus (maxHeaders : Nat) (status : Int) (buf : Bytes) : PhrResult :=
  match getTokenToEol 13 13 buf with
  | .error r => ⟨r, status, ⟨0, 0⟩, []⟩
  | .ok (msg, pos, rest) =>
      match parseHeaders maxHeaders [] pos rest with
      | (headers, .error r) => ⟨r, status, msg, headers⟩
      | (headers, .ok pos') => ⟨toInt pos', status, msg, headers⟩

/-- A space, and what is left to do behind it; `bad` is the answer to anything else. -/
def expectSpace (bad : PhrResult) (f : Bytes → PhrResult) : Bytes → PhrResult
  | [] => bad
  | c :: buf => if c ≠ 32 then bad else f buf

/-- What is left to do behind the space that follows the version. -/
def afterSpace (maxHeaders : Nat) (buf : Bytes) : PhrResult :=
  if buf.length < 4 then ⟨-2, 0, ⟨0, 0⟩, []⟩
  else
    match parseInt3 buf with
    | (status, .error r) => ⟨r, status, ⟨0, 0⟩, []⟩
    | (status, .ok rest) =>
        expectSpace ⟨-1, status, ⟨0, 0⟩, []⟩ (afterStatus maxHeaders status) rest

theorem phrParseResponse_version {rest : Bytes} (h : parseHttpVersion buf = .ok rest) :
    phrParseResponse maxHeaders buf
      = expectSpace ⟨-1, 0, ⟨0, 0⟩, []⟩ (afterSpace maxHeaders) rest := by
  rw [phrParseResponse, h]
  cases rest with
  | nil => rfl
  | cons c bs =>
      simp only [List.head?_cons, ne_eq, Option.some.injEq, List.drop_succ_cons, List.drop_zero,
        expectSpace, afterSpace]
      rcases parseInt3 bs with ⟨status, _ | rest⟩
      · rfl
      · cases rest with
        | nil => rfl
        | cons c' bs' =>
            simp only [List.head?_cons, Option.some.injEq, List.drop_succ_cons, List.drop_zero]
            rfl

theorem phrParseResponse_status {minor a b c : UInt8} (hminor : isDigit minor = true)
    (ha : isDigit a = true) (hb : isDigit b = true) (hc : isDigit c = true) (rest : Bytes) :
    phrParseResponse maxHeaders (httpOne ++ minor :: 32 :: a :: b :: c :: 32 :: rest)
      = afterStatus maxHeaders (digitsStatus a b c) rest := by
  have hlong : ¬ (a :: b :: c :: 32 :: rest).length < 4 := by simp
  have hspace : ¬ (32 : UInt8) ≠ 32 := fun h => h rfl
  rw [phrParseResponse_version (parseHttpVersion_render hminor), expectSpace, if_neg hspace,
    afterSpace, if_neg hlong, parseInt3_render ha hb hc]
  show expectSpace _ _ (32 :: rest) = _
  rw [expectSpace, if_neg hspace]

/-- A head that is rendered is read back, whatever follows it. -/
theorem phrParseResponse_render {head : ResponseHead} (hroom : head.lines.length ≤ maxHeaders)
    (rest : Bytes) :
    phrParseResponse maxHeaders (head.render ++ rest)
      = ⟨toInt head.render.length, head.status.status, ⟨13, head.status.msg.length⟩,
          headersFrom head.status.render.length head.lines⟩ := by
  obtain ⟨⟨minor, a, b, c, msg, cr, hminor, ha, hb, hc, hmsg⟩, lines, cr', hstarts⟩ := head
  have hrender : ResponseHead.render ⟨⟨minor, a, b, c, msg, cr, hminor, ha, hb, hc, hmsg⟩, lines,
        cr', hstarts⟩ ++ rest
      = httpOne ++ minor :: 32 :: a :: b :: c :: 32 ::
          (msg ++ (lineEnd cr ++ (renderLines lines ++ (lineEnd cr' ++ rest)))) := by
    simp only [ResponseHead.render, StatusLine.render, List.append_assoc, List.cons_append]
  have hpos : 13 + (msg ++ lineEnd cr).length
      = (StatusLine.render ⟨minor, a, b, c, msg, cr, hminor, ha, hb, hc, hmsg⟩).length := by
    simp only [StatusLine.render, httpOne, List.length_append, List.length_cons, List.length_nil]
    omega
  have hlength : (StatusLine.render ⟨minor, a, b, c, msg, cr, hminor, ha, hb, hc, hmsg⟩).length
        + (renderLines lines ++ lineEnd cr').length
      = (ResponseHead.render ⟨⟨minor, a, b, c, msg, cr, hminor, ha, hb, hc, hmsg⟩, lines, cr',
          hstarts⟩).length :=
    (List.length_append ..).symm
  rw [hrender, phrParseResponse_status hminor ha hb hc, afterStatus, getTokenToEol_render hmsg]
  dsimp only
  rw [parseHeaders_render hroom (.inr hstarts), hpos, hlength, Nat.add_sub_cancel_left]
  rfl

/-- The three answers to `buf`: a head was read, or what is there is malformed for good, or
    it ends too early. -/
inductive Answers (f : Bytes → PhrResult) (buf : Bytes) (accepted : Prop) : Prop
  | reads (h : accepted)
  | malformed (hret : (f buf).ret = -1) (hmore : ∀ more, f (buf ++ more) = f buf)
  | early (hret : (f buf).ret = -2)

theorem afterStatus_answers (maxHeaders : Nat) (status : Int) (buf : Bytes) :
    Answers (afterStatus maxHeaders status) buf
      (∃ msg cr lines cr' rest, Text msg ∧ Starts lines ∧ lines.length ≤ maxHeaders ∧
        buf = msg ++ (lineEnd cr ++ (renderLines lines ++ (lineEnd cr' ++ rest)))) := by
  have htoken : ∀ more, Steady (-1) (-2) (behind more) (getTokenToEol 13 13 buf)
      (getTokenToEol 13 13 (buf ++ more)) := getTokenToEol_steady buf
  cases hmsg : getTokenToEol 13 13 buf with
  | error r =>
      have hbuf : afterStatus maxHeaders status buf = ⟨r, status, ⟨0, 0⟩, []⟩ := by
        rw [afterStatus, hmsg]
      rw [hmsg] at htoken
      by_cases hr : r = -2
      · exact .early (hbuf ▸ hr)
      · refine .malformed (hbuf ▸ ((htoken []).error_cases.resolve_right hr).1) fun more => ?_
        obtain ⟨rfl, hmore⟩ := (htoken more).error_cases.resolve_right hr
        rw [hbuf, afterStatus, hmore]
  | ok x =>
      obtain ⟨v, pos, rest⟩ := x
      have hlines : ∀ more, Stands (-1) (-2) (parseHeaders maxHeaders [] pos rest)
          (parseHeaders maxHeaders [] pos (rest ++ more)) := fun more =>
        parseHeaders_stands rest more
      cases hheaders : parseHeaders maxHeaders [] pos rest with
      | mk headers answer =>
          cases answer with
          | ok pos' =>
              obtain ⟨msg, cr, htext, rfl⟩ := token_of_ok hmsg
              obtain ⟨lines, cr', rest', hroom, hstarts, rfl⟩ := lines_of_ok hheaders
              exact .reads ⟨msg, cr, lines, cr', rest', htext, hstarts.resolve_left (absurd rfl),
                hroom, rfl⟩
          | error r =>
              have hbuf : afterStatus maxHeaders status buf = ⟨r, status, v, headers⟩ := by
                rw [afterStatus, hmsg]
                dsimp only
                rw [hheaders]
              rw [hmsg] at htoken
              rw [hheaders] at hlines
              by_cases hr : r = -2
              · exact .early (hbuf ▸ hr)
              · refine .malformed (hbuf ▸ ((hlines []).error_cases.resolve_right hr).1)
                  fun more => ?_
                obtain ⟨rfl, hmore⟩ := (hlines more).error_cases.resolve_right hr
                rw [hbuf, afterStatus, (htoken more).eq_of_ok]
                dsimp only [behind]
                rw [hmore]

theorem expectSpace_answers {bad : PhrResult} {f : Bytes → PhrResult} {buf : Bytes}
    {accepted : Bytes → Prop} (hbad : bad.ret = -1) (hbuf : buf ≠ [])
    (hf : ∀ bs, Answers f bs (accepted bs)) :
    Answers (expectSpace bad f) buf (∃ bs, buf = 32 :: bs ∧ accepted bs) := by
  obtain ⟨c, bs, rfl⟩ := List.exists_cons_of_ne_nil hbuf
  by_cases hc : c ≠ 32
  · have hno : ∀ bs, expectSpace bad f (c :: bs) = bad := fun bs => if_pos hc
    exact .malformed ((hno bs).symm ▸ hbad) fun more => (hno (bs ++ more)).trans (hno bs).symm
  · have hgo : ∀ bs, expectSpace bad f (c :: bs) = f bs := fun bs => if_neg hc
    rw [not_not] at hc
    cases hf bs with
    | reads h => exact .reads ⟨bs, by rw [hc], h⟩
    | malformed hret hmore =>
        refine .malformed ((hgo bs).symm ▸ hret) fun more => ?_
        rw [List.cons_append, hgo, hgo, hmore]
    | early hret => exact .early ((hgo bs).symm ▸ hret)

theorem afterSpace_answers (maxHeaders : Nat) (buf : Bytes) :
    Answers (afterSpace maxHeaders) buf
      (∃ a b c msg cr lines cr' rest, isDigit a = true ∧ isDigit b = true ∧ isDigit c = true ∧
        Text msg ∧ Starts lines ∧ lines.length ≤ maxHeaders ∧
        buf = a :: b :: c :: 32 ::
          (msg ++ (lineEnd cr ++ (renderLines lines ++ (lineEnd cr' ++ rest))))) := by
  by_cases hshort : buf.length < 4
  · exact .early (by rw [afterSpace, if_pos hshort])
  · have hlong : ∀ more, ¬ (buf ++ more).length < 4 := by
      intro more
      rw [List.length_append]
      omega
    rcases parseInt3_stands (Nat.le_of_not_lt hshort) [] with ⟨status, rest, hok, -⟩ | ⟨status, hbad, -⟩
    · obtain ⟨a, b, c, ha, hb, hc, rfl⟩ := status_of_ok hok
      have hnow : ∀ more, afterSpace maxHeaders (a :: b :: c :: rest ++ more)
          = expectSpace ⟨-1, digitsStatus a b c, ⟨0, 0⟩, []⟩
              (afterStatus maxHeaders (digitsStatus a b c)) (rest ++ more) := by
        intro more
        rw [afterSpace, if_neg (hlong more)]
        show (match parseInt3 (a :: b :: c :: (rest ++ more)) with
          | (status, .error r) => _ | (status, .ok rest) => _) = _
        rw [parseInt3_render ha hb hc]
      have hsome : rest ≠ [] := by
        rintro rfl
        exact hshort (Nat.lt_succ_self 3)
      have hnil := hnow []
      rw [List.append_nil, List.append_nil] at hnil
      have hanswers : Answers (expectSpace ⟨-1, digitsStatus a b c, ⟨0, 0⟩, []⟩ _) rest _ :=
        expectSpace_answers rfl hsome (afterStatus_answers maxHeaders (digitsStatus a b c))
      cases hanswers with
      | reads h =>
          obtain ⟨bs, rfl, msg, cr, lines, cr', rest', htext, hstarts, hroom, rfl⟩ := h
          exact .reads ⟨a, b, c, msg, cr, lines, cr', rest', ha, hb, hc, htext, hstarts, hroom, rfl⟩
      | malformed hret hmore =>
          refine .malformed (hnil.symm ▸ hret) fun more => ?_
          rw [hnow, hnil, hmore]
      | early hret => exact .early (hnil.symm ▸ hret)
    · have hnow : ∀ more, afterSpace maxHeaders (buf ++ more) = ⟨-1, status, ⟨0, 0⟩, []⟩ := by
        intro more
        rw [afterSpace, if_neg (hlong more)]
        rcases parseInt3_stands (Nat.le_of_not_lt hshort) more with
          ⟨_, _, hok, -⟩ | ⟨status', hbad', hmore⟩
        · rw [hbad] at hok
          cases (Prod.mk.inj hok).2
        · rw [hbad] at hbad'
          cases hbad'
          rw [hmore]
      have hnil := hnow []
      rw [List.append_nil] at hnil
      exact .malformed (hnil.symm ▸ rfl) fun more => (hnow more).trans hnil.symm

theorem phrParseResponse_answers (maxHeaders : Nat) (buf : Bytes) :
    Answers (phrParseResponse maxHeaders) buf
      (∃ (head : ResponseHead) (rest : Bytes), head.lines.length ≤ maxHeaders ∧
        buf = head.render ++ rest) := by
  have hversion := parseHttpVersion_steady buf
  cases hrest : parseHttpVersion buf with
  | error r =>
      have hbuf : phrParseResponse maxHeaders buf = ⟨r, 0, ⟨0, 0⟩, []⟩ := by
        rw [phrParseResponse, hrest]
      rw [hrest] at hversion
      by_cases hr : r = -2
      · exact .early (hbuf ▸ hr)
      · refine .malformed (hbuf ▸ ((hversion []).error_cases.resolve_right hr).1) fun more => ?_
        obtain ⟨rfl, hmore⟩ := (hversion more).error_cases.resolve_right hr
        rw [hbuf, phrParseResponse, hmore]
  | ok rest =>
      rw [hrest] at hversion
      have hnow : phrParseResponse maxHeaders buf = _ := phrParseResponse_version hrest
      obtain ⟨minor, hminor, hsome, rfl⟩ := version_of_ok hrest
      have hanswers : Answers (expectSpace ⟨-1, 0, ⟨0, 0⟩, []⟩ _) rest _ :=
        expectSpace_answers rfl hsome (afterSpace_answers maxHeaders)
      cases hanswers with
      | reads h =>
          obtain ⟨bs, rfl, a, b, c, msg, cr, lines, cr', rest', ha, hb, hc, htext, hstarts, hroom,
            rfl⟩ := h
          refine .reads ⟨⟨⟨minor, a, b, c, msg, cr, hminor, ha, hb, hc, htext⟩, lines, cr',
            hstarts⟩, rest', hroom, ?_⟩
          simp only [ResponseHead.render, StatusLine.render, List.append_assoc, List.cons_append]
      | malformed hret hmore =>
          refine .malformed (hnow ▸ hret) fun more => ?_
          rw [phrParseResponse_version (hversion more).eq_of_ok, hmore, hnow]
      | early hret => exact .early (hnow ▸ hret)

end Head

/-! ## What is found -/

theorem slice_middle (l m r : Bytes) : slice (l ++ (m ++ r)) ⟨l.length, m.length⟩ = m := by
  show ((l ++ (m ++ r)).drop l.length).take m.length = m
  rw [List.drop_left, List.take_left]

theorem slice_header (l r : Bytes) (line : HeaderLine) :
    (slice (l ++ (line.render ++ r)) (line.header l.length).name,
      slice (l ++ (line.render ++ r)) (line.header l.length).value) = line.field := by
  cases line with
  | named name blanks value cr =>
      have hname : l ++ ((name ++ 58 :: (blanks ++ (value ++ lineEnd cr))) ++ r)
          = l ++ (name ++ (58 :: (blanks ++ (value ++ (lineEnd cr ++ r))))) := by
        simp only [List.append_assoc, List.cons_append]
      have hvalue : l ++ ((name ++ 58 :: (blanks ++ (value ++ lineEnd cr))) ++ r)
          = (l ++ (name ++ 58 :: blanks)) ++ (value ++ (lineEnd cr ++ r)) := by
        simp only [List.append_assoc, List.cons_append]
      have hpos : l.length + name.length + 1 + blanks.length
          = (l ++ (name ++ 58 :: blanks)).length := by
        simp only [List.length_append, List.length_cons]
        omega
      refine Prod.ext ?_ ?_
      · show slice (l ++ ((name ++ 58 :: (blanks ++ (value ++ lineEnd cr))) ++ r)) _ = name
        rw [hname]
        exact slice_middle _ _ _
      · show slice (l ++ ((name ++ 58 :: (blanks ++ (value ++ lineEnd cr))) ++ r))
          ⟨l.length + name.length + 1 + blanks.length, value.length⟩ = value
        rw [hvalue, hpos]
        exact slice_middle _ _ _
  | folded first text cr =>
      have hvalue : l ++ ((first :: (text ++ lineEnd cr)) ++ r)
          = l ++ ((first :: text) ++ (lineEnd cr ++ r)) := by
        simp only [List.append_assoc, List.cons_append]
      refine Prod.ext rfl ?_
      show slice (l ++ ((first :: (text ++ lineEnd cr)) ++ r)) ⟨l.length, (first :: text).length⟩ = _
      rw [hvalue]
      exact slice_middle _ _ _

/-- The headers of a head are the fields of its lines. -/
theorem slice_headersFrom (l r : Bytes) (lines : List HeaderLine) :
    (headersFrom l.length lines).map (fun h =>
        (slice (l ++ (renderLines lines ++ r)) h.name, slice (l ++ (renderLines lines ++ r)) h.value))
      = lines.map HeaderLine.field := by
  induction lines generalizing l with
  | nil => rfl
  | cons line lines ih =>
      have hsplit : l ++ (renderLines (line :: lines) ++ r)
          = (l ++ line.render) ++ (renderLines lines ++ r) := by
        rw [renderLines_cons, List.append_assoc, List.append_assoc]
      rw [headersFrom, List.map_cons, List.map_cons, hsplit, ← List.length_append, ih,
        List.append_assoc, slice_header]

/-- The answer of `phr` to `buf` is the one that `head` asks for. -/
structure ReadsHead (phr : Bytes → PhrResult) (buf : Bytes) (head : ResponseHead) : Prop where
  ret_eq : (phr buf).ret = head.render.length
  status_eq : (phr buf).status = head.status.status
  msg_eq : slice buf (phr buf).msg = head.status.msg
  fields_eq : fields phr buf = head.lines.map HeaderLine.field

theorem readsHead_render {maxHeaders : Nat} {head : ResponseHead} {rest : Bytes}
    (hroom : head.lines.length ≤ maxHeaders) (hsmall : head.render.length < 2 ^ 31) :
    ReadsHead (phrParseResponse maxHeaders) (head.render ++ rest) head := by
  have hparsed := phrParseResponse_render hroom rest
  constructor
  · rw [hparsed, toInt_small hsmall]
  · rw [hparsed]
  · obtain ⟨⟨minor, a, b, c, msg, cr, hminor, ha, hb, hc, hmsg⟩, lines, cr', hstarts⟩ := head
    have hsplit : ResponseHead.render ⟨⟨minor, a, b, c, msg, cr, hminor, ha, hb, hc, hmsg⟩, lines,
          cr', hstarts⟩ ++ rest
        = (httpOne ++ [minor, 32, a, b, c, 32]) ++
            (msg ++ (lineEnd cr ++ (renderLines lines ++ (lineEnd cr' ++ rest)))) := by
      simp only [ResponseHead.render, StatusLine.render, List.append_assoc, List.cons_append,
        List.nil_append]
    rw [hparsed, hsplit]
    exact slice_middle _ _ _
  · rw [fields, hparsed, ResponseHead.render, List.append_assoc, List.append_assoc]
    exact slice_headersFrom _ _ _

/-- **HEADS**: what is accepted is exactly a head with room for its lines, and then the
    status, the message and the fields are the ones that it was written with. -/
theorem response_heads_accepted (maxHeaders : Nat) (buf : Bytes) (hbuf : buf.length < 2 ^ 31) :
    (0 ≤ (phrParseResponse maxHeaders buf).ret ↔
      ∃ (head : ResponseHead) (rest : Bytes), head.lines.length ≤ maxHeaders ∧
        buf = head.render ++ rest) ∧
    ∀ (head : ResponseHead) (rest : Bytes), head.lines.length ≤ maxHeaders →
      buf = head.render ++ rest → ReadsHead (phrParseResponse maxHeaders) buf head := by
  have hreads : ∀ (head : ResponseHead) (rest : Bytes), head.lines.length ≤ maxHeaders →
      buf = head.render ++ rest → ReadsHead (phrParseResponse maxHeaders) buf head := by
    rintro head rest hroom rfl
    rw [List.length_append] at hbuf
    exact readsHead_render hroom (by omega)
  refine ⟨⟨?_, ?_⟩, hreads⟩
  · intro hret
    cases phrParseResponse_answers maxHeaders buf with
    | reads h => exact h
    | malformed hbad _ => omega
    | early hearly => omega
  · rintro ⟨head, rest, hroom, hsplit⟩
    rw [(hreads head rest hroom hsplit).ret_eq]
    exact Int.natCast_nonneg _

/-- `"HTTP/1.0 200 ok\n"` -/
def okLine : StatusLine where
  minor := 48
  hundreds := 50
  tens := 48
  ones := 48
  msg := [111, 107]
  cr := false
  minor_digit := by decide
  hundreds_digit := by decide
  tens_digit := by decide
  ones_digit := by decide
  msg_text := List.forall_mem_cons.mpr ⟨by decide, List.forall_mem_singleton.mpr (by decide)⟩

theorem space_blank : ∀ c ∈ [(32 : UInt8)], isBlank c = true := List.all_eq_true.mp rfl

/-- `"HTTP/1.0 200 ok\na: b\r\n c\n\r\n"` -/
def shortHead : ResponseHead where
  status := okLine
  lines :=
    [.named [97] [32] [98] true (by decide) (List.all_eq_true.mp rfl) space_blank
        (List.forall_mem_singleton.mpr (by decide)) (by rintro _ ⟨⟩; rfl),
      .folded 32 [99] false (by decide) (List.forall_mem_singleton.mpr (by decide))]
  cr := true
  starts := by
    rintro _ ⟨⟩
    trivial

theorem response_heads_accepted_short :
    0 ≤ (phrParseResponse 2 shortHead.render).ret ∧
      ReadsHead (phrParseResponse 2) shortHead.render shortHead := by
  obtain ⟨haccepted, hreads⟩ := response_heads_accepted 2 shortHead.render (by decide)
  have hsplit : shortHead.render = shortHead.render ++ [] := (List.append_nil _).symm
  exact ⟨haccepted.mpr ⟨shortHead, [], by decide, hsplit⟩,
    hreads shortHead [] (by decide) hsplit⟩

end CoioHttpGrammar
