import Coio.HttpGrammarProofs

/-! # `phr_parse_response` while the head is still arriving

    A caller that reads from a socket parses again each time something has come, and
    passes the length of what it had before as `last_len`.  The parser then first looks
    for a blank line, only from a little before that length on, and parses from the
    beginning once it has found one.

    The short look loses nothing.  A head ends in a blank line and holds no carriage
    return that is not part of a line end; so if the head was not there before, the look
    meets its end (`completeFrom_ok`).  And what the look refuses is not the beginning of
    any head (`completeFrom_bare`). -/

namespace CoioHttpIncremental

open CoioStreamBuffer CoioHttpParser CoioHttpGrammar

/-! ## The source -/

/-- The loop of `is_complete`; `retCnt` line ends stand directly before. -/
def completeFrom : Nat → Bytes → Except Int Bytes
  | _, [] => .error (-2)
  | retCnt, c :: rest =>
      if c = 13 then
        match rest with
        | [] => .error (-2)
        | c' :: rest' =>
            if c' = 10 then
              if retCnt + 1 = 2 then .ok rest' else completeFrom (retCnt + 1) rest'
            else .error (-1)
      else if c = 10 then
        if retCnt + 1 = 2 then .ok rest else completeFrom (retCnt + 1) rest
      else completeFrom 0 rest

/-- `is_complete`. -/
def isComplete (lastLen : Nat) (buf : Bytes) : Except Int Bytes :=
  completeFrom 0 (if lastLen < 3 then buf else buf.drop (lastLen - 3))

/-- `phr_parse_response`. -/
def phrParseResponseLast (maxHeaders lastLen : Nat) (buf : Bytes) : PhrResult :=
  if lastLen ≠ 0 then
    match isComplete lastLen buf with
    | .error r => ⟨r, 0, ⟨0, 0⟩, []⟩
    | .ok _ => phrParseResponse maxHeaders buf
  else phrParseResponse maxHeaders buf

/-- A caller that has `seen` some bytes, and parses after each piece until there is an
    answer; `none` when all pieces are used up. -/
def parsePieces (maxHeaders : Nat) : Bytes → List Bytes → Option PhrResult
  | _, [] => none
  | seen, piece :: pieces =>
      if (phrParseResponseLast maxHeaders seen.length (seen ++ piece)).ret = -2 then
        parsePieces maxHeaders (seen ++ piece) pieces
      else some (phrParseResponseLast maxHeaders seen.length (seen ++ piece))

/-! ## Line ends -/

/-- Every carriage return is part of a line end. -/
def NoBareCr (bs : Bytes) : Prop := ∀ c, [13, c] <:+: bs → c = 10

theorem NoBareCr.of_part {bs bs' : Bytes} (h : NoBareCr bs) (hsub : bs' <:+: bs) : NoBareCr bs' :=
  fun c hc => h c (hc.trans hsub)

theorem NoBareCr.tail {c : UInt8} {bs : Bytes} (h : NoBareCr (c :: bs)) : NoBareCr bs :=
  h.of_part (List.suffix_cons c bs).isInfix

theorem noBareCr_of_not_mem {bs : Bytes} (h : 13 ∉ bs) : NoBareCr bs := fun _ hc =>
  absurd (hc.subset List.mem_cons_self) h

/-- Parts that do not end in a carriage return can be put together. -/
theorem NoBareCr.append {bs bs' : Bytes} (h : NoBareCr bs) (hend : bs.getLast? ≠ some 13)
    (h' : NoBareCr bs') : NoBareCr (bs ++ bs') := by
  induction bs with
  | nil => exact h'
  | cons c bs ih =>
      intro x hx
      rw [List.cons_append, List.infix_cons_iff] at hx
      rcases hx with hstart | hlater
      · rw [List.cons_prefix_cons] at hstart
        obtain ⟨rfl, hnext⟩ := hstart
        cases bs with
        | nil => exact absurd rfl hend
        | cons c' bs =>
            rw [List.cons_append, List.cons_prefix_cons] at hnext
            obtain ⟨rfl, -⟩ := hnext
            exact h x ⟨[], bs, rfl⟩
      · refine ih h.tail ?_ x hlater
        cases bs with
        | nil => simp
        | cons c' bs => rwa [List.getLast?_cons_cons] at hend

theorem noBareCr_lineEnd (cr : Bool) : NoBareCr (lineEnd cr) := by
  cases cr with
  | false => exact noBareCr_of_not_mem (by decide)
  | true =>
      rintro c ⟨l, r, hsplit⟩
      cases l with
      | nil =>
          cases hsplit
          rfl
      | cons a l =>
          have hlf : l ++ [13, c] ++ r = [10] := (List.cons.inj hsplit).2
          have hmem : (13 : UInt8) ∈ [(10 : UInt8)] := by
            rw [← hlf]
            simp
          exact absurd hmem (by decide)

theorem getLast?_lineEnd (bs : Bytes) (cr : Bool) : (bs ++ lineEnd cr).getLast? = some 10 := by
  cases cr <;> simp [lineEnd]

/-- Text and the end of its line. -/
theorem noBareCr_line {text : Bytes} (htext : 13 ∉ text) (cr : Bool) :
    NoBareCr (text ++ lineEnd cr) := by
  refine (noBareCr_of_not_mem htext).append ?_ (noBareCr_lineEnd cr)
  intro hlast
  exact htext (List.mem_of_getLast? hlast)

theorem text_no_cr {bs : Bytes} (h : Text bs) : 13 ∉ bs := by
  intro hmem
  exact absurd (h 13 hmem) (by decide)

theorem headerLine_eq (line : HeaderLine) :
    ∃ text cr, 13 ∉ text ∧ line.render = text ++ lineEnd cr := by
  cases line with
  | named name blanks value cr hsome hname hblanks hvalue =>
      refine ⟨name ++ 58 :: (blanks ++ value), cr, ?_, ?_⟩
      · intro hmem
        rcases List.mem_append.mp hmem with hin | hin
        · exact absurd (hname 13 hin) (by decide)
        · rcases List.mem_append.mp (List.mem_of_ne_of_mem (by decide) hin) with hin | hin
          · exact absurd (hblanks 13 hin) (by decide)
          · exact text_no_cr hvalue hin
      · show name ++ 58 :: (blanks ++ (value ++ lineEnd cr)) = _
        simp only [List.append_assoc, List.cons_append]
  | folded first text cr hfirst htext =>
      exact ⟨first :: text, cr, text_no_cr (text_cons.mpr ⟨isCtl_of_isBlank hfirst, htext⟩), rfl⟩

theorem statusLine_eq (line : StatusLine) :
    ∃ text cr, 13 ∉ text ∧ line.render = text ++ lineEnd cr := by
  obtain ⟨minor, a, b, c, msg, cr, hminor, ha, hb, hc, hmsg⟩ := line
  have hdigit : ∀ {c : UInt8}, isDigit c = true → 13 ≠ c := by
    rintro c hc rfl
    exact absurd hc (by decide)
  refine ⟨httpOne ++ minor :: 32 :: a :: b :: c :: 32 :: msg, cr, ?_, ?_⟩
  · simp only [List.mem_append, List.mem_cons, not_or]
    exact ⟨by decide, hdigit hminor, by decide, hdigit ha, hdigit hb, hdigit hc, by decide,
      text_no_cr hmsg⟩
  · show httpOne ++ minor :: 32 :: a :: b :: c :: 32 :: (msg ++ lineEnd cr) = _
    simp only [List.append_assoc, List.cons_append]

/-- Behind a line that has ended, lines can follow. -/
theorem noBareCr_lines {bs : Bytes} (hbs : NoBareCr bs) (hend : bs.getLast? = some 10)
    (lines : List HeaderLine) :
    NoBareCr (bs ++ renderLines lines) ∧ (bs ++ renderLines lines).getLast? = some 10 := by
  induction lines generalizing bs with
  | nil =>
      rw [show renderLines [] = [] from rfl, List.append_nil]
      exact ⟨hbs, hend⟩
  | cons line lines ih =>
      obtain ⟨text, cr, htext, hline⟩ := headerLine_eq line
      rw [renderLines_cons, ← List.append_assoc, hline]
      refine ih (hbs.append (by simp [hend]) (noBareCr_line htext cr)) ?_
      rw [← List.append_assoc]
      exact getLast?_lineEnd _ cr

/-- A head has no bare carriage return, and ends in a blank line. -/
theorem head_ends (head : ResponseHead) :
    NoBareCr head.render ∧ ∃ pre, head.render = pre ++ 10 :: lineEnd head.cr := by
  obtain ⟨text, cr, htext, hstatus⟩ := statusLine_eq head.status
  obtain ⟨hclean, hlast⟩ := noBareCr_lines (noBareCr_line htext cr) (getLast?_lineEnd text cr)
    head.lines
  rw [ResponseHead.render, ← List.append_assoc, hstatus]
  have hnot : (text ++ lineEnd cr ++ renderLines head.lines).getLast? ≠ some 13 := by
    rw [hlast]
    decide
  refine ⟨hclean.append hnot (noBareCr_lineEnd head.cr), ?_⟩
  obtain ⟨pre, hpre⟩ := List.getLast?_eq_some_iff.mp hlast
  refine ⟨pre, ?_⟩
  rw [hpre, List.append_assoc]
  rfl

/-! ## The look for a blank line -/

section Complete

variable {n : Nat} {c : UInt8} {bs : Bytes}

theorem completeFrom_lf :
    completeFrom n (10 :: bs) = if n + 1 = 2 then .ok bs else completeFrom (n + 1) bs := by
  rw [completeFrom.eq_def]
  rfl

theorem completeFrom_crlf :
    completeFrom n (13 :: 10 :: bs) = if n + 1 = 2 then .ok bs else completeFrom (n + 1) bs := by
  rw [completeFrom.eq_def]
  rfl

theorem completeFrom_other (hcr : c ≠ 13) (hlf : c ≠ 10) :
    completeFrom n (c :: bs) = completeFrom 0 bs := by
  rw [completeFrom.eq_def]
  dsimp only
  rw [if_neg hcr, if_neg hlf]

theorem completeFrom_lineEnd (cr : Bool) : completeFrom 1 (lineEnd cr ++ bs) = .ok bs := by
  cases cr
  · exact completeFrom_lf
  · exact completeFrom_crlf

/-- A blank line is found, or one before it. -/
theorem completeFrom_ok (pre : Bytes) (cr : Bool) (rest : Bytes)
    (hclean : NoBareCr (pre ++ 10 :: lineEnd cr)) (hn : n ≤ 1) :
    ∃ r, completeFrom n (pre ++ 10 :: (lineEnd cr ++ rest)) = .ok r := by
  induction hlength : pre.length using Nat.strong_induction_on generalizing pre n with
  | _ m ih =>
      -- behind a line end: it was the second one, or the look goes on with one more
      have hnext : ∀ pre', pre'.length < m → NoBareCr (pre' ++ 10 :: lineEnd cr) →
          ∃ r, (if n + 1 = 2 then .ok (pre' ++ 10 :: (lineEnd cr ++ rest))
            else completeFrom (n + 1) (pre' ++ 10 :: (lineEnd cr ++ rest))) = .ok r := by
        intro pre' hless hclean'
        by_cases htwo : n + 1 = 2
        · exact ⟨_, if_pos htwo⟩
        · rw [if_neg htwo]
          exact ih _ hless pre' hclean' (by omega) rfl
      have hlast : ∃ r, (if n + 1 = 2 then .ok (lineEnd cr ++ rest)
          else completeFrom (n + 1) (lineEnd cr ++ rest)) = .ok r := by
        by_cases htwo : n + 1 = 2
        · exact ⟨_, if_pos htwo⟩
        · rw [if_neg htwo, show n + 1 = 1 by omega]
          exact ⟨rest, completeFrom_lineEnd cr⟩
      match pre, hclean, hlength with
      | [], _, _ =>
          rw [List.nil_append, completeFrom_lf]
          exact hlast
      | c :: pre, hclean, hlength =>
          rw [List.length_cons] at hlength
          rw [List.cons_append] at hclean ⊢
          by_cases hlf : c = 10
          · rw [hlf, completeFrom_lf]
            exact hnext pre (by omega) hclean.tail
          · by_cases hcr : c = 13
            · subst hcr
              match pre, hclean, hlength with
              | [], _, _ =>
                  rw [List.nil_append, completeFrom_crlf]
                  exact hlast
              | c' :: pre, hclean, hlength =>
                  have hten : c' = 10 := hclean c' ⟨[], _, rfl⟩
                  rw [hten, List.cons_append, completeFrom_crlf]
                  rw [List.length_cons] at hlength
                  exact hnext pre (by omega) hclean.tail.tail
            · rw [completeFrom_other hcr hlf]
              exact ih _ (by omega) pre hclean.tail (Nat.zero_le 1) rfl

/-- What is refused has a bare carriage return. -/
theorem completeFrom_error {r : Int} (h : completeFrom n bs = .error r) :
    r = -2 ∨ r = -1 ∧ ¬ NoBareCr bs := by
  induction hlength : bs.length using Nat.strong_induction_on generalizing bs n with
  | _ m ih =>
      have hlater : ∀ (k : Nat) (bs' : Bytes), bs'.length < m → bs' <:+ bs →
          completeFrom k bs' = .error r → r = -2 ∨ r = -1 ∧ ¬ NoBareCr bs :=
        fun k bs' hless hsub h' =>
        (ih _ hless h' rfl).imp_right fun ⟨hr, hbare⟩ =>
          ⟨hr, fun hclean => hbare (hclean.of_part hsub.isInfix)⟩
      match bs, h, hlength, hlater with
      | [], h, _, _ =>
          rw [completeFrom.eq_def] at h
          cases h
          exact .inl rfl
      | c :: bs, h, hlength, hlater =>
          rw [List.length_cons] at hlength
          by_cases hlf : c = 10
          · rw [hlf, completeFrom_lf] at h
            split at h
            · cases h
            · exact hlater _ _ (by omega) (List.suffix_cons _ _) h
          · by_cases hcr : c = 13
            · subst hcr
              match bs, h, hlength, hlater with
              | [], h, _, _ =>
                  rw [completeFrom.eq_def] at h
                  cases h
                  exact .inl rfl
              | c' :: bs, h, hlength, hlater =>
                  rw [List.length_cons] at hlength
                  by_cases hten : c' = 10
                  · rw [hten, completeFrom_crlf] at h
                    split at h
                    · cases h
                    · exact hlater _ _ (by omega) ⟨[13, c'], rfl⟩ h
                  · rw [completeFrom.eq_def] at h
                    dsimp only at h
                    rw [if_pos rfl, if_neg hten] at h
                    cases h
                    exact .inr ⟨rfl, fun hclean => hten (hclean c' ⟨[], bs, rfl⟩)⟩
            · rw [completeFrom_other hcr hlf] at h
              exact hlater _ _ (by omega) (List.suffix_cons _ _) h

end Complete

/-- The part of the buffer that is looked at. -/
def lookedAt (lastLen : Nat) (buf : Bytes) : Bytes := buf.drop (lastLen - 3)

theorem isComplete_eq (lastLen : Nat) (buf : Bytes) :
    isComplete lastLen buf = completeFrom 0 (lookedAt lastLen buf) := by
  unfold isComplete lookedAt
  split
  · rename_i hlt
    rw [show lastLen - 3 = 0 by omega]
    rfl
  · rfl

/-- The end of a head that was not there before is seen. -/
theorem isComplete_head {head : ResponseHead} {lastLen : Nat} (rest : Bytes)
    (hnew : lastLen < head.render.length) :
    ∃ r, isComplete lastLen (head.render ++ rest) = .ok r := by
  obtain ⟨hclean, pre, hpre⟩ := head_ends head
  have hle : lastLen - 3 ≤ pre.length := by
    have hend : (lineEnd head.cr).length ≤ 2 := by cases head.cr <;> decide
    rw [hpre, List.length_append, List.length_cons] at hnew
    omega
  have hsplit : lookedAt lastLen (head.render ++ rest)
      = pre.drop (lastLen - 3) ++ 10 :: (lineEnd head.cr ++ rest) := by
    rw [lookedAt, hpre, List.append_assoc, List.drop_append_of_le_length hle]
    rfl
  have hclean' : NoBareCr (pre.drop (lastLen - 3) ++ 10 :: lineEnd head.cr) := by
    refine (hpre ▸ hclean).of_part (List.IsSuffix.isInfix ?_)
    rw [← List.drop_append_of_le_length hle]
    exact List.drop_suffix _ _
  rw [isComplete_eq, hsplit]
  exact completeFrom_ok _ _ _ hclean' (Nat.zero_le 1)

/-- A head begins there, with room for its lines. -/
def StartsWithHead (maxHeaders : Nat) (buf : Bytes) : Prop :=
  ∃ (head : ResponseHead) (rest : Bytes), head.lines.length ≤ maxHeaders ∧
    buf = head.render ++ rest

section Pieces

variable {maxHeaders : Nat} {seen piece more : Bytes}

/-- If no head is there yet, one that comes is longer than what is there. -/
theorem longer_of_not_seen {head : ResponseHead} {rest : Bytes}
    (hroom : head.lines.length ≤ maxHeaders) (hseen : ¬ StartsWithHead maxHeaders seen)
    (h : seen ++ more = head.render ++ rest) : seen.length < head.render.length := by
  by_contra hle
  rw [List.append_eq_append_iff] at h
  rcases h with ⟨between, hhead, -⟩ | ⟨between, hhead, -⟩
  · have hnil : between = [] := by
      have hlength := congrArg List.length hhead
      rw [List.length_append] at hlength
      exact List.eq_nil_of_length_eq_zero (by omega)
    rw [hnil, List.append_nil] at hhead
    exact hseen ⟨head, [], hroom, by rw [hhead, List.append_nil]⟩
  · exact hseen ⟨head, between, hroom, hhead⟩

theorem phrParseResponseLast_head {head : ResponseHead} {rest : Bytes}
    (hroom : head.lines.length ≤ maxHeaders) (hseen : ¬ StartsWithHead maxHeaders seen)
    (h : seen ++ piece = head.render ++ rest) :
    phrParseResponseLast maxHeaders seen.length (seen ++ piece)
      = phrParseResponse maxHeaders (seen ++ piece) := by
  unfold phrParseResponseLast
  split
  · obtain ⟨r, hr⟩ := isComplete_head rest (longer_of_not_seen hroom hseen h)
    rw [h, hr]
  · rfl

/-- What the look refuses is not the beginning of a head. -/
theorem isComplete_refuses {r : Int} (hseen : ¬ StartsWithHead maxHeaders seen)
    (h : isComplete seen.length (seen ++ piece) = .error r) :
    r = -2 ∨ r = -1 ∧ ∀ more, ¬ StartsWithHead maxHeaders (seen ++ piece ++ more) := by
  rw [isComplete_eq] at h
  refine (completeFrom_error h).imp_right fun ⟨hr, hbare⟩ => ⟨hr, ?_⟩
  rintro more ⟨head, rest, hroom, hsplit⟩
  have hlonger := longer_of_not_seen hroom hseen ((List.append_assoc ..).symm.trans hsplit)
  rcases List.append_eq_append_iff.mp hsplit with ⟨between, hhead, -⟩ | ⟨between, hhead, -⟩
  · -- the head has not ended: all that was looked at is part of it
    refine hbare ((head_ends head).1.of_part ?_)
    rw [hhead]
    exact (List.drop_suffix _ _).isInfix.trans (List.prefix_append _ _).isInfix
  · -- the head has ended: the look has met its end
    obtain ⟨r', hr'⟩ := isComplete_head between hlonger
    rw [isComplete_eq, ← hhead, h] at hr'
    cases hr'

/-- What is refused does not become a head when more comes. -/
theorem phrParseResponseLast_refuses (hseen : ¬ StartsWithHead maxHeaders seen)
    (hnow : ¬ StartsWithHead maxHeaders (seen ++ piece))
    (hret : (phrParseResponseLast maxHeaders seen.length (seen ++ piece)).ret ≠ -2) :
    (phrParseResponseLast maxHeaders seen.length (seen ++ piece)).ret = -1 ∧
      ∀ more, (seen ++ piece ++ more).length < 2 ^ 31 →
        ¬ StartsWithHead maxHeaders (seen ++ piece ++ more) := by
  have hparsed : (phrParseResponse maxHeaders (seen ++ piece)).ret ≠ -2 →
      (phrParseResponse maxHeaders (seen ++ piece)).ret = -1 ∧
        ∀ more, (seen ++ piece ++ more).length < 2 ^ 31 →
          ¬ StartsWithHead maxHeaders (seen ++ piece ++ more) := by
    intro hne
    cases phrParseResponse_answers maxHeaders (seen ++ piece) with
    | reads h => exact absurd h hnow
    | early hret => exact absurd hret hne
    | malformed hbad hmore =>
        refine ⟨hbad, ?_⟩
        rintro more hsmall ⟨head, rest, hroom, hsplit⟩
        rw [hsplit, List.length_append] at hsmall
        have hread : ReadsHead (phrParseResponse maxHeaders) (head.render ++ rest) head :=
          readsHead_render hroom (by omega)
        have hlength := hread.ret_eq
        rw [← hsplit, hmore more, hbad] at hlength
        omega
  unfold phrParseResponseLast at hret ⊢
  split at hret
  · cases hlook : isComplete seen.length (seen ++ piece) with
    | error r =>
        rw [hlook] at hret
        rw [if_pos ‹_›]
        obtain ⟨hr, hmore⟩ := (isComplete_refuses hseen hlook).resolve_left hret
        exact ⟨hr, fun more _ => hmore more⟩
    | ok _ =>
        rw [hlook] at hret
        rw [if_pos ‹_›]
        exact hparsed hret
  · rw [if_neg ‹_›]
    exact hparsed hret

/-- The caller has seen no head yet. -/
theorem parsePieces_from (pieces : List Bytes) (hseen : ¬ StartsWithHead maxHeaders seen)
    (hsmall : (seen ++ pieces.flatten).length < 2 ^ 31) :
    (StartsWithHead maxHeaders (seen ++ pieces.flatten) →
      parsePieces maxHeaders seen pieces
        = some (phrParseResponse maxHeaders (seen ++ pieces.flatten))) ∧
    ∀ r, parsePieces maxHeaders seen pieces = some r →
      ¬ StartsWithHead maxHeaders (seen ++ pieces.flatten) →
      r.ret = -1 ∧ ∀ more, (seen ++ pieces.flatten ++ more).length < 2 ^ 31 →
        ¬ StartsWithHead maxHeaders (seen ++ pieces.flatten ++ more) := by
  induction pieces generalizing seen with
  | nil =>
      rw [List.flatten_nil, List.append_nil]
      refine ⟨fun h => absurd h hseen, ?_⟩
      intro r hr
      cases hr
  | cons piece pieces ih =>
      rw [List.flatten_cons, ← List.append_assoc] at hsmall ⊢
      rw [parsePieces]
      by_cases hnow : StartsWithHead maxHeaders (seen ++ piece)
      · obtain ⟨head, rest, hroom, hsplit⟩ := hnow
        have hret : (phrParseResponse maxHeaders (seen ++ piece)).ret ≠ -2 := by
          rw [List.length_append, hsplit, List.length_append] at hsmall
          have hread : ReadsHead (phrParseResponse maxHeaders) (head.render ++ rest) head :=
            readsHead_render hroom (by omega)
          rw [hsplit, hread.ret_eq]
          omega
        rw [phrParseResponseLast_head hroom hseen hsplit, if_neg hret, hsplit, List.append_assoc,
          phrParseResponse_render hroom, phrParseResponse_render hroom]
        refine ⟨fun _ => rfl, fun r _ hnot => absurd ⟨head, _, hroom, rfl⟩ hnot⟩
      · by_cases hret : (phrParseResponseLast maxHeaders seen.length (seen ++ piece)).ret = -2
        · rw [if_pos hret]
          exact ih hnow hsmall
        · rw [if_neg hret]
          obtain ⟨hbad, hmore⟩ := phrParseResponseLast_refuses hseen hnow hret
          refine ⟨fun h => absurd h (hmore _ hsmall), ?_⟩
          intro r hr _
          cases hr
          refine ⟨hbad, fun more hsmall' => ?_⟩
          rw [List.append_assoc _ _ more] at hsmall' ⊢
          exact hmore _ hsmall'

end Pieces

/-- **A HEAD IN PIECES**: however a stream is cut, a caller that parses with `last_len`
    after each piece gets the answer that the whole stream would get if a head begins it;
    and what it is told to refuse is no beginning of a head. -/
theorem pieces_read_like_whole (maxHeaders : Nat) (pieces : List Bytes)
    (hsmall : pieces.flatten.length < 2 ^ 31) :
    (StartsWithHead maxHeaders pieces.flatten →
      parsePieces maxHeaders [] pieces = some (phrParseResponse maxHeaders pieces.flatten)) ∧
    ∀ r, parsePieces maxHeaders [] pieces = some r →
      ¬ StartsWithHead maxHeaders pieces.flatten →
      r.ret = -1 ∧ ∀ more, (pieces.flatten ++ more).length < 2 ^ 31 →
        ¬ StartsWithHead maxHeaders (pieces.flatten ++ more) := by
  have hnone : ¬ StartsWithHead maxHeaders [] := by
    rintro ⟨head, rest, -, hsplit⟩
    obtain ⟨-, pre, hpre⟩ := head_ends head
    have hlength := congrArg List.length hsplit
    rw [hpre, List.length_append, List.length_append, List.length_cons, List.length_nil] at hlength
    omega
  exact parsePieces_from pieces hnone hsmall

/-- The line end of the blank line comes with the last piece. -/
theorem pieces_read_like_whole_short :
    parsePieces 2 [] [shortHead.render.take 20, (shortHead.render.drop 20).dropLast, [10]]
      = some (phrParseResponse 2 shortHead.render) := by
  have hwhole : [shortHead.render.take 20, (shortHead.render.drop 20).dropLast, [10]].flatten
      = shortHead.render := by decide
  have hread := (pieces_read_like_whole 2
    [shortHead.render.take 20, (shortHead.render.drop 20).dropLast, [10]] (by decide)).1
  rw [hwhole] at hread
  exact hread ⟨shortHead, [], by decide, (List.append_nil _).symm⟩

end CoioHttpIncremental
