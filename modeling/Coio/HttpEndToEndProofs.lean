import Coio.HttpIncrementalProofs
import Coio.HttpDecodeProofs
import Coio.HttpHeadProofs

/-! # A response, from the bytes that the server sends to the value of `request`

    Two components have to agree on where a head ends.  `read_until` looks for the first
    CRLFCRLF.  The parser takes any blank line, and also lines that end in a line feed
    alone.  The parser is asked last, and what it returns is only compared with zero.

    For a head that ends in CRLFCRLF they do agree, since no line of a head is empty
    (`cut_written`).  Then the response is the one that was sent, however the stream is
    cut.  For any other head, the bytes between its end and the next CRLFCRLF are lost, and
    the body is read from behind them. -/

namespace CoioHttpEndToEnd

open CoioStreamBuffer CoioHttpParser CoioHttpRead CoioHttpMessage CoioHttpClient CoioHttpRequest
open CoioHttpHead CoioHttpHeader CoioHttpGrammar CoioHttpIncremental CoioHttpDecode CoioProg
open CoioSearch

/-! ## Where a head ends -/

/-- Lines with their ends. -/
def written (ls : List (Bytes × Bool)) : Bytes := ls.flatMap fun l => l.1 ++ lineEnd l.2

def Proper (l : Bytes × Bool) : Prop := l.1 ≠ [] ∧ 13 ∉ l.1

section Written

variable {l : Bytes × Bool} {ls : List (Bytes × Bool)} {t a c : Bytes}

theorem written_cons : written (l :: ls) = l.1 ++ (lineEnd l.2 ++ written ls) := by
  show (l.1 ++ lineEnd l.2) ++ written ls = _
  rw [List.append_assoc]

/-- What a line begins with. -/
theorem head_written (hl : Proper l) : (written (l :: ls) ++ t).head? ≠ some 13 := by
  obtain ⟨hne, hno⟩ := hl
  rw [written_cons]
  cases htext : l.1 with
  | nil => exact absurd htext hne
  | cons b bs =>
      rw [htext] at hno
      exact fun hb => hno (Option.some.inj hb ▸ List.mem_cons_self)

theorem not_dcrlf_lineEnd {s : Bytes} (hs : s.head? ≠ some 13) (cr : Bool) :
    dcrlf <:+: lineEnd cr ++ s ↔ dcrlf <:+: s := by
  obtain ⟨hno, hno'⟩ := not_dcrlf_crlf hs
  cases cr with
  | true =>
      show dcrlf <:+: 13 :: 10 :: s ↔ _
      rw [List.infix_cons_iff, List.infix_cons_iff, or_iff_right hno, or_iff_right hno']
  | false =>
      show dcrlf <:+: 10 :: s ↔ _
      rw [List.infix_cons_iff, or_iff_right hno']

theorem Cut.lineEnd {s : Bytes} (h : Cut dcrlf s a c) (hs : s.head? ≠ some 13) (cr : Bool) :
    Cut dcrlf (lineEnd cr ++ s) (lineEnd cr ++ a) c := by
  obtain ⟨hno, hno'⟩ := not_dcrlf_crlf hs
  cases cr with
  | true => exact (h.cons hno').cons hno
  | false => exact h.cons hno'

/-- A blank line can only stand behind the last line. -/
theorem infix_written (hls : ∀ l' ∈ ls ++ [l], Proper l') :
    dcrlf <:+: written (ls ++ [l]) ++ t ↔ dcrlf <:+: lineEnd l.2 ++ t := by
  induction ls with
  | nil =>
      have hno := (hls l (List.mem_singleton.mpr rfl)).2
      rw [List.nil_append, written_cons, List.append_assoc]
      show dcrlf <:+: l.1 ++ (lineEnd l.2 ++ [] ++ t) ↔ _
      rw [List.append_nil]
      exact infix_append_left hno
  | cons l' ls ih =>
      obtain ⟨hl', hrest⟩ := List.forall_mem_cons.mp hls
      have hhead : (written (ls ++ [l]) ++ t).head? ≠ some 13 := by
        cases ls with
        | nil => exact head_written (hrest l List.mem_cons_self)
        | cons l'' ls => exact head_written (hrest l'' List.mem_cons_self)
      rw [List.cons_append, written_cons, List.append_assoc, List.append_assoc, ← ih hrest,
        ← not_dcrlf_lineEnd hhead l'.2]
      exact infix_append_left hl'.2

theorem cut_written (hls : ∀ l' ∈ ls ++ [l], Proper l') (h : Cut dcrlf (lineEnd l.2 ++ t) a c) :
    ∃ p, written (ls ++ [l]) = p ++ lineEnd l.2 ∧
      Cut dcrlf (written (ls ++ [l]) ++ t) (p ++ a) c := by
  induction ls with
  | nil =>
      have hno := (hls l (List.mem_singleton.mpr rfl)).2
      have hwritten : written [l] = l.1 ++ lineEnd l.2 := List.append_nil _
      refine ⟨l.1, hwritten, ?_⟩
      rw [List.nil_append, hwritten, List.append_assoc]
      exact h.append hno
  | cons l' ls ih =>
      obtain ⟨hl', hrest⟩ := List.forall_mem_cons.mp hls
      obtain ⟨p, hp, hcut⟩ := ih hrest
      have hhead : (written (ls ++ [l]) ++ t).head? ≠ some 13 := by
        cases ls with
        | nil => exact head_written (hrest l List.mem_cons_self)
        | cons l'' ls => exact head_written (hrest l'' List.mem_cons_self)
      refine ⟨l'.1 ++ (lineEnd l'.2 ++ p), ?_, ?_⟩
      · rw [List.cons_append, written_cons, hp]
        simp only [List.append_assoc]
      · rw [List.cons_append, written_cons]
        simp only [List.append_assoc]
        exact (Cut.lineEnd hcut hhead l'.2).append hl'.2

end Written

/-- A head is lines that are not empty, and a blank one. -/
theorem head_lines (head : ResponseHead) :
    ∃ ls l, (∀ l' ∈ ls ++ [l], Proper l') ∧
      head.render = written (ls ++ [l]) ++ lineEnd head.cr := by
  have hlines : ∃ ls : List (Bytes × Bool), (∀ l' ∈ ls, Proper l') ∧
      renderLines head.lines = written ls := by
    induction head.lines with
    | nil => exact ⟨[], List.forall_mem_nil _, rfl⟩
    | cons line lines ih =>
        obtain ⟨ls, hls, hrender⟩ := ih
        obtain ⟨text, cr, htext, hline⟩ := headerLine_eq line
        obtain ⟨c, bs, hstart, hcr, hlf⟩ := line_start line
        have hne : text ≠ [] := by
          rintro rfl
          rw [hstart] at hline
          cases cr
          · exact hlf (List.cons.inj hline).1
          · exact hcr (List.cons.inj hline).1
        refine ⟨(text, cr) :: ls, List.forall_mem_cons.mpr ⟨⟨hne, htext⟩, hls⟩, ?_⟩
        rw [renderLines_cons, hline, hrender, written_cons, List.append_assoc]
  obtain ⟨ls, hls, hrender⟩ := hlines
  obtain ⟨text, cr, htext, hstatus⟩ := statusLine_eq head.status
  have hne : text ≠ [] := by
    rintro rfl
    have hfirst : head.status.render.head? = some 72 := rfl
    rw [hstatus] at hfirst
    cases cr
    · cases hfirst
    · cases hfirst
  have hall : ∀ l' ∈ (text, cr) :: ls, Proper l' := List.forall_mem_cons.mpr ⟨⟨hne, htext⟩, hls⟩
  have hhead : head.render = written ((text, cr) :: ls) ++ lineEnd head.cr := by
    rw [ResponseHead.render, hstatus, hrender, written_cons]
    simp only [List.append_assoc]
  rcases List.eq_nil_or_concat ((text, cr) :: ls) with hnil | ⟨ls', l, hconcat⟩
  · cases hnil
  · rw [List.concat_eq_append] at hconcat
    rw [hconcat] at hall hhead
    exact ⟨ls', l, hall, hhead⟩

/-- A head that holds a CRLFCRLF ends in one, and holds no other. -/
theorem head_around {head : ResponseHead} (h : dcrlf <:+: head.render) :
    ∃ p, head.render = p ++ dcrlf ∧ ∀ rest, Cut dcrlf (head.render ++ rest) p rest := by
  obtain ⟨ls, l, hls, hhead⟩ := head_lines head
  have hboth : l.2 = true ∧ head.cr = true := by
    have hin : dcrlf <:+: lineEnd l.2 ++ lineEnd head.cr := (infix_written hls).mp (hhead ▸ h)
    revert hin
    cases l.2 <;> cases head.cr <;> decide
  obtain ⟨hl, hcr⟩ := hboth
  have hcut : ∀ rest, Cut dcrlf (lineEnd l.2 ++ (lineEnd head.cr ++ rest)) [] rest := by
    intro rest
    rw [hl, hcr]
    exact cut_nil dcrlf rest
  obtain ⟨p, hp, -⟩ := cut_written hls (hcut [])
  refine ⟨p, ?_, ?_⟩
  · rw [hhead, hp, hl, hcr, List.append_assoc]
    rfl
  · intro rest
    obtain ⟨p', hp', hcut'⟩ := cut_written hls (hcut rest)
    rw [List.append_cancel_right (hp.symm.trans hp'), ← List.append_nil p', hhead,
      List.append_assoc (written _)]
    exact hcut'

/-- **AGREED**: where a head ends in CRLFCRLF, that is the first one. -/
theorem upTo_head {head : ResponseHead} (hend : dcrlf <:+ head.render) (rest : Bytes) :
    upTo dcrlf (head.render ++ rest) = head.render ∧
      find (head.render ++ rest) dcrlf 0 ≠ none := by
  obtain ⟨p, hp, hcut⟩ := head_around hend.isInfix
  have hfind := find_of_cut (hcut rest)
  refine ⟨?_, by rw [hfind]; exact Option.some_ne_none _⟩
  rw [upTo_of_some hfind, ← List.length_append, ← hp, List.take_left]

/-- Where it ends in anything else, the first CRLFCRLF ends behind it. -/
theorem upTo_beyond {head : ResponseHead} (hend : ¬ dcrlf <:+ head.render) {rest : Bytes}
    (hfound : find (head.render ++ rest) dcrlf 0 ≠ none) :
    ∃ lost left, rest = lost ++ left ∧ lost ≠ [] ∧
      upTo dcrlf (head.render ++ rest) = head.render ++ lost := by
  have hsuffix : dcrlf <:+ upTo dcrlf (head.render ++ rest) := suffix_upTo.mpr hfound
  obtain ⟨left, hleft⟩ := upTo_initial dcrlf (head.render ++ rest)
  rcases List.append_eq_append_iff.mp hleft with ⟨more, hhead, -⟩ | ⟨lost, hlost, hrest⟩
  · -- it would lie in the head
    have hin : dcrlf <:+: head.render := by
      rw [hhead]
      exact hsuffix.isInfix.trans (List.prefix_append _ _).isInfix
    obtain ⟨p, hp, -⟩ := head_around hin
    exact absurd ⟨p, hp.symm⟩ hend
  · refine ⟨lost, left, hrest, ?_, hlost⟩
    rintro rfl
    rw [hlost, List.append_nil] at hsuffix
    exact hend hsuffix

/-! ## Requests -/

/-- The client is connected, and neither the `send` nor any `recv` fails. -/
structure Served (s : Session) (req : Req) (server : Server) : Prop where
  connected : Connects s req server
  sends : ∀ c ∈ server.sends, c.Delivers
  recvs : ∀ c ∈ server.recvs, c.Delivers
  length_lt : server.stream.length < 2 ^ 31

/-- The length that a head announces. -/
def ResponseHead.announces (head : ResponseHead) (n : Nat) : Prop :=
  ∃ v, firstValue (head.lines.map HeaderLine.field) contentLength = some v ∧ Number v ∧
    digitsValue v = n

section Requests

variable {s : Session} {req : Req} {server : Server}

/-- All of the stream is delivered. -/
theorem Served.delivered_eq (h : Served s req server) (need : Nat) :
    delivered server need = (server.stream, false) := delivery_whole h.recvs

/-- The request ends as its receiving part does. -/
theorem Served.ends (phr : Bytes → PhrResult) (h : Served s req server) (hs : Unused s) :
    ReceiveEnds phr server (s.run phr req server).1 := by
  have hends := run_ends phr req hs h.length_lt
  generalize s.run phr req server = r at hends ⊢
  generalize r.1 = o at hends ⊢
  cases hends with
  | refused hno => exact absurd h.connected hno
  | unsent e hyes hfails =>
      obtain ⟨code, hcode⟩ := hfails
      exact (h.sends _ (List.mem_of_mem_head? hcode)).elim
  | received o hyes hsent hends => exact hends

/-- There is no CRLFCRLF. -/
theorem Served.without_end {phr : Bytes → PhrResult} (h : Served s req server) (hs : Unused s)
    (hno : ¬ dcrlf <:+: server.stream) :
    (s.run phr req server).1 = .value (.error "http response parse error") := by
  have hmissing : ¬ HeadArrives server := by
    unfold HeadArrives
    rw [h.delivered_eq]
    exact hno
  have hends := h.ends phr hs
  generalize (s.run phr req server).1 = o at hends ⊢
  cases hends with
  | broken e hbroken =>
      have hquiet := congrArg Prod.snd (h.delivered_eq 0)
      exact nomatch hquiet.symm.trans hbroken.1
  | incomplete => rfl
  | badLength e harrives | rejected v harrives | negative v harrives | answered v r harrives =>
      exact absurd harrives hmissing

/-- The head is accepted, and its length is a number. -/
theorem Served.answered {phr : Bytes → PhrResult} (h : Served s req server) (hs : Unused s)
    {n : Nat} (hin : dcrlf <:+: server.stream) (hlength : announced phr (headOf server) = .ok n)
    (hret : (phr (headOf server)).ret ≠ 0) :
    ∃ r, (s.run phr req server).1 = .value (.ok r) ∧ r.bodyLength = n ∧
      r.statusCode = (phr (headOf server)).status ∧
      r.rsp = (server.stream.drop (headOf server).length).take n := by
  have harrives : HeadArrives server := by
    unfold HeadArrives
    rw [h.delivered_eq]
    exact hin
  have hends := h.ends phr hs
  generalize (s.run phr req server).1 = o at hends ⊢
  cases hends with
  | broken e hbroken => exact absurd harrives hbroken.2
  | incomplete hquiet hmissing => exact absurd harrives hmissing
  | badLength e _ herror => exact nomatch hlength.symm.trans herror
  | rejected v _ _ hzero => exact absurd hzero hret
  | negative v _ hv' _ hv =>
      have hsame := Except.ok.inj (hlength.symm.trans hv')
      omega
  | answered v r _ hv' _ hv hannounced hstatus hrsp =>
      have hsame := Except.ok.inj (hlength.symm.trans hv')
      have hbody : r.bodyLength = n := by omega
      refine ⟨r, rfl, hbody, hstatus, ?_⟩
      rw [hrsp, behindHead, h.delivered_eq, hbody]

/-- What the parser says of a string that begins with a head. -/
theorem picoParse_head {head : ResponseHead} (hroom : head.lines.length ≤ numHeaders)
    (hsmall : head.render.length < 2 ^ 31) {n : Nat} (hn : n < 2 ^ 31)
    (hlength : ResponseHead.announces head n) (more : Bytes) :
    announced picoParse (head.render ++ more) = .ok n ∧ (picoParse (head.render ++ more)).ret ≠ 0 ∧
      (picoParse (head.render ++ more)).status = head.status.status := by
  have hreads : ReadsHead picoParse (head.render ++ more) head := readsHead_render hroom hsmall
  obtain ⟨v, hv, hnumber, hvalue⟩ := hlength
  have hfield : lengthField picoParse (head.render ++ more) = some v := by
    rw [← hreads.fields_eq, firstValue, fields, List.find?_map, Option.map_map] at hv
    exact hv
  refine ⟨?_, ?_, hreads.status_eq⟩
  · have hsome : v ≠ [] := hnumber.1
    rw [announced, getHeaderValue_eq, hfield, Option.getD_some, if_neg hsome, stoi_number hnumber,
      hvalue, if_neg (by omega)]
  · rw [hreads.ret_eq]
    obtain ⟨-, pre, hpre⟩ := head_ends head
    rw [hpre, List.length_append, List.length_cons]
    omega

end Requests

/-- **AS SENT**: a connected client whose server sends a head that ends in CRLFCRLF and
    announces the length of the body, the body and anything behind it, gets that status and
    that body, however the bytes are cut into pieces. -/
theorem response_received_as_sent (fd : Nat) (uses : List Use) (req : Req) (server : Server)
    (head : ResponseHead) (body more : Bytes)
    (hserved : Served ((Session.new fd).after picoParse uses) req server)
    (hstream : server.stream = head.render ++ (body ++ more))
    (hroom : head.lines.length ≤ numHeaders) (hend : dcrlf <:+ head.render)
    (hlength : ResponseHead.announces head body.length) :
    ∃ r, (((Session.new fd).after picoParse uses).run picoParse req server).1 = .value (.ok r) ∧
      r.rsp = body ∧ r.bodyLength = body.length ∧ r.statusCode = head.status.status := by
  have hunused := unused_after picoParse uses (unused_new fd)
  have hlen := hserved.length_lt
  have htotal : head.render.length + (body.length + more.length) < 2 ^ 31 := by
    rw [hstream, List.length_append, List.length_append] at hlen
    exact hlen
  obtain ⟨hup, hfound⟩ := upTo_head hend (body ++ more)
  obtain ⟨hannounced, hret, hstatus⟩ :=
    picoParse_head hroom (by omega) (by omega : body.length < 2 ^ 31) hlength []
  rw [List.append_nil] at hannounced hret hstatus
  have hhead : headOf server = head.render := by rw [headOf, hstream, hup]
  have hin : dcrlf <:+: server.stream := by
    rw [hstream]
    exact Classical.not_not.mp (mt find_eq_none_iff.mpr hfound)
  obtain ⟨r, hr, hbody, hcode, hrsp⟩ := hserved.answered hunused hin (hhead.symm ▸ hannounced)
    (hhead.symm ▸ hret)
  refine ⟨r, hr, ?_, hbody, hcode.trans (hhead.symm ▸ hstatus)⟩
  rw [hrsp, hhead, hstream, List.drop_left, List.take_left]

/-- A head that announces five bytes; `cr` is about the end of its last two lines. -/
def fiveHead (cr : Bool) : ResponseHead where
  status := { okLine with cr := true }
  lines :=
    [.named lengthName [32] [53] cr (by decide) (List.all_eq_true.mp rfl) space_blank
      (List.forall_mem_singleton.mpr (by decide)) (by rintro _ ⟨⟩; rfl)]
  cr := cr
  starts := by
    rintro _ ⟨⟩
    trivial

theorem fiveHead_announces (cr : Bool) : ResponseHead.announces (fiveHead cr) 5 :=
  ⟨[53], rfl, by decide, rfl⟩

/-- A server that is reached at once and sends `stream` in pieces of one and of nine bytes. -/
def pieceByPiece (stream : Bytes) : Server :=
  { replies stream with recvs := [.take 1, .take 9] }

theorem pieceByPiece_served {stream : Bytes} (h : stream.length < 2 ^ 31) :
    Served ((Session.new 3).after picoParse []) getRoot (pieceByPiece stream) where
  connected := connects_asked.mpr ⟨_, rfl⟩
  sends := by
    show ∀ c ∈ ([] : List Choice), c.Delivers
    decide
  recvs := by
    show ∀ c ∈ [Choice.take 1, Choice.take 9], c.Delivers
    decide
  length_lt := h

theorem response_received_as_sent_five :
    ∃ r, (((Session.new 3).after picoParse []).run picoParse getRoot
        (pieceByPiece ((fiveHead true).render ++ ([13, 10, 13, 10, 33] ++ [97])))).1
          = .value (.ok r) ∧
      r.rsp = [13, 10, 13, 10, 33] ∧ r.bodyLength = 5 ∧ r.statusCode = 200 :=
  response_received_as_sent 3 [] getRoot _ (fiveHead true) [13, 10, 13, 10, 33] [97]
    (pieceByPiece_served (by decide)) rfl (by decide) (by decide) (fiveHead_announces true)

/-- **LOST**: if the head ends in any other way, the client waits for a CRLFCRLF behind it.
    When none comes, the request fails.  When one comes, all bytes up to its end are lost,
    and the body is what follows. -/
theorem bytes_lost_behind_head (fd : Nat) (uses : List Use) (req : Req) (server : Server)
    (head : ResponseHead) (rest : Bytes) (n : Nat)
    (hserved : Served ((Session.new fd).after picoParse uses) req server)
    (hstream : server.stream = head.render ++ rest) (hroom : head.lines.length ≤ numHeaders)
    (hend : ¬ dcrlf <:+ head.render) (hlength : ResponseHead.announces head n) (hn : n < 2 ^ 31) :
    (¬ dcrlf <:+: server.stream ∧
      (((Session.new fd).after picoParse uses).run picoParse req server).1
        = .value (.error "http response parse error")) ∨
    ∃ lost left r, rest = lost ++ left ∧ lost ≠ [] ∧ dcrlf <:+ head.render ++ lost ∧
      (((Session.new fd).after picoParse uses).run picoParse req server).1 = .value (.ok r) ∧
      r.rsp = left.take n ∧ r.bodyLength = n ∧ r.statusCode = head.status.status := by
  have hunused := unused_after picoParse uses (unused_new fd)
  have hlen := hserved.length_lt
  have htotal : head.render.length + rest.length < 2 ^ 31 := by
    rw [hstream, List.length_append] at hlen
    exact hlen
  by_cases hin : dcrlf <:+: server.stream
  · have hfound : find (head.render ++ rest) dcrlf 0 ≠ none :=
      fun hnone => find_eq_none_iff.mp hnone (hstream ▸ hin)
    obtain ⟨lost, left, hrest, hne, hup⟩ := upTo_beyond hend hfound
    have hsuffix : dcrlf <:+ head.render ++ lost := hup ▸ suffix_upTo.mpr hfound
    obtain ⟨hannounced, hret, hstatus⟩ := picoParse_head hroom (by omega) hn hlength lost
    have hhead : headOf server = head.render ++ lost := by rw [headOf, hstream, hup]
    obtain ⟨r, hr, hbody, hcode, hrsp⟩ := hserved.answered hunused hin (hhead.symm ▸ hannounced)
      (hhead.symm ▸ hret)
    refine .inr ⟨lost, left, r, hrest, hne, hsuffix, hr, ?_, hbody,
      hcode.trans (hhead.symm ▸ hstatus)⟩
    rw [hrsp, hhead, hstream, hrest, ← List.append_assoc, List.drop_left]
  · exact .inl ⟨hin, hserved.without_end hunused hin⟩

/-- Lines that end in a line feed alone, and a body with a CRLFCRLF in its middle. -/
theorem bytes_lost_behind_head_five :
    ¬ dcrlf <:+ (fiveHead false).render ∧
    ((¬ dcrlf <:+: (fiveHead false).render ++ [97, 13, 10, 13, 10, 98] ∧
      (((Session.new 3).after picoParse []).run picoParse getRoot
        (pieceByPiece ((fiveHead false).render ++ [97, 13, 10, 13, 10, 98]))).1
        = .value (.error "http response parse error")) ∨
    ∃ lost left r, [97, 13, 10, 13, 10, 98] = lost ++ left ∧ lost ≠ [] ∧
      dcrlf <:+ (fiveHead false).render ++ lost ∧
      (((Session.new 3).after picoParse []).run picoParse getRoot
        (pieceByPiece ((fiveHead false).render ++ [97, 13, 10, 13, 10, 98]))).1 = .value (.ok r) ∧
      r.rsp = left.take 5 ∧ r.bodyLength = 5 ∧ r.statusCode = (fiveHead false).status.status) :=
  ⟨by decide, bytes_lost_behind_head 3 [] getRoot _ (fiveHead false) [97, 13, 10, 13, 10, 98] 5
    (pieceByPiece_served (by decide)) rfl (by decide) (by decide) (fiveHead_announces false)
    (by decide)⟩

end CoioHttpEndToEnd
