import Coio.HttpClientProofs

/-! # `http_client` over many requests

    A client lives on between requests: its socket, its buffer and its parser are
    made once.  `Session` is such a client, used any number of times, each time
    against a server of its own.

    Three facts carry the results.  `request_log` says which calls a request makes
    and that it closes the socket exactly if it has connected.  `Unused` says that
    a socket which is still open belongs to a client that has read nothing.
    `run_ends` says how a request ends, from the request and from what its server
    answers, accepts and delivers; nothing in it is read off the run.

    From them: what a response lacks, which heads are accepted, how much of a
    request is sent, and which failures leave `request` as exceptions. -/

namespace CoioHttpRequest

open CoioStreamBuffer CoioHttpParser CoioHttpRead CoioHttpMessage CoioHttpClient CoioProg CoioSearch

/-! ## Sessions -/

structure Req where
  method : HttpMethod
  url : Bytes
  body : Bytes
  deriving DecidableEq

/-- A client, with the strings its views point into. -/
structure Session where
  client : HttpClient
  strings : List (Option Bytes)
  deriving DecidableEq

inductive Use where
  | addHeader (k v : Bytes)
  | request (req : Req) (server : Server)

namespace Session

/-- A new client on the socket `fd`. -/
def new (fd : Nat) : Session := ⟨HttpClient.init fd, []⟩

def meets (s : Session) (server : Server) : World := ⟨s.client, s.strings, server, []⟩

/-- One request: its result, and the world behind it. -/
def run (phr : Bytes → PhrResult) (s : Session) (req : Req) (server : Server) :
    Outcome Exn Result × World :=
  request phr req.method req.url req.body (s.meets server)

def use (phr : Bytes → PhrResult) (s : Session) : Use → Session
  | .addHeader k v =>
      { s with client := { s.client with mHeaders := addHeader k v s.client.mHeaders } }
  | .request req server =>
      ⟨(s.run phr req server).2.client, (s.run phr req server).2.strings⟩

def after (phr : Bytes → PhrResult) : Session → List Use → Session
  | s, [] => s
  | s, u :: uses => after phr (s.use phr u) uses

end Session

/-! ## The calls of a request -/

/-- The call that the one `send` makes. -/
def firstSend (sends : List Choice) (msg : Bytes) : Call :=
  match sends.headD (.take (msg.length % 2 ^ 32)) with
  | .fail _ => .sendFailed
  | .take n => .send (msg.take (amount n (msg.length % 2 ^ 32)))

theorem exchange_log (phr : Bytes → PhrResult) (u : Url) (method : HttpMethod) (body : Bytes)
    (w : World) :
    Ends (exchange phr u method body) w fun o w' => o.Ended ∧ w'.client.fd = w.client.fd ∧
      w'.client.mHeaders = w.client.mHeaders ∧
      ∃ cs, w'.calls = w.calls
          ++ firstSend w.server.sends (buildMsg w.client.mHeaders u method body) :: cs ∧
        ∀ c ∈ cs, c.isRecv := by
  refine ends_gets_bind (ends_bind (send_ends _ w) ?_ ?_ (fun w' h => nomatch h))
  · intro _ w₁ hsend
    obtain ⟨n, h, rfl⟩ := hsend.taken
    refine (moves_receive phr _).mono ?_
    rintro o w' ⟨hended, cs, hcalls, honly, hfd, hheaders⟩
    refine ⟨hended, hfd, hheaders, cs, ?_, honly⟩
    rw [hcalls]
    unfold firstSend
    rw [h]
    exact List.append_assoc ..
  · intro e w₁ hsend
    cases hsend with
    | failed code h =>
        refine ⟨trivial, rfl, rfl, [], ?_, fun _ h => absurd h List.not_mem_nil⟩
        unfold firstSend
        rw [h]
        rfl

/-- What `establish` comes to in a world, and its calls. -/
def asked (w : World) (req : Req) : Outcome Exn (Except String Url) × List Call :=
  answer (decide (0 ≤ w.client.fd)) w.server.query req.method req.url req.body

/-- On an open socket the request connects: its arguments are in order, and the name query
    gives an address that can be reached. -/
def Reaches (req : Req) (server : Server) : Prop :=
  ¬ (req.method ≠ .post ∧ req.body ≠ []) ∧
    ∃ u list, Url.parse req.url = .ok u ∧ u.proto = http ∧
      server.query (cStr u.host) http = .ok (some list) ∧
      ∃ a ∈ list, a.addrlen = sockaddrLen ∧ a.refused = none

/-- The request connects: it has a socket, and it reaches an address. -/
def Connects (s : Session) (req : Req) (server : Server) : Prop :=
  0 ≤ s.client.fd ∧ Reaches req server

section Connects

variable {s : Session} {req : Req} {server : Server}

theorem reaches_answer :
    Reaches req server ↔ ∃ u, (answer true server.query req.method req.url req.body).1
      = .value (.ok u) := by
  constructor
  · rintro ⟨hbody, u, list, hparse, hproto, hquery, haddr⟩
    exact ⟨u, answer_ok.mpr ⟨rfl, hbody, hparse, hproto, list, hquery, haddr⟩⟩
  · rintro ⟨u, hu⟩
    obtain ⟨-, hbody, hparse, hproto, list, hquery, haddr⟩ := answer_ok.mp hu
    exact ⟨hbody, u, list, hparse, hproto, hquery, haddr⟩

theorem connects_asked :
    Connects s req server ↔ ∃ u, (asked (s.meets server) req).1 = .value (.ok u) := by
  have hasked : asked (s.meets server) req
      = answer (decide (0 ≤ s.client.fd)) server.query req.method req.url req.body := rfl
  rw [Connects, reaches_answer, hasked]
  by_cases hfd : 0 ≤ s.client.fd
  · rw [decide_eq_true hfd]
    exact and_iff_right hfd
  · rw [decide_eq_false hfd]
    exact iff_of_false (fun h => hfd h.1) fun ⟨u, hu⟩ => nomatch (answer_ok.mp hu).1

def isConnection : Outcome Exn (Except String Url) → Bool
  | .value (.ok _) => true
  | _ => false

theorem isConnection_iff {o : Outcome Exn (Except String Url)} :
    isConnection o = true ↔ ∃ u, o = .value (.ok u) := by
  cases o with
  | value a =>
      cases a with
      | error e => exact iff_of_false (fun h => nomatch h) fun ⟨_, h⟩ => nomatch h
      | ok u => exact iff_of_true rfl ⟨u, rfl⟩
  | thrown e => exact iff_of_false (fun h => nomatch h) fun ⟨_, h⟩ => nomatch h
  | diverged => exact iff_of_false (fun h => nomatch h) fun ⟨_, h⟩ => nomatch h

instance : Decidable (Connects s req server) :=
  decidable_of_iff (isConnection (asked (s.meets server) req).1 = true)
    (isConnection_iff.trans connects_asked.symm)

end Connects

/-- What a request comes to if there is no connection. -/
def refused : Outcome Exn (Except String Url) → Outcome Exn Result
  | .value (.error e) => .value (.error e)
  | .value (.ok _) => .diverged
  | .thrown e => .thrown e
  | .diverged => .diverged

/-- `n` addresses could not be reached, the next one could. -/
def reached (n : Nat) : List Call := List.replicate n (.connect false) ++ [.connect true]

/-- The two ways a request goes: it ends before the guard, and nothing but the log has
    changed; or it goes through the guard, and the socket is closed behind it. -/
inductive RequestLog (phr : Bytes → PhrResult) (req : Req) (w : World) :
    Outcome Exn Result × World → Prop
  | refused (n : Nat) (hno : ∀ u, (asked w req).1 ≠ .value (.ok u)) :
      RequestLog phr req w
        (refused (asked w req).1, w.log (List.replicate n (.connect false)))
  | connected (u : Url) (n : Nat) (o : Outcome Exn Result) (w' : World) (cs : List Call)
      (hyes : (asked w req).1 = .value (.ok u))
      (hrun : exchange phr u req.method req.body (w.log (reached n)) = (o, w'))
      (hended : o.Ended) (hfd : w'.client.fd = w.client.fd)
      (hheaders : w'.client.mHeaders = w.client.mHeaders)
      (hcalls : w'.calls = w.calls ++ reached n
        ++ firstSend w.server.sends (buildMsg w.client.mHeaders u req.method req.body) :: cs)
      (honly : ∀ c ∈ cs, c.isRecv) :
      RequestLog phr req w (o, closeSocket w')

theorem request_log (phr : Bytes → PhrResult) (req : Req) (w : World) :
    RequestLog phr req w (request phr req.method req.url req.body w) := by
  have heq := establish_eq req.method req.url req.body w
  have hended : (asked w req).1.Ended := answer_ended _
  obtain ⟨n, ⟨⟨u, hu⟩, htries⟩ | ⟨hno, htries⟩⟩ : ∃ n,
      ((∃ u, (asked w req).1 = .value (.ok u)) ∧ (asked w req).2 = reached n) ∨
        ((∀ u, (asked w req).1 ≠ .value (.ok u)) ∧
          (asked w req).2 = List.replicate n (.connect false)) := answer_calls _
  · have hstart : establish req.method req.url req.body w
        = (.value (.ok u), w.log (reached n)) :=
      heq.trans (congrArg₂ (fun o cs => (o, w.log cs)) hu htries)
    rcases hrun : exchange phr u req.method req.body (w.log (reached n)) with ⟨o, w'⟩
    obtain ⟨hended, hfd, hheaders, cs, hcalls, honly⟩ := (exchange_log phr u _ _ _).out hrun
    have hexit : request phr req.method req.url req.body w = (o, closeSocket w') := by
      refine (bind_value hstart).trans ?_
      cases o with
      | value r => exact onExit_value hrun
      | thrown e => exact onExit_thrown hrun
      | diverged => exact hended.elim
    rw [hexit]
    exact .connected u n o w' cs hu hrun hended hfd hheaders hcalls honly
  · have hstart : establish req.method req.url req.body w
        = ((asked w req).1, w.log (List.replicate n (.connect false))) :=
      heq.trans (congrArg (fun cs => (_, w.log cs)) htries)
    have hexit : request phr req.method req.url req.body w
        = (refused (asked w req).1, w.log (List.replicate n (.connect false))) := by
      cases ho : (asked w req).1 with
      | value r =>
          rw [ho] at hstart
          cases r with
          | error e => exact bind_value hstart
          | ok u => exact absurd ho (hno u)
      | thrown e =>
          rw [ho] at hstart
          exact bind_thrown hstart
      | diverged =>
          rw [ho] at hended
          exact hended.elim
    rw [hexit]
    exact .refused n hno

theorem run_log (phr : Bytes → PhrResult) (s : Session) (req : Req) (server : Server) :
    RequestLog phr req (s.meets server) (s.run phr req server) :=
  request_log ..

/-- The tries to connect read nothing. -/
theorem reached_quiet {n : Nat} : ∀ c ∈ reached n, c.isRecv = false := by
  intro c hc
  rcases List.mem_append.mp hc with hc | hc
  · rw [List.eq_of_mem_replicate hc]
    rfl
  · rw [List.mem_singleton.mp hc]
    rfl

/-- No request connects on a socket that is closed. -/
theorem asked_open {w : World} {req : Req} {u : Url} (h : (asked w req).1 = .value (.ok u)) :
    0 ≤ w.client.fd := by
  by_contra hfd
  unfold asked at h
  rw [decide_eq_false hfd, answer_closed] at h
  split at h
  · exact nomatch h
  · rename_i hno
    exact hno u h

/-! ## A client that has not connected has not read -/

def Unused (s : Session) : Prop :=
  0 ≤ s.client.fd → s.client.mReadStreambuf = init ∧ s.client.mParser = HttpParser.init ∧
    s.strings = []

theorem unused_use {phr : Bytes → PhrResult} {s : Session} (u : Use) (h : Unused s) :
    Unused (s.use phr u) := by
  cases u with
  | addHeader k v => exact h
  | request req server =>
      have hlog := run_log phr s req server
      dsimp only [Session.use]
      generalize s.run phr req server = r at hlog ⊢
      cases hlog with
      | refused n hno => exact h
      | connected u n o w' cs =>
          intro hfd
          have hclosed : (0 : Int) ≤ -1 := hfd
          exact absurd hclosed (by decide)

theorem unused_after (phr : Bytes → PhrResult) {s : Session} (uses : List Use) (h : Unused s) :
    Unused (s.after phr uses) := by
  induction uses generalizing s with
  | nil => exact h
  | cons u uses ih => exact ih (unused_use u h)

theorem unused_new (fd : Nat) : Unused (Session.new fd) := fun _ => ⟨rfl, rfl, rfl⟩

/-! ## What is received -/

/-- The one `send` fails. -/
def SendFails (server : Server) : Prop := ∃ code, server.sends.head? = some (.fail code)

theorem headD_fail {choices : List Choice} {k : Nat} {code : Int} :
    choices.headD (.take k) = .fail code ↔ choices.head? = some (.fail code) := by
  cases choices with
  | nil => exact iff_of_false (fun h => nomatch h) (fun h => nomatch h)
  | cons c rest => exact (Option.some_inj (a := c)).symm

/-- How a request ends behind the guard. -/
theorem exchange_received {phr : Bytes → PhrResult} {u : Url} {method : HttpMethod}
    {body : Bytes} {w : World} (hlen : w.server.stream.length < 2 ^ 31) (hbuf : Holds w.buf [] 0)
    (hparser : w.client.mParser.bodyLen = 0) :
    Ends (exchange phr u method body) w fun o _ =>
      (SendFails w.server ∧ ∃ e, o = .thrown e) ∨
        (¬ SendFails w.server ∧ ReceiveEnds phr w.server o) := by
  refine ends_gets_bind (ends_bind (send_ends _ w) ?_ ?_ (fun w' h => nomatch h))
  · intro _ w₁ hsend
    obtain ⟨n, h, rfl⟩ := hsend.taken
    refine (receive_ends (w := sendDone w _) hlen hbuf hparser).mono ?_
    intro o w' hends
    refine .inr ⟨fun ⟨code, hfails⟩ => ?_, hends.of_sends⟩
    exact nomatch (headD_fail.mpr hfails).symm.trans h
  · intro e w₁ hsend
    cases hsend with
    | failed code h => exact .inl ⟨⟨code, headD_fail.mp h⟩, _, rfl⟩

/-- How a request ends on a client that has read nothing. -/
inductive RunEnds (phr : Bytes → PhrResult) (s : Session) (req : Req) (server : Server) :
    Outcome Exn Result → Prop
  | refused (hno : ¬ Connects s req server) :
      RunEnds phr s req server (refused (asked (s.meets server) req).1)
  | unsent (e : Exn) (hyes : Connects s req server) (hfails : SendFails server) :
      RunEnds phr s req server (.thrown e)
  | received (o : Outcome Exn Result) (hyes : Connects s req server) (hsent : ¬ SendFails server)
      (hends : ReceiveEnds phr server o) : RunEnds phr s req server o

theorem run_ends (phr : Bytes → PhrResult) (req : Req) {s : Session} {server : Server}
    (hs : Unused s) (hlen : server.stream.length < 2 ^ 31) :
    RunEnds phr s req server (s.run phr req server).1 := by
  have hlog := run_log phr s req server
  generalize s.run phr req server = r at hlog ⊢
  cases hlog with
  | refused n hno => exact .refused fun h => (connects_asked.mp h).elim hno
  | connected u n o w' cs hyes hrun =>
      obtain ⟨hbuf, hparser, -⟩ := hs (asked_open hyes)
      have hheld : Holds (s.meets server).buf [] 0 := by
        show Holds s.client.mReadStreambuf [] 0
        rw [hbuf]
        exact holds_init
      have hbodyLen : s.client.mParser.bodyLen = 0 := by
        rw [hparser]
        rfl
      have hconn : Connects s req server := connects_asked.mpr ⟨u, hyes⟩
      rcases (exchange_received (w := (s.meets server).log (reached n)) hlen hheld
        hbodyLen).out hrun with ⟨hfails, e, rfl⟩ | ⟨hsent, hends⟩
      · exact .unsent e hconn hfails
      · exact .received o hconn hsent hends

theorem refused_ended {w : World} {req : Req} (h : ∀ u, (asked w req).1 ≠ .value (.ok u)) :
    (refused (asked w req).1).Ended := by
  have hended : (asked w req).1.Ended := answer_ended _
  cases ho : (asked w req).1 with
  | value a =>
      cases a with
      | error e => trivial
      | ok u => exact absurd ho (h u)
  | thrown e => trivial
  | diverged => exact (ho ▸ hended).elim

theorem refused_thrown {o : Outcome Exn (Except String Url)} :
    (∃ e, refused o = .thrown e) ↔ ∃ e, o = .thrown e := by
  cases o with
  | value a => cases a <;> exact iff_of_false (fun ⟨_, h⟩ => nomatch h) (fun ⟨_, h⟩ => nomatch h)
  | thrown e => exact iff_of_true ⟨e, rfl⟩ ⟨e, rfl⟩
  | diverged => exact iff_of_false (fun ⟨_, h⟩ => nomatch h) (fun ⟨_, h⟩ => nomatch h)

theorem refused_ne_ok (o : Outcome Exn (Except String Url)) (r : HttpResponse) :
    refused o ≠ .value (.ok r) := by
  cases o with
  | value a =>
      cases a with
      | error e => exact fun h => nomatch h
      | ok u => exact fun h => nomatch h
  | thrown e => exact fun h => nomatch h
  | diverged => exact fun h => nomatch h

/-! ## Complete responses -/

/-- **COMPLETE RESPONSES**: a response says how long the body is that the head announces,
    and it has that length exactly if the server delivers as many bytes behind the head
    before it closes or a `recv` fails; where no `recv` fails, if it sends as many.  The
    response of a `HEAD` has no body, and all three ways to have less end with a value. -/
theorem response_complete_iff (phr : Bytes → PhrResult) (fd : Nat) (uses : List Use) (req : Req)
    (server : Server) (r : HttpResponse) (hlen : server.stream.length < 2 ^ 31)
    (hr : (((Session.new fd).after phr uses).run phr req server).1 = .value (.ok r)) :
    announced phr (headOf server) = .ok r.bodyLength ∧
    (r.rsp.length = r.bodyLength ↔ r.bodyLength ≤ (behindHead server r.bodyLength).length) ∧
    ((∀ c ∈ server.recvs, c.Delivers) → (r.rsp.length = r.bodyLength ↔
      r.bodyLength ≤ server.stream.length - (headOf server).length)) := by
  have hends := run_ends phr req (unused_after phr uses (unused_new fd)) hlen
  rw [hr] at hends
  generalize ho : Outcome.value (Except.ok r) = o at hends
  cases hends with
  | refused hno => exact absurd ho.symm (refused_ne_ok _ r)
  | unsent e hyes hfails => exact nomatch ho
  | received o hyes hsent hends =>
      cases hends with
      | answered v r' harrives hlength hret hv hannounced hstatus hrsp =>
          obtain rfl : r = r' := Except.ok.inj (Outcome.value.inj ho)
          have hiff : r.rsp.length = r.bodyLength ↔
              r.bodyLength ≤ (behindHead server r.bodyLength).length := by
            rw [hrsp, List.length_take]
            omega
          refine ⟨?_, hiff, fun hcuts => ?_⟩
          · rw [hlength, hannounced, Int.toNat_of_nonneg hv]
          · rw [hiff, behindHead, delivered, delivery_whole hcuts, List.length_drop]
            rfl
      | _ => exact nomatch ho

/-- A request for `"http://a/"`. -/
def getRoot : Req := ⟨.get, [104, 116, 116, 112, 58, 47, 47, 97, 47], []⟩

/-- A server that is reached at once, takes all and sends `stream`. -/
def replies (stream : Bytes) : Server where
  query _ _ := .ok (some [⟨sockaddrLen, none⟩])
  sends := []
  recvs := []
  stream := stream

/-- `"HTTP/1.1 200 OK\r\nContent-Length: 5\r\n\r\n"`. -/
def fiveAnnounced : Bytes :=
  [72, 84, 84, 80, 47, 49, 46, 49, 32, 50, 48, 48, 32, 79, 75, 13, 10, 67, 111, 110, 116, 101,
    110, 116, 45, 76, 101, 110, 103, 116, 104, 58, 32, 53, 13, 10, 13, 10]

/-- The server announces five bytes, sends two and closes; the response is a value. -/
theorem early_close_accepted :
    ∃ r, ((Session.new 3).run picoParse getRoot (replies (fiveAnnounced ++ [97, 98]))).1
        = .value (.ok r) ∧ r.rsp.length ≠ r.bodyLength :=
  ⟨⟨[(none, none)], [97, 98], 5, 200⟩, by decide +kernel, by decide⟩

/-- A server that sends all five bytes of the body, in pieces, and on which a `recv` fails
    after three of them, or never. -/
def fiveInPieces (resets : Bool) : Server :=
  { replies (fiveAnnounced ++ [97, 98, 99, 100, 101]) with
    recvs := [.take 8, .take 30, .take 3] ++ if resets then [.fail 104] else [] }

/-- The theorem at both servers: three of the five bytes, and all of them. -/
theorem response_complete_iff_five :
    (behindHead (fiveInPieces true) 5).length = 3 ∧
      ([97, 98, 99].length = 5 ↔ 5 ≤ (behindHead (fiveInPieces true) 5).length) ∧
    (behindHead (fiveInPieces false) 5).length = 5 ∧
      ([97, 98, 99, 100, 101].length = 5 ↔
        5 ≤ (fiveInPieces false).stream.length - (headOf (fiveInPieces false)).length) := by
  have hbroken := response_complete_iff picoParse 3 [] getRoot (fiveInPieces true)
    ⟨[(none, none)], [97, 98, 99], 5, 200⟩ (by decide) (by decide +kernel)
  have hwhole := response_complete_iff picoParse 3 [] getRoot (fiveInPieces false)
    ⟨[(none, none)], [97, 98, 99, 100, 101], 5, 200⟩ (by decide) (by decide +kernel)
  exact ⟨by decide +kernel, hbroken.2.1, by decide +kernel, hwhole.2.2 (by decide)⟩

/-! ## Malformed heads -/

/-- A request that has sent its message ends as `receive` does. -/
theorem request_receives {phr : Bytes → PhrResult} {req : Req} {u : Url} {n : Nat} {w w₀ w₁ : World}
    (hconn : establish req.method req.url req.body w = (.value (.ok u), w₀))
    (hsend : send (buildMsg w₀.client.mHeaders u req.method req.body) w₀ = (.value n, w₁)) :
    (request phr req.method req.url req.body w).1 = (receive phr w₁).1 := by
  have hexchange : exchange phr u req.method req.body w₀ = receive phr w₁ := bind_value hsend
  have hrequest : request phr req.method req.url req.body w
      = Prog.onExit closeSocket (exchange phr u req.method req.body) w₀ := bind_value hconn
  rw [hrequest, onExit_outcome, hexchange]

/-- What is asked of a malformed head: it is refused by `read_headers`, and by the
    request that reads it. -/
def RejectsMalformed (phr : Bytes → PhrResult) (req : Req) (head : Bytes) (w w₁ : World) : Prop :=
  ((phr head).ret < 0 ∨ ¬ dcrlf <:+ head →
    (readHeaders phr w₁).1 = .value false ∧
      (request phr req.method req.url req.body w).1
        = .value (.error "http response parse error")) ∧
  ((readHeaders phr w₁).1 = .value true → 0 < (phr head).ret)

/-- **MALFORMED HEADS**: whatever the head that is read, it is treated as it should be
    exactly if the parser does not return a negative value on a head that ends with
    the blank line.  `read_headers` turns that value into a `bool`. -/
theorem malformed_rejected_iff (phr : Bytes → PhrResult) (req : Req) (u : Url) (n : Nat)
    (head : Bytes) (w w₀ w₁ w₂ : World)
    (hconn : establish req.method req.url req.body w = (.value (.ok u), w₀))
    (hsend : send (buildMsg w₀.client.mHeaders u req.method req.body) w₀ = (.value n, w₁))
    (hhead : readUntil dcrlf w₁ = (.value head, w₂)) :
    RejectsMalformed phr req head w w₁ ↔ (dcrlf <:+ head → 0 ≤ (phr head).ret) := by
  constructor
  · rintro ⟨hreject, -⟩ hs
    by_contra hneg
    obtain ⟨hfalse, -⟩ := hreject (.inl (Int.not_le.mp hneg))
    rcases readHeaders_verdict hhead hs with ⟨e, h⟩ | h
    · exact nomatch h.symm.trans hfalse
    · have hzero := of_decide_eq_false (Outcome.value.inj (h.symm.trans hfalse))
      omega
  · intro hok
    refine ⟨fun hbad => ?_, fun htrue => ?_⟩
    · have hs : ¬ dcrlf <:+ head := by
        intro hs
        rcases hbad with hneg | hshort
        · exact absurd (hok hs) (Int.not_le.mpr hneg)
        · exact hshort hs
      have hfalse : readHeaders phr w₁ = (.value false, forget w₂) := readHeaders_short hhead hs
      have hrefused : receive phr w₁
          = (.value (.error "http response parse error"), forget w₂) := receive_false hfalse
      rw [request_receives hconn hsend, hrefused]
      exact ⟨congrArg Prod.fst hfalse, rfl⟩
    · by_cases hs : dcrlf <:+ head
      · rcases readHeaders_verdict hhead hs with ⟨e, h⟩ | h
        · exact nomatch h.symm.trans htrue
        · have hne := of_decide_eq_true (Outcome.value.inj (h.symm.trans htrue))
          have hnonneg := hok hs
          omega
      · have hfalse : readHeaders phr w₁ = (.value false, forget w₂) := readHeaders_short hhead hs
        exact nomatch (congrArg Prod.fst hfalse).symm.trans htrue

/-- `"X\r\n\r\n"`: a head, as far as its end goes. -/
def noHead : Bytes := [88, 13, 10, 13, 10]

/-- The parser refuses the head; the request returns a response with status zero. -/
theorem malformed_head_accepted :
    (picoParse noHead).ret < 0 ∧
      ((Session.new 3).run picoParse getRoot (replies noHead)).1 = .value (.ok ⟨[], [], 0, 0⟩) :=
  ⟨by decide, by decide +kernel⟩

/-- The theorem at a head that is well formed. -/
theorem malformed_rejected_iff_five :
    let w := (Session.new 3).meets (replies fiveAnnounced)
    let w₀ := (establish .get getRoot.url [] w).2
    let w₁ := (send (buildMsg [] ⟨http, [97], [47], []⟩ .get []) w₀).2
    RejectsMalformed picoParse getRoot fiveAnnounced w w₁ ↔
      (dcrlf <:+ fiveAnnounced → 0 ≤ (picoParse fiveAnnounced).ret) :=
  malformed_rejected_iff picoParse getRoot ⟨http, [97], [47], []⟩ 26 fiveAnnounced
    ((Session.new 3).meets (replies fiveAnnounced)) _ _ _
    (Prod.ext (by decide +kernel) rfl) (Prod.ext (by decide +kernel) rfl)
    (Prod.ext (by decide +kernel) rfl)

/-! ## The message -/

/-- The bytes that the socket has taken. -/
def sentBytes (calls : List Call) : Bytes :=
  calls.flatMap fun
    | .send bs => bs
    | _ => []

/-- The calls before the first `recv`. -/
def beforeReading (calls : List Call) : List Call := calls.takeWhile fun c => !c.isRecv

/-- The one `send` takes a message of this length. -/
def TakesAll (choices : List Choice) (len : Nat) : Prop :=
  len < 2 ^ 32 ∧ ∀ n, choices.head? = some (.take n) → len ≤ n

/-- A request that connects has that call in its log, and no other has. -/
theorem connect_logged {phr : Bytes → PhrResult} {s : Session} {req : Req} {server : Server} :
    .connect true ∈ (s.run phr req server).2.calls ↔ Connects s req server := by
  rw [connects_asked]
  have hlog := run_log phr s req server
  generalize s.run phr req server = r at hlog ⊢
  cases hlog with
  | refused n hno =>
      refine iff_of_false (fun hmem => ?_) fun ⟨u, hu⟩ => hno u hu
      have hmem' : Call.connect true ∈ List.replicate n (Call.connect false) :=
        (List.mem_append.mp hmem).elim (fun h => absurd h List.not_mem_nil) id
      exact nomatch List.eq_of_mem_replicate hmem'
  | connected u n o w' cs hyes hrun hended hfd hheaders hcalls honly =>
      refine iff_of_true ?_ ⟨u, hyes⟩
      show Call.connect true ∈ w'.calls ++ [Call.close w'.client.fd]
      rw [hcalls]
      simp [reached]

/-- What the one `send` hands over. -/
theorem firstSend_eq {choices : List Choice} (h : ∀ c ∈ choices, c.Delivers) (msg : Bytes) :
    ∃ bs, firstSend choices msg = .send bs ∧
      (2 ≤ msg.length → (bs = msg ↔ TakesAll choices msg.length)) := by
  have htaken : ∀ n, (msg.take (amount n (msg.length % 2 ^ 32)) = msg ↔
      msg.length ≤ amount n (msg.length % 2 ^ 32)) := fun n => List.take_eq_self_iff msg
  unfold firstSend TakesAll
  cases choices with
  | nil =>
      refine ⟨_, rfl, fun hlen => (htaken _).trans ?_⟩
      unfold amount
      simp
      omega
  | cons c rest =>
      cases c with
      | fail code => exact (h (.fail code) List.mem_cons_self).elim
      | take n =>
          refine ⟨_, rfl, fun hlen => (htaken _).trans ?_⟩
          unfold amount
          simp
          omega

/-- Behind the `send`, nothing is sent before the first `recv`, nor after it. -/
theorem sentBytes_beforeReading (n : Nat) (bs : Bytes) {cs : List Call} (h : ∀ c ∈ cs, c.isRecv)
    (fd : Int) : sentBytes (beforeReading (reached n ++ .send bs :: cs ++ [.close fd])) = bs := by
  have htries : ∀ c ∈ reached n ++ [.send bs], (!c.isRecv) = true := by
    intro c hc
    rcases List.mem_append.mp hc with hc | hc
    · rw [reached_quiet c hc]
      rfl
    · rw [List.mem_singleton.mp hc]
      rfl
  have hsplit : reached n ++ Call.send bs :: cs ++ [Call.close fd]
      = (reached n ++ [Call.send bs]) ++ (cs ++ [Call.close fd]) := by simp
  have hrest : sentBytes ((cs ++ [Call.close fd]).takeWhile fun c => !c.isRecv) = [] := by
    cases cs with
    | nil => rfl
    | cons c cs =>
        have hc : (!c.isRecv) = false := by simp [h c List.mem_cons_self]
        rw [List.cons_append, List.takeWhile_cons, hc]
        rfl
  unfold beforeReading
  rw [hsplit, List.takeWhile_append_of_pos htries]
  unfold sentBytes at hrest ⊢
  rw [List.flatMap_append, hrest, List.flatMap_append]
  unfold reached
  simp

/-- **THE WHOLE MESSAGE**: a request that has connected has handed over its whole
    message when it begins to read exactly if the one `send` has taken all of it. -/
theorem whole_message_sent_iff (phr : Bytes → PhrResult) (s : Session) (req : Req)
    (server : Server) (hconn : Connects s req server)
    (hsends : ∀ c ∈ server.sends, c.Delivers) :
    ∃ u, Url.parse req.url = .ok u ∧
      (sentBytes (beforeReading (s.run phr req server).2.calls)
          = buildMsg s.client.mHeaders u req.method req.body ↔
        TakesAll server.sends (buildMsg s.client.mHeaders u req.method req.body).length) := by
  obtain ⟨u, hu⟩ := connects_asked.mp hconn
  refine ⟨u, (answer_ok.mp hu).2.2.1, ?_⟩
  have hlog := run_log phr s req server
  generalize s.run phr req server = r at hlog ⊢
  cases hlog with
  | refused n hno => exact absurd hu (hno u)
  | connected u' n o w' cs hyes hrun hended hfd hheaders hcalls honly =>
      obtain rfl : u = u' := Except.ok.inj (Outcome.value.inj (hu.symm.trans hyes))
      obtain ⟨bs, hbs, htakes⟩ :=
        firstSend_eq hsends (buildMsg s.client.mHeaders u req.method req.body)
      have hlog : (closeSocket w').calls
          = reached n ++ Call.send bs :: cs ++ [Call.close w'.client.fd] := by
        show w'.calls ++ [Call.close w'.client.fd] = _
        rw [hcalls, ← hbs]
        rfl
      rw [hlog, sentBytes_beforeReading n bs honly]
      exact htakes (two_le_buildMsg ..)

/-- A server that takes one byte of what is sent. -/
def takesOne : Server := { replies fiveAnnounced with sends := [.take 1] }

/-- The socket accepts the first byte of the message; the rest is never sent. -/
theorem short_send_ignored :
    sentBytes (beforeReading ((Session.new 3).run picoParse getRoot takesOne).2.calls) = [71] ∧
      buildMsg [] ⟨http, [97], [47], []⟩ .get [] ≠ [71] :=
  ⟨by decide +kernel, by decide⟩

/-- The theorem at that server. -/
theorem whole_message_sent_iff_takesOne :
    ∃ u, Url.parse getRoot.url = .ok u ∧
      (sentBytes (beforeReading ((Session.new 3).run picoParse getRoot takesOne).2.calls)
          = buildMsg [] u .get [] ↔
        TakesAll takesOne.sends (buildMsg [] u .get []).length) :=
  whole_message_sent_iff picoParse (Session.new 3) getRoot takesOne (by decide +kernel) (by decide)

/-! ## Failures -/

/-- How often the socket is closed. -/
def closes (calls : List Call) : Nat :=
  calls.countP fun
    | .close _ => true
    | _ => false

/-- A head whose announced length leaves `request` as an exception. -/
def BadLength (phr : Bytes → PhrResult) (head : Bytes) : Prop :=
  (∃ e, announced phr head = .error e) ∨
    ∃ v, announced phr head = .ok v ∧ v < 0 ∧ (phr head).ret ≠ 0

/-- The failures that are not reported as results: the name query throws; or the request
    connects, and the `send` fails, a `recv` fails before the head is complete, or the head
    arrives and the length it announces is not a number, not an `int`, or negative. -/
def Escapes (phr : Bytes → PhrResult) (s : Session) (req : Req) (server : Server) : Prop :=
  QueryThrows server.query req.method req.url req.body ∨
    (Connects s req server ∧ (SendFails server ∨ HeadBroken server ∨
      (HeadArrives server ∧ BadLength phr (headOf server))))

theorem closes_append (cs cs' : List Call) : closes (cs ++ cs') = closes cs + closes cs' :=
  List.countP_append

theorem closes_recvs {cs : List Call} (h : ∀ c ∈ cs, c.isRecv) : closes cs = 0 := by
  refine List.countP_eq_zero.mpr fun c hc => ?_
  have hrecv := h c hc
  cases c with
  | close fd => exact nomatch hrecv
  | _ => exact nofun

theorem closes_replicate (n : Nat) (b : Bool) : closes (List.replicate n (.connect b)) = 0 := by
  refine List.countP_eq_zero.mpr fun c hc => ?_
  rw [List.eq_of_mem_replicate hc]
  exact nofun

theorem closes_reached (n : Nat) : closes (reached n) = 0 := by
  unfold reached
  rw [closes_append, closes_replicate]
  rfl

theorem closes_firstSend (choices : List Choice) (msg : Bytes) :
    closes [firstSend choices msg] = 0 := by
  unfold firstSend
  split <;> rfl

/-- The socket is closed once if the request has connected, and left alone otherwise. -/
theorem closed_once (phr : Bytes → PhrResult) (s : Session) (req : Req) (server : Server) :
    (s.run phr req server).1.Ended ∧
      closes (s.run phr req server).2.calls = if Connects s req server then 1 else 0 := by
  have hconn : Connects s req server ↔ _ := connects_asked
  have hlog := run_log phr s req server
  generalize s.run phr req server = r at hlog ⊢
  cases hlog with
  | refused n hno =>
      rw [if_neg fun h => (hconn.mp h).elim hno]
      refine ⟨refused_ended hno, ?_⟩
      exact (closes_append [] _).trans ((Nat.zero_add _).trans (closes_replicate n false))
  | connected u n o w' cs hyes hrun hended hfd hheaders hcalls honly =>
      rw [if_pos (hconn.mpr ⟨u, hyes⟩)]
      refine ⟨hended, ?_⟩
      have hsplit : (closeSocket w').calls = reached n
          ++ ([firstSend server.sends (buildMsg s.client.mHeaders u req.method req.body)] ++ cs)
          ++ [Call.close w'.client.fd] :=
        congrArg (· ++ [Call.close w'.client.fd]) hcalls
      show closes (closeSocket w').calls = 1
      rw [hsplit, closes_append, closes_append, closes_append, closes_firstSend,
        closes_recvs honly, closes_reached]
      rfl

/-- Which ends of `receive` are exceptions. -/
theorem receive_thrown_iff {phr : Bytes → PhrResult} {server : Server} {o : Outcome Exn Result}
    (h : ReceiveEnds phr server o) :
    (∃ e, o = .thrown e) ↔
      HeadBroken server ∨ (HeadArrives server ∧ BadLength phr (headOf server)) := by
  cases h with
  | broken e hbroken => exact iff_of_true ⟨e, rfl⟩ (.inl hbroken)
  | incomplete hquiet hmissing =>
      refine iff_of_false (fun ⟨_, h⟩ => nomatch h) ?_
      rintro (⟨hfailed, -⟩ | ⟨harrives, -⟩)
      · exact nomatch hquiet.symm.trans hfailed
      · exact hmissing harrives
  | badLength e harrives hlength => exact iff_of_true ⟨e, rfl⟩ (.inr ⟨harrives, .inl ⟨e, hlength⟩⟩)
  | rejected v harrives hlength hret =>
      refine iff_of_false (fun ⟨_, h⟩ => nomatch h) ?_
      rintro (⟨-, hmissing⟩ | ⟨-, ⟨e, herror⟩ | ⟨v', -, -, hne⟩⟩)
      · exact hmissing harrives
      · exact nomatch hlength.symm.trans herror
      · exact hne hret
  | negative v harrives hlength hret hv =>
      exact iff_of_true ⟨_, rfl⟩ (.inr ⟨harrives, .inr ⟨v, hlength, hv, hret⟩⟩)
  | answered v r harrives hlength hret hv hannounced hstatus hrsp =>
      refine iff_of_false (fun ⟨_, h⟩ => nomatch h) ?_
      rintro (⟨-, hmissing⟩ | ⟨-, ⟨e, herror⟩ | ⟨v', hv', hneg, -⟩⟩)
      · exact hmissing harrives
      · exact nomatch hlength.symm.trans herror
      · have hsame := Except.ok.inj (hlength.symm.trans hv')
        omega

/-- **FAILURES**: every request ends, and closes the socket exactly once if it has
    connected.  It ends with an exception exactly if one of the failures in `Escapes`
    happens; all others are reported as results. -/
theorem failures_reported_iff (phr : Bytes → PhrResult) (fd : Nat) (uses : List Use) (req : Req)
    (server : Server) :
    let s := (Session.new fd).after phr uses
    (s.run phr req server).1.Ended ∧
      (.connect true ∈ (s.run phr req server).2.calls ↔ Connects s req server) ∧
      closes (s.run phr req server).2.calls = (if Connects s req server then 1 else 0) ∧
      (server.stream.length < 2 ^ 31 →
        ((∃ e, (s.run phr req server).1 = .thrown e) ↔ Escapes phr s req server)) := by
  intro s
  obtain ⟨hended, hcloses⟩ := closed_once phr s req server
  refine ⟨hended, connect_logged, hcloses, fun hlen => ?_⟩
  have hends := run_ends phr req (unused_after phr uses (unused_new fd)) hlen
  have hquery : (∃ e, (asked (s.meets server) req).1 = .thrown e) ↔
      QueryThrows server.query req.method req.url req.body := answer_thrown
  have hasked : Connects s req server → ¬ QueryThrows server.query req.method req.url req.body := by
    intro hconn hthrows
    obtain ⟨u, hu⟩ := connects_asked.mp hconn
    obtain ⟨e, he⟩ := hquery.mpr hthrows
    exact nomatch hu.symm.trans he
  unfold Escapes
  generalize (s.run phr req server).1 = o at hends ⊢
  cases hends with
  | refused hno =>
      rw [refused_thrown, hquery]
      exact ⟨.inl, fun h => h.resolve_right fun hconn => hno hconn.1⟩
  | unsent e hyes hfails => exact iff_of_true ⟨e, rfl⟩ (.inr ⟨hyes, .inl hfails⟩)
  | received o hyes hsent hends =>
      rw [receive_thrown_iff hends]
      constructor
      · exact fun h => .inr ⟨hyes, .inr h⟩
      · rintro (hthrows | ⟨-, hsend | h⟩)
        · exact absurd hthrows (hasked hyes)
        · exact absurd hsend hsent
        · exact h

/-- A server on which the `send` fails. -/
def brokenPipe : Server := { replies fiveAnnounced with sends := [.fail 32] }

/-- A server that resets the connection in the middle of the head. -/
def resetInHead : Server := { replies fiveAnnounced with recvs := [.take 8, .fail 104] }

/-- `"HTTP/1.1 200 OK\r\nContent-Length: x\r\n\r\n"`. -/
def wordAnnounced : Bytes :=
  [72, 84, 84, 80, 47, 49, 46, 49, 32, 50, 48, 48, 32, 79, 75, 13, 10, 67, 111, 110, 116, 101,
    110, 116, 45, 76, 101, 110, 103, 116, 104, 58, 32, 120, 13, 10, 13, 10]

/-- Three failures that leave `request` as exceptions. -/
theorem failures_escape :
    ((Session.new 3).run picoParse getRoot brokenPipe).1 = .thrown (.systemError 32) ∧
      ((Session.new 3).run picoParse getRoot resetInHead).1 = .thrown (.systemError 104) ∧
      ((Session.new 3).run picoParse getRoot (replies wordAnnounced)).1
        = .thrown .invalidArgument :=
  ⟨by decide +kernel, by decide +kernel, by decide +kernel⟩

/-- The theorem at a server that closes early, which is reported, and at one that resets the
    connection in the head, which is not. -/
theorem failures_reported_iff_five :
    ((∃ e, ((Session.new 3).run picoParse getRoot (replies fiveAnnounced)).1 = .thrown e) ↔
      Escapes picoParse (Session.new 3) getRoot (replies fiveAnnounced)) ∧
    HeadBroken resetInHead ∧
    ∃ e, ((Session.new 3).run picoParse getRoot resetInHead).1 = .thrown e := by
  have hnew : (Session.new 3).after picoParse [] = Session.new 3 := rfl
  have hreported := failures_reported_iff picoParse 3 [] getRoot (replies fiveAnnounced)
  have hescapes := failures_reported_iff picoParse 3 [] getRoot resetInHead
  rw [hnew] at hreported hescapes
  have hbroken : HeadBroken resetInHead := ⟨by decide +kernel, by decide +kernel⟩
  exact ⟨hreported.2.2.2 (by decide), hbroken,
    (hescapes.2.2.2 (by decide)).mpr (.inr ⟨by decide +kernel, .inr (.inl hbroken)⟩)⟩

end CoioHttpRequest
