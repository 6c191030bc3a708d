import Coio.HttpRequestProofs

/-! # A request and those before it

    Two runs are compared: a request on a client that has been used, and the same
    request on a new one.  While the used client has its socket, it has read
    nothing, so the two differ at most in the number of the descriptor, and nothing
    behind `connect` looks at that.  Once a request has connected, the socket is
    gone for good; then every request that would have to connect fails. -/

namespace CoioHttpIndependence

open CoioStreamBuffer CoioHttpParser CoioHttpRead CoioHttpMessage CoioHttpClient CoioHttpRequest
open CoioProg

/-! ## The number of the descriptor -/

/-- The same world on another socket. -/
def onSocket (fd : Int) (w : World) : World := { w with client := { w.client with fd := fd } }

section OnSocket

variable (fd : Int)

theorem ignores_recv (len : Nat) : Ignores (onSocket fd) (recv len) := by
  intro w
  show recv len (onSocket fd w) = _
  unfold recv onSocket
  dsimp only
  split <;> rfl

theorem ignores_prepareBuf (n : Nat) : Ignores (onSocket fd) (prepareBuf n) := by
  refine ignores_modifyOr _ fun w => ?_
  rw [Option.map_map]
  rfl

theorem ignores_commitBuf (n : Nat) : Ignores (onSocket fd) (commitBuf n) :=
  ignores_modify fun _ => rfl

theorem ignores_consumeBuf (n : Nat) : Ignores (onSocket fd) (consumeBuf n) :=
  ignores_modify fun _ => rfl

theorem ignores_bufData : Ignores (onSocket fd) bufData := ignores_gets fun _ => rfl

theorem ignores_passes : Ignores (onSocket fd) passes := ignores_gets fun _ => rfl

theorem ignores_readUntil (delim : Bytes) : Ignores (onSocket fd) (readUntil delim) := by
  refine ignores_bind (ignores_prepareBuf fd 512) fun _ => ?_
  refine ignores_bind (ignores_bind (ignores_passes fd) fun most => ignores_loop (fun st => ?_) _ _)
    fun result => ?_
  · refine ignores_bind (ignores_recv fd _) fun n => ?_
    split
    · exact ignores_pure _
    · refine ignores_bind (ignores_commitBuf fd n) fun _ => ?_
      refine ignores_bind (ignores_bufData fd) fun str => ?_
      split
      · exact ignores_bind (ignores_consumeBuf fd _) fun _ => ignores_pure _
      · exact ignores_bind (ignores_prepareBuf fd 256) fun _ => ignores_pure _
  · split
    · exact ignores_bind (ignores_bufData fd) fun rest =>
        ignores_bind (ignores_consumeBuf fd _) fun _ => ignores_pure _
    · exact ignores_pure _

theorem ignores_readBody (needRead : Nat) : Ignores (onSocket fd) (readBody needRead) := by
  unfold readBody
  split
  · exact ignores_pure _
  refine ignores_bind (ignores_gets fun _ => rfl) fun b => ?_
  split
  · exact ignores_bind (ignores_consumeBuf fd _) fun _ => ignores_pure _
  refine ignores_bind (ignores_bufData fd) fun rsp => ?_
  refine ignores_bind (ignores_consumeBuf fd _) fun _ => ignores_bind ?_ fun _ => ?_
  · unfold reserveString
    split
    · exact ignores_throwEx _
    · exact ignores_pure _
  refine ignores_bind (ignores_bind (ignores_passes fd) fun most => ignores_catchAll
    (ignores_loop (fun need => ?_) _ _) fun _ => ignores_pure _) fun _ => ?_
  · unfold readBodyPass
    split
    · exact ignores_pure _
    refine ignores_bind (ignores_prepareBuf fd _) fun _ => ignores_bind (ignores_recv fd _) fun n => ?_
    split
    · exact ignores_pure _
    · exact ignores_bind (ignores_commitBuf fd _) fun _ => ignores_pure _
  · exact ignores_bind (ignores_bufData fd) fun more =>
      ignores_bind (ignores_consumeBuf fd _) fun _ => ignores_pure _

theorem ignores_readHeaders (phr : Bytes → PhrResult) :
    Ignores (onSocket fd) (readHeaders phr) := by
  refine ignores_bind (ignores_readUntil fd dcrlf) fun head => ?_
  refine ignores_bind (fun _ => rfl) fun owner => ignores_onExit (fun _ => rfl) ?_
  unfold checkHead
  split
  · exact ignores_pure _
  · refine ignores_bind (fun w => ?_) fun len => ignores_pure _
    show parseHead phr owner head (onSocket fd w) = _
    unfold parseHead onSocket
    dsimp only
    split <;> rfl

theorem ignores_exchange (phr : Bytes → PhrResult) (u : Url) (method : HttpMethod)
    (body : Bytes) : Ignores (onSocket fd) (exchange phr u method body) := by
  refine ignores_bind (ignores_gets fun _ => rfl) fun mHeaders => ignores_bind ?_ fun _ => ?_
  · intro w
    show send _ (onSocket fd w) = _
    unfold send onSocket
    dsimp only
    split <;> rfl
  · refine ignores_bind (ignores_readHeaders fd phr) fun found => ?_
    split
    · refine ignores_bind (ignores_gets fun _ => rfl) fun response => ?_
      unfold readResponse
      split
      · exact ignores_pure _
      · exact ignores_bind (ignores_readBody fd _) fun rsp => ignores_pure _
    · exact ignores_pure _

end OnSocket

/-! ## The result of a request -/

/-- What a request comes to, as one equation. -/
theorem request_outcome (phr : Bytes → PhrResult) (req : Req) (w : World) :
    (request phr req.method req.url req.body w).1 = match (asked w req).1 with
      | .value (.ok u) => (exchange phr u req.method req.body (w.log (asked w req).2)).1
      | o => refused o := by
  have heq : establish req.method req.url req.body w = ((asked w req).1, w.log (asked w req).2) :=
    establish_eq ..
  cases ho : (asked w req).1 with
  | value a =>
      rw [ho] at heq
      cases a with
      | error e => exact congrArg Prod.fst (bind_value heq)
      | ok u => exact (congrArg Prod.fst (bind_value heq)).trans (onExit_outcome ..)
  | thrown e =>
      rw [ho] at heq
      exact congrArg Prod.fst (bind_thrown heq)
  | diverged =>
      have hended : (asked w req).1.Ended := answer_ended _
      rw [ho] at hended
      exact hended.elim

/-- The one error of a request that has connected. -/
theorem exchange_error (phr : Bytes → PhrResult) (u : Url) (method : HttpMethod) (body : Bytes)
    (w : World) : Ends (exchange phr u method body) w fun o _ =>
      ∀ e, o = .value (.error e) → e = "http response parse error" := by
  have hpass : ∀ {α β : Type} {p : Act α} {f : α → Act (Except String β)} {w : World}
      {T : String → Prop}, (∀ a w', Ends (f a) w' fun o _ => ∀ e, o = .value (.error e) → T e) →
      Ends (p >>= f) w fun o _ => ∀ e, o = .value (.error e) → T e := fun hf =>
    ends_bind (Q := fun _ _ => True) trivial (fun a w' _ => hf a w') (fun _ _ _ _ h => nomatch h)
      (fun _ _ _ h => nomatch h)
  refine hpass fun mHeaders w₁ => hpass fun _ w₂ => hpass fun found w₃ => ?_
  split
  · refine hpass fun response w₄ => ?_
    unfold readResponse
    split
    · exact fun e h => nomatch h
    · exact hpass fun rsp w₅ e h => nomatch h
  · intro e h
    exact (Except.error.inj (Outcome.value.inj h)).symm

/-! ## The socket over many uses -/

/-- A request that would connect on an open socket. -/
def UseReaches : Use → Prop
  | .addHeader _ _ => False
  | .request req server => Reaches req server

theorem closed_use (phr : Bytes → PhrResult) (s : Session) (u : Use) :
    (s.use phr u).client.fd < 0 ↔ s.client.fd < 0 ∨ UseReaches u := by
  cases u with
  | addHeader k v => exact (iff_of_eq (or_false _)).symm
  | request req server =>
      have hconn : (0 ≤ s.client.fd ∧ Reaches req server) ↔ _ := connects_asked
      have hlog := run_log phr s req server
      show (s.run phr req server).2.client.fd < 0 ↔ s.client.fd < 0 ∨ Reaches req server
      generalize s.run phr req server = r at hlog ⊢
      cases hlog with
      | refused n hno =>
          refine ⟨.inl, fun h => h.elim id fun hreaches => ?_⟩
          by_contra hfd
          obtain ⟨u, hu⟩ := hconn.mp ⟨Int.not_lt.mp hfd, hreaches⟩
          exact hno u hu
      | connected u n o w' cs hyes =>
          exact iff_of_true (show (-1 : Int) < 0 by decide) (.inr (hconn.mpr ⟨u, hyes⟩).2)

/-- The socket is closed exactly if one of the requests has reached a server: the first of
    them has connected. -/
theorem closed_after (phr : Bytes → PhrResult) (s : Session) (uses : List Use) :
    (s.after phr uses).client.fd < 0 ↔ s.client.fd < 0 ∨ ∃ u ∈ uses, UseReaches u := by
  induction uses generalizing s with
  | nil => simp [Session.after]
  | cons u uses ih =>
      show ((s.use phr u).after phr uses).client.fd < 0 ↔ _
      rw [ih, closed_use, or_assoc, List.exists_mem_cons_iff]

/-! ## Independence -/

/-- A new client on the socket `fd`, with the headers of `s`. -/
def renewed (s : Session) (fd : Nat) : Session :=
  ⟨{ HttpClient.init fd with mHeaders := s.client.mHeaders }, []⟩

/-- **INDEPENDENCE**: a request has the result it would have on a new client with the
    same headers, unless both an earlier request and this one are such that they connect
    on an open socket.  `close` leaves the client without a socket, and nothing opens
    another one. -/
theorem requests_independent_iff (phr : Bytes → PhrResult) (fd fd' : Nat) (uses : List Use)
    (req : Req) (server : Server) :
    let s := (Session.new fd).after phr uses
    (s.run phr req server).1 = ((renewed s fd').run phr req server).1 ↔
      ¬ ((∃ u ∈ uses, UseReaches u) ∧ Reaches req server) := by
  intro s
  have hclosed : s.client.fd < 0 ↔ ∃ u ∈ uses, UseReaches u := by
    refine (closed_after phr (Session.new fd) uses).trans (or_iff_right ?_)
    exact Int.not_lt.mpr (Int.natCast_nonneg fd)
  have hnew : asked ((renewed s fd').meets server) req
      = answer true server.query req.method req.url req.body :=
    congrArg (answer · server.query req.method req.url req.body)
      (decide_eq_true (Int.natCast_nonneg fd'))
  rw [← hclosed, reaches_answer]
  show (request phr req.method req.url req.body (s.meets server)).1
    = (request phr req.method req.url req.body ((renewed s fd').meets server)).1 ↔ _
  rw [request_outcome, request_outcome, hnew]
  by_cases hfd : s.client.fd < 0
  · -- without a socket: the same answer, except where the new client would connect
    have hold : asked (s.meets server) req
        = answer false server.query req.method req.url req.body :=
      congrArg (answer · server.query req.method req.url req.body)
        (decide_eq_false (Int.not_le.mpr hfd))
    rw [hold, answer_closed]
    cases ho : (answer true server.query req.method req.url req.body).1 with
    | value a =>
        cases a with
        | error e => exact iff_of_true rfl fun h => nomatch h.2.choose_spec
        | ok u =>
            refine iff_of_false (fun heq => ?_) fun h => h ⟨hfd, u, rfl⟩
            exact absurd (exchange_error phr u _ _ _ _ heq.symm) (by decide)
    | thrown e => exact iff_of_true rfl fun h => nomatch h.2.choose_spec
    | diverged => exact iff_of_true rfl fun h => nomatch h.2.choose_spec
  · -- with its socket, the client is new but for the number of the descriptor
    refine iff_of_true ?_ fun h => hfd h.1
    have hold : asked (s.meets server) req
        = answer true server.query req.method req.url req.body :=
      congrArg (answer · server.query req.method req.url req.body)
        (decide_eq_true (Int.not_lt.mp hfd))
    obtain ⟨hbuf, hparser, hstrings⟩ :=
      unused_after phr uses (unused_new fd) (Int.not_lt.mp hfd)
    have hclient : s.client
        = { fd := s.client.fd, mReadStreambuf := init, mParser := HttpParser.init,
            mHeaders := s.client.mHeaders } :=
      congrArg₂ (fun b p => { s.client with mReadStreambuf := b, mParser := p }) hbuf hparser
    have hworld : s.meets server = onSocket s.client.fd ((renewed s fd').meets server) :=
      congrArg₂ (fun c strings => (⟨c, strings, server, []⟩ : World)) hclient hstrings
    rw [hold]
    cases ho : (answer true server.query req.method req.url req.body).1 with
    | value a =>
        cases a with
        | error e => rfl
        | ok u =>
            have hsame := congrArg Prod.fst (ignores_exchange s.client.fd phr u req.method req.body
              (((renewed s fd').meets server).log
                (answer true server.query req.method req.url req.body).2))
            rw [hworld]
            exact hsame
    | thrown e => rfl
    | diverged => rfl

/-- The same request twice: the second one has no socket. -/
theorem second_request_fails :
    let served := replies fiveAnnounced
    let s := (Session.new 3).use picoParse (.request getRoot served)
    (s.run picoParse getRoot served).1 = .value (.error "host connection failed") ∧
      ((renewed s 3).run picoParse getRoot served).1
        = .value (.ok ⟨[(none, none)], [], 5, 200⟩) :=
  ⟨by decide +kernel, by decide +kernel⟩

end CoioHttpIndependence
