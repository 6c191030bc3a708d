import Coio.HttpMessageProofs

/-! # `http_client` — one request, from the name query to the closed socket

    `request` checks its arguments, asks for the address, connects, and from then
    on has a guard that closes the socket however the rest ends: one `send` of the
    whole message, the head up to the blank line, and the body that the head
    announces.

    The model follows the source part by part.  `establish` is all before the
    guard, `receive` all behind the `send`, `exchange` the two of them.  Strings
    that views point into are kept by number; the head is a local of
    `read_headers`, so its views outlive it.

    `Session` is a client over many requests.  `Unused` is what holds of it in all
    of them: while the socket is open, nothing has been read yet. -/

namespace CoioHttpClient

open CoioStreamBuffer CoioHttpParser CoioHttpRead CoioHttpMessage CoioProg CoioSearch

/-! ## Connecting -/

/-- `sizeof(sockaddr_in)`. -/
def sockaddrLen : Nat := 16

/-- `EBADF`, the answer of the kernel on a descriptor that is not open. -/
def badDescriptor : Int := 9

/-- `m_tcp_client.connect(addr_view.to_address())`. -/
def connectTo (a : Addr) : Act Unit := fun w =>
  if a.addrlen ≠ sockaddrLen then (.thrown .logicError, w)
  else if w.client.fd < 0 then (.thrown (.systemError badDescriptor), w.log [.connect false])
  else
    match a.refused with
    | some code => (.thrown (.systemError code), w.log [.connect false])
    | none => (.value (), w.log [.connect true])

/-- The loop of `connect` over the address list. -/
def connect : List Addr → Act Bool
  | [] => return false
  | a :: list => Prog.catchAll (do connectTo a; return true) fun _ => connect list

/-- A string up to its first zero, as `c_str()` hands it on. -/
def cStr (s : Bytes) : Bytes := s.takeWhile (· != 0)

/-- `"http"`. -/
def http : Bytes := [104, 116, 116, 112]

/-- `async_query`. -/
def asyncQuery (host service : Bytes) : Act (Option (List Addr)) := fun w =>
  match w.server.query host service with
  | .error e => (.thrown e, w)
  | .ok list => (.value list, w)

/-- `request` up to the guard: the URL of the server that is connected, or the error. -/
def establish (method : HttpMethod) (url body : Bytes) : Act (Except String Url) :=
  if method ≠ .post ∧ body ≠ [] then return .error "method error"
  else
    match Url.parse url with
    | .error _ => return .error "invalid url"
    | .ok u =>
        if u.proto ≠ http then return .error "unsupport protocal"
        else do
          match ← asyncQuery (cStr u.host) http with
          | none => return .error "invalid host name"
          | some list =>
              if ← connect list then return .ok u else return .error "host connection failed"

/-! ## Sending and receiving -/

/-- The world behind a `send`. -/
def sendDone (w : World) (c : Call) : World :=
  { w.log [c] with server := { w.server with sends := w.server.sends.tail } }

/-- `m_tcp_client.socket().send`; as in `recv`, the length has 32 bits. -/
def send (msg : Bytes) : Act Nat := fun w =>
  let most := msg.length % 2 ^ 32
  match w.server.sends.headD (.take most) with
  | .fail code => (.thrown (.systemError code), sendDone w .sendFailed)
  | .take n =>
      let bs := msg.take (amount n most)
      (.value bs.length, sendDone w (.send bs))

/-- A local string comes to life; its number is returned. -/
def newString (s : Bytes) : Act Nat := fun w =>
  (.value w.strings.length, { w with strings := w.strings ++ [some s] })

/-- The end of a local string. -/
def dropString (owner : Nat) (w : World) : World := { w with strings := w.strings.set owner none }

/-- `m_parser->parse_response`. -/
def parseHead (phr : Bytes → PhrResult) (owner : Nat) (head : Bytes) : Act Int := fun w =>
  let r := parseResponse phr owner head w.client.mParser
  let w' := { w with client := { w.client with mParser := r.2 } }
  match r.1 with
  | .error e => (.thrown e, w')
  | .ok len => (.value len, w')

/-- `read_headers` with its string `head`; the length that `parse_response` returns
    becomes a `bool`. -/
def checkHead (phr : Bytes → PhrResult) (owner : Nat) (head : Bytes) : Act Bool :=
  if head = [] ∨ ¬ dcrlf <:+ head then return false
  else do
    let len ← parseHead phr owner head
    return decide (len ≠ 0)

def readHeaders (phr : Bytes → PhrResult) : Act Bool := do
  let head ← readUntil dcrlf
  let owner ← newString head
  Prog.onExit (dropString owner) (checkHead phr owner head)

/-- The bytes of a view; `none` is what is read of a string that is gone.  An empty view
    reads nothing. -/
def readView (strings : List (Option Bytes)) (v : View) : Option Bytes :=
  if v.span.len = 0 then some []
  else (strings[v.owner]?.join).map fun s => slice s v.span

/-- `http_response`; `header` are the strings that `http_header` copies. -/
structure HttpResponse where
  header : List (Option Bytes × Option Bytes)
  rsp : Bytes
  bodyLength : Nat
  statusCode : Int
  deriving DecidableEq

/-- The response before its body is read. -/
def startResponse (w : World) : HttpResponse where
  header := w.client.mParser.headers.map fun h => (readView w.strings h.name, readView w.strings h.value)
  rsp := []
  bodyLength := w.client.mParser.bodyLen
  statusCode := w.client.mParser.status

abbrev Result := Except String HttpResponse

/-- `request` behind the head. -/
def readResponse (response : HttpResponse) : Act Result :=
  if response.bodyLength = 0 then return .ok response
  else do
    let rsp ← readBody response.bodyLength
    return .ok { response with rsp := rsp }

/-- `request` behind the `send`. -/
def receive (phr : Bytes → PhrResult) : Act Result := do
  if ← readHeaders phr then
    let response ← Prog.gets startResponse
    readResponse response
  else return .error "http response parse error"

/-- `request` behind the guard. -/
def exchange (phr : Bytes → PhrResult) (u : Url) (method : HttpMethod) (body : Bytes) :
    Act Result := do
  let mHeaders ← Prog.gets fun w => w.client.mHeaders
  let _ ← send (buildMsg mHeaders u method body)
  receive phr

/-- `m_tcp_client.socket().close()`. -/
def closeSocket (w : World) : World :=
  { w.log [.close w.client.fd] with client := { w.client with fd := -1 } }

def request (phr : Bytes → PhrResult) (method : HttpMethod) (url body : Bytes) : Act Result := do
  match ← establish method url body with
  | .error e => return .error e
  | .ok u => Prog.onExit closeSocket (exchange phr u method body)

/-! ## Up to the guard -/

theorem log_nil (w : World) : w.log [] = w := by
  unfold World.log
  rw [List.append_nil]

theorem log_log (w : World) (cs cs' : List Call) :
    (w.log cs).log cs' = w.log (cs ++ cs') := by
  unfold World.log
  rw [List.append_assoc]

/-- What `connect` comes to, and the calls it makes, on a socket that is open or not. -/
def attempt (isOpen : Bool) : List Addr → Bool × List Call
  | [] => (false, [])
  | a :: list =>
      if a.addrlen ≠ sockaddrLen then attempt isOpen list
      else if isOpen ∧ a.refused = none then (true, [.connect true])
      else ((attempt isOpen list).1, .connect false :: (attempt isOpen list).2)

/-- An address that fails, with or without a call, leaves the rest of the list. -/
theorem connect_next {a : Addr} {list : List Addr} {w w' : World} {e : Exn}
    (h : connectTo a w = (.thrown e, w')) : connect (a :: list) w = connect list w' :=
  catchAll_thrown (bind_thrown h)

theorem connect_eq (list : List Addr) (w : World) :
    connect list w = (.value (attempt (decide (0 ≤ w.client.fd)) list).1,
      w.log (attempt (decide (0 ≤ w.client.fd)) list).2) := by
  induction list generalizing w with
  | nil => exact congrArg (Prod.mk _) (log_nil w).symm
  | cons a list ih =>
      have hrest : connect list (w.log [.connect false])
          = (.value (attempt (decide (0 ≤ w.client.fd)) list).1,
            w.log (.connect false :: (attempt (decide (0 ≤ w.client.fd)) list).2)) :=
        (ih (w.log [.connect false])).trans (congrArg (Prod.mk _) (log_log ..))
      unfold attempt
      by_cases hlen : a.addrlen ≠ sockaddrLen
      · rw [if_pos hlen, connect_next (if_pos hlen), ih w]
      rw [if_neg hlen]
      by_cases hfd : w.client.fd < 0
      · have hcall : connectTo a w
            = (.thrown (.systemError badDescriptor), w.log [.connect false]) := by
          unfold connectTo
          rw [if_neg hlen, if_pos hfd]
        rw [if_neg (by simp; omega), connect_next hcall, hrest]
      · have hopen : decide (0 ≤ w.client.fd) = true := by simp; omega
        rw [hopen] at hrest ⊢
        cases hrefused : a.refused with
        | none =>
            have hcall : connectTo a w = (.value (), w.log [.connect true]) := by
              unfold connectTo
              rw [if_neg hlen, if_neg hfd, hrefused]
            rw [if_pos ⟨rfl, rfl⟩]
            exact catchAll_value (bind_value hcall)
        | some code =>
            have hcall : connectTo a w
                = (.thrown (.systemError code), w.log [.connect false]) := by
              unfold connectTo
              rw [if_neg hlen, if_neg hfd, hrefused]
            rw [if_neg (by simp), connect_next hcall, hrest]

/-- On a socket that is closed, no address can be reached. -/
theorem attempt_closed (list : List Addr) : (attempt false list).1 = false := by
  induction list with
  | nil => rfl
  | cons a list ih =>
      unfold attempt
      split
      · exact ih
      · rw [if_neg (by simp)]
        exact ih

/-- An open socket is connected exactly if an address of the right kind does not refuse. -/
theorem attempt_open {list : List Addr} :
    (attempt true list).1 = true ↔ ∃ a ∈ list, a.addrlen = sockaddrLen ∧ a.refused = none := by
  induction list with
  | nil => simp [attempt]
  | cons a list ih =>
      unfold attempt
      split
      · rename_i hlen
        simp [ih, hlen]
      · rename_i hlen
        split
        · rename_i hyes
          simp [Classical.not_not.mp hlen, hyes.2]
        · rename_i hno
          simp only [true_and] at hno
          simp [ih, hno]

/-- The calls are attempts, and the last of them is the one that succeeds. -/
theorem attempt_calls (isOpen : Bool) (list : List Addr) :
    ∃ n, (attempt isOpen list).2
      = List.replicate n (.connect false) ++ if (attempt isOpen list).1 then [.connect true] else [] := by
  induction list with
  | nil => exact ⟨0, rfl⟩
  | cons a list ih =>
      obtain ⟨n, hn⟩ := ih
      unfold attempt
      split
      · exact ⟨n, hn⟩
      split
      · exact ⟨0, rfl⟩
      · refine ⟨n + 1, ?_⟩
        rw [hn]
        rfl

/-- What `establish` comes to, and its calls: only whether the socket is open matters. -/
def answer (isOpen : Bool) (query : Bytes → Bytes → Except Exn (Option (List Addr)))
    (method : HttpMethod) (url body : Bytes) : Outcome Exn (Except String Url) × List Call :=
  if method ≠ .post ∧ body ≠ [] then (.value (.error "method error"), [])
  else
    match Url.parse url with
    | .error _ => (.value (.error "invalid url"), [])
    | .ok u =>
        if u.proto ≠ http then (.value (.error "unsupport protocal"), [])
        else
          match query (cStr u.host) http with
          | .error e => (.thrown e, [])
          | .ok none => (.value (.error "invalid host name"), [])
          | .ok (some list) =>
              (.value (if (attempt isOpen list).1 then .ok u else .error "host connection failed"),
                (attempt isOpen list).2)

theorem establish_eq (method : HttpMethod) (url body : Bytes) (w : World) :
    establish method url body w
      = ((answer (decide (0 ≤ w.client.fd)) w.server.query method url body).1,
        w.log (answer (decide (0 ≤ w.client.fd)) w.server.query method url body).2) := by
  unfold establish answer
  split
  · exact congrArg (Prod.mk _) (log_nil w).symm
  cases Url.parse url with
  | error e => exact congrArg (Prod.mk _) (log_nil w).symm
  | ok u =>
      dsimp only
      split
      · exact congrArg (Prod.mk _) (log_nil w).symm
      have hask : asyncQuery (cStr u.host) http w = match w.server.query (cStr u.host) http with
          | .error e => (.thrown e, w)
          | .ok list => (.value list, w) := rfl
      cases hquery : w.server.query (cStr u.host) http with
      | error e =>
          rw [hquery] at hask
          rw [bind_thrown hask, log_nil]
      | ok found =>
          rw [hquery] at hask
          rw [bind_value hask]
          cases found with
          | none => exact congrArg (Prod.mk _) (log_nil w).symm
          | some list =>
              dsimp only
              rw [bind_value (connect_eq list w)]
              split <;> rfl

section Answer

variable {query : Bytes → Bytes → Except Exn (Option (List Addr))} {method : HttpMethod}
  {url body : Bytes}

/-- The calls before the guard; one of them has succeeded exactly if there is a guard. -/
theorem answer_calls (isOpen : Bool) :
    ∃ n, ((∃ u, (answer isOpen query method url body).1 = .value (.ok u)) ∧
        (answer isOpen query method url body).2
          = List.replicate n (.connect false) ++ [.connect true]) ∨
      ((∀ u, (answer isOpen query method url body).1 ≠ .value (.ok u)) ∧
        (answer isOpen query method url body).2 = List.replicate n (.connect false)) := by
  unfold answer
  split
  · exact ⟨0, .inr ⟨(fun u h => nomatch h), rfl⟩⟩
  split
  · exact ⟨0, .inr ⟨(fun u h => nomatch h), rfl⟩⟩
  split
  · exact ⟨0, .inr ⟨(fun u h => nomatch h), rfl⟩⟩
  split
  · exact ⟨0, .inr ⟨(fun u h => nomatch h), rfl⟩⟩
  · exact ⟨0, .inr ⟨(fun u h => nomatch h), rfl⟩⟩
  · rename_i u _ _ _ list _
    obtain ⟨n, hn⟩ := attempt_calls isOpen list
    refine ⟨n, ?_⟩
    dsimp only
    rw [hn]
    split
    · exact .inl ⟨⟨u, rfl⟩, rfl⟩
    · exact .inr ⟨(fun u h => nomatch h), List.append_nil _⟩

/-- A closed socket changes the answer only where an open one would be connected. -/
theorem answer_closed :
    (answer false query method url body).1
      = match (answer true query method url body).1 with
        | .value (.ok _) => .value (.error "host connection failed")
        | o => o := by
  unfold answer
  split
  · rfl
  split
  · rfl
  split
  · rfl
  split
  · rfl
  · rfl
  · rename_i list _
    dsimp only
    rw [attempt_closed]
    cases (attempt true list).1 <;> rfl

theorem answer_ended (isOpen : Bool) : (answer isOpen query method url body).1.Ended := by
  unfold answer
  split
  · trivial
  split
  · trivial
  split
  · trivial
  split <;> trivial

/-- There is a connection exactly if the socket is open, the arguments are in order, and the
    name query gives an address that can be reached. -/
theorem answer_ok {isOpen : Bool} {u : Url} :
    (answer isOpen query method url body).1 = .value (.ok u) ↔
      isOpen = true ∧ ¬ (method ≠ .post ∧ body ≠ []) ∧ Url.parse url = .ok u ∧ u.proto = http ∧
        ∃ list, query (cStr u.host) http = .ok (some list) ∧
          ∃ a ∈ list, a.addrlen = sockaddrLen ∧ a.refused = none := by
  unfold answer
  split
  · rename_i hmethod
    exact iff_of_false (fun h => nomatch h) fun h => h.2.1 hmethod
  rename_i hmethod
  split
  · rename_i hparse
    refine iff_of_false (fun h => nomatch h) ?_
    rintro ⟨-, -, hu, -⟩
    exact nomatch hparse.symm.trans hu
  rename_i u' hparse
  have hsame : Url.parse url = .ok u → u' = u := fun hu => Except.ok.inj (hparse.symm.trans hu)
  split
  · rename_i hproto
    refine iff_of_false (fun h => nomatch h) ?_
    rintro ⟨-, -, hu, hhttp, -⟩
    exact hproto (hsame hu ▸ hhttp)
  rename_i hproto
  split
  · rename_i hquery
    refine iff_of_false (fun h => nomatch h) ?_
    rintro ⟨-, -, hu, -, list, hlist, -⟩
    rw [← hsame hu, hquery] at hlist
    exact nomatch hlist
  · rename_i hquery
    refine iff_of_false (fun h => nomatch h) ?_
    rintro ⟨-, -, hu, -, list, hlist, -⟩
    rw [← hsame hu, hquery] at hlist
    exact nomatch hlist
  · rename_i list hquery
    dsimp only
    constructor
    · intro h
      split at h
      · rename_i hyes
        obtain rfl : u' = u := Except.ok.inj (Outcome.value.inj h)
        cases isOpen with
        | false => exact nomatch (attempt_closed list).symm.trans hyes
        | true =>
            exact ⟨rfl, hmethod, hparse, Classical.not_not.mp hproto, list, hquery,
              attempt_open.mp hyes⟩
      · exact nomatch h
    · rintro ⟨rfl, -, hu, -, list', hlist, hreached⟩
      obtain rfl := hsame hu
      obtain rfl : list = list' :=
        Option.some.inj (Except.ok.inj (hquery.symm.trans hlist))
      rw [if_pos (attempt_open.mpr hreached)]

/-- The name query is made and throws. -/
def QueryThrows (query : Bytes → Bytes → Except Exn (Option (List Addr))) (method : HttpMethod)
    (url body : Bytes) : Prop :=
  ¬ (method ≠ .post ∧ body ≠ []) ∧ ∃ u e, Url.parse url = .ok u ∧ u.proto = http ∧
    query (cStr u.host) http = .error e

theorem answer_thrown {isOpen : Bool} :
    (∃ e, (answer isOpen query method url body).1 = .thrown e) ↔
      QueryThrows query method url body := by
  unfold answer QueryThrows
  split
  · rename_i hmethod
    exact iff_of_false (fun ⟨_, h⟩ => nomatch h) fun h => h.1 hmethod
  rename_i hmethod
  split
  · rename_i hparse
    refine iff_of_false (fun ⟨_, h⟩ => nomatch h) ?_
    rintro ⟨-, u, e, hu, -⟩
    rw [hparse] at hu
    exact nomatch hu
  rename_i u hparse
  have hsame : ∀ {u'}, Url.parse url = .ok u' → u' = u := fun hu' =>
    (Except.ok.inj (hparse.symm.trans hu')).symm
  split
  · rename_i hproto
    refine iff_of_false (fun ⟨_, h⟩ => nomatch h) ?_
    rintro ⟨-, u', e, hu', hhttp, -⟩
    exact hproto (hsame hu' ▸ hhttp)
  rename_i hproto
  split
  · rename_i e hquery
    exact iff_of_true ⟨e, rfl⟩ ⟨hmethod, u, e, hparse, Classical.not_not.mp hproto, hquery⟩
  all_goals
    rename_i hquery
    refine iff_of_false (fun ⟨_, h⟩ => nomatch h) ?_
    rintro ⟨-, u', e, hu', -, hthrow⟩
    rw [hsame hu', hquery] at hthrow
    exact nomatch hthrow

end Answer

/-! ## Behind the guard -/

/-- How the `send` ends. -/
inductive SendEnds (msg : Bytes) (w : World) : Outcome Exn Nat → World → Prop
  | sent (n : Nat)
      (h : w.server.sends.headD (.take (msg.length % 2 ^ 32)) = .take n) :
      SendEnds msg w (.value (msg.take (amount n (msg.length % 2 ^ 32))).length)
        (sendDone w (.send (msg.take (amount n (msg.length % 2 ^ 32)))))
  | failed (code : Int)
      (h : w.server.sends.headD (.take (msg.length % 2 ^ 32)) = .fail code) :
      SendEnds msg w (.thrown (.systemError code)) (sendDone w .sendFailed)

theorem send_ends (msg : Bytes) (w : World) : Ends (send msg) w (SendEnds msg w) := by
  unfold Ends send
  dsimp only
  split
  · rename_i code h
    exact .failed code h
  · rename_i n h
    exact .sent n h

/-- A `send` that returns has handed over some of the message. -/
theorem SendEnds.taken {msg : Bytes} {w w' : World} {len : Nat}
    (h : SendEnds msg w (.value len) w') :
    ∃ n, w.server.sends.headD (.take (msg.length % 2 ^ 32)) = .take n ∧
      w' = sendDone w (.send (msg.take (amount n (msg.length % 2 ^ 32)))) := by
  generalize ho : Outcome.value len = o at h
  cases h with
  | sent n h => exact ⟨n, h, rfl⟩
  | failed code h => exact nomatch ho

/-- From `w` to `w'` the socket has only been listened to. -/
def Listens (w w' : World) : Prop :=
  ∃ cs, w'.calls = w.calls ++ cs ∧ (∀ c ∈ cs, c.isRecv) ∧ w'.client.fd = w.client.fd ∧
    w'.client.mHeaders = w.client.mHeaders

instance : IsPreorder World Listens where
  refl w := ⟨[], (List.append_nil _).symm, fun _ h => absurd h List.not_mem_nil, rfl, rfl⟩
  trans := by
    rintro w w' w'' ⟨cs, hcalls, honly, hfd, hheaders⟩ ⟨cs', hcalls', honly', hfd', hheaders'⟩
    refine ⟨cs ++ cs', ?_, ?_, hfd'.trans hfd, hheaders'.trans hheaders⟩
    · rw [hcalls', hcalls, List.append_assoc]
    · exact fun c hc => (List.mem_append.mp hc).elim (honly c) (honly' c)

theorem listens_of_readsOn {w w' : World} : ReadsOn w w' → Listens w w' := by
  rintro ⟨cs, h⟩
  exact ⟨cs, h.calls_eq, h.recv_only, by rw [h.client_eq], by rw [h.client_eq]⟩

theorem moves_readHeaders (phr : Bytes → PhrResult) : Moves Listens (readHeaders phr) := by
  refine moves_bind ((moves_readUntil dcrlf).mono fun _ _ => listens_of_readsOn) fun head => ?_
  have hquiet : ∀ {w w' : World}, w'.calls = w.calls → w'.client.fd = w.client.fd →
      w'.client.mHeaders = w.client.mHeaders → Listens w w' := fun hcalls hfd hheaders =>
    ⟨[], hcalls.trans (List.append_nil _).symm, fun _ h => absurd h List.not_mem_nil, hfd,
      hheaders⟩
  refine moves_bind (moves_value fun w => hquiet rfl rfl rfl) fun owner => ?_
  refine moves_onExit (fun w => hquiet rfl rfl rfl) ?_
  unfold checkHead
  split
  · exact moves_pure _
  · refine moves_bind ?_ fun len => moves_pure _
    intro w
    unfold Ends parseHead
    dsimp only
    split
    · exact ⟨trivial, hquiet rfl rfl rfl⟩
    · exact ⟨trivial, hquiet rfl rfl rfl⟩

theorem moves_readResponse (response : HttpResponse) :
    Moves ReadsOn (readResponse response) := by
  unfold readResponse
  split
  · exact moves_pure _
  · exact moves_bind (moves_readBody _) fun rsp => moves_pure _

theorem moves_receive (phr : Bytes → PhrResult) : Moves Listens (receive phr) := by
  refine moves_bind (moves_readHeaders phr) fun found => ?_
  split
  · exact moves_bind (moves_gets _) fun response =>
      (moves_readResponse response).mono fun _ _ => listens_of_readsOn
  · exact moves_pure _

/-! ## The head -/

section Head

variable {phr : Bytes → PhrResult} {w w₁ : World} {head : Bytes}

/-- Behind `read_headers` its string is gone. -/
def forget (w : World) : World := { w with strings := w.strings ++ [none] }

theorem dropString_last (w : World) (head : Bytes) :
    dropString w.strings.length { w with strings := w.strings ++ [some head] } = forget w := by
  unfold dropString forget
  simp

theorem readHeaders_eq (h : readUntil dcrlf w = (.value head, w₁)) :
    readHeaders phr w = Prog.onExit (dropString w₁.strings.length)
      (checkHead phr w₁.strings.length head) { w₁ with strings := w₁.strings ++ [some head] } :=
  bind_value h

/-- The head does not end with the blank line. -/
theorem readHeaders_short (h : readUntil dcrlf w = (.value head, w₁)) (hs : ¬ dcrlf <:+ head) :
    readHeaders phr w = (.value false, forget w₁) := by
  rw [readHeaders_eq h, ← dropString_last w₁ head]
  refine onExit_value ?_
  unfold checkHead
  rw [if_pos (.inr hs)]
  rfl

/-- The world when the head has been parsed. -/
def parsed (phr : Bytes → PhrResult) (head : Bytes) (w : World) : World :=
  forget { w with client := { w.client with
    mParser := (parseResponse phr w.strings.length head w.client.mParser).2 } }

/-- The head is parsed; what the parser returns is only compared with zero. -/
theorem readHeaders_parsed (h : readUntil dcrlf w = (.value head, w₁)) (hs : dcrlf <:+ head) :
    readHeaders phr w =
      ((match (parseResponse phr w₁.strings.length head w₁.client.mParser).1 with
        | .error e => .thrown e
        | .ok len => .value (decide (len ≠ 0))), parsed phr head w₁) := by
  have hne : head ≠ [] := fun hnil => by
    rw [hnil] at hs
    exact nomatch List.suffix_nil.mp hs
  rw [readHeaders_eq h]
  unfold checkHead parsed
  rw [if_neg (by simp [hne, hs]), ← dropString_last _ head]
  cases hparse : (parseResponse phr w₁.strings.length head w₁.client.mParser).1 with
  | error e =>
      refine onExit_thrown (bind_thrown ?_)
      unfold parseHead
      dsimp only
      rw [hparse]
  | ok len =>
      refine onExit_value (bind_value ?_)
      unfold parseHead
      dsimp only
      rw [hparse]

/-- The verdict on a head that ends with the blank line. -/
theorem readHeaders_verdict (h : readUntil dcrlf w = (.value head, w₁)) (hs : dcrlf <:+ head) :
    (∃ e, (readHeaders phr w).1 = .thrown e) ∨
      (readHeaders phr w).1 = .value (decide ((phr head).ret ≠ 0)) := by
  rw [readHeaders_parsed h hs]
  cases hparse : (parseResponse phr w₁.strings.length head w₁.client.mParser).1 with
  | error e => exact .inl ⟨e, rfl⟩
  | ok len =>
      rw [parseResponse_ret hparse]
      exact .inr rfl

end Head

/-! ## The response -/

/-- The span that a request offers to its next `recv` when it has received `got` and its
    body has `need` bytes: `read_until` and then `read_body`. -/
def offered (need : Nat) (got : Bytes) : Nat :=
  match find got dcrlf 0 with
  | none => if got = [] then 512 else 256
  | some i => max (need - (got.length - (i + dcrlf.length))) 64

/-- What a server delivers to a request whose body has `need` bytes before it closes or a
    `recv` fails, and whether one fails. -/
def delivered (server : Server) (need : Nat) : Bytes × Bool :=
  delivery (offered need) server.recvs [] server.stream

/-- All of the head is delivered. -/
def HeadArrives (server : Server) : Prop := dcrlf <:+: (delivered server 0).1

instance (server : Server) : Decidable (HeadArrives server) :=
  inferInstanceAs (Decidable (_ <:+: _))

/-- A `recv` fails before all of the head is delivered. -/
def HeadBroken (server : Server) : Prop :=
  (delivered server 0).2 = true ∧ ¬ HeadArrives server

/-- The head, as it is sent. -/
def headOf (server : Server) : Bytes := upTo dcrlf server.stream

/-- What is delivered behind the head to a request whose body has `need` bytes. -/
def behindHead (server : Server) (need : Nat) : Bytes :=
  (delivered server need).1.drop (headOf server).length

/-- How `receive` ends on a server. -/
inductive ReceiveEnds (phr : Bytes → PhrResult) (server : Server) : Outcome Exn Result → Prop
  /-- a `recv` has failed before the head was complete -/
  | broken (e : Exn) (hbroken : HeadBroken server) : ReceiveEnds phr server (.thrown e)
  /-- the stream has ended before the head was complete -/
  | incomplete (hquiet : (delivered server 0).2 = false) (hmissing : ¬ HeadArrives server) :
      ReceiveEnds phr server (.value (.error "http response parse error"))
  /-- the announced length cannot be converted -/
  | badLength (e : Exn) (harrives : HeadArrives server)
      (hlength : announced phr (headOf server) = .error e) : ReceiveEnds phr server (.thrown e)
  /-- the parser has returned zero -/
  | rejected (v : Int) (harrives : HeadArrives server)
      (hlength : announced phr (headOf server) = .ok v) (hret : (phr (headOf server)).ret = 0) :
      ReceiveEnds phr server (.value (.error "http response parse error"))
  /-- the announced length is negative, and no string is as long as it then says -/
  | negative (v : Int) (harrives : HeadArrives server)
      (hlength : announced phr (headOf server) = .ok v) (hret : (phr (headOf server)).ret ≠ 0)
      (hv : v < 0) : ReceiveEnds phr server (.thrown .lengthError)
  | answered (v : Int) (r : HttpResponse) (harrives : HeadArrives server)
      (hlength : announced phr (headOf server) = .ok v) (hret : (phr (headOf server)).ret ≠ 0)
      (hv : 0 ≤ v) (hannounced : r.bodyLength = v.toNat)
      (hstatus : r.statusCode = (phr (headOf server)).status)
      (hrsp : r.rsp = (behindHead server r.bodyLength).take r.bodyLength) :
      ReceiveEnds phr server (.value (.ok r))

/-- What is received does not depend on what is sent. -/
theorem ReceiveEnds.of_sends {phr : Bytes → PhrResult} {server : Server} {sends : List Choice}
    {o : Outcome Exn Result} (h : ReceiveEnds phr { server with sends := sends } o) :
    ReceiveEnds phr server o := by
  cases h with
  | broken e hbroken => exact .broken e hbroken
  | incomplete hquiet hmissing => exact .incomplete hquiet hmissing
  | badLength e harrives hlength => exact .badLength e harrives hlength
  | rejected v harrives hlength hret => exact .rejected v harrives hlength hret
  | negative v harrives hlength hret hv => exact .negative v harrives hlength hret hv
  | answered v r harrives hlength hret hv hannounced hstatus hrsp =>
      exact .answered v r harrives hlength hret hv hannounced hstatus hrsp

theorem offered_until (need : Nat) : OffersUntil dcrlf (offered need) := by
  intro got hnone
  unfold offered
  rw [hnone]

/-- Behind the head, what is offered is what is missing of the body. -/
theorem offered_body {got : Bytes} (h : find got dcrlf 0 ≠ none) (need : Nat) :
    OffersBody (need - (got.drop (upTo dcrlf got).length).length) (offered need) got := by
  obtain ⟨i, hi⟩ := Option.ne_none_iff_exists'.mp h
  obtain ⟨-, hle, hocc, -⟩ := find_eq_some.mp hi
  have hfit := hocc.le_length hle
  intro bs hbs
  unfold offered
  rw [upTo_of_some hi, List.length_take_of_le hfit, List.length_drop] at hbs ⊢
  rw [find_append hi, List.length_append]
  dsimp only
  congr 1
  omega

theorem status_parseResponse (phr : Bytes → PhrResult) (owner : Nat) (str : Bytes)
    (p : HttpParser) : (parseResponse phr owner str p).2.status = (phr str).status := by
  unfold parseResponse
  dsimp only
  split
  · rfl
  · split
    · rfl
    · rfl

theorem receive_false {phr : Bytes → PhrResult} {w w' : World}
    (h : readHeaders phr w = (.value false, w')) :
    receive phr w = (.value (.error "http response parse error"), w') :=
  bind_value h

theorem receive_true {phr : Bytes → PhrResult} {w w' : World}
    (h : readHeaders phr w = (.value true, w')) :
    receive phr w = readResponse (startResponse w') w' :=
  bind_value h

/-- A body that a string can hold. -/
theorem readResponse_ends {response : HttpResponse} {R : Bytes} {m : Nat} {w : World}
    (hlen : m + w.server.stream.length < 2 ^ 31) (hR : R.length < 2 ^ 31)
    (hneed : response.bodyLength < 2 ^ 31) (hnil : response.rsp = []) (hbuf : Holds w.buf R m) :
    Ends (readResponse response) w fun o _ => ∃ bs, Fills (response.bodyLength - R.length) w bs ∧
      o = .value (.ok { response with rsp := (R ++ bs).take response.bodyLength }) := by
  unfold readResponse
  split
  · rename_i hzero
    refine ends_pure ⟨[], fills_nil (by omega) w, ?_⟩
    rw [hzero, List.take_zero, ← hnil, ← hzero]
  · refine ends_bind (readBody_ends hlen hR hneed hbuf) ?_ ?_ ?_
    · rintro rsp w' ⟨cs, -, hrsp, hfills, -⟩
      rw [Outcome.value.inj hrsp]
      exact ends_pure ⟨_, hfills, rfl⟩
    · rintro e w' ⟨cs, -, h, -⟩
      exact nomatch h
    · rintro w' ⟨cs, -, h, -⟩
      exact nomatch h

/-- A body that no string can hold. -/
theorem readResponse_tooLong {response : HttpResponse} {R : Bytes} {m : Nat} {w : World}
    (hR : R.length < 2 ^ 31) (hneed : maxString + 2 ^ 31 ≤ response.bodyLength)
    (hbuf : Holds w.buf R m) :
    Ends (readResponse response) w fun o _ => o = .thrown .lengthError := by
  have hpos : 0 < maxString + 2 ^ 31 := by decide
  unfold readResponse
  rw [if_neg (by omega)]
  exact ends_bind (readBody_tooLong hR hneed hbuf) (fun _ _ h => nomatch h)
    (fun _ _ h => congrArg _ (Outcome.thrown.inj h)) (fun _ h => nomatch h)

/-- What is read behind the head, from the buffer and from the server, is what the server
    delivers there, up to the length that is needed. -/
theorem take_behindHead {need : Nat} {w : World} {got bs D : Bytes}
    (hfound : find got dcrlf 0 ≠ none) (hD : (w.deliver (offered need) got).1 = D)
    (hfills : Fills (need - (got.drop (upTo dcrlf got).length).length) w bs) :
    (got.drop (upTo dcrlf got).length ++ bs).take need
      = (D.drop (upTo dcrlf got).length).take need := by
  obtain ⟨⟨more, hmore⟩, hshort⟩ := hfills _ _ (offered_body hfound need)
  rw [hD] at hmore hshort
  have hle : (upTo dcrlf got).length ≤ got.length := (upTo_initial dcrlf got).length_le
  rw [← hmore, List.append_assoc, List.drop_append_of_le_length hle, ← List.append_assoc]
  by_cases henough : need ≤ (got.drop (upTo dcrlf got).length ++ bs).length
  · rw [List.take_append_of_le_length henough]
  · rw [List.length_append] at henough
    have hnone : got ++ bs ++ more = got ++ bs := hmore.trans (hshort (by omega))
    rw [List.append_right_eq_self.mp hnone, List.append_nil]

/-- A head that is accepted, and what is received behind it; `server` is the server before
    the head was read. -/
theorem accepted_ends {phr : Bytes → PhrResult} {w : World} {got : Bytes} {v : Int}
    {server : Server} (hhead : upTo dcrlf got = headOf server)
    (hfound : find got dcrlf 0 ≠ none) (harrives : HeadArrives server)
    (hdelivered : ∀ need, delivered server need = w.deliver (offered need) got)
    (hlength : announced phr (headOf server) = .ok v) (hret : (phr (headOf server)).ret ≠ 0)
    (hsize : (parsed phr (headOf server) w).client.mParser.bodyLen = intToSize v)
    (hlen : got.length + w.server.stream.length < 2 ^ 31)
    (hbuf : Holds w.buf (got.drop (headOf server).length) got.length) :
    Ends (readResponse (startResponse (parsed phr (headOf server) w)))
      (parsed phr (headOf server) w) fun o _ => ReceiveEnds phr server o := by
  obtain ⟨hlow, hhigh⟩ := announced_range hlength
  have hR : (got.drop (headOf server).length).length < 2 ^ 31 := by
    rw [List.length_drop]
    omega
  by_cases hv : v < 0
  · have hhuge : maxString + 2 ^ 31
        ≤ (startResponse (parsed phr (headOf server) w)).bodyLength := by
      refine Nat.le_trans ?_ (hsize ▸ intToSize_of_neg hv hlow)
      decide
    refine (readResponse_tooLong (w := parsed phr (headOf server) w) hR hhuge hbuf).mono ?_
    rintro o - rfl
    exact .negative v harrives hlength hret hv
  · have hnat : (startResponse (parsed phr (headOf server) w)).bodyLength = v.toNat :=
      hsize.trans (intToSize_of_nonneg (by omega) hhigh)
    refine (readResponse_ends (w := parsed phr (headOf server) w) hlen hR (by omega) rfl hbuf).mono
      ?_
    rintro o - ⟨bs, hfills, rfl⟩
    refine .answered v _ harrives hlength hret (by omega) hnat (status_parseResponse ..) ?_
    rw [← hhead] at hfills
    have htake := take_behindHead hfound (congrArg Prod.fst (hdelivered _).symm) hfills
    rw [hhead] at htake
    exact htake

theorem receive_ends {phr : Bytes → PhrResult} {w : World}
    (hlen : w.server.stream.length < 2 ^ 31) (hbuf : Holds w.buf [] 0)
    (hparser : w.client.mParser.bodyLen = 0) :
    Ends (receive phr) w fun o _ => ReceiveEnds phr w.server o := by
  rcases hrun : readUntil dcrlf w with ⟨o, w₁⟩
  have huntil := (readUntil_ends (by decide) hlen hbuf).out hrun
  cases o with
  | diverged => exact huntil.elim
  | thrown e =>
      obtain ⟨cs, hreads, hfailed, hdelivered, hmissing⟩ := huntil
      have hall : delivered w.server 0 = _ := hdelivered _ (offered_until 0)
      rw [if_pos hmissing] at hall
      refine .of_eq (bind_thrown (bind_thrown hrun)) (.broken e ⟨congrArg Prod.snd hall, ?_⟩)
      rw [HeadArrives, hall]
      exact find_eq_none_iff.mp hmissing
  | value head =>
      obtain ⟨cs, hreads, hquiet, hdelivered, hhead, hholds, hend⟩ := huntil
      have hsent : headOf w.server = head := by
        rw [headOf, hreads.stream_eq, upTo_append hend, hhead]
      have hall : ∀ need, delivered w.server need = _ := fun need =>
        hdelivered _ (offered_until need)
      by_cases hs : dcrlf <:+ head
      · have hfound : find (received cs) dcrlf 0 ≠ none := suffix_upTo.mp (hhead ▸ hs)
        simp only [if_neg hfound] at hall
        have hparsed : readHeaders phr w = _ := readHeaders_parsed hrun hs
        have hbodyLen : w₁.client.mParser.bodyLen = 0 := by
          rw [hreads.client_eq]
          exact hparser
        have harrives : HeadArrives w.server := by
          have hin : dcrlf <:+: received cs := Classical.not_not.mp (mt find_eq_none_iff.mpr hfound)
          unfold HeadArrives
          rw [hall 0]
          exact hin.trans (initial_delivery ..).isInfix
        cases hlength : announced phr head with
        | error e =>
            rw [parseResponse_error hlength] at hparsed
            exact .of_eq (bind_thrown hparsed) (.badLength e harrives (hsent.symm ▸ hlength))
        | ok v =>
            obtain ⟨hret, hsize⟩ := parseResponse_ok (p := w₁.client.mParser) hlength hbodyLen
            rw [hret] at hparsed
            by_cases hzero : (phr head).ret = 0
            · have hfalse : readHeaders phr w = (.value false, parsed phr head w₁) := by
                rw [hparsed, hzero]
                rfl
              exact .of_eq (receive_false hfalse)
                (.rejected v harrives (hsent.symm ▸ hlength) (hsent.symm ▸ hzero))
            · have htrue : readHeaders phr w = (.value true, parsed phr head w₁) := by
                rw [hparsed]
                exact congrArg (fun b => (Outcome.value b, _)) (decide_eq_true hzero)
              have htotal := hreads.received_length
              refine Ends.congr (receive_true htrue) ?_
              rw [← hsent] at hhead hlength hzero hsize hholds ⊢
              exact accepted_ends hhead.symm hfound harrives hall hlength hzero hsize (by omega)
                hholds
      · have hmissing : find (received cs) dcrlf 0 = none := by
          rw [hhead] at hs
          exact Classical.not_not.mp (mt suffix_upTo.mpr hs)
        simp only [if_pos hmissing] at hall
        refine .of_eq (receive_false (readHeaders_short hrun hs))
          (.incomplete (congrArg Prod.snd (hall 0)) ?_)
        rw [HeadArrives, hall]
        exact find_eq_none_iff.mp hmissing

end CoioHttpClient
