import Coio.HttpParserProofs
import Coio.ProgProofs
import Coio.SearchProofs

/-! # `read_until` and `read_body` — a stream that TCP cuts as it likes

    The client reads a response through `m_read_streambuf`: `recv` writes a chunk
    into the span that `prepare` has opened, `commit` makes it part of the data,
    `consume` takes the data out again.  `read_until` searches the data for a
    delimiter after each chunk, from where an occurrence can still begin, and
    leaves what follows the delimiter in the buffer.  `read_body` first empties
    the buffer and then asks for what is missing.

    A server is the stream it sends and one choice for each call: how many bytes
    the call moves, or the error it fails with.  `delivery` is what comes of them for a
    reader that goes on until the stream ends or a call fails.  `Reads` says what reading
    leaves alone, for any buffer and any choices.  `Holds` is the abstract content of the
    buffer.  Together: what is returned depends on the stream only, and is what the server
    has delivered. -/

namespace CoioHttpRead

open CoioStreamBuffer CoioHttpParser CoioProg CoioSearch

/-! ## The client and the other side -/

/-- What a call on the socket does: move some bytes, or fail. -/
inductive Choice where
  | take (n : Nat)
  | fail (code : Int)
  deriving DecidableEq

/-- A node of the address list, and how the connection to it ends (`none`: it is
    established). -/
structure Addr where
  addrlen : Nat
  refused : Option Int
  deriving DecidableEq

/-- One server, as a client meets it: the answer to the name query, a choice for each
    `send` and each `recv`, and the bytes it sends before it closes.  When the choices
    are used up, a call moves all it can. -/
structure Server where
  query : Bytes → Bytes → Except Exn (Option (List Addr))
  sends : List Choice
  recvs : List Choice
  stream : Bytes

/-- `http_client`; `mHeaders` is a `std::map`, in the order of its keys. -/
structure HttpClient where
  fd : Int
  mReadStreambuf : StreamBuffer
  mParser : HttpParser
  mHeaders : List (Bytes × Bytes)
  deriving DecidableEq

/-- A new client, whose socket is `fd`. -/
def HttpClient.init (fd : Int) : HttpClient :=
  { fd := fd, mReadStreambuf := CoioStreamBuffer.init, mParser := HttpParser.init, mHeaders := [] }

/-- The calls made on the socket. -/
inductive Call where
  | connect (done : Bool)
  | send (bs : Bytes)
  | sendFailed
  | recv (bs : Bytes)
  | recvFailed
  | close (fd : Int)
  deriving DecidableEq

/-- `strings` are the strings that views point into; one that is destroyed is `none`. -/
structure World where
  client : HttpClient
  strings : List (Option Bytes)
  server : Server
  calls : List Call

abbrev Act (α : Type) : Type := Prog World Exn α

/-- The bytes that have been received. -/
def received (calls : List Call) : Bytes :=
  calls.flatMap fun
    | .recv bs => bs
    | _ => []

@[simp] theorem received_append (cs cs' : List Call) :
    received (cs ++ cs') = received cs ++ received cs' :=
  List.flatMap_append

@[simp] theorem received_recv (bs : Bytes) : received [.recv bs] = bs := List.append_nil bs

@[simp] theorem received_recvFailed : received [.recvFailed] = [] := rfl

namespace World

def buf (w : World) : StreamBuffer := w.client.mReadStreambuf

def setBuf (w : World) (b : StreamBuffer) : World :=
  { w with client := { w.client with mReadStreambuf := b } }

def log (w : World) (cs : List Call) : World := { w with calls := w.calls ++ cs }

/-- The chunk `bs` of the stream lands in the span. -/
def gotChunk (w : World) (bs rest : Bytes) : World :=
  { w.setBuf (writeSpan w.buf 0 bs) with
    server := { w.server with stream := rest, recvs := w.server.recvs.tail }
    calls := w.calls ++ [.recv bs] }

def recvFails (w : World) : World :=
  { w with
    server := { w.server with recvs := w.server.recvs.tail }
    calls := w.calls ++ [.recvFailed] }

end World

/-- A call is offered `most` bytes and moves `n` of them, at least one if it can. -/
def amount (n most : Nat) : Nat := min most (max 1 n)

/-- `m_tcp_client.recv` of a span of `len` bytes at `pptr`; the length goes into the
    32 bits that `io_uring` has for it. -/
def recv (len : Nat) : Act Nat := fun w =>
  let most := min (len % 2 ^ 32) w.server.stream.length
  match w.server.recvs.headD (.take most) with
  | .fail code => (.thrown (.systemError code), w.recvFails)
  | .take n =>
      let bs := w.server.stream.take (amount n most)
      (.value bs.length, w.gotChunk bs (w.server.stream.drop (amount n most)))

/-! ## What a server delivers -/

/-- A reader that has `got` offers `offer got` bytes to its next `recv`, until the stream
    ends or a `recv` fails: the bytes it has then, and whether one has failed. -/
def delivery (offer : Bytes → Nat) : List Choice → Bytes → Bytes → Bytes × Bool
  | [], got, stream => (got ++ stream, false)
  | .fail _ :: _, got, _ => (got, true)
  | .take n :: recvs, got, stream =>
      if stream = [] then (got, false)
      else
        delivery offer recvs (got ++ stream.take (amount n (min (offer got) stream.length)))
          (stream.drop (amount n (min (offer got) stream.length)))

/-- What the server of `w` has still to deliver to a reader that has `got`. -/
def World.deliver (w : World) (offer : Bytes → Nat) (got : Bytes) : Bytes × Bool :=
  delivery offer w.server.recvs got w.server.stream

/-- A `recv` that delivers bytes. -/
def Choice.Delivers : Choice → Prop
  | .take _ => True
  | .fail _ => False

instance (c : Choice) : Decidable c.Delivers :=
  match c with
  | .take _ => isTrue trivial
  | .fail _ => isFalse id

section Delivery

variable {offer : Bytes → Nat} {recvs : List Choice} {got stream : Bytes}

/-- What has been delivered stays. -/
theorem initial_delivery (offer : Bytes → Nat) (recvs : List Choice) (got stream : Bytes) :
    got <+: (delivery offer recvs got stream).1 := by
  induction recvs generalizing got stream with
  | nil => exact List.prefix_append got stream
  | cons c recvs ih =>
      cases c with
      | fail code => exact List.prefix_refl got
      | take n =>
          unfold delivery
          split
          · exact List.prefix_refl got
          · exact (List.prefix_append got _).trans (ih _ _)

/-- If no `recv` fails, all of the stream is delivered, whatever is offered. -/
theorem delivery_whole (h : ∀ c ∈ recvs, c.Delivers) :
    delivery offer recvs got stream = (got ++ stream, false) := by
  induction recvs generalizing got stream with
  | nil => rfl
  | cons c recvs ih =>
      obtain ⟨hc, hrest⟩ := List.forall_mem_cons.mp h
      cases c with
      | fail code => exact hc.elim
      | take n =>
          unfold delivery
          split
          · rename_i hnil
            rw [hnil, List.append_nil]
          · rw [ih hrest, List.append_assoc, List.take_append_drop]

end Delivery

/-! ## The two functions -/

/-- `CRLF` and `DCRLF`. -/
def crlf : Bytes := [13, 10]

def dcrlf : Bytes := [13, 10, 13, 10]

/-- `prepare`, `commit`, `consume` and `data` of `m_read_streambuf`. -/
def prepareBuf (n : Nat) : Act Unit :=
  Prog.modifyOr .lengthError fun w => (prepare w.buf n).map w.setBuf

def commitBuf (n : Nat) : Act Unit := Prog.modify fun w => w.setBuf (commit w.buf n)

def consumeBuf (n : Nat) : Act Unit := Prog.modify fun w => w.setBuf (consume w.buf n)

def bufData : Act Bytes := Prog.gets fun w => data w.buf

/-- More passes than a loop can make that receives a byte in each. -/
def passes : Act Nat := Prog.gets fun w => w.server.stream.length + 1

/-- A pass of the `while` loop of `read_until`, with the length of `buf` and `beg`; the
    result of the loop is `result` as it stands behind it. -/
def readUntilPass (delim : Bytes) (st : Nat × Nat) : Act ((Nat × Nat) ⊕ Bytes) := do
  let n ← recv st.1
  if n = 0 then return .inr []
  else
    commitBuf n
    let str ← bufData
    match find str delim st.2 with
    | some pos =>
        consumeBuf (pos + delim.length)
        return .inr (str.take (pos + delim.length))
    | none =>
        prepareBuf 256
        return .inl (256, if delim.length < str.length then str.length - delim.length else 0)

def readUntilLoop (delim : Bytes) : Act Bytes := do
  let most ← passes
  Prog.loop (readUntilPass delim) most (512, 0)

def readUntil (delim : Bytes) : Act Bytes := do
  prepareBuf 512
  let result ← readUntilLoop delim
  if result = [] then
    let rest ← bufData
    consumeBuf rest.length
    return rest
  else return result

/-- A pass of the `while` loop of `read_body`, with `need_read`. -/
def readBodyPass (needRead : Nat) : Act (Nat ⊕ Unit) :=
  if needRead = 0 then return .inr ()
  else do
    prepareBuf (max needRead 64)
    let n ← recv (max needRead 64)
    if n = 0 then return .inr ()
    else
      commitBuf (if needRead ≤ n then needRead else n)
      return .inl (needRead - if needRead ≤ n then needRead else n)

/-- The `try` block of `read_body`, whose handler does nothing. -/
def readBodyLoop (needRead : Nat) : Act Unit := do
  let most ← passes
  Prog.catchAll (Prog.loop readBodyPass most needRead) fun _ => return ()

/-- `std::string::max_size()`. -/
def maxString : Nat := 2 ^ 62 - 1

/-- `std::string::reserve`. -/
def reserveString (n : Nat) : Act Unit :=
  if maxString < n then Prog.throwEx .lengthError else return ()

/-- `read_body`, where the data of the buffer is not enough. -/
def readBodyRest (needRead : Nat) : Act Bytes := do
  let rsp ← bufData
  consumeBuf rsp.length
  reserveString (needRead - rsp.length)
  readBodyLoop (needRead - rsp.length)
  let more ← bufData
  consumeBuf (rsp ++ more).length
  return rsp ++ more

def readBody (needRead : Nat) : Act Bytes :=
  if needRead = 0 then return []
  else do
    let b ← Prog.gets World.buf
    match tryGetData b needRead with
    | some s =>
        consumeBuf s.length
        return s
    | none => readBodyRest needRead

/-! ## What reading leaves alone -/

def Call.isRecv : Call → Bool
  | .recv _ => true
  | .recvFailed => true
  | _ => false

/-- From `w` to `w'`, only bytes have been received, by the calls `cs`. -/
structure Reads (w w' : World) (cs : List Call) : Prop where
  calls_eq : w'.calls = w.calls ++ cs
  recv_only : ∀ c ∈ cs, c.isRecv
  stream_eq : w.server.stream = received cs ++ w'.server.stream
  recvs_suffix : w'.server.recvs <:+ w.server.recvs
  failed_mem : Call.recvFailed ∈ cs → ∃ code, Choice.fail code ∈ w.server.recvs
  client_eq : w'.client = { w.client with mReadStreambuf := w'.buf }
  strings_eq : w'.strings = w.strings

theorem Reads.refl (w : World) : Reads w w [] :=
  ⟨(List.append_nil _).symm, fun _ h => absurd h List.not_mem_nil, rfl, List.suffix_refl _,
    fun h => absurd h List.not_mem_nil, rfl, rfl⟩

theorem Reads.setBuf {w w' : World} {cs : List Call} (h : Reads w w' cs) (b : StreamBuffer) :
    Reads w (w'.setBuf b) cs :=
  ⟨h.calls_eq, h.recv_only, h.stream_eq, h.recvs_suffix, h.failed_mem,
    congrArg (fun c : HttpClient => { c with mReadStreambuf := b }) h.client_eq, h.strings_eq⟩

theorem Reads.trans {w w' w'' : World} {cs cs' : List Call} (h : Reads w w' cs)
    (h' : Reads w' w'' cs') : Reads w w'' (cs ++ cs') where
  calls_eq := by rw [h'.calls_eq, h.calls_eq, List.append_assoc]
  recv_only c hc := (List.mem_append.mp hc).elim (h.recv_only c) (h'.recv_only c)
  stream_eq := by rw [h.stream_eq, h'.stream_eq, received_append, List.append_assoc]
  recvs_suffix := h'.recvs_suffix.trans h.recvs_suffix
  failed_mem hmem := by
    rcases List.mem_append.mp hmem with hmem | hmem
    · exact h.failed_mem hmem
    · obtain ⟨code, hcode⟩ := h'.failed_mem hmem
      exact ⟨code, h.recvs_suffix.mem hcode⟩
  client_eq := by rw [h'.client_eq, h.client_eq]
  strings_eq := h'.strings_eq.trans h.strings_eq

theorem deliver_gotChunk (w : World) (bs rest : Bytes) (offer : Bytes → Nat) (got : Bytes) :
    (w.gotChunk bs rest).deliver offer got = delivery offer w.server.recvs.tail got rest := rfl

/-- How a `recv` ends; the stream is at its end when nothing comes.  What the server has
    to deliver to a reader that offers `len` bytes goes on behind the chunk, or ends. -/
inductive RecvEnds (len : Nat) (w : World) : Outcome Exn Nat → World → Prop
  | chunk (bs rest : Bytes) (hstream : w.server.stream = bs ++ rest) (hle : bs.length ≤ len)
      (hend : 0 < len % 2 ^ 32 → bs = [] → rest = [])
      (hgoes : ∀ offer got, offer got = len → 0 < len → len < 2 ^ 32 → w.deliver offer got
        = if bs = [] then (got, false) else (w.gotChunk bs rest).deliver offer (got ++ bs)) :
      RecvEnds len w (.value bs.length) (w.gotChunk bs rest)
  | failed (code : Int) (hmem : Choice.fail code ∈ w.server.recvs)
      (hstops : ∀ offer got, w.deliver offer got = (got, true)) :
      RecvEnds len w (.thrown (.systemError code)) w.recvFails

/-- A chunk is empty only at the end of the stream. -/
theorem take_amount_nil {n len : Nat} {stream : Bytes} (hpos : 0 < len % 2 ^ 32)
    (h : stream.take (amount n (min (len % 2 ^ 32) stream.length)) = []) : stream = [] := by
  have hzero := congrArg List.length h
  rw [List.length_take, List.length_nil] at hzero
  refine List.length_eq_zero_iff.mp ?_
  unfold amount at hzero
  omega

theorem recv_ends (len : Nat) (w : World) : Ends (recv len) w (RecvEnds len w) := by
  unfold Ends recv
  dsimp only
  cases hrecvs : w.server.recvs.headD (.take (min (len % 2 ^ 32) w.server.stream.length)) with
  | fail code =>
      cases hlist : w.server.recvs with
      | nil =>
          rw [hlist] at hrecvs
          exact nomatch hrecvs
      | cons c rest =>
          rw [hlist] at hrecvs
          obtain rfl : c = .fail code := hrecvs
          refine .failed code (hlist ▸ List.mem_cons_self) fun offer got => ?_
          unfold World.deliver
          rw [hlist]
          rfl
  | take n =>
      have hmod := Nat.mod_le len (2 ^ 32)
      refine .chunk _ _ (List.take_append_drop ..).symm ?_ ?_ ?_
      · rw [List.length_take]
        unfold amount
        omega
      · intro hpos hnil
        rw [take_amount_nil hpos hnil, List.drop_nil]
      · intro offer got hoffer hpos hsmall
        have hlen := Nat.mod_eq_of_lt hsmall
        rw [World.deliver, deliver_gotChunk]
        cases hlist : w.server.recvs with
        | nil =>
            split
            · rename_i hnil
              rw [take_amount_nil (hlen.symm ▸ hpos) hnil, delivery, List.append_nil]
            · rw [List.tail_nil, delivery, delivery, List.append_assoc, List.take_append_drop]
        | cons c rest =>
            rw [hlist] at hrecvs
            obtain rfl : c = .take n := hrecvs
            split
            · rename_i hnil
              rw [take_amount_nil (hlen.symm ▸ hpos) hnil, delivery, if_pos rfl]
            · rename_i hne
              have hstream : w.server.stream ≠ [] := fun hnil => hne (by rw [hnil, List.take_nil])
              rw [delivery, if_neg hstream, hoffer, hlen, List.tail_cons]

theorem Reads.gotChunk {w : World} {bs rest : Bytes} (h : w.server.stream = bs ++ rest) :
    Reads w (w.gotChunk bs rest) [.recv bs] where
  calls_eq := rfl
  recv_only c hc := by
    rw [List.mem_singleton.mp hc]
    rfl
  stream_eq := by
    rw [h, received_recv]
    rfl
  recvs_suffix := List.tail_suffix _
  failed_mem hmem := nomatch List.mem_singleton.mp hmem
  client_eq := rfl
  strings_eq := rfl

theorem Reads.recvFails {w : World} {code : Int} (h : Choice.fail code ∈ w.server.recvs) :
    Reads w w.recvFails [.recvFailed] where
  calls_eq := rfl
  recv_only c hc := by
    rw [List.mem_singleton.mp hc]
    rfl
  stream_eq := rfl
  recvs_suffix := List.tail_suffix _
  failed_mem _ := ⟨code, h⟩
  client_eq := rfl
  strings_eq := rfl

def ReadsOn (w w' : World) : Prop := ∃ cs, Reads w w' cs

theorem readsOn_refl (w : World) : ReadsOn w w := ⟨[], Reads.refl w⟩

theorem readsOn_trans {w w' w'' : World} : ReadsOn w w' → ReadsOn w' w'' → ReadsOn w w'' :=
  fun ⟨cs, h⟩ ⟨cs', h'⟩ => ⟨cs ++ cs', h.trans h'⟩

instance : IsPreorder World ReadsOn where
  refl := readsOn_refl
  trans _ _ _ := readsOn_trans

theorem moves_setBuf (g : World → StreamBuffer) :
    Moves ReadsOn (Prog.modify fun w => w.setBuf (g w) : Act Unit) :=
  moves_modify fun w => ⟨[], (Reads.refl w).setBuf (g w)⟩

theorem moves_prepareBuf (n : Nat) : Moves ReadsOn (prepareBuf n) := by
  refine moves_modifyOr _ ?_
  intro w w' h
  obtain ⟨b, -, rfl⟩ := Option.map_eq_some_iff.mp h
  exact ⟨[], (Reads.refl w).setBuf b⟩

theorem moves_bufData : Moves ReadsOn bufData := moves_gets _

theorem ReadsOn.length_le {w w' : World} (h : ReadsOn w w') :
    w'.server.stream.length ≤ w.server.stream.length := by
  obtain ⟨cs, h⟩ := h
  rw [h.stream_eq, List.length_append]
  exact Nat.le_add_left ..

/-- A pass that begins with a `recv` and goes on only if bytes have come. -/
theorem recv_pass {α β : Type} (len : Nat) (done : α) {f : Nat → Act (β ⊕ α)}
    (hf : ∀ n, Moves ReadsOn (f n)) (w : World) :
    Ends (recv len >>= fun n => if n = 0 then pure (.inr done) else f n) w fun o w' =>
      o.Ended ∧ ReadsOn w w' ∧
        ∀ b, o = .value (.inl b) → w'.server.stream.length < w.server.stream.length := by
  refine ends_bind (recv_ends len w) ?_ ?_ (fun w' h => nomatch h)
  · intro n w₁ hrecv
    cases hrecv with
    | chunk bs rest hstream hle hend =>
        have hreads : ReadsOn w (w.gotChunk bs rest) := ⟨_, Reads.gotChunk hstream⟩
        split
        · exact ⟨trivial, hreads, fun b h => nomatch h⟩
        · rename_i hne
          refine (hf bs.length _).mono ?_
          intro o w' hrest
          refine ⟨hrest.1, readsOn_trans hreads hrest.2, fun b _ => ?_⟩
          have hle' : w'.server.stream.length ≤ rest.length := ReadsOn.length_le hrest.2
          rw [hstream, List.length_append]
          omega
  · intro e w₁ hrecv
    cases hrecv with
    | failed code hmem => exact ⟨trivial, ⟨_, Reads.recvFails hmem⟩, fun b h => nomatch h⟩

theorem moves_readUntilLoop (delim : Bytes) : Moves ReadsOn (readUntilLoop delim) := by
  intro w
  refine ends_gets_bind (moves_loop (fun w => w.server.stream.length) ?_ _ (512, 0) w
    (Nat.lt_succ_self _))
  intro st w
  refine recv_pass st.1 [] (fun n => ?_) w
  refine moves_bind (moves_setBuf _) fun _ => moves_bind moves_bufData fun str => ?_
  split
  · exact moves_bind (moves_setBuf _) fun _ => moves_pure _
  · exact moves_bind (moves_prepareBuf 256) fun _ => moves_pure _

theorem moves_readUntil (delim : Bytes) : Moves ReadsOn (readUntil delim) := by
  refine moves_bind (moves_prepareBuf 512) fun _ => ?_
  refine moves_bind (moves_readUntilLoop delim) fun result => ?_
  split
  · exact moves_bind moves_bufData fun rest => moves_bind (moves_setBuf _) fun _ => moves_pure _
  · exact moves_pure _

theorem moves_readBodyLoop (needRead : Nat) : Moves ReadsOn (readBodyLoop needRead) := by
  intro w
  refine ends_gets_bind (ends_catchAll (moves_loop (fun w => w.server.stream.length) ?_ _ needRead
    w (Nat.lt_succ_self _)) (fun _ w' h => h) (fun e w' h => ⟨trivial, h.2⟩) (fun w' h => h))
  intro need w
  unfold readBodyPass
  split
  · exact ⟨trivial, readsOn_refl w, fun b h => nomatch h⟩
  · refine ends_bind (moves_prepareBuf _ w) ?_ (fun e w' h => ⟨h.1, h.2, fun b h => nomatch h⟩)
      (fun w' h => h.1.elim)
    intro _ w₁ h₁
    refine (recv_pass _ () (fun n => ?_) w₁).mono ?_
    · exact moves_bind (moves_setBuf _) fun _ => moves_pure _
    · intro o w' h
      exact ⟨h.1, readsOn_trans h₁.2 h.2.1,
        fun b hb => Nat.lt_of_lt_of_le (h.2.2 b hb) (ReadsOn.length_le h₁.2)⟩

theorem moves_readBody (needRead : Nat) : Moves ReadsOn (readBody needRead) := by
  unfold readBody
  split
  · exact moves_pure _
  · refine moves_bind (moves_gets _) fun b => ?_
    split
    · exact moves_bind (moves_setBuf _) fun _ => moves_pure _
    · refine moves_bind moves_bufData fun rsp => moves_bind (moves_setBuf _) fun _ => ?_
      refine moves_bind (?_ : Moves ReadsOn (reserveString _)) fun _ => ?_
      · unfold reserveString
        split
        · exact moves_throwEx _
        · exact moves_pure _
      · refine moves_bind (moves_readBodyLoop _) fun _ => moves_bind moves_bufData fun more => ?_
        exact moves_bind (moves_setBuf _) fun _ => moves_pure _

/-! ## What the buffer holds -/

/-- The pointers are in order, the data is `R`, and at most `m` bytes have gone through
    the buffer. -/
structure Holds (b : StreamBuffer) (R : Bytes) (m : Nat) : Prop where
  ordered : Ordered b
  fits : Fits b
  data_eq : data b = R
  pptr_le : b.pptr ≤ m

theorem holds_init : Holds init [] 0 where
  ordered := keeps_init.1
  fits := by
    show (128 : Nat) ≤ maxSize
    decide
  data_eq := congrArg ByteQueue.queue keeps_init.2.1
  pptr_le := Nat.le_refl _

section Holds

variable {b : StreamBuffer} {R : Bytes} {m : Nat}

theorem Holds.prepare (h : Holds b R m) {n : Nat} (hn : m + n ≤ maxSize) :
    ∃ b', prepare b n = some b' ∧ Holds b' R m ∧ n ≤ (view b').room.length := by
  obtain ⟨b', hres, hord, hfits, hview, -⟩ := reserve_spec h.ordered h.fits (n := n)
    ((Nat.add_le_add_right h.pptr_le n).trans hn)
  refine ⟨b', hres, ⟨hord, hfits, ?_, ?_⟩, ?_⟩
  · exact (congrArg ByteQueue.queue hview).trans h.data_eq
  · rw [reserve_pptr hres]
    exact h.pptr_le
  · rw [hview]
    exact (view b).le_grow n

/-- A chunk is written into the span and `k` bytes of it are committed. -/
theorem Holds.receive (h : Holds b R m) {bs : Bytes} (hroom : bs.length ≤ (view b).room.length)
    {k : Nat} (hk : k ≤ bs.length) (hsmall : k < 2 ^ 31) :
    Holds (commit (writeSpan b 0 bs) k) (R ++ bs.take k) (m + k) := by
  have hfit : 0 + bs.length ≤ (view b).room.length := by
    rw [Nat.zero_add]
    exact hroom
  obtain ⟨hord, hfits, hview⟩ := writeSpan_spec h.ordered h.fits hfit
  have hplace : (view (writeSpan b 0 bs)).room = bs ++ (view b).room.drop bs.length := by
    rw [hview]
    simp [overlay]
  have hmin : min k (view (writeSpan b 0 bs)).room.length = k := by
    rw [hplace, List.length_append]
    omega
  obtain ⟨hord', hbuf, hview'⟩ := commit_spec hord hfits (n := k) (by rw [hmin]; exact hsmall)
  refine ⟨hord', ?_, ?_, ?_⟩
  · unfold Fits
    rw [hbuf]
    exact hfits
  · refine (congrArg ByteQueue.queue hview').trans ?_
    show data (writeSpan b 0 bs) ++ (view (writeSpan b 0 bs)).room.take k = _
    rw [hplace, List.take_append_of_le_length hk]
    exact congrArg (· ++ bs.take k) ((congrArg ByteQueue.queue hview).trans h.data_eq)
  · rw [commit_eq hord hfits (by rw [hmin]; exact hsmall), hmin]
    exact Nat.add_le_add_right h.pptr_le k

theorem Holds.consume (h : Holds b R m) (hR : R.length < 2 ^ 31) (n : Nat) :
    Holds (consume b n) (R.drop n) m := by
  have hmin : min n (data b).length < 2 ^ 31 := by
    rw [h.data_eq]
    omega
  obtain ⟨hord, hbuf, hview⟩ := consume_spec h.ordered h.fits (n := n) hmin
  refine ⟨hord, ?_, ?_, ?_⟩
  · unfold Fits
    rw [hbuf]
    exact h.fits
  · have hqueue := congrArg ByteQueue.queue hview
    dsimp only [view] at hqueue
    rw [hqueue, h.data_eq]
  · rw [consume_eq h.ordered h.fits hmin]
    exact h.pptr_le

end Holds

/-! One rule for each operation on the buffer: the rest is run with any buffer that
    holds what it should. -/

section Rules

variable {α : Type} {w : World} {R : Bytes} {m : Nat} {Q : Outcome Exn α → World → Prop}

theorem ends_prepareBuf {f : Unit → Act α} {n : Nat} (h : Holds w.buf R m)
    (hn : m + n ≤ maxSize)
    (hf : ∀ b, Holds b R m → n ≤ (view b).room.length → Ends (f ()) (w.setBuf b) Q) :
    Ends (prepareBuf n >>= f) w Q := by
  obtain ⟨b, hprep, hholds, hroom⟩ := h.prepare hn
  have hsome : (prepare w.buf n).map w.setBuf = some (w.setBuf b) := by
    rw [hprep]
    rfl
  exact ends_modifyOr_bind hsome (hf b hholds hroom)

theorem ends_commitBuf {f : Unit → Act α} {bs rest : Bytes} {k : Nat} (h : Holds w.buf R m)
    (hroom : bs.length ≤ (view w.buf).room.length) (hk : k ≤ bs.length) (hsmall : k < 2 ^ 31)
    (hf : ∀ b, Holds b (R ++ bs.take k) (m + k) →
      Ends (f ()) ((w.gotChunk bs rest).setBuf b) Q) :
    Ends (commitBuf k >>= f) (w.gotChunk bs rest) Q :=
  ends_modify_bind (hf _ (h.receive hroom hk hsmall))

theorem ends_consumeBuf {f : Unit → Act α} {n : Nat} (h : Holds w.buf R m)
    (hR : R.length < 2 ^ 31) (hf : ∀ b, Holds b (R.drop n) m → Ends (f ()) (w.setBuf b) Q) :
    Ends (consumeBuf n >>= f) w Q :=
  ends_modify_bind (hf _ (h.consume hR n))

theorem ends_bufData {f : Bytes → Act α} (h : Holds w.buf R m) (hf : Ends (f R) w Q) :
    Ends (bufData >>= f) w Q := by
  refine ends_gets_bind ?_
  rw [h.data_eq]
  exact hf

end Rules

/-! ## `read_until` -/

/-- What a reader offers while it has not found the delimiter. -/
def OffersUntil (delim : Bytes) (offer : Bytes → Nat) : Prop :=
  ∀ got, find got delim 0 = none → offer got = if got = [] then 512 else 256

/-- Between two passes: what `cs` have received is in the buffer, the delimiter is not
    in it, and the search goes on where it can still begin. -/
structure Searching (delim : Bytes) (w₀ : World) (st : Nat × Nat) (w : World) (cs : List Call) :
    Prop where
  reads : Reads w₀ w cs
  quiet : Call.recvFailed ∉ cs
  holds : Holds w.buf (received cs) (received cs).length
  missing : find (received cs) delim 0 = none
  beg_ok : ∀ j < st.2, j + delim.length ≤ (received cs).length
  room_ok : st.1 ≤ (view w.buf).room.length
  span_eq : st.1 = if received cs = [] then 512 else 256
  delivered : ∀ offer, OffersUntil delim offer →
    w₀.deliver offer [] = w.deliver offer (received cs)

theorem Searching.span_bounds {delim : Bytes} {w₀ w : World} {st : Nat × Nat} {cs : List Call}
    (h : Searching delim w₀ st w cs) : 0 < st.1 ∧ st.1 < 2 ^ 31 := by
  have hspan := h.span_eq
  split at hspan <;> rw [hspan] <;> decide

/-- What the server of `w₀` delivers to a reader that has received `bs` when it has found
    the delimiter; if it has not, the stream has ended, or a `recv` has failed. -/
def Delivered (delim : Bytes) (w₀ w : World) (bs : Bytes) (failed : Bool) : Prop :=
  ∀ offer, OffersUntil delim offer → w₀.deliver offer []
    = if find bs delim 0 = none then (bs, failed) else w.deliver offer bs

/-- How the loop ends: behind the delimiter, at the end of the stream, or by the error
    of a `recv`. -/
def LoopEnds (delim : Bytes) (w₀ : World) : Outcome Exn Bytes → World → Prop
  | .value r, w => ∃ cs, Reads w₀ w cs ∧ Call.recvFailed ∉ cs ∧
      Delivered delim w₀ w (received cs) false ∧
      ((∃ i, find (received cs) delim 0 = some i ∧ r = (received cs).take (i + delim.length) ∧
          Holds w.buf ((received cs).drop (i + delim.length)) (received cs).length) ∨
        (find (received cs) delim 0 = none ∧ r = [] ∧ w.server.stream = [] ∧
          Holds w.buf (received cs) (received cs).length))
  | .thrown _, w => ∃ cs, Reads w₀ w cs ∧ Call.recvFailed ∈ cs ∧
      Delivered delim w₀ w (received cs) true ∧ find (received cs) delim 0 = none
  | .diverged, _ => False

theorem Reads.received_length {w w' : World} {cs : List Call} (h : Reads w w' cs) :
    (received cs).length + w'.server.stream.length = w.server.stream.length := by
  rw [h.stream_eq, List.length_append]

theorem readUntilPass_ends {delim : Bytes} {w₀ w : World} {st : Nat × Nat} {cs : List Call}
    (hlen : w₀.server.stream.length < 2 ^ 31) (h : Searching delim w₀ st w cs) :
    Ends (readUntilPass delim st) w (PassEnds (fun st w => ∃ cs, Searching delim w₀ st w cs)
      (fun _ w => w.server.stream.length) (LoopEnds delim w₀) w.server.stream.length) := by
  obtain ⟨hpos, hsmall⟩ := h.span_bounds
  have hoffers : ∀ offer, OffersUntil delim offer → offer (received cs) = st.1 :=
    fun offer ho => (ho _ h.missing).trans h.span_eq.symm
  refine ends_bind (recv_ends st.1 w) ?_ ?_ (fun w' h => nomatch h)
  · intro n w₁ hrecv
    cases hrecv with
    | chunk bs rest hstream hle hend hgoes =>
      have hreads := h.reads.trans (Reads.gotChunk hstream)
      have hquiet : Call.recvFailed ∉ cs ++ [.recv bs] := by simp [h.quiet]
      have hgot : received (cs ++ [.recv bs]) = received cs ++ bs := by simp
      have htotal := hreads.received_length
      have hnext : ∀ offer, OffersUntil delim offer → w₀.deliver offer [] = if bs = [] then
          (received cs, false) else (w.gotChunk bs rest).deliver offer (received cs ++ bs) :=
        fun offer ho => (h.delivered offer ho).trans
          (hgoes offer _ (hoffers offer ho) hpos (hsmall.trans (by decide)))
      split
      · rename_i hzero
        obtain rfl := List.length_eq_zero_iff.mp hzero
        have hmod : 0 < st.1 % 2 ^ 32 := by
          rw [Nat.mod_eq_of_lt (hsmall.trans (by decide))]
          exact hpos
        rw [List.append_nil] at hgot
        refine ends_pure ⟨_, hreads, hquiet, fun offer ho => ?_, .inr ⟨?_, rfl, hend hmod rfl, ?_⟩⟩
        · rw [hgot, if_pos h.missing]
          exact hnext offer ho
        · rw [hgot]
          exact h.missing
        · rw [hgot]
          show Holds (writeSpan w.buf 0 []) _ _
          rw [writeSpan_nil]
          exact h.holds
      · rename_i hne
        have hsome : bs ≠ [] := fun hnil => hne (congrArg List.length hnil)
        have hcut : rest.length < w.server.stream.length := by
          rw [hstream, List.length_append]
          omega
        have hfind : find (received (cs ++ [.recv bs])) delim st.2
            = find (received (cs ++ [.recv bs])) delim 0 := by
          rw [hgot]
          exact find_restart fun j hj => not_occursAt_append h.missing (h.beg_ok j hj)
        have hlater : ∀ offer, OffersUntil delim offer → w₀.deliver offer []
            = (w.gotChunk bs rest).deliver offer (received (cs ++ [.recv bs])) := by
          intro offer ho
          rw [hnext offer ho, if_neg hsome, hgot]
        refine ends_commitBuf h.holds (hle.trans h.room_ok) (Nat.le_refl _)
          (Nat.lt_of_le_of_lt hle hsmall) fun b hb => ?_
        rw [List.take_length, ← List.length_append, ← hgot] at hb
        refine ends_bufData hb ?_
        rw [hfind]
        have hreads' := hreads.setBuf b
        split
        · rename_i pos hfound
          refine ends_consumeBuf hb (by omega) fun b' hb' => ?_
          refine ends_pure ⟨_, hreads'.setBuf b', hquiet, fun offer ho => ?_,
            .inl ⟨pos, hfound, rfl, hb'⟩⟩
          rw [if_neg (by rw [hfound]; exact nofun)]
          exact hlater offer ho
        · rename_i hnone
          refine ends_prepareBuf hb (by unfold maxSize; omega) fun b' hb' hroom => ?_
          refine ends_pure ⟨⟨_, hreads'.setBuf b', hquiet, hb', hnone, ?_, hroom, ?_, hlater⟩, hcut⟩
          · intro j hj
            dsimp only at hj
            split at hj <;> omega
          · have hne : received (cs ++ [.recv bs]) ≠ [] :=
              hgot ▸ List.append_ne_nil_of_right_ne_nil _ hsome
            exact (if_neg hne).symm
  · intro e w₁ hrecv
    cases hrecv with
    | failed code hmem hstops =>
        have hgot : received (cs ++ [.recvFailed]) = received cs := by
          rw [received_append, received_recvFailed, List.append_nil]
        refine ⟨cs ++ [.recvFailed], h.reads.trans (Reads.recvFails hmem), by simp, ?_, ?_⟩
        · intro offer ho
          rw [hgot, if_pos h.missing, h.delivered offer ho, hstops]
        · rw [hgot]
          exact h.missing

/-- How `read_until` ends. -/
def UntilEnds (delim : Bytes) (w₀ : World) : Outcome Exn Bytes → World → Prop
  | .value r, w => ∃ cs, Reads w₀ w cs ∧ Call.recvFailed ∉ cs ∧
      Delivered delim w₀ w (received cs) false ∧ r = upTo delim (received cs) ∧
      Holds w.buf ((received cs).drop r.length) (received cs).length ∧
      (find (received cs) delim 0 = none → w.server.stream = [])
  | .thrown _, w => ∃ cs, Reads w₀ w cs ∧ Call.recvFailed ∈ cs ∧
      Delivered delim w₀ w (received cs) true ∧ find (received cs) delim 0 = none
  | .diverged, _ => False

theorem readUntil_ends {delim : Bytes} {w : World} (hd : delim ≠ [])
    (hlen : w.server.stream.length < 2 ^ 31) (hbuf : Holds w.buf [] 0) :
    Ends (readUntil delim) w (UntilEnds delim w) := by
  refine ends_prepareBuf hbuf (by decide) fun b hb hroom => ?_
  have hmissing : find [] delim 0 = none := by
    refine find_eq_none.mpr fun j _ _ ho => hd ?_
    unfold OccursAt at ho
    rw [List.drop_nil] at ho
    exact List.prefix_nil.mp ho
  have hstart : Searching delim w (512, 0) (w.setBuf b) [] :=
    ⟨(Reads.refl w).setBuf b, List.not_mem_nil, hb, hmissing,
      fun j hj => absurd hj (Nat.not_lt_zero j), hroom, rfl, fun _ _ => rfl⟩
  have hloop : Ends (readUntilLoop delim) (w.setBuf b) (LoopEnds delim w) :=
    ends_gets_bind (ends_loop (I := fun st w' => ∃ cs, Searching delim w st w' cs)
      (fun _ _ ⟨_, h⟩ => readUntilPass_ends hlen h) _ _ _ ⟨[], hstart⟩ (Nat.lt_succ_self _))
  refine ends_bind hloop ?_ (fun e w' h => h) (fun w' h => h)
  rintro result w' ⟨cs, hreads, hquiet, hdelivered,
    ⟨i, hfind, hr, hholds⟩ | ⟨hfind, hr, hend, hholds⟩⟩
  · obtain ⟨-, hi, ho, -⟩ := find_eq_some.mp hfind
    have hfit := ho.le_length hi
    have hlength : result.length = i + delim.length := by
      rw [hr, List.length_take_of_le hfit]
    have hpos := List.length_pos_iff.mpr hd
    rw [if_neg (List.length_pos_iff.mp (by omega))]
    refine ends_pure ⟨cs, hreads, hquiet, hdelivered, ?_, ?_, ?_⟩
    · rw [hr, upTo_of_some hfind]
    · rw [hlength]
      exact hholds
    · intro hnone
      rw [hfind] at hnone
      exact nomatch hnone
  · have htotal := hreads.received_length
    rw [if_pos hr]
    refine ends_bufData hholds (ends_consumeBuf hholds (by omega) fun b' hb' => ?_)
    exact ends_pure ⟨cs, hreads.setBuf b', hquiet, hdelivered, (upTo_of_none hfind).symm, hb',
      fun _ => hend⟩

/-! ## `read_body` -/

/-- What a reader that has `got` offers while it has less than `need` bytes behind that. -/
def OffersBody (need : Nat) (offer : Bytes → Nat) (got : Bytes) : Prop :=
  ∀ bs : Bytes, bs.length < need → offer (got ++ bs) = max (need - bs.length) 64

/-- The server of `w` delivers `bs` to a reader that needs `need` bytes, and no more if
    these are not enough. -/
def Fills (need : Nat) (w : World) (bs : Bytes) : Prop :=
  ∀ offer got, OffersBody need offer got → got ++ bs <+: (w.deliver offer got).1 ∧
    (bs.length < need → (w.deliver offer got).1 = got ++ bs)

/-- Between two passes: of the `need` bytes, those that `cs` have received are in the
    buffer; bytes behind them are not kept. -/
structure Filling (need m : Nat) (w₀ : World) (missing : Nat) (w : World) (cs : List Call) :
    Prop where
  reads : Reads w₀ w cs
  holds : Holds w.buf ((received cs).take need) (m + (received cs).length)
  missing_eq : missing = need - (received cs).length
  delivered : ∀ offer got, OffersBody need offer got →
    w₀.deliver offer got = w.deliver offer (got ++ received cs)

/-- How the block ends: with all that is needed, or with what came before the end of
    the stream or an error. -/
def FillEnds (need m : Nat) (w₀ : World) : Outcome Exn Unit → World → Prop
  | .value _, w => ∃ cs, Reads w₀ w cs ∧
      Holds w.buf ((received cs).take need) (m + (received cs).length) ∧
      Fills need w₀ (received cs) ∧
      (Call.recvFailed ∉ cs → (received cs).length < need → w.server.stream = [])
  | .thrown _, w => ∃ cs, Reads w₀ w cs ∧
      Holds w.buf ((received cs).take need) (m + (received cs).length) ∧
      Fills need w₀ (received cs) ∧ Call.recvFailed ∈ cs
  | .diverged, _ => False

theorem readBodyPass_ends {need m missing : Nat} {w₀ w : World} {cs : List Call}
    (hlen : m + w₀.server.stream.length < 2 ^ 32) (hneed : need < 2 ^ 31)
    (h : Filling need m w₀ missing w cs) :
    Ends (readBodyPass missing) w (PassEnds (fun k w => ∃ cs, Filling need m w₀ k w cs)
      (fun _ w => w.server.stream.length) (FillEnds need m w₀) w.server.stream.length) := by
  have htotal := h.reads.received_length
  unfold readBodyPass
  split
  · rename_i hzero
    rw [h.missing_eq] at hzero
    refine ends_pure ⟨cs, h.reads, h.holds, fun offer got ho => ?_, fun _ hlt => ?_⟩
    · rw [h.delivered offer got ho]
      exact ⟨initial_delivery .., fun hlt => absurd hlt (by omega)⟩
    · omega
  · rename_i hmore
    have hmissing := h.missing_eq
    have hoffers : ∀ offer got, OffersBody need offer got →
        offer (got ++ received cs) = max missing 64 := fun offer got ho => by
      rw [ho _ (by omega), hmissing]
    refine ends_prepareBuf h.holds (by unfold maxSize; omega) fun b hb hroom => ?_
    have hreads := h.reads.setBuf b
    refine ends_bind (recv_ends _ (w.setBuf b)) ?_ ?_ (fun w' h => nomatch h)
    · intro n w₁ hrecv
      cases hrecv with
      | chunk bs rest hstream hle hend hgoes =>
        have hreads' := hreads.trans (Reads.gotChunk hstream)
        have hgot : received (cs ++ [.recv bs]) = received cs ++ bs := by simp
        have hnext : ∀ offer got, OffersBody need offer got → w₀.deliver offer got = if bs = []
            then (got ++ received cs, false)
            else ((w.setBuf b).gotChunk bs rest).deliver offer (got ++ received cs ++ bs) :=
          fun offer got ho => (h.delivered offer got ho).trans
            (hgoes offer _ (hoffers offer got ho) (by omega) (by omega))
        split
        · rename_i hzero
          obtain rfl := List.length_eq_zero_iff.mp hzero
          have hmod : 0 < max missing 64 % 2 ^ 32 := by
            rw [Nat.mod_eq_of_lt (by omega)]
            omega
          rw [List.append_nil] at hgot
          refine ends_pure ⟨_, hreads', ?_, fun offer got ho => ?_, fun _ _ => hend hmod rfl⟩
          · rw [hgot]
            show Holds (writeSpan b 0 []) _ _
            rw [writeSpan_nil]
            exact hb
          · rw [hnext offer got ho, if_pos rfl, hgot]
            exact ⟨List.prefix_refl _, fun _ => rfl⟩
        · rename_i hne
          have hsome : bs ≠ [] := fun hnil => hne (congrArg List.length hnil)
          have hcut : rest.length < w.server.stream.length := by
            have hstream' : w.server.stream = bs ++ rest := hstream
            rw [hstream', List.length_append]
            omega
          have hkept : (received cs).take need = received cs := List.take_of_length_le (by omega)
          -- what is committed fills up what was missing, or is all of the chunk
          have htake : (if missing ≤ bs.length then missing else bs.length)
              = min missing bs.length := by
            split <;> omega
          rw [htake]
          refine ends_commitBuf hb (hle.trans hroom) (Nat.min_le_right ..) (by omega)
            fun b' hb' => ?_
          have hdata : received cs ++ bs.take (min missing bs.length)
              = (received cs ++ bs).take need := by
            rw [List.take_append, hkept, ← hmissing]
            exact congrArg (received cs ++ ·) (List.take_eq_take_iff.mpr (by simp))
          rw [hkept, hdata, ← hgot] at hb'
          refine ends_pure ⟨⟨_, hreads'.setBuf b', ⟨hb'.ordered, hb'.fits, hb'.data_eq, ?_⟩, ?_,
            fun offer got ho => ?_⟩, hcut⟩
          · rw [hgot, List.length_append]
            exact hb'.pptr_le.trans (by omega)
          · rw [hgot, List.length_append]
            omega
          · rw [hnext offer got ho, if_neg hsome, hgot, List.append_assoc]
            rfl
    · intro e w₁ hrecv
      cases hrecv with
      | failed code hmem hstops =>
          have hgot : received (cs ++ [.recvFailed]) = received cs := by
            rw [received_append, received_recvFailed, List.append_nil]
          refine ⟨_, hreads.trans (Reads.recvFails hmem), ?_, fun offer got ho => ?_, by simp⟩
          · rw [hgot]
            exact hb
          · have hstop : w.deliver offer (got ++ received cs) = _ := hstops offer _
            rw [h.delivered offer got ho, hstop, hgot]
            exact ⟨List.prefix_refl _, fun _ => rfl⟩

theorem readBodyLoop_ends {need m : Nat} {w : World}
    (hlen : m + w.server.stream.length < 2 ^ 32) (hneed : need < 2 ^ 31)
    (hbuf : Holds w.buf [] m) :
    Ends (readBodyLoop need) w fun o w' => ∃ cs, o = .value () ∧ Reads w w' cs ∧
      Holds w'.buf ((received cs).take need) (m + (received cs).length) ∧
      Fills need w (received cs) ∧
      (Call.recvFailed ∉ cs → (received cs).length < need → w'.server.stream = []) := by
  have hstart : Filling need m w need w [] :=
    ⟨Reads.refl w, by simpa [received] using hbuf, rfl, fun offer got _ => by
      rw [show received [] = [] from rfl, List.append_nil]⟩
  have hloop := ends_loop (I := fun k w' => ∃ cs, Filling need m w k w' cs)
    (fun _ _ ⟨_, h⟩ => readBodyPass_ends hlen hneed h) _ _ _ ⟨[], hstart⟩ (Nat.lt_succ_self _)
  refine ends_gets_bind (ends_catchAll hloop ?_ ?_ (fun w' h => h.elim))
  · rintro - w' ⟨cs, hreads, hholds, hfills, hend⟩
    exact ⟨cs, rfl, hreads, hholds, hfills, hend⟩
  · rintro e w' ⟨cs, hreads, hholds, hfills, hfailed⟩
    exact ends_pure ⟨cs, rfl, hreads, hholds, hfills, fun hquiet => absurd hfailed hquiet⟩

/-- How `read_body` ends, on a buffer that holds `R`. -/
def BodyEnds (R : Bytes) (need : Nat) (w₀ : World) (o : Outcome Exn Bytes) (w : World) : Prop :=
  ∃ cs, Reads w₀ w cs ∧ o = .value ((R ++ received cs).take need) ∧
    Fills (need - R.length) w₀ (received cs) ∧
    (Call.recvFailed ∉ cs → (R ++ received cs).length < need → w.server.stream = [])

/-- Nothing is needed, and nothing is received. -/
theorem fills_nil {need : Nat} (hneed : need = 0) (w : World) : Fills need w (received []) :=
  fun offer got _ => ⟨(List.append_nil got).symm ▸ initial_delivery .., fun hlt => by
    rw [hneed] at hlt
    exact absurd hlt (Nat.not_lt_zero _)⟩

theorem readBody_ends {need m : Nat} {R : Bytes} {w : World}
    (hlen : m + w.server.stream.length < 2 ^ 31) (hR : R.length < 2 ^ 31)
    (hneed : need < 2 ^ 31) (hbuf : Holds w.buf R m) :
    Ends (readBody need) w (BodyEnds R need w) := by
  unfold readBody
  split
  · rename_i hzero
    refine ends_pure ⟨[], Reads.refl w, ?_, fills_nil (by omega) w, fun _ h => absurd h (by omega)⟩
    rw [hzero, List.take_zero]
  refine ends_gets_bind ?_
  rw [tryGetData_spec hbuf.ordered hbuf.fits, hbuf.data_eq]
  by_cases henough : need ≤ R.length
  · rw [if_pos henough]
    refine ends_consumeBuf hbuf hR fun b hb => ?_
    refine ends_pure ⟨[], (Reads.refl w).setBuf b, ?_, fills_nil (by omega) w, ?_⟩
    · rw [List.take_append_of_le_length henough]
    · intro _ hlt
      rw [List.length_append] at hlt
      omega
  · rw [if_neg henough]
    refine ends_bufData hbuf (ends_consumeBuf hbuf hR fun b hb => ?_)
    rw [List.drop_length] at hb
    have hreserve : reserveString (need - R.length) (w.setBuf b) = (.value (), w.setBuf b) := by
      unfold reserveString
      rw [if_neg (by unfold maxString; omega)]
      rfl
    refine ends_bind_value hreserve ?_
    have hbound : m + (w.setBuf b).server.stream.length < 2 ^ 32 := hlen.trans (by decide)
    refine ends_bind (readBodyLoop_ends hbound (by omega) hb) ?_ ?_ ?_
    · rintro - w' ⟨cs, -, hreads, hholds, hfills, hend⟩
      have htake : ((received cs).take (need - R.length)).length < 2 ^ 31 := by
        rw [List.length_take]
        omega
      refine ends_bufData hholds (ends_consumeBuf hholds htake fun b' hb' => ?_)
      refine ends_pure ⟨cs, ?_, ?_, hfills, ?_⟩
      · exact (((Reads.refl w).setBuf b).trans hreads).setBuf b'
      · rw [List.take_append, List.take_of_length_le (Nat.le_of_not_le henough)]
      · intro hquiet hshort
        rw [List.length_append] at hshort
        exact hend hquiet (by omega)
    · rintro e w' ⟨cs, h, -⟩
      exact nomatch h
    · rintro w' ⟨cs, h, -⟩
      exact nomatch h

/-- A length that no string can have. -/
theorem readBody_tooLong {need m : Nat} {R : Bytes} {w : World} (hR : R.length < 2 ^ 31)
    (hneed : maxString + 2 ^ 31 ≤ need) (hbuf : Holds w.buf R m) :
    Ends (readBody need) w fun o _ => o = .thrown .lengthError := by
  have hpos : 0 < maxString + 2 ^ 31 := by decide
  unfold readBody
  rw [if_neg (by omega)]
  refine ends_gets_bind ?_
  have hlarge : 2 ^ 31 ≤ maxString := by decide
  rw [tryGetData_spec hbuf.ordered hbuf.fits, hbuf.data_eq, if_neg (by omega)]
  refine ends_bufData hbuf (ends_consumeBuf hbuf hR fun b hb => ?_)
  refine ends_bind (Q := fun o _ => o = .thrown .lengthError) ?_ (fun _ _ h => nomatch h)
    (fun _ _ h => congrArg _ (Outcome.thrown.inj h)) (fun _ h => nomatch h)
  unfold reserveString
  rw [if_pos (by omega)]
  rfl

/-! ## The cut does not matter -/

theorem Reads.quiet {w w' : World} {cs : List Call} (h : Reads w w' cs)
    (hcuts : ∀ c ∈ w.server.recvs, c.Delivers) : Call.recvFailed ∉ cs := by
  intro hmem
  obtain ⟨code, hcode⟩ := h.failed_mem hmem
  exact hcuts _ hcode

/-- **THE CUT DOES NOT MATTER**: on a new client, `read_until` returns the shortest
    initial part of the stream that ends with the delimiter, or all of it, and a
    `read_body` after it returns the next bytes, as many as it was asked for and
    there are.  The choices of the `recv` calls do not occur in the results. -/
theorem reads_ignore_cuts (d S : Bytes) (k : Nat) (w : World)
    (hbuf : w.client.mReadStreambuf = init) (hstream : w.server.stream = S)
    (hcuts : ∀ c ∈ w.server.recvs, c.Delivers) (hd : d ≠ []) (hS : S.length < 2 ^ 31)
    (hk : k < 2 ^ 31) :
    Shortest d S (upTo d S) ∧
      ∃ w₁ w₂, readUntil d w = (.value (upTo d S), w₁) ∧
        readBody k w₁ = (.value ((S.drop (upTo d S).length).take k), w₂) := by
  subst hstream
  refine ⟨upTo_shortest d _, ?_⟩
  have hheld : Holds w.buf [] 0 := by
    unfold World.buf
    rw [hbuf]
    exact holds_init
  rcases hrun : readUntil d w with ⟨o, w₁⟩
  have huntil := (readUntil_ends hd hS hheld).out hrun
  cases o with
  | value r =>
      obtain ⟨cs, hreads, -, -, hr, hholds, hend⟩ := huntil
      have hup : upTo d w.server.stream = r := by
        rw [hreads.stream_eq, upTo_append hend, hr]
      have htotal := hreads.received_length
      have hle : r.length ≤ (received cs).length := by
        rw [hr]
        exact (upTo_initial d _).length_le
      have hleft : ((received cs).drop r.length).length < 2 ^ 31 := by
        rw [List.length_drop]
        omega
      rcases hrun' : readBody k w₁ with ⟨o', w₂⟩
      obtain ⟨cs', hreads', ho', -, hend'⟩ :=
        (readBody_ends (by omega) hleft hk hholds).out hrun'
      refine ⟨w₁, w₂, by rw [hup], ?_⟩
      have hquiet := hreads'.quiet fun c hc => hcuts c (hreads.recvs_suffix.mem hc)
      have hrest : w.server.stream.drop r.length
          = ((received cs).drop r.length ++ received cs') ++ w₂.server.stream := by
        rw [hreads.stream_eq, hreads'.stream_eq, List.drop_append_of_le_length hle,
          List.append_assoc]
      rw [hrun', hup, ho', hrest]
      refine congrArg (fun bs => (Outcome.value bs, w₂)) ?_
      by_cases hshort : ((received cs).drop r.length ++ received cs').length < k
      · rw [hend' hquiet hshort, List.append_nil]
      · rw [List.take_append_of_le_length (Nat.le_of_not_lt hshort)]
  | thrown e =>
      obtain ⟨cs, hreads, hmem, -⟩ := huntil
      exact absurd hmem (hreads.quiet hcuts)
  | diverged => exact huntil.elim

/-- A head, three bytes, and the end; the delimiter arrives in three chunks. -/
def splitReply : World where
  client := HttpClient.init 3
  strings := []
  server :=
    { query := fun _ _ => .ok none
      sends := []
      recvs := [.take 2, .take 1, .take 4]
      stream := [65, 13, 10, 13, 10, 120, 121, 122] }
  calls := []

/-- The theorem at that reply. -/
theorem reads_ignore_cuts_splitReply :
    Shortest dcrlf [65, 13, 10, 13, 10, 120, 121, 122] [65, 13, 10, 13, 10] ∧
      ∃ w₁ w₂, readUntil dcrlf splitReply = (.value [65, 13, 10, 13, 10], w₁) ∧
        readBody 2 w₁ = (.value [120, 121], w₂) :=
  reads_ignore_cuts dcrlf [65, 13, 10, 13, 10, 120, 121, 122] 2 splitReply rfl rfl (by decide)
    (by decide) (by decide) (by decide)

end CoioHttpRead
