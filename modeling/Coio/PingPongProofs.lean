import Coio.MachineProofs
import Mathlib.Algebra.Group.Nat.Defs

/-! # The ping-pong benchmark

    The two programs of the example: `client` sends its kilobyte and receives, `times` times;
    `start_session` sends back whatever it receives.  Between them is a TCP connection: in
    each direction a queue of bytes with a bounded number of bytes in it, from which a
    `recv` takes some bytes from the front and to which a `send` adds some of what it was
    given.

    The two sides are not in step.  The client does not look at how much was sent, and it
    goes on as soon as it has received anything, so it may be several rounds behind its own
    echo.  Two senders on full queues would wait for each other forever; the heart of
    `pingpong_ends` is why this does not happen (`Inv.one_has_room`): the client is about to
    send only after a `recv`, which made room in one queue, and by the time the session has
    used that room up it must have made room in the other. -/

namespace CoioPingPong

open CoioMachine

/-! ## The two programs -/

def KB : Nat := 1024

/-- Where `client` waits. -/
inductive ClientPc where
  | send
  | recv
  /-- behind `co_return`; the connection is closed -/
  | returned
  deriving DecidableEq

structure Client where
  times : Nat
  bytesRead : Nat
  buff : List UInt8
  pc : ClientPc
  deriving DecidableEq

/-- Where `start_session` waits. -/
inductive SessionPc where
  | recv
  /-- in the `send` of the first `n` bytes of the buffer -/
  | send (n : Nat)
  /-- behind its end; the socket is closed -/
  | left
  /-- an assertion has failed and the process is gone -/
  | aborted
  deriving DecidableEq

structure Session where
  readCnt : Nat
  buff : List UInt8
  pc : SessionPc
  deriving DecidableEq

structure State where
  client : Client
  session : Session
  /-- the bytes on their way to the session, and to the client -/
  up : List UInt8
  down : List UInt8
  /-- the counter of the server -/
  bytesRead : Nat
  deriving DecidableEq

def ClientPc.isOpen : ClientPc → Bool
  | .returned => false
  | _ => true

def SessionPc.isOpen : SessionPc → Bool
  | .left => false
  | .aborted => false
  | _ => true

/-- `while (times--)`. -/
def Client.test (c : Client) : Client :=
  if c.times = 0 then { c with times := 2 ^ 32 - 1, pc := .returned }
  else { c with times := c.times - 1, pc := .send }

/-- What a `recv` leaves in a buffer. -/
def fill (buff data : List UInt8) : List UInt8 := data ++ buff.drop data.length

/-- Behind the `recv` of the client. -/
def Client.received (c : Client) (data : List UInt8) : Client :=
  if data.length = 0 then { c with buff := fill c.buff data, pc := .returned }
  else
    Client.test
      { c with buff := fill c.buff data, bytesRead := (c.bytesRead + data.length) % 2 ^ 64 }

/-- The end of `start_session`. -/
def leave (s : State) : State :=
  { s with
    session := { s.session with pc := .left }
    bytesRead := (s.bytesRead + s.session.readCnt) % 2 ^ 32 }

/-- Behind the `recv` of the session. -/
def serve (s : State) (data : List UInt8) : State :=
  if data.length = 0 then leave s
  else
    { s with
      session := { s.session with buff := fill s.session.buff data, pc := .send data.length } }

/-- Behind the `send` of the session: `assert(m == n)`. -/
def Session.sent (t : Session) (n m : Nat) : Session :=
  if m = n then { t with readCnt := (t.readCnt + n) % 2 ^ 32, pc := .recv }
  else { t with pc := .aborted }

/-! ## The connection -/

/-- Bytes for an end that is closed are dropped. -/
def deliver (isOpen : Bool) (queue data : List UInt8) : List UInt8 :=
  if isOpen then queue ++ data else queue

def Fits (isOpen : Bool) (cap : Nat) (queue data : List UInt8) : Prop :=
  isOpen = true → queue.length + data.length ≤ cap

instance (isOpen : Bool) (cap : Nat) (queue data : List UInt8) :
    Decidable (Fits isOpen cap queue data) :=
  inferInstanceAs (Decidable (isOpen = true → queue.length + data.length ≤ cap))

/-- What a `recv` into a kilobyte can give: bytes from the front, and nothing only behind
    the last byte of an end that is closed. -/
def Receives (isOpen : Bool) (queue data : List UInt8) : Prop :=
  data = queue.take data.length ∧ data.length ≤ KB ∧ (data = [] → queue = [] ∧ isOpen = false)

instance (isOpen : Bool) (queue data : List UInt8) : Decidable (Receives isOpen queue data) :=
  inferInstanceAs (Decidable (data = queue.take data.length ∧ data.length ≤ KB ∧
    (data = [] → queue = [] ∧ isOpen = false)))

/-- What a `send` of the first `n` bytes of a buffer can take. -/
def Sends (buff : List UInt8) (n : Nat) (data : List UInt8) : Prop :=
  data = buff.take data.length ∧ data.length ≤ n ∧ data ≠ []

instance (buff : List UInt8) (n : Nat) (data : List UInt8) : Decidable (Sends buff n data) :=
  inferInstanceAs (Decidable (data = buff.take data.length ∧ data.length ≤ n ∧ data ≠ []))

inductive Event where
  | clientSend (data : List UInt8)
  | clientRecv (data : List UInt8)
  /-- a `send` or `recv` of the client throws -/
  | clientFail
  | serverRecv (data : List UInt8)
  | serverSend (n : Nat) (data : List UInt8)
  | serverFail
  /-- an assertion fails in another session -/
  | serverKilled
  deriving DecidableEq

def step (capUp capDown : Nat) (s : State) : Event → Option State
  | .clientSend data =>
      enabled (s.client.pc = .send ∧ Sends s.client.buff KB data ∧
          Fits s.session.pc.isOpen capUp s.up data)
        { s with
          client := { s.client with pc := .recv }
          up := deliver s.session.pc.isOpen s.up data }
  | .clientRecv data =>
      enabled (s.client.pc = .recv ∧ Receives s.session.pc.isOpen s.down data)
        { s with client := s.client.received data, down := s.down.drop data.length }
  | .clientFail =>
      enabled (s.client.pc.isOpen = true) { s with client := { s.client with pc := .returned } }
  | .serverRecv data =>
      enabled (s.session.pc = .recv ∧ Receives s.client.pc.isOpen s.up data)
        (serve { s with up := s.up.drop data.length } data)
  | .serverSend n data =>
      enabled (s.session.pc = .send n ∧ Sends s.session.buff n data ∧
          Fits s.client.pc.isOpen capDown s.down data)
        { s with
          session := s.session.sent n data.length
          down := deliver s.client.pc.isOpen s.down data }
  | .serverFail => enabled (s.session.pc.isOpen = true) (leave s)
  | .serverKilled =>
      enabled (s.session.pc.isOpen = true) { s with session := { s.session with pc := .aborted } }

/-- One connection, from the point where it is established. -/
def pingpong (capUp capDown times : Nat) : Machine State Event where
  init :=
    { client := Client.test
        { times := times, bytesRead := 0, buff := List.replicate KB 0, pc := .send }
      session := { readCnt := 0, buff := List.replicate KB 0, pc := .recv }
      up := []
      down := []
      bytesRead := 0 }
  step := step capUp capDown

/-! ## Sending and receiving -/

section Transfer

variable {isOpen : Bool} {queue data buff : List UInt8} {n : Nat}

theorem Receives.length_le (h : Receives isOpen queue data) : data.length ≤ queue.length := by
  rw [h.1, List.length_take]
  exact Nat.min_le_right ..

theorem Receives.split (h : Receives isOpen queue data) :
    data ++ queue.drop data.length = queue := by
  conv_rhs => rw [← List.take_append_drop data.length queue, ← h.1]

theorem fill_length (h : data.length ≤ buff.length) : (fill buff data).length = buff.length := by
  rw [fill, List.length_append, List.length_drop]
  omega

/-- There is always a way to receive, unless everything is there that has been sent. -/
theorem exists_receives (h : queue = [] → isOpen = false) : ∃ data, Receives isOpen queue data := by
  refine ⟨queue.take KB, ?_, ?_, ?_⟩
  · rw [List.length_take, List.take_eq_take_min]
  · rw [List.length_take]
    exact Nat.min_le_left ..
  · intro hnil
    have hqueue : queue = [] := by
      rw [List.take_eq_nil_iff] at hnil
      exact hnil.resolve_left (by decide)
    exact ⟨hqueue, h hqueue⟩

/-- One byte can be sent if there is room for one. -/
theorem exists_sends {cap : Nat} (hn : 0 < n) (hbuff : 0 < buff.length)
    (hroom : isOpen = true → queue.length < cap) :
    ∃ data, Sends buff n data ∧ Fits isOpen cap queue data := by
  have hone : (buff.take 1).length = 1 := by
    rw [List.length_take]
    omega
  refine ⟨buff.take 1, ⟨?_, ?_, ?_⟩, ?_⟩
  · rw [hone]
  · rw [hone]
    exact hn
  · intro hnil
    rw [hnil] at hone
    exact absurd hone (by simp)
  · intro hopen
    have := hroom hopen
    omega

end Transfer

/-- Behind a `recv` the client is about to send, or has returned. -/
theorem Client.received_cases (c : Client) (data : List UInt8) :
    (c.received data).buff = fill c.buff data ∧
      ((c.received data).pc = .returned ∨
        data ≠ [] ∧ 0 < c.times ∧ (c.received data).times = c.times - 1 ∧
          (c.received data).pc = .send) := by
  unfold Client.received Client.test
  split
  · exact ⟨rfl, .inl rfl⟩
  · rename_i hne
    have hdata : data ≠ [] := by
      rintro rfl
      exact hne rfl
    split
    · exact ⟨rfl, .inl rfl⟩
    · rename_i htimes
      exact ⟨rfl, .inr ⟨hdata, Nat.pos_of_ne_zero htimes, rfl, rfl⟩⟩

/-- Behind a `send` the session receives again, or the process is gone. -/
theorem Session.sent_cases (t : Session) (n m : Nat) :
    (t.sent n m).buff = t.buff ∧
      (m = n ∧ (t.sent n m).pc = .recv ∧ (t.sent n m).readCnt = (t.readCnt + n) % 2 ^ 32 ∨
        (t.sent n m).pc = .aborted) := by
  unfold Session.sent
  split
  · rename_i hm
    exact ⟨rfl, .inl ⟨hm, rfl, rfl⟩⟩
  · exact ⟨rfl, .inr rfl⟩

/-! ## Neither waits for the other forever -/

section Runs

variable {capUp capDown times : Nat}

/-- What every reachable state keeps. -/
structure Inv (capUp capDown : Nat) (s : State) : Prop where
  client_buff : s.client.buff.length = KB
  session_buff : s.session.buff.length = KB
  sending : ∀ n, s.session.pc = .send n → 0 < n ∧ n ≤ KB
  up_le : s.up.length ≤ capUp
  down_le : s.down.length ≤ capDown
  /-- when both want to send, one of them can -/
  one_has_room : ∀ n, s.client.pc = .send → s.session.pc = .send n →
    s.up.length < capUp ∨ s.down.length < capDown
  /-- when the client waits for an echo, there is one to come -/
  echo_to_come : s.client.pc = .recv → s.session.pc = .recv → s.up ≠ [] ∨ s.down ≠ []

theorem inv_init : Inv capUp capDown (pingpong capUp capDown times).init := by
  unfold pingpong Client.test
  split <;> constructor <;> simp

theorem length_deliver_le {isOpen : Bool} {cap : Nat} {queue data : List UInt8}
    (h : queue.length ≤ cap) (hfits : Fits isOpen cap queue data) :
    (deliver isOpen queue data).length ≤ cap := by
  unfold deliver
  split
  · rename_i hopen
    rw [List.length_append]
    exact hfits hopen
  · exact h

theorem inv_step (s : State) (e : Event) (s' : State) (h : Inv capUp capDown s)
    (hs : step capUp capDown s e = some s') : Inv capUp capDown s' := by
  cases e with
  | clientSend data =>
      obtain ⟨⟨hpc, hsends, hfits⟩, rfl⟩ := enabled_eq_some.mp hs
      refine ⟨h.client_buff, h.session_buff, h.sending, length_deliver_le h.up_le hfits,
        h.down_le, ?_, ?_⟩
      · intro n hclient
        cases hclient
      · intro _ hsession
        left
        rw [hsession]
        intro hnil
        exact hsends.2.2 (List.append_eq_nil_iff.mp hnil).2
  | clientRecv data =>
      obtain ⟨⟨hpc, hrecv⟩, rfl⟩ := enabled_eq_some.mp hs
      obtain ⟨hbuff, hcases⟩ := s.client.received_cases data
      have hle := hrecv.length_le
      refine ⟨?_, h.session_buff, h.sending, h.up_le, ?_, ?_, ?_⟩
      · rw [hbuff, fill_length (h.client_buff ▸ hrecv.2.1), h.client_buff]
      · have := h.down_le
        rw [List.length_drop]
        omega
      · -- the client has just made room
        intro n hsend _
        right
        rcases hcases with hret | ⟨hne, -⟩
        · rw [hret] at hsend
          cases hsend
        · have := h.down_le
          have := List.length_pos_of_ne_nil hne
          rw [List.length_drop]
          omega
      · intro hwait
        rcases hcases with hpc' | ⟨-, -, -, hpc'⟩ <;> rw [hpc'] at hwait <;> cases hwait
  | clientFail =>
      obtain ⟨-, rfl⟩ := enabled_eq_some.mp hs
      exact ⟨h.client_buff, h.session_buff, h.sending, h.up_le, h.down_le, by simp, by simp⟩
  | serverRecv data =>
      obtain ⟨⟨hpc, hrecv⟩, rfl⟩ := enabled_eq_some.mp hs
      have hle := hrecv.length_le
      have hup : (s.up.drop data.length).length ≤ capUp := by
        have := h.up_le
        rw [List.length_drop]
        omega
      unfold serve
      split
      · exact ⟨h.client_buff, h.session_buff, by simp [leave], hup, h.down_le, by simp [leave],
          by simp [leave]⟩
      · rename_i hne
        refine ⟨h.client_buff, ?_, ?_, hup, h.down_le, ?_, by simp⟩
        · exact (fill_length (h.session_buff ▸ hrecv.2.1)).trans h.session_buff
        · rintro _ ⟨⟩
          exact ⟨Nat.pos_of_ne_zero hne, hrecv.2.1⟩
        · -- the session has just made room
          intro n _ _
          left
          have := h.up_le
          rw [List.length_drop]
          omega
  | serverSend n data =>
      obtain ⟨⟨hpc, hsends, hfits⟩, rfl⟩ := enabled_eq_some.mp hs
      obtain ⟨hbuff, hcases⟩ := s.session.sent_cases n data.length
      have hnosend : ∀ n', (s.session.sent n data.length).pc ≠ .send n' := by
        intro n' hsend
        rcases hcases with ⟨-, hpc', -⟩ | hpc' <;> rw [hpc'] at hsend <;> cases hsend
      refine ⟨h.client_buff, hbuff ▸ h.session_buff, ?_, h.up_le,
        length_deliver_le h.down_le hfits, ?_, ?_⟩
      · intro n' hsend
        exact absurd hsend (hnosend n')
      · intro n' _ hsend
        exact absurd hsend (hnosend n')
      · intro hclient _
        right
        rw [show s.client.pc = .recv from hclient]
        intro hnil
        exact hsends.2.2 (List.append_eq_nil_iff.mp hnil).2
  | serverFail | serverKilled =>
      obtain ⟨-, rfl⟩ := enabled_eq_some.mp hs
      exact ⟨h.client_buff, h.session_buff, by simp [leave], h.up_le, h.down_le, by simp [leave],
        by simp [leave]⟩

theorem inv_run {tr : List Event} {s : State}
    (hr : run (pingpong capUp capDown times) tr = some s) : Inv capUp capDown s :=
  run_invariant inv_init inv_step hr

/-- The events that are not the work of the two programs. -/
def isFailure : Event → Bool
  | .clientFail => true
  | .serverFail => true
  | .serverKilled => true
  | _ => false

/-- One of the two can do something other than fail. -/
def GoesOn (capUp capDown : Nat) (s : State) : Prop :=
  ∃ e s', isFailure e = false ∧ step capUp capDown s e = some s'

theorem client_sends {s : State} (hI : Inv capUp capDown s) (hpc : s.client.pc = .send)
    (hroom : s.session.pc.isOpen = true → s.up.length < capUp) : GoesOn capUp capDown s := by
  have hbuff : 0 < s.client.buff.length := by
    rw [hI.client_buff]
    decide
  obtain ⟨data, hsends, hfits⟩ := exists_sends (n := KB) (by decide) hbuff hroom
  exact ⟨.clientSend data, _, rfl, enabled_eq_some.mpr ⟨⟨hpc, hsends, hfits⟩, rfl⟩⟩

theorem client_receives {s : State} (hpc : s.client.pc = .recv)
    (hdown : s.down = [] → s.session.pc.isOpen = false) : GoesOn capUp capDown s := by
  obtain ⟨data, hrecv⟩ := exists_receives hdown
  exact ⟨.clientRecv data, _, rfl, enabled_eq_some.mpr ⟨⟨hpc, hrecv⟩, rfl⟩⟩

theorem session_sends {s : State} {n : Nat} (hI : Inv capUp capDown s)
    (hpc : s.session.pc = .send n) (hroom : s.client.pc.isOpen = true → s.down.length < capDown) :
    GoesOn capUp capDown s := by
  have hbuff : 0 < s.session.buff.length := by
    rw [hI.session_buff]
    decide
  obtain ⟨data, hsends, hfits⟩ := exists_sends (hI.sending n hpc).1 hbuff hroom
  exact ⟨.serverSend n data, _, rfl, enabled_eq_some.mpr ⟨⟨hpc, hsends, hfits⟩, rfl⟩⟩

theorem session_receives {s : State} (hpc : s.session.pc = .recv)
    (hup : s.up = [] → s.client.pc.isOpen = false) : GoesOn capUp capDown s := by
  obtain ⟨data, hrecv⟩ := exists_receives hup
  exact ⟨.serverRecv data, _, rfl, enabled_eq_some.mpr ⟨⟨hpc, hrecv⟩, rfl⟩⟩

/-- **NO DEADLOCK**: as long as one of the two has not come to its end, one of them can go on. -/
theorem goes_on {s : State} (hI : Inv capUp capDown s) (hup : 0 < capUp) (hdown : 0 < capDown)
    (hopen : s.client.pc ≠ .returned ∨ s.session.pc.isOpen = true) : GoesOn capUp capDown s := by
  cases hclient : s.client.pc with
  | returned =>
      -- what the session sends is dropped, and its `recv` gives what is left or nothing
      have hclosed : s.client.pc.isOpen = false := by rw [hclient, ClientPc.isOpen]
      have hsession := hopen.resolve_left (not_not_intro hclient)
      cases hpc : s.session.pc with
      | recv => exact session_receives hpc fun _ => hclosed
      | send n => exact session_sends hI hpc (by simp [hclosed])
      | left | aborted => exact absurd hsession (by simp [hpc, SessionPc.isOpen])
  | send =>
      cases hpc : s.session.pc with
      | recv =>
          by_cases hempty : s.up = []
          · refine client_sends hI hclient fun _ => ?_
            rw [hempty]
            exact hup
          · exact session_receives hpc fun hnil => absurd hnil hempty
      | send n =>
          rcases hI.one_has_room n hclient hpc with hroom | hroom
          · exact client_sends hI hclient fun _ => hroom
          · exact session_sends hI hpc fun _ => hroom
      | left | aborted => exact client_sends hI hclient (by simp [hpc, SessionPc.isOpen])
  | recv =>
      by_cases hempty : s.down = []
      · cases hpc : s.session.pc with
        | recv =>
            have hcome := (hI.echo_to_come hclient hpc).resolve_right (not_not_intro hempty)
            exact session_receives hpc fun hnil => absurd hnil hcome
        | send n =>
            refine session_sends hI hpc fun _ => ?_
            rw [hempty]
            exact hdown
        | left | aborted => exact client_receives hclient fun _ => by rw [hpc, SessionPc.isOpen]
      · exact client_receives hclient fun hnil => absurd hnil hempty

/-! ## It comes to an end -/

/-- A round of the client is two steps, and two for each byte at the other end. -/
def Client.stepsLeft (c : Client) : Nat :=
  match c.pc with
  | .send => 2050 * (c.times + 1)
  | .recv => 2050 * c.times + 1
  | .returned => 0

def SessionPc.stepsLeft : SessionPc → Nat
  | .recv => 1
  | .send _ => 2
  | .left => 0
  | .aborted => 0

def State.stepsLeft (s : State) : Nat :=
  s.client.stepsLeft + 2 * s.up.length + s.session.pc.stepsLeft

theorem Client.received_stepsLeft {c : Client} (hpc : c.pc = .recv) (data : List UInt8) :
    (c.received data).stepsLeft < c.stepsLeft := by
  have hold : c.stepsLeft = 2050 * c.times + 1 := by rw [Client.stepsLeft, hpc]
  rcases (c.received_cases data).2 with hret | ⟨-, hpos, htimes, hsend⟩
  · rw [hold, Client.stepsLeft, hret]
    exact Nat.succ_pos _
  · rw [hold, Client.stepsLeft, hsend, htimes]
    dsimp only
    omega

/-- Every step uses up one. -/
theorem stepsLeft_step {s s' : State} {e : Event}
    (hs : step capUp capDown s e = some s') : s'.stepsLeft < s.stepsLeft := by
  cases e with
  | clientSend data =>
      obtain ⟨⟨hpc, hsends, hfits⟩, rfl⟩ := enabled_eq_some.mp hs
      have hold : s.client.stepsLeft = 2050 * (s.client.times + 1) := by
        rw [Client.stepsLeft, hpc]
      have hnew : (deliver s.session.pc.isOpen s.up data).length ≤ s.up.length + KB := by
        have hle := hsends.2.1
        unfold deliver
        split
        · rw [List.length_append]
          omega
        · exact Nat.le_add_right ..
      simp only [State.stepsLeft, hold]
      simp only [Client.stepsLeft, KB] at hnew ⊢
      omega
  | clientRecv data =>
      obtain ⟨⟨hpc, -⟩, rfl⟩ := enabled_eq_some.mp hs
      have hless := Client.received_stepsLeft hpc data
      simp only [State.stepsLeft]
      omega
  | clientFail =>
      obtain ⟨hopen, rfl⟩ := enabled_eq_some.mp hs
      have hpos : 0 < s.client.stepsLeft := by
        cases hpc : s.client.pc with
        | returned =>
            rw [hpc] at hopen
            cases hopen
        | send | recv =>
            rw [Client.stepsLeft, hpc]
            dsimp only
            omega
      have hnone : Client.stepsLeft { s.client with pc := .returned } = 0 := rfl
      simp only [State.stepsLeft, hnone]
      omega
  | serverRecv data =>
      obtain ⟨⟨hpc, hrecv⟩, rfl⟩ := enabled_eq_some.mp hs
      have hle := hrecv.length_le
      unfold serve
      split
      · simp only [State.stepsLeft, leave, hpc, SessionPc.stepsLeft, List.length_drop]
        omega
      · simp only [State.stepsLeft, hpc, SessionPc.stepsLeft, List.length_drop]
        omega
  | serverSend n data =>
      obtain ⟨⟨hpc, -, -⟩, rfl⟩ := enabled_eq_some.mp hs
      rcases (s.session.sent_cases n data.length).2 with ⟨-, hpc', -⟩ | hpc' <;>
      · simp only [State.stepsLeft, hpc, hpc', SessionPc.stepsLeft]
        omega
  | serverFail | serverKilled =>
      obtain ⟨hopen, rfl⟩ := enabled_eq_some.mp hs
      have hpos : 0 < s.session.pc.stepsLeft := by
        cases hpc : s.session.pc with
        | recv | send n => exact Nat.succ_pos _
        | left | aborted =>
            rw [hpc] at hopen
            cases hopen
      exact Nat.add_lt_add_left hpos _

theorem init_stepsLeft :
    (pingpong capUp capDown times).init.stepsLeft ≤ 2050 * times + 1 := by
  unfold pingpong Client.test
  split
  · exact Nat.le_add_left ..
  · rename_i hne
    have hpos : 0 < times := Nat.pos_of_ne_zero hne
    simp only [State.stepsLeft, Client.stepsLeft, SessionPc.stepsLeft, List.length_nil]
    omega

theorem run_length_le {tr : List Event} {s : State}
    (hr : run (pingpong capUp capDown times) tr = some s) : tr.length ≤ 2050 * times + 1 := by
  have hstep : ∀ s e s', Inv capUp capDown s → True →
      (pingpong capUp capDown times).step s e = some s' →
        s'.stepsLeft + true.toNat ≤ s.stepsLeft :=
    fun _ _ _ _ _ hs => stepsLeft_step hs
  have hcount : s.stepsLeft + tr.countP (fun _ => true)
      ≤ (pingpong capUp capDown times).init.stepsLeft :=
    runFrom_countdown inv_step hstep inv_init tr s hr (fun _ _ => trivial)
  have hall : tr.countP (fun _ => true) = tr.length := congrFun List.countP_true tr
  have hinit : (pingpong capUp capDown times).init.stepsLeft ≤ 2050 * times + 1 := init_stepsLeft
  omega

/-- **IT ENDS**: a run has a bounded number of steps, however the bytes are cut and
    whatever fails; and whenever neither program can go on, the client has returned and
    the session is over. -/
theorem pingpong_ends (hup : 0 < capUp) (hdown : 0 < capDown) {tr : List Event} {s : State}
    (hr : run (pingpong capUp capDown times) tr = some s) :
    tr.length ≤ 2050 * times + 1 ∧
      ((∀ e, isFailure e = false → step capUp capDown s e = none) →
        s.client.pc = .returned ∧ s.session.pc.isOpen = false) := by
  refine ⟨run_length_le hr, ?_⟩
  intro hstuck
  by_contra hnot
  have hopen : s.client.pc ≠ .returned ∨ s.session.pc.isOpen = true := by
    by_cases hclient : s.client.pc = .returned
    · right
      by_contra hclosed
      exact hnot ⟨hclient, Bool.not_eq_true _ ▸ hclosed⟩
    · exact .inl hclient
  obtain ⟨e, s', he, hs'⟩ := goes_on (inv_run hr) hup hdown hopen
  rw [hstuck e he] at hs'
  cases hs'

/-- A session of one round, in which the echo comes in two pieces and the client takes one. -/
def oneRound : List Event :=
  [.clientSend [0, 0], .serverRecv [0], .serverSend 1 [0], .serverRecv [0], .serverSend 1 [0],
    .clientRecv [0], .serverRecv []]

theorem pingpong_ends_oneRound :
    ∃ s, run (pingpong 4 2 1) oneRound = some s ∧ oneRound.length ≤ 2050 * 1 + 1 ∧
      ((∀ e, isFailure e = false → step 4 2 s e = none) →
        s.client.pc = .returned ∧ s.session.pc.isOpen = false) := by
  have hsome : (run (pingpong 4 2 1) oneRound).isSome = true := by decide +kernel
  obtain ⟨s, hs⟩ := Option.isSome_iff_exists.mp hsome
  exact ⟨s, hs, pingpong_ends (by decide) (by decide) hs⟩

/-! ## What arrives -/

def sentBy : Event → List UInt8
  | .clientSend data => data
  | _ => []

def takenBy : Event → List UInt8
  | .serverRecv data => data
  | _ => []

def echoedBy : Event → List UInt8
  | .serverSend _ data => data
  | _ => []

def gotBy : Event → List UInt8
  | .clientRecv data => data
  | _ => []

/-- The bytes that the client has sent, the session has received, the session has sent, and
    the client has received. -/
def sent (tr : List Event) : List UInt8 := tr.flatMap sentBy

def taken (tr : List Event) : List UInt8 := tr.flatMap takenBy

def echoed (tr : List Event) : List UInt8 := tr.flatMap echoedBy

def got (tr : List Event) : List UInt8 := tr.flatMap gotBy

/-- What the session has still to send back. -/
def Session.held (t : Session) : List UInt8 :=
  match t.pc with
  | .send n => t.buff.take n
  | _ => []

/-- What has come out of a queue, with what is in it, is the beginning of what has gone in,
    and all of it as long as nobody has left. -/
structure Pipe (isOpen : Bool) (out queue into : List UInt8) : Prop where
  le : out ++ queue <+: into
  eq : isOpen = true → out ++ queue = into

section Pipe

variable {isOpen other : Bool} {out queue into data : List UInt8}

theorem Pipe.deliver (h : Pipe isOpen out queue into) (data : List UInt8) :
    Pipe isOpen out (deliver isOpen queue data) (into ++ data) := by
  cases isOpen with
  | true =>
      have heq : out ++ (queue ++ data) = into ++ data := by rw [← List.append_assoc, h.eq rfl]
      exact ⟨heq ▸ List.prefix_rfl, fun _ => heq⟩
  | false => exact ⟨h.le.trans (List.prefix_append ..), by simp⟩

theorem Pipe.receive (h : Pipe isOpen out queue into) (hrecv : Receives other queue data) :
    Pipe isOpen (out ++ data) (queue.drop data.length) into := by
  have hsame : out ++ data ++ queue.drop data.length = out ++ queue := by
    rw [List.append_assoc, hrecv.split]
  exact ⟨hsame ▸ h.le, fun hopen => hsame.trans (h.eq hopen)⟩

theorem Pipe.later (h : Pipe isOpen out queue into) (hopen : other = true → isOpen = true) :
    Pipe other out queue into :=
  ⟨h.le, fun hother => h.eq (hopen hother)⟩

/-- What comes out is a beginning of what has gone in. -/
theorem Pipe.arrived (h : Pipe isOpen out queue into) : out <+: into :=
  (List.prefix_append ..).trans h.le

end Pipe

/-- What has not been passed on is lost when somebody leaves. -/
theorem Pipe.lost {isOpen other : Bool} {out queue into : List UInt8}
    (h : Pipe isOpen out queue into) (hclosed : other = false) : Pipe other out [] into := by
  refine ⟨?_, by simp [hclosed]⟩
  rw [List.append_nil]
  exact h.arrived

/-- The three places where bytes are on their way. -/
structure Flow (sent taken echoed got : List UInt8) (s : State) : Prop where
  up : Pipe s.session.pc.isOpen taken s.up sent
  held : Pipe s.session.pc.isOpen echoed s.session.held taken
  down : Pipe s.client.pc.isOpen got s.down echoed

theorem held_eq_nil {t : Session} (hpc : ∀ n, t.pc ≠ .send n) : t.held = [] := by
  cases h : t.pc with
  | send n => exact absurd h (hpc n)
  | _ => rw [Session.held, h]

section FlowSteps

variable {s s' : State} {a b c d : List UInt8}

/-- The session receives: everything before has been sent back. -/
theorem Flow.serve {data : List UInt8} (h : Flow a b c d s) (hpc : s.session.pc = .recv)
    (hrecv : Receives s.client.pc.isOpen s.up data) :
    Flow a (b ++ data) c d (serve { s with up := s.up.drop data.length } data) := by
  have hopen : s.session.pc.isOpen = true := by
    rw [hpc]
    rfl
  have hnone : s.session.held = [] := held_eq_nil (by simp [hpc])
  have hup := h.up.receive hrecv
  have hall : c = b := by
    have := h.held.eq hopen
    rwa [hnone, List.append_nil] at this
  unfold CoioPingPong.serve
  split
  · rename_i hzero
    rw [List.eq_nil_of_length_eq_zero hzero, List.append_nil] at hup ⊢
    exact ⟨hup.later fun _ => hopen, h.held.lost rfl, h.down⟩
  · have hheld : Session.held { s.session with
        buff := fill s.session.buff data, pc := .send data.length } = data :=
      List.take_left
    refine ⟨hup.later fun _ => hopen, ?_, h.down⟩
    rw [hheld, hall]
    exact ⟨List.prefix_rfl, fun _ => rfl⟩

/-- The session sends: all that it holds, or it is gone. -/
theorem Flow.sent {n : Nat} {data : List UInt8} (h : Flow a b c d s)
    (hpc : s.session.pc = .send n) (hsends : Sends s.session.buff n data) :
    Flow a b (c ++ data) d
      { s with
        session := s.session.sent n data.length
        down := deliver s.client.pc.isOpen s.down data } := by
  have hopen : s.session.pc.isOpen = true := by
    rw [hpc]
    rfl
  have hheld : s.session.held = s.session.buff.take n := by rw [Session.held, hpc]
  have hpart : data <+: s.session.held := by
    rw [hheld, hsends.1]
    exact List.take_prefix_take_left hsends.2.1
  have hle : c ++ data <+: b := (List.prefix_append_right_inj c).mpr hpart |>.trans h.held.le
  obtain ⟨-, ⟨hall, hrecv, -⟩ | habort⟩ := s.session.sent_cases n data.length
  · have hnil := held_eq_nil (t := s.session.sent n data.length) (by simp [hrecv])
    refine ⟨h.up.later fun _ => hopen, ?_, h.down.deliver data⟩
    have heq : c ++ data = b := by
      rw [hsends.1, hall, ← hheld]
      exact h.held.eq hopen
    rw [hnil]
    exact ⟨by rw [List.append_nil]; exact hle, fun _ => by rw [List.append_nil]; exact heq⟩
  · have hnil := held_eq_nil (t := s.session.sent n data.length) (by simp [habort])
    refine ⟨h.up.later fun _ => hopen, ?_, h.down.deliver data⟩
    rw [hnil]
    exact ⟨by rw [List.append_nil]; exact hle, by simp [habort, SessionPc.isOpen]⟩

theorem flow_step {e : Event} (h : Flow a b c d s) (hs : step capUp capDown s e = some s') :
    Flow (a ++ sentBy e) (b ++ takenBy e) (c ++ echoedBy e) (d ++ gotBy e) s' := by
  cases e with
  | clientSend data =>
      obtain ⟨⟨hpc, -, -⟩, rfl⟩ := enabled_eq_some.mp hs
      simp only [sentBy, takenBy, echoedBy, gotBy, List.append_nil]
      refine ⟨h.up.deliver data, h.held, h.down.later fun _ => ?_⟩
      rw [hpc]
      rfl
  | clientRecv data =>
      obtain ⟨⟨hpc, hrecv⟩, rfl⟩ := enabled_eq_some.mp hs
      simp only [sentBy, takenBy, echoedBy, gotBy, List.append_nil]
      refine ⟨h.up, h.held, (h.down.receive hrecv).later fun _ => ?_⟩
      rw [hpc]
      rfl
  | clientFail =>
      obtain ⟨hopen, rfl⟩ := enabled_eq_some.mp hs
      simp only [sentBy, takenBy, echoedBy, gotBy, List.append_nil]
      exact ⟨h.up, h.held, h.down.later fun _ => hopen⟩
  | serverRecv data =>
      obtain ⟨⟨hpc, hrecv⟩, rfl⟩ := enabled_eq_some.mp hs
      simp only [sentBy, takenBy, echoedBy, gotBy, List.append_nil]
      exact h.serve hpc hrecv
  | serverSend n data =>
      obtain ⟨⟨hpc, hsends, -⟩, rfl⟩ := enabled_eq_some.mp hs
      simp only [sentBy, takenBy, echoedBy, gotBy, List.append_nil]
      exact h.sent hpc hsends
  | serverFail | serverKilled =>
      obtain ⟨hopen, rfl⟩ := enabled_eq_some.mp hs
      simp only [sentBy, takenBy, echoedBy, gotBy, List.append_nil]
      exact ⟨h.up.later fun _ => hopen, h.held.lost rfl, h.down⟩

end FlowSteps

theorem streams_snoc (tr : List Event) (e : Event) :
    sent (tr ++ [e]) = sent tr ++ sentBy e ∧ taken (tr ++ [e]) = taken tr ++ takenBy e ∧
      echoed (tr ++ [e]) = echoed tr ++ echoedBy e ∧ got (tr ++ [e]) = got tr ++ gotBy e := by
  simp only [sent, taken, echoed, got, List.flatMap_append, List.flatMap_singleton, and_self]

theorem flow_run : ∀ tr s, run (pingpong capUp capDown times) tr = some s →
    Flow (sent tr) (taken tr) (echoed tr) (got tr) s := by
  refine run_history ?_ ?_
  · exact ⟨⟨List.prefix_rfl, fun _ => rfl⟩, ⟨List.prefix_rfl, fun _ => rfl⟩,
      ⟨List.prefix_rfl, fun _ => rfl⟩⟩
  · intro tr s e s' _ h hs
    obtain ⟨hsent, htaken, hechoed, hgot⟩ := streams_snoc tr e
    rw [hsent, htaken, hechoed, hgot]
    exact flow_step h hs

/-! ## What is counted -/

/-- The rounds in which the client may still receive, and those in which it may still send. -/
def Client.recvsLeft (c : Client) : Nat :=
  match c.pc with
  | .returned => 0
  | _ => c.times + 1

def Client.sendsLeft (c : Client) : Nat :=
  match c.pc with
  | .send => c.times + 1
  | .recv => c.times
  | .returned => 0

/-- The counters against the bytes. -/
structure Count (times : Nat) (sent echoed got : List UInt8) (s : State) : Prop where
  recvs : got.length + KB * s.client.recvsLeft ≤ KB * times
  sends : sent.length + KB * s.client.sendsLeft ≤ KB * times
  client : s.client.bytesRead = got.length
  readCnt : s.session.pc ≠ .aborted → s.session.readCnt = echoed.length % 2 ^ 32
  /-- the session has not added its count yet, or has added it once -/
  server : s.bytesRead = if s.session.pc = .left then s.session.readCnt else 0

theorem Client.received_left (c : Client) (data : List UInt8) :
    (c.received data).recvsLeft ≤ c.times ∧ (c.received data).sendsLeft ≤ c.times := by
  rcases (c.received_cases data).2 with hret | ⟨-, hpos, htimes, hsend⟩
  · simp only [Client.recvsLeft, Client.sendsLeft, hret]
    exact ⟨Nat.zero_le _, Nat.zero_le _⟩
  · simp only [Client.recvsLeft, Client.sendsLeft, hsend, htimes]
    omega

theorem Client.received_bytesRead (c : Client) (data : List UInt8)
    (h : c.bytesRead + data.length < 2 ^ 64) :
    (c.received data).bytesRead = c.bytesRead + data.length := by
  unfold Client.received Client.test
  split
  · rename_i hzero
    exact (congrArg (c.bytesRead + ·) hzero).symm
  · split <;> exact Nat.mod_eq_of_lt h

section CountSteps

variable {s s' : State} {a b c : List UInt8}

/-- The session ends and adds its count. -/
theorem Count.leave (h : Count times a b c s) (hopen : s.session.pc.isOpen = true) :
    Count times a b c (leave s) := by
  have hnot : s.session.pc ≠ .left ∧ s.session.pc ≠ .aborted := by
    constructor <;> intro hpc <;> rw [hpc] at hopen <;> cases hopen
  have hcnt := h.readCnt hnot.2
  have hserver := h.server
  rw [if_neg hnot.1] at hserver
  refine ⟨h.recvs, h.sends, h.client, fun _ => hcnt, ?_⟩
  show (s.bytesRead + s.session.readCnt) % 2 ^ 32 = s.session.readCnt
  rw [hserver, hcnt, Nat.zero_add, Nat.mod_mod]

theorem count_step {e : Event} (htimes : times < 2 ^ 32) (h : Count times a b c s)
    (hs : step capUp capDown s e = some s') :
    Count times (a ++ sentBy e) (b ++ echoedBy e) (c ++ gotBy e) s' := by
  cases e with
  | clientSend data =>
      obtain ⟨⟨hpc, hsends, -⟩, rfl⟩ := enabled_eq_some.mp hs
      simp only [sentBy, echoedBy, gotBy, List.append_nil]
      have hrecvs := h.recvs
      have hsendsLeft := h.sends
      have hle := hsends.2.1
      refine ⟨?_, ?_, h.client, h.readCnt, h.server⟩
      · simpa only [Client.recvsLeft, hpc] using hrecvs
      · simp only [Client.sendsLeft, hpc, KB] at hsendsLeft hle ⊢
        rw [List.length_append]
        omega
  | clientRecv data =>
      obtain ⟨⟨hpc, hrecv⟩, rfl⟩ := enabled_eq_some.mp hs
      simp only [sentBy, echoedBy, gotBy, List.append_nil]
      obtain ⟨hrecvsLeft, hsendsLeft⟩ := s.client.received_left data
      have hrecvs := h.recvs
      have hsends := h.sends
      have hle := hrecv.2.1
      have hclient := h.client
      simp only [Client.recvsLeft, Client.sendsLeft, hpc, KB] at hrecvs hsends hle
      refine ⟨?_, ?_, ?_, h.readCnt, h.server⟩
      · rw [List.length_append, KB]
        dsimp only
        omega
      · rw [KB]
        dsimp only
        omega
      · rw [List.length_append, ← hclient]
        exact Client.received_bytesRead _ _ (by omega)
  | clientFail =>
      obtain ⟨-, rfl⟩ := enabled_eq_some.mp hs
      simp only [sentBy, echoedBy, gotBy, List.append_nil]
      refine ⟨?_, ?_, h.client, h.readCnt, h.server⟩
      · exact (Nat.le_add_right ..).trans h.recvs
      · exact (Nat.le_add_right ..).trans h.sends
  | serverRecv data =>
      obtain ⟨⟨hpc, -⟩, rfl⟩ := enabled_eq_some.mp hs
      simp only [sentBy, echoedBy, gotBy, List.append_nil]
      have hserver := h.server
      rw [hpc] at hserver
      have hdropped : Count times a b c { s with up := s.up.drop data.length } :=
        ⟨h.recvs, h.sends, h.client, h.readCnt, h.server⟩
      unfold serve
      split
      · refine hdropped.leave ?_
        rw [show s.session.pc = .recv from hpc]
        rfl
      · exact ⟨h.recvs, h.sends, h.client, fun _ => h.readCnt (by simp [hpc]), hserver⟩
  | serverSend n data =>
      obtain ⟨⟨hpc, -, -⟩, rfl⟩ := enabled_eq_some.mp hs
      simp only [sentBy, echoedBy, gotBy, List.append_nil]
      have hserver := h.server
      have hcnt := h.readCnt (by simp [hpc])
      rw [hpc] at hserver
      obtain ⟨-, ⟨hall, hrecv, hcnt'⟩ | habort⟩ := s.session.sent_cases n data.length
      · refine ⟨h.recvs, h.sends, h.client, fun _ => ?_, ?_⟩
        · rw [hcnt', hcnt, List.length_append, hall, Nat.mod_add_mod]
        · rw [hserver, hrecv]
          rfl
      · refine ⟨h.recvs, h.sends, h.client, fun hnot => absurd habort hnot, ?_⟩
        rw [hserver, habort]
        rfl
  | serverFail =>
      obtain ⟨hopen, rfl⟩ := enabled_eq_some.mp hs
      simp only [sentBy, echoedBy, gotBy, List.append_nil]
      exact h.leave hopen
  | serverKilled =>
      obtain ⟨hopen, rfl⟩ := enabled_eq_some.mp hs
      simp only [sentBy, echoedBy, gotBy, List.append_nil]
      have hserver := h.server
      rw [if_neg (by intro hpc; rw [hpc] at hopen; cases hopen)] at hserver
      exact ⟨h.recvs, h.sends, h.client, fun hnot => absurd rfl hnot, hserver⟩

end CountSteps

theorem count_run (htimes : times < 2 ^ 32) :
    ∀ tr s, run (pingpong capUp capDown times) tr = some s →
      Count times (sent tr) (echoed tr) (got tr) s := by
  refine run_history ?_ ?_
  · unfold pingpong Client.test
    split
    · exact ⟨Nat.zero_le _, Nat.zero_le _, rfl, fun _ => rfl, rfl⟩
    · rename_i hne
      have hpos : 0 < times := Nat.pos_of_ne_zero hne
      refine ⟨?_, ?_, rfl, fun _ => rfl, rfl⟩ <;>
        simp only [Client.recvsLeft, Client.sendsLeft, sent, got, List.flatMap_nil,
          List.length_nil, KB] <;> omega
  · intro tr s e s' _ h hs
    obtain ⟨hsent, -, hechoed, hgot⟩ := streams_snoc tr e
    rw [hsent, hechoed, hgot]
    exact count_step htimes h hs

/-- **AN ECHO**: at every point of every run the client has received a beginning of what the
    session has sent back, that is a beginning of what the session has received, and that of
    what the client has sent; while both are there, nothing is missing in between.  The
    client counts what it has received, and a full count means that all was echoed; the
    session adds what it has sent back, modulo `2 ^ 32`. -/
theorem echo_streams (htimes : times < 2 ^ 32) {tr : List Event} {s : State}
    (hr : run (pingpong capUp capDown times) tr = some s) :
    (got tr <+: echoed tr ∧ echoed tr <+: taken tr ∧ taken tr <+: sent tr) ∧
      (s.client.pc.isOpen = true → s.session.pc.isOpen = true →
        got tr ++ s.down ++ s.session.held ++ s.up = sent tr) ∧
      s.client.bytesRead = (got tr).length ∧
      (s.client.bytesRead = KB * times → got tr = sent tr) ∧
      (s.session.pc = .left → s.bytesRead = (echoed tr).length % 2 ^ 32) := by
  have hflow := flow_run tr s hr
  have hcount := count_run htimes tr s hr
  refine ⟨⟨hflow.down.arrived, hflow.held.arrived, hflow.up.arrived⟩, ?_, hcount.client, ?_, ?_⟩
  · intro hclient hsession
    rw [hflow.down.eq hclient, hflow.held.eq hsession, hflow.up.eq hsession]
  · intro hfull
    have hpart := (hflow.down.arrived.trans hflow.held.arrived).trans hflow.up.arrived
    have hsends := hcount.sends
    rw [hcount.client] at hfull
    exact hpart.eq_of_length_le (by omega)
  · intro hleft
    rw [hcount.server, if_pos hleft]
    exact hcount.readCnt (by simp [hleft])

/-- The client has its one byte and is content; a byte of the echo is never read. -/
theorem echo_streams_oneRound :
    ∃ s, run (pingpong 4 2 1) oneRound = some s ∧
      (got oneRound <+: echoed oneRound ∧ echoed oneRound <+: taken oneRound ∧
        taken oneRound <+: sent oneRound) ∧
      s.client.bytesRead = 1 ∧ s.bytesRead = 2 := by
  have hend : (run (pingpong 4 2 1) oneRound).map (fun s => s.session.pc) = some .left := by
    decide +kernel
  obtain ⟨s, hs, hleft⟩ := Option.map_eq_some_iff.mp hend
  obtain ⟨hstreams, -, hclient, -, hserver⟩ := echo_streams (by decide) hs
  exact ⟨s, hs, hstreams, hclient, hserver hleft⟩

end Runs

end CoioPingPong
