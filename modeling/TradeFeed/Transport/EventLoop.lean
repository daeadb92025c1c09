import Mathlib.Data.Finset.Card
import Mathlib.Data.Prod.Lex
import Mathlib.Logic.Relation
import TradeFeed.Transport.Served

/-!
# The event loop

`Gateway::run` (`socket_transport.h`) under Linux: `epoll_wait`, an event at a time, and
`drain_outbound`. The clients' descriptors are registered with `EPOLLET`, so that the kernel reports
a descriptor once when something happens to it, and not again until something else does: a
descriptor with bytes that nobody reads, and that is neither reported nor to be reported, stays
unread for ever. In `EventLoop` the kernel's steps (bytes arrive, a connection ends) come at any
time between the gateway's, the calls of `recv` included, and the kernel may report as few
descriptors as it likes.

No wake-up is lost (`no_lost_wakeup`): a descriptor on which `recv` would find something is ready,
or in the batch of events that is handled, or being read. When the loop waits and nothing is ready,
every byte that has arrived was read and cut into frames.
-/

namespace TradeFeed

open Function (update)
open Lib.Bytes

/-! ### The kernel -/

/-- What the kernel has of a connection. -/
structure Socket where
  /-- The bytes that were not read. -/
  queue : List UInt8
  /-- Whether the other end is gone, and if so, whether the connection failed. -/
  gone : Option Bool

/-- `recv` would not block. -/
def Socket.Readable (s : Socket) : Prop := s.queue ≠ [] ∨ s.gone ≠ none

instance (s : Socket) : Decidable s.Readable := inferInstanceAs (Decidable (_ ∨ _))

/-- What `recv` finds when it gives so many bytes at most. -/
def Socket.recv (s : Socket) (len : ℕ) : Recv :=
  match s.queue, s.gone with
  | [], none => .again
  | [], some true => .error
  | [], some false => .bytes []
  | queue, _ => .bytes (queue.take len)

/-- What the gateway's thread is in the middle of. -/
inductive LoopTask where
  /-- It calls `epoll_wait`. -/
  | waiting
  /-- These events are to be handled. -/
  | handling (events : List ℤ)
  /-- It is in the loop of `read_client(fd)`, and these events are to be handled. -/
  | reading (fd : ℤ) (events : List ℤ)
  deriving DecidableEq

/-- The descriptors that will be looked at before the next `epoll_wait`. -/
def LoopTask.pending : LoopTask → List ℤ
  | .waiting => []
  | .handling events => events
  | .reading fd events => fd :: events

/-- The gateway's loop and the kernel. -/
structure EventLoop where
  /-- The gateway and its connections. -/
  net : Net
  /-- `listen_fd_`. -/
  listenFd : ℤ
  /-- The connections behind the open descriptors. -/
  sockets : ℤ → Socket
  /-- The descriptors that something happened to since they were reported. -/
  ready : Finset ℤ
  /-- The gateway's thread. -/
  task : LoopTask
  /-- The bytes that arrived on each connection. -/
  arrived : ℕ → List UInt8
  /-- Which connections failed; bytes of these may be lost. -/
  failed : ℕ → Bool

/-- A step of the kernel or of the gateway. -/
inductive LoopStep where
  /-- Bytes arrive on an open connection. -/
  | arrive (fd : ℤ) (bs : List UInt8)
  /-- The other end closes the connection. -/
  | close (fd : ℤ)
  /-- The connection fails, and so many of the bytes that were not read can still be. -/
  | reset (fd : ℤ) (left : ℕ)
  /-- `epoll_wait` returns these descriptors. -/
  | wait (events : List ℤ)
  /-- The next event is handled; if it is the listening socket's, `accept` returns `fd`, and
  the connection behind it is `socket`. -/
  | handle (fd : ℤ) (socket : Socket)
  /-- The next call of `recv` returns `len` bytes at most, when the counter reads `tsc`. -/
  | recv (len : ℕ) (tsc : Timestamp)
  /-- `drain_outbound()`. -/
  | drain (outs : List (OutboundMessage × (Fin maxClients → SendResult)))

namespace EventLoop

/-- A loop that was just started. -/
def new (listenFd : ℤ) : EventLoop :=
  ⟨.new, listenFd, fun _ => ⟨[], none⟩, ∅, .waiting, fun _ => [], fun _ => false⟩

/-- Something happens to an open connection. -/
def happen (l : EventLoop) (fd : ℤ) (f : ℕ → EventLoop → EventLoop) : EventLoop :=
  match l.net.conns fd with
  | some c => if (l.sockets fd).gone = none then { f c l with ready := insert fd l.ready } else l
  | none => l

/-- Bytes arrive. -/
def arrive (l : EventLoop) (fd : ℤ) (bs : List UInt8) : EventLoop :=
  l.happen fd fun c l => { l with
    sockets := update l.sockets fd ⟨(l.sockets fd).queue ++ bs, none⟩
    arrived := update l.arrived c (l.arrived c ++ bs) }

/-- The other end closes the connection. -/
def close (l : EventLoop) (fd : ℤ) : EventLoop :=
  l.happen fd fun _ l =>
    { l with sockets := update l.sockets fd ⟨(l.sockets fd).queue, some false⟩ }

/-- The connection fails. -/
def reset (l : EventLoop) (fd : ℤ) (left : ℕ) : EventLoop :=
  l.happen fd fun c l => { l with
    sockets := update l.sockets fd ⟨(l.sockets fd).queue.take left, some true⟩
    failed := update l.failed c true }

/-- `epoll_wait(event_fd_, events, 64, 1)`: it reports descriptors that are ready, each once, and
perhaps the listening socket. -/
def wait (l : EventLoop) (events : List ℤ) : EventLoop :=
  if l.task = .waiting ∧ events.length ≤ 64 ∧ ∀ fd ∈ events, fd ∈ l.ready ∨ fd = l.listenFd then
    { l with ready := l.ready \ events.toFinset, task := .handling events }
  else l

/-- `accept_client()`, when `accept` returns `fd`; a registered descriptor is ready at once if it is
readable. -/
def acceptClient (l : EventLoop) (fd : ℤ) (socket : Socket) (events : List ℤ) : EventLoop :=
  let net := l.net.accept fd
  if net.accepted = l.net.accepted ∨ fd = l.listenFd then { l with task := .handling events }
  else { l with
    net := net
    sockets := update l.sockets fd socket
    ready := if socket.Readable then insert fd l.ready else l.ready
    arrived := update l.arrived l.net.accepted socket.queue
    failed := update l.failed l.net.accepted (socket.gone == some true)
    task := .handling events }

/-- The body of the loop over the events, up to the first `recv`. -/
def handle (l : EventLoop) (fd : ℤ) (socket : Socket) : EventLoop :=
  match l.task with
  | .handling (event :: events) =>
    if event = l.listenFd then l.acceptClient fd socket events
    else
      match l.net.gateway.slotForFd event with
      | none => { l with task := .handling events }
      | some _ => { l with task := .reading event events }
  | _ => l

/-- A pass of the loop of `read_client`: its `recv`, and what it does with the answer. A descriptor
that is closed is not ready any more. -/
def recv (l : EventLoop) (len : ℕ) (tsc : Timestamp) : Option EventLoop :=
  match l.task with
  | .reading fd events => do
    let room := match l.net.gateway.slotForFd fd with
      | some slot => wireMsgSize - (l.net.gateway.clients slot).readPos
      | none => 0
    let found := (l.sockets fd).recv (min (len + 1) room)
    let net ← l.net.read fd [(found, tsc)]
    match found with
    | .again => return { l with net := net, task := .handling events }
    | .error | .bytes [] =>
      return { l with net := net, ready := l.ready.erase fd, task := .handling events }
    | .bytes bs =>
      let socket := l.sockets fd
      return { l with
          net := net
          sockets := update l.sockets fd { socket with queue := socket.queue.drop bs.length } }
  | _ => some l

/-- `drain_outbound()`, once all events are handled. -/
def drain (l : EventLoop) (outs : List (OutboundMessage × (Fin maxClients → SendResult))) :
    EventLoop :=
  match l.task with
  | .handling [] => { l with net := l.net.drain outs, task := .waiting }
  | _ => l

/-- A step. One that is not the thread's next, and what cannot happen, is nothing. -/
def step (l : EventLoop) : LoopStep → Option EventLoop
  | .arrive fd bs => some (l.arrive fd bs)
  | .close fd => some (l.close fd)
  | .reset fd left => some (l.reset fd left)
  | .wait events => some (l.wait events)
  | .handle fd socket => some (l.handle fd socket)
  | .recv len tsc => l.recv len tsc
  | .drain outs => some (l.drain outs)

/-- Steps in order. -/
def run (l : EventLoop) (steps : List LoopStep) : Option EventLoop :=
  Lib.Machine.tryRun step l steps

end EventLoop

/-! ### One call of `recv` -/

section Recv

variable {c : ClientState} {bs : List UInt8} {tsc : Timestamp}

/-- Bytes that fit are received, and the loop goes on. -/
theorem readOnce_bytes (tsc : Timestamp) (hbs : bs ≠ [])
    (hlen : c.readPos + bs.length ≤ wireMsgSize) :
    ∃ c' msgs, readOnce c (.bytes bs) tsc = some (.more c' bs msgs) ∧ c'.readPos ≤ wireMsgSize := by
  have hroom : ¬ wireMsgSize < c.readPos := by omega
  have htake : bs.take (wireMsgSize - c.readPos) = bs := List.take_of_length_le (by omega)
  obtain ⟨buf, hstore, -⟩ := c.readBuf.store_eq hlen
  obtain ⟨b, bs, rfl⟩ := List.exists_cons_of_ne_nil hbs
  simp only [readOnce, if_neg hroom, Recv.upTo, htake, hstore, Option.bind_eq_bind,
    Option.bind_some]
  split_ifs with hfull
  · exact ⟨_, _, rfl, Nat.zero_le _⟩
  · exact ⟨_, _, rfl, hlen⟩

theorem readLoop_more {r : Recv} {rs : List (Recv × Timestamp)} {c' : ClientState}
    {msgs : List InboundMessage} {rest : Reading}
    (honce : readOnce c r tsc = some (.more c' bs msgs)) (hrest : readLoop c' rs = some rest) :
    readLoop c ((r, tsc) :: rs) = some { rest with
      received := bs ++ rest.received, pushed := msgs ++ rest.pushed,
      positions := c.readPos :: rest.positions } := by
  simp only [readLoop, honce, hrest, Option.bind_eq_bind, Option.bind_some]
  rfl

theorem readLoop_bytes (tsc : Timestamp) (hbs : bs ≠ [])
    (hlen : c.readPos + bs.length ≤ wireMsgSize) :
    ∃ r, readLoop c [(.bytes bs, tsc)] = some r ∧ r.received = bs ∧ r.disconnect = false := by
  obtain ⟨c', msgs, honce, hpos⟩ := readOnce_bytes tsc hbs hlen
  have hend : readLoop c' [] = some ⟨c', false, [], [], [c'.readPos]⟩ := by
    rw [readLoop, readOnce, if_neg (Nat.not_lt.mpr hpos), Recv.upTo]
    rfl
  exact ⟨_, readLoop_more honce hend, List.append_nil _, rfl⟩

theorem readLoop_again (tsc : Timestamp) (hroom : c.readPos < wireMsgSize) :
    ∃ r, readLoop c [(.again, tsc)] = some r ∧ r.received = [] ∧ r.disconnect = false := by
  simp only [readLoop, readOnce, if_neg (Nat.not_lt.mpr hroom.le), Recv.upTo]
  exact ⟨_, rfl, rfl, rfl⟩

/-- The loop ends with the connection. -/
theorem readLoop_end (tsc : Timestamp) (hroom : c.readPos < wireMsgSize) {r : Recv}
    (hr : r = .error ∨ r = .bytes []) :
    ∃ reading, readLoop c [(r, tsc)] = some reading ∧ reading.received = [] ∧
      reading.disconnect = true := by
  rcases hr with rfl | rfl <;> simp only [readLoop, readOnce, if_neg (Nat.not_lt.mpr hroom.le),
    Recv.upTo, List.take_nil] <;>
    exact ⟨_, rfl, rfl, rfl⟩

end Recv

section Read

variable {n : Net} {fd : ℤ} {c : ℕ}

/-- What a call of `read_client` on an open descriptor does. -/
theorem read_eq {slot : Fin maxClients} (hslot : n.gateway.slotForFd fd = some slot)
    (hc : n.conns fd = some c) {rs : List (Recv × Timestamp)} {r : Reading}
    (hloop : readLoop (n.gateway.clients slot) rs = some r) :
    n.read fd rs = some (n.after fd slot c r) := by
  have hslots : (if r.disconnect then (n.gateway.setSlot slot r.client).disconnect slot
      else n.gateway.setSlot slot r.client) =
      n.gateway.setSlot slot (if r.disconnect then { r.client with fd := -1, active := false }
        else r.client) := by
    split_ifs
    · simp only [Gateway.disconnect, Gateway.setSlot, Function.update_self, Function.update_idem]
    · rfl
  simp only [Net.read, Gateway.readClient, hslot, hloop, hc, hslots, Option.bind_eq_bind,
    Option.bind_some, Option.pure_def]
  rfl

end Read

/-- What `recv` finds: bytes, nothing yet, or the end of the connection. -/
theorem Socket.recv_cases (s : Socket) {len : ℕ} (hlen : 0 < len) :
    (∃ bs rest, bs ≠ [] ∧ bs.length ≤ len ∧ s.queue = bs ++ rest ∧ s.recv len = .bytes bs) ∨
      (s.queue = [] ∧ s.gone = none ∧ s.recv len = .again) ∨
      (s.queue = [] ∧ (s.recv len = .error ∨ s.recv len = .bytes [])) := by
  obtain ⟨queue, gone⟩ := s
  cases queue with
  | cons b queue =>
    refine .inl ⟨(b :: queue).take len, (b :: queue).drop len, ?_, List.length_take_le _ _,
      (List.take_append_drop ..).symm, ?_⟩
    · simpa using Nat.ne_of_gt hlen
    · cases gone <;> rfl
  | nil =>
    cases gone with
    | none => exact .inr (.inl ⟨rfl, rfl, rfl⟩)
    | some failed =>
      cases failed
      · exact .inr (.inr ⟨rfl, .inr rfl⟩)
      · exact .inr (.inr ⟨rfl, .inl rfl⟩)

/-! ### The invariant -/

/-- Who is open is served, nothing is lost, and whatever can be read will be looked at. -/
structure Awake (l : EventLoop) : Prop where
  /-- The gateway's connections are in order. -/
  net : NetInv l.net
  /-- An open descriptor is a client's. -/
  served : Served l.net
  /-- The listening socket is no connection. -/
  listen : l.net.conns l.listenFd = none
  /-- It is not among the descriptors that something happened to. -/
  clients : l.listenFd ∉ l.ready
  /-- A descriptor that is being read is open. -/
  reading : ∀ fd events, l.task = .reading fd events → ∃ c, l.net.conns fd = some c
  /-- Whatever can be read is ready, or will be handled. -/
  woken : ∀ fd c, l.net.conns fd = some c → (l.sockets fd).Readable →
    fd ∈ l.ready ∨ fd ∈ l.task.pending
  /-- What has arrived was received or is in the socket. -/
  stream : ∀ fd c, l.net.conns fd = some c → l.failed c = false →
    l.arrived c = l.net.received c ++ (l.sockets fd).queue
  /-- Connections that are not open were received to their end. -/
  ended : ∀ c, (∀ fd, l.net.conns fd ≠ some c) → l.failed c = false → l.arrived c = l.net.received c

theorem new_awake (listenFd : ℤ) : Awake (.new listenFd) where
  net := new_netInv
  served := new_served
  listen := rfl
  clients := Finset.notMem_empty _
  reading _ _ htask := nomatch htask
  woken _ _ hc := nomatch hc
  stream _ _ hc := nomatch hc
  ended _ _ _ := rfl

namespace Awake

variable {l : EventLoop} {fd : ℤ} {c : ℕ}

/-- Something happens to an open connection: its descriptor is ready. -/
theorem happens (h : Awake l) (hc : l.net.conns fd = some c) (socket : Socket) (bs : List UInt8)
    (b : Bool) (hstream : b = false → bs = l.net.received c ++ socket.queue) :
    Awake { l with
      sockets := update l.sockets fd socket
      ready := insert fd l.ready
      arrived := update l.arrived c bs
      failed := update l.failed c b } where
  net := h.net
  served := h.served
  listen := h.listen
  clients hmem := by
    rcases Finset.mem_insert.mp hmem with he | hmem
    · rw [← he, h.listen] at hc
      cases hc
    · exact h.clients hmem
  reading := h.reading
  woken fd' c' hc' hreadable := by
    by_cases hfd : fd' = fd
    · exact .inl (hfd ▸ Finset.mem_insert_self fd l.ready)
    · simp only [Function.update_of_ne hfd] at hreadable
      exact (h.woken fd' c' hc' hreadable).imp_left Finset.mem_insert_of_mem
  stream fd' c' hc' hfailed := by
    by_cases hcc : c' = c
    · subst hcc
      obtain rfl := h.net.wired.descriptors fd' fd c' hc' hc
      simp only [Function.update_self] at hfailed ⊢
      exact hstream hfailed
    · have hfd : fd' ≠ fd := by
        rintro rfl
        exact hcc (Option.some.inj (hc'.symm.trans hc))
      simp only [Function.update_of_ne hcc, Function.update_of_ne hfd] at hfailed ⊢
      exact h.stream fd' c' hc' hfailed
  ended c' hclosed hfailed := by
    have hcc : c' ≠ c := fun he => hclosed fd (he ▸ hc)
    simp only [Function.update_of_ne hcc] at hfailed ⊢
    exact h.ended c' hclosed hfailed

/-- Bytes arrive. -/
theorem arrive (h : Awake l) (fd : ℤ) (bs : List UInt8) : Awake (l.arrive fd bs) := by
  unfold EventLoop.arrive EventLoop.happen
  cases hc : l.net.conns fd with
  | none => exact h
  | some c =>
    simp only
    split_ifs
    · have hnew := h.happens hc ⟨(l.sockets fd).queue ++ bs, none⟩ (l.arrived c ++ bs)
          (l.failed c) fun hfailed => by
        rw [h.stream fd c hc hfailed, List.append_assoc]
      rwa [Function.update_eq_self] at hnew
    · exact h

/-- The other end closes the connection. -/
theorem close (h : Awake l) (fd : ℤ) : Awake (l.close fd) := by
  unfold EventLoop.close EventLoop.happen
  cases hc : l.net.conns fd with
  | none => exact h
  | some c =>
    simp only
    split_ifs
    · have hnew := h.happens hc ⟨(l.sockets fd).queue, some false⟩ (l.arrived c) (l.failed c)
        (h.stream fd c hc)
      rwa [Function.update_eq_self, Function.update_eq_self] at hnew
    · exact h

/-- The connection fails. -/
theorem reset (h : Awake l) (fd : ℤ) (left : ℕ) : Awake (l.reset fd left) := by
  unfold EventLoop.reset EventLoop.happen
  cases hc : l.net.conns fd with
  | none => exact h
  | some c =>
    simp only
    split_ifs
    · have hnew := h.happens hc ⟨(l.sockets fd).queue.take left, some true⟩ (l.arrived c) true
        (fun hb => nomatch hb)
      rwa [Function.update_eq_self] at hnew
    · exact h

/-- `epoll_wait` returns: what was ready is to be handled. -/
theorem wait (h : Awake l) (events : List ℤ) : Awake (l.wait events) := by
  unfold EventLoop.wait
  split_ifs with hevents
  · refine ⟨h.net, h.served, h.listen,
      fun hmem => h.clients (Finset.mem_sdiff.mp hmem).1,
      fun _ _ htask => (nomatch htask), fun fd c hc hreadable => ?_, h.stream, h.ended⟩
    have hready : fd ∈ l.ready := by
      rcases h.woken fd c hc hreadable with hready | hpending
      · exact hready
      · rw [hevents.1] at hpending
        cases hpending
    by_cases hfd : fd ∈ events
    · exact .inr hfd
    · exact .inl (Finset.mem_sdiff.mpr ⟨hready, by rwa [List.mem_toFinset]⟩)
  · exact h

/-- An event is handled that is not that of an open descriptor. -/
theorem skip (h : Awake l) {event : ℤ} {events : List ℤ}
    (htask : l.task = .handling (event :: events)) (hclosed : l.net.conns event = none) :
    Awake { l with task := .handling events } := by
  refine ⟨h.net, h.served, h.listen, h.clients,
    fun _ _ ht => (nomatch ht), fun fd c hc hreadable => ?_, h.stream, h.ended⟩
  refine (h.woken fd c hc hreadable).imp_right fun hpending => ?_
  rw [htask] at hpending
  rcases List.mem_cons.mp hpending with rfl | hmem
  · rw [hclosed] at hc
    cases hc
  · exact hmem

/-- A client arrives. -/
theorem acceptClient (h : Awake l) {events : List ℤ}
    (htask : l.task = .handling (l.listenFd :: events)) (fd : ℤ) (socket : Socket) :
    Awake (l.acceptClient fd socket events) := by
  unfold EventLoop.acceptClient
  by_cases hsame : (l.net.accept fd).accepted = l.net.accepted ∨ fd = l.listenFd
  · simp only [if_pos hsame]
    exact h.skip htask h.listen
  simp only [if_neg hsame]
  rw [not_or] at hsame
  rcases accept_cases l.net fd with he | ⟨slot, hfree, hopen, he⟩
  · exact absurd (congrArg Net.accepted he) hsame.1
  obtain ⟨n', hstep, hn'⟩ := h.net.step (.accept fd)
  obtain rfl : l.net.accept fd = n' := Option.some.inj hstep
  have hskip := h.skip htask h.listen
  have hold : ∀ fd' c', fd' ≠ fd → (l.net.accept fd).conns fd' = some c' →
      l.net.conns fd' = some c' := fun fd' c' hfd hc => by
    rw [he] at hc
    simpa only [Function.update_of_ne hfd] using hc
  have hnew : ∀ c', (l.net.accept fd).conns fd = some c' → c' = l.net.accepted := fun c' hc => by
    rw [he] at hc
    simpa only [Function.update_self, Option.some.injEq, eq_comm] using hc
  have hreceived : (l.net.accept fd).received = l.net.received := by rw [he]
  refine ⟨hn', h.served.accept, ?_, ?_, fun _ _ ht => (nomatch ht), fun fd' c' hc hreadable => ?_,
    fun fd' c' hc hfailed => ?_, fun c' hclosed hfailed => ?_⟩
  · show (l.net.accept fd).conns l.listenFd = none
    rw [he]
    simpa only [Function.update_of_ne (Ne.symm hsame.2)] using h.listen
  · show l.listenFd ∉ ite _ _ _
    split_ifs
    · exact fun hmem => h.clients (Finset.mem_of_mem_insert_of_ne hmem (Ne.symm hsame.2))
    · exact h.clients
  · by_cases hfd : fd' = fd
    · subst hfd
      simp only [Function.update_self] at hreadable
      exact .inl (by rw [if_pos hreadable]; exact Finset.mem_insert_self _ _)
    · simp only [Function.update_of_ne hfd] at hreadable
      refine (hskip.woken fd' c' (hold fd' c' hfd hc) hreadable).imp_left fun hready => ?_
      split_ifs
      · exact Finset.mem_insert_of_mem hready
      · exact hready
  · rw [hreceived]
    by_cases hfd : fd' = fd
    · subst hfd
      obtain rfl := hnew c' hc
      simp only [Function.update_self, (h.net.wired.fresh _ le_rfl).1, List.nil_append]
    · have hc' := hold fd' c' hfd hc
      have hne : c' ≠ l.net.accepted := (h.net.wired.old fd' c' hc').ne
      simp only [Function.update_of_ne hne, Function.update_of_ne hfd] at hfailed ⊢
      exact h.stream fd' c' hc' hfailed
  · have hne : c' ≠ l.net.accepted := by
      rintro rfl
      refine hclosed fd ?_
      show (l.net.accept fd).conns fd = _
      rw [he]
      exact Function.update_self ..
    rw [hreceived]
    simp only [Function.update_of_ne hne] at hfailed ⊢
    refine h.ended c' (fun fd' hc => hclosed fd' ?_) hfailed
    have hfd : fd' ≠ fd := by
      rintro rfl
      rw [hopen] at hc
      cases hc
    show (l.net.accept fd).conns fd' = _
    rw [he]
    simpa only [Function.update_of_ne hfd] using hc

/-- An event is handled, up to the first `recv`. -/
theorem handle (h : Awake l) (fd : ℤ) (socket : Socket) : Awake (l.handle fd socket) := by
  unfold EventLoop.handle
  cases htask : l.task with
  | waiting => exact h
  | reading _ _ => exact h
  | handling events =>
    cases events with
    | nil => exact h
    | cons event events =>
      simp only
      by_cases hlisten : event = l.listenFd
      · rw [if_pos hlisten]
        exact h.acceptClient (hlisten ▸ htask) fd socket
      rw [if_neg hlisten]
      cases hconn : l.net.conns event with
      | none =>
        -- nobody has the descriptor any more
        rw [h.net.wired.slotForFd_none hconn]
        exact h.skip htask hconn
      | some c =>
        obtain ⟨-, i, hi, hfd⟩ := h.served event c hconn
        rw [h.net.wired.slotForFd hi hfd]
        refine ⟨h.net, h.served, h.listen, h.clients,
          fun fd' events' ht => ?_, fun fd' c' hc' hreadable => ?_, h.stream, h.ended⟩
        · obtain ⟨rfl, -⟩ := LoopTask.reading.inj ht
          exact ⟨c, hconn⟩
        · have hwoken := h.woken fd' c' hc' hreadable
          rw [htask] at hwoken
          exact hwoken

/-! ### The loop that reads -/

section Reading

variable {n : Net} {events : List ℤ}

/-- Bytes were taken from the socket; the loop goes on. -/
theorem received (h : Awake l) (htask : l.task = .reading fd events) (hc : l.net.conns fd = some c)
    (hinv : NetInv n) (hserved : Served n) (hconns : n.conns = l.net.conns) {bs rest : List UInt8}
    (hqueue : (l.sockets fd).queue = bs ++ rest)
    (hreceived : n.received = update l.net.received c (l.net.received c ++ bs)) :
    Awake { l with net := n, sockets := update l.sockets fd ⟨rest, (l.sockets fd).gone⟩ } := by
  -- a connection behind another descriptor is not `c`
  have hother : ∀ {fd' c'}, fd' ≠ fd → l.net.conns fd' = some c' → c' ≠ c := by
    rintro fd' c' hne hc' rfl
    exact hne (h.net.wired.descriptors fd' fd c' hc' hc)
  refine ⟨hinv, hserved, ?_, h.clients, fun fd' events' ht => ?_, fun fd' c' hc' hreadable => ?_,
    fun fd' c' hc' hfailed => ?_, fun c' hclosed hfailed => ?_⟩
  · exact (congrFun hconns _).trans h.listen
  · obtain ⟨c', hc'⟩ := h.reading fd' events' ht
    exact ⟨c', (congrFun hconns _).trans hc'⟩
  · by_cases hne : fd' = fd
    · right
      rw [hne]
      simp [LoopTask.pending, htask]
    · simp only [Function.update_of_ne hne] at hreadable
      exact h.woken fd' c' ((congrFun hconns _).symm.trans hc') hreadable
  · have hopen : l.net.conns fd' = some c' := (congrFun hconns _).symm.trans hc'
    have hstream := h.stream fd' c' hopen hfailed
    show l.arrived c' = n.received c' ++ _
    rw [hreceived]
    by_cases hne : fd' = fd
    · subst hne
      obtain rfl : c' = c := Option.some.inj (hopen.symm.trans hc)
      simp only [Function.update_self]
      rw [List.append_assoc, ← hqueue]
      exact hstream
    · simp only [Function.update_of_ne hne, Function.update_of_ne (hother hne hopen)]
      exact hstream
  · have hclosed :
      ∀ fd', l.net.conns fd' ≠ some c' := fun fd' hc' => hclosed fd' ((congrFun hconns _).trans hc')
    have hne : c' ≠ c := fun he => hclosed fd (he ▸ hc)
    show l.arrived c' = n.received c'
    rw [hreceived, Function.update_of_ne hne]
    exact h.ended c' hclosed hfailed

/-- Nothing is there; the loop ends. -/
theorem blocked (h : Awake l) (htask : l.task = .reading fd events) (hinv : NetInv n)
    (hserved : Served n) (hconns : n.conns = l.net.conns) (hreceived : n.received = l.net.received)
    (hquiet : ¬ (l.sockets fd).Readable) :
    Awake { l with net := n, task := .handling events } := by
  refine ⟨hinv, hserved, (congrFun hconns _).trans h.listen, h.clients, fun _ _ ht => (nomatch ht),
    fun fd' c' hc' hreadable => ?_, fun fd' c' hc' hfailed => ?_, fun c' hclosed hfailed => ?_⟩
  · have hwoken := h.woken fd' c' ((congrFun hconns _).symm.trans hc') hreadable
    rw [htask] at hwoken
    refine hwoken.imp_right fun hpending => ?_
    rcases List.mem_cons.mp hpending with rfl | hmem
    · exact absurd hreadable hquiet
    · exact hmem
  · exact (h.stream fd' c' ((congrFun hconns _).symm.trans hc') hfailed).trans (by rw [hreceived])
  · exact (h.ended c' (fun fd' hc' => hclosed fd' ((congrFun hconns _).trans hc')) hfailed).trans
      (by rw [hreceived])

/-- The connection has ended; its descriptor is closed. -/
theorem hungUp (h : Awake l) (htask : l.task = .reading fd events) (hc : l.net.conns fd = some c)
    (hinv : NetInv n) (hserved : Served n) (hconns : n.conns = update l.net.conns fd none)
    (hreceived : n.received = l.net.received) (hqueue : (l.sockets fd).queue = []) :
    Awake { l with net := n, ready := l.ready.erase fd, task := .handling events } := by
  have hold : ∀ {fd' c'}, n.conns fd' = some c' → fd' ≠ fd ∧ l.net.conns fd' = some c' := by
    intro fd' c' hc'
    rw [hconns] at hc'
    by_cases hne : fd' = fd
    · rw [hne, Function.update_self] at hc'
      cases hc'
    · exact ⟨hne, by rwa [Function.update_of_ne hne] at hc'⟩
  refine ⟨hinv, hserved, ?_,
    fun hmem => h.clients (Finset.mem_of_mem_erase hmem),
    fun _ _ ht => (nomatch ht),
    fun fd' c' hc' hreadable => ?_, fun fd' c' hc' hfailed => ?_, fun c' hclosed hfailed => ?_⟩
  · show n.conns l.listenFd = none
    rw [hconns, Function.update_apply, h.listen, ite_self]
  · obtain ⟨hne, hc'⟩ := hold hc'
    have hwoken := h.woken fd' c' hc' hreadable
    rw [htask] at hwoken
    exact hwoken.imp (Finset.mem_erase_of_ne_of_mem hne) fun hpending =>
      (List.mem_cons.mp hpending).resolve_left hne
  · exact (h.stream fd' c' (hold hc').2 hfailed).trans (by rw [hreceived])
  · show l.arrived c' = n.received c'
    rw [hreceived]
    by_cases hcc : c' = c
    · subst hcc
      have hstream := h.stream fd c' hc hfailed
      rwa [hqueue, List.append_nil] at hstream
    · refine h.ended c' (fun fd' hc' => hclosed fd' ?_) hfailed
      have hne : fd' ≠ fd := by
        rintro rfl
        exact hcc (Option.some.inj (hc'.symm.trans hc))
      show n.conns fd' = _
      rw [hconns, Function.update_of_ne hne, hc']

end Reading

/-- **A pass of the loop that reads**: it takes bytes from the socket, or it ends. -/
theorem recv_reading (h : Awake l) (htask : l.task = .reading fd events) (len : ℕ)
    (tsc : Timestamp) :
    ∃ l', l.recv len tsc = some l' ∧ Awake l' ∧ l'.listenFd = l.listenFd ∧
      ((l'.task = l.task ∧ l'.ready = l.ready ∧ (l'.sockets fd).queue.length <
        (l.sockets fd).queue.length) ∨ (l'.task = .handling events ∧ l'.ready ⊆ l.ready)) := by
  obtain ⟨c, hc⟩ := h.reading fd events htask
  obtain ⟨-, slot, hactive, hfd⟩ := h.served fd c hc
  have hslot := h.net.wired.slotForFd hactive hfd
  have hroom := h.net.reads.room slot hactive
  have hlen : 0 < min (len + 1) (wireMsgSize - (l.net.gateway.clients slot).readPos) := by omega
  have hread : ∀ {r : Recv} {reading : Reading}, readLoop (l.net.gateway.clients slot) [(r, tsc)] =
    some reading →
      l.net.read fd [(r, tsc)] = some (l.net.after fd slot c reading) ∧
        NetInv (l.net.after fd slot c reading) ∧
        Served (l.net.after fd slot c reading) := by
    intro r reading hloop
    have hread := read_eq hslot hc hloop
    obtain ⟨n', hstep, hn'⟩ := h.net.step (.readable fd [(r, tsc)])
    obtain rfl : l.net.after fd slot c reading = n' := Option.some.inj (hread.symm.trans hstep)
    exact ⟨hread, hn', h.served.step h.net hstep⟩
  rcases (l.sockets fd).recv_cases hlen with ⟨bs, rest, hbs, hle, hqueue, hfound⟩ | ⟨hqueue, hgone,
    hfound⟩ | ⟨hqueue, hfound⟩
  · obtain ⟨reading, hloop, hbytes, hopen⟩ :=
      readLoop_bytes (c := l.net.gateway.clients slot) tsc hbs (by omega)
    obtain ⟨hread, hinv, hserved⟩ := hread hloop
    have hnext := h.received htask hc hinv hserved
      (by simp [Net.after, hopen]) hqueue (by simp [Net.after, hbytes])
    obtain ⟨b, bs, rfl⟩ := List.exists_cons_of_ne_nil hbs
    refine ⟨_, ?_, hnext, rfl, .inl ⟨rfl, rfl, ?_⟩⟩
    · simp only [EventLoop.recv, htask, hslot, hfound, hread, Option.bind_eq_bind, Option.bind_some,
        hqueue, List.drop_left]
      rfl
    · simp only [Function.update_self, hqueue, List.length_append, List.length_cons]
      omega
  · obtain ⟨reading, hloop, hbytes, hopen⟩ := readLoop_again tsc hroom
    obtain ⟨hread, hinv, hserved⟩ := hread hloop
    refine ⟨_, ?_, h.blocked htask hinv hserved (by simp [Net.after, hopen])
      (by simp [Net.after, hbytes]) (by simp [Socket.Readable, hqueue, hgone]), rfl,
      .inr ⟨rfl, subset_rfl⟩⟩
    simp only [EventLoop.recv, htask, hslot, hfound, hread, Option.bind_eq_bind, Option.bind_some]
    rfl
  · obtain ⟨reading, hloop, hbytes, hclose⟩ := readLoop_end tsc hroom hfound
    obtain ⟨hread, hinv, hserved⟩ := hread hloop
    refine ⟨_, ?_, h.hungUp htask hc hinv hserved (by simp [Net.after, hclose])
      (by simp [Net.after, hbytes]) hqueue, rfl, .inr ⟨rfl, Finset.erase_subset _ _⟩⟩
    rcases hfound with hfound | hfound <;> rw [hfound] at hread <;>
      simp only [EventLoop.recv, htask, hslot, hfound, hread, Option.bind_eq_bind,
        Option.bind_some] <;> rfl

theorem recv (h : Awake l) (len : ℕ) (tsc : Timestamp) :
    ∃ l', l.recv len tsc = some l' ∧ Awake l' := by
  cases htask : l.task with
  | waiting => exact ⟨l, by rw [EventLoop.recv, htask], h⟩
  | handling events => exact ⟨l, by rw [EventLoop.recv, htask], h⟩
  | reading fd events =>
    obtain ⟨l', hrecv, h', -⟩ := h.recv_reading htask len tsc
    exact ⟨l', hrecv, h'⟩

/-- All events are handled. -/
theorem drain (h : Awake l) (outs : List (OutboundMessage × (Fin maxClients → SendResult))) :
    Awake (l.drain outs) := by
  unfold EventLoop.drain
  split
  · rename_i htask
    obtain ⟨hconns, -, hreceived⟩ := drain_frame l.net outs
    refine ⟨h.net.drain outs, h.served.drain outs, ?_, h.clients,
      fun _ _ ht => (nomatch ht), ?_, ?_, ?_⟩
    · simpa only [hconns] using h.listen
    · intro fd c hc hreadable
      have hwoken := h.woken fd c (by rwa [hconns] at hc) hreadable
      rw [htask] at hwoken
      exact hwoken
    · simpa only [hconns, hreceived] using h.stream
    · simpa only [hconns, hreceived] using h.ended
  · exact h

/-- **A step** is defined, and keeps the invariant. -/
theorem step (h : Awake l) (a : LoopStep) : ∃ l', l.step a = some l' ∧ Awake l' := by
  cases a with
  | arrive fd bs => exact ⟨_, rfl, h.arrive fd bs⟩
  | close fd => exact ⟨_, rfl, h.close fd⟩
  | reset fd left => exact ⟨_, rfl, h.reset fd left⟩
  | wait events => exact ⟨_, rfl, h.wait events⟩
  | handle fd socket => exact ⟨_, rfl, h.handle fd socket⟩
  | recv len tsc => exact h.recv len tsc
  | drain outs => exact ⟨_, rfl, h.drain outs⟩

end Awake

/-- **No wake-up is lost**: after any steps of the kernel and of the gateway, in any order, a
descriptor on which `recv` would find something is ready, or will be handled before the next
`epoll_wait`. When the loop waits and nothing is ready, the messages pushed for each connection that
did not fail are those of the frames of all that has arrived on it, and if it has ended then its
descriptor is closed. -/
theorem no_lost_wakeup (listenFd : ℤ) (steps : List LoopStep) :
    ∃ l, (EventLoop.new listenFd).run steps = some l ∧
      (∀ fd c, l.net.conns fd = some c → (l.sockets fd).Readable →
        fd ∈ l.ready ∨ fd ∈ l.task.pending) ∧
      (l.task = .waiting → l.ready = ∅ →
        ∀ c, l.failed c = false →
          (l.net.pushedFor c).map InboundMessage.untimed =
            (frames wireMsgSize (l.arrived c)).map decoded ∧
          ∀ fd, l.net.conns fd = some c → (l.sockets fd).gone = none) := by
  obtain ⟨l, hrun, h⟩ :=
    Lib.Machine.tryRun_invariant (fun l a (_ : a ∈ steps) h => Awake.step h a) (new_awake listenFd)
  refine ⟨l, hrun, h.woken, fun htask hready c hfailed => ?_⟩
  have hquiet : ∀ fd, l.net.conns fd = some c → ¬ (l.sockets fd).Readable :=
      fun fd hc hreadable => by
    have hwoken := h.woken fd c hc hreadable
    rw [htask, hready] at hwoken
    rcases hwoken with hmem | hmem
    · exact Finset.notMem_empty fd hmem
    · cases hmem
  have hall : l.arrived c = l.net.received c := by
    by_cases hopen : ∃ fd, l.net.conns fd = some c
    · obtain ⟨fd, hc⟩ := hopen
      rw [h.stream fd c hc hfailed, not_not.mp (not_or.mp (hquiet fd hc)).1, List.append_nil]
    · exact h.ended c (fun fd hc => hopen ⟨fd, hc⟩) hfailed
  refine ⟨?_, fun fd hc => not_not.mp (not_or.mp (hquiet fd hc)).2⟩
  obtain ⟨rest, fs, hcut, hmsgs⟩ := h.net.reads.decoded c
  rw [hmsgs, hall, hcut.frames_eq]

/-! ### The loop settles -/

/-- The gateway's next step. `epoll_wait` returns only if a client's descriptor is ready: that it
times out, and the loop goes round with no events, counts as waiting. -/
inductive Turn : EventLoop → EventLoop → Prop where
  /-- `epoll_wait` returns some of the descriptors that are ready. -/
  | wait {l : EventLoop} (events : List ℤ) : l.task = .waiting → events ≠ [] → events.length ≤ 64 →
    (∀ fd ∈ events, fd ∈ l.ready) → Turn l (l.wait events)
  /-- The next event is handled. -/
  | handle {l : EventLoop} {event : ℤ} {events : List ℤ} (fd : ℤ) (socket : Socket) :
    l.task = .handling (event :: events) → Turn l (l.handle fd socket)
  /-- The loop of `read_client` takes a pass. -/
  | recv {l l' : EventLoop} {fd : ℤ} {events : List ℤ} (len : ℕ) (tsc : Timestamp) :
    l.task = .reading fd events → l.recv len tsc = some l' → Turn l l'
  /-- All events are handled. -/
  | drain {l : EventLoop} (outs : List (OutboundMessage × (Fin maxClients → SendResult))) :
    l.task = .handling [] → Turn l (l.drain outs)

/-- How far the thread is from `epoll_wait`. -/
def LoopTask.distance : LoopTask → ℕ
  | .waiting => 0
  | .handling events => 2 * events.length + 1
  | .reading _ events => 2 * events.length + 2

/-- How many bytes are in the socket that is being read. -/
def EventLoop.unread (l : EventLoop) : ℕ :=
  match l.task with
  | .reading fd _ => (l.sockets fd).queue.length
  | _ => 0

/-- What every step makes smaller: the descriptors that are ready, with the clients that may be
accepted yet; the way to `epoll_wait`; the bytes to be read. -/
def EventLoop.work (l : EventLoop) : ℕ ×ₗ ℕ ×ₗ ℕ :=
  toLex (l.ready.card + l.task.pending.count l.listenFd, toLex (l.task.distance, l.unread))

theorem EventLoop.work_lt {l l' : EventLoop}
    (hle : l'.ready.card + l'.task.pending.count l'.listenFd ≤ l.ready.card +
      l.task.pending.count l.listenFd) (hlt : l'.task.distance < l.task.distance ∨
      l'.task.distance = l.task.distance ∧ l'.unread < l.unread) :
    l'.work < l.work := by
  rw [EventLoop.work, EventLoop.work, Prod.Lex.toLex_lt_toLex, Prod.Lex.toLex_lt_toLex]
  rcases Nat.lt_or_eq_of_le hle with hready | hready
  · exact .inl hready
  · exact .inr ⟨hready, hlt⟩

/-- A client that is accepted may be ready, but is accepted no more. -/
theorem EventLoop.handle_work {l : EventLoop} {event : ℤ} {events : List ℤ}
    (htask : l.task = .handling (event :: events)) (fd : ℤ) (socket : Socket) :
    (l.handle fd socket).work < l.work := by
  unfold EventLoop.handle
  simp only [htask]
  by_cases hlisten : event = l.listenFd
  · subst hlisten
    rw [if_pos rfl]
    unfold EventLoop.acceptClient
    simp only
    split_ifs with hsame hreadable
    · exact work_lt (by simp [htask, LoopTask.pending]) (.inl (by simp [htask, LoopTask.distance]))
    · refine work_lt ?_ (.inl (by simp [htask, LoopTask.distance]))
      have hcard := Finset.card_insert_le fd l.ready
      simp only [htask, LoopTask.pending, List.count_cons_self]
      omega
    · exact work_lt (by simp [htask, LoopTask.pending]) (.inl (by simp [htask, LoopTask.distance]))
  · rw [if_neg hlisten]
    have hcount : (event :: events).count l.listenFd = events.count l.listenFd :=
      List.count_cons_of_ne hlisten
    cases l.net.gateway.slotForFd event with
    | none =>
      exact work_lt (by simp [htask, LoopTask.pending, hcount])
        (.inl (by simp [htask, LoopTask.distance]))
    | some i =>
      exact work_lt (by simp [htask, LoopTask.pending])
        (.inl (by simp [htask, LoopTask.distance]; omega))

/-- **A turn** keeps the invariant, and leaves less to be done. -/
theorem Awake.turn {l l' : EventLoop} (h : Awake l) (ht : Turn l l') :
    Awake l' ∧ l'.work < l.work := by
  cases ht with
  | wait events htask hsome hlen hready =>
    refine ⟨h.wait events, ?_⟩
    have hwait : l.wait events =
        { l with ready := l.ready \ events.toFinset, task := .handling events } :=
      if_pos ⟨htask, hlen, fun fd hfd => .inl (hready fd hfd)⟩
    have hcount : events.count l.listenFd = 0 :=
      List.count_eq_zero.mpr fun hmem => h.clients (hready _ hmem)
    obtain ⟨fd, hfd⟩ := List.exists_mem_of_ne_nil events hsome
    have hcard : (l.ready \ events.toFinset).card < l.ready.card := by
      refine Finset.card_lt_card
        (Finset.sdiff_ssubset (fun fd hfd => hready fd (List.mem_toFinset.mp hfd)) ⟨fd, ?_⟩)
      exact List.mem_toFinset.mpr hfd
    rw [hwait, EventLoop.work, EventLoop.work, Prod.Lex.toLex_lt_toLex]
    left
    simp only [LoopTask.pending, hcount, htask, List.count_nil]
    omega
  | handle fd socket htask => exact ⟨h.handle fd socket, EventLoop.handle_work htask fd socket⟩
  | @recv l' fd events len tsc htask hrecv =>
    obtain ⟨l₁, hrecv₁, h₁, hlisten, hnext⟩ := h.recv_reading htask len tsc
    obtain rfl : l₁ = l' := Option.some.inj (hrecv₁.symm.trans hrecv)
    refine ⟨h₁, ?_⟩
    rcases hnext with ⟨hsame, hready, hbytes⟩ | ⟨hend, hready⟩
    · refine EventLoop.work_lt (by rw [hsame, hready, hlisten]) (.inr ⟨by rw [hsame], ?_⟩)
      simp only [EventLoop.unread, hsame, htask]
      exact hbytes
    · refine EventLoop.work_lt ?_ (.inl (by simp [hend, htask, LoopTask.distance]))
      have hcard := Finset.card_le_card hready
      have hcount := List.count_le_count_cons (l := events) (a := l.listenFd) (b := fd)
      simp only [hend, htask, hlisten, LoopTask.pending]
      omega
  | drain outs htask =>
    refine ⟨h.drain outs, ?_⟩
    have hdrain : l.drain outs = { l with net := l.net.drain outs, task := .waiting } := by
      rw [EventLoop.drain, htask]
    rw [hdrain]
    exact EventLoop.work_lt (by simp [htask, LoopTask.pending])
      (.inl (by simp [htask, LoopTask.distance]))

/-- **The loop settles**: where nothing more happens than what the gateway does, it comes, after
finitely many steps and whichever of the ready descriptors `epoll_wait` reports, to wait with no
client's descriptor ready. Its passes in which `epoll_wait` times out with nothing ready are not
counted among the steps. -/
theorem event_loop_settles (listenFd : ℤ) (steps : List LoopStep) :
    ∃ l, (EventLoop.new listenFd).run steps = some l ∧
      (¬ ∃ f : ℕ → EventLoop, f 0 = l ∧ ∀ i, Turn (f i) (f (i + 1))) ∧
      ∀ l', Relation.ReflTransGen Turn l l' → (∀ l'', ¬ Turn l' l'') → l'.task = .waiting ∧
        l'.ready = ∅ := by
  obtain ⟨l, hrun, h⟩ :=
    Lib.Machine.tryRun_invariant (fun l a (_ : a ∈ steps) h => Awake.step h a) (new_awake listenFd)
  refine ⟨l, hrun, Lib.Machine.not_endless (fun _ _ => Awake.turn) h, fun l' hturns hstuck => ?_⟩
  have h' : Awake l' := by
    clear hstuck
    induction hturns with
    | refl => exact h
    | tail _ hturn ih => exact (ih.turn hturn).1
  cases htask : l'.task with
  | waiting =>
    refine ⟨rfl, Finset.eq_empty_of_forall_notMem fun fd hfd => ?_⟩
    exact hstuck _ (.wait [fd] htask (by simp) (by simp) (by simpa using hfd))
  | handling events =>
    cases events with
    | nil => exact absurd (.drain [] htask) (hstuck _)
    | cons event events => exact absurd (.handle event ⟨[], none⟩ htask) (hstuck _)
  | reading fd events =>
    obtain ⟨l'', hrecv, -⟩ := h'.recv 0 0
    exact absurd (.recv 0 0 htask hrecv) (hstuck _)

end TradeFeed
