import TradeFeed.Transport.Outbound
import TradeFeed.Transport.Pipeline
import TradeFeed.Transport.Served

/-!
# The exchange

The program of `main.cpp`: the gateway with its connections, the engine, and the two rings between
their threads. The messages that `read_client` makes of a connection's bytes are pushed one after
the other; a message that `drain_outbound` has popped is sent to all clients. The gateway's thread
does one of these things at a time; here what it does with its connections, its pushes and its pops
come in any order, and the steps of the engine's thread between them.

From the clients' bytes to the clients' bytes:

* `exchange_serializes` — as long as no push fails, the engine does what it would do on one thread
  with the clients' frames in some order that keeps the order of each client's, and the reports come
  out in order.
* `reports_broadcast` — a connection is sent the reports that are popped while it is open, and no
  others.
-/

namespace TradeFeed

open Lib Lib.Bytes

variable {cap k : ℕ}

/-- The gateway with its connections, the engine, and the rings between them. -/
structure Exchange (cap k : ℕ) where
  /-- The gateway and its connections. -/
  net : Net
  /-- The two threads and the rings. -/
  threads : Threads cap k

/-- A step of one of the threads. -/
inductive ExchangeStep where
  /-- The gateway's, in `accept_client`; `accept` would return `fd`. -/
  | accept (fd : ℤ)
  /-- The gateway's, in `read_client(fd)`; its calls of `recv` find `rs`. -/
  | readable (fd : ℤ) (rs : List (Recv × Timestamp))
  /-- The gateway's, in a push of `read_client`. -/
  | push
  /-- The gateway's, in `drain_outbound`; for each slot `send` would answer so. -/
  | drain (answer : Fin maxClients → SendResult)
  /-- The engine's, when the counter reads `tsc`. -/
  | engine (tsc : Timestamp)

/-- Every `send` of the step takes the whole message. -/
def ExchangeStep.Sends : ExchangeStep → Prop
  | .drain answer => ∀ i, answer i = .took wireMsgSize
  | _ => True

/-- The gateway has these messages to push behind the others. -/
def Threads.feed (t : Threads cap k) (new : List InboundMessage) : Threads cap k :=
  { t with unread := t.unread ++ new }

namespace Exchange

/-- Nothing has happened yet. -/
def new (cap : ℕ) (inBuffer : Fin (2 ^ k) → InboundMessage)
    (outBuffer : Fin (2 ^ k) → OutboundMessage) : Exchange cap k :=
  ⟨.new, .new cap inBuffer outBuffer []⟩

/-- `read_client(fd)`: the new messages are to be pushed. -/
def readable (x : Exchange cap k) (fd : ℤ) (rs : List (Recv × Timestamp)) :
    Option (Exchange cap k) := do
  let net ← x.net.read fd rs
  return ⟨net, x.threads.feed ((net.pushed.drop x.net.pushed.length).map Prod.snd)⟩

/-- `drain_outbound()`: the next step of its `pop`, and the calls of `send` when that has popped a
message. -/
def drain (x : Exchange cap k) (answer : Fin maxClients → SendResult) : Exchange cap k where
  net := match x.threads.outbound.consumer.popping with
    | some out => x.net.sendOne out answer
    | none => x.net
  threads := x.threads.drainOutbound

/-- A step. -/
def step (x : Exchange cap k) : ExchangeStep → Option (Exchange cap k)
  | .accept fd => some { x with net := x.net.accept fd }
  | .readable fd rs => x.readable fd rs
  | .push => some { x with threads := x.threads.readClient }
  | .drain answer => some (x.drain answer)
  | .engine tsc => some { x with threads := x.threads.runEngine tsc }

/-- Steps in order. -/
def run (x : Exchange cap k) (steps : List ExchangeStep) : Option (Exchange cap k) :=
  Machine.tryRun step x steps

/-- The messages that the gateway has made of the clients' bytes. -/
def messages (x : Exchange cap k) : List InboundMessage := x.net.pushed.map Prod.snd

end Exchange

/-! ### More messages come -/

section More

variable {t : Threads cap k} {msgs : List InboundMessage}

theorem RingState.Pushing.more {T : Type*} {s : RingState T k} {items : List T}
    (h : s.Pushing items) (new : List T) :
    s.Pushing (items ++ new) := fun item hitem => by
  rw [List.head?_append, h item hitem]
  rfl

theorem Threads.Inv.feed (h : t.Inv msgs) (new : List InboundMessage) :
    (t.feed new).Inv (msgs ++ new) :=
  ⟨by rw [← h.read, List.append_assoc]; rfl, h.reading.more new, h.done, h.emitting⟩

end More

/-! ### What a step leaves alone -/

theorem RingState.produce_pops {T : Type*} (s : RingState T k) (item : T) :
    (s.produce item).pops = s.pops := by
  unfold RingState.produce
  cases s.producer with
  | loaded x head =>
    simp only
    split_ifs <;> rfl
  | reloaded x head n =>
    simp only
    split_ifs
    · exact Return.pops_pushFailed _ _
    · rfl
  | publish x head => exact Return.pops_pushed _ _
  | _ => rfl

/-- Only `drain_outbound` pops responses. -/
theorem Threads.step_pops (t : Threads cap k) {a : ThreadStep} (ha : a ≠ .drainOutbound) :
    (t.step a).outbound.pops = t.outbound.pops := by
  cases a with
  | readClient => rfl
  | drainOutbound => exact absurd rfl ha
  | engine tsc =>
    unfold step runEngine
    cases t.task with
    | polling => rfl
    | processing msg =>
      simp only
      cases t.engine.process tsc msg <;> rfl
    | emitting out =>
      cases out with
      | nil => rfl
      | cons out rest => exact t.outbound.produce_pops out

theorem accept_frame (n : Net) (fd : ℤ) :
    (n.accept fd).pushed = n.pushed ∧ (n.accept fd).popped = n.popped ∧
      (n.accept fd).sent = n.sent := by
  rcases accept_cases n fd with he | ⟨slot, -, -, he⟩ <;> rw [he] <;> exact ⟨rfl, rfl, rfl⟩

theorem read_frame {n n' : Net} (h : NetInv n) {fd : ℤ} {rs : List (Recv × Timestamp)}
    (hread : n.read fd rs = some n') :
    n.pushed <+: n'.pushed ∧ n'.popped = n.popped ∧ n'.sent = n.sent := by
  rcases read_cases h.wired h.reads fd rs with he | ⟨slot, c, r, -, -, -, he, -⟩
  · obtain rfl : n = n' := Option.some.inj (he.symm.trans hread)
    exact ⟨List.prefix_rfl, rfl, rfl⟩
  · obtain rfl : n.after fd slot c r = n' := Option.some.inj (he.symm.trans hread)
    exact ⟨List.prefix_append _ _, rfl, rfl⟩

/-! ### What the exchange keeps -/

/-- What the exchange comes to. -/
structure Exchange.Inv (inBuffer : Fin (2 ^ k) → InboundMessage)
    (outBuffer : Fin (2 ^ k) → OutboundMessage) (x : Exchange cap k) : Prop where
  /-- Slots, descriptors and frames. -/
  net : NetInv x.net
  /-- Open connections have slots. -/
  served : Served x.net
  /-- The inbound ring does what it can do alone. -/
  inbound : ∃ as, x.threads.inbound = (RingState.new inBuffer).run as
  /-- So does the outbound ring. -/
  outbound : ∃ as, x.threads.outbound = (RingState.new outBuffer).run as
  /-- As long as no push fails, the threads do with the clients' messages what one thread does. -/
  threads : x.threads.NoneFailed → x.threads.Inv x.messages
  /-- What is sent is what was popped. -/
  popped : x.net.popped = x.threads.outbound.pops

/-- A step of a run. -/
theorem run_step {T : Type*} {s s' s₀ : RingState T k} (h : ∃ as, s = s₀.run as)
    (hstep : s' = s ∨ ∃ a, s' = s.step a) :
    ∃ as, s' = s₀.run as := by
  obtain ⟨as, rfl⟩ := h
  rcases hstep with rfl | ⟨a, rfl⟩
  · exact ⟨as, rfl⟩
  · exact ⟨as ++ [a], (Machine.run_append RingState.step s₀ as [a]).symm⟩

section Steps

variable {inBuffer : Fin (2 ^ k) → InboundMessage} {outBuffer : Fin (2 ^ k) → OutboundMessage}
  {x : Exchange cap k}

theorem Exchange.new_inv (cap : ℕ) (inBuffer : Fin (2 ^ k) → InboundMessage)
    (outBuffer : Fin (2 ^ k) → OutboundMessage) :
    (new cap inBuffer outBuffer).Inv inBuffer outBuffer :=
  ⟨new_netInv, new_served, ⟨[], rfl⟩, ⟨[], rfl⟩,
    fun _ => Threads.new_inv cap inBuffer outBuffer [], rfl⟩

/-- The steps of the threads, but for those of `drain_outbound`. -/
theorem Exchange.Inv.thread (hcap : cap < 2 ^ 32) (h : x.Inv inBuffer outBuffer) {a : ThreadStep}
    (ha : a ≠ .drainOutbound) :
    ({ x with threads := x.threads.step a } : Exchange cap k).Inv inBuffer outBuffer where
  net := h.net
  served := h.served
  inbound := run_step h.inbound (x.threads.inbound_step a)
  outbound := run_step h.outbound (x.threads.outbound_step a)
  threads hok := (h.threads hok.of_step).step hcap hok
  popped := h.popped.trans (x.threads.step_pops ha).symm

/-- `drain_outbound`. -/
theorem Exchange.Inv.drain (hcap : cap < 2 ^ 32) (h : x.Inv inBuffer outBuffer)
    (answer : Fin maxClients → SendResult) :
    (x.drain answer).Inv inBuffer outBuffer := by
  have hpops := (x.threads.outbound.consume_spec).1
  have hin := run_step h.inbound (x.threads.inbound_step .drainOutbound)
  have hout := run_step h.outbound (x.threads.outbound_step .drainOutbound)
  have hthreads := fun hok : x.threads.drainOutbound.NoneFailed =>
    (h.threads (Threads.NoneFailed.of_step (a := .drainOutbound) hok)).step (a := .drainOutbound)
      hcap hok
  unfold Exchange.drain
  cases hpopping : x.threads.outbound.consumer.popping with
  | none =>
    rw [hpopping, Option.toList_none, List.append_nil] at hpops
    exact ⟨h.net, h.served, hin, hout, hthreads, h.popped.trans hpops.symm⟩
  | some out =>
    rw [hpopping, Option.toList_some] at hpops
    refine ⟨h.net.sendOne out answer, h.served.drain [(out, answer)], hin, hout, hthreads, ?_⟩
    exact (congrArg (· ++ [out]) h.popped).trans hpops.symm

/-- `accept_client`. -/
theorem Exchange.Inv.accept (h : x.Inv inBuffer outBuffer) (fd : ℤ) :
    ({ x with net := x.net.accept fd } : Exchange cap k).Inv inBuffer outBuffer := by
  obtain ⟨hpushed, hpopped, -⟩ := accept_frame x.net fd
  have hnet : NetInv (x.net.accept fd) :=
    ⟨accept_wired h.net.wired, accept_reads h.net.wired h.net.reads⟩
  refine ⟨hnet, h.served.accept, h.inbound, h.outbound, fun hok => ?_, hpopped.trans h.popped⟩
  have hsame : ({ x with net := x.net.accept fd } : Exchange cap k).messages = x.messages :=
    congrArg (List.map Prod.snd) hpushed
  rw [hsame]
  exact h.threads hok

/-- `read_client`. -/
theorem Exchange.Inv.readable (h : x.Inv inBuffer outBuffer) (fd : ℤ)
    (rs : List (Recv × Timestamp)) :
    ∃ x', x.readable fd rs = some x' ∧ x'.Inv inBuffer outBuffer := by
  obtain ⟨n, hread, hnet⟩ := h.net.step (.readable fd rs)
  obtain ⟨⟨new, hpushed⟩, hpopped, -⟩ := read_frame h.net hread
  refine ⟨_, by rw [Exchange.readable, show x.net.read fd rs = some n from hread]; rfl, ?_⟩
  refine ⟨hnet, h.served.step h.net hread, h.inbound, h.outbound,
    fun hok => ?_, hpopped.trans h.popped⟩
  have hmsgs : n.pushed.map Prod.snd = x.messages ++
      (n.pushed.drop x.net.pushed.length).map Prod.snd := by
    rw [← hpushed, List.drop_left, List.map_append]
    rfl
  have hthreads := (h.threads hok).feed ((n.pushed.drop x.net.pushed.length).map Prod.snd)
  rw [← hmsgs] at hthreads
  exact hthreads

/-- **A step** is defined, and keeps the invariant. -/
theorem Exchange.Inv.step (hcap : cap < 2 ^ 32) (h : x.Inv inBuffer outBuffer) (a : ExchangeStep) :
    ∃ x', x.step a = some x' ∧ x'.Inv inBuffer outBuffer := by
  cases a with
  | accept fd => exact ⟨_, rfl, h.accept fd⟩
  | readable fd rs => exact h.readable fd rs
  | push => exact ⟨_, rfl, h.thread (a := .readClient) hcap nofun⟩
  | drain answer => exact ⟨_, rfl, h.drain hcap answer⟩
  | engine tsc => exact ⟨_, rfl, h.thread (a := .engine tsc) hcap nofun⟩

end Steps

/-! ### From bytes to trades -/

/-- The messages made of a connection's bytes are those of its frames. -/
theorem NetInv.framed {n : Net} (h : NetInv n) (c : ℕ) :
    (n.pushedFor c).map InboundMessage.untimed =
      (frames wireMsgSize (n.received c)).map decoded := by
  obtain ⟨rest, fs, hcut, hmsgs⟩ := h.reads.decoded c
  rw [hmsgs, hcut.frames_eq]

/-- What the engine has done with the clients' messages, and what was sent of it. -/
theorem Exchange.Inv.serial (hk : k < 64) {inBuffer : Fin (2 ^ k) → InboundMessage}
    {outBuffer : Fin (2 ^ k) → OutboundMessage} {x : Exchange cap k} (h : x.Inv inBuffer outBuffer)
    (hok : x.threads.NoneFailed) :
    ∃ (done : List (Timestamp × InboundMessage)) (outs : List (List OutboundMessage)),
      (MatchingEngine.new cap).run done = some (x.threads.engine, outs) ∧
      done.map Prod.snd <+: x.net.pushed.map Prod.snd ∧ x.net.popped <+: outs.flatten ∧
      (x.threads.Drained → x.threads.unread = [] →
        done.map Prod.snd = x.net.pushed.map Prod.snd ∧ x.net.popped = outs.flatten) := by
  have ht := h.threads hok
  obtain ⟨as, has⟩ := h.inbound
  obtain ⟨bs, hbs⟩ := h.outbound
  obtain ⟨done, outs, hdone, hfirst, hpops, hdrained⟩ :=
    ht.popped (has ▸ RingState.pops_prefix hk inBuffer as)
      (hbs ▸ RingState.pops_prefix hk outBuffer bs)
  refine ⟨done, outs, hdone, hfirst, h.popped ▸ hpops,
    fun hd hunread => ⟨?_, h.popped.trans (hdrained hd).1⟩⟩
  have hread := ht.read
  rw [hunread, List.append_nil] at hread
  refine hfirst.eq_of_length ?_
  rw [List.length_map, (hdrained hd).2, hread]

/-- **The exchange serializes its clients**: whatever they send, in whatever pieces it arrives and
whatever the order of the threads' steps, the messages made of each connection's bytes are those of
its frames in order; and as long as no push fails, the engine has done what it does on one thread
with the first of all these messages, and the reports that were sent to the clients are the first of
those it gave. When everything is pushed and the rings are drained, it is all of them. -/
theorem exchange_serializes (hk : k < 64) (hcap : cap < 2 ^ 32)
    (inBuffer : Fin (2 ^ k) → InboundMessage) (outBuffer : Fin (2 ^ k) → OutboundMessage)
    (steps : List ExchangeStep) :
    ∃ x, (Exchange.new cap inBuffer outBuffer).run steps = some x ∧
      (∀ c, (x.net.pushedFor c).map InboundMessage.untimed =
        (frames wireMsgSize (x.net.received c)).map decoded) ∧
      (x.threads.NoneFailed →
        ∃ (done : List (Timestamp × InboundMessage)) (outs : List (List OutboundMessage)),
          (MatchingEngine.new cap).run done = some (x.threads.engine, outs) ∧
          done.map Prod.snd <+: x.net.pushed.map Prod.snd ∧ x.net.popped <+: outs.flatten ∧
          (x.threads.Drained → x.threads.unread = [] →
            done.map Prod.snd = x.net.pushed.map Prod.snd ∧ x.net.popped = outs.flatten)) := by
  obtain ⟨x, hrun, h⟩ := Machine.tryRun_invariant
    (fun (x : Exchange cap k) a (_ : a ∈ steps) (h : x.Inv inBuffer outBuffer) => h.step hcap a)
    (Exchange.new_inv cap inBuffer outBuffer)
  exact ⟨x, hrun, h.net.framed, h.serial hk⟩

/-- A share is offered. -/
def sellWire : WireMessage :=
  ⟨MessageType.newOrder.byte, Side.sell.byte, OrderType.limit.byte, 0, 1, 0, 100, 1, 0⟩

/-- A share is bought. -/
def buyWire : WireMessage :=
  ⟨MessageType.newOrder.byte, Side.buy.byte, OrderType.limit.byte, 0, 2, 0, 100, 1, 0⟩

/-- Two clients; the one sends a frame in two pieces, the other a frame in between. Then the threads
take turns. -/
def twoClients : List ExchangeStep :=
  [.accept 5, .accept 6, .readable 5 [(.bytes (sellWire.bytes.take 20), 1)],
    .readable 6 [(.bytes buyWire.bytes, 2)], .readable 5 [(.bytes (sellWire.bytes.drop 20), 3)]] ++
  (List.replicate 60 [.push, .engine 4, .drain fun _ => .took wireMsgSize]).flatten

/-- The exchange with small rings that they come to. -/
theorem twoClients_run :
    ∃ x, (Exchange.new (k := 3) 4 (fun _ => cancelNone) fun _ => .zero).run twoClients = some x ∧
      x.threads.NoneFailed ∧ x.threads.Drained ∧ x.threads.unread = [] ∧
        x.net.popped.map OutboundMessage.type =
          [.orderAccepted, .orderAccepted, .orderExecuted, .orderExecuted] := by
  have hany : ((Exchange.new (k := 3) 4 (fun _ => cancelNone) fun _ => .zero).run twoClients).any
      (fun x => decide (x.threads.NoneFailed ∧ x.threads.Drained ∧ x.threads.unread = [] ∧
        x.net.popped.map OutboundMessage.type =
          [.orderAccepted, .orderAccepted, .orderExecuted, .orderExecuted])) = true := by
    decide +kernel
  obtain ⟨x, hx, hall⟩ := (Option.any_eq_true _ _).mp hany
  exact ⟨x, hx, of_decide_eq_true hall⟩

/-- The share is traded, as it would be on one thread. -/
theorem exchange_serializes_two :
    ∃ x, (Exchange.new (k := 3) 4 (fun _ => cancelNone) fun _ => .zero).run twoClients = some x ∧
      x.net.popped.map OutboundMessage.type =
        [.orderAccepted, .orderAccepted, .orderExecuted, .orderExecuted] ∧
      (∀ c, (x.net.pushedFor c).map InboundMessage.untimed =
        (frames wireMsgSize (x.net.received c)).map decoded) ∧
      ∃ (done : List (Timestamp × InboundMessage)) (outs : List (List OutboundMessage)),
        (MatchingEngine.new 4).run done = some (x.threads.engine, outs) ∧
        done.map Prod.snd = x.net.pushed.map Prod.snd ∧ x.net.popped = outs.flatten := by
  obtain ⟨x, hx, hok, hdrained, hunread, htypes⟩ := twoClients_run
  obtain ⟨x', hx', hframed, hserial⟩ :=
    @exchange_serializes 4 3 (by decide) (by decide) (fun _ => cancelNone)
      (fun _ => .zero) twoClients
  obtain rfl : x = x' := Option.some.inj (hx.symm.trans hx')
  obtain ⟨done, outs, hdone, -, -, hall⟩ := hserial hok
  exact ⟨x, hx, htypes, hframed, done, outs, hdone, hall hdrained hunread⟩

/-! ### From trades to bytes -/

/-- A connection is open. -/
def Net.Open (n : Net) (c : ℕ) : Prop := ∃ fd, n.conns fd = some c

section Net

variable {n n' : Net} {c : ℕ}

/-- Connections to come are not open. -/
theorem Wired.not_open (h : Wired n) (hc : n.accepted ≤ c) : ¬ n.Open c := by
  rintro ⟨fd, hfd⟩
  exact absurd (h.old fd c hfd) (Nat.not_lt.mpr hc)

/-- Old connections are not opened again. -/
theorem accept_open {fd : ℤ} (hc : c < n.accepted) (hopen : (n.accept fd).Open c) : n.Open c := by
  rcases accept_cases n fd with he | ⟨slot, -, -, he⟩
  · rwa [he] at hopen
  obtain ⟨fd', hfd'⟩ := hopen
  rw [he] at hfd'
  refine ⟨fd', ?_⟩
  simp only [Function.update_apply] at hfd'
  split_ifs at hfd'
  · obtain rfl := Option.some.inj hfd'
    exact absurd hc (Nat.lt_irrefl _)
  · exact hfd'

theorem accept_accepted (n : Net) (fd : ℤ) : n.accepted ≤ (n.accept fd).accepted := by
  rcases accept_cases n fd with he | ⟨slot, -, -, he⟩ <;> rw [he]
  exact Nat.le_succ _

theorem read_open (h : NetInv n) {fd : ℤ} {rs : List (Recv × Timestamp)}
    (hread : n.read fd rs = some n') :
    n'.accepted = n.accepted ∧ (n'.Open c → n.Open c) := by
  rcases read_cases h.wired h.reads fd rs with he | ⟨slot, c', r, -, -, -, he, -⟩
  · obtain rfl : n = n' := Option.some.inj (he.symm.trans hread)
    exact ⟨rfl, id⟩
  · obtain rfl : n.after fd slot c' r = n' := Option.some.inj (he.symm.trans hread)
    exact ⟨rfl, fun ⟨fd', hfd'⟩ => ⟨fd', conns_after hfd'⟩⟩

/-- A connection that is not open is sent nothing. -/
theorem taken_closed (hc : ¬ n.Open c) (out : OutboundMessage)
    (answer : Fin maxClients → SendResult) :
    n.taken out answer c = [] := by
  rw [taken_eq]
  exact List.flatMap_eq_nil_iff.mpr fun i _ => if_neg fun hi => hc ⟨_, hi.2⟩

/-- One that is open is sent the whole message, if its `send` takes it. -/
theorem taken_open (h : NetInv n) (hs : Served n) (hc : n.Open c) (out : OutboundMessage)
    {answer : Fin maxClients → SendResult} (hanswer : ∀ i, answer i = .took wireMsgSize) :
    n.taken out answer c = out.wire.bytes := by
  obtain ⟨fd, hfd⟩ := hc
  obtain ⟨hnonneg, i, hi, rfl⟩ := hs fd c hfd
  rw [taken_slot h.wired out answer ⟨⟨hi, hnonneg⟩, hfd⟩, hanswer]
  exact List.take_of_length_le (Nat.le_of_eq out.wire.length_bytes)

end Net

/-- What connection `c` is sent between two states: nothing if it was closed before or is still to
come, and if it is open all along, the reports that are popped in between. -/
structure Exchange.Sends (c : ℕ) (whole : Prop) (x x' : Exchange cap k) : Prop where
  /-- Connections are numbered on. -/
  accepted : x.net.accepted ≤ x'.net.accepted
  /-- An old connection that is open was open. -/
  opened : c < x.net.accepted → x'.net.Open c → x.net.Open c
  /-- It was closed. -/
  closed : c < x.net.accepted → ¬ x.net.Open c → x'.net.sent c = x.net.sent c
  /-- It is to come. -/
  fresh : x'.net.accepted ≤ c → x'.net.sent c = x.net.sent c
  /-- It is open. -/
  sent : ∃ outs, x'.net.popped = x.net.popped ++ outs ∧
    (c < x.net.accepted → x'.net.Open c → whole →
      x'.net.sent c = x.net.sent c ++ outs.flatMap fun out => out.wire.bytes)

namespace Exchange

variable {c : ℕ} {whole whole' : Prop} {x x' x'' : Exchange cap k}

/-- Nothing is popped. -/
theorem Sends.idle (haccepted : x.net.accepted ≤ x'.net.accepted)
    (hopened : c < x.net.accepted → x'.net.Open c → x.net.Open c)
    (hpopped : x'.net.popped = x.net.popped) (hsent : x'.net.sent = x.net.sent) :
    x.Sends c whole x' where
  accepted := haccepted
  opened := hopened
  closed _ _ := by rw [hsent]
  fresh _ := by rw [hsent]
  sent := ⟨[], by rw [hpopped, List.append_nil],
    fun _ _ _ => by rw [hsent]; exact (List.append_nil _).symm⟩

/-- One after the other. -/
theorem Sends.trans (h : x.Sends c whole x') (h' : x'.Sends c whole' x'') :
    x.Sends c (whole ∧ whole') x'' := by
  obtain ⟨outs, hpopped, hsent⟩ := h.sent
  obtain ⟨outs', hpopped', hsent'⟩ := h'.sent
  have hold : c < x.net.accepted → c < x'.net.accepted := fun hc => hc.trans_le h.accepted
  refine ⟨h.accepted.trans h'.accepted,
    fun hc hopen => h.opened hc (h'.opened (hold hc) hopen),
    fun hc hclosed => ?_, fun hc => (h'.fresh hc).trans (h.fresh (h'.accepted.trans hc)),
    outs ++ outs', by rw [hpopped', hpopped, List.append_assoc], fun hc hopen hwhole => ?_⟩
  · exact (h'.closed (hold hc) fun hopen => hclosed (h.opened hc hopen)).trans (h.closed hc hclosed)
  · rw [hsent' (hold hc) hopen hwhole.2, hsent hc (h'.opened (hold hc) hopen) hwhole.1,
      List.flatMap_append, List.append_assoc]

/-- `drain_outbound`. -/
theorem Sends.drain (h : NetInv x.net) (hs : Served x.net) (answer : Fin maxClients → SendResult) :
    x.Sends c (∀ i, answer i = .took wireMsgSize) (x.drain answer) := by
  unfold Exchange.drain
  cases x.threads.outbound.consumer.popping with
  | none => exact .idle le_rfl (fun _ hopen => hopen) rfl rfl
  | some out =>
    -- the connections are as they were, and each has its bytes more
    have hclosed : ¬ x.net.Open c → x.net.sent c ++ x.net.taken out answer c = x.net.sent c :=
        fun hc => by
      rw [taken_closed hc, List.append_nil]
    refine ⟨le_rfl,
      fun _ hopen => hopen,
      fun _ hc => hclosed hc,
      fun hc => hclosed (h.wired.not_open hc), [out], rfl, fun _ hopen hwhole => ?_⟩
    show x.net.sent c ++ x.net.taken out answer c = _
    rw [taken_open h hs hopen out hwhole, List.flatMap_singleton]

/-- **A step.** -/
theorem Sends.step (h : NetInv x.net) (hs : Served x.net) {a : ExchangeStep}
    (hstep : x.step a = some x') :
    x.Sends c a.Sends x' := by
  cases a with
  | accept fd =>
    obtain rfl := Option.some.inj hstep
    obtain ⟨-, hpopped, hsent⟩ := accept_frame x.net fd
    exact .idle (accept_accepted x.net fd) accept_open hpopped hsent
  | readable fd rs =>
    obtain ⟨n, hread, hn⟩ := Option.bind_eq_some_iff.mp hstep
    obtain rfl := Option.some.inj hn
    obtain ⟨-, hpopped, hsent⟩ := read_frame h hread
    obtain ⟨haccepted, hopened⟩ := read_open (c := c) h hread
    exact .idle haccepted.ge (fun _ => hopened) hpopped hsent
  | push =>
    obtain rfl := Option.some.inj hstep
    exact .idle le_rfl (fun _ hopen => hopen) rfl rfl
  | drain answer =>
    obtain rfl := Option.some.inj hstep
    exact .drain h hs answer
  | engine tsc =>
    obtain rfl := Option.some.inj hstep
    exact .idle le_rfl (fun _ hopen => hopen) rfl rfl

/-- **A run.** -/
theorem Inv.run (hcap : cap < 2 ^ 32) {inBuffer : Fin (2 ^ k) → InboundMessage}
    {outBuffer : Fin (2 ^ k) → OutboundMessage} (h : x.Inv inBuffer outBuffer)
    (steps : List ExchangeStep) :
    ∃ x', x.run steps = some x' ∧ x'.Inv inBuffer outBuffer ∧
      x.Sends c (∀ a ∈ steps, a.Sends) x' := by
  induction steps generalizing x with
  | nil => exact ⟨x, rfl, h, .idle le_rfl (fun _ hopen => hopen) rfl rfl⟩
  | cons a steps ih =>
    obtain ⟨x₁, hstep, h₁⟩ := h.step hcap a
    obtain ⟨x', hrun, h', hsends⟩ := ih h₁
    refine ⟨x', ?_, h', ?_⟩
    · show (x.step a).bind _ = _
      rw [hstep]
      exact hrun
    · rw [List.forall_mem_cons]
      exact (Sends.step h.net h.served hstep).trans hsends

end Exchange

/-- **Reports are broadcast**: between any two states of a run, when every `send` takes the whole
message, a connection that is open all along is sent exactly the reports that are popped in between,
each once and in order. In any case one that was closed is sent nothing more, and one that is still
to come nothing at all. -/
theorem reports_broadcast (hcap : cap < 2 ^ 32) (inBuffer : Fin (2 ^ k) → InboundMessage)
    (outBuffer : Fin (2 ^ k) → OutboundMessage) (before after : List ExchangeStep) (c : ℕ) :
    ∃ x x', (Exchange.new cap inBuffer outBuffer).run before = some x ∧ x.run after = some x' ∧
      (x.net.accepted ≤ c → x.net.sent c = []) ∧
      (c < x.net.accepted → ¬ x.net.Open c → x'.net.sent c = x.net.sent c) ∧
      (c < x.net.accepted → x'.net.Open c → (∀ a ∈ after, a.Sends) → ∃ outs,
        x'.threads.outbound.pops = x.threads.outbound.pops ++ outs ∧
        x'.net.sent c = x.net.sent c ++ outs.flatMap fun out => out.wire.bytes) := by
  obtain ⟨x, hrun, h, hbefore⟩ := (Exchange.new_inv cap inBuffer outBuffer).run (c := c) hcap before
  obtain ⟨x', hrun', h', hafter⟩ := h.run (c := c) hcap after
  refine ⟨x, x', hrun, hrun', hbefore.fresh, hafter.closed, fun hc hopen hwhole => ?_⟩
  obtain ⟨outs, hpopped, hsent⟩ := hafter.sent
  exact ⟨outs, by rw [← h'.popped, ← h.popped, hpopped], hsent hc hopen hwhole⟩

/-- A client arrives, its message is refused, and it is sent the report. -/
theorem reports_broadcast_cancel :
    ∃ x x', (Exchange.new (k := 18) maxOrders (fun _ => cancelNone) fun _ => .zero).run
        [.accept 5, .readable 5 [(.bytes (List.replicate 32 1), 1)]] = some x ∧
      x.run (List.replicate 10 .push ++ List.replicate 20 (.engine 2) ++
        List.replicate 10 (.drain fun _ => .took wireMsgSize)) = some x' ∧
      (x.net.accepted ≤ 0 → x.net.sent 0 = []) ∧
      (0 < x.net.accepted → ¬ x.net.Open 0 → x'.net.sent 0 = x.net.sent 0) ∧
      (0 < x.net.accepted → x'.net.Open 0 →
        (∀ a ∈ List.replicate 10 .push ++ List.replicate 20 (.engine 2) ++
        List.replicate 10 (.drain fun _ => .took wireMsgSize), ExchangeStep.Sends a) →
        ∃ outs, x'.threads.outbound.pops = x.threads.outbound.pops ++ outs ∧
        x'.net.sent 0 = x.net.sent 0 ++ outs.flatMap fun out => out.wire.bytes) :=
  reports_broadcast (by decide) _ _ _ _ 0

end TradeFeed
