import TradeFeed.Codec.WireMessage
import TradeFeed.Core.Accounts
import TradeFeed.Engine.Protocol

/-!
# Any bytes from a client

The gateway checks nothing in a frame: it casts the bytes to enumerations and passes prices
and ids on. The model's operations are undefined (`none`) where an index is out of its
array, the pool is empty, a level's first order is missing, or a bit of a zero word is
searched; an engine that is fed any frames never gets there (`frames_safe`).

The price of an order whose type has no name is not checked. Such an order trades as a
limit order does, at any price that it accepts, but what is left of it is discarded: only
limit orders rest, and their prices were checked (`LimitsOnly`).
-/

namespace TradeFeed

open Lib Lib.PriceTime Tradable

variable {cap : ℕ}

/-- Only limit orders rest. -/
def LimitsOnly (b : OrderBook cap) (Q : Queues cap) : Prop :=
  ∀ s i, ∀ p ∈ Q s i, (b.order p).type = .limit

section LimitsOnly

variable {b b' : OrderBook cap} {Q Q' : Queues cap} {o : Fin cap}

theorem Accepted.limitsOnly {new : Order cap} (h : Inv b Q) (ha : Accepted b b' Q Q' o new)
    (hl : LimitsOnly b Q) :
    LimitsOnly b' Q' := by
  intro s i p hp
  rcases ha.mem h hp with ⟨hold, hbare⟩ | ⟨rfl, -, hr, -, hbare⟩
  · show (b'.order p).bare.type = _
    rw [hbare]
    exact hl s i p hold
  · show (b'.order p).bare.type = _
    rw [hbare]
    exact hr.2

theorem Left.limitsOnly (ha : Left b b' Q o) (hl : LimitsOnly b Q) :
    LimitsOnly b' (Q.without o) := by
  intro s i p hp
  obtain ⟨hold, hne⟩ := Queues.mem_without.mp hp
  show (b'.order p).bare.type = _
  rw [ha.others p hne]
  exact hl s i p hold

/-- **A step** of the engine lets only limit orders rest. -/
theorem Processed.limitsOnly {e e' : MatchingEngine cap} {tsc : Timestamp} {msg : InboundMessage}
    {out : List OutboundMessage} (h : Inv e.book Q) (hp : Processed e Q tsc msg e' Q' out)
    (hl : LimitsOnly e.book Q) :
    LimitsOnly e'.book Q' := by
  cases hp with
  | unknown => exact hl
  | refused => exact hl
  | added _ _ ha => exact ha.limitsOnly (clearFills_inv h) hl
  | notCanceled => exact hl
  | canceled _ _ ha => exact ha.limitsOnly hl
  | notModified => exact hl
  | lost _ _ _ ha => exact ha.limitsOnly hl
  | modified _ _ _ ha ha' => exact ha'.limitsOnly ha.inv (ha.limitsOnly hl)

end LimitsOnly

/-- **A run** on any messages is defined, and only limit orders rest after it. -/
theorem run_limitsOnly {e : MatchingEngine cap} {Q : Queues cap} (h : Inv e.book Q)
    (hcap : cap < 2 ^ 32) (hl : LimitsOnly e.book Q) (msgs : List (Timestamp × InboundMessage)) :
    ∃ e' Q' outs, e.run msgs = some (e', outs) ∧ Inv e'.book Q' ∧ LimitsOnly e'.book Q' := by
  induction msgs generalizing e Q with
  | nil => exact ⟨e, Q, [], rfl, h, hl⟩
  | cons m msgs ih =>
    obtain ⟨tsc, msg⟩ := m
    obtain ⟨e₁, Q₁, out, hproc, hp⟩ := process_spec h hcap tsc msg
    obtain ⟨e', Q', outs, hrun, h', hl'⟩ := ih (hp.inv h) (hp.limitsOnly h hl)
    exact ⟨e', Q', out :: outs, run_cons.mpr ⟨e₁, out, outs, hproc, hrun, rfl⟩, h', hl'⟩

/-! ### Frames -/

/-- A frame as a client sends it, and the counter's readings when the gateway and the engine take it
up. -/
structure RawFrame where
  /-- The bytes. -/
  bytes : List UInt8
  /-- There are 32 of them. -/
  length_eq : bytes.length = wireMsgSize
  /-- The gateway's reading. -/
  recvTsc : Timestamp
  /-- The engine's reading. -/
  tsc : Timestamp

/-- What the engine is given for it. -/
def RawFrame.message (f : RawFrame) : Timestamp × InboundMessage :=
  (f.tsc, (WireMessage.ofBytes f.bytes).inbound f.recvTsc)

/-- The frame of a message. -/
def WireMessage.frame (w : WireMessage) : RawFrame := ⟨w.bytes, w.length_bytes, 0, 0⟩

theorem WireMessage.message_frame (w : WireMessage) : w.frame.message = (0, w.inbound 0) := by
  rw [RawFrame.message, frame, ofBytes_bytes]

/-- A share offered at 100. -/
def sellFrame : RawFrame := WireMessage.frame ⟨1, 1, 0, 0, 1, 0, 100, 1, 0⟩

/-- A share wanted by an order of type 7, at the largest price there is. -/
def oddFrame : RawFrame := WireMessage.frame ⟨1, 0, 7, 0, 2, 0, 4294967295, 1, 0⟩

theorem message_sellFrame : sellFrame.message = (0, sellOne) := WireMessage.message_frame _

/-- What the engine makes of it. -/
def oddOrder : InboundMessage := ⟨.newOrder, .buy, ⟨7⟩, 2, 0, 4294967295, 1, 0⟩

theorem message_oddFrame : oddFrame.message = (0, oddOrder) := WireMessage.message_frame _

/-- The order of type 7 trades with the other. -/
theorem oddFrame_trades :
    ∃ e outs, (MatchingEngine.new maxOrders).run ([sellFrame, oddFrame].map RawFrame.message) =
    some (e, outs) ∧ ∃ r ∈ outs.flatten, r.type = .orderExecuted ∧ r.clientId = 2 := by
  have hcap : maxOrders < 2 ^ 32 := by decide
  obtain ⟨e₁, Q₁, o, hfirst, h₁, -, -, hbids, hsingle, hasks⟩ :=
    process_sellOne (e := MatchingEngine.new maxOrders) (new_inv maxOrders) hcap (by decide)
  obtain ⟨b, Q₂, o', hsecond, ha, htr, -⟩ :=
    process_buys oddOrder h₁ hcap (by decide) hbids hsingle hasks rfl
    (incoming_remaining ..) rfl rfl rfl (by decide) (by decide) 0
  obtain ⟨f, hfills, hclient⟩ : ∃ f, b.fills = [f] ∧ f.bidClient = 2 := by
    refine ⟨fillOf oddOrder.side (newOrderOf e₁ oddOrder)
      ((o, newOrderOf (MatchingEngine.new maxOrders) sellOne), 1), ?_, rfl⟩
    rw [ha.fills, htr]
    rfl
  rw [hfills, reports_cons] at hsecond
  rw [List.map_cons, List.map_singleton, message_sellFrame, message_oddFrame]
  exact ⟨_, _, run_cons.mpr ⟨e₁, _, _, hfirst, run_single hsecond, rfl⟩,
    executedBid f e₁.matchNumber 0, by simp, rfl, hclient⟩

/-- **No frames lead the engine out of bounds**, and after them only limit orders rest. Orders of
a type without a name may trade. -/
theorem frames_safe :
    (∀ fs : List RawFrame,
      ∃ e outs, (MatchingEngine.new maxOrders).run (fs.map RawFrame.message) = some (e, outs) ∧
      ∀ s i, ∀ p ∈ e.book.queue s i, (e.book.order p).type = .limit) ∧
    ∃ fs : List RawFrame,
      ∃ f ∈ fs, f.message.2.orderType ≠ .limit ∧ f.message.2.orderType ≠ .market ∧
      ∃ e outs, (MatchingEngine.new maxOrders).run (fs.map RawFrame.message) = some (e, outs) ∧
        ∃ r ∈ outs.flatten, r.type = .orderExecuted ∧ r.clientId = f.message.2.clientId := by
  constructor
  · intro fs
    have hlimits : LimitsOnly (MatchingEngine.new maxOrders).book fun _ _ => [] :=
      fun s i p hp => by cases hp
    obtain ⟨e, Q, outs, hrun, h, hl⟩ :=
      run_limitsOnly (new_inv maxOrders) (by decide) hlimits (fs.map RawFrame.message)
    obtain rfl := h.queue_eq
    exact ⟨e, outs, hrun, hl⟩
  · refine ⟨[sellFrame, oddFrame], oddFrame, by simp, ?_⟩
    rw [message_oddFrame]
    exact ⟨by decide, by decide, oddFrame_trades⟩

end TradeFeed
