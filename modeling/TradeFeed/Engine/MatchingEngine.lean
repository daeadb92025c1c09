import TradeFeed.Core.OrderBook

/-!
# The matching engine

`MatchingEngine` (`matching_engine.h`, `matching_engine.cpp`): it takes an inbound
message, makes the call on the order book that the message asks for, and pushes its
responses. A step (`process`) gives the messages that are pushed, in order; whether the
ring takes them is the ring's affair, as the engine ignores what `push` returns
(`Transport.PairedReports` is about that). The time stamp counter's reading is an
argument.

The pool's capacity is a parameter; the source's engine has the book's default,
`maxOrders`.
-/

namespace TradeFeed

/-- `enum class MessageType : uint8_t`. -/
structure MessageType where
  /-- The byte. -/
  byte : UInt8
  deriving DecidableEq

namespace MessageType

/-- `MessageType::NewOrder`. -/
def newOrder : MessageType := ⟨1⟩

/-- `MessageType::CancelOrder`. -/
def cancelOrder : MessageType := ⟨2⟩

/-- `MessageType::ModifyOrder`. -/
def modifyOrder : MessageType := ⟨3⟩

/-- `MessageType::OrderAccepted`. -/
def orderAccepted : MessageType := ⟨10⟩

/-- `MessageType::OrderCanceled`. -/
def orderCanceled : MessageType := ⟨11⟩

/-- `MessageType::OrderExecuted`. -/
def orderExecuted : MessageType := ⟨12⟩

/-- `MessageType::OrderRejected`. -/
def orderRejected : MessageType := ⟨13⟩

end MessageType

/-- `struct InboundMessage`, less its padding. -/
structure InboundMessage where
  /-- What is asked. -/
  type : MessageType
  /-- The side. -/
  side : Side
  /-- The order's type. -/
  orderType : OrderType
  /-- The client. -/
  clientId : ClientId
  /-- The order to cancel or modify. -/
  orderId : OrderId
  /-- The price. -/
  price : Price
  /-- The quantity. -/
  quantity : Quantity
  /-- When the gateway received it. -/
  recvTsc : Timestamp
  deriving DecidableEq

/-- `struct OutboundMessage`, less its padding. -/
structure OutboundMessage where
  /-- What is reported. -/
  type : MessageType
  /-- Left at zero by the engine. -/
  aggressorSide : Side
  /-- Why an order was rejected. -/
  rejectReason : UInt8
  /-- The client. -/
  clientId : ClientId
  /-- The order. -/
  orderId : OrderId
  /-- The price of a trade. -/
  price : Price
  /-- The quantity of a trade. -/
  quantity : Quantity
  /-- The number of a trade. -/
  matchNumber : OrderId
  /-- When the engine took the message up. -/
  engineTsc : Timestamp
  deriving DecidableEq

/-- `OutboundMessage m{}`. -/
def OutboundMessage.zero : OutboundMessage := ⟨⟨0⟩, ⟨0⟩, 0, 0, 0, 0, 0, 0, 0⟩

/-- `class MatchingEngine`, without its rings. -/
structure MatchingEngine (cap : ℕ) where
  /-- `book_`. -/
  book : OrderBook cap
  /-- `next_id_`. -/
  nextId : OrderId
  /-- `match_number_`. -/
  matchNumber : UInt64

/-- `emit_accept(c, id, tsc)`. -/
def emitAccept (c : ClientId) (id : OrderId) (tsc : Timestamp) : OutboundMessage :=
  { OutboundMessage.zero with
    type := .orderAccepted, clientId := c, orderId := id, engineTsc := tsc }

/-- `emit_reject(c, id, reason, tsc)`. -/
def emitReject (c : ClientId) (id : OrderId) (reason : UInt8) (tsc : Timestamp) : OutboundMessage :=
  { OutboundMessage.zero with
    type := .orderRejected, clientId := c, orderId := id, rejectReason := reason, engineTsc := tsc }

/-- `emit_cancel(c, id, tsc)`. -/
def emitCancel (c : ClientId) (id : OrderId) (tsc : Timestamp) : OutboundMessage :=
  { OutboundMessage.zero with
    type := .orderCanceled, clientId := c, orderId := id, engineTsc := tsc }

/-- The message that `emit_fills` prepares for a fill. -/
def executed (f : Fill) (matchNumber : UInt64) (tsc : Timestamp) : OutboundMessage :=
  { OutboundMessage.zero with
    type := .orderExecuted, price := f.price, quantity := f.quantity, matchNumber := matchNumber,
    engineTsc := tsc }

/-- The report to the buyer. -/
def executedBid (f : Fill) (matchNumber : UInt64) (tsc : Timestamp) : OutboundMessage :=
  { executed f matchNumber tsc with orderId := f.bidId, clientId := f.bidClient }

/-- The report to the seller. -/
def executedAsk (f : Fill) (matchNumber : UInt64) (tsc : Timestamp) : OutboundMessage :=
  { executed f matchNumber tsc with orderId := f.askId, clientId := f.askClient }

/-- The loop of `emit_fills(tsc)`: the messages, and `match_number_` after it. -/
def emitFills (tsc : Timestamp) : List Fill → UInt64 → List OutboundMessage × UInt64
  | [], n => ([], n)
  | f :: fs, n =>
    let (out, n') := emitFills tsc fs (n + 1)
    (executedBid f n tsc :: executedAsk f n tsc :: out, n')

namespace MatchingEngine

variable {cap : ℕ}

/-- `MatchingEngine(in, out)`. -/
def new (cap : ℕ) : MatchingEngine cap := ⟨OrderBook.new cap, 1, 1⟩

/-- `process(msg)`, when the counter reads `tsc`: the engine after it, and the messages
pushed. -/
def process (e : MatchingEngine cap) (tsc : Timestamp) (msg : InboundMessage) :
    Option (MatchingEngine cap × List OutboundMessage) :=
  if msg.type = .newOrder then do
    let id := e.nextId
    let (book, accepted) ←
      e.book.clearFills.addOrder id msg.clientId msg.side msg.orderType msg.price
        msg.quantity msg.recvTsc
    let e := { e with nextId := e.nextId + 1, book := book }
    if accepted then
      let (out, n) := emitFills tsc book.fills e.matchNumber
      return ({ e with matchNumber := n }, emitAccept msg.clientId id tsc :: out)
    else return (e, [emitReject msg.clientId id 1 tsc])
  else if msg.type = .cancelOrder then do
    let (book, canceled) ← e.book.cancelOrder msg.orderId
    let e := { e with book := book }
    if canceled then return (e, [emitCancel msg.clientId msg.orderId tsc])
    else return (e, [emitReject msg.clientId msg.orderId 2 tsc])
  else if msg.type = .modifyOrder then do
    let (book, accepted) ← e.book.clearFills.modifyOrder msg.orderId msg.price
      msg.quantity msg.recvTsc
    let e := { e with book := book }
    if accepted then
      let (out, n) := emitFills tsc book.fills e.matchNumber
      return ({ e with matchNumber := n }, emitAccept msg.clientId msg.orderId tsc :: out)
    else return (e, [emitReject msg.clientId msg.orderId 3 tsc])
  else some (e, [])

/-- Process messages in order, each with the counter's reading: the responses to each. -/
def run (e : MatchingEngine cap) : List (Timestamp × InboundMessage) →
    Option (MatchingEngine cap × List (List OutboundMessage))
  | [] => some (e, [])
  | (tsc, msg) :: msgs => do
    let (e, out) ← e.process tsc msg
    let (e, outs) ← e.run msgs
    return (e, out :: outs)

end MatchingEngine

end TradeFeed
