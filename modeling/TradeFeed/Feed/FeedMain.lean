import Mathlib.Data.List.GetD
import TradeFeed.Codec.WireMessage
import TradeFeed.Feed.Normalizer

/-!
# The feed program

`feed_main.cpp`: records are captured or replayed, and orders made of them are sent to an
exchange. What the calls of `send` take is given by a function; the frames of a live session
are those that `read_frame` gives until it fails or the program is stopped, and the capture
file takes what is written to it. The pauses of a replay and what is printed are left out.

A capture file is read back as it was written (`records_capture`).
-/

namespace TradeFeed

open Lib.Bytes

/-! ### Capture files -/

/-- `sizeof(CaptureRecord)`. -/
def captureSize : ℕ := 32

namespace CaptureRecord

/-- The bytes of a record, as `fwrite` sees them. -/
def bytes (r : CaptureRecord) : List UInt8 :=
  r.type :: List.ofFn r.symbol ++ toLE 4 r.p1.toNat ++ toLE 4 r.s1.toNat ++ toLE 4 r.p2.toNat ++
    toLE 4 r.s2.toNat ++
    toLE 8 r.venueNs.toNat

/-- The record that `fread` makes of its bytes. -/
def ofBytes (bs : List UInt8) : CaptureRecord where
  type := bs.getD 0 0
  symbol i := bs.getD (1 + i) 0
  p1 := UInt32.ofNat (WireMessage.field bs 8 4)
  s1 := UInt32.ofNat (WireMessage.field bs 12 4)
  p2 := UInt32.ofNat (WireMessage.field bs 16 4)
  s2 := UInt32.ofNat (WireMessage.field bs 20 4)
  venueNs := UInt64.ofNat (WireMessage.field bs 24 8)

@[simp] theorem length_bytes (r : CaptureRecord) : r.bytes.length = captureSize := by
  simp [bytes, captureSize]

theorem symbol_bytes (r : CaptureRecord) (i : Fin 7) : r.bytes.getD (1 + i) 0 = r.symbol i := by
  unfold bytes
  simp only [List.append_assoc, List.cons_append]
  rw [Nat.add_comm, List.getD_cons_succ, List.getD_append _ _ _ _ (by simp),
    List.getD_eq_getElem _ _ (by simp), List.getElem_ofFn]

/-- **A record is read back as it was written.** -/
theorem ofBytes_bytes (r : CaptureRecord) : ofBytes r.bytes = r := by
  have hp1 : WireMessage.field r.bytes 8 4 = r.p1.toNat := by
    unfold bytes
    rw [List.append_assoc, List.append_assoc, List.append_assoc]
    exact WireMessage.field_u32 (by simp) _
  have hs1 : WireMessage.field r.bytes 12 4 = r.s1.toNat := by
    unfold bytes
    rw [List.append_assoc, List.append_assoc]
    exact WireMessage.field_u32 (by simp) _
  have hp2 : WireMessage.field r.bytes 16 4 = r.p2.toNat := by
    unfold bytes
    rw [List.append_assoc]
    exact WireMessage.field_u32 (by simp) _
  have hs2 : WireMessage.field r.bytes 20 4 = r.s2.toNat := WireMessage.field_u32 (by simp) _
  have hvenue : WireMessage.field r.bytes 24 8 = r.venueNs.toNat := by
    unfold bytes
    rw [← List.append_nil (_ ++ toLE 8 _)]
    exact WireMessage.field_u64 (by simp) _
  unfold ofBytes
  rw [hp1, hs1, hp2, hs2, hvenue]
  simp only [symbol_bytes]
  simp [bytes]

end CaptureRecord

/-- The records that `fread` finds in a file until it finds no whole one. -/
def records (file : List UInt8) : List CaptureRecord := (frames captureSize file).map .ofBytes

/-- **A capture is read back as it was written.** -/
theorem records_capture (rs : List CaptureRecord) :
    records (rs.flatMap CaptureRecord.bytes) = rs := by
  have hread : (CaptureRecord.ofBytes ∘ CaptureRecord.bytes) = id :=
    funext CaptureRecord.ofBytes_bytes
  rw [records, frames_flatMap (n := captureSize) (Nat.succ_pos 31) fun r _ => r.length_bytes,
    List.map_map, hread, List.map_id]

namespace Feed

/-! ### Orders -/

/-- The connection to the exchange, and what is kept between the calls of `emit_orders`. -/
structure Sender where
  /-- Whether there is a connection: `fd >= 0`. -/
  connected : Bool
  /-- The bytes sent. -/
  written : List UInt8
  /-- How often `send` was called. -/
  calls : ℕ
  /-- `buy`, the static variable. -/
  buy : Bool
  /-- `orders`: how many were sent. -/
  orders : UInt64

/-- The connection at first. -/
def Sender.new (connected : Bool) : Sender := ⟨connected, [], 0, true, 0⟩

/-- The loop of `send_wire`, when the calls of `send` take so many bytes at most, or fail with
0; every pass sends a byte or fails, so `fuel` bytes need as many. -/
def sendLoop (send : ℕ → ℕ) : ℕ → Sender → List UInt8 → Sender × Bool
  | 0, e, _ => (e, true)
  | fuel + 1, e, data =>
    if data = [] then (e, true)
    else
      let n := min (send e.calls) data.length
      let e := { e with calls := e.calls + 1 }
      if n = 0 then (e, false)
      else sendLoop send fuel { e with written := e.written ++ data.take n } (data.drop n)

/-- `send_wire(fd, w)`. -/
def sendWire (send : ℕ → ℕ) (e : Sender) (w : WireMessage) : Sender × Bool :=
  sendLoop send wireMsgSize e w.bytes

/-- `w` in `emit_orders`, with its side, price and quantity. -/
def orderWire (r : CaptureRecord) (client : ClientId) (side : Side) (price : Price)
    (quantity : Quantity) : WireMessage where
  type := MessageType.newOrder.byte
  side := side.byte
  orderType := OrderType.limit.byte
  pad := 0
  clientId := client
  orderId := 0
  price := price
  quantity := quantity
  timestamp := r.venueNs

/-- The quantity for a size in round lots. -/
def roundLots (s : UInt32) : Quantity := if s = 0 then 100 else s * 100

/-- The quantity for the size of a trade. -/
def tradeQuantity (s : UInt32) : Quantity := if s = 0 then 1 else s

/-- `emit_orders(fd, r, client)`: the connection after it, and how many orders were sent. -/
def emitOrders (send : ℕ → ℕ) (e : Sender) (r : CaptureRecord) (client : ClientId) : Sender × ℕ :=
  if r.type = quoteType then
    match sendWire send e (orderWire r client .buy r.p1 (roundLots r.s1)) with
    | (e, false) => (e, 0)
    | (e, true) =>
      match sendWire send e (orderWire r client .sell r.p2 (roundLots r.s2)) with
      | (e, false) => (e, 1)
      | (e, true) => (e, 2)
  else
    let e := { e with buy := !e.buy }
    match sendWire send e
      (orderWire r client (if e.buy then .buy else .sell) r.p1 (tradeQuantity r.s1)) with
    | (e, false) => (e, 0)
    | (e, true) => (e, 1)

/-- `if (fd >= 0) orders += emit_orders(fd, r, 1)`. -/
def Sender.offer (send : ℕ → ℕ) (e : Sender) (r : CaptureRecord) : Sender :=
  if e.connected then
    let (e, sent) := emitOrders send e r 1
    { e with orders := e.orders + UInt64.ofNat sent }
  else e

/-! ### Replays -/

/-- The variables of `run_replay`. -/
structure Replay where
  /-- The connection. -/
  sender : Sender
  /-- How many records were read. -/
  n : UInt64

/-- The loop of `run_replay`, over the records that `fread` finds. -/
def replayLoop (send : ℕ → ℕ) (limit : UInt64) (p : Replay) : List CaptureRecord → Replay
  | [] => p
  | r :: rs =>
    let p : Replay := ⟨p.sender.offer send r, p.n + 1⟩
    if limit ≠ 0 ∧ p.n ≥ limit then p else replayLoop send limit p rs

/-- `run_replay`, of a file with these bytes. -/
def runReplay (send : ℕ → ℕ) (connect : Bool) (limit : UInt64) (file : List UInt8) : Replay :=
  replayLoop send limit ⟨.new connect, 0⟩ (records file)

/-! ### Live sessions -/

/-- The variables of a live session that records change. -/
structure Recording where
  /-- Whether there is a capture file: `out` is not null. -/
  capturing : Bool
  /-- The bytes written to it. -/
  file : List UInt8
  /-- The connection. -/
  sender : Sender
  /-- `ticks`. -/
  ticks : UInt64

/-- The variables of a live session. -/
structure Live extends Recording where
  /-- `skipped`. -/
  skipped : UInt64

/-- A record is counted, written and made into orders. -/
def Recording.record (send : ℕ → ℕ) (s : Recording) (r : CaptureRecord) : Recording :=
  { s with
    ticks := s.ticks + 1
    file := if s.capturing then s.file ++ r.bytes else s.file
    sender := s.sender.offer send r }

/-- The function that `for_each_object` is given. -/
def Live.onObject (strtod : List UInt8 → ℚ) (send : ℕ → ℕ) (s : Live) (obj : List UInt8) : Live :=
  match normalize strtod obj .zero with
  | (false, _) => { s with skipped := s.skipped + 1 }
  | (true, r) => { s with toRecording := s.toRecording.record send r }

/-- The body of the live loop, before its `break`. -/
def Live.onFrame (strtod : List UInt8 → ℚ) (send : ℕ → ℕ) (s : Live) (frame : List UInt8) : Live :=
  (forEachObject frame).foldl (Live.onObject strtod send) s

/-- The live loop of `main`. -/
def liveLoop (strtod : List UInt8 → ℚ) (send : ℕ → ℕ) (limit : UInt64) (s : Live) :
    List (List UInt8) → Live
  | [] => s
  | frame :: frames =>
    let s := s.onFrame strtod send frame
    if limit ≠ 0 ∧ s.ticks ≥ limit then s else liveLoop strtod send limit s frames

/-- The live session of `main`, with or without `--capture` and `--connect`. -/
def runLive (strtod : List UInt8 → ℚ) (send : ℕ → ℕ) (capture connect : Bool) (limit : UInt64)
    (frames : List (List UInt8)) : Live :=
  liveLoop strtod send limit ⟨⟨capture, [], .new connect, 0⟩, 0⟩ frames

end Feed

end TradeFeed
