import TradeFeed.Engine.MatchingEngine
import TradeFeed.Lib.Bytes

/-!
# The wire format

`struct WireMessage` (`sbe_messages.h`): 32 packed bytes, with its numbers lowest byte first
as the processor stores them. Every 32 bytes are a message, and every message is 32 bytes
(`bytes_ofBytes`, `ofBytes_bytes`); there is no check to fail.

`WireMessage.inbound` and `OutboundMessage.wire` are the gateway's two conversions.
-/

namespace TradeFeed

open Lib.Bytes

/-- `sizeof(WireMessage)`. -/
def wireMsgSize : ℕ := 32

/-- `struct WireMessage`. -/
structure WireMessage where
  /-- A message type, as its byte. -/
  type : UInt8
  /-- A side. -/
  side : UInt8
  /-- An order type. -/
  orderType : UInt8
  /-- Not used. -/
  pad : UInt8
  /-- The client. -/
  clientId : ClientId
  /-- The order. -/
  orderId : OrderId
  /-- The price. -/
  price : Price
  /-- The quantity. -/
  quantity : Quantity
  /-- A reading of the time stamp counter. -/
  timestamp : Timestamp
  deriving DecidableEq

namespace WireMessage

/-- The bytes of a message, as `memcpy` and `send` see them. -/
def bytes (w : WireMessage) : List UInt8 :=
  [w.type, w.side, w.orderType, w.pad] ++ toLE 4 w.clientId.toNat ++ toLE 8 w.orderId.toNat ++
    toLE 4 w.price.toNat ++
    toLE 4 w.quantity.toNat ++ toLE 8 w.timestamp.toNat

/-- The number in the `k` bytes at an offset. -/
def field (bs : List UInt8) (offset k : ℕ) : ℕ := ofLE ((bs.drop offset).take k)

/-- `memcpy(&wire, buf, WIRE_MSG_SIZE)`. -/
def ofBytes (bs : List UInt8) : WireMessage where
  type := bs.getD 0 0
  side := bs.getD 1 0
  orderType := bs.getD 2 0
  pad := bs.getD 3 0
  clientId := UInt32.ofNat (field bs 4 4)
  orderId := UInt64.ofNat (field bs 8 8)
  price := UInt32.ofNat (field bs 16 4)
  quantity := UInt32.ofNat (field bs 20 4)
  timestamp := UInt64.ofNat (field bs 24 8)

@[simp] theorem length_bytes (w : WireMessage) : w.bytes.length = wireMsgSize := by
  simp [bytes, wireMsgSize]

/-- Bytes between others. -/
theorem field_append {pre post : List UInt8} {offset k n : ℕ} (hpre : pre.length = offset)
    (hn : n < 256 ^ k) :
    field (pre ++ toLE k n ++ post) offset k = n := by
  rw [field, List.append_assoc, ← hpre, List.drop_left, List.take_left' (length_toLE k n),
    ofLE_toLE, Nat.mod_eq_of_lt hn]

theorem field_u32 {pre post : List UInt8} {offset : ℕ} (hpre : pre.length = offset) (x : UInt32) :
    field (pre ++ toLE 4 x.toNat ++ post) offset 4 = x.toNat := field_append hpre x.toNat_lt

theorem field_u64 {pre post : List UInt8} {offset : ℕ} (hpre : pre.length = offset) (x : UInt64) :
    field (pre ++ toLE 8 x.toNat ++ post) offset 8 = x.toNat := field_append hpre x.toNat_lt

/-- **A message is read back as it was written.** -/
theorem ofBytes_bytes (w : WireMessage) : ofBytes w.bytes = w := by
  have hclient : field w.bytes 4 4 = w.clientId.toNat := by
    unfold bytes
    rw [List.append_assoc, List.append_assoc, List.append_assoc]
    exact field_u32 (by simp) _
  have horder : field w.bytes 8 8 = w.orderId.toNat := by
    unfold bytes
    rw [List.append_assoc, List.append_assoc]
    exact field_u64 (by simp) _
  have hprice : field w.bytes 16 4 = w.price.toNat := by
    unfold bytes
    rw [List.append_assoc]
    exact field_u32 (by simp) _
  have hquantity : field w.bytes 20 4 = w.quantity.toNat := field_u32 (by simp) _
  have htimestamp : field w.bytes 24 8 = w.timestamp.toNat := by
    unfold bytes
    rw [← List.append_nil (_ ++ toLE 8 _)]
    exact field_u64 (by simp) _
  unfold ofBytes
  rw [hclient, horder, hprice, hquantity, htimestamp]
  simp [bytes]

theorem field_lt (bs : List UInt8) (offset k : ℕ) : field bs offset k < 256 ^ k :=
  Nat.lt_of_lt_of_le (ofLE_lt _) (Nat.pow_le_pow_right (by decide) (List.length_take_le _ _))

theorem toLE_field {bs : List UInt8} {offset k : ℕ} (h : offset + k ≤ bs.length) :
    toLE k (field bs offset k) = (bs.drop offset).take k := by
  have hlen : ((bs.drop offset).take k).length = k := by
    rw [List.length_take, List.length_drop]
    omega
  have hread := toLE_ofLE ((bs.drop offset).take k)
  rwa [hlen] at hread

/-- The first four bytes, one by one. -/
theorem take_four {bs : List UInt8} (h : 4 ≤ bs.length) :
    [bs.getD 0 0, bs.getD 1 0, bs.getD 2 0, bs.getD 3 0] = bs.take 4 := by
  rcases bs with - | ⟨b₀, - | ⟨b₁, - | ⟨b₂, - | ⟨b₃, bs⟩⟩⟩⟩
  · simp at h
  · simp at h
  · simp at h
  · simp at h
  · rfl

/-- **Every frame is a message**: its bytes are read into it and written again. -/
theorem bytes_ofBytes {bs : List UInt8} (h : bs.length = wireMsgSize) :
    (ofBytes bs).bytes = bs := by
  have hlen : bs.length = 32 := h
  have h32 : ∀ offset, (UInt32.ofNat (field bs offset 4)).toNat = field bs offset 4 := fun offset =>
    UInt32.toNat_ofNat_of_lt' (field_lt bs offset 4)
  have h64 : ∀ offset, (UInt64.ofNat (field bs offset 8)).toNat = field bs offset 8 := fun offset =>
    UInt64.toNat_ofNat_of_lt' (field_lt bs offset 8)
  unfold ofBytes bytes
  rw [h32, h64, h32, h32, h64, take_four (by omega), toLE_field (by omega), toLE_field (by omega),
    toLE_field (by omega), toLE_field (by omega), toLE_field (by omega)]
  -- the fields stand side by side
  rw [← List.take_add, ← List.take_add, ← List.take_add, ← List.take_add, ← List.take_add,
    List.take_of_length_le (by omega)]

/-- The conversion in `read_client`, with the counter's reading. -/
def inbound (wire : WireMessage) (tsc : Timestamp) : InboundMessage where
  type := ⟨wire.type⟩
  side := ⟨wire.side⟩
  orderType := ⟨wire.orderType⟩
  clientId := wire.clientId
  orderId := wire.orderId
  price := wire.price
  quantity := wire.quantity
  recvTsc := tsc

end WireMessage

/-- The conversion in `drain_outbound`. -/
def OutboundMessage.wire (out : OutboundMessage) : WireMessage where
  type := out.type.byte
  side := 0
  orderType := 0
  pad := 0
  clientId := out.clientId
  orderId := out.orderId
  price := out.price
  quantity := out.quantity
  timestamp := out.engineTsc

end TradeFeed
