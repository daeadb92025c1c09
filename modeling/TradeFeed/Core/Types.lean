import Mathlib.Data.UInt
import Mathlib.Logic.Function.Basic

/-!
# Prices, orders and memory

The types of the engine (`types.h`): prices in integer cents, quantities, ids,
the byte-wide enumerations, and the order record that lives in the pool's arena
and carries the pointers of the list it is linked into.

A pointer is an index into the arena, so a pointer to something outside it cannot
be built; a null pointer is `none`. An enumeration is its byte: nothing stops a
client from sending a value that has no name, and the engine does not check.
-/

namespace TradeFeed

/-- Integer cents. -/
abbrev Price := UInt32

/-- A number of shares. -/
abbrev Quantity := UInt32

/-- An order's id. -/
abbrev OrderId := UInt64

/-- A client's id. -/
abbrev ClientId := UInt32

/-- A time stamp counter's reading. -/
abbrev Timestamp := UInt64

/-- `INVALID_PRICE`. -/
def invalidPrice : Price := 0

/-- `MIN_PRICE`. -/
def minPrice : Price := 1

/-- `MAX_PRICE`. -/
def maxPrice : Price := 1000000

/-- `PRICE_LEVELS = MAX_PRICE - MIN_PRICE + 1`. -/
def priceLevels : ℕ := maxPrice.toNat - minPrice.toNat + 1

/-- `MAX_ORDERS`. -/
def maxOrders : ℕ := 1 <<< 20

/-- `ORDER_MASK`. -/
def orderMask : ℕ := maxOrders - 1

/-- `RING_SIZE`. -/
def ringSize : ℕ := 1 <<< 18

theorem priceLevels_eq : priceLevels = 1000000 := rfl

theorem maxOrders_eq : maxOrders = 1048576 := rfl

theorem toNat_min (a b : UInt32) : (min a b).toNat = min a.toNat b.toNat := by
  show (if a ≤ b then a else b).toNat = _
  by_cases h : a ≤ b
  · rw [if_pos h, Nat.min_eq_left (UInt32.le_iff_toNat_le.mp h)]
  · rw [if_neg h, Nat.min_eq_right]
    rw [UInt32.le_iff_toNat_le] at h
    omega

/-- `enum class Side : uint8_t`. -/
structure Side where
  /-- The byte. -/
  byte : UInt8
  deriving DecidableEq

/-- `Side::Buy`. -/
def Side.buy : Side := ⟨0⟩

/-- `Side::Sell`. -/
def Side.sell : Side := ⟨1⟩

/-- `enum class OrderType : uint8_t`. -/
structure OrderType where
  /-- The byte. -/
  byte : UInt8
  deriving DecidableEq

/-- `OrderType::Limit`. -/
def OrderType.limit : OrderType := ⟨0⟩

/-- `OrderType::Market`. -/
def OrderType.market : OrderType := ⟨1⟩

/-- An array access: the index is in range, or the access is undefined. -/
def index (n i : ℕ) : Option (Fin n) := if h : i < n then some ⟨i, h⟩ else none

@[simp] theorem index_of_lt {n i : ℕ} (h : i < n) : index n i = some ⟨i, h⟩ := by simp [index, h]

/-! ### Orders -/

/-- `struct Order`, in an arena of `cap` orders. -/
@[ext]
structure Order (cap : ℕ) where
  /-- The limit price. -/
  price : Price
  /-- The quantity ordered. -/
  quantity : Quantity
  /-- How much of it is filled. -/
  filledQty : Quantity
  /-- The side. -/
  side : Side
  /-- The type. -/
  type : OrderType
  /-- The order before it at its price level. -/
  prev : Option (Fin cap)
  /-- The order after it at its price level. -/
  next : Option (Fin cap)
  /-- The id. -/
  id : OrderId
  /-- The client that sent it. -/
  clientId : ClientId
  /-- When it was received. -/
  timestamp : Timestamp

namespace Order

variable {cap : ℕ}

/-- A value-initialised order, as the arena's vector makes them. -/
def zero : Order cap := ⟨0, 0, 0, ⟨0⟩, ⟨0⟩, none, none, 0, 0, 0⟩

/-- `remaining()`. -/
def remaining (o : Order cap) : Quantity := o.quantity - o.filledQty

/-- `is_filled()`. -/
def isFilled (o : Order cap) : Bool := decide (o.filledQty ≥ o.quantity)

/-- `fill(q)`. -/
def fill (o : Order cap) (q : Quantity) : Order cap := { o with filledQty := o.filledQty + q }

/-- An order without its links: what it is, wherever it is linked. -/
def bare (o : Order cap) : Order cap := { o with prev := none, next := none }

@[simp] theorem bare_bare (o : Order cap) : o.bare.bare = o.bare := rfl

/-- Without its links and by its links, an order is known. -/
theorem eq_of_bare {o o' : Order cap} (h : o.bare = o'.bare) (hp : o.prev = o'.prev)
    (hn : o.next = o'.next) :
    o = o' := by
  calc
    o = { o.bare with prev := o.prev, next := o.next } := rfl
    _ = { o'.bare with prev := o'.prev, next := o'.next } := by rw [h, hp, hn]
    _ = o' := rfl

@[simp] theorem bare_remaining (o : Order cap) : o.bare.remaining = o.remaining := rfl

@[simp] theorem bare_isFilled (o : Order cap) : o.bare.isFilled = o.isFilled := rfl

theorem bare_fill (o : Order cap) (q : Quantity) : (o.fill q).bare = o.bare.fill q := rfl

/-- An order that was never filled beyond its quantity has exactly the rest left. -/
theorem remaining_toNat {o : Order cap} (h : o.filledQty ≤ o.quantity) :
    o.remaining.toNat = o.quantity.toNat - o.filledQty.toNat :=
  UInt32.toNat_sub_of_le _ _ h

theorem isFilled_iff {o : Order cap} (h : o.filledQty ≤ o.quantity) :
    o.isFilled = true ↔ o.remaining.toNat = 0 := by
  rw [remaining_toNat h, isFilled, decide_eq_true_eq, ge_iff_le, UInt32.le_iff_toNat_le]
  rw [UInt32.le_iff_toNat_le] at h
  omega

/-- Filling no more than remains takes it off what remains. -/
theorem fill_remaining {o : Order cap} {q : Quantity} (hq : q ≤ o.remaining) :
    (o.fill q).remaining.toNat = o.remaining.toNat - q.toNat := by
  have : (o.fill q).remaining = o.remaining - q := by
    simp only [fill, remaining, UInt32.sub_eq_add_neg, UInt32.neg_add, UInt32.add_assoc]
  rw [this, UInt32.toNat_sub_of_le _ _ hq]

/-- Filling no more than remains does not fill beyond the quantity. -/
theorem fill_le {o : Order cap} {q : Quantity} (h : o.filledQty ≤ o.quantity)
    (hq : q ≤ o.remaining) :
    (o.fill q).filledQty ≤ (o.fill q).quantity := by
  have hr := remaining_toNat h
  rw [UInt32.le_iff_toNat_le] at *
  simp only [fill, UInt32.toNat_add]
  have := o.quantity.toNat_lt
  omega

end Order

/-- The orders of the pool, by pointer. -/
abbrev Arena (cap : ℕ) := Fin cap → Order cap

/-- Change the order at a pointer. -/
def Arena.modify {cap : ℕ} (m : Arena cap) (p : Fin cap) (f : Order cap → Order cap) : Arena cap :=
  Function.update m p (f (m p))

@[simp] theorem Arena.modify_self {cap : ℕ} (m : Arena cap) (p : Fin cap)
    (f : Order cap → Order cap) :
    m.modify p f p = f (m p) := by simp [modify]

@[simp] theorem Arena.modify_of_ne {cap : ℕ} (m : Arena cap) {p c : Fin cap} (h : c ≠ p)
    (f : Order cap → Order cap) : m.modify p f c = m c := by simp [modify, h]

theorem Arena.modify_apply {cap : ℕ} (m : Arena cap) (p c : Fin cap) (f : Order cap → Order cap) :
    m.modify p f c = if c = p then f (m c) else m c := by
  by_cases h : c = p
  · subst h; simp
  · simp [h]

end TradeFeed
