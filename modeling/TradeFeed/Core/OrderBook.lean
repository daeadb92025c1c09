import TradeFeed.Core.PriceBitset
import TradeFeed.Core.PriceLevel

/-!
# The order book

`OrderBook` (`order_book.h`, `order_book.cpp`): direct-indexed price levels, an
occupancy bitset and a cached best price for each side, a direct-mapped table from
the low 20 bits of an id to the order, and the pool. What the source keeps in pairs
(`bids_` and `asks_`, `bid_bits_` and `ask_bits_`, `best_bid_` and `best_ask_`) is
kept here by `BookSide`.

A function returns `none` where the source's behaviour is undefined (an index out of
range, a null front, a zero count of a zero word, an empty pool) and where a loop does
not end. A loop has fuel, more rounds than the arena has orders; that they are enough is
proved with the loop (`Core.Matching`), and so is that nothing is ever undefined.

The negation of `static_cast<int32_t>(fill_q)` wraps, as compiled.
-/

namespace TradeFeed

open Function (update)

/-- A side of the book. -/
inductive BookSide where
  /-- `bids_`. -/
  | bids
  /-- `asks_`. -/
  | asks
  deriving DecidableEq

/-- The other side. -/
def BookSide.opposite : BookSide → BookSide
  | .bids => .asks
  | .asks => .bids

/-- Where an order rests: every side byte but Buy's is taken for a seller's. -/
def Side.book (s : Side) : BookSide := if s = .buy then .bids else .asks

/-- `struct Fill`. -/
structure Fill where
  /-- The buyer's order. -/
  bidId : OrderId
  /-- The seller's order. -/
  askId : OrderId
  /-- The buyer. -/
  bidClient : ClientId
  /-- The seller. -/
  askClient : ClientId
  /-- The price. -/
  price : Price
  /-- The quantity. -/
  quantity : Quantity
  deriving DecidableEq

/-- `class OrderBook`, with a pool of `cap` orders. -/
structure OrderBook (cap : ℕ) where
  /-- `bids_` and `asks_`. -/
  levels : BookSide → Fin priceLevels → PriceLevel cap
  /-- `order_table_`. -/
  orderTable : Fin maxOrders → Option (Fin cap)
  /-- `pool_`. -/
  pool : OrderPool cap
  /-- `bid_bits_` and `ask_bits_`. -/
  bits : BookSide → PriceBitset
  /-- `best_bid_` and `best_ask_`. -/
  best : BookSide → Price
  /-- `match_count_`. -/
  matchCount : UInt64
  /-- `fills_`. -/
  fills : List Fill
  /-- `scan_calls_`. -/
  scanCalls : UInt64

/-- The best price of a side without orders. -/
def BookSide.noPrice : BookSide → Price
  | .bids => invalidPrice
  | .asks => maxPrice + 1

/-- `idx(p)`, computed in 32 bits. -/
def idx (p : Price) : ℕ := (p - minPrice).toNat

/-- The level of a price: undefined outside the range. -/
def levelOf (p : Price) : Option (Fin priceLevels) := index priceLevels (idx p)

/-- `id & ORDER_MASK`. -/
def slot (id : OrderId) : Fin maxOrders :=
  ⟨id.toNat &&& orderMask, Nat.lt_of_le_of_lt Nat.and_le_right (by decide)⟩

namespace OrderBook

variable {cap : ℕ}

/-- `OrderBook(pool_capacity)`. -/
def new (cap : ℕ) : OrderBook cap where
  levels := fun _ _ => PriceLevel.new
  orderTable := fun _ => none
  pool := OrderPool.new cap
  bits := fun _ => PriceBitset.new
  best := BookSide.noPrice
  matchCount := 0
  fills := []
  scanCalls := 0

/-- The order at a pointer. -/
def order (b : OrderBook cap) (p : Fin cap) : Order cap := b.pool.arena p

/-- Replace the arena. -/
def setArena (b : OrderBook cap) (m : Arena cap) : OrderBook cap :=
  { b with pool := { b.pool with arena := m } }

/-- Replace a level. -/
def setLevel (b : OrderBook cap) (s : BookSide) (i : Fin priceLevels) (l : PriceLevel cap) :
    OrderBook cap :=
  { b with levels := update b.levels s (update (b.levels s) i l) }

theorem setLevel_levels (b : OrderBook cap) (s s' : BookSide) (i i' : Fin priceLevels)
    (l : PriceLevel cap) :
    (b.setLevel s i l).levels s' i' = if s' = s ∧ i' = i then l else b.levels s' i' := by
  by_cases hs : s' = s
  · subst hs
    by_cases hi : i' = i <;> simp [setLevel, hi]
  · simp [setLevel, hs]

/-- Write to an order. -/
def writeOrder (b : OrderBook cap) (p : Fin cap) (f : Order cap → Order cap) : OrderBook cap :=
  b.setArena (b.pool.arena.modify p f)

/-- `lookup(id)`. -/
def lookup (b : OrderBook cap) (id : OrderId) : Option (Fin cap) :=
  match b.orderTable (slot id) with
  | some o => if (b.order o).id = id then some o else none
  | none => none

/-- `reg(o)`. -/
def reg (b : OrderBook cap) (o : Fin cap) : OrderBook cap :=
  { b with orderTable := update b.orderTable (slot (b.order o).id) (some o) }

/-- `unreg(o)`. -/
def unreg (b : OrderBook cap) (o : Fin cap) : OrderBook cap :=
  { b with orderTable := update b.orderTable (slot (b.order o).id) none }

/-- `pool_.deallocate(o)`. -/
def deallocate (b : OrderBook cap) (o : Fin cap) : OrderBook cap :=
  { b with pool := b.pool.deallocate o }

/-- `push(o)` on a level. -/
def pushLevel (b : OrderBook cap) (s : BookSide) (i : Fin priceLevels) (o : Fin cap) :
    OrderBook cap :=
  (b.setArena (PriceLevel.push b.pool.arena (b.levels s i) o).1).setLevel s i
    (PriceLevel.push b.pool.arena (b.levels s i) o).2

/-- `remove(o)` on a level. -/
def removeLevel (b : OrderBook cap) (s : BookSide) (i : Fin priceLevels) (o : Fin cap) :
    OrderBook cap :=
  (b.setArena (PriceLevel.remove b.pool.arena (b.levels s i) o).1).setLevel s i
    (PriceLevel.remove b.pool.arena (b.levels s i) o).2

/-- `bid_bits_.set(i)`, `ask_bits_.set(i)`. -/
def setBit (b : OrderBook cap) (s : BookSide) (i : Fin priceLevels) : OrderBook cap :=
  { b with bits := update b.bits s ((b.bits s).set i) }

/-- `bid_bits_.clear(i)`, `ask_bits_.clear(i)`. -/
def clearBit (b : OrderBook cap) (s : BookSide) (i : Fin priceLevels) : OrderBook cap :=
  { b with bits := update b.bits s ((b.bits s).clear i) }

/-- Replace a best price. -/
def setBest (b : OrderBook cap) (s : BookSide) (p : Price) : OrderBook cap :=
  { b with best := update b.best s p }

/-- `clear_fills()`. -/
def clearFills (b : OrderBook cap) : OrderBook cap := { b with fills := [] }

/-- The price `scan_best_bid` and `scan_best_ask` make of a bitset's answer. -/
def scanned (s : BookSide) : Option ℕ → Price
  | none => s.noPrice
  | some i => UInt32.ofNat (i + minPrice.toNat)

/-- `scan_best_bid()`. -/
def scanBestBid (b : OrderBook cap) : Option (OrderBook cap) := do
  let i ← (b.bits .bids).highest
  return { b with scanCalls := b.scanCalls + 1 }.setBest .bids (scanned .bids i)

/-- `scan_best_ask()`. -/
def scanBestAsk (b : OrderBook cap) : Option (OrderBook cap) := do
  let i ← (b.bits .asks).lowest
  return { b with scanCalls := b.scanCalls + 1 }.setBest .asks (scanned .asks i)

/-- `scan_best_bid()` or `scan_best_ask()`. -/
def scanBest (b : OrderBook cap) : BookSide → Option (OrderBook cap)
  | .bids => b.scanBestBid
  | .asks => b.scanBestAsk

/-! ### Matching -/

/-- The record of a trade. -/
def mkFill (aggressorSide : Side) (aggressor resting : Order cap) (q : Quantity) : Fill :=
  if aggressorSide = .buy then
    ⟨aggressor.id, resting.id, aggressor.clientId, resting.clientId, resting.price, q⟩
  else
    ⟨resting.id, aggressor.id, resting.clientId, aggressor.clientId, resting.price, q⟩

/-- The body of `drain_level`'s loop up to the recording of the fill: both orders and
the level's total are filled by the lesser of what remains of the two. -/
def tradeWith (b : OrderBook cap) (s : BookSide) (i : Fin priceLevels) (aggressor resting : Fin cap)
    (aggressorSide : Side) : OrderBook cap :=
  let fillQ := min (b.order aggressor).remaining (b.order resting).remaining
  let b := b.writeOrder aggressor fun o => o.fill fillQ
  let b := b.writeOrder resting fun o => o.fill fillQ
  let b := b.setLevel s i ((b.levels s i).adjustQty (-fillQ.toInt32))
  { b with
    fills := b.fills ++ [mkFill aggressorSide (b.order aggressor) (b.order resting) fillQ]
    matchCount := b.matchCount + 1 }

/-- The end of the loop's body: a filled order is unlinked, unregistered and freed. -/
def retire (b : OrderBook cap) (s : BookSide) (i : Fin priceLevels) (resting : Fin cap) :
    OrderBook cap :=
  if (b.order resting).isFilled then
    let b := b.removeLevel s i resting
    let b := b.unreg resting
    b.deallocate resting
  else b

/-- `drain_level(level, aggressor, aggressor_side)`, where the level is that of side `s`
and index `i`. -/
def drainLevel (s : BookSide) (i : Fin priceLevels) (aggressor : Fin cap) (aggressorSide : Side) :
    ℕ → OrderBook cap → Option (OrderBook cap)
  | 0, _ => none
  | fuel + 1, b =>
    if !(b.levels s i).empty && !(b.order aggressor).isFilled then do
      let resting ← (b.levels s i).front
      let b := b.tradeWith s i aggressor resting aggressorSide
      let b := b.retire s i resting
      drainLevel s i aggressor aggressorSide fuel b
    else some b

/-- The four loops of `match_limit` and `match_market`: while the aggressor has something
left and the best price of side `s` is acceptable, drain the best level, and if it is
empty then clear its bit and scan for the next. -/
def matchWhile (s : BookSide) (aggressorSide : Side) (accept : Price → Bool) (aggressor : Fin cap) :
    ℕ → OrderBook cap → Option (OrderBook cap)
  | 0, _ => none
  | fuel + 1, b =>
    if !(b.order aggressor).isFilled && accept (b.best s) then do
      let i ← levelOf (b.best s)
      let b ← b.drainLevel s i aggressor aggressorSide (cap + 1)
      let b ← if (b.levels s i).empty then (b.clearBit s i).scanBest s else some b
      matchWhile s aggressorSide accept aggressor fuel b
    else some b

/-- `match_limit(aggressor)`. -/
def matchLimit (b : OrderBook cap) (aggressor : Fin cap) : Option (OrderBook cap) :=
  let price := (b.order aggressor).price
  if (b.order aggressor).side = .buy then
    b.matchWhile .asks .buy (fun best => decide (best ≤ price) && decide (best ≤ maxPrice))
      aggressor (cap + 1)
  else
    b.matchWhile .bids .sell (fun best => decide (best ≥ price) && decide (best ≠ invalidPrice))
      aggressor (cap + 1)

/-- `match_market(aggressor)`. -/
def matchMarket (b : OrderBook cap) (aggressor : Fin cap) : Option (OrderBook cap) :=
  if (b.order aggressor).side = .buy then
    b.matchWhile .asks .buy (fun best => decide (best ≤ maxPrice)) aggressor (cap + 1)
  else
    b.matchWhile .bids .sell (fun best => decide (best ≠ invalidPrice)) aggressor (cap + 1)

/-! ### The operations -/

/-- The price `p` improves on the best price of side `s`. -/
def improves (s : BookSide) (p best : Price) : Bool :=
  match s with
  | .bids => decide (p > best)
  | .asks => decide (p < best)

/-- The end of `add_order` for an order that rests: link it at its price, and set the
bit and the best price. -/
def rest (b : OrderBook cap) (s : BookSide) (price : Price) (o : Fin cap) :
    Option (OrderBook cap) := do
  let i ← levelOf price
  let b := if (b.levels s i).empty then b.setBit s i else b
  let b := b.pushLevel s i o
  return if improves s price (b.best s) then b.setBest s price else b

/-- The order `add_order` writes into the slot it was given. -/
def incoming (id : OrderId) (client : ClientId) (side : Side) (type : OrderType) (price : Price)
    (qty : Quantity) (ts : Timestamp) : Order cap where
  id := id
  clientId := client
  price := price
  quantity := qty
  filledQty := 0
  side := side
  type := type
  timestamp := ts
  prev := none
  next := none

/-- A limit order at a price outside the range. -/
def badPrice (type : OrderType) (price : Price) : Bool :=
  type = .limit && (decide (price < minPrice) || decide (price > maxPrice))

/-- `add_order(id, client, side, type, price, qty, ts)`. -/
def addOrder (b : OrderBook cap) (id : OrderId) (client : ClientId) (side : Side) (type : OrderType)
    (price : Price) (qty : Quantity) (ts : Timestamp) : Option (OrderBook cap × Bool) :=
  if b.pool.available = 0 then some (b, false)
  else if badPrice type price then some (b, false)
  else do
    let (o, pool) ← b.pool.allocate
    let b := { b with pool := pool }
    let b := b.writeOrder o fun _ => incoming id client side type price qty ts
    let b := b.reg o
    let b ← if type = .market then b.matchMarket o else b.matchLimit o
    if !(b.order o).isFilled && type = .limit then
      let b ← b.rest side.book price o
      return (b, true)
    else
      return ((b.unreg o).deallocate o, true)

/-- The book with an order just taken from the pool, written and registered. -/
def held (b : OrderBook cap) (o : Fin cap) (rest : List (Fin cap)) (new : Order cap) :
    OrderBook cap :=
  (({ b with pool := { b.pool with freeList := rest } } : OrderBook cap).writeOrder o
    fun _ => new).reg o

/-- The end of `add_order`, when matching is done. -/
def settle (b : OrderBook cap) (side : Side) (type : OrderType) (price : Price) (o : Fin cap) :
    Option (OrderBook cap × Bool) :=
  if !(b.order o).isFilled && type = .limit then (b.rest side.book price o).map fun b => (b, true)
  else some ((b.unreg o).deallocate o, true)

/-- A refused order changes nothing. -/
theorem addOrder_refused (b : OrderBook cap) (id : OrderId) (client : ClientId) (side : Side)
    (type : OrderType) (price : Price) (qty : Quantity) (ts : Timestamp)
    (h : b.pool.available = 0 ∨ badPrice type price = true) :
    b.addOrder id client side type price qty ts = some (b, false) := by
  rcases h with h | h <;> simp [addOrder, h]

/-- An order that is not refused is matched, and settled. -/
theorem addOrder_eq {b : OrderBook cap} {o : Fin cap} {rest : List (Fin cap)}
    (hf : b.pool.freeList = o :: rest) (id : OrderId) (client : ClientId) (side : Side)
    {type : OrderType} {price : Price} (qty : Quantity) (ts : Timestamp)
    (hbad : badPrice type price = false) :
    b.addOrder id client side type price qty ts =
      (if type = .market
        then (b.held o rest (incoming id client side type price qty ts)).matchMarket o
        else (b.held o rest (incoming id client side type price qty ts)).matchLimit o).bind
        fun b => b.settle side type price o := by
  have hav : b.pool.available ≠ 0 := by simp [OrderPool.available, hf]
  have hsettle : ∀ b : OrderBook cap,
      (if !(b.order o).isFilled && type = .limit then
        (b.rest side.book price o).bind fun b => some (b, true)
      else some ((b.unreg o).deallocate o, true)) = b.settle side type price o := fun b => by
    rw [settle, Option.map_eq_bind]
    rfl
  simp only [addOrder, if_neg hav, hbad, Bool.false_eq_true, if_false, OrderPool.allocate, hf,
    Option.bind_eq_bind, Option.bind_some, Option.pure_def, hsettle, held]
  split_ifs <;> rfl

/-- `cancel_order(id)`. -/
def cancelOrder (b : OrderBook cap) (id : OrderId) : Option (OrderBook cap × Bool) :=
  match b.lookup id with
  | none => some (b, false)
  | some o => do
    let p := (b.order o).price
    let s := (b.order o).side.book
    let i ← levelOf p
    let b := b.removeLevel s i o
    let b ← if (b.levels s i).empty then
        let b := b.clearBit s i
        if p = b.best s then b.scanBest s else some b
      else some b
    return ((b.unreg o).deallocate o, true)

/-- `modify_order(id, new_price, new_qty, ts)`. -/
def modifyOrder (b : OrderBook cap) (id : OrderId) (newPrice : Price) (newQty : Quantity)
    (ts : Timestamp) : Option (OrderBook cap × Bool) :=
  match b.lookup id with
  | none => some (b, false)
  | some o => do
    let side := (b.order o).side
    let client := (b.order o).clientId
    let (b, _) ← b.cancelOrder id
    b.addOrder id client side .limit newPrice newQty ts

/-! ### Observers -/

/-- `best_bid()`. -/
def bestBid (b : OrderBook cap) : Price := b.best .bids

/-- `best_ask()`. -/
def bestAsk (b : OrderBook cap) : Price := b.best .asks

/-- `bid_qty_at(p)`. -/
def bidQtyAt (b : OrderBook cap) (p : Price) : Option Quantity := do
  let i ← levelOf p
  return (b.levels .bids i).totalQty

/-- `ask_qty_at(p)`. -/
def askQtyAt (b : OrderBook cap) (p : Price) : Option Quantity := do
  let i ← levelOf p
  return (b.levels .asks i).totalQty

/-- `active_orders()`. -/
def activeOrders (b : OrderBook cap) : ℕ := b.pool.capacity - b.pool.available

/-- The first loop of `validate_bbo`, over the `n` lowest prices from the top. -/
def topBid (b : OrderBook cap) : ℕ → Option Price
  | 0 => some invalidPrice
  | n + 1 => do
    let i ← index priceLevels n
    if !(b.levels .bids i).empty then return UInt32.ofNat (n + minPrice.toNat) else b.topBid n

/-- The second loop, over the `n` highest prices from the bottom. -/
def bottomAsk (b : OrderBook cap) : ℕ → Option Price
  | 0 => some (maxPrice + 1)
  | n + 1 => do
    let i ← index priceLevels (priceLevels - (n + 1))
    if !(b.levels .asks i).empty then return UInt32.ofNat (i.val + minPrice.toNat)
      else b.bottomAsk n

/-- `validate_bbo()`. -/
def validateBbo (b : OrderBook cap) : Option Bool := do
  let bb ← b.topBid priceLevels
  let ba ← b.bottomAsk priceLevels
  return bb = b.bestBid && ba = b.bestAsk

/-- `BookAnalytics::spread`, a 32-bit subtraction. -/
def spread (b : OrderBook cap) : Price :=
  if b.bestBid = invalidPrice || b.bestAsk > maxPrice then 0 else b.bestAsk - b.bestBid

end OrderBook

end TradeFeed
