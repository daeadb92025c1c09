import TradeFeed.Core.MarketLimit

/-!
# Cancelling an order that just rested

An order whose price does not cross goes straight to the end of its queue
(`addOrder_passive`): it may open a level, set a bit on three tiers and become the new best
price. `cancel_order` then unlinks it, clears the bit if the level is empty again and
searches the bitset for the best price if it was the order's.

Nothing of this needs to be undone step by step. Cancelling leaves the orders that rested
before, and they determine the levels, the bitsets and the best prices (`sameSide`). The
total of a level is restored too when it has wrapped.
-/

namespace TradeFeed

open Function (update)
open Lib Lib.PriceTime
open OrderBook (badPrice incoming)

variable {cap : ℕ}

/-- The price does not cross the opposite side. -/
def OrderBook.Passive (b : OrderBook cap) (side : Side) (price : Price) : Prop :=
  if side = .buy then price < b.bestAsk else b.bestBid < price

instance (b : OrderBook cap) (side : Side) (price : Price) : Decidable (b.Passive side price) :=
  inferInstanceAs (Decidable (if side = .buy then price < b.bestAsk else b.bestBid < price))

/-- The book is as it was, but for the memory of free orders and the count of searches. -/
structure Restored (b b' : OrderBook cap) : Prop where
  /-- The levels: their heads, tails, totals and counts. -/
  levels : b'.levels = b.levels
  /-- The queues. -/
  queues : b'.queue = b.queue
  /-- The orders that rest, with their links. -/
  orders : ∀ s i, ∀ p ∈ b.queue s i, b'.order p = b.order p
  /-- The bitsets. -/
  bits : b'.bits = b.bits
  /-- The best prices. -/
  best : b'.best = b.best
  /-- The id table. -/
  table : b'.orderTable = b.orderTable
  /-- The free list. -/
  freeList : b'.pool.freeList = b.pool.freeList
  /-- The fills. -/
  fills : b'.fills = b.fills
  /-- The number of matches. -/
  matchCount : b'.matchCount = b.matchCount

section Undo

variable {b b₁ b₂ : OrderBook cap} {Q Q₁ Q₂ : Queues cap} {o : Fin cap} {rest : List (Fin cap)}
  {id : OrderId}
  {side : Side} {price : Price} {qty : Quantity}

/-- At a price that does not cross, `match_limit` stops at once. -/
theorem not_accepts_of_passive (h : b.Passive side price) :
    accepts side .limit price (b.best side.book.opposite) = false := by
  have hlm : OrderType.limit ≠ .market := by decide
  by_cases hb : side = .buy
  · simp only [OrderBook.Passive, hb, if_true] at h
    have hno : ¬ b.best .asks ≤ price := UInt32.not_le.mpr h
    simp [accepts, hb, hlm, Side.book, BookSide.opposite, hno]
  · simp only [OrderBook.Passive, hb, if_false] at h
    have hno : ¬ price ≤ b.best .bids := UInt32.not_le.mpr h
    simp [accepts, hb, hlm, Side.book, BookSide.opposite, hno]

/-- Two books are the same when they are on both sides and in the table and the free list. -/
theorem Restored.of_sameSide (hs : ∀ s, SameSide b b₁ s) (ht : b₁.orderTable = b.orderTable)
    (hf : b₁.pool.freeList = b.pool.freeList) (hfills : b₁.fills = b.fills)
    (hm : b₁.matchCount = b.matchCount) :
    Restored b b₁ where
  levels := funext fun s => (hs s).levels
  queues := funext fun s => (hs s).queue
  orders s := (hs s).orders
  bits := funext fun s => (hs s).bits
  best := funext fun s => (hs s).best
  table := ht
  freeList := hf
  fills := hfills
  matchCount := hm

/-- What an order that rests without trading does to the book. -/
structure Joined (b b₁ : OrderBook cap) (Q Q₁ : Queues cap) (o : Fin cap) (rest : List (Fin cap))
    (id : OrderId) :
    Prop where
  /-- The book is in order. -/
  inv : Inv b₁ Q₁
  /-- Without the order, the queues are the old ones. -/
  without : Q₁.without o = Q
  /-- The other orders are as they were, up to their links. -/
  others : ∀ p, p ≠ o → (b₁.order p).bare = (b.order p).bare
  /-- It is found under its id. -/
  found : b₁.lookup id = some o
  /-- Its slot of the table is taken. -/
  table : b₁.orderTable = update b.orderTable (slot id) (some o)
  /-- Its memory is not free any more. -/
  freeList : b₁.pool.freeList = rest
  /-- There are no fills. -/
  fills : b₁.fills = b.fills
  /-- There are no matches. -/
  matchCount : b₁.matchCount = b.matchCount

/-- **An order that does not cross** joins the end of its queue. -/
theorem addOrder_passive (h : Inv b Q) (hcap : cap < 2 ^ 32) (hf : b.pool.freeList = o :: rest)
    (hbad : badPrice .limit price = false) (hqty : 0 < qty) (hpass : b.Passive side price)
    (id : OrderId) (client : ClientId) (ts : Timestamp) :
    ∃ b₁ Q₁, b.addOrder id client side .limit price qty ts = some (b₁, true) ∧
      Joined b b₁ Q Q₁ o rest id := by
  set new : Order cap := incoming id client side .limit price qty ts with hnew
  have hroom : Room Q := room_of_cap h.core (by simp [hf]) hcap
  obtain ⟨i, hi⟩ := exists_level_of_limit hbad rfl
  have hc : Core (b.held o rest new) Q [o] := h.core.hold hf new
  have hord : (b.held o rest new).order o = new := by rw [Core.order_held, if_pos rfl]
  have hno : ∀ s i, o ∉ Q s i := fun s i hm => hc.ne_of_held (by simp) hm rfl
  have hindexed : Indexed (b.held o rest new) Q side.book := (h.indexed _).congr rfl rfl rfl
  obtain ⟨bits, hrest, -, -⟩ := rest_spec hc hindexed i
  -- nothing is matched, and all of the order rests
  have hmatch : (if OrderType.limit = .market then (b.held o rest new).matchMarket o
      else (b.held o rest new).matchLimit o) = some (b.held o rest new) := by
    have hside : ((b.held o rest new).order o).side = side := by rw [hord]; rfl
    have hpr : ((b.held o rest new).order o).price = price := by rw [hord]; rfl
    rw [match_eq _ hside hpr .limit, OrderBook.matchWhile,
      show (b.held o rest new).best = b.best from rfl, not_accepts_of_passive hpass, Bool.and_false]
    rfl
  have hunfilled : ((b.held o rest new).order o).isFilled = false := by
    rw [hord, Order.isFilled, decide_eq_false_iff_not, ge_iff_le, UInt32.not_le]
    exact hqty
  have hadd : b.addOrder id client side .limit price qty ts =
      ((b.held o rest new).rest side.book price o).map fun b => (b, true) := by
    rw [OrderBook.addOrder_eq hf id client side qty ts hbad, ← hnew, hmatch, Option.bind_some,
      OrderBook.settle, hunfilled]
    rfl
  rw [hi, hrest, ← hi] at hadd
  obtain ⟨b', Q', o', hadd', hacc⟩ :=
      addOrder_accepted h hroom id client side .limit price qty ts (by
    simp [OrderPool.available, hf]) hbad
  obtain rfl : _ = b' := congrArg Prod.fst (Option.some.inj (hadd.symm.trans hadd'))
  have hat : OrderAt ((b.held o rest new).order o) side.book i := by
    rw [hord]
    exact ⟨hi, rfl, rfl⟩
  have hjoin : Core ((b.held o rest new).pushLevel side.book i o)
      (Q.set side.book i (Q side.book i ++ [o])) [] :=
    hc.pushLevel (by simp) hat (hroom _ _)
  obtain rfl : Q.set side.book i (Q side.book i ++ [o]) = Q' := by
    rw [← hacc.inv.queue_eq]
    exact (hjoin.congr rfl rfl rfl).queue_eq.symm
  have hbare : ∀ p, (((b.held o rest new).pushLevel side.book i o).order p).bare =
      ((b.held o rest new).order p).bare :=
    fun p => Core.bare_pushLevel hc (hno _ _) p
  have htable : (b.held o rest new).orderTable = update b.orderTable (slot id) (some o) :=
    Core.orderTable_held b o rest new
  refine ⟨_, _, hadd, hacc.inv, ?_,
    fun p hp => ?_, lookup_eq_some.mpr ⟨?_, ?_⟩, htable, rfl, rfl, rfl⟩
  · have hq : Q.set side.book i (Q side.book i ++ [o]) side.book i = Q side.book i ++ o :: [] :=
      Queues.set_self ..
    rw [← Queues.set_without hacc.inv.core hq, List.append_nil, Queues.set_set, Queues.set_same]
  · apply (hbare p).trans
    rw [Core.order_held, if_neg hp]
  · show (b.held o rest new).orderTable (slot id) = some o
    rw [htable, Function.update_self]
  · apply (Core.id_of_bare (hbare o)).trans
    rw [hord]
    rfl

/-- **Cancelling it** gives the old book back. -/
theorem Joined.restored (h : Inv b Q) (hf : b.pool.freeList = o :: rest)
    (hslot : b.orderTable (slot id) = none) (hj : Joined b b₁ Q Q₁ o rest id) :
    ∃ b₂, b₁.cancelOrder id = some (b₂, true) ∧ Restored b b₂ := by
  obtain ⟨b₂, hcancel, hleft⟩ := cancelOrder_found hj.inv hj.found
  have htable := cancelOrder_table hj.inv hj.found hcancel
  have hinv : Inv b₂ Q := hj.without ▸ hleft.inv
  refine ⟨b₂, hcancel, Restored.of_sameSide (fun s => sameSide h hinv fun i => ?_) ?_ ?_ ?_ ?_⟩
  · refine List.map_congr_left fun p hp => congrArg (Prod.mk p) ?_
    exact (hleft.others p (h.ne_of_free hf hp)).trans (hj.others p (h.ne_of_free hf hp))
  · rw [htable, hj.table, Function.update_idem, ← hslot, Function.update_eq_self]
  · rw [hleft.freed, hj.freeList, hf]
  · rw [hleft.fills, hj.fills]
  · rw [hleft.matchCount, hj.matchCount]

end Undo

/-- **Cancelling an order that just rested restores the book**: on every reachable book, for
every limit order with a quantity, at a price in the range that does not cross, under an id
whose slot is empty. -/
theorem cancel_undoes_add (hcap : cap < 2 ^ 32) {cs : List Call} {b : OrderBook cap}
    {rs : List (Option Bool)} (hrun : (OrderBook.new cap).run cs = some (b, rs)) (id : OrderId)
    (client : ClientId) (side : Side) (price : Price) (qty : Quantity) (ts : Timestamp)
    (hfree : b.pool.available ≠ 0) (hslot : b.orderTable (slot id) = none) (hqty : 0 < qty)
    (hprice : minPrice ≤ price ∧ price ≤ maxPrice) (hpass : b.Passive side price) :
    ∃ b₁ b₂, b.addOrder id client side .limit price qty ts = some (b₁, true) ∧
      b₁.cancelOrder id = some (b₂, true) ∧
      b₁.fills = b.fills ∧ Restored b b₂ := by
  obtain ⟨b', rs', Q, hrun', h⟩ := run_inv (new_inv cap) hcap cs
  obtain rfl : b' = b := congrArg Prod.fst (Option.some.inj (hrun'.symm.trans hrun))
  obtain ⟨o, rest, hf⟩ :=
    List.exists_cons_of_ne_nil (fun e => hfree (List.length_eq_zero_iff.mpr e))
  have hbad := (badPrice_limit price).mpr hprice
  obtain ⟨b₁, Q₁, hadd, hj⟩ := addOrder_passive h hcap hf hbad hqty hpass id client ts
  obtain ⟨b₂, hcancel, hr⟩ := hj.restored h hf hslot
  exact ⟨b₁, b₂, hadd, hcancel, hj.fills, hr⟩

/-- One order rests on each side; a bid between them becomes the best, and is cancelled. -/
theorem cancel_undoes_add_three :
    ∃ b rs, (OrderBook.new 3).run [.addOrder 1 7 .buy .limit 100 5 0,
      .addOrder 2 8 .sell .limit 200 5 1] = some (b, rs) ∧
      ∃ b₁ b₂, b.addOrder 3 9 .buy .limit 150 5 2 = some (b₁, true) ∧
        b₁.cancelOrder 3 = some (b₂, true) ∧
        b₁.fills = b.fills ∧ Restored b b₂ := by
  obtain ⟨b, rs, Q, hrun, -⟩ := run_inv (new_inv 3) (by decide)
    [.addOrder 1 7 .buy .limit 100 5 0, .addOrder 2 8 .sell .limit 200 5 1]
  have hstate : ((OrderBook.new 3).run [.addOrder 1 7 .buy .limit 100 5 0,
    .addOrder 2 8 .sell .limit 200 5 1]).map
      (fun r => (r.1.pool.available, r.1.orderTable (slot 3), decide (r.1.Passive .buy 150))) =
        some (1, none, true) := by
    decide
  rw [hrun] at hstate
  simp only [Option.map_some, Option.some.injEq, Prod.mk.injEq, decide_eq_true_eq] at hstate
  obtain ⟨hav, hslot, hpass⟩ := hstate
  refine ⟨b, rs, hrun, ?_⟩
  exact cancel_undoes_add (by decide) hrun 3 9 .buy 150 5 2 (by simp [hav]) hslot (by decide)
    (by decide) hpass

end TradeFeed
