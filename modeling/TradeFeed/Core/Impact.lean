import TradeFeed.Core.Accounts

/-!
# The impact of an incoming order

How much an incoming order changes, whatever its side and type bytes, its price and its
quantity. The loops of `match_limit`, `match_market` and `drain_level` end (they return in
the model); the fills are with the first orders of the opposite side, one for each, and
all of these but the last are used up and gone; and matching stops only when the incoming
order is filled or nothing is left that it could trade with (`Minimal`).

Progress rests on three facts of the invariant: every order that rests has something left,
the level at the best price has an order, and a level that empties is taken out of the
bitset before the next best price is looked for.
-/

namespace TradeFeed

open Lib Lib.PriceTime Tradable
open OrderBook (badPrice incoming)

variable {cap : ℕ}

/-- An incoming order can trade with one that rests at this price: any, for a market order. -/
def CanTrade (side : Side) (type : OrderType) (price resting : Price) : Prop :=
  type = .market ∨ if side = .buy then resting ≤ price else resting ≥ price

instance (side : Side) (type : OrderType) (price resting : Price) :
    Decidable (CanTrade side type price resting) :=
  inferInstanceAs (Decidable (_ ∨ _))

/-- The order `new` turned the book `b` into `b'` with the fills `fs`, and changed no more than
it had to. -/
structure Minimal (b b' : OrderBook cap) (new : Order cap) (fs : List Fill) : Prop where
  /-- The fills are appended. -/
  fills : b'.fills = b.fills ++ fs
  /-- There are no more of them than orders on the opposite side. -/
  few : fs.length ≤ (b.queue.resting new.side.book.opposite).length
  /-- Each is with the order whose turn it is. -/
  turn : ∀ k f, fs[k]? = some f → ∃ p, (b.queue.resting new.side.book.opposite)[k]? = some p ∧
    f = OrderBook.mkFill new.side new (b.order p) f.quantity ∧
    -- and if it is not the last, then it takes all that the order had left, and the order is gone
    (k + 1 < fs.length → f.quantity = (b.order p).remaining ∧ ∀ s i, p ∉ b'.queue s i)
  /-- In the end the incoming order is filled, or there is nothing left to trade with. -/
  stops : (fs.map fun f => f.quantity.toNat).sum = new.quantity.toNat ∨
    ∀ i, ∀ p ∈ b'.queue new.side.book.opposite i,
      ¬ CanTrade new.side new.type new.price (b'.order p).price

section Minimal

variable {b b' : OrderBook cap} {Q Q' : Queues cap} {o p : Fin cap} {new : Order cap}

/-- At the price of a level, what an order accepts is what it can trade at. -/
theorem accepts_priceAt (side : Side) (type : OrderType) (price : Price) (i : Fin priceLevels) :
    accepts side type price (priceAt i) = true ↔ CanTrade side type price (priceAt i) := by
  have hmax := priceAt_le_maxPrice i
  have hmin := priceAt_ne_invalidPrice i
  by_cases hb : side = .buy <;> simp [accepts, CanTrade, hb, hmax, hmin]

/-- Where no trade is possible, none is at a price that is not better. -/
theorem CanTrade.mono {side : Side} {type : OrderType} {price p q : Price}
    (h : CanTrade side type price q) (hw : ¬ side.book.opposite.dir.Better q.toNat p.toNat) :
    CanTrade side type price p := by
  apply h.imp id
  intro h
  by_cases hb : side = .buy
  · simp only [Side.book, hb, if_true, BookSide.opposite, BookSide.dir, Best.Better,
      Nat.not_lt] at h hw ⊢
    exact UInt32.le_trans (UInt32.le_iff_toNat_le.mpr hw) h
  · simp only [Side.book, hb, if_false, BookSide.opposite, BookSide.dir, Best.Better,
      Nat.not_lt] at h hw ⊢
    exact UInt32.le_trans h (UInt32.le_iff_toNat_le.mpr hw)

/-- If the first order of a side cannot be traded with, then none can. -/
theorem not_canTrade (h : Core b Q []) {side : Side} {type : OrderType} {price : Price}
    {q : List (Fin cap)} (hr : Q.resting side.book.opposite = o :: q)
    (ho : ¬ CanTrade side type price (b.order o).price) :
    ∀ p ∈ Q.resting side.book.opposite, ¬ CanTrade side type price (b.order p).price := by
  have hs := resting_sorted h side.book.opposite
  rw [hr, List.pairwise_cons] at hs
  intro p hp
  rw [hr] at hp
  rcases List.mem_cons.mp hp with rfl | hp
  · exact ho
  · exact fun hc => ho (hc.mono (hs.1 p hp))

/-- Matching stopped because nothing was left on one side, or at a price that is not accepted. -/
theorem Accepted.stops (ha : Accepted b b' Q Q' o new) :
    (trading b Q new).left = 0 ∨
      ∀ p ∈ Q'.resting new.side.book.opposite,
        ¬ CanTrade new.side new.type new.price (b'.order p).price := by
  apply (sweep_stops _ _ _).imp id
  intro hstop
  have hswept : b'.entries (Q'.resting new.side.book.opposite) = _ := ha.swept
  rcases hstop with hnil | ⟨e, tail, hrest, href⟩
  · have hnil : Q'.resting new.side.book.opposite = [] :=
      OrderBook.entries_eq_nil.mp (hswept.trans hnil)
    simp [hnil]
  · obtain ⟨q, hr, he, -⟩ := OrderBook.entries_eq_cons.mp (hswept.trans hrest)
    have hmem : e.1 ∈ Q'.resting new.side.book.opposite := by simp [hr]
    obtain ⟨i, hmem⟩ := Queues.mem_resting.mp hmem
    have hp : (b'.order e.1).price = priceAt i := (ha.inv.core.orders _ i _ hmem).price
    apply not_canTrade ha.inv.core hr
    intro hc
    rw [hp, ← accepts_priceAt, ← hp] at hc
    have href : accepts new.side new.type new.price (UInt32.ofNat e.2.price.toNat) = false := href
    rw [← he, UInt32.ofNat_toNat] at href
    exact absurd hc (by rw [← Bool.not_eq_true] at href; exact href)

/-- An order of the opposite side that rests afterwards was not used up by an earlier fill. -/
theorem Accepted.not_mem (h : Inv b Q) (ha : Accepted b b' Q Q' o new) {k : ℕ}
    (hp : (Q.resting new.side.book.opposite)[k]? = some p)
    (hk : k + 1 < (trading b Q new).trades.length) :
    ∀ s i, p ∉ Q' s i := by
  intro s i hmem
  obtain ⟨j, hj⟩ := Queues.mem_resting.mp (List.mem_of_getElem? hp)
  rcases ha.mem h hmem with ⟨hin, -⟩ | ⟨rfl, -⟩
  · obtain ⟨rfl, -⟩ := h.core.level_unique hj hin
    -- it is left, so it stood behind the orders traded with, but it stood at place `k`
    obtain ⟨n, hn, hbehind⟩ :=
      @rest_behind _ _ (fun p => accepts new.side new.type new.price (UInt32.ofNat p))
      new.quantity.toNat (b.entries (Q.resting new.side.book.opposite))
    have hleft : b'.entry p ∈ (trading b Q new).rest := by
      rw [← ha.swept]
      exact List.mem_map.mpr ⟨p, Queues.mem_resting.mpr ⟨i, hmem⟩, rfl⟩
    have hplace : p ∈ (Q.resting new.side.book.opposite).drop n := by
      obtain ⟨e, he, hfrom⟩ := hbehind _ hleft
      rw [OrderBook.entries, ← List.map_drop] at he
      obtain ⟨p', hp', rfl⟩ := List.mem_map.mp he
      have hfst : p = p' := by
        rcases hfrom with he | ⟨m, he⟩
        · exact congrArg Prod.fst he
        · exact congrArg Prod.fst he
      exact hfst ▸ hp'
    obtain ⟨m, hm⟩ := List.mem_iff_getElem?.mp hplace
    rw [List.getElem?_drop] at hm
    have hlt : k < (Q.resting new.side.book.opposite).length := (List.getElem?_eq_some_iff.mp hp).1
    have hplaces := (List.getElem?_inj hlt (Queues.resting_nodup h.core _)).mp (hp.trans hm.symm)
    have hn : (trading b Q new).trades.length ≤ n + 1 := hn
    omega
  · exact ha.fresh _ j hj

/-- **The impact of an accepted order** is minimal. -/
theorem Accepted.minimal (h : Inv b Q) (ha : Accepted b b' Q Q' o new) :
    Minimal b b' new (fillsOf b Q new) := by
  have hle : ∀ t ∈ (trading b Q new).trades, t.2 ≤ remaining t.1 :=
    fun t ht => (mem_trades _ _ ht).2.1
  obtain rfl := h.queue_eq
  obtain rfl := ha.inv.queue_eq
  refine ⟨ha.fills, ?_, fun k f hf => ?_, ?_⟩
  · rw [fillsOf, List.length_map, ← b.entries_length]
    exact trades_length_le _ _ _
  · rw [fillsOf, List.getElem?_map, Option.map_eq_some_iff] at hf
    obtain ⟨t, ht, rfl⟩ := hf
    obtain ⟨hl, hall⟩ := trades_front _ _ ht
    rw [OrderBook.entries, List.getElem?_map, Option.map_eq_some_iff] at hl
    obtain ⟨p, hp, hpt⟩ := hl
    have hq := quantity_fillOf (hle t (List.mem_of_getElem? ht)) new
    refine ⟨p, hp, ?_, fun hk => ⟨?_, ?_⟩⟩
    · have hofNat : UInt32.ofNat t.2 = (fillOf new.side new t).quantity := by
        rw [← hq, UInt32.ofNat_toNat]
      rw [← hofNat, fillOf, ← hpt]
      rfl
    · rw [fillsOf, List.length_map] at hk
      apply UInt32.toNat_inj.mp
      rw [hq, hall hk, ← hpt, OrderBook.remaining_entry]
    · rw [fillsOf, List.length_map] at hk
      exact ha.not_mem h hp hk
  · rcases ha.stops with hleft | hnone
    · apply Or.inl
      have hsum := sum_fillsOf b b.queue new
      omega
    · exact Or.inr fun i p hp => hnone p (Queues.mem_resting.mpr ⟨i, hp⟩)

end Minimal

/-- **Matching ends, with minimal impact**, for every reachable book and every order that
comes in. It is refused, and then nothing is matched, only when the pool is empty or it is a
limit order at a price outside the range. -/
theorem matching_minimal (hcap : cap < 2 ^ 32) (cs : List Call) (id : OrderId) (client : ClientId)
    (side : Side) (type : OrderType) (price : Price) (qty : Quantity) (ts : Timestamp) :
    ∃ b rs, (OrderBook.new cap).run cs = some (b, rs) ∧
      (((b.pool.available = 0 ∨ badPrice type price = true) ∧
          b.addOrder id client side type price qty ts = some (b, false)) ∨
        ∃ b' fs, b.addOrder id client side type price qty ts = some (b', true) ∧
          Minimal b b' (incoming id client side type price qty ts) fs) := by
  obtain ⟨b, rs, Q, hrun, h⟩ := run_inv (new_inv cap) hcap cs
  refine ⟨b, rs, hrun, ?_⟩
  by_cases hr : b.pool.available = 0 ∨ badPrice type price = true
  · exact Or.inl ⟨hr, OrderBook.addOrder_refused b id client side type price qty ts hr⟩
  · rw [not_or, Bool.not_eq_true] at hr
    have hroom : Room Q := room_of_cap h.core (fun e => hr.1 (List.length_eq_zero_iff.mpr e)) hcap
    obtain ⟨b', Q', o, hadd, hacc⟩ :=
      addOrder_accepted h hroom id client side type price qty ts hr.1 hr.2
    exact Or.inr ⟨b', _, hadd, hacc.minimal h⟩

/-- A market order sweeps two levels and takes a part of a third. -/
theorem matching_minimal_three :
    ∃ b rs, (OrderBook.new 4).run [.addOrder 1 7 .sell .limit 100 5 0,
      .addOrder 2 7 .sell .limit 101 5 1, .addOrder 3 7 .sell .limit 102 5 2] = some (b, rs) ∧
      (((b.pool.available = 0 ∨ badPrice .market 0 = true) ∧ b.addOrder 4 8 .buy .market 0 12 3 =
        some (b, false)) ∨ ∃ b' fs, b.addOrder 4 8 .buy .market 0 12 3 = some (b', true) ∧
        Minimal b b' (incoming 4 8 .buy .market 0 12 3) fs) :=
  matching_minimal (by decide) _ _ _ _ _ _ _ _

end TradeFeed
