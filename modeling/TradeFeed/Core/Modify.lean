import TradeFeed.Core.Runs

/-!
# A refused modification

`modify_order` cancels the order and adds it anew, and the checks of `add_order` come after
the cancellation. Its check of the pool always passes then, as the order's own memory was
just freed. Its check of the price may not: the order is gone by then, and `modify_order`
returns false as it does for an unknown id (`modifyOrder_lost`). `add_order` and
`cancel_order` themselves change nothing when they return false.

`modify_refused` says that this is the only way in which a refused modification changes the
book.
-/

namespace TradeFeed

open Lib Lib.PriceTime
open OrderBook (badPrice)

variable {cap : ℕ}

/-- The two books show the same: the same orders rest in the same places, with the same
quantities left. -/
structure Unchanged (b b' : OrderBook cap) : Prop where
  /-- The queue of every level, and each order in it. -/
  queues : ∀ s i, b'.entries (b'.queue s i) = b.entries (b.queue s i)
  /-- The best prices. -/
  best : b'.best = b.best
  /-- The id table. -/
  table : b'.orderTable = b.orderTable
  /-- The fills. -/
  fills : b'.fills = b.fills
  /-- The orders that are live. -/
  live : ∀ p, (∃ s i, p ∈ b'.queue s i) ↔ ∃ s i, p ∈ b.queue s i

theorem Unchanged.refl (b : OrderBook cap) : Unchanged b b :=
  ⟨fun _ _ => rfl, rfl, rfl, rfl, fun _ => Iff.rfl⟩

section Modify

variable {b b' : OrderBook cap} {Q : Queues cap} {o : Fin cap} {id : OrderId}

/-- An order that has left is not among the live ones. -/
theorem Left.not_unchanged (h : Inv b Q) (ha : Left b b' Q o) (hl : b.lookup id = some o) :
    ¬ Unchanged b b' := by
  intro hu
  obtain ⟨hin, -⟩ := mem_of_lookup h.core hl
  obtain rfl := h.queue_eq
  obtain ⟨s, i, ho⟩ := (hu.live o).mpr hin
  rw [ha.inv.queue_eq] at ho
  exact (Queues.mem_without.mp ho).2 rfl

/-- **A lost order**: with a price outside the range, a modification is a cancellation that
returns false. -/
theorem modifyOrder_lost (h : Inv b Q) (hl : b.lookup id = some o) {price : Price}
    (hbad : badPrice .limit price = true) (qty : Quantity) (ts : Timestamp) :
    ∃ b', b.cancelOrder id = some (b', true) ∧ b.modifyOrder id price qty ts = some (b', false) ∧
      Left b b' Q o := by
  obtain ⟨b', hrun, hleft⟩ := cancelOrder_found h hl
  refine ⟨b', hrun, ?_, hleft⟩
  have hadd := OrderBook.addOrder_refused b' id (b.order o).clientId (b.order o).side .limit price
    qty ts (Or.inr hbad)
  simp [OrderBook.modifyOrder, hl, hrun, hadd]

/-- With a price in the range, the modification of a live order is not refused. -/
theorem modifyOrder_kept (h : Inv b Q) (hcap : cap < 2 ^ 32) (hl : b.lookup id = some o)
    {price : Price} (hbad : badPrice .limit price = false) (qty : Quantity) (ts : Timestamp) :
    ∃ b', b.modifyOrder id price qty ts = some (b', true) := by
  obtain ⟨b₁, hleft, hav, hadd⟩ := modifyOrder_found h hl price qty ts
  have hroom : Room (Q.without o) :=
    room_of_cap hleft.inv.core (fun e => hav (List.length_eq_zero_iff.mpr e)) hcap
  obtain ⟨b', -, -, hrun, -⟩ :=
    addOrder_accepted hleft.inv hroom id (b.order o).clientId (b.order o).side .limit
    price qty ts hav hbad
  exact ⟨b', hadd.trans hrun⟩

end Modify

/-- **A refused modification leaves the book as it was** exactly when the id names no live
order or the new price is in the range. -/
theorem modify_refused (hcap : cap < 2 ^ 32) (cs : List Call) (id : OrderId) (price : Price)
    (qty : Quantity) (ts : Timestamp) :
    ∃ b rs, (OrderBook.new cap).run cs = some (b, rs) ∧
      ∃ b' r, b.modifyOrder id price qty ts = some (b', r) ∧
      ((r = false → Unchanged b b') ↔ b.lookup id = none ∨
        (minPrice ≤ price ∧ price ≤ maxPrice)) := by
  obtain ⟨b, rs, Q, hrun, h⟩ := run_inv (new_inv cap) hcap cs
  refine ⟨b, rs, hrun, ?_⟩
  rw [← badPrice_limit]
  cases hl : b.lookup id with
  | none => exact ⟨b, false, modifyOrder_unknown b price qty ts hl, by simpa using Unchanged.refl b⟩
  | some o =>
    cases hbad : badPrice .limit price with
    | true =>
      obtain ⟨b', -, hmod, hleft⟩ := modifyOrder_lost h hl hbad qty ts
      exact ⟨b', false, hmod, by simpa using hleft.not_unchanged h hl⟩
    | false =>
      obtain ⟨b', hmod⟩ := modifyOrder_kept h hcap hl hbad qty ts
      exact ⟨b', true, hmod, by simp⟩

/-- An order that rests, modified to another price. -/
theorem modify_refused_one :
    ∃ b rs, (OrderBook.new 1).run [.addOrder 1 7 .buy .limit 100 5 0] = some (b, rs) ∧
      ∃ b' r, b.modifyOrder 1 101 5 1 = some (b', r) ∧
        ((r = false → Unchanged b b') ↔ b.lookup 1 = none ∨ (minPrice ≤ 101 ∧ 101 ≤ maxPrice)) :=
  modify_refused (by decide) _ _ _ _ _

/-- One order rests; it is modified to price 0. The answer is false, and the order is gone. -/
theorem modify_loses :
    ∃ b rs b', (OrderBook.new 1).run [.addOrder 1 7 .buy .limit 100 5 0] = some (b, rs) ∧
      b.modifyOrder 1 0 5 1 = some (b', false) ∧ ¬ Unchanged b b' := by
  obtain ⟨b, rs, Q, hrun, h⟩ := run_inv (new_inv 1) (by decide) [.addOrder 1 7 .buy .limit 100 5 0]
  have hl : b.lookup 1 = some 0 := by
    have hfound : ((OrderBook.new 1).run [.addOrder 1 7 .buy .limit 100 5 0]).map
      (fun r => r.1.lookup 1) =
        some (some 0) := by decide
    rw [hrun] at hfound
    exact Option.some.inj hfound
  have hbad : badPrice .limit 0 = true := by decide
  obtain ⟨b', -, hmod, hleft⟩ := modifyOrder_lost h hl hbad 5 1
  exact ⟨b, rs, b', hrun, hmod, hleft.not_unchanged h hl⟩

end TradeFeed
