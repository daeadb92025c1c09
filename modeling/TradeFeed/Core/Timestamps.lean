import TradeFeed.Core.Simulation

/-!
# Timestamps do not matter

No operation of the book reads an order's timestamp. Setting them all to zero
(`OrderBook.untimed`) is a relabeling of the orders, and therefore commutes with every
operation. From it, books that differ in timestamps only answer alike and go on differing in
timestamps only (`addOrder_untimed`, `cancelOrder_untimed`, `modifyOrder_untimed`).
-/

namespace TradeFeed

open Lib.Machine (rel_map_iff)

variable {cap : ℕ}

/-- An order without its timestamp. -/
def Order.untimed (o : Order cap) : Order cap := { o with timestamp := 0 }

/-- The orders of an arena without their timestamps. -/
def Arena.untimed (m : Arena cap) : Arena cap := fun p => (m p).untimed

namespace OrderBook

/-- A book without the timestamps of its orders. -/
def untimed (b : OrderBook cap) : OrderBook cap := b.setArena b.pool.arena.untimed

/-- The relabeling that takes the timestamps away. -/
def timeless : Relabel cap := ⟨fun _ p => p, fun _ s => s, fun _ t => t, fun _ _ => 0⟩

theorem untimed_eq (b : OrderBook cap) : b.untimed = b.relabel timeless := rfl

@[simp] theorem order_untimed (b : OrderBook cap) (o : Fin cap) :
    b.untimed.order o = (b.order o).untimed :=
  rfl

@[simp] theorem levels_untimed (b : OrderBook cap) : b.untimed.levels = b.levels := rfl

@[simp] theorem best_untimed (b : OrderBook cap) : b.untimed.best = b.best := rfl

@[simp] theorem lookup_untimed (b : OrderBook cap) (id : OrderId) :
    b.untimed.lookup id = b.lookup id :=
  rfl

@[simp] theorem available_untimed (b : OrderBook cap) :
    b.untimed.pool.available = b.pool.available :=
  rfl

theorem leave_untimed (b : OrderBook cap) (o : Fin cap) :
    ((b.unreg o).deallocate o).untimed = (b.untimed.unreg o).deallocate o :=
      (release_relabel b timeless o).symm

theorem removeLevel_untimed (b : OrderBook cap) (s : BookSide) (i : Fin priceLevels) (o : Fin cap) :
    (b.removeLevel s i o).untimed = b.untimed.removeLevel s i o :=
      (removeLevel_relabel b timeless s i o).symm

theorem scanBest_untimed (b : OrderBook cap) (s : BookSide) :
    (b.scanBest s).map untimed = b.untimed.scanBest s := (scanBest_relabel b timeless s).symm

/-! ### Matching -/

/-- A book without timestamps is matched as the book is. -/
theorem alike_untimed (s : BookSide) (side : Side) (accept : Price → Bool) (a : Fin cap) :
    Alike (fun b b' => b' = b.untimed) a s s side side accept accept id where
  filled h := by rw [h]; rfl
  accept h := by rw [h]; rfl
  level h := by rw [h, Option.map_id]; rfl
  empty h i := by rw [h]; rfl
  front h i := by rw [h]; rfl
  round i p h _ _ _ := by
    rw [h, untimed_eq, id, tradeWith_relabel, retire_relabel]
    · rfl
    · rfl
  scan i h _ := by
    rw [rel_map_iff, h]
    exact (clearBit_scanBest_relabel _ timeless s i).symm

theorem matchWhile_untimed (s : BookSide) (side : Side) (accept : Price → Bool) (a : Fin cap)
    (fuel : ℕ) (b : OrderBook cap) :
    (matchWhile s side accept a fuel b).map untimed = matchWhile s side accept a fuel b.untimed :=
  rel_map_iff.mp ((alike_untimed s side accept a).matchWhile fuel rfl)

theorem matchLimit_untimed (b : OrderBook cap) (a : Fin cap) :
    (b.matchLimit a).map untimed = b.untimed.matchLimit a := by
  unfold matchLimit
  rw [show (b.untimed.order a).price = (b.order a).price from rfl,
    show (b.untimed.order a).side = (b.order a).side from rfl]
  simp only
  split_ifs <;> exact matchWhile_untimed ..

theorem matchMarket_untimed (b : OrderBook cap) (a : Fin cap) :
    (b.matchMarket a).map untimed = b.untimed.matchMarket a := by
  unfold matchMarket
  rw [show (b.untimed.order a).side = (b.order a).side from rfl]
  split_ifs <;> exact matchWhile_untimed ..

/-! ### The operations -/

theorem rest_untimed (b : OrderBook cap) (s : BookSide) (price : Price) (o : Fin cap) :
    (b.rest s price o).map untimed = b.untimed.rest s price o :=
      (rest_relabel b timeless s o price).symm

theorem held_untimed (b : OrderBook cap) (o : Fin cap) (rest : List (Fin cap)) (new : Order cap) :
    (b.held o rest new).untimed = b.untimed.held o rest new.untimed :=
  (held_relabel b timeless o rest new fun _ _ => rfl).symm

theorem settle_untimed (b : OrderBook cap) (side : Side) (type : OrderType) (price : Price)
    (o : Fin cap) :
    ((b.settle side type price o).map fun r => (r.1.untimed, r.2)) =
      b.untimed.settle side type price o := by
  unfold settle
  rw [show (b.untimed.order o).isFilled = (b.order o).isFilled from rfl, ← rest_untimed]
  split_ifs
  · cases b.rest side.book price o <;> rfl
  · exact congrArg (fun b => some (b, true)) (leave_untimed b o)

/-- **An order that is added** is answered by what it and the book are without timestamps. -/
theorem addOrder_untimed (b : OrderBook cap) (id : OrderId) (client : ClientId) (side : Side)
    (type : OrderType) (price : Price) (qty : Quantity) (ts : Timestamp) :
    ((b.addOrder id client side type price qty ts).map fun r => (r.1.untimed, r.2)) =
      b.untimed.addOrder id client side type price qty 0 := by
  by_cases hr : b.pool.available = 0 ∨ badPrice type price = true
  · rw [addOrder_refused _ _ _ _ _ _ _ _ hr, addOrder_refused b.untimed _ _ _ _ _ _ _ hr]
    rfl
  rw [not_or, Bool.not_eq_true] at hr
  obtain ⟨o, rest, hf⟩ := List.exists_cons_of_ne_nil fun he => hr.1 (List.length_eq_zero_iff.mpr he)
  have hf' : b.untimed.pool.freeList = o :: rest := hf
  have hnew : (incoming id client side type price qty ts : Order cap).untimed =
      incoming id client side type price qty 0 := rfl
  have hsettle : ∀ r : Option (OrderBook cap),
      ((r.bind fun b => b.settle side type price o).map fun r => (r.1.untimed, r.2)) =
        (r.map untimed).bind fun b => b.settle side type price o := by
    intro r
    cases r with
    | none => rfl
    | some b₁ => exact settle_untimed b₁ side type price o
  rw [addOrder_eq hf id client side qty ts hr.2, addOrder_eq hf' id client side qty 0 hr.2, hsettle,
    apply_ite (Option.map untimed), matchMarket_untimed, matchLimit_untimed, held_untimed, hnew]

/-- **An order that is cancelled.** -/
theorem cancelOrder_untimed (b : OrderBook cap) (id : OrderId) :
    ((b.cancelOrder id).map fun r => (r.1.untimed, r.2)) = b.untimed.cancelOrder id := by
  unfold cancelOrder
  rw [lookup_untimed]
  cases b.lookup id with
  | none => rfl
  | some o =>
    have hp : (b.untimed.order o).price = (b.order o).price := rfl
    have hs : (b.untimed.order o).side = (b.order o).side := rfl
    simp only [hp, hs]
    cases levelOf (b.order o).price with
    | none => rfl
    | some i =>
      set s := (b.order o).side.book
      set b₁ := b.removeLevel s i o
      have hb₁ : b.untimed.removeLevel s i o = b₁.untimed := (removeLevel_untimed ..).symm
      have hclear : b₁.untimed.clearBit s i = (b₁.clearBit s i).untimed := rfl
      simp only [Option.bind_eq_bind, Option.bind_some, hb₁]
      by_cases he : (b₁.levels s i).empty = true
      · rw [if_pos he, if_pos (show (b₁.untimed.levels s i).empty = true from he), hclear]
        by_cases hbest : (b.order o).price = (b₁.clearBit s i).best s
        · rw [if_pos hbest, if_pos (show (b.order o).price = (b₁.clearBit s i).untimed.best s from
            hbest), ← scanBest_untimed]
          cases (b₁.clearBit s i).scanBest s with
          | none => rfl
          | some b₂ => exact congrArg (fun b => some (b, true)) (leave_untimed b₂ o)
        · rw [if_neg hbest,
            if_neg (show ¬ (b.order o).price = (b₁.clearBit s i).untimed.best s from hbest)]
          exact congrArg (fun b => some (b, true)) (leave_untimed _ o)
      · rw [if_neg he, if_neg (show ¬ (b₁.untimed.levels s i).empty = true from he)]
        exact congrArg (fun b => some (b, true)) (leave_untimed b₁ o)

/-- **An order that is modified.** -/
theorem modifyOrder_untimed (b : OrderBook cap) (id : OrderId) (price : Price) (qty : Quantity)
    (ts : Timestamp) :
    ((b.modifyOrder id price qty ts).map fun r => (r.1.untimed, r.2)) =
      b.untimed.modifyOrder id price qty 0 := by
  unfold modifyOrder
  rw [lookup_untimed]
  cases b.lookup id with
  | none => rfl
  | some o =>
    simp only [Option.bind_eq_bind, ← cancelOrder_untimed]
    cases b.cancelOrder id with
    | none => rfl
    | some r => exact addOrder_untimed ..

end OrderBook

end TradeFeed
