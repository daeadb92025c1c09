import TradeFeed.Analytics.Vpin
import TradeFeed.Core.Splitting
import TradeFeed.Engine.LevelTotals
import TradeFeed.Lib.BestFirst

/-!
# The quality of an execution

An incoming order gets as many shares as its price allows, at the best average price
(`best_execution`). The average is that of `vwap` when the order's fills are reported to fresh
analytics, call by call of `on_fill`; it is compared with any other choice of as many shares from
what the opposite side offered.

* `run_vwap` — the average that `vwap` gives is exact, as long as the total volume does not wrap.
* `paid_eq_take` — an order is filled with the first of the shares on offer.
-/

namespace TradeFeed

open Lib Lib.PriceTime Lib.Machine Tradable
open OrderBook (badPrice incoming)

variable {cap : ℕ}

/-! ### The average price -/

section Vwap

variable {a : BookAnalytics} {cs : List FillCall}

@[simp] theorem onFill_vwapNumer (a : BookAnalytics) (c : FillCall) :
    (a.onFill c).vwapNumer = a.vwapNumer + c.price.toNat * c.qty.toNat := by
  rw [← BookAnalytics.countFill_vwapNumer, BookAnalytics.onFill]
  split_ifs <;> rfl

@[simp] theorem onFill_totalVolume (a : BookAnalytics) (c : FillCall) :
    (a.onFill c).totalVolume = a.totalVolume + c.qty.toUInt64 := by
  rw [← BookAnalytics.countFill_totalVolume, BookAnalytics.onFill]
  split_ifs <;> rfl

/-- Whatever the buckets do, the worth and the volume of the fills are added up. -/
theorem run_worth (cs : List FillCall) (hfit : a.totalVolume.toNat + volume cs < 2 ^ 64) :
    (run BookAnalytics.onFill a cs).vwapNumer = a.vwapNumer + worth cs ∧
      (run BookAnalytics.onFill a cs).totalVolume.toNat = a.totalVolume.toNat + volume cs := by
  induction cs generalizing a with
  | nil => simp [worth, volume]
  | cons c cs ih =>
    have hvolume : volume (c :: cs) = c.qty.toNat + volume cs := by
      rw [volume, List.map_cons, List.sum_cons, volume]
    have hworth : worth (c :: cs) = c.price.toNat * c.qty.toNat + worth cs := by
      rw [worth, List.map_cons, List.sum_cons, worth]
    have htotal : (a.onFill c).totalVolume.toNat = a.totalVolume.toNat + c.qty.toNat := by
      rw [onFill_totalVolume, UInt64.toNat_add, UInt32.toNat_toUInt64, Nat.mod_eq_of_lt (by omega)]
    obtain ⟨hn, ht⟩ := ih (a := a.onFill c) (by omega)
    rw [Lib.Machine.run_cons, hn, ht, onFill_vwapNumer, htotal, hvolume, hworth, add_assoc,
      Nat.add_assoc]
    exact ⟨rfl, rfl⟩

/-- **The VWAP of fills** is what they were worth by their volume. -/
theorem run_vwap (hfit : volume cs < 2 ^ 64) :
    (run BookAnalytics.onFill .new cs).vwap = worth cs / volume cs := by
  obtain ⟨hn, ht⟩ :=
    run_worth (a := .new) cs (by rwa [show BookAnalytics.new.totalVolume.toNat = 0 from rfl,
    Nat.zero_add])
  have hn : (run BookAnalytics.onFill .new cs).vwapNumer = 0 + worth cs := hn
  have ht : (run BookAnalytics.onFill .new cs).totalVolume.toNat = 0 + volume cs := ht
  rw [BookAnalytics.vwap, hn, ht, zero_add, Nat.zero_add]
  split_ifs with hpos
  · rfl
  · have h0 : volume cs = 0 := by
      rw [gt_iff_lt, UInt64.lt_iff_toNat_lt, ht] at hpos
      simpa using hpos
    rw [h0, Nat.cast_zero, div_zero]

end Vwap

/-! ### The fills of an order -/

/-- The calls that report an order's fills. -/
def reported (side : Side) (fs : List Fill) : List FillCall :=
  fs.map fun f => ⟨f.price, f.quantity, side⟩

/-- The average price of an order's fills. -/
def averagePrice (side : Side) (fs : List Fill) : ℚ :=
  (run BookAnalytics.onFill .new (reported side fs)).vwap

/-- What was paid for each share. -/
def paid (fs : List Fill) : List ℕ :=
  fs.flatMap fun f => List.replicate f.quantity.toNat f.price.toNat

/-- The prices of the shares that a side offers. -/
def OrderBook.offers (b : OrderBook cap) (s : BookSide) : List ℕ :=
  (b.queue.resting s).flatMap fun p =>
    List.replicate (b.order p).remaining.toNat (b.order p).price.toNat

/-- To an order of this side, the first price is as good as the second. -/
def AsGood (side : Side) (x y : ℚ) : Prop := if side = .buy then x ≤ y else y ≤ x

section Paid

variable {b b' : OrderBook cap} {Q Q' : Queues cap} {new : Order cap} {fs : List Fill} {side : Side}

theorem volume_reported (side : Side) (fs : List Fill) :
    volume (reported side fs) = (paid fs).length := by
  rw [volume, reported, paid, List.map_map, List.length_flatMap]
  simp [Function.comp_def]

theorem worth_reported (side : Side) (fs : List Fill) :
    worth (reported side fs) = (paid fs).sum := by
  induction fs with
  | nil => simp [worth, reported, paid]
  | cons f fs ih =>
    have hpaid : paid (f :: fs) = List.replicate f.quantity.toNat f.price.toNat ++ paid fs := rfl
    have hworth : worth (reported side (f :: fs)) = f.price.toNat * f.quantity.toNat +
        worth (reported side fs) := by
      rw [worth, reported, List.map_cons, List.map_cons, List.sum_cons]
      rfl
    rw [hworth, ih, hpaid, List.sum_append, List.sum_replicate_nat, Nat.cast_add,
      Nat.cast_mul, mul_comm]

theorem averagePrice_eq (hfit : (paid fs).length < 2 ^ 64) :
    averagePrice side fs = (paid fs).sum / (paid fs).length := by
  rw [averagePrice, run_vwap (by rwa [volume_reported]), worth_reported, volume_reported]

/-- The shares on offer are those of the side's entries. -/
theorem offers_eq (h : Core b Q []) (s : BookSide) :
    b.offers s = offered price (b.entries (Q.resting s)) := by
  rw [OrderBook.offers, h.queue_eq, offered, shares, OrderBook.entries, List.map_map,
    List.flatMap_map]
  rfl

/-- What an order paid for its shares. -/
theorem paid_fillsOf (b : OrderBook cap) (Q : Queues cap) (new : Order cap) :
    paid (fillsOf b Q new) = shares price (trading b Q new).trades := by
  rw [paid, fillsOf, List.flatMap_map, shares]
  refine List.flatMap_congr fun t ht => ?_
  rw [quantity_fillOf (mem_trades _ _ ht).2.1]
  by_cases hb : new.side = .buy <;> simp [fillOf, OrderBook.mkFill, hb, price]

/-- **An order is filled with the first of the shares on offer.** -/
theorem paid_eq_take (h : Core b Q []) (new : Order cap) :
    paid (fillsOf b Q new) = (b.offers new.side.book.opposite).take
      (paid (fillsOf b Q new)).length := by
  rw [offers_eq h, paid_fillsOf]
  exact List.prefix_iff_eq_take.mp (initial_shares price _ _ _)

theorem offers_pairwise (h : Core b Q []) (s : BookSide) :
    (b.offers s).Pairwise fun p q => ¬ s.dir.Better q p := by
  rw [offers_eq h]
  refine offered_pairwise ?_
  rw [OrderBook.entries, List.pairwise_map]
  exact resting_sorted h s

/-- It gets no more shares than it asks for, and as many as there are at prices that it accepts. -/
theorem length_paid (h : Core b Q []) (new : Order cap) :
    (paid (fillsOf b Q new)).length =
      min new.quantity.toNat ((b.offers new.side.book.opposite).filter fun p =>
      accepts new.side new.type new.price (UInt32.ofNat p)).length := by
  have hleft := left_eq h new
  have hall := sweep_conserves (fun p => accepts new.side new.type new.price (UInt32.ofNat p))
    new.quantity.toNat (b.entries (Q.resting new.side.book.opposite))
  rw [← trading] at hall
  rw [paid_fillsOf, shares_length, offers_eq h, offered_acceptable, ← crossed_eq h]
  omega

/-- An order accepts the prices it can trade at. -/
theorem canTrade_of_accepts {type : OrderType} {price best : Price}
    (hacc : accepts side type price best = true) :
    CanTrade side type price best := by
  by_cases hb : side = .buy
  · simp only [accepts, hb, if_true, Bool.and_eq_true, Bool.or_eq_true, decide_eq_true_eq] at hacc
    exact hacc.1.imp id fun hle => by simpa [hb] using hle
  · simp only [accepts, hb, if_false, Bool.and_eq_true, Bool.or_eq_true, decide_eq_true_eq] at hacc
    exact hacc.1.imp id fun hle => by simpa [hb] using hle

/-- What is on offer is offered at the price of a level. -/
theorem mem_offers (h : Core b Q []) {s : BookSide} {p : ℕ} (hp : p ∈ b.offers s) :
    ∃ i, UInt32.ofNat p = priceAt i := by
  rw [OrderBook.offers, h.queue_eq] at hp
  obtain ⟨o, ho, hp⟩ := List.mem_flatMap.mp hp
  obtain ⟨i, ho⟩ := Queues.mem_resting.mp ho
  exact ⟨i, by rw [List.eq_of_mem_replicate hp, UInt32.ofNat_toNat, (h.orders s i o ho).price]⟩

theorem canTrade_of_mem_paid {p : ℕ} (hp : p ∈ paid (fillsOf b Q new)) :
    CanTrade new.side new.type new.price (UInt32.ofNat p) := by
  rw [paid_fillsOf, shares] at hp
  obtain ⟨t, ht, hp⟩ := List.mem_flatMap.mp hp
  rw [List.eq_of_mem_replicate hp]
  exact canTrade_of_accepts (mem_trades _ _ ht).2.2

/-- No choice of as many shares has a better average. -/
theorem averagePrice_asGood (h : Core b Q []) (new : Order cap) {v : List ℕ}
    (hv : v.Subperm (b.offers new.side.book.opposite))
    (hlen : v.length = (paid (fillsOf b Q new)).length) :
    AsGood new.side (averagePrice new.side (fillsOf b Q new)) (v.sum / v.length) := by
  have hsum := take_sum new.side.book.opposite.dir (offers_pairwise h _) hv
  rw [hlen, ← paid_eq_take h new] at hsum
  have hfit : (paid (fillsOf b Q new)).length < 2 ^ 64 := by
    have hle := length_paid h new
    have hqty := new.quantity.toNat_lt
    omega
  rw [averagePrice_eq hfit, hlen, AsGood]
  by_cases hb : new.side = .buy
  · simp only [Side.book, hb, if_true, BookSide.opposite, BookSide.dir, Best.Better,
      Nat.not_lt] at hsum ⊢
    exact div_le_div_of_nonneg_right (by exact_mod_cast hsum) (Nat.cast_nonneg _)
  · simp only [Side.book, hb, if_false, BookSide.opposite, BookSide.dir, Best.Better,
      Nat.not_lt] at hsum ⊢
    exact div_le_div_of_nonneg_right (by exact_mod_cast hsum) (Nat.cast_nonneg _)

/-- Nor does a choice of shares at prices that the order accepts have more of them. -/
theorem length_le_paid (h : Core b Q []) (new : Order cap) {v : List ℕ}
    (hv : v.Subperm (b.offers new.side.book.opposite)) (hlen : v.length ≤ new.quantity.toNat)
    (hacc : ∀ p ∈ v, CanTrade new.side new.type new.price (UInt32.ofNat p)) :
    v.length ≤ (paid (fillsOf b Q new)).length := by
  have hkeep : v.filter (fun p => accepts new.side new.type new.price (UInt32.ofNat p)) = v := by
    refine List.filter_eq_self.mpr fun p hp => ?_
    obtain ⟨i, hi⟩ := mem_offers h (hv.subset hp)
    have hp := hacc p hp
    rw [hi] at hp ⊢
    exact (accepts_priceAt _ _ _ i).mpr hp
  have hle := (hv.filter fun p => accepts new.side new.type new.price (UInt32.ofNat p)).length_le
  rw [hkeep] at hle
  rw [length_paid h new]
  exact Nat.le_min.mpr ⟨hlen, hle⟩

end Paid

/-- **Best execution**: on every reachable book, for every order that is accepted, there is no other
choice of shares from those that the opposite side offered, at prices that the order allows and no
more than it asked for, that is of more shares than it was filled with, and none of as many shares,
at any price, whose average is better than what `vwap` gives for its fills. -/
theorem best_execution (hcap : cap < 2 ^ 32) (cs : List Call) (id : OrderId) (client : ClientId)
    (side : Side) (type : OrderType) (price : Price) (qty : Quantity) (ts : Timestamp) :
    ∃ b rs, (OrderBook.new cap).run cs = some (b, rs) ∧
      ∀ b', b.addOrder id client side type price qty ts = some (b', true) →
        ∃ fs, b'.fills = b.fills ++ fs ∧
          (∀ p ∈ paid fs, CanTrade side type price (UInt32.ofNat p)) ∧
          ∀ v : List ℕ, v.Subperm (b.offers side.book.opposite) →
            (v.length ≤ qty.toNat → (∀ p ∈ v, CanTrade side type price (UInt32.ofNat p)) →
              v.length ≤ (paid fs).length) ∧
            (v.length = (paid fs).length →
              AsGood side (averagePrice side fs) (v.sum / v.length)) := by
  obtain ⟨b, rs, Q, hrun, h⟩ := run_inv (new_inv cap) hcap cs
  refine ⟨b, rs, hrun, fun b' hadd => ?_⟩
  by_cases hr : b.pool.available = 0 ∨ badPrice type price = true
  · rw [OrderBook.addOrder_refused b id client side type price qty ts hr, Option.some.injEq,
      Prod.mk.injEq] at hadd
    exact absurd hadd.2 Bool.false_ne_true
  · rw [not_or, Bool.not_eq_true] at hr
    have hroom : Room Q := room_of_cap h.core (fun e => hr.1 (List.length_eq_zero_iff.mpr e)) hcap
    obtain ⟨b₁, Q₁, o, hrun₁, ha⟩ :=
      addOrder_accepted h hroom id client side type price qty ts hr.1 hr.2
    obtain rfl : b₁ = b' := by
      rw [hrun₁, Option.some.injEq, Prod.mk.injEq] at hadd
      exact hadd.1
    set new : Order cap := incoming id client side type price qty ts
    have hgood : ∀ v : List ℕ, v.Subperm (b.offers side.book.opposite) →
      v.length = (paid (fillsOf b Q new)).length →
        AsGood side (averagePrice side (fillsOf b Q new)) (v.sum / v.length) :=
          fun v => averagePrice_asGood h.core new
    exact ⟨fillsOf b Q new, ha.fills, fun p hp => canTrade_of_mem_paid hp, fun v hv =>
      ⟨fun hlen hacc => length_le_paid h.core new hv hlen hacc, hgood v hv⟩⟩

/-- A buyer of five takes the three at 100 first, then two of those at 101. -/
theorem best_execution_five :
    ∃ b rs b' fs,
      (OrderBook.new 4).run [.addOrder 1 7 .sell .limit 101 4 0,
        .addOrder 2 8 .sell .limit 100 3 1] = some (b, rs) ∧
      b.addOrder 3 9 .buy .limit 102 5 2 = some (b', true) ∧ b'.fills = b.fills ++ fs ∧
      (∀ p ∈ paid fs, CanTrade .buy .limit 102 (UInt32.ofNat p)) ∧
      ∀ v : List ℕ, v.Subperm (b.offers .asks) →
        (v.length ≤ 5 → (∀ p ∈ v, CanTrade .buy .limit 102 (UInt32.ofNat p)) →
          v.length ≤ (paid fs).length) ∧
        (v.length = (paid fs).length → AsGood .buy (averagePrice .buy fs) (v.sum / v.length)) := by
  obtain ⟨b, rs, hrun, h⟩ := @best_execution 4 (by decide) [.addOrder 1 7 .sell .limit 101 4 0,
    .addOrder 2 8 .sell .limit 100 3 1] 3 9 .buy .limit 102 5 2
  have hadd : (((OrderBook.new 4).run [.addOrder 1 7 .sell .limit 101 4 0,
    .addOrder 2 8 .sell .limit 100 3 1]).bind fun x =>
    x.1.addOrder 3 9 .buy .limit 102 5 2).map (·.2) = some true := by decide +kernel
  rw [hrun, Option.bind_some] at hadd
  obtain ⟨⟨b', r⟩, hadd, rfl⟩ := Option.map_eq_some_iff.mp hadd
  obtain ⟨fs, h⟩ := h b' hadd
  exact ⟨b, rs, b', fs, hrun, hadd, h⟩

end TradeFeed
