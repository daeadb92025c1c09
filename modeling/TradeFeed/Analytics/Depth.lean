import Mathlib.Data.Nat.Dist
import TradeFeed.Analytics.BookAnalytics
import TradeFeed.Engine.LevelTotals
import TradeFeed.Lib.Ranking

/-!
# Depth

`bid_depth` and `ask_depth` walk from the best price and count the ticks, where they are meant to
count the levels at which orders rest. A tick without orders is one less for the rest of the
side, so they fall short of the quantity at the best levels as soon as there is a gap.

`depth_exact_iff` says that the depth of a side is right exactly when those of its best levels
that are asked for are all that near to the best price.
-/

namespace TradeFeed

open Lib Lib.PriceTime Lib.Ranking

variable {cap : ℕ}

/-! ### The best levels -/

/-- The levels of a side at which orders rest. -/
def OrderBook.occupiedLevels (b : OrderBook cap) (s : BookSide) : Finset (Fin priceLevels) :=
  Finset.univ.filter fun i => b.queue s i ≠ []

/-- The `n` best of them, or all if there are fewer. -/
def OrderBook.bestLevels (b : OrderBook cap) (s : BookSide) (n : ℕ) : Finset (Fin priceLevels) :=
  first (fun i j => s.dir.Better i.val j.val) (b.occupiedLevels s) n

/-- What rests at the `n` best levels. -/
def OrderBook.bestQty (b : OrderBook cap) (s : BookSide) (n : ℕ) : ℕ :=
  (b.bestLevels s n).sum (b.restingQty s)

/-- What rests on a side. -/
def OrderBook.sideQty (b : OrderBook cap) (s : BookSide) : ℕ := Finset.univ.sum (b.restingQty s)

/-- The depth of a side. -/
def BookAnalytics.depth (b : OrderBook cap) : BookSide → Int32 → Option Quantity
  | .bids, levels => bidDepth b levels
  | .asks, levels => askDepth b levels

/-- The depth is what rests at the best levels. -/
structure DepthExact (b : OrderBook cap) (s : BookSide) (levels : Int32) : Prop where
  /-- At so many as are asked for, none if that is negative. -/
  best : (BookAnalytics.depth b s levels).map UInt32.toNat = some (b.bestQty s levels.toInt.toNat)
  /-- No fewer than at fewer. -/
  mono : ∀ fewer ≤ levels, ∀ q q', BookAnalytics.depth b s fewer = some q →
    BookAnalytics.depth b s levels = some q' → q ≤ q'
  /-- And all if there are no more. -/
  whole : (b.occupiedLevels s).card ≤ levels.toInt.toNat →
    (BookAnalytics.depth b s levels).map UInt32.toNat = some (b.sideQty s)

/-- How many ticks a level is from the best price. -/
def OrderBook.ticks (b : OrderBook cap) (s : BookSide) (i : Fin priceLevels) : ℕ :=
  Nat.dist (b.best s).toNat (priceAt i).toNat

/-- The `n` best levels are within `n` ticks. -/
def OrderBook.Compact (b : OrderBook cap) (s : BookSide) (n : ℕ) : Prop :=
  ∀ i ∈ b.bestLevels s n, b.ticks s i < n

/-! ### The loops -/

section Loops

variable {b : OrderBook cap}

/-- The levels of `n` ticks downwards, the first of them below level `k`. -/
def below (k n : ℕ) : Finset (Fin priceLevels) :=
  Finset.univ.filter fun i => i.val < k ∧ k ≤ i.val + n

/-- The levels of `n` ticks upwards, from level `k` on. -/
def upFrom (k n : ℕ) : Finset (Fin priceLevels) :=
  Finset.univ.filter fun i => k ≤ i.val ∧ i.val < k + n

theorem sum_below_succ (f : Fin priceLevels → ℕ) {k : ℕ} (hk : k < priceLevels) (n : ℕ) :
    (below (k + 1) (n + 1)).sum f = f ⟨k, hk⟩ + (below k n).sum f := by
  have hinsert : below (k + 1) (n + 1) = insert ⟨k, hk⟩ (below k n) := by
    ext i
    simp only [below, Finset.mem_insert, Finset.mem_filter, Finset.mem_univ, true_and, Fin.ext_iff]
    omega
  have hnot : (⟨k, hk⟩ : Fin priceLevels) ∉ below k n :=
    fun h => Nat.lt_irrefl k (Finset.mem_filter.mp h).2.1
  rw [hinsert, Finset.sum_insert hnot]

theorem sum_upFrom_succ (f : Fin priceLevels → ℕ) {k : ℕ} (hk : k < priceLevels) (n : ℕ) :
    (upFrom k (n + 1)).sum f = f ⟨k, hk⟩ + (upFrom (k + 1) n).sum f := by
  have hinsert : upFrom k (n + 1) = insert ⟨k, hk⟩ (upFrom (k + 1) n) := by
    ext i
    simp only [upFrom, Finset.mem_insert, Finset.mem_filter, Finset.mem_univ, true_and, Fin.ext_iff]
    omega
  have hnot : (⟨k, hk⟩ : Fin priceLevels) ∉ upFrom (k + 1) n := fun h => by
    have hlt := (Finset.mem_filter.mp h).2.1
    exact absurd hlt (Nat.not_succ_le_self k)
  rw [hinsert, Finset.sum_insert hnot]

/-- The total of a level is what rests there, modulo 2³². -/
theorem totalQty_eq (h : Core b b.queue []) (s : BookSide) (i : Fin priceLevels) :
    (b.levels s i).totalQty = UInt32.ofNat (b.restingQty s i) := by
  apply UInt32.toNat_inj.mp
  rw [UInt32.toNat_ofNat']
  exact (h.levels s i).total

/-- **The walk down** adds up the ticks below. -/
theorem bidDepthLoop_eq (h : Core b b.queue []) (total : Quantity) {p : Price}
    (hp : p.toNat ≤ priceLevels) (n : ℕ) :
    BookAnalytics.bidDepthLoop b total p n =
      some (total + UInt32.ofNat ((below p.toNat n).sum (b.restingQty .bids))) := by
  have hzero : ∀ m, below 0 m = ∅ := fun m => Finset.filter_false_of_mem fun i _ => by omega
  induction n generalizing total p with
  | zero =>
    have hnone : below p.toNat 0 = ∅ := Finset.filter_false_of_mem fun i _ => by omega
    rw [BookAnalytics.bidDepthLoop, hnone, Finset.sum_empty]
    exact congrArg some (UInt32.add_zero total).symm
  | succ n ih =>
    by_cases hlow : p < minPrice
    · have h0 : p.toNat = 0 := Nat.lt_one_iff.mp (UInt32.lt_iff_toNat_lt.mp hlow)
      rw [BookAnalytics.bidDepthLoop, if_pos hlow, h0, hzero, Finset.sum_empty]
      exact congrArg some (UInt32.add_zero total).symm
    · -- the tick is a level's, and the rest of the walk begins below it
      have hpos : 1 ≤ p.toNat := UInt32.le_iff_toNat_le.mp (UInt32.not_lt.mp hlow)
      obtain ⟨k, hk⟩ := Nat.exists_eq_add_of_le' hpos
      have hlt : k < priceLevels := by omega
      have hprice : p = priceAt ⟨k, hlt⟩ := UInt32.toNat_inj.mp (by rw [priceAt_toNat, hk])
      have hqty : b.bidQtyAt p = some (UInt32.ofNat (b.restingQty .bids ⟨k, hlt⟩)) := by
        rw [hprice, ← totalQty_eq h]
        simp [OrderBook.bidQtyAt]
      have hone : (1 : UInt32) ≤ p := UInt32.not_lt.mp hlow
      have hnext : (p - 1).toNat = k := by
        rw [UInt32.toNat_sub_of_le _ _ hone, UInt32.toNat_one, hk]
        rfl
      rw [BookAnalytics.bidDepthLoop, if_neg hlow, hqty, hk, sum_below_succ _ hlt, UInt32.ofNat_add,
        ← UInt32.add_assoc]
      simp only [Option.bind_eq_bind, Option.bind_some]
      split_ifs with hmin
      · have h0 : k = 0 := by
          rw [hmin, show minPrice.toNat = 1 from rfl] at hk
          omega
        subst h0
        rw [hzero, Finset.sum_empty]
        exact congrArg some (UInt32.add_zero _).symm
      · rw [ih _ (by omega), hnext]

/-- **The walk up** adds up the ticks above. -/
theorem askDepthLoop_eq (h : Core b b.queue []) (total : Quantity) {p : Price} {k : ℕ}
    (hp : p.toNat = k + 1) (hk : k ≤ priceLevels) (n : ℕ) :
    BookAnalytics.askDepthLoop b total p n =
      some (total + UInt32.ofNat ((upFrom k n).sum (b.restingQty .asks))) := by
  have hlevels := priceLevels_eq
  induction n generalizing total p k with
  | zero =>
    have hnone : upFrom k 0 = ∅ := Finset.filter_false_of_mem fun i _ => by omega
    rw [BookAnalytics.askDepthLoop, hnone, Finset.sum_empty]
    exact congrArg some (UInt32.add_zero total).symm
  | succ n ih =>
    have hmax : p > maxPrice ↔ priceLevels ≤ k := by
      rw [gt_iff_lt, UInt32.lt_iff_toNat_lt, show maxPrice.toNat = 1000000 from rfl]
      omega
    by_cases hhigh : p > maxPrice
    · have hnone : upFrom k (n + 1) = ∅ := Finset.filter_false_of_mem fun i _ => by
        have hi := i.isLt
        have hge := hmax.mp hhigh
        omega
      rw [BookAnalytics.askDepthLoop, if_pos hhigh, hnone, Finset.sum_empty]
      exact congrArg some (UInt32.add_zero total).symm
    · have hlt : k < priceLevels := not_le.mp fun hge => hhigh (hmax.mpr hge)
      have hprice : p = priceAt ⟨k, hlt⟩ := UInt32.toNat_inj.mp (by rw [priceAt_toNat, hp])
      have hqty : b.askQtyAt p = some (UInt32.ofNat (b.restingQty .asks ⟨k, hlt⟩)) := by
        rw [hprice, ← totalQty_eq h]
        simp [OrderBook.askQtyAt]
      have hnext : (p + 1).toNat = k + 1 + 1 := by
        rw [UInt32.toNat_add, UInt32.toNat_one, hp]
        omega
      rw [BookAnalytics.askDepthLoop, if_neg hhigh, hqty, sum_upFrom_succ _ hlt, UInt32.ofNat_add,
        ← UInt32.add_assoc]
      simp only [Option.bind_eq_bind, Option.bind_some]
      exact ih _ hnext hlt

end Loops

/-! ### The depth of a side -/

section Side

variable {b : OrderBook cap} {s : BookSide} {i j : Fin priceLevels}

theorem mem_occupiedLevels : i ∈ b.occupiedLevels s ↔ b.queue s i ≠ [] := by
  rw [OrderBook.occupiedLevels, Finset.mem_filter]
  exact and_iff_right (Finset.mem_univ i)

theorem restingQty_eq_zero (hi : i ∉ b.occupiedLevels s) : b.restingQty s i = 0 := by
  rw [OrderBook.restingQty, not_not.mp (mt mem_occupiedLevels.mpr hi)]
  rfl

theorem restingQty_pos (h : Live b b.queue) (hi : i ∈ b.occupiedLevels s) :
    0 < b.restingQty s i := by
  obtain ⟨o, ho⟩ := List.exists_mem_of_ne_nil _ (mem_occupiedLevels.mp hi)
  refine (remaining_pos h ho).trans_le ?_
  exact List.single_le_sum (fun _ _ => Nat.zero_le _) _ (List.mem_map_of_mem ho)

/-- What rests on a side rests at its occupied levels. -/
theorem sum_occupiedLevels (b : OrderBook cap) (s : BookSide) :
    (b.occupiedLevels s).sum (b.restingQty s) = b.sideQty s :=
  Finset.sum_subset (Finset.subset_univ _) fun _ _ hi => restingQty_eq_zero hi

/-- The best price of a side with orders is that of a level, and no occupied one is better. -/
theorem best_of_mem (h : Inv b b.queue) (hi : i ∈ b.occupiedLevels s) :
    ∃ k : Fin priceLevels, b.best s = priceAt k ∧
      ∀ j ∈ b.occupiedLevels s, ¬ s.dir.Better j.val k.val := by
  rcases (h.indexed s).best with ⟨hempty, -⟩ | ⟨k, -, hbest, hbetter⟩
  · exact absurd (hempty i) (mem_occupiedLevels.mp hi)
  · exact ⟨k, hbest, fun j hj hb => mem_occupiedLevels.mp hj (hbetter j hb)⟩

/-- Better levels are nearer to the best price. -/
theorem ticks_lt (h : Inv b b.queue) (hi : i ∈ b.occupiedLevels s) (hj : j ∈ b.occupiedLevels s)
    (hb : s.dir.Better j.val i.val) : b.ticks s j < b.ticks s i := by
  obtain ⟨k, hbest, hbetter⟩ := best_of_mem h hi
  have hik := hbetter i hi
  have hjk := hbetter j hj
  rw [OrderBook.ticks, OrderBook.ticks, hbest, priceAt_toNat, priceAt_toNat, priceAt_toNat,
    Nat.dist, Nat.dist]
  cases s <;> simp only [BookSide.dir, Best.Better] at hb hik hjk <;> omega

theorem ticks_injOn (h : Inv b b.queue) (s : BookSide) :
    Set.InjOn (b.ticks s) (b.occupiedLevels s) := by
  intro i hi j hj heq
  apply Fin.ext
  apply s.dir.eq_of_not_better
  · exact fun hb => absurd heq (ticks_lt h hj hi hb).ne
  · exact fun hb => absurd heq (ticks_lt h hi hj hb).ne'

/-- A walk that passes the occupied levels of `n` ticks adds up what rests there. -/
theorem sum_walked {walked : Finset (Fin priceLevels)} {n : ℕ}
    (hwalk : ∀ i ∈ b.occupiedLevels s, i ∈ walked ↔ b.ticks s i < n) :
    walked.sum (b.restingQty s) = (near (b.occupiedLevels s) (b.ticks s) n).sum
      (b.restingQty s) := by
  refine (Finset.sum_subset (fun i hi => ?_) fun i hi hfar =>
    restingQty_eq_zero fun hocc => ?_).symm
  · obtain ⟨hocc, hn⟩ := Finset.mem_filter.mp hi
    exact (hwalk i hocc).mpr hn
  · exact hfar (Finset.mem_filter.mpr ⟨hocc, (hwalk i hocc).mp hi⟩)

theorem mem_below_iff (h : Inv b b.queue) (hi : i ∈ b.occupiedLevels .bids) (n : ℕ) :
    i ∈ below b.bestBid.toNat n ↔ b.ticks .bids i < n := by
  obtain ⟨k, hbest, hbetter⟩ := best_of_mem h hi
  have hik : ¬ k.val < i.val := hbetter i hi
  rw [below, Finset.mem_filter, OrderBook.ticks, OrderBook.bestBid, hbest, priceAt_toNat,
    priceAt_toNat, Nat.dist]
  simp only [Finset.mem_univ, true_and]
  omega

theorem mem_upFrom_iff (h : Inv b b.queue) (hi : i ∈ b.occupiedLevels .asks) (n : ℕ) :
    i ∈ upFrom (b.bestAsk.toNat - 1) n ↔ b.ticks .asks i < n := by
  obtain ⟨k, hbest, hbetter⟩ := best_of_mem h hi
  have hik : ¬ i.val < k.val := hbetter i hi
  rw [upFrom, Finset.mem_filter, OrderBook.ticks, OrderBook.bestAsk, hbest, priceAt_toNat,
    priceAt_toNat, Nat.dist]
  simp only [Finset.mem_univ, true_and]
  omega

theorem bestBid_le (h : Inv b b.queue) : b.bestBid.toNat ≤ priceLevels := by
  rw [OrderBook.bestBid]
  rcases (h.indexed .bids).best with ⟨-, hbest⟩ | ⟨k, -, hbest, -⟩
  · rw [hbest, noPrice_toNat]
    exact Nat.zero_le _
  · rw [hbest, priceAt_toNat]
    exact k.isLt

theorem bestAsk_bounds (h : Inv b b.queue) :
    1 ≤ b.bestAsk.toNat ∧ b.bestAsk.toNat ≤ priceLevels + 1 := by
  rw [OrderBook.bestAsk]
  rcases (h.indexed .asks).best with ⟨-, hbest⟩ | ⟨k, -, hbest, -⟩
  · rw [hbest, noPrice_toNat, priceLevels_eq]
    decide
  · have hk := k.isLt
    rw [hbest, priceAt_toNat]
    omega

/-- There are no more occupied levels than orders. -/
theorem card_occupiedLevels_le (h : Core b b.queue []) (s : BookSide) :
    (b.occupiedLevels s).card ≤ b.activeOrders := by
  have hlevel : (b.occupiedLevels s).map ⟨some, Option.some_injective _⟩ ⊆
      ((b.queue.resting s).map fun o => levelOf (b.order o).price).toFinset := by
    intro x hx
    obtain ⟨i, hi, rfl⟩ := Finset.mem_map.mp hx
    obtain ⟨o, ho⟩ := List.exists_mem_of_ne_nil _ (mem_occupiedLevels.mp hi)
    refine List.mem_toFinset.mpr (List.mem_map.mpr ⟨o, Queues.mem_resting.mpr ⟨i, ho⟩, ?_⟩)
    rw [(h.orders s i o ho).price, levelOf_priceAt]
    rfl
  have hcard := (Finset.card_le_card hlevel).trans (List.toFinset_card_le _)
  rw [Finset.card_map, List.length_map] at hcard
  rw [activeOrders_eq h]
  cases s <;> omega

/-- Two orders at two levels of a side are all of it. -/
theorem two_levels (h : Core b b.queue []) (hne : i ≠ j) (hi : i ∈ b.occupiedLevels s)
    (hj : j ∈ b.occupiedLevels s) (hactive : b.activeOrders = 2) :
    b.occupiedLevels s = {i, j} ∧ b.sideQty s = b.restingQty s i + b.restingQty s j := by
  have hsub : ({i, j} : Finset (Fin priceLevels)) ⊆ b.occupiedLevels s :=
    Finset.insert_subset hi (Finset.singleton_subset_iff.mpr hj)
  have hcard : (b.occupiedLevels s).card ≤ ({i, j} : Finset (Fin priceLevels)).card := by
    rw [Finset.card_pair hne, ← hactive]
    exact card_occupiedLevels_le h s
  have hpair := (Finset.eq_of_subset_of_card_le hsub hcard).symm
  exact ⟨hpair, by rw [← sum_occupiedLevels, hpair, Finset.sum_pair hne]⟩

/-- **The depth** is what rests within so many ticks of the best price. -/
theorem depth_eq (h : Inv b b.queue) (s : BookSide) (levels : Int32) :
    BookAnalytics.depth b s levels =
    some (UInt32.ofNat ((near (b.occupiedLevels s) (b.ticks s) levels.toInt.toNat).sum
      (b.restingQty s))) := by
  cases s with
  | bids =>
    rw [BookAnalytics.depth, BookAnalytics.bidDepth, bidDepthLoop_eq h.core 0 (bestBid_le h),
      sum_walked fun i hi => mem_below_iff h hi levels.toInt.toNat, UInt32.zero_add]
  | asks =>
    obtain ⟨hpos, hle⟩ := bestAsk_bounds h
    have hk : b.bestAsk.toNat = b.bestAsk.toNat - 1 + 1 := (Nat.sub_add_cancel hpos).symm
    rw [BookAnalytics.depth, BookAnalytics.askDepth,
      askDepthLoop_eq h.core 0 hk (Nat.sub_le_of_le_add hle),
      sum_walked fun i hi => mem_upFrom_iff h hi levels.toInt.toNat, UInt32.zero_add]

theorem depth_toNat (h : Inv b b.queue) (hfit : b.sideQty s < 2 ^ 32) (levels : Int32) :
    ∃ q, BookAnalytics.depth b s levels = some q ∧
      q.toNat = (near (b.occupiedLevels s) (b.ticks s) levels.toInt.toNat).sum
        (b.restingQty s) := by
  refine ⟨_, depth_eq h s levels, UInt32.toNat_ofNat_of_lt' (lt_of_le_of_lt ?_ hfit)⟩
  exact Finset.sum_le_sum_of_subset (Finset.subset_univ _)

/-- **The depth is exact** exactly when the best levels are near enough. -/
theorem depthExact_iff (h : Inv b b.queue) (hfit : b.sideQty s < 2 ^ 32) (levels : Int32) :
    DepthExact b s levels ↔ b.Compact s levels.toInt.toNat := by
  obtain ⟨q, hdepth, hq⟩ := depth_toNat h hfit levels
  have hsum : q.toNat = b.bestQty s levels.toInt.toNat ↔ b.Compact s levels.toInt.toNat := by
    rw [hq]
    exact sum_near_eq_iff (fun i hi j hj hb => ticks_lt h hi hj hb) (ticks_injOn h s) fun i hi =>
      restingQty_pos h.live hi
  constructor
  · intro hexact
    have hbest := hexact.best
    rw [hdepth, Option.map_some, Option.some.injEq] at hbest
    exact hsum.mp hbest
  · intro hcompact
    have hbest : (BookAnalytics.depth b s levels).map UInt32.toNat =
        some (b.bestQty s levels.toInt.toNat) := by
      rw [hdepth, Option.map_some, hsum.mpr hcompact]
    refine ⟨hbest, fun fewer hle x x' hx hx' => ?_, fun hcard => ?_⟩
    · obtain ⟨y, hfewer, hy⟩ := depth_toNat h hfit fewer
      obtain rfl := Option.some.inj (hfewer.symm.trans hx)
      obtain rfl := Option.some.inj (hdepth.symm.trans hx')
      rw [UInt32.le_iff_toNat_le, hy, hq]
      exact Finset.sum_le_sum_of_subset
        (near_mono (Int.toNat_le_toNat (Int32.le_iff_toInt_le.mp hle)))
    · rw [hbest, OrderBook.bestQty, OrderBook.bestLevels,
        first_of_card_le (fun i => s.dir.better_irrefl i.val) hcard, sum_occupiedLevels]

end Side

/-- **The depth of every reachable book**, on a side with less than 2³² shares, is what rests at the
best levels exactly when these are near enough. -/
theorem depth_exact_iff (hcap : cap < 2 ^ 32) (cs : List Call) :
    ∃ b rs, (OrderBook.new cap).run cs = some (b, rs) ∧
      ∀ s, b.sideQty s < 2 ^ 32 →
        ∀ levels : Int32, DepthExact b s levels ↔ b.Compact s levels.toInt.toNat := by
  obtain ⟨b, rs, Q, hrun, h⟩ := run_inv (new_inv cap) hcap cs
  obtain rfl := h.queue_eq
  exact ⟨b, rs, hrun, fun s hfit levels => depthExact_iff h hfit levels⟩

/-- The level of the price 98. -/
def level98 : Fin priceLevels := ⟨97, by decide⟩

/-- The level of the price 99. -/
def level99 : Fin priceLevels := ⟨98, by decide⟩

/-- Two bids at prices next to each other. -/
def adjacentBids : List Call :=
  [.addOrder 1 7 .buy .limit 100 5 0, .addOrder 2 7 .buy .limit 99 7 1]

/-- The depth of both levels is right. -/
theorem depth_exact_iff_adjacent :
    ∃ b rs, (OrderBook.new 2).run adjacentBids = some (b, rs) ∧ b.sideQty .bids = 12 ∧
      DepthExact b .bids 2 := by
  have hfacts : ((OrderBook.new 2).run adjacentBids).map
      (fun r => (r.1.best .bids, r.1.activeOrders, r.1.queue .bids level100,
        r.1.queue .bids level99, r.1.restingQty .bids level100, r.1.restingQty .bids level99)) =
      some (100, 2, [0], [1], 5, 7) := by decide
  obtain ⟨b, rs, hrun, hiff⟩ := depth_exact_iff (by decide : 2 < 2 ^ 32) adjacentBids
  obtain ⟨_, _, Q, hrun', h⟩ := run_inv (new_inv 2) (by decide) adjacentBids
  obtain ⟨rfl, rfl⟩ := Prod.mk.inj (Option.some.inj (hrun.symm.trans hrun'))
  obtain rfl := h.queue_eq
  rw [hrun, Option.map_some, Option.some.injEq] at hfacts
  simp only [Prod.mk.injEq] at hfacts
  obtain ⟨hbest, hactive, h100, h99, hq100, hq99⟩ := hfacts
  obtain ⟨hlevels, hside⟩ :=
    two_levels h.core (by decide : level100 ≠ level99)
    (mem_occupiedLevels.mpr (by rw [h100]; decide))
    (mem_occupiedLevels.mpr (by rw [h99]; decide)) hactive
  rw [hq100, hq99] at hside
  refine ⟨b, rs, hrun, hside, (hiff .bids (by rw [hside]; decide) 2).mpr fun i hi => ?_⟩
  have hmem := (Finset.mem_filter.mp hi).1
  rw [hlevels, Finset.mem_insert, Finset.mem_singleton] at hmem
  rw [OrderBook.ticks, hbest]
  rcases hmem with rfl | rfl <;> decide

/-- Two bids with a tick between their prices. -/
def gapBids : List Call := [.addOrder 1 7 .buy .limit 100 5 0, .addOrder 2 7 .buy .limit 98 7 1]

/-- **The depth of both levels has only the first.** -/
theorem depth_gap :
    ∃ b rs, (OrderBook.new 2).run gapBids = some (b, rs) ∧ b.sideQty .bids = 12 ∧
      (b.occupiedLevels .bids).card = 2 ∧
      BookAnalytics.bidDepth b 2 = some 5 ∧ ¬ DepthExact b .bids 2 := by
  have hfacts : ((OrderBook.new 2).run gapBids).map
    (fun r => (BookAnalytics.bidDepth r.1 2, r.1.activeOrders, r.1.queue .bids level100,
    r.1.queue .bids level98, r.1.restingQty .bids level100, r.1.restingQty .bids level98)) =
        some (some 5, 2, [0], [1], 5, 7) := by decide
  obtain ⟨b, rs, Q, hrun, h⟩ := run_inv (new_inv 2) (by decide) gapBids
  obtain rfl := h.queue_eq
  rw [hrun, Option.map_some, Option.some.injEq] at hfacts
  simp only [Prod.mk.injEq] at hfacts
  obtain ⟨hdepth, hactive, h100, h98, hq100, hq98⟩ := hfacts
  have hne : level100 ≠ level98 := by decide
  obtain ⟨hlevels, hside⟩ := two_levels h.core hne (mem_occupiedLevels.mpr (by rw [h100]; decide))
    (mem_occupiedLevels.mpr (by rw [h98]; decide)) hactive
  have hcard : (b.occupiedLevels .bids).card = 2 := by rw [hlevels, Finset.card_pair hne]
  rw [hq100, hq98] at hside
  refine ⟨b, rs, hrun, hside, hcard, hdepth, fun hexact => ?_⟩
  have hwhole := hexact.whole (by rw [hcard]; decide)
  rw [BookAnalytics.depth, hdepth, hside] at hwhole
  exact absurd hwhole (by decide)

end TradeFeed
