import Mathlib.Algebra.Order.Ring.Abs
import TradeFeed.Analytics.Vpin
import TradeFeed.Core.Runs

/-!
# What the best prices signal

`mid` and `imbalance` of every reachable book (`book_signals`). The mid price is half way between
the best prices. The imbalance is a ratio of what rests at them, but its total is a 32-bit sum: it
is right exactly when that does not wrap or the two are equal (`ratio_exact_iff`), and stays in
`[-1, 1]` for a few totals more (`ratio_mem_iff`).
-/

namespace TradeFeed

variable {cap : ℕ}

/-! ### A difference by a 32-bit sum -/

/-- What `imbalance` computes of two quantities. -/
def ratio (bq aq : Quantity) : ℚ :=
  if bq + aq > 0 then ((bq.toNat : ℚ) - aq.toNat) / (bq + aq).toNat else 0

section Ratio

variable {bq aq : Quantity}

/-- Where the sum is 0, so is the ratio. -/
theorem ratio_eq (bq aq : Quantity) :
    ratio bq aq = ((bq.toNat : ℚ) - aq.toNat) / (bq + aq).toNat := by
  rw [ratio]
  split_ifs with hpos
  · rfl
  · have h0 : (bq + aq).toNat = 0 :=
      Nat.eq_zero_of_not_pos fun h => hpos (UInt32.lt_iff_toNat_lt.mpr h)
    rw [h0, Nat.cast_zero, div_zero]

/-- A sum of two quantities that does not fit comes out 2³² too low. -/
theorem toNat_add_wraps (h : ¬ bq.toNat + aq.toNat < 2 ^ 32) :
    (bq + aq).toNat + 2 ^ 32 = bq.toNat + aq.toNat := by
  have hb := bq.toNat_lt
  have ha := aq.toNat_lt
  rw [UInt32.toNat_add]
  omega

/-- **The ratio is right** exactly when the sum fits, or there is nothing to divide. -/
theorem ratio_exact_iff (bq aq : Quantity) :
    ratio bq aq = ((bq.toNat : ℚ) - aq.toNat) / (bq.toNat + aq.toNat) ↔
      bq.toNat + aq.toNat < 2 ^ 32 ∨ bq = aq := by
  rw [ratio_eq]
  by_cases hfit : bq.toNat + aq.toNat < 2 ^ 32
  · rw [toNat_add_fits hfit, Nat.cast_add]
    exact iff_of_true rfl (Or.inl hfit)
  by_cases he : bq = aq
  · rw [he, sub_self, zero_div, zero_div]
    exact iff_of_true rfl (Or.inr rfl)
  refine iff_of_false (fun heq => ?_) (not_or.mpr ⟨hfit, he⟩)
  -- otherwise a number other than 0 is divided by two different ones
  have hdiff : (bq.toNat : ℚ) - aq.toNat ≠ 0 := fun h0 =>
    he (UInt32.toNat_inj.mp (by exact_mod_cast sub_eq_zero.mp h0))
  have hwrap := toNat_add_wraps hfit
  have hsum : ((bq + aq).toNat : ℚ) = bq.toNat + aq.toNat := by
    rw [div_eq_mul_inv, div_eq_mul_inv] at heq
    exact inv_injective (mul_left_cancel₀ hdiff heq)
  have hsum : (bq + aq).toNat = bq.toNat + aq.toNat := by exact_mod_cast hsum
  omega

/-- **It is a ratio** for a few sums more. -/
theorem ratio_mem_iff (bq aq : Quantity) :
    |ratio bq aq| ≤ 1 ↔ bq.toNat + aq.toNat ≤ 2 ^ 32 ∨ (2 ^ 31 ≤ bq.toNat ∧ 2 ^ 31 ≤ aq.toNat) := by
  have hb := bq.toNat_lt
  have ha := aq.toNat_lt
  rw [ratio_eq]
  by_cases h0 : (bq + aq).toNat = 0
  · have hle : bq.toNat + aq.toNat ≤ 2 ^ 32 := by
      by_contra hlt
      have hwraps : (bq + aq).toNat + 2 ^ 32 = bq.toNat + aq.toNat := toNat_add_wraps (by omega)
      omega
    rw [h0, Nat.cast_zero, div_zero, abs_zero]
    exact iff_of_true zero_le_one (Or.inl hle)
  · have hpos : (0 : ℚ) < (bq + aq).toNat := by exact_mod_cast Nat.pos_of_ne_zero h0
    have hints : |(bq.toNat : ℚ) - aq.toNat| ≤ (bq + aq).toNat ↔
        bq.toNat ≤ aq.toNat + (bq + aq).toNat ∧ aq.toNat ≤ bq.toNat + (bq + aq).toNat := by
      rw [abs_sub_le_iff, sub_le_iff_le_add', sub_le_iff_le_add']
      exact_mod_cast Iff.rfl
    rw [abs_div, abs_of_pos hpos, div_le_one hpos, hints]
    by_cases hfit : bq.toNat + aq.toNat < 2 ^ 32
    · rw [toNat_add_fits hfit]
      omega
    · have hwrap := toNat_add_wraps hfit
      omega

end Ratio

/-! ### Reachable books -/

/-- What `mid` and `imbalance` are, in terms of the best prices and what is published at them. -/
structure SignalsExact (b : OrderBook cap) : Prop where
  /-- With both sides occupied the mid price is half way between the best prices. -/
  mid : (occupiedPrices b .bids).Nonempty → (occupiedPrices b .asks).Nonempty →
    b.bestBid.toNat < BookAnalytics.mid b ∧ BookAnalytics.mid b < b.bestAsk.toNat ∧
      BookAnalytics.mid b - b.bestBid.toNat = b.bestAsk.toNat - BookAnalytics.mid b
  /-- The imbalance is right, and a ratio, exactly when the quantities allow it. -/
  imbalance : (occupiedPrices b .bids).Nonempty → (occupiedPrices b .asks).Nonempty →
    ∃ bq aq x, b.bidQtyAt b.bestBid = some bq ∧ b.askQtyAt b.bestAsk = some aq ∧
      BookAnalytics.imbalance b = some x ∧
      (x = ((bq.toNat : ℚ) - aq.toNat) / (bq.toNat + aq.toNat) ↔
        bq.toNat + aq.toNat < 2 ^ 32 ∨ bq = aq) ∧
      (|x| ≤ 1 ↔ bq.toNat + aq.toNat ≤ 2 ^ 32 ∨ (2 ^ 31 ≤ bq.toNat ∧ 2 ^ 31 ≤ aq.toNat))
  /-- With a side empty both are 0. -/
  empty : occupiedPrices b .bids = ∅ ∨ occupiedPrices b .asks = ∅ →
    BookAnalytics.mid b = 0 ∧ BookAnalytics.imbalance b = some 0

section Signals

variable {b : OrderBook cap} {Q : Queues cap}

/-- Both best prices are those of levels, if both sides are occupied. -/
theorem Inv.two_sided (h : Inv b Q) (hb : (occupiedPrices b .bids).Nonempty)
    (ha : (occupiedPrices b .asks).Nonempty) :
    ∃ i j, b.bestBid = priceAt i ∧ b.bestAsk = priceAt j := by
  have hlevel : ∀ s, (occupiedPrices b s).Nonempty → ∃ i, b.best s = priceAt i := fun s hs => by
    rcases best_spec h s with ⟨hempty, -⟩ | ⟨⟨i, hi, -⟩, -⟩
    · exact absurd hempty hs.ne_empty
    · exact ⟨i, hi⟩
  obtain ⟨i, hi⟩ := hlevel .bids hb
  obtain ⟨j, hj⟩ := hlevel .asks ha
  exact ⟨i, j, hi, hj⟩

theorem Inv.signalsExact (h : Inv b Q) : SignalsExact b where
  mid hb ha := by
    obtain ⟨i, j, hi, hj⟩ := h.two_sided hb ha
    have hlt : b.bestBid < b.bestAsk := h.uncrossed
    have hsum : (priceAt i + priceAt j).toNat = (priceAt i).toNat + (priceAt j).toNat := by
      refine toNat_add_fits ?_
      have hi : i.val < 1000000 := i.isLt
      have hj : j.val < 1000000 := j.isLt
      rw [priceAt_toNat, priceAt_toNat]
      omega
    have hmid : BookAnalytics.mid b = ((priceAt i).toNat + (priceAt j).toNat) / 2 := by
      rw [BookAnalytics.mid, hi, hj, hsum, Nat.cast_add, if_neg]
      simp [priceAt_ne_invalidPrice, priceAt_le_maxPrice]
    rw [hi, hj, UInt32.lt_iff_toNat_lt] at hlt
    have hlt : ((priceAt i).toNat : ℚ) < (priceAt j).toNat := by exact_mod_cast hlt
    rw [hmid, hi, hj]
    exact ⟨by linarith, by linarith, by linarith⟩
  imbalance hb ha := by
    obtain ⟨i, j, hi, hj⟩ := h.two_sided hb ha
    refine ⟨(b.levels .bids i).totalQty, (b.levels .asks j).totalQty, ratio _ _, ?_, ?_, ?_,
      ratio_exact_iff _ _, ratio_mem_iff _ _⟩
    · simp [OrderBook.bidQtyAt, hi]
    · simp [OrderBook.askQtyAt, hj]
    · rw [BookAnalytics.imbalance, hi, hj,
        if_neg (by simp [priceAt_ne_invalidPrice, priceAt_le_maxPrice])]
      simp [OrderBook.bidQtyAt, OrderBook.askQtyAt, ratio]
  empty hempty := by
    have hno : (decide (b.bestBid = invalidPrice) || decide (b.bestAsk > maxPrice)) = true := by
      rcases hempty with he | he
      · have hbid := ((best_spec h .bids).resolve_right fun e => by simp [he] at e).2
        simp [OrderBook.bestBid, hbid, BookSide.noPrice]
      · have hask := ((best_spec h .asks).resolve_right fun e => by simp [he] at e).2
        simp [OrderBook.bestAsk, hask, BookSide.noPrice, maxPrice]
    rw [BookAnalytics.mid, BookAnalytics.imbalance, if_pos hno, if_pos hno]
    exact ⟨rfl, rfl⟩

end Signals

/-- **The signals of every reachable book**: the mid price is half way between the best prices, and
the imbalance is what its name says exactly when the two quantities fit in 32 bits together, or are
equal. -/
theorem book_signals (hcap : cap < 2 ^ 32) (cs : List Call) :
    ∃ b rs, (OrderBook.new cap).run cs = some (b, rs) ∧ SignalsExact b := by
  obtain ⟨b, rs, Q, hrun, h⟩ := run_inv (new_inv cap) hcap cs
  exact ⟨b, rs, hrun, h.signalsExact⟩

/-- Quantities that do not fit together. -/
theorem book_signals_two :
    ∃ b rs, (OrderBook.new 2).run [.addOrder 1 7 .buy .limit 100 4294967295 0,
      .addOrder 2 8 .sell .limit 101 3 1] = some (b, rs) ∧ SignalsExact b :=
  book_signals (by decide) _

end TradeFeed
