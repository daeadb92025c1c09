import Mathlib.Algebra.Order.Ring.Rat
import Mathlib.Data.Fin.Basic
import TradeFeed.Core.OrderBook

/-!
# Book analytics

`class BookAnalytics`: what is measured of the fills, call by call of `on_fill`, and how deep the
book is. Floating-point numbers are rationals and their arithmetic is exact. An element outside
of an array is undefined.
-/

namespace TradeFeed

/-- `VPIN_BUCKETS`. -/
def vpinBuckets : ℕ := 50

/-- `BUCKET_VOLUME`. -/
def bucketVolume : Quantity := 10000

instance : NeZero vpinBuckets := ⟨by decide⟩

/-- The fields of `BookAnalytics`. -/
structure BookAnalytics where
  /-- `total_volume_`. -/
  totalVolume : UInt64
  /-- `vwap_numer_`. -/
  vwapNumer : ℚ
  /-- `current_buy_vol_`. -/
  currentBuyVol : Quantity
  /-- `current_sell_vol_`. -/
  currentSellVol : Quantity
  /-- `current_bucket_vol_`. -/
  currentBucketVol : Quantity
  /-- `vpin_history_`. -/
  vpinHistory : Fin vpinBuckets → ℚ
  /-- `vpin_idx_`. -/
  vpinIdx : UInt64
  /-- `vpin_count_`. -/
  vpinCount : UInt64

/-- The arguments of a call of `on_fill`. -/
structure FillCall where
  /-- The price. -/
  price : Price
  /-- The quantity. -/
  qty : Quantity
  /-- The side of the order that came in. -/
  aggressorSide : Side

namespace BookAnalytics

/-- What the fields are at first. -/
def new : BookAnalytics := ⟨0, 0, 0, 0, 0, fun _ => 0, 0, 0⟩

/-- The end of `on_fill` when the bucket is full: its imbalance is stored, and the next one
begins. -/
def closeBucket (a : BookAnalytics) : BookAnalytics :=
  let total := a.currentBuyVol + a.currentSellVol
  let imbalance :=
    if total > 0 then |(a.currentBuyVol.toNat : ℚ) - a.currentSellVol.toNat| / total.toNat else 0
  { a with
    vpinHistory := Function.update a.vpinHistory (Fin.ofNat vpinBuckets a.vpinIdx.toNat) imbalance
    vpinIdx := a.vpinIdx + 1
    vpinCount := if a.vpinCount.toNat < vpinBuckets then a.vpinCount + 1 else a.vpinCount
    currentBuyVol := 0, currentSellVol := 0, currentBucketVol := 0 }

/-- The beginning of `on_fill`: the fill is counted. -/
def countFill (a : BookAnalytics) (c : FillCall) : BookAnalytics :=
  let a := { a with totalVolume := a.totalVolume + c.qty.toUInt64, vwapNumer :=
    a.vwapNumer + c.price.toNat * c.qty.toNat }
  let a :=
    if c.aggressorSide = .buy then { a with currentBuyVol := a.currentBuyVol + c.qty }
    else { a with currentSellVol := a.currentSellVol + c.qty }
  { a with currentBucketVol := a.currentBucketVol + c.qty }

section CountFill

variable (a : BookAnalytics) (c : FillCall)

theorem countFill_totalVolume : (a.countFill c).totalVolume = a.totalVolume + c.qty.toUInt64 := by
  unfold countFill
  split_ifs <;> rfl

theorem countFill_vwapNumer :
    (a.countFill c).vwapNumer = a.vwapNumer + c.price.toNat * c.qty.toNat := by
  unfold countFill
  split_ifs <;> rfl

theorem countFill_currentBuyVol :
    (a.countFill c).currentBuyVol =
      if c.aggressorSide = .buy then a.currentBuyVol + c.qty else a.currentBuyVol := by
  unfold countFill
  split_ifs <;> rfl

theorem countFill_currentSellVol :
    (a.countFill c).currentSellVol =
      if c.aggressorSide = .buy then a.currentSellVol else a.currentSellVol + c.qty := by
  unfold countFill
  split_ifs <;> rfl

theorem countFill_currentBucketVol :
    (a.countFill c).currentBucketVol = a.currentBucketVol + c.qty := by
  unfold countFill
  split_ifs <;> rfl

@[simp] theorem countFill_vpinHistory : (a.countFill c).vpinHistory = a.vpinHistory := by
  unfold countFill
  split_ifs <;> rfl

@[simp] theorem countFill_vpinIdx : (a.countFill c).vpinIdx = a.vpinIdx := by
  unfold countFill
  split_ifs <;> rfl

@[simp] theorem countFill_vpinCount : (a.countFill c).vpinCount = a.vpinCount := by
  unfold countFill
  split_ifs <;> rfl

end CountFill

/-- `on_fill(price, qty, aggressor_side)`. -/
def onFill (a : BookAnalytics) (c : FillCall) : BookAnalytics :=
  let a := a.countFill c
  if a.currentBucketVol ≥ bucketVolume then a.closeBucket else a

/-- `vwap()`. -/
def vwap (a : BookAnalytics) : ℚ :=
  if a.totalVolume > 0 then a.vwapNumer / a.totalVolume.toNat else 0

/-- `volume()`. -/
def volume (a : BookAnalytics) : UInt64 := a.totalVolume

/-- The loop of `vpin`, from `i` on and for so many passes. -/
def vpinLoop (a : BookAnalytics) (sum : ℚ) (i : ℕ) : ℕ → Option ℚ
  | 0 => some sum
  | n + 1 => if h : i < vpinBuckets then vpinLoop a (sum + a.vpinHistory ⟨i, h⟩) (i + 1) n else none

/-- `vpin()`. -/
def vpin (a : BookAnalytics) : Option ℚ :=
  if a.vpinCount = 0 then some 0
    else (a.vpinLoop 0 0 a.vpinCount.toNat).map fun sum => sum / a.vpinCount.toNat

variable {cap : ℕ}

/-- `mid(book)`: the best prices are added in 32 bits. -/
def mid (b : OrderBook cap) : ℚ :=
  if b.bestBid = invalidPrice || b.bestAsk > maxPrice then 0
    else ((b.bestBid + b.bestAsk).toNat : ℚ) / 2

/-- `imbalance(book)`: the difference has 64 bits, and the total 32. -/
def imbalance (b : OrderBook cap) : Option ℚ :=
  if b.bestBid = invalidPrice || b.bestAsk > maxPrice then some 0
  else do
    let bq ← b.bidQtyAt b.bestBid
    let aq ← b.askQtyAt b.bestAsk
    let total := bq + aq
    return if total > 0 then ((bq.toNat : ℚ) - aq.toNat) / total.toNat else 0

/-- The loop of `bid_depth`, from `p` down and for so many passes at most. -/
def bidDepthLoop (b : OrderBook cap) (total : Quantity) (p : Price) : ℕ → Option Quantity
  | 0 => some total
  | n + 1 =>
    if p < minPrice then some total
    else do
      let q ← b.bidQtyAt p
      if p = minPrice then some (total + q) else bidDepthLoop b (total + q) (p - 1) n

/-- `bid_depth(book, levels)`. -/
def bidDepth (b : OrderBook cap) (levels : Int32) : Option Quantity :=
  bidDepthLoop b 0 b.bestBid levels.toInt.toNat

/-- The loop of `ask_depth`, from `p` up. -/
def askDepthLoop (b : OrderBook cap) (total : Quantity) (p : Price) : ℕ → Option Quantity
  | 0 => some total
  | n + 1 =>
    if p > maxPrice then some total
    else do
      let q ← b.askQtyAt p
      askDepthLoop b (total + q) (p + 1) n

/-- `ask_depth(book, levels)`. -/
def askDepth (b : OrderBook cap) (levels : Int32) : Option Quantity :=
  askDepthLoop b 0 b.bestAsk levels.toInt.toNat

end BookAnalytics

end TradeFeed
