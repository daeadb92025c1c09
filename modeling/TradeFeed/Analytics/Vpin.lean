import Mathlib.Algebra.Order.Field.Rat
import Mathlib.Tactic.Linarith
import TradeFeed.Analytics.BookAnalytics
import TradeFeed.Lib.History
import TradeFeed.Lib.Machine

/-!
# VPIN

The volume of the fills is cut into buckets, and VPIN is the mean imbalance of the last 50 that
are full. The counters of a bucket have 32 bits and are not checked: when a fill takes the one
for the whole bucket around, it begins again near 0 while the other two go on, and so the
imbalance that is stored in the end is not one.

`vpin_exact_iff` says that the counters and VPIN are what they should be after every fill of a
run exactly when no fill takes the counter of its bucket, or the 64-bit one of all fills, around.
-/

namespace TradeFeed

open Lib Lib.History Lib.Machine

/-! ### The fills -/

/-- The volume of fills. -/
def volume (fs : List FillCall) : ℕ := (fs.map fun c => c.qty.toNat).sum

/-- Of those with a buyer who came in. -/
def buys (fs : List FillCall) : ℕ := volume (fs.filter fun c => c.aggressorSide = .buy)

/-- Of the others. -/
def sells (fs : List FillCall) : ℕ := volume (fs.filter fun c => ¬ c.aggressorSide = .buy)

/-- What fills were worth. -/
def worth (fs : List FillCall) : ℚ := (fs.map fun c => (c.price.toNat * c.qty.toNat : ℚ)).sum

/-- The imbalance of the fills of a bucket. -/
def imbalance (fs : List FillCall) : ℚ := |(buys fs : ℚ) - sells fs| / (buys fs + sells fs)

/-- The analytics, with the buckets that were closed and the fills since then. -/
structure Filled where
  /-- The analytics. -/
  analytics : BookAnalytics
  /-- The fills of each closed bucket. -/
  closed : List (List FillCall)
  /-- The fills since. -/
  current : List FillCall

/-- All fills. -/
def Filled.fills (s : Filled) : List FillCall := s.closed.flatten ++ s.current

/-- A fill. A bucket closes when the source stores its imbalance. -/
def Filled.step (s : Filled) (c : FillCall) : Filled :=
  if (s.analytics.countFill c).currentBucketVol ≥ bucketVolume then ⟨s.analytics.onFill c,
    s.closed ++ [s.current ++ [c]], []⟩
  else ⟨s.analytics.onFill c, s.closed, s.current ++ [c]⟩

/-- A run of `on_fill` from the start. -/
def filled (cs : List FillCall) : Filled := run Filled.step ⟨.new, [], []⟩ cs

/-- VPIN and its counters are what they should be. -/
structure VpinExact (s : Filled) : Prop where
  /-- The bucket is not full. -/
  below : s.analytics.currentBucketVol.toNat < bucketVolume.toNat
  /-- Its volume is that of both sides. -/
  bucket : s.analytics.currentBucketVol.toNat = s.analytics.currentBuyVol.toNat +
    s.analytics.currentSellVol.toNat
  /-- The sides are those of the fills since the last bucket was closed. -/
  sides : s.analytics.currentBuyVol.toNat = buys s.current ∧
    s.analytics.currentSellVol.toNat = sells s.current
  /-- The total is that of all fills. -/
  total : s.analytics.totalVolume.toNat = volume s.fills
  /-- The history holds the imbalances of the last closed buckets. -/
  stored : Holds s.analytics.vpinHistory (s.closed.map imbalance)
  /-- They are ratios. -/
  ratios : ∀ i, 0 ≤ s.analytics.vpinHistory i ∧ s.analytics.vpinHistory i ≤ 1
  /-- VPIN is their mean. -/
  vpin : s.analytics.vpin = some (mean (latest vpinBuckets (s.closed.map imbalance)))
  /-- So it is a ratio too. -/
  ratio : ∀ x, s.analytics.vpin = some x → 0 ≤ x ∧ x ≤ 1

/-- The fill takes no counter around. -/
structure FillFits (a : BookAnalytics) (c : FillCall) : Prop where
  /-- That of the bucket. -/
  bucket : a.currentBucketVol.toNat + c.qty.toNat < 2 ^ 32
  /-- That of all fills. -/
  total : a.totalVolume.toNat + c.qty.toNat < 2 ^ 64

section Volumes

variable {fs : List FillCall} {c : FillCall}

theorem volume_append (fs gs : List FillCall) : volume (fs ++ gs) = volume fs + volume gs := by
  rw [volume, List.map_append, List.sum_append]
  rfl

theorem volume_concat (fs : List FillCall) (c : FillCall) :
    volume (fs ++ [c]) = volume fs + c.qty.toNat :=
  volume_append fs [c]

theorem volume_flatten (bs : List (List FillCall)) : volume bs.flatten = (bs.map volume).sum := by
  induction bs with
  | nil => rfl
  | cons b bs ih => rw [List.flatten_cons, volume_append, ih, List.map_cons, List.sum_cons]

theorem buys_concat (fs : List FillCall) (c : FillCall) :
    buys (fs ++ [c]) = buys fs + if c.aggressorSide = .buy then c.qty.toNat else 0 := by
  rw [buys, List.filter_append, volume_append, ← buys]
  by_cases hc : c.aggressorSide = .buy <;> simp [hc, volume]

theorem sells_concat (fs : List FillCall) (c : FillCall) :
    sells (fs ++ [c]) = sells fs + if c.aggressorSide = .buy then 0 else c.qty.toNat := by
  rw [sells, List.filter_append, volume_append, ← sells]
  by_cases hc : c.aggressorSide = .buy <;> simp [hc, volume]

/-- Every fill is on one side. -/
theorem buys_add_sells (fs : List FillCall) : buys fs + sells fs = volume fs := by
  induction fs using List.reverseRecOn with
  | nil => rfl
  | append_singleton fs c ih =>
    rw [buys_concat, sells_concat, volume_concat]
    split_ifs <;> omega

/-- **An imbalance is a ratio.** -/
theorem imbalance_mem (fs : List FillCall) : 0 ≤ imbalance fs ∧ imbalance fs ≤ 1 := by
  have hb : (0 : ℚ) ≤ buys fs := Nat.cast_nonneg _
  have hs : (0 : ℚ) ≤ sells fs := Nat.cast_nonneg _
  have habs : |(buys fs : ℚ) - sells fs| ≤ buys fs + sells fs :=
    abs_le.mpr ⟨by linarith, by linarith⟩
  exact ⟨div_nonneg (abs_nonneg _) (add_nonneg hb hs), div_le_one_of_le₀ habs (add_nonneg hb hs)⟩

end Volumes

/-! ### One fill -/

section Step

variable {a : BookAnalytics} {c : FillCall} {current fills : List FillCall}

/-- The counters are right. -/
structure Counts (a : BookAnalytics) (current fills : List FillCall) : Prop where
  /-- That of the buyers. -/
  buy : a.currentBuyVol.toNat = buys current
  /-- That of the sellers. -/
  sell : a.currentSellVol.toNat = sells current
  /-- That of the bucket. -/
  bucket : a.currentBucketVol.toNat = volume current
  /-- That of all fills. -/
  total : a.totalVolume.toNat = volume fills
  /-- What they were worth. -/
  numer : a.vwapNumer = worth fills

theorem toNat_add_fits {x y : UInt32} (h : x.toNat + y.toNat < 2 ^ 32) :
    (x + y).toNat = x.toNat + y.toNat := by
  rw [UInt32.toNat_add, Nat.mod_eq_of_lt h]

/-- **A fill that fits is counted.** -/
theorem Counts.countFill (h : Counts a current fills) (hfit : FillFits a c) :
    Counts (a.countFill c) (current ++ [c]) (fills ++ [c]) := by
  have hsplit := buys_add_sells current
  have hbucket := hfit.bucket
  rw [h.bucket] at hbucket
  refine ⟨?_, ?_, ?_, ?_, ?_⟩
  · rw [BookAnalytics.countFill_currentBuyVol, buys_concat, ← h.buy]
    split_ifs
    · exact toNat_add_fits (by rw [h.buy]; omega)
    · rfl
  · rw [BookAnalytics.countFill_currentSellVol, sells_concat, ← h.sell]
    split_ifs
    · rfl
    · exact toNat_add_fits (by rw [h.sell]; omega)
  · rw [BookAnalytics.countFill_currentBucketVol, volume_concat, ← h.bucket,
      toNat_add_fits hfit.bucket]
  · rw [BookAnalytics.countFill_totalVolume, volume_concat, ← h.total, UInt64.toNat_add,
      UInt32.toNat_toUInt64, Nat.mod_eq_of_lt hfit.total]
  · rw [BookAnalytics.countFill_vwapNumer, h.numer, worth, worth, List.map_append, List.sum_append,
      List.map_singleton, List.sum_singleton]

/-- **What a full bucket stores** is the imbalance of its fills. -/
theorem Counts.closeBucket (h : Counts a current fills) :
    a.closeBucket.vpinHistory = Function.update a.vpinHistory
      (Fin.ofNat vpinBuckets a.vpinIdx.toNat) (imbalance current) := by
  have hsplit := buys_add_sells current
  have hlt := a.currentBucketVol.toNat_lt
  have hbucket := h.bucket
  have htotal : (a.currentBuyVol + a.currentSellVol).toNat = buys current + sells current := by
    rw [toNat_add_fits (by rw [h.buy, h.sell]; omega), h.buy, h.sell]
  have hcast : ((a.currentBuyVol + a.currentSellVol).toNat : ℚ) = buys current + sells current := by
    rw [htotal, Nat.cast_add]
  refine congrArg (Function.update a.vpinHistory _) ?_
  rw [imbalance, ← hcast, h.buy, h.sell]
  split_ifs with hpos
  · rfl
  · -- without volume both are 0
    have h0 : (a.currentBuyVol + a.currentSellVol).toNat = 0 :=
      Nat.eq_zero_of_not_pos fun h => hpos (UInt32.lt_iff_toNat_lt.mpr h)
    rw [h0, Nat.cast_zero, div_zero]

/-- The loop of `vpin` sums the first cells. -/
theorem vpinLoop_eq (a : BookAnalytics) (sum : ℚ) {i n : ℕ} (h : i + n ≤ vpinBuckets) :
    a.vpinLoop sum i n =
      some (sum + ((List.range' i n).map fun j =>
      a.vpinHistory (Fin.ofNat vpinBuckets j)).sum) := by
  induction n generalizing sum i with
  | zero => rw [BookAnalytics.vpinLoop, List.range'_zero, List.map_nil, List.sum_nil, add_zero]
  | succ n ih =>
    have hi : i < vpinBuckets := by omega
    have hcell : Fin.ofNat vpinBuckets i = ⟨i, hi⟩ := Fin.ext (Nat.mod_eq_of_lt hi)
    rw [BookAnalytics.vpinLoop, dif_pos hi, ih _ (by omega), List.range'_succ, List.map_cons,
      List.sum_cons, hcell, add_assoc]

/-- `vpin` is the mean of the first cells. -/
theorem vpin_eq (h : a.vpinCount.toNat ≤ vpinBuckets) :
    a.vpin = some (mean ((List.range a.vpinCount.toNat).map fun j =>
      a.vpinHistory (Fin.ofNat vpinBuckets j))) := by
  unfold BookAnalytics.vpin
  split_ifs with h0
  · rw [h0]
    simp [mean]
  · rw [vpinLoop_eq a 0 (by omega), Option.map_some, zero_add, ← List.range_eq_range', mean,
      List.length_map, List.length_range]

end Step

/-! ### All fills -/

/-- The counters are right, and the history has the imbalances of the last buckets. -/
structure Books (s : Filled) : Prop where
  /-- The counters. -/
  counts : Counts s.analytics s.current s.fills
  /-- The bucket is not full. -/
  below : s.analytics.currentBucketVol.toNat < bucketVolume.toNat
  /-- The closed ones are. -/
  full : ∀ b ∈ s.closed, bucketVolume.toNat ≤ volume b
  /-- The index counts them. -/
  idx : s.analytics.vpinIdx.toNat = s.closed.length
  /-- So does the count, up to the length of the history. -/
  count : s.analytics.vpinCount.toNat = min vpinBuckets s.closed.length
  /-- The history has their imbalances. -/
  stored : Holds s.analytics.vpinHistory (s.closed.map imbalance)
  /-- They are ratios. -/
  ratios : ∀ i, 0 ≤ s.analytics.vpinHistory i ∧ s.analytics.vpinHistory i ≤ 1

section Run

variable {s : Filled} {c : FillCall}

theorem books_new : Books ⟨.new, [], []⟩ where
  counts := ⟨rfl, rfl, rfl, rfl, rfl⟩
  below := by decide
  full := fun _ h => absurd h List.not_mem_nil
  idx := rfl
  count := rfl
  stored := holds_nil _
  ratios := fun _ => ⟨le_rfl, zero_le_one⟩

/-- The total has the volume of every closed bucket. -/
theorem volume_closed {bs : List (List FillCall)} (h : ∀ b ∈ bs, bucketVolume.toNat ≤ volume b) :
    bs.length * bucketVolume.toNat ≤ volume bs.flatten := by
  rw [volume_flatten]
  have hsum := List.card_nsmul_le_sum (bs.map volume) bucketVolume.toNat (by simpa using h)
  rwa [List.length_map, nsmul_eq_mul, Nat.cast_id] at hsum

theorem close_fills (s : Filled) (c : FillCall) :
    (s.closed ++ [s.current ++ [c]]).flatten = s.fills ++ [c] := by
  rw [List.flatten_concat, ← List.append_assoc]
  rfl

/-- The index does not wrap, for the total would have to before. -/
theorem Books.idx_lt (h : Books s)
    (hcounts : Counts (s.analytics.countFill c) (s.current ++ [c]) (s.fills ++ [c]))
    (hclosed : ∀ b ∈ s.closed ++ [s.current ++ [c]], bucketVolume.toNat ≤ volume b) :
    s.analytics.vpinIdx.toNat + 1 < 2 ^ 64 := by
  have hmany := volume_closed hclosed
  have htotal := (s.analytics.countFill c).totalVolume.toNat_lt
  rw [close_fills, ← hcounts.total, List.length_append, List.length_singleton, ← h.idx,
    show bucketVolume.toNat = 10000 from rfl] at hmany
  omega

/-- **A bucket is closed.** -/
theorem Books.close (h : Books s)
    (hcounts : Counts (s.analytics.countFill c) (s.current ++ [c]) (s.fills ++ [c]))
    (hfull : (s.analytics.countFill c).currentBucketVol ≥ bucketVolume) :
    Books ⟨(s.analytics.countFill c).closeBucket, s.closed ++ [s.current ++ [c]], []⟩ := by
  have hvolume : bucketVolume.toNat ≤ volume (s.current ++ [c]) := by
    rw [← hcounts.bucket]
    exact UInt32.le_iff_toNat_le.mp hfull
  have hclosed : ∀ b ∈ s.closed ++ [s.current ++ [c]], bucketVolume.toNat ≤ volume b :=
    List.forall_mem_append.mpr ⟨h.full, List.forall_mem_singleton.mpr hvolume⟩
  have hidx := h.idx_lt hcounts hclosed
  refine ⟨⟨rfl, rfl, rfl, ?_, ?_⟩, (by decide : (0 : Quantity).toNat < bucketVolume.toNat), hclosed,
    ?_, ?_, ?_, ?_⟩
  · rw [Filled.fills, List.append_nil, close_fills]
    exact hcounts.total
  · rw [Filled.fills, List.append_nil, close_fills]
    exact hcounts.numer
  · rw [List.length_append, List.length_singleton, ← h.idx]
    simp only [BookAnalytics.closeBucket, BookAnalytics.countFill_vpinIdx]
    rw [UInt64.toNat_add, UInt64.toNat_one, Nat.mod_eq_of_lt hidx]
  · rw [List.length_append, List.length_singleton]
    simp only [BookAnalytics.closeBucket, BookAnalytics.countFill_vpinCount]
    have hcount := h.count
    have hbuckets : vpinBuckets = 50 := rfl
    split_ifs with hlt
    · rw [UInt64.toNat_add, UInt64.toNat_one, Nat.mod_eq_of_lt (by omega)]
      omega
    · omega
  · rw [hcounts.closeBucket, BookAnalytics.countFill_vpinHistory, BookAnalytics.countFill_vpinIdx,
      h.idx, List.map_append, List.map_singleton]
    have hpush := h.stored.push (imbalance (s.current ++ [c]))
    rwa [List.length_map] at hpush
  · intro i
    rw [hcounts.closeBucket, BookAnalytics.countFill_vpinHistory]
    rcases eq_or_ne i (Fin.ofNat vpinBuckets (s.analytics.countFill c).vpinIdx.toNat) with rfl | hne
    · rw [Function.update_self]
      exact imbalance_mem _
    · rw [Function.update_of_ne hne]
      exact h.ratios i

/-- **A fill that fits** keeps the books right. -/
theorem Books.step (h : Books s) (hfit : FillFits s.analytics c) : Books (s.step c) := by
  have hcounts := h.counts.countFill hfit
  by_cases hfull : (s.analytics.countFill c).currentBucketVol ≥ bucketVolume
  · have honfill : s.analytics.onFill c = (s.analytics.countFill c).closeBucket := if_pos hfull
    rw [Filled.step, if_pos hfull, honfill]
    exact h.close hcounts hfull
  · have honfill : s.analytics.onFill c = s.analytics.countFill c := if_neg hfull
    rw [Filled.step, if_neg hfull, honfill]
    refine ⟨?_, ?_, h.full, ?_, ?_, ?_, ?_⟩
    · rwa [Filled.fills, ← List.append_assoc]
    · exact UInt32.lt_iff_toNat_lt.mp (UInt32.not_le.mp hfull)
    all_goals simp only [BookAnalytics.countFill_vpinIdx, BookAnalytics.countFill_vpinCount,
      BookAnalytics.countFill_vpinHistory]
    exacts [h.idx, h.count, h.stored, h.ratios]

/-- **VPIN is exact** where the books are right. -/
theorem Books.exact (h : Books s) : VpinExact s := by
  have hvpin : s.analytics.vpin = some (mean (latest vpinBuckets (s.closed.map imbalance))) := by
    have hperm := h.stored.perm
    rw [List.length_map, ← h.count] at hperm
    rw [vpin_eq (by rw [h.count]; exact Nat.min_le_left _ _), mean_perm hperm]
  refine ⟨h.below, ?_, ⟨h.counts.buy, h.counts.sell⟩, h.counts.total, h.stored, h.ratios, hvpin,
    fun x hx => ?_⟩
  · rw [h.counts.bucket, h.counts.buy, h.counts.sell, buys_add_sells]
  · obtain rfl := Option.some.inj (hvpin.symm.trans hx)
    refine mean_mem (fun _ => ⟨le_rfl, zero_le_one⟩) fun x hx => ?_
    obtain ⟨b, -, rfl⟩ := List.mem_map.mp (mem_of_mem_latest hx)
    exact imbalance_mem b

/-- **The VWAP** is what the fills were worth by their volume. -/
theorem Books.vwap (h : Books s) : s.analytics.vwap = worth s.fills / volume s.fills := by
  have htotal := h.counts.total
  rw [BookAnalytics.vwap, h.counts.numer, ← htotal]
  split_ifs with hpos
  · rfl
  · have h0 : s.analytics.totalVolume.toNat = 0 :=
      Nat.eq_zero_of_not_pos fun h => hpos (UInt64.lt_iff_toNat_lt.mpr h)
    rw [h0, Nat.cast_zero, div_zero]

theorem step_analytics (s : Filled) (c : FillCall) :
    (s.step c).analytics = s.analytics.onFill c := by
  unfold Filled.step
  split_ifs <;> rfl

theorem step_fills (s : Filled) (c : FillCall) : (s.step c).fills = s.fills ++ [c] := by
  unfold Filled.step Filled.fills
  split_ifs <;> simp

/-- Where the books are right before a fill and VPIN is exact behind it, the fill fits. -/
theorem Books.fits (h : Books s) (hnext : VpinExact (s.step c)) : FillFits s.analytics c := by
  have hbelow := h.below
  rw [show bucketVolume.toNat = 10000 from rfl] at hbelow
  constructor
  · by_contra hwrap
    have hqty := c.qty.toNat_lt
    -- the bucket's counter begins again below its volume, and so does not close
    have hbucket : (s.analytics.countFill c).currentBucketVol.toNat + 2 ^ 32 =
        s.analytics.currentBucketVol.toNat + c.qty.toNat := by
      rw [BookAnalytics.countFill_currentBucketVol, UInt32.toNat_add]
      omega
    have hopen : ¬ (s.analytics.countFill c).currentBucketVol ≥ bucketVolume := by
      rw [ge_iff_le, UInt32.le_iff_toNat_le, show bucketVolume.toNat = 10000 from rfl]
      omega
    have honfill : s.analytics.onFill c = s.analytics.countFill c := if_neg hopen
    rw [Filled.step, if_neg hopen, honfill] at hnext
    have hsides := hnext.bucket
    simp only [hnext.sides.1, hnext.sides.2, buys_add_sells, volume_concat,
      ← h.counts.bucket] at hsides
    omega
  · have htotal := hnext.total
    have hlt := (s.analytics.onFill c).totalVolume.toNat_lt
    rw [step_analytics, step_fills, volume_concat, ← h.counts.total] at htotal
    omega

/-- The buckets are only looked at: the analytics are those of the calls. -/
theorem filled_analytics (cs : List FillCall) :
    (filled cs).analytics = run BookAnalytics.onFill .new cs := by
  have hrun : ∀ s : Filled,
      (run Filled.step s cs).analytics = run BookAnalytics.onFill s.analytics cs := by
    induction cs with
    | nil => exact fun _ => rfl
    | cons c cs ih => exact fun s => by rw [run_cons, ih, step_analytics, run_cons]
  exact hrun _

end Run

/-- **VPIN and its counters are exact after every fill of a run** exactly when no fill takes a
counter around. -/
theorem vpin_exact_iff (cs : List FillCall) :
    (∀ k, VpinExact (filled (cs.take k))) ↔
      ∀ k (hk : k < cs.length), FillFits (filled (cs.take k)).analytics cs[k] :=
  good_iff (fun _ h => h.exact) (fun _ _ h hfit => h.step hfit) (fun _ _ h hnext => h.fits hnext)
    books_new cs

/-- A fill of one share, one that takes the counter of the bucket around to 0, and one that fills it
again. -/
def wrapCalls : List FillCall := [⟨100, 1, .buy⟩, ⟨100, 4294967295, .sell⟩, ⟨100, 10000, .buy⟩]

/-- **VPIN above 1.** -/
theorem vpin_wraps :
    (filled (wrapCalls.take 2)).analytics.currentBucketVol = 0 ∧
      (filled (wrapCalls.take 2)).analytics.currentBuyVol = 1 ∧
      (filled (wrapCalls.take 2)).analytics.currentSellVol = 4294967295 ∧
      (filled wrapCalls).analytics.vpin = some (4294957294 / 10000) ∧
      ¬ ∀ k, VpinExact (filled (wrapCalls.take k)) := by
  have hcount : (filled wrapCalls).analytics.vpinCount.toNat = 1 := by decide
  have hcell : (filled wrapCalls).analytics.vpinHistory (Fin.ofNat vpinBuckets 0) =
      |((10001 : ℕ) : ℚ) - (4294967295 : ℕ)| / (10000 : ℕ) := rfl
  have hvpin : (filled wrapCalls).analytics.vpin = some (4294957294 / 10000) := by
    rw [vpin_eq (by rw [hcount]; decide), hcount, List.range_one, List.map_singleton, hcell]
    norm_num [mean]
  refine ⟨by decide, by decide, by decide, hvpin, fun hall => ?_⟩
  have hratio := (hall 3).ratio _ hvpin
  norm_num at hratio

end TradeFeed
