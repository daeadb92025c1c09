import Mathlib.Data.List.Basic
import Mathlib.Data.List.Nodup
import Mathlib.Algebra.BigOperators.Group.List.Basic
import Mathlib.Algebra.GroupWithZero.Nat
import Mathlib.Algebra.Order.BigOperators.Group.List

/-!
# Price-time priority

Resting orders have a price and a quantity that is left; an incoming order with
a quantity of its own trades against them. Two ways to match are defined, over
any type of orders (`Tradable`).

* `naive` — the resting orders stand in order of arrival. Each round finds the
  best price, then the earliest order at that price, and trades with it.
* `sweep` — the resting orders stand in order of priority. They are taken from
  the front until the incoming quantity is used up or the price is no longer
  acceptable.

`naive_sweep` says the two do the same trades and leave the same orders, when
the second list arranges the first by price and, within a price, by arrival
(`Arranged`). The lemmas about `sweep` say what matching conserves
(`sweep_conserves`), what it leaves (`sweep_parts`), when it stops
(`sweep_stops`) and how it composes (`sweep_append`, `sweep_map`, `sweep_add`).
-/

namespace TradeFeed.Lib

/-- What can rest in a book: it has a price and a remaining quantity, and part of
it can be filled. -/
class Tradable (α : Type*) where
  /-- The price. -/
  price : α → ℕ
  /-- The quantity that is left. -/
  remaining : α → ℕ
  /-- The order with some of what is left filled. -/
  fill : α → ℕ → α
  price_fill : ∀ a q, price (fill a q) = price a
  remaining_fill : ∀ a q, q ≤ remaining a → remaining (fill a q) = remaining a - q

namespace PriceTime

open Tradable

variable {α β : Type*} [Tradable α] [Tradable β]

/-- Which price of a side is its best. -/
inductive Best where
  /-- The lowest, as for sellers. -/
  | lowest
  /-- The highest, as for buyers. -/
  | highest
  deriving DecidableEq

/-- The first price is strictly better than the second. -/
def Best.Better : Best → ℕ → ℕ → Prop
  | .lowest, p, q => p < q
  | .highest, p, q => q < p

instance (d : Best) (p q : ℕ) : Decidable (d.Better p q) := by
  cases d <;> unfold Best.Better <;> infer_instance

theorem Best.Better.asymm {d : Best} {p q : ℕ} (h : d.Better p q) : ¬ d.Better q p := by
  cases d <;> simp only [Best.Better] at * <;> omega

theorem Best.better_irrefl (d : Best) (p : ℕ) : ¬ d.Better p p := by
  cases d <;> simp [Best.Better]

theorem Best.eq_of_not_better {d : Best} {p q : ℕ} (h₁ : ¬ d.Better p q) (h₂ : ¬ d.Better q p) :
    p = q := by
  cases d <;> simp only [Best.Better] at * <;> omega

theorem Best.not_better_trans {d : Best} {p q r : ℕ} (h₁ : ¬ d.Better q p) (h₂ : ¬ d.Better r q) :
    ¬ d.Better r p := by
  cases d <;> simp only [Best.Better] at * <;> omega

/-- What matching comes to: the trades, each with the resting order as it was
before it, the quantity of the incoming order that is left, and the resting
orders that are left. -/
structure Matched (α : Type*) where
  /-- The trades, in order. -/
  trades : List (α × ℕ)
  /-- What is left of the incoming order. -/
  left : ℕ
  /-- The resting orders afterwards. -/
  rest : List α

/-! ### Sweeping a list in order of priority -/

/-- Match a quantity against resting orders in order of priority, as long as
their prices are acceptable. -/
def sweep (ok : ℕ → Bool) : ℕ → List α → Matched α
  | n, [] => ⟨[], n, []⟩
  | n, a :: l =>
    if n = 0 ∨ ok (price a) = false then ⟨[], n, a :: l⟩
    else if remaining a ≤ n then
      let s := sweep ok (n - remaining a) l
      ⟨(a, remaining a) :: s.trades, s.left, s.rest⟩
    else ⟨[(a, n)], 0, fill a n :: l⟩

variable {ok : ℕ → Bool}

@[simp] theorem sweep_nil (n : ℕ) : sweep ok n ([] : List α) = ⟨[], n, []⟩ := rfl

@[simp] theorem sweep_zero (l : List α) : sweep ok 0 l = ⟨[], 0, l⟩ := by
  cases l <;> simp [sweep]

theorem sweep_refuse {a : α} (h : ok (price a) = false) (n : ℕ) (l : List α) :
    sweep ok n (a :: l) = ⟨[], n, a :: l⟩ := by
  simp [sweep, h]

theorem sweep_full {n : ℕ} {a : α} (hn : n ≠ 0) (h : ok (price a) = true) (hr : remaining a ≤ n)
    (l : List α) :
    sweep ok n (a :: l) = ⟨(a, remaining a) :: (sweep ok (n - remaining a) l).trades,
      (sweep ok (n - remaining a) l).left, (sweep ok (n - remaining a) l).rest⟩ := by
  simp [sweep, hn, h, hr]

theorem sweep_short {n : ℕ} {a : α} (hn : n ≠ 0) (h : ok (price a) = true) (hr : n < remaining a)
    (l : List α) : sweep ok n (a :: l) = ⟨[(a, n)], 0, fill a n :: l⟩ := by
  simp [sweep, hn, h, Nat.not_le.mpr hr]

/-- The quantity traded and the quantity left make the quantity that came in. -/
theorem sweep_conserves (ok : ℕ → Bool) (n : ℕ) (l : List α) :
    ((sweep ok n l).trades.map Prod.snd).sum + (sweep ok n l).left = n := by
  induction l generalizing n with
  | nil => exact Nat.zero_add n
  | cons a l ih =>
    by_cases hn : n = 0
    · rw [hn, sweep_zero]
      rfl
    cases ha : ok (price a) with
    | false =>
      rw [sweep_refuse ha]
      exact Nat.zero_add n
    | true =>
      rcases Nat.lt_or_ge n (remaining a) with hr | hr
      · rw [sweep_short hn ha hr]
        exact List.sum_singleton
      · have := ih (n - remaining a)
        simp only [sweep_full hn ha hr, List.map_cons, List.sum_cons]
        omega

theorem sweep_left_le (ok : ℕ → Bool) (n : ℕ) (l : List α) : (sweep ok n l).left ≤ n := by
  have := sweep_conserves ok n l
  omega

/-- **What a sweep does to the list**: orders at the front are used up, each traded
for all it had; then at most one more is filled in part, which uses up the
incoming quantity; the others are as they were. -/
theorem sweep_parts (ok : ℕ → Bool) (n : ℕ) (l : List α) :
    ∃ done rest, l = done ++ rest ∧ (∀ a ∈ done, ok (price a) = true) ∧
      (((sweep ok n l).trades = done.map (fun a => (a, remaining a)) ∧ (sweep ok n l).rest = rest) ∨
        ∃ a tail m, rest = a :: tail ∧ 0 < m ∧ m < remaining a ∧ ok (price a) = true ∧
          (sweep ok n l).trades = done.map (fun a => (a, remaining a)) ++ [(a, m)] ∧
          (sweep ok n l).left = 0 ∧ (sweep ok n l).rest = fill a m :: tail) := by
  induction l generalizing n with
  | nil => exact ⟨[], [], by simp⟩
  | cons a l ih =>
    by_cases hn : n = 0
    · exact ⟨[], a :: l, by simp [hn]⟩
    cases ha : ok (price a) with
    | false => exact ⟨[], a :: l, by simp [sweep_refuse ha]⟩
    | true =>
      rcases Nat.lt_or_ge n (remaining a) with hr | hr
      · refine ⟨[], a :: l, rfl, by simp, Or.inr ⟨a, l, n, rfl, by omega, hr, ha, ?_⟩⟩
        simp [sweep_short hn ha hr]
      · obtain ⟨done, rest, rfl, hd, h⟩ := ih (n - remaining a)
        refine ⟨a :: done, rest, rfl, by simpa [ha] using hd, ?_⟩
        rw [sweep_full hn ha hr]
        rcases h with ⟨ht, hrest⟩ | ⟨b, tail, m, rfl, hm, hmb, hb, ht, hl, hrest⟩
        · exact Or.inl ⟨by simp [ht], hrest⟩
        · exact Or.inr ⟨b, tail, m, rfl, hm, hmb, hb, by simp [ht], hl, hrest⟩

/-- Each trade uses an order up, or is the last one. -/
theorem sweep_lengths (ok : ℕ → Bool) (n : ℕ) (l : List α) :
    (sweep ok n l).trades.length + (sweep ok n l).rest.length = l.length ∨
      ((sweep ok n l).trades.length + (sweep ok n l).rest.length = l.length + 1 ∧
        (sweep ok n l).left = 0) := by
  obtain ⟨done, rest, hl, -, ⟨ht, hr⟩ | ⟨a, tail, m, hrest, -, -, -, ht, hleft, hr⟩⟩ :=
    sweep_parts ok n l
  · rw [ht, hr, List.length_map, hl, List.length_append]
    exact Or.inl rfl
  · have hlen : l.length = done.length + (tail.length + 1) := by
      rw [hl, hrest, List.length_append, List.length_cons]
    refine Or.inr ⟨?_, hleft⟩
    rw [ht, hr, hlen]
    simp only [List.length_append, List.length_map, List.length_cons, List.length_nil]
    omega

/-- A sweep stops because nothing is left on one side, or because the next price is
not acceptable. -/
theorem sweep_stops (ok : ℕ → Bool) (n : ℕ) (l : List α) :
    (sweep ok n l).left = 0 ∨ (sweep ok n l).rest = [] ∨
      ∃ a tail, (sweep ok n l).rest = a :: tail ∧ ok (price a) = false := by
  induction l generalizing n with
  | nil => simp
  | cons a l ih =>
    by_cases hn : n = 0
    · simp [hn]
    cases ha : ok (price a) with
    | false => exact Or.inr (Or.inr ⟨a, l, by simp [sweep_refuse ha, ha]⟩)
    | true =>
      rcases Nat.lt_or_ge n (remaining a) with hr | hr
      · simp [sweep_short hn ha hr]
      · simpa [sweep_full hn ha hr] using ih (n - remaining a)

/-- Sweeping two lists one after the other: the second is reached when the first is
used up. -/
theorem sweep_append (n : ℕ) (l₁ l₂ : List α) (h : (sweep ok n l₁).rest = []) :
    sweep ok n (l₁ ++ l₂) =
      ⟨(sweep ok n l₁).trades ++ (sweep ok (sweep ok n l₁).left l₂).trades,
        (sweep ok (sweep ok n l₁).left l₂).left, (sweep ok (sweep ok n l₁).left l₂).rest⟩ := by
  induction l₁ generalizing n with
  | nil => simp
  | cons a l ih =>
    by_cases hn : n = 0
    · simp [hn] at h
    cases ha : ok (price a) with
    | false => simp [sweep_refuse ha] at h
    | true =>
      rcases Nat.lt_or_ge n (remaining a) with hr | hr
      · simp [sweep_short hn ha hr] at h
      · rw [sweep_full hn ha hr] at h ⊢
        rw [List.cons_append, sweep_full hn ha hr, ih _ h]
        simp

/-- When the incoming quantity is used up in the first list, the second is not
touched. -/
theorem sweep_append_of_left_eq_zero (n : ℕ) (l₁ l₂ : List α) (h : (sweep ok n l₁).left = 0) :
    sweep ok n (l₁ ++ l₂) = ⟨(sweep ok n l₁).trades, 0, (sweep ok n l₁).rest ++ l₂⟩ := by
  induction l₁ generalizing n with
  | nil =>
    obtain rfl : n = 0 := h
    simp
  | cons a l ih =>
    by_cases hn : n = 0
    · simp [hn]
    cases ha : ok (price a) with
    | false => simp [sweep_refuse ha, hn] at h
    | true =>
      rcases Nat.lt_or_ge n (remaining a) with hr | hr
      · simp [sweep_short hn ha hr]
      · rw [sweep_full hn ha hr] at h ⊢
        rw [List.cons_append, sweep_full hn ha hr, ih _ h]

/-- Only the answers on the prices of the list matter. -/
theorem sweep_congr {ok' : ℕ → Bool} (n : ℕ) (l : List α)
    (h : ∀ a ∈ l, ok (price a) = ok' (price a)) :
    sweep ok n l = sweep ok' n l := by
  induction l generalizing n with
  | nil => rfl
  | cons a l ih =>
    simp only [sweep, h a (by simp), ih _ fun b hb => h b (by simp [hb])]

/-- A map of orders that keeps prices and quantities commutes with sweeping. -/
theorem sweep_map {f : α → β} (hp : ∀ a, price (f a) = price a)
    (hr : ∀ a, remaining (f a) = remaining a)
    (hf : ∀ a q, q ≤ remaining a → f (fill a q) = fill (f a) q) (n : ℕ) (l : List α) :
    sweep ok n (l.map f) = ⟨(sweep ok n l).trades.map (Prod.map f id), (sweep ok n l).left,
      (sweep ok n l).rest.map f⟩ := by
  induction l generalizing n with
  | nil => rfl
  | cons a l ih =>
    by_cases hn : n = 0
    · simp [hn]
    cases ha : ok (price a) with
    | false => rw [List.map_cons, sweep_refuse (by rw [hp, ha]), sweep_refuse ha]; rfl
    | true =>
      have ha' : ok (price (f a)) = true := by rw [hp, ha]
      rcases Nat.lt_or_ge n (remaining a) with hlt | hge
      · rw [List.map_cons, sweep_short hn ha' (by rwa [hr]), sweep_short hn ha hlt]
        simp [hf a n hlt.le]
      · rw [List.map_cons, sweep_full hn ha' (by rwa [hr]), sweep_full hn ha hge, hr, ih]
        simp

/-- Every trade is with an order of the list, at an acceptable price. -/
theorem mem_trades (n : ℕ) (l : List α) {t : α × ℕ} (h : t ∈ (sweep ok n l).trades) :
    t.1 ∈ l ∧ t.2 ≤ remaining t.1 ∧ ok (price t.1) = true := by
  obtain ⟨done, rest, rfl, hd, h' | ⟨a, tail, m, rfl, hm, hma, ha, h', -⟩⟩ := sweep_parts ok n l
  · rw [h'.1, List.mem_map] at h
    obtain ⟨b, hb, rfl⟩ := h
    exact ⟨by simp [hb], le_rfl, hd b hb⟩
  · rw [h', List.mem_append, List.mem_map, List.mem_singleton] at h
    rcases h with ⟨b, hb, rfl⟩ | rfl
    · exact ⟨by simp [hb], le_rfl, hd b hb⟩
    · exact ⟨by simp, hma.le, ha⟩

/-- There are no more trades than orders to trade with. -/
theorem trades_length_le (ok : ℕ → Bool) (n : ℕ) (l : List α) :
    (sweep ok n l).trades.length ≤ l.length := by
  obtain ⟨done, rest, rfl, -, h' | ⟨a, tail, m, rfl, -, -, -, h', -⟩⟩ := sweep_parts ok n l
  · rw [h'.1, List.length_map, List.length_append]
    exact Nat.le_add_right _ _
  · rw [h', List.length_append, List.length_map, List.length_append]
    exact Nat.add_le_add_left (Nat.succ_le_succ (Nat.zero_le _)) _

/-- **The trades are with the orders at the front**, in order, and each but the last is for
all that the order had left. -/
theorem trades_front (n : ℕ) (l : List α) {k : ℕ} {t : α × ℕ}
    (h : (sweep ok n l).trades[k]? = some t) :
    l[k]? = some t.1 ∧ (k + 1 < (sweep ok n l).trades.length → t.2 = remaining t.1) := by
  induction l generalizing n k with
  | nil => simp at h
  | cons a l ih =>
    by_cases hn : n = 0
    · simp [hn] at h
    cases ha : ok (price a) with
    | false => simp [sweep_refuse ha] at h
    | true =>
      rcases Nat.lt_or_ge n (remaining a) with hr | hr
      · rw [sweep_short hn ha hr] at h ⊢
        cases k with
        | zero =>
          obtain rfl : (a, n) = t := by simpa using h
          exact ⟨rfl, fun hlt => absurd hlt (by simp)⟩
        | succ k => simp at h
      · rw [sweep_full hn ha hr] at h ⊢
        cases k with
        | zero =>
          obtain rfl : (a, remaining a) = t := by simpa using h
          exact ⟨rfl, fun _ => rfl⟩
        | succ k =>
          obtain ⟨hl, hq⟩ := ih _ (by simpa using h)
          exact ⟨by simpa using hl, fun hlt => hq (by simpa using hlt)⟩

/-- The orders left stood behind all the orders traded with, except that the last of these
may be left in part. -/
theorem rest_behind (n : ℕ) (l : List α) :
    ∃ j, (sweep ok n l).trades.length ≤ j + 1 ∧
      ∀ b ∈ (sweep ok n l).rest, ∃ a ∈ l.drop j, b = a ∨ ∃ m, b = fill a m := by
  have untouched :
      ∀ (l : List α), ∀ b ∈ l, ∃ a ∈ l.drop 0, b = a ∨ ∃ m, b = fill a m := fun l b hb =>
    ⟨b, hb, Or.inl rfl⟩
  induction l generalizing n with
  | nil => exact ⟨0, by simp⟩
  | cons a l ih =>
    by_cases hn : n = 0
    · exact ⟨0, by simp [hn], by simpa [hn] using untouched (a :: l)⟩
    cases ha : ok (price a) with
    | false =>
      exact ⟨0, by simp [sweep_refuse ha], by simpa [sweep_refuse ha] using untouched (a :: l)⟩
    | true =>
      rcases Nat.lt_or_ge n (remaining a) with hr | hr
      · rw [sweep_short hn ha hr]
        refine ⟨0, le_rfl, fun b hb => ?_⟩
        rcases List.mem_cons.mp hb with rfl | hb
        · exact ⟨a, by simp, Or.inr ⟨n, rfl⟩⟩
        · exact ⟨b, by simp [hb], Or.inl rfl⟩
      · rw [sweep_full hn ha hr]
        obtain ⟨j, hj, hmem⟩ := ih (n - remaining a)
        exact ⟨j + 1, Nat.succ_le_succ hj, hmem⟩

/-- No trade is empty, when every resting order has something left. -/
theorem trades_pos (n : ℕ) (l : List α) (hl : ∀ a ∈ l, 0 < remaining a) {t : α × ℕ}
    (h : t ∈ (sweep ok n l).trades) : 0 < t.2 := by
  obtain ⟨done, rest, rfl, -, h' | ⟨a, tail, m, rfl, hm, -, -, h', -⟩⟩ := sweep_parts ok n l
  · rw [h'.1, List.mem_map] at h
    obtain ⟨b, hb, rfl⟩ := h
    exact hl b (by simp [hb])
  · rw [h', List.mem_append, List.mem_map, List.mem_singleton] at h
    rcases h with ⟨b, hb, rfl⟩ | rfl
    · exact hl b (by simp [hb])
    · exact hm

/-- What is left was there before, as it was or filled in part. -/
theorem mem_rest (n : ℕ) (l : List α) {b : α} (h : b ∈ (sweep ok n l).rest) :
    b ∈ l ∨ ∃ a ∈ l, ∃ m, b = fill a m := by
  obtain ⟨done, rest, rfl, -, h' | ⟨a, tail, m, rfl, -, -, -, -, -, h'⟩⟩ := sweep_parts ok n l
  · rw [h'.2] at h
    exact Or.inl (by simp [h])
  · rw [h'] at h
    rcases List.mem_cons.mp h with rfl | h
    · exact Or.inr ⟨a, by simp, m, rfl⟩
    · exact Or.inl (by simp [h])

/-! ### How much is traded -/

section Amounts

variable {n m : ℕ} {l : List α}

/-- What is left of the orders at acceptable prices. -/
def acceptable (ok : ℕ → Bool) (l : List α) : List ℕ :=
  (l.filter fun a => ok (price a)).map remaining

theorem acceptable_cons {a : α} (ha : ok (price a) = true) (l : List α) :
    acceptable ok (a :: l) = remaining a :: acceptable ok l := by
  simp [acceptable, ha]

/-- Behind a price that is not acceptable, in order of priority, none is. -/
theorem acceptable_eq_nil {a : α}
    (hs : (a :: l).Pairwise fun a b => ok (price b) = true → ok (price a) = true)
    (ha : ok (price a) = false) :
    acceptable ok (a :: l) = [] := by
  have hno : ∀ b ∈ a :: l, ok (price b) = false := by
    intro b hb
    rcases List.mem_cons.mp hb with rfl | hb
    · exact ha
    · rw [← Bool.not_eq_true]
      exact fun he => by simp [(List.pairwise_cons.mp hs).1 b hb he] at ha
  rw [acceptable, List.filter_eq_nil_iff.mpr fun b hb => by simp [hno b hb], List.map_nil]

/-- **What is left over** is what the acceptable orders cannot fill. -/
theorem sweep_left_eq (hs : l.Pairwise fun a b => ok (price b) = true → ok (price a) = true)
    (n : ℕ) :
    (sweep ok n l).left = n - (acceptable ok l).sum := by
  induction l generalizing n with
  | nil => rfl
  | cons a l ih =>
    by_cases hn : n = 0
    · rw [hn, sweep_zero, Nat.zero_sub]
    cases ha : ok (price a) with
    | false => rw [sweep_refuse ha, acceptable_eq_nil hs ha, List.sum_nil, Nat.sub_zero]
    | true =>
      rw [acceptable_cons ha, List.sum_cons]
      rcases Nat.lt_or_ge n (remaining a) with hr | hr
      · rw [sweep_short hn ha hr]
        show 0 = _
        omega
      · rw [sweep_full hn ha hr]
        show (sweep ok (n - remaining a) l).left = _
        rw [ih (List.pairwise_cons.mp hs).2, Nat.sub_sub]

/-- **All trades are below a bound** exactly when each acceptable order is, or is reached
with less than the bound to fill. -/
theorem trades_lt_iff (hs : l.Pairwise fun a b => ok (price b) = true → ok (price a) = true)
    (hm : 0 < m) (n : ℕ) :
    (∀ t ∈ (sweep ok n l).trades, t.2 < m) ↔
      ∀ k (hk : k < (acceptable ok l).length), (acceptable ok l)[k] < m ∨
        n < ((acceptable ok l).take k).sum + m := by
  induction l generalizing n with
  | nil => simp [acceptable]
  | cons a l ih =>
    by_cases hn : n = 0
    · rw [hn, sweep_zero]
      refine iff_of_true (by simp) fun k _ => Or.inr ?_
      omega
    cases ha : ok (price a) with
    | false =>
      rw [sweep_refuse ha, acceptable_eq_nil hs ha]
      simp
    | true =>
      rw [acceptable_cons ha]
      -- the first order, and the others with so much less to fill
      have hcons : (∀ k (hk : k < (remaining a :: acceptable ok l).length),
        (remaining a :: acceptable ok l)[k] < m ∨
        n < ((remaining a :: acceptable ok l).take k).sum + m) ↔ (remaining a < m ∨ n < m) ∧
          ∀ k (hk : k < (acceptable ok l).length), (acceptable ok l)[k] < m ∨
            n < remaining a + ((acceptable ok l).take k).sum + m := by
        constructor
        · intro h
          exact ⟨by simpa using h 0 (Nat.succ_pos _),
            fun k hk => by simpa using h (k + 1) (Nat.succ_lt_succ hk)⟩
        · rintro ⟨h0, h⟩ k hk
          cases k with
          | zero => simpa using h0
          | succ k => simpa using h k (Nat.lt_of_succ_lt_succ hk)
      rw [hcons]
      rcases Nat.lt_or_ge n (remaining a) with hr | hr
      · rw [sweep_short hn ha hr, List.forall_mem_singleton]
        constructor
        · exact fun h => ⟨Or.inr h, fun k _ => Or.inr (by omega)⟩
        · rintro ⟨h, -⟩
          show n < m
          omega
      · rw [sweep_full hn ha hr, List.forall_mem_cons, ih (List.pairwise_cons.mp hs).2]
        refine and_congr (by show remaining a < m ↔ _; omega)
          (forall₂_congr fun k _ => or_congr_right ?_)
        omega

/-- At no price is there more left than before. -/
theorem sum_rest_le (p : ℕ → Prop) [DecidablePred p] (n : ℕ) (l : List α) :
    (((sweep ok n l).rest.filter fun a => p (price a)).map remaining).sum ≤
      ((l.filter fun a => p (price a)).map remaining).sum := by
  obtain ⟨done, rest, rfl, -, ⟨-, h⟩ | ⟨a, tail, m, rfl, -, hm, -, -, -, h⟩⟩ := sweep_parts ok n l
  · rw [h, List.filter_append, List.map_append, List.sum_append]
    exact Nat.le_add_left _ _
  · have hfill := remaining_fill a m hm.le
    rw [h, List.filter_append, List.map_append, List.sum_append]
    by_cases hp : p (price a)
    · rw [List.filter_cons_of_pos (by simpa [price_fill] using hp),
        List.filter_cons_of_pos (by simpa using hp)]
      simp only [List.map_cons, List.sum_cons, hfill]
      omega
    · rw [List.filter_cons_of_neg (by simpa [price_fill] using hp),
        List.filter_cons_of_neg (by simpa using hp)]
      exact Nat.le_add_left _ _

end Amounts

/-! ### Accounts of single orders -/

section Account

variable {κ : Type*} [DecidableEq κ] {key : α → κ}

/-- How much some trades are with the order of a key. -/
def tradedWith (key : α → κ) (trades : List (α × ℕ)) (k : κ) : ℕ :=
  (trades.map fun t => if key t.1 = k then t.2 else 0).sum

omit [Tradable α] in
@[simp] theorem tradedWith_nil (key : α → κ) (k : κ) : tradedWith key [] k = 0 := rfl

omit [Tradable α] in
@[simp] theorem tradedWith_cons (key : α → κ) (t : α × ℕ) (trades : List (α × ℕ)) (k : κ) :
    tradedWith key (t :: trades) k = (if key t.1 = k then t.2 else 0) + tradedWith key trades k :=
      rfl

omit [Tradable α] in
theorem tradedWith_eq_zero {trades : List (α × ℕ)} {k : κ} (h : ∀ t ∈ trades, key t.1 ≠ k) :
    tradedWith key trades k = 0 := by
  induction trades with
  | nil => rfl
  | cons t trades ih =>
    rw [tradedWith_cons, if_neg (h t (by simp)), ih fun t' ht' => h t' (by simp [ht'])]

/-- An order whose key is not in the list is not traded with. -/
theorem tradedWith_sweep_of_not_mem {n : ℕ} {l : List α} {k : κ} (h : k ∉ l.map key) :
    tradedWith key (sweep ok n l).trades k = 0 := by
  apply tradedWith_eq_zero
  intro t ht
  rintro rfl
  exact h (List.mem_map.mpr ⟨t.1, (mem_trades n l ht).1, rfl⟩)

/-- **What is traded with each order is taken off it**, and those with nothing left go. -/
theorem sweep_account (key : α → κ) (h0 : ∀ a : α, fill a 0 = a) (n : ℕ) {l : List α}
    (hnd : (l.map key).Nodup) (hpos : ∀ a ∈ l, 0 < remaining a) :
    (sweep ok n l).rest =
      (l.map fun a => fill a (tradedWith key (sweep ok n l).trades (key a))).filter fun a =>
        0 < remaining a := by
  have untouched : ∀ l : List α, (∀ a ∈ l, 0 < remaining a) →
      (l.map fun a => fill a 0).filter (fun a => 0 < remaining a) = l := by
    intro l hl
    simp only [h0, List.map_id']
    exact List.filter_eq_self.mpr fun a ha => by simpa using hl a ha
  induction l generalizing n with
  | nil => rfl
  | cons a l ih =>
    by_cases hn : n = 0
    · subst hn
      rw [sweep_zero]
      exact (untouched _ hpos).symm
    cases ha : ok (price a) with
    | false =>
      rw [sweep_refuse ha]
      exact (untouched _ hpos).symm
    | true =>
      obtain ⟨hka, hnd⟩ := List.nodup_cons.mp hnd
      have hl : ∀ b ∈ l, 0 < remaining b := fun b hb => hpos b (by simp [hb])
      have hne : ∀ b ∈ l, key a ≠ key b := fun b hb he => hka (List.mem_map.mpr ⟨b, hb, he.symm⟩)
      rcases Nat.lt_or_ge n (remaining a) with hr | hr
      · have hrem : 0 < remaining (fill a n) := by
          rw [remaining_fill a n hr.le]
          omega
        have hrest : (l.map fun b => fill b (tradedWith key [(a, n)] (key b))) =
            l.map fun b => fill b 0 :=
          List.map_congr_left fun b hb => by simp [hne b hb]
        rw [sweep_short hn ha hr, List.map_cons, hrest,
          List.filter_cons_of_pos (by simpa using hrem), untouched l hl]
        simp
      · have hgone : ¬ 0 < remaining (fill a (remaining a)) := by
          rw [remaining_fill a _ le_rfl]
          omega
        have hself : tradedWith key (sweep ok (n - remaining a) l).trades (key a) = 0 :=
          tradedWith_sweep_of_not_mem hka
        rw [sweep_full hn ha hr, List.map_cons,
          List.filter_cons_of_neg (by simpa [hself] using hgone), ih _ hnd hl]
        exact congrArg _ (List.map_congr_left fun b hb => by simp [hne b hb])

/-- No more is traded with an order than it had left. -/
theorem tradedWith_le (n : ℕ) {l : List α} (hnd : (l.map key).Nodup) {a : α} (ha : a ∈ l) :
    tradedWith key (sweep ok n l).trades (key a) ≤ remaining a := by
  induction l generalizing n with
  | nil => simp at ha
  | cons b l ih =>
    by_cases hn : n = 0
    · simp [hn]
    cases hb : ok (price b) with
    | false => simp [sweep_refuse hb]
    | true =>
      obtain ⟨hkb, hnd⟩ := List.nodup_cons.mp hnd
      have hself : tradedWith key (sweep ok (n - remaining b) l).trades (key b) = 0 :=
        tradedWith_sweep_of_not_mem hkb
      rcases Nat.lt_or_ge n (remaining b) with hr | hr
      · rw [sweep_short hn hb hr]
        rcases List.mem_cons.mp ha with rfl | ha
        · simpa using hr.le
        · have hne : key b ≠ key a := fun he => hkb (List.mem_map.mpr ⟨a, ha, he.symm⟩)
          simp [hne]
      · rw [sweep_full hn hb hr]
        rcases List.mem_cons.mp ha with rfl | ha
        · simp [hself]
        · have hne : key b ≠ key a := fun he => hkb (List.mem_map.mpr ⟨a, ha, he.symm⟩)
          simpa [hne] using ih _ hnd ha

end Account

/-! ### A quantity that comes in parts -/

section Shares

variable {κ : Type*} {key : α → κ}

/-- Trades share by share: with whom each share is traded. -/
def shares (key : α → κ) (trades : List (α × ℕ)) : List κ :=
  trades.flatMap fun t => List.replicate t.2 (key t.1)

omit [Tradable α] in
@[simp] theorem shares_nil (key : α → κ) : shares key [] = [] := rfl

omit [Tradable α] in
@[simp] theorem shares_cons (key : α → κ) (t : α × ℕ) (trades : List (α × ℕ)) :
    shares key (t :: trades) = List.replicate t.2 (key t.1) ++ shares key trades := rfl

/-- **A quantity may come in two parts**: what is left on both sides is the same, and the same
shares are traded with the same orders in the same order. Only where a part ends can a trade become
two. -/
theorem sweep_add (hfill : ∀ (a : α) q q', fill (fill a q) q' = fill a (q + q'))
    (hkey : ∀ (a : α) q, key (fill a q) = key a) (m n : ℕ) (l : List α) :
    (sweep ok (m + n) l).rest = (sweep ok n (sweep ok m l).rest).rest ∧
      (sweep ok (m + n) l).left = (sweep ok m l).left + (sweep ok n (sweep ok m l).rest).left ∧
      shares key (sweep ok (m + n) l).trades =
        shares key (sweep ok m l).trades ++ shares key (sweep ok n (sweep ok m l).rest).trades := by
  induction l generalizing m with
  | nil => simp
  | cons a l ih =>
    by_cases hm : m = 0
    · subst hm
      simp
    cases ha : ok (price a) with
    | false => simp [sweep_refuse ha]
    | true =>
      have hmn : m + n ≠ 0 := by omega
      rcases Nat.lt_or_ge m (remaining a) with hr | hr
      · -- the first part ends in this order, which the second part finds with the rest
        have hleft : remaining (fill a m) = remaining a - m := remaining_fill a m hr.le
        have hok : ok (price (fill a m)) = true := by rw [price_fill, ha]
        rw [sweep_short hm ha hr]
        by_cases hn : n = 0
        · subst hn
          simp [sweep_short hm ha hr]
        rcases Nat.lt_or_ge n (remaining (fill a m)) with hr' | hr'
        · have hlt : m + n < remaining a := by omega
          simp [sweep_short hmn ha hlt, sweep_short hn hok hr', hfill, hkey]
        · have hge : remaining a ≤ m + n := by omega
          have hq : m + n - remaining a = n - remaining (fill a m) := by omega
          have hsum : m + remaining (fill a m) = remaining a := by omega
          simp [sweep_full hmn ha hge, sweep_full hn hok hr', hkey, hq, ← List.append_assoc, hsum]
      · have hge : remaining a ≤ m + n := by omega
        have hq : m + n - remaining a = m - remaining a + n := by omega
        obtain ⟨hrest, hl, ht⟩ := ih (m - remaining a)
        rw [sweep_full hm ha hr, sweep_full hmn ha hge, hq]
        exact ⟨hrest, hl, by simp [ht]⟩

end Shares

/-! ### The naive book -/

/-- The best price in a list of orders. -/
def bestPrice (d : Best) : List α → Option ℕ
  | [] => none
  | a :: l =>
    match bestPrice d l with
    | none => some (price a)
    | some p => some (if d.Better p (price a) then p else price a)

/-- **Naive matching**, of resting orders in order of arrival: the incoming order
repeatedly trades the lesser of what is left of the two with the earliest order
at the best price, as long as the price is acceptable and it has something left;
a resting order with nothing left goes. One round for each resting order is
enough, as every round but the last uses one up. -/
def naive (d : Best) (ok : ℕ → Bool) : ℕ → ℕ → List α → Matched α
  | 0, n, l => ⟨[], n, l⟩
  | rounds + 1, n, l =>
    match bestPrice d l with
    | none => ⟨[], n, l⟩
    | some p =>
      if n = 0 ∨ ok p = false then ⟨[], n, l⟩
      else
        match l.dropWhile (fun a => price a != p) with
        | [] => ⟨[], n, l⟩
        | a :: after =>
          let before := l.takeWhile (fun a => price a != p)
          let m := min n (remaining a)
          let a' := fill a m
          let s := naive d ok rounds (n - m)
            (if remaining a' = 0 then before ++ after else before ++ a' :: after)
          ⟨(a, m) :: s.trades, s.left, s.rest⟩

/-- What the best price is: the price of some order, and none is better. -/
theorem bestPrice_spec (d : Best) (l : List α) (h : l ≠ []) :
    ∃ p, bestPrice d l = some p ∧ (∃ a ∈ l, price a = p) ∧ ∀ a ∈ l, ¬ d.Better (price a) p := by
  induction l with
  | nil => exact absurd rfl h
  | cons a l ih =>
    by_cases hl : l = []
    · subst hl
      exact ⟨price a, rfl, ⟨a, by simp, rfl⟩, by simpa using d.better_irrefl (price a)⟩
    · obtain ⟨p, hp, ⟨b, hb, hbp⟩, hmin⟩ := ih hl
      by_cases hlt : d.Better p (price a)
      · refine ⟨p, by simp [bestPrice, hp, hlt], ⟨b, by simp [hb], hbp⟩, fun c hc => ?_⟩
        rcases List.mem_cons.mp hc with rfl | hc
        · exact hlt.asymm
        · exact hmin c hc
      · refine ⟨price a, by simp [bestPrice, hp, hlt], ⟨a, by simp, rfl⟩, fun c hc => ?_⟩
        rcases List.mem_cons.mp hc with rfl | hc
        · exact d.better_irrefl _
        · exact d.not_better_trans hlt (hmin c hc)

theorem bestPrice_eq {d : Best} {l : List α} {a : α} (ha : a ∈ l)
    (hmin : ∀ b ∈ l, ¬ d.Better (price b) (price a)) : bestPrice d l = some (price a) := by
  obtain ⟨p, hp, ⟨b, hb, rfl⟩, hb'⟩ := bestPrice_spec d l (List.ne_nil_of_mem ha)
  rw [hp, d.eq_of_not_better (hmin b hb) (hb' a ha)]

/-- Nothing is traded at prices that are not acceptable. -/
theorem naive_refuse {d : Best} {l : List α} (h : ∀ a ∈ l, ok (price a) = false) (rounds n : ℕ) :
    naive d ok rounds n l = ⟨[], n, l⟩ := by
  cases rounds with
  | zero => rfl
  | succ rounds =>
    by_cases hl : l = []
    · subst hl
      rfl
    · obtain ⟨p, hp, ⟨a, ha, rfl⟩, -⟩ := bestPrice_spec d l hl
      simp [naive, hp, h a ha]

/-- One round, where the earliest order at the best price stands at a known place. -/
theorem naive_round {d : Best} {before after : List α} {a : α} {n : ℕ} (rounds : ℕ) (hn : n ≠ 0)
    (hok : ok (price a) = true) (hb : ∀ b ∈ before, price b ≠ price a)
    (hmin : ∀ b ∈ before ++ a :: after, ¬ d.Better (price b) (price a)) :
    naive d ok (rounds + 1) n (before ++ a :: after) =
      (let m := min n (remaining a)
       let s := naive d ok rounds (n - m)
         (if remaining (fill a m) = 0 then before ++ after else before ++ fill a m :: after)
       ⟨(a, m) :: s.trades, s.left, s.rest⟩) := by
  have hbest : bestPrice d (before ++ a :: after) = some (price a) := bestPrice_eq (by simp) hmin
  have hall : ∀ b ∈ before, (price b != price a) = true := fun b h => by simpa using hb b h
  have hdrop : (before ++ a :: after).dropWhile (fun b => price b != price a) = a :: after := by
    rw [List.dropWhile_append_of_pos hall]; simp
  have htake : (before ++ a :: after).takeWhile (fun b => price b != price a) = before := by
    rw [List.takeWhile_append_of_pos hall]; simp
  simp only [naive, hbest, hn, hok, false_or, Bool.true_eq_false, if_false, hdrop, htake]

/-! ### The two agree -/

/-- The first list arranges the orders of the second by price, the best first, and
at each price leaves them in the order they had. -/
structure Arranged (d : Best) (byPriority byArrival : List α) : Prop where
  sorted : byPriority.Pairwise fun a b => ¬ d.Better (price b) (price a)
  same : ∀ p, byPriority.filter (fun a => price a = p) = byArrival.filter (fun a => price a = p)

namespace Arranged

variable {d : Best} {l l' : List α} {a : α}

theorem mem_iff (h : Arranged d l' l) : a ∈ l' ↔ a ∈ l := by
  have hf : a ∈ l'.filter (fun b => price b = price a) ↔
      a ∈ l.filter (fun b => price b = price a) := by
    rw [h.same]
  simpa using hf

theorem nil_left (h : Arranged d [] l) : l = [] :=
  List.eq_nil_iff_forall_not_mem.mpr fun _ ha => List.not_mem_nil (h.mem_iff.mpr ha)

theorem nil_right (h : Arranged d l' []) : l' = [] :=
  List.eq_nil_iff_forall_not_mem.mpr fun _ ha => List.not_mem_nil (h.mem_iff.mp ha)

/-- The first order by priority is the earliest of its price, and no price is better. -/
theorem split (h : Arranged d (a :: l') l) :
    ∃ before after, l = before ++ a :: after ∧ (∀ b ∈ before, price b ≠ price a) ∧
      ∀ b ∈ l, ¬ d.Better (price b) (price a) := by
  have hs : l.filter (fun b => price b = price a) = a ::
      l'.filter (fun b => price b = price a) := by
    rw [← h.same]; simp
  obtain ⟨before, after, rfl, hb, -, -⟩ := List.filter_eq_cons_iff.mp hs
  refine ⟨before, after, rfl, fun b hbm => by simpa using hb b hbm, fun b hbm => ?_⟩
  rcases List.mem_cons.mp (h.mem_iff.mpr hbm) with rfl | hb'
  · exact d.better_irrefl _
  · exact (List.pairwise_cons.mp h.sorted).1 b hb'

/-- The first order goes. -/
theorem drop {before after : List α} (h : Arranged d (a :: l') (before ++ a :: after))
    (hb : ∀ b ∈ before, price b ≠ price a) : Arranged d l' (before ++ after) where
  sorted := (List.pairwise_cons.mp h.sorted).2
  same p := by
    have hs := h.same p
    by_cases hp : price a = p
    · have hnil : before.filter (fun b => price b = p) = [] := by
        rw [List.filter_eq_nil_iff]
        intro b hbm
        simpa [← hp] using hb b hbm
      simpa [List.filter_cons, List.filter_append, hp, hnil] using hs
    · simpa [List.filter_cons, List.filter_append, hp] using hs

/-- The first order is changed, but not its price. -/
theorem replace {before after : List α} {b : α} (h : Arranged d (a :: l') (before ++ a :: after))
    (hb : ∀ b ∈ before, price b ≠ price a) (hp : price b = price a) :
    Arranged d (b :: l') (before ++ b :: after) where
  sorted := by
    have hs := List.pairwise_cons.mp h.sorted
    exact List.pairwise_cons.mpr ⟨by simpa [hp] using hs.1, hs.2⟩
  same p := by
    have hd := (h.drop hb).same p
    by_cases hpp : price a = p
    · have hnil : before.filter (fun c => price c = p) = [] := by
        rw [List.filter_eq_nil_iff]
        intro c hc
        simpa [← hpp] using hb c hc
      simpa [List.filter_cons, List.filter_append, hp, hpp, hnil] using hd
    · simpa [List.filter_cons, List.filter_append, hp, hpp] using hd

/-- The two lists are of the same orders. -/
theorem perm (h : Arranged d l' l) : l'.Perm l := by
  induction l' generalizing l with
  | nil => rw [h.nil_left]
  | cons a l' ih =>
    obtain ⟨before, after, rfl, hb, -⟩ := h.split
    exact ((ih (h.drop hb)).cons a).trans List.perm_middle.symm

end Arranged

/-- **Naive matching and sweeping agree**: the same trades, the same quantity left,
and the orders left by the sweep arrange the ones left by the naive book. -/
theorem naive_sweep (ok : ℕ → Bool) {d : Best} {l l' : List α} (h : Arranged d l' l)
    (hpos : ∀ a ∈ l', 0 < remaining a) (rounds n : ℕ) (hr : l.length ≤ rounds ∨ n = 0) :
    (naive d ok rounds n l).trades = (sweep ok n l').trades ∧
      (naive d ok rounds n l).left = (sweep ok n l').left ∧
      Arranged d (sweep ok n l').rest (naive d ok rounds n l).rest := by
  induction rounds generalizing n l l' with
  | zero =>
    rcases hr with hr | rfl
    · obtain rfl : l = [] := by simpa using hr
      obtain rfl := h.nil_right
      exact ⟨rfl, rfl, h⟩
    · simpa [naive] using h
  | succ rounds ih =>
    cases l' with
    | nil =>
      obtain rfl := h.nil_left
      exact ⟨rfl, rfl, h⟩
    | cons a l' =>
      obtain ⟨before, after, rfl, hb, hmin⟩ := h.split
      have hbest : bestPrice d (before ++ a :: after) = some (price a) :=
        bestPrice_eq (by simp) hmin
      by_cases hn : n = 0
      · subst hn
        simpa [naive, hbest] using h
      cases hok : ok (price a) with
      | false => simpa [naive, hbest, hok, sweep_refuse hok] using h
      | true =>
        rw [naive_round rounds hn hok hb hmin]
        rcases Nat.lt_or_ge n (remaining a) with hlt | hge
        · -- the resting order keeps something: this was the last round
          have hrem : remaining (fill a n) ≠ 0 := by rw [remaining_fill _ _ hlt.le]; omega
          have h' := h.replace hb (price_fill a n)
          obtain ⟨h₁, h₂, h₃⟩ := ih (n := 0) h' (by
            intro c hc
            rcases List.mem_cons.mp hc with rfl | hc
            · omega
            · exact hpos c (by simp [hc])) (Or.inr rfl)
          simp only [Nat.min_eq_left hlt.le, Nat.sub_self, hrem, if_false, sweep_short hn hok hlt]
          exact ⟨by simp [h₁], by simp [h₂], by simpa using h₃⟩
        · -- the resting order is used up
          have hrem : remaining (fill a (remaining a)) = 0 := by
            rw [remaining_fill _ _ le_rfl]; omega
          have hlen : (before ++ after).length ≤ rounds ∨ n - remaining a = 0 := by
            rcases hr with hr | hr
            · left; simp at hr ⊢; omega
            · exact absurd hr hn
          obtain ⟨h₁, h₂, h₃⟩ := ih (h.drop hb) (fun c hc => hpos c (by simp [hc])) _ hlen
          simp only [Nat.min_eq_right hge, hrem, if_true, sweep_full hn hok hge]
          exact ⟨by simp [h₁], h₂, h₃⟩

end PriceTime

end TradeFeed.Lib
