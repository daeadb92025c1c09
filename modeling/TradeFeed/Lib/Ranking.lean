import Mathlib.Algebra.Order.BigOperators.Group.Finset
import Mathlib.Data.Finset.Card

/-!
# Ranking

The first few elements of a finite set in an order: those that few others come before. Where
each has a place, and earlier elements have lower places, an element is no further back in the
ranking than its place says (`rank_le`). So the elements below place `n` are among the first
`n`, and add up to as much as these exactly when the first `n` are below place `n`
(`sum_near_eq_iff`).
-/

namespace TradeFeed.Lib.Ranking

variable {α : Type*} (before : α → α → Prop) [DecidableRel before] (S : Finset α)

/-- How many elements come before. -/
def rank (a : α) : ℕ := (S.filter fun b => before b a).card

/-- The first `n` elements, or all if there are fewer. -/
def first (n : ℕ) : Finset α := S.filter fun a => rank before S a < n

/-- The elements with a place below `n`. -/
def near (S : Finset α) (place : α → ℕ) (n : ℕ) : Finset α := S.filter fun a => place a < n

section

variable {before} {S} {place : α → ℕ} {a : α} {m n : ℕ}

theorem near_mono (h : m ≤ n) : near S place m ⊆ near S place n :=
  Finset.monotone_filter_right S fun _ _ ha => lt_of_lt_of_le ha h

/-- If there are no more than `n`, the first `n` are all. -/
theorem first_of_card_le (hirrefl : ∀ a, ¬ before a a) (h : S.card ≤ n) : first before S n = S := by
  refine Finset.filter_true_of_mem fun a ha => lt_of_lt_of_le (Finset.card_lt_card ?_) h
  exact Finset.filter_ssubset.mpr ⟨a, ha, hirrefl a⟩

/-- An element is no further back than its place. -/
theorem rank_le (hplace : ∀ b ∈ S, before b a → place b < place a) (hinj : Set.InjOn place S) :
    rank before S a ≤ place a := by
  rw [← Finset.card_range (place a)]
  refine Finset.card_le_card_of_injOn place (fun b hb => ?_)
    (hinj.mono fun b hb => (Finset.mem_filter.mp hb).1)
  obtain ⟨hb, hbefore⟩ := Finset.mem_filter.mp hb
  exact Finset.mem_coe.mpr (Finset.mem_range.mpr (hplace b hb hbefore))

theorem near_subset_first (hplace : ∀ a ∈ S, ∀ b ∈ S, before b a → place b < place a)
    (hinj : Set.InjOn place S) (n : ℕ) :
    near S place n ⊆ first before S n := fun a ha => by
  obtain ⟨ha, hn⟩ := Finset.mem_filter.mp ha
  exact Finset.mem_filter.mpr ⟨ha, (rank_le (hplace a ha) hinj).trans_lt hn⟩

/-- **The near elements add up to the first ones** exactly when the first ones are near. -/
theorem sum_near_eq_iff {qty : α → ℕ} (hplace : ∀ a ∈ S, ∀ b ∈ S, before b a → place b < place a)
    (hinj : Set.InjOn place S) (hqty : ∀ a ∈ S, 0 < qty a) :
    (near S place n).sum qty = (first before S n).sum qty ↔
      ∀ a ∈ first before S n, place a < n := by
  have hsub := near_subset_first hplace hinj n
  constructor
  · intro heq a ha
    by_contra hfar
    have hS := (Finset.mem_filter.mp ha).1
    have hnot : a ∉ near S place n := fun h => hfar (Finset.mem_filter.mp h).2
    exact absurd heq (Finset.sum_lt_sum_of_subset hsub ha hnot (hqty a hS) fun _ _ _ =>
      Nat.zero_le _).ne
  · intro hall
    have hsup : first before S n ⊆ near S place n :=
      fun a ha => Finset.mem_filter.mpr ⟨(Finset.mem_filter.mp ha).1, hall a ha⟩
    rw [hsub.antisymm hsup]

end

end TradeFeed.Lib.Ranking
