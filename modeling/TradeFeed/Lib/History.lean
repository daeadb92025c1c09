import Mathlib.Algebra.Order.BigOperators.Group.List
import Mathlib.Algebra.Order.Field.Basic
import Mathlib.Data.Fin.Basic
import Mathlib.Data.Nat.ModEq
import Mathlib.Order.Interval.Finset.Nat
import Mathlib.Tactic.Ring

/-!
# Histories

The last items of a sequence, kept in a ring of cells: each new item goes into the next cell,
over the oldest one when the ring is full. The cells then hold the last items, if not in their
order (`Holds.perm`), so that any symmetric function of them can be read off: their mean.
-/

namespace TradeFeed.Lib.History

/-! ### Rings of cells -/

section Cells

variable {α : Type*} {l : List α}

/-- The last `n` items, or all if there are fewer. -/
def latest (n : ℕ) (l : List α) : List α := l.drop (l.length - n)

theorem length_latest (n : ℕ) (l : List α) : (latest n l).length = min n l.length := by
  rw [latest, List.length_drop]
  omega

theorem mem_of_mem_latest {n : ℕ} {x : α} (h : x ∈ latest n l) : x ∈ l := List.mem_of_mem_drop h

variable {n : ℕ} [NeZero n] {cells : Fin n → α}

/-- The cells hold the last `n` items: item `k` is in cell `k % n`. -/
def Holds (cells : Fin n → α) (l : List α) : Prop :=
  ∀ k (hk : k < l.length), l.length ≤ k + n → cells (Fin.ofNat n k) = l[k]

theorem holds_nil (cells : Fin n → α) : Holds cells [] := fun _ hk => absurd hk (Nat.not_lt_zero _)

/-- **A new item** goes into the next cell. -/
theorem Holds.push (h : Holds cells l) (x : α) :
    Holds (Function.update cells (Fin.ofNat n l.length) x) (l ++ [x]) := by
  intro k hk hlast
  rw [List.length_append, List.length_singleton] at hk hlast
  rcases Nat.lt_succ_iff_lt_or_eq.mp hk with hlt | rfl
  · have hne : Fin.ofNat n k ≠ Fin.ofNat n l.length := by
      intro heq
      have hmod : k % n = l.length % n := congrArg Fin.val heq
      have hdvd := (Nat.modEq_iff_dvd' hlt.le).mp hmod
      exact absurd (Nat.le_of_dvd (by omega) hdvd) (by omega)
    rw [Function.update_of_ne hne, h k hlt (by omega), List.getElem_append_left]
  · rw [Function.update_self, List.getElem_concat_length rfl]

/-- Of `n` numbers in a row, the remainders are those below `n`. -/
theorem range_mod_perm (n a : ℕ) : ((List.range' a n).map (· % n)).Perm (List.range n) := by
  have hmod := Nat.multiset_Ico_map_mod a n
  have hrow : Multiset.Ico a (a + n) = (List.range' a n : Multiset ℕ) := by
    show ((List.range' a (a + n - a) : List ℕ) : Multiset ℕ) = _
    rw [Nat.add_sub_cancel_left]
  rw [hrow] at hmod
  exact Multiset.coe_eq_coe.mp hmod

/-- **The first cells are the last items**, in some order. -/
theorem Holds.perm (h : Holds cells l) :
    ((List.range (min n l.length)).map fun i => cells (Fin.ofNat n i)).Perm (latest n l) := by
  have hlatest : latest n l = (List.range' (l.length - n) (min n l.length)).map fun k =>
      cells (Fin.ofNat n k) := by
    refine List.ext_getElem (by rw [length_latest, List.length_map, List.length_range'])
      fun j hj _ => ?_
    rw [length_latest] at hj
    rw [List.getElem_map, List.getElem_range', one_mul, h (l.length - n + j) (by omega) (by omega)]
    exact List.getElem_drop
  rw [hlatest]
  rcases le_total l.length n with hle | hle
  · rw [Nat.sub_eq_zero_of_le hle, ← List.range_eq_range']
  · -- the ring is full: the last items are in its cells from some place on, and around
    have hcells : (fun k => cells (Fin.ofNat n k)) = (fun i => cells (Fin.ofNat n i)) ∘ (· % n) :=
      funext fun k => congrArg cells (Fin.ext (Nat.mod_mod k n).symm)
    have hperm := ((range_mod_perm n (l.length - n)).map fun i => cells (Fin.ofNat n i)).symm
    rw [List.map_map, ← hcells] at hperm
    rwa [min_eq_left hle]

end Cells

/-! ### Means -/

section Mean

variable {K : Type*} [Field K] {l l' : List K}

/-- The mean of a list, 0 if it is empty. -/
def mean (l : List K) : K := l.sum / l.length

theorem mean_perm (h : l.Perm l') : mean l = mean l' := by rw [mean, mean, h.sum_eq, h.length_eq]

variable [LinearOrder K] [IsStrictOrderedRing K] {a b : K}

/-- A mean lies between the bounds of the items, if 0 does or there are any. -/
theorem mean_mem (h0 : l = [] → a ≤ 0 ∧ 0 ≤ b) (h : ∀ x ∈ l, a ≤ x ∧ x ≤ b) :
    a ≤ mean l ∧ mean l ≤ b := by
  rcases eq_or_ne l [] with rfl | hne
  · simpa [mean] using h0 rfl
  · have hpos : (0 : K) < l.length := Nat.cast_pos.mpr (List.length_pos_of_ne_nil hne)
    have hlow := List.card_nsmul_le_sum l a fun x hx => (h x hx).1
    have hhigh := List.sum_le_card_nsmul l b fun x hx => (h x hx).2
    rw [nsmul_eq_mul] at hlow hhigh
    exact ⟨(le_div_iff₀ hpos).mpr (by rwa [mul_comm]), (div_le_iff₀ hpos).mpr (by rwa [mul_comm])⟩

end Mean

end TradeFeed.Lib.History
