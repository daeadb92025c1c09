import Mathlib.Data.List.Perm.Subperm
import Mathlib.Algebra.Order.BigOperators.Group.List
import Mathlib.Algebra.Order.Ring.Nat
import TradeFeed.Lib.PriceTime

/-!
# Taking the best first

Orders in order of priority offer shares in order of their prices (`offered`), and a sweep takes the
first of them (`initial_shares`). No other shares, as many and from the same orders, come to a
better total (`take_sum`): one by one, the first of a list in order are as good as any others that
are picked from it (`forall₂_take`).
-/

namespace TradeFeed.Lib.PriceTime

open Tradable

/-! ### Lists in order -/

section Ordered

variable {α : Type*} {R : α → α → Prop}

/-- **The first of a list in order** are as good, one by one, as any others in it. -/
theorem forall₂_take (hrefl : ∀ a, R a a) {u v : List α} (hu : u.Pairwise R) (hv : v.Sublist u) :
    List.Forall₂ R (u.take v.length) v := by
  induction u generalizing v with
  | nil =>
    obtain rfl := List.sublist_nil.mp hv
    exact .nil
  | cons a u ih =>
    obtain ⟨ha, hrest⟩ := List.pairwise_cons.mp hu
    cases v with
    | nil => exact .nil
    | cons x v =>
      rw [List.length_cons, List.take_succ_cons]
      rcases List.cons_sublist_cons'.mp hv with hpast | ⟨rfl, hpicked⟩
      · exact .cons (ha x (hpast.subset List.mem_cons_self))
          (ih hrest ((List.sublist_cons_self x v).trans hpast))
      · exact .cons (hrefl x) (ih hrest hpicked)

/-- As many prices, in any order, do not come to a better total than the first. -/
theorem take_sum (d : Best) {u v : List ℕ} (hu : u.Pairwise fun p q => ¬ d.Better q p)
    (hv : v.Subperm u) :
    ¬ d.Better v.sum (u.take v.length).sum := by
  obtain ⟨w, hperm, hsub⟩ := hv
  have hfirst := forall₂_take d.better_irrefl hu hsub
  rw [← hperm.sum_eq, ← hperm.length_eq]
  cases d with
  | lowest =>
    simp only [Best.Better, Nat.not_lt] at hfirst ⊢
    exact hfirst.sum_le_sum
  | highest =>
    simp only [Best.Better, Nat.not_lt] at hfirst ⊢
    exact hfirst.flip.sum_le_sum

end Ordered

/-! ### What orders offer -/

section Offered

variable {α : Type*} [Tradable α] {κ : Type*} {ok : ℕ → Bool}

/-- The shares that orders offer, one by one. -/
def offered (key : α → κ) (l : List α) : List κ := shares key (l.map fun a => (a, remaining a))

omit [Tradable α] in
theorem shares_append (key : α → κ) (t t' : List (α × ℕ)) :
    shares key (t ++ t') = shares key t ++ shares key t' :=
  List.flatMap_append

omit [Tradable α] in
theorem shares_length (key : α → κ) (t : List (α × ℕ)) :
    (shares key t).length = (t.map Prod.snd).sum := by
  induction t with
  | nil => rfl
  | cons e t ih => rw [shares_cons, List.length_append, List.length_replicate, ih, List.map_cons,
    List.sum_cons]

/-- **A sweep takes the first of the shares on offer.** -/
theorem initial_shares (key : α → κ) (ok : ℕ → Bool) (n : ℕ) (l : List α) :
    (shares key (sweep ok n l).trades).IsPrefix (offered key l) := by
  obtain ⟨done, rest, rfl, -, ⟨ht, -⟩ | ⟨a, tail, m, rfl, -, hm, -, ht, -⟩⟩ := sweep_parts ok n l
  · rw [ht, offered, List.map_append, shares_append]
    exact List.prefix_append _ _
  · -- the last order is not taken whole
    have hlast : List.replicate (remaining a) (key a) =
        List.replicate m (key a) ++ List.replicate (remaining a - m) (key a) := by
      rw [← List.replicate_add, Nat.add_sub_cancel' hm.le]
    rw [ht, offered, List.map_append, List.map_cons, shares_append, shares_append, shares_cons,
      shares_cons, shares_nil, List.append_nil, hlast, List.append_assoc, ← List.append_assoc]
    exact List.prefix_append _ _

/-- The shares on offer at acceptable prices. -/
theorem offered_acceptable (ok : ℕ → Bool) (l : List α) :
    ((offered (price : α → ℕ) l).filter ok).length = (acceptable ok l).sum := by
  induction l with
  | nil => rfl
  | cons a l ih =>
    have hrest : ((offered price (a :: l)).filter ok).length =
        ((List.replicate (remaining a) (price a)).filter ok).length + (acceptable ok l).sum := by
      rw [← ih, ← List.length_append, ← List.filter_append]
      rfl
    rw [hrest, List.filter_replicate]
    cases ha : ok (price a) with
    | false => simp [acceptable, ha]
    | true => simp [acceptable, ha]

/-- In order of priority, the shares come in order of their prices. -/
theorem offered_pairwise {d : Best} {l : List α}
    (h : l.Pairwise fun a b => ¬ d.Better (price b) (price a)) :
    (offered (price : α → ℕ) l).Pairwise fun p q => ¬ d.Better q p := by
  rw [offered, shares, List.pairwise_flatMap]
  refine ⟨fun t _ => List.pairwise_replicate.mpr (Or.inr (d.better_irrefl _)), ?_⟩
  · rw [List.pairwise_map]
    refine h.imp fun hab p hp q hq => ?_
    rw [List.eq_of_mem_replicate hp, List.eq_of_mem_replicate hq]
    exact hab

end Offered

end TradeFeed.Lib.PriceTime
