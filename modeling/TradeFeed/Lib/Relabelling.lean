import Mathlib.Order.Monotone.Basic
import TradeFeed.Lib.PriceTime

/-!
# Relabelled orders

A map of orders is a relabelling when it keeps quantities and the order in which prices stand
(`Relabels`). Two lists of resting orders are alike under one when they have, price by price, the
same orders in the same sequence (`Alike`); how orders of different prices stand to each other does
not matter.

`naive_alike` says that matching lists that are alike does the same trades and leaves lists that are
alike.
-/

namespace TradeFeed.Lib.PriceTime

open Tradable

variable {α β : Type*} [Tradable α] [Tradable β]

/-- The map keeps quantities, and takes the prices of a set to others in the same order. -/
structure Relabels (f : α → β) (μ : ℕ → ℕ) (P : Set ℕ) : Prop where
  /-- The order of the prices is kept. -/
  mono : StrictMonoOn μ P
  /-- What the map does to a price. -/
  price : ∀ a, Tradable.price a ∈ P → Tradable.price (f a) = μ (Tradable.price a)
  /-- Quantities are kept. -/
  remaining : ∀ a, Tradable.remaining (f a) = Tradable.remaining a
  /-- Fills are kept. -/
  fill : ∀ a q, f (Tradable.fill a q) = Tradable.fill (f a) q

/-- At each price the second list has the orders of the first, relabelled, in the sequence they have
there. -/
structure Alike (f : α → β) (μ : ℕ → ℕ) (P : Set ℕ) (l : List α) (l' : List β) : Prop where
  /-- The prices of the first list. -/
  mem : ∀ a ∈ l, price a ∈ P
  /-- The prices of the second. -/
  mem' : ∀ b ∈ l', ∃ p ∈ P, price b = μ p
  /-- The orders at each price. -/
  same : ∀ p ∈ P, l'.filter (fun b => price b = μ p) = (l.filter fun a => price a = p).map f

variable {f : α → β} {μ : ℕ → ℕ} {P : Set ℕ} {d : Best} {ok ok' : ℕ → Bool} {l L : List α}
  {l' : List β} {a : α}

theorem Best.better_iff (hμ : StrictMonoOn μ P) (d : Best) {p q : ℕ} (hp : p ∈ P) (hq : q ∈ P) :
    d.Better (μ p) (μ q) ↔ d.Better p q := by
  cases d
  · exact hμ.lt_iff_lt hp hq
  · exact hμ.lt_iff_lt hq hp

/-- Sweeping relabelled orders. -/
theorem sweep_relabels (hf : Relabels f μ P) (hok : ∀ p ∈ P, ok' (μ p) = ok p) (n : ℕ) (l : List α)
    (hl : ∀ a ∈ l, price a ∈ P) :
    sweep ok' n (l.map f) =
      ⟨(sweep ok n l).trades.map (Prod.map f id), (sweep ok n l).left,
        (sweep ok n l).rest.map f⟩ := by
  induction l generalizing n with
  | nil => rfl
  | cons a l ih =>
    have hprice : ok' (price (f a)) = ok (price a) := by
      rw [hf.price a (hl a (by simp)), hok _ (hl a (by simp))]
    by_cases hn : n = 0
    · simp [hn]
    cases ha : ok (price a) with
    | false => rw [List.map_cons, sweep_refuse (by rw [hprice, ha]), sweep_refuse ha]; rfl
    | true =>
      have ha' : ok' (price (f a)) = true := by rw [hprice, ha]
      rcases Nat.lt_or_ge n (remaining a) with hlt | hge
      · rw [List.map_cons, sweep_short hn ha' (by rwa [hf.remaining]), sweep_short hn ha hlt]
        simp [hf.fill]
      · rw [List.map_cons, sweep_full hn ha' (by rwa [hf.remaining]), sweep_full hn ha hge,
          hf.remaining, ih _ fun b hb => hl b (by simp [hb])]
        simp

namespace Alike

theorem nil (f : α → β) (μ : ℕ → ℕ) (P : Set ℕ) : Alike f μ P [] [] :=
  ⟨by simp, by simp, by simp⟩

/-- Relabelling a list. -/
theorem map (hf : Relabels f μ P) (hl : ∀ a ∈ l, price a ∈ P) : Alike f μ P l (l.map f) where
  mem := hl
  mem' := by
    intro b hb
    obtain ⟨a, ha, rfl⟩ := List.mem_map.mp hb
    exact ⟨_, hl a ha, hf.price a (hl a ha)⟩
  same p hp := by
    rw [List.filter_map]
    refine congrArg _ (List.filter_congr fun a ha => ?_)
    rw [Function.comp_apply, hf.price a (hl a ha)]
    exact decide_eq_decide.mpr (hf.mono.eq_iff_eq (hl a ha) hp)

/-- Orders that come after others. -/
theorem append {m : List α} {m' : List β} (h : Alike f μ P l l') (h' : Alike f μ P m m') :
    Alike f μ P (l ++ m) (l' ++ m') where
  mem a ha := (List.mem_append.mp ha).elim (h.mem a) (h'.mem a)
  mem' b hb := (List.mem_append.mp hb).elim (h.mem' b) (h'.mem' b)
  same p hp := by rw [List.filter_append, List.filter_append, List.map_append, h.same p hp,
    h'.same p hp]

/-- Orders that go. -/
theorem filter {k : α → Bool} {k' : β → Bool} (h : Alike f μ P l l')
    (hk : ∀ a ∈ l, k' (f a) = k a) :
    Alike f μ P (l.filter k) (l'.filter k') where
  mem a ha := h.mem a (List.mem_filter.mp ha).1
  mem' b hb := h.mem' b (List.mem_filter.mp hb).1
  same p hp := by
    rw [List.filter_comm, h.same p hp, List.filter_comm, List.filter_map]
    exact congrArg _ (List.filter_congr fun a ha => hk a (List.mem_filter.mp ha).1)

/-- The orders of the second list are those of the first, relabelled. -/
theorem mem_iff (h : Alike f μ P l l') {b : β} : b ∈ l' ↔ ∃ a ∈ l, f a = b := by
  have hat : ∀ p ∈ P, (b ∈ l' ∧ price b = μ p ↔ ∃ a ∈ l, price a = p ∧ f a = b) := fun p hp => by
    have hb : b ∈ l'.filter (fun b => price b = μ p) ↔
      b ∈ (l.filter fun a => price a = p).map f := by rw [h.same p hp]
    simpa [and_assoc] using hb
  constructor
  · intro hb
    obtain ⟨p, hp, he⟩ := h.mem' b hb
    obtain ⟨a, ha, -, hab⟩ := (hat p hp).mp ⟨hb, he⟩
    exact ⟨a, ha, hab⟩
  · rintro ⟨a, ha, rfl⟩
    exact ((hat _ (h.mem a ha)).mpr ⟨a, ha, rfl, rfl⟩).1

/-- What arranges the first list arranges the second. -/
theorem arranged (hf : Relabels f μ P) (h : Alike f μ P l l') (ha : Arranged d L l) :
    Arranged d (L.map f) l' where
  sorted := by
    rw [List.pairwise_map]
    refine ha.sorted.imp_of_mem fun {a b} hma hmb hab => ?_
    have hpa := h.mem a (ha.mem_iff.mp hma)
    have hpb := h.mem b (ha.mem_iff.mp hmb)
    rwa [hf.price a hpa, hf.price b hpb, Best.better_iff hf.mono d hpb hpa]
  same p := by
    have hL : ∀ a ∈ L, price a ∈ P := fun a hm => h.mem a (ha.mem_iff.mp hm)
    by_cases hp : ∃ q ∈ P, p = μ q
    · obtain ⟨q, hq, rfl⟩ := hp
      rw [(Alike.map hf hL).same q hq, h.same q hq, ha.same]
    · rw [List.filter_eq_nil_iff.mpr fun b hb => ?_, List.filter_eq_nil_iff.mpr fun b hb => ?_]
      · obtain ⟨q, hq, he⟩ := h.mem' b hb
        simpa using fun e : price b = p => hp ⟨q, hq, e.symm.trans he⟩
      · obtain ⟨a, hm, rfl⟩ := List.mem_map.mp hb
        simpa using fun e : price (f a) = p => hp ⟨_, hL a hm, e.symm.trans (hf.price a (hL a hm))⟩

/-- Lists that are arranged by a list and by its relabelling are alike. -/
theorem of_arranged (hf : Relabels f μ P) (hL : ∀ a ∈ L, price a ∈ P) (ha : Arranged d L l)
    (ha' : Arranged d (L.map f) l') :
    Alike f μ P l l' where
  mem a hm := hL a (ha.mem_iff.mpr hm)
  mem' b hm := (Alike.map hf hL).mem' b (ha'.mem_iff.mpr hm)
  same p hp := by rw [← ha'.same, ← ha.same, (Alike.map hf hL).same p hp]

end Alike

/-- There is one way to arrange a list. -/
theorem Arranged.unique {L' : List α} (h : Arranged d L l) (h' : Arranged d L' l) : L' = L := by
  induction L generalizing l L' with
  | nil =>
    rw [h.nil_left] at h'
    exact h'.nil_right
  | cons a L ih =>
    cases L' with
    | nil => exact absurd (h'.mem_iff.mpr (h.mem_iff.mp List.mem_cons_self)) List.not_mem_nil
    | cons a' L' =>
      obtain ⟨before, after, rfl, hb, hmin⟩ := h.split
      obtain ⟨-, -, -, -, hmin'⟩ := h'.split
      have hprice : price a' = price a :=
        d.eq_of_not_better (hmin a' (h'.mem_iff.mp List.mem_cons_self))
          (hmin' a (h.mem_iff.mp List.mem_cons_self))
      have hfirst := (h'.same (price a)).trans (h.same (price a)).symm
      rw [List.filter_cons_of_pos (by simpa using hprice),
        List.filter_cons_of_pos (by simp)] at hfirst
      obtain ⟨rfl, -⟩ := List.cons_eq_cons.mp hfirst
      rw [ih (h.drop hb) (h'.drop hb)]

/-- **Matching lists that are alike**: the same trades, the same quantity left, and what is left is
alike. -/
theorem naive_alike (hf : Relabels f μ P) (hok : ∀ p ∈ P, ok' (μ p) = ok p) (ha : Arranged d L l)
    (hpos : ∀ a ∈ L, 0 < remaining a) (h : Alike f μ P l l') (n : ℕ) :
    let m := naive d ok l.length n l
    let m' := naive d ok' l'.length n l'
    m'.trades = m.trades.map (Prod.map f id) ∧ m'.left = m.left ∧ Alike f μ P m.rest m'.rest := by
  have hL : ∀ a ∈ L, price a ∈ P := fun a hm => h.mem a (ha.mem_iff.mp hm)
  have hpos' : ∀ b ∈ L.map f, 0 < remaining b := by
    intro b hb
    obtain ⟨a, hm, rfl⟩ := List.mem_map.mp hb
    rw [hf.remaining]
    exact hpos a hm
  obtain ⟨ht, hl, hr⟩ := naive_sweep ok ha hpos l.length n (Or.inl le_rfl)
  obtain ⟨ht', hl', hr'⟩ := naive_sweep ok' (h.arranged hf ha) hpos' l'.length n (Or.inl le_rfl)
  rw [sweep_relabels hf hok n L hL] at ht' hl' hr'
  refine ⟨by rw [ht', ht], by rw [hl', hl], .of_arranged hf (fun b hb => ?_) hr hr'⟩
  rcases mem_rest n L hb with hm | ⟨a, hm, k, rfl⟩
  · exact hL b hm
  · rw [price_fill]
    exact hL a hm

end TradeFeed.Lib.PriceTime
