import TradeFeed.Lib.PriceTime

/-!
# Who stands before whom

`Before l a b` says that `a` stands before `b` in a list. Without duplicates that is a strict order,
and it is kept when others leave. A sweep keeps it among those that are left, and those behind one
that is left are as they were (`before_sweep`).
-/

namespace TradeFeed.Lib

variable {α ι : Type*}

/-- The first stands before the second. -/
def Before (l : List α) (a b : α) : Prop := [a, b].Sublist l

namespace Before

variable {l l' : List α} {a b c : α}

theorem mono (h : Before l a b) (hl : l.Sublist l') : Before l' a b := List.Sublist.trans h hl

theorem left_mem (h : Before l a b) : a ∈ l := h.subset List.mem_cons_self

theorem right_mem (h : Before l a b) : b ∈ l := h.subset (List.mem_cons_of_mem _ List.mem_cons_self)

theorem cons_iff : Before (c :: l) a b ↔ Before l a b ∨ (a = c ∧ b ∈ l) := by
  rw [Before, List.cons_sublist_cons', List.singleton_sublist]
  rfl

/-- Those who stay stand as they stood. -/
theorem filter {p : α → Bool} (h : Before l a b) (ha : p a = true) (hb : p b = true) :
    Before (l.filter p) a b := by
  have hpair := List.Sublist.filter p h
  rwa [List.filter_cons_of_pos ha, List.filter_cons_of_pos hb, List.filter_nil] at hpair

theorem asymm (hnd : l.Nodup) (h : Before l a b) : ¬ Before l b a := by
  induction l with
  | nil => exact absurd h.left_mem List.not_mem_nil
  | cons c l ih =>
    obtain ⟨hc, hnd⟩ := List.nodup_cons.mp hnd
    rw [cons_iff] at h ⊢
    rintro (h' | ⟨rfl, ha⟩) <;> rcases h with h | ⟨rfl, hb⟩
    · exact ih hnd h h'
    · exact hc h'.right_mem
    · exact hc h.right_mem
    · exact hc hb

/-- Two of them stand one before the other. -/
theorem total (ha : a ∈ l) (hb : b ∈ l) (hne : a ≠ b) : Before l a b ∨ Before l b a := by
  induction l with
  | nil => exact absurd ha List.not_mem_nil
  | cons c l ih =>
    rw [cons_iff, cons_iff]
    rcases List.mem_cons.mp ha with hac | ha <;> rcases List.mem_cons.mp hb with hbc | hb
    · exact absurd (hac.trans hbc.symm) hne
    · exact Or.inl (Or.inr ⟨hac, hb⟩)
    · exact Or.inr (Or.inr ⟨hbc, ha⟩)
    · exact (ih ha hb).imp Or.inl Or.inl

/-- In one of several lists joined. -/
theorem flatMap {f : ι → List α} {is : List ι} {i : ι} (hi : i ∈ is) (h : Before (f i) a b) :
    Before (is.flatMap f) a b := by
  obtain ⟨before, after, rfl⟩ := List.append_of_mem hi
  refine h.mono ?_
  rw [List.flatMap_append, List.flatMap_cons]
  exact (List.sublist_append_left _ _).trans (List.sublist_append_right _ _)

theorem concat (ha : a ∈ l) (b : α) : Before (l ++ [b]) a b :=
  (List.singleton_sublist.mpr ha).append (List.Sublist.refl [b])

end Before

/-! ### In a sweep -/

namespace PriceTime

open Tradable

variable {κ : Type*} [Tradable α] {key : α → κ} {ok : ℕ → Bool}

/-- Those left by a sweep stood in the list before, in that order. -/
theorem rest_sublist (hkey : ∀ (a : α) q, key (fill a q) = key a) (n : ℕ) (l : List α) :
    ((sweep ok n l).rest.map key).Sublist (l.map key) := by
  obtain ⟨done, rest, rfl, -, ⟨-, hr⟩ | ⟨a, tail, m, rfl, -, -, -, -, -, hr⟩⟩ := sweep_parts ok n l
  · rw [hr, List.map_append]
    exact List.sublist_append_right _ _
  · rw [hr, List.map_append, List.map_cons, List.map_cons, hkey]
    exact List.sublist_append_right _ _

/-- **Nobody behind one that is left** was traded with: they stand behind it, as they were. -/
theorem before_sweep (hkey : ∀ (a : α) q, key (fill a q) = key a) {n : ℕ} {l : List α}
    (hnd : (l.map key).Nodup) {a c : α} (hac : Before l a c)
    (ha : key a ∈ (sweep ok n l).rest.map key) :
    ∃ a', key a' = key a ∧ Before (sweep ok n l).rest a' c := by
  obtain ⟨done, rest, rfl, -, hrest⟩ := sweep_parts ok n l
  -- it was not used up, and so stands in the rest
  have hrest' : Before rest a c := by
    have hkeys : (sweep ok n (done ++ rest)).rest.map key = rest.map key := by
      rcases hrest with ⟨-, hr⟩ | ⟨b, tail, m, rfl, -, -, -, -, -, hr⟩
      · rw [hr]
      · rw [hr, List.map_cons, List.map_cons, hkey]
    rw [hkeys] at ha
    clear hrest hkeys
    induction done with
    | nil => exact hac
    | cons b done ih =>
      rw [List.cons_append, List.map_cons, List.nodup_cons] at hnd
      rw [List.cons_append, Before.cons_iff] at hac
      rcases hac with hac | ⟨rfl, -⟩
      · exact ih hnd.2 hac
      · exact absurd (by rw [List.map_append]; exact List.mem_append_right _ ha) hnd.1
  rcases hrest with ⟨-, hr⟩ | ⟨b, tail, m, rfl, -, -, -, -, -, hr⟩
  · exact ⟨a, rfl, by rwa [hr]⟩
  · rw [hr]
    rcases Before.cons_iff.mp hrest' with htail | ⟨rfl, hc⟩
    · exact ⟨a, rfl, Before.cons_iff.mpr (Or.inl htail)⟩
    · exact ⟨fill a m, hkey a m, Before.cons_iff.mpr (Or.inr ⟨rfl, hc⟩)⟩

end PriceTime

end TradeFeed.Lib
