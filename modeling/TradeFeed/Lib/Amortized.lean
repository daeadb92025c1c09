import Mathlib.Data.Nat.Init

/-!
# Counters paid from a potential

A counter of machine words that goes up `n` times, from `c` to `c'`, is `Metered` when these, and
what a potential rises by meanwhile, are covered by some credit. The numbers and the credit add up
over steps (`Metered.trans`), so over a run that starts from nothing there are no more of them than
the credit that was given: that is the amortized cost of the run. A counter that wraps shows less
(`Metered.toNat_add_le`), so what it shows after a step may be taken for what it counted
(`Metered.shown`).
-/

namespace TradeFeed.Lib

/-- The counter goes up `n` times from `c` to `c'`, and the potential from `Φ` to `Φ'`, at the
expense of `credit`. -/
def Metered (n : ℕ) (c c' : UInt64) (Φ Φ' credit : ℕ) : Prop :=
  c' = c + UInt64.ofNat n ∧ n + Φ' ≤ Φ + credit

namespace Metered

variable {n n' : ℕ} {c c₁ c' : UInt64} {Φ Φ₁ Φ' credit credit' : ℕ}

/-- What does not count costs what the potential rises by. -/
theorem idle (h : c' = c) (hΦ : Φ' ≤ Φ + credit) : Metered 0 c c' Φ Φ' credit :=
  ⟨by simp [h], by omega⟩

/-- What counts once is paid by the potential, if that falls by one. -/
theorem tick (h : c' = c + 1) (hΦ : 1 + Φ' ≤ Φ + credit) : Metered 1 c c' Φ Φ' credit :=
  ⟨h, hΦ⟩

theorem trans (h : Metered n c c₁ Φ Φ₁ credit) (h' : Metered n' c₁ c' Φ₁ Φ' credit') :
    Metered (n + n') c c' Φ Φ' (credit + credit') := by
  obtain ⟨rfl, hn⟩ := h
  obtain ⟨rfl, hn'⟩ := h'
  exact ⟨by rw [UInt64.ofNat_add, UInt64.add_assoc], by omega⟩

/-- The same from other potentials that differ alike. -/
theorem shift (h : Metered n c c' Φ Φ' credit) (k : ℕ) :
    Metered n c c' (Φ + k) (Φ' + k) credit :=
  ⟨h.1, by have := h.2; omega⟩

/-- What the counter shows to have been added is no more than was. -/
theorem shown (h : Metered n c c' Φ Φ' credit) : Metered (c' - c).toNat c c' Φ Φ' credit := by
  obtain ⟨rfl, hn⟩ := h
  have hsub : c + UInt64.ofNat n - c = UInt64.ofNat n := by
    rw [UInt64.add_comm, UInt64.add_sub_cancel]
  rw [hsub]
  refine ⟨by rw [UInt64.ofNat_toNat], ?_⟩
  rw [UInt64.toNat_ofNat']
  have := Nat.mod_le n (2 ^ 64)
  omega

/-- **From nothing**, a counter shows no more than the credit that is not in the potential. -/
theorem toNat_add_le (h : Metered n 0 c' 0 Φ' credit) : c'.toNat + Φ' ≤ credit := by
  have hshown := h.shown.2
  rw [UInt64.sub_zero] at hshown
  omega

end Metered

end TradeFeed.Lib
