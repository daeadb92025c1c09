import Mathlib.Order.WellFounded

/-!
# What an endless run comes to

A run that does not end takes one step after the other, each by an action. It is fair to a kind of
action if actions of that kind come again and again, and one property leads to another if the other
holds whenever the first has held, then or later.

Such a property follows from a rank that no step makes greater and that each action of a fair kind
makes smaller, as long as the other property does not hold (`leadsTo_of_rank`). Where several kinds
have to do their part one after the other, each part is a rank of its own, and the parts are chained
(`LeadsTo.trans`); a property that every step keeps then holds from some time on (`LeadsTo.always`).
-/

namespace TradeFeed.Lib

/-- A run that does not end, of a machine with the steps `R`. -/
structure Endless {S A : Type*} (R : S → A → S → Prop) where
  /-- The states, one after the other. -/
  state : ℕ → S
  /-- What leads from each to the next. -/
  action : ℕ → A
  /-- It does. -/
  step : ∀ n, R (state n) (action n) (state (n + 1))

namespace Endless

variable {S A α : Type*} {R : S → A → S → Prop} {ρ : Endless R} {κ : A → Prop} {P Q P' : S → Prop}

/-- Actions of this kind come again and again. -/
def Fair (ρ : Endless R) (κ : A → Prop) : Prop := ∀ n, ∃ m, n ≤ m ∧ κ (ρ.action m)

/-- Whenever `P` holds, `Q` does then or later. -/
def LeadsTo (ρ : Endless R) (P Q : S → Prop) : Prop :=
  ∀ n, P (ρ.state n) → ∃ m, n ≤ m ∧ Q (ρ.state m)

/-- What every step keeps, the run keeps. -/
theorem keeps (hstep : ∀ s a s', R s a s' → P s → P s') {n m : ℕ} (h : P (ρ.state n))
    (hnm : n ≤ m) :
    P (ρ.state m) := by
  induction m, hnm using Nat.le_induction with
  | base => exact h
  | succ m _ ih => exact hstep _ _ _ (ρ.step m) ih

theorem LeadsTo.trans (h : ρ.LeadsTo P Q) (h' : ρ.LeadsTo Q P') : ρ.LeadsTo P P' := by
  intro n hn
  obtain ⟨m, hnm, hm⟩ := h n hn
  obtain ⟨l, hml, hl⟩ := h' m hm
  exact ⟨l, hnm.trans hml, hl⟩

/-- What a property that is kept leads to, if that is kept too, holds from some time on. -/
theorem LeadsTo.always (h : ρ.LeadsTo P Q) (hkeep : ∀ s a s', R s a s' → Q s → Q s')
    (h0 : P (ρ.state 0)) :
    ∃ n, ∀ m, n ≤ m → Q (ρ.state m) := by
  obtain ⟨n, -, hn⟩ := h 0 h0
  exact ⟨n, fun m hnm => keeps hkeep hn hnm⟩

section Rank

variable [Preorder α] {μ : S → α}

/-- A step leads to `Q`, or keeps `P` and the rank. -/
def Holding (R : S → A → S → Prop) (P Q : S → Prop) (μ : S → α) : Prop :=
  ∀ s a s', R s a s' → P s → Q s' ∨ P s' ∧ μ s' ≤ μ s

/-- An action of the kind leads to `Q`, or makes the rank smaller. -/
def Helpful (R : S → A → S → Prop) (κ : A → Prop) (P Q : S → Prop) (μ : S → α) : Prop :=
  ∀ s a s', R s a s' → P s → κ a → Q s' ∨ P s' ∧ μ s' < μ s

/-- Up to any later time, `Q` has held, or `P` still does and the rank is no greater. -/
theorem Holding.until (h : Holding R P Q μ) {n : ℕ} (hn : P (ρ.state n)) (d : ℕ) :
    (∃ m, n ≤ m ∧ Q (ρ.state m)) ∨ P (ρ.state (n + d)) ∧ μ (ρ.state (n + d)) ≤ μ (ρ.state n) := by
  induction d with
  | zero => exact .inr ⟨hn, le_rfl⟩
  | succ d ih =>
    rcases ih with hq | ⟨hp, hle⟩
    · exact .inl hq
    · rcases h _ _ _ (ρ.step (n + d)) hp with hq | ⟨hp', hle'⟩
      · exact .inl ⟨n + d + 1, by omega, hq⟩
      · exact .inr ⟨hp', hle'.trans hle⟩

/-- **The rule**: no step makes the rank greater, and those of a fair kind make it smaller. -/
theorem leadsTo_of_rank [WellFoundedLT α] (hfair : ρ.Fair κ) (hstep : Holding R P Q μ)
    (hhelp : Helpful R κ P Q μ) :
    ρ.LeadsTo P Q := by
  -- by induction on the rank: the next action of the kind is waited for, and makes it smaller
  suffices hall :
      ∀ (x : α) (n : ℕ), μ (ρ.state n) = x → P (ρ.state n) → ∃ m, n ≤ m ∧ Q (ρ.state m) from
    fun n hn => hall _ n rfl hn
  intro x
  induction x using WellFoundedLT.induction with
  | ind x ih =>
    rintro n rfl hn
    obtain ⟨m, hnm, hm⟩ := hfair n
    obtain ⟨d, rfl⟩ := Nat.exists_eq_add_of_le hnm
    rcases hstep.until hn d with hq | ⟨hp, hle⟩
    · exact hq
    · rcases hhelp _ _ _ (ρ.step (n + d)) hp hm with hq | ⟨hp', hlt⟩
      · exact ⟨n + d + 1, by omega, hq⟩
      · obtain ⟨l, hl, hq⟩ := ih _ (hlt.trans_le hle) _ rfl hp'
        exact ⟨l, by omega, hq⟩

end Rank

end Endless

end TradeFeed.Lib
