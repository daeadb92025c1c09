import Mathlib.Data.List.Basic
import Mathlib.Data.Option.Basic
import Mathlib.Order.Nat
import Mathlib.Order.WellFounded

/-!
# Machines

A machine takes steps one after the other, each by an action that comes from outside: the
next input, or which of several threads moves. An invariant of each step is one of every
run; and where every step does nothing to a view of the state, or to that view what a
step of another machine does, every run is to that view a run of the other machine.

Where every step makes a measure smaller there is no endless run (`not_endless`).

A machine that is looked at after each step stops when its state is found to be final
(`runUntil`). If it counts items and its inputs bring several at a time, it stops at a bound
exactly when no input goes past it (`runUntil_limit`).

A step that may fail has an outcome only sometimes; two of them are followed side by side by
relating their outcomes.
-/

namespace TradeFeed.Lib.Machine

variable {S S' A A' : Type*} {step : S → A → S} {step' : S' → A' → S'} {s : S}

/-- Take steps in order. -/
def run (step : S → A → S) (s : S) (as : List A) : S := as.foldl step s

@[simp] theorem run_nil (step : S → A → S) (s : S) : run step s [] = s := rfl

@[simp] theorem run_cons (step : S → A → S) (s : S) (a : A) (as : List A) :
    run step s (a :: as) = run step (step s a) as := rfl

theorem run_append (step : S → A → S) (s : S) (as as' : List A) :
    run step s (as ++ as') = run step (run step s as) as' := List.foldl_append

/-- What every step keeps, every run keeps. -/
theorem invariant {I : S → Prop} (hstep : ∀ s a, I s → I (step s a)) (h : I s) (as : List A) :
    I (run step s as) := by
  induction as generalizing s with
  | nil => exact h
  | cons a as ih => exact ih (hstep s a h)

/-- A run of one more action. -/
theorem run_take_succ (step : S → A → S) (s : S) (as : List A) {k : ℕ} (hk : k < as.length) :
    run step s (as.take (k + 1)) = step (run step s (as.take k)) as[k] := by
  rw [List.take_succ_eq_append_getElem hk, run_append, run_cons, run_nil]

/-- **An exact condition**: where allowed actions keep an invariant, and the states that one leads
to are only good if it was allowed, a run is good all along exactly when every action is allowed. -/
theorem good_iff {I Good : S → Prop} {ok : S → A → Prop} (hgood : ∀ s, I s → Good s)
    (hstep : ∀ s a, I s → ok s a → I (step s a)) (hok : ∀ s a, I s → Good (step s a) → ok s a)
    (h : I s) (as : List A) :
    (∀ k, Good (run step s (as.take k))) ↔
      ∀ k (hk : k < as.length), ok (run step s (as.take k)) as[k] := by
  -- both say that every state so far keeps the invariant
  have hinv : ∀ k, (∀ j (_ : j < k) (hj : j < as.length), ok (run step s (as.take j)) as[j]) →
      I (run step s (as.take k)) := by
    intro k hall
    induction k with
    | zero => exact h
    | succ k ih =>
      have hbefore := ih fun j hjk => hall j (Nat.lt_succ_of_lt hjk)
      rcases Nat.lt_or_ge k as.length with hk | hk
      · rw [run_take_succ step s as hk]
        exact hstep _ _ hbefore (hall k (Nat.lt_succ_self k) hk)
      · rw [List.take_of_length_le hk] at hbefore
        rwa [List.take_of_length_le (Nat.le_succ_of_le hk)]
  constructor
  · intro hall k
    induction k using Nat.strong_induction_on with
    | _ k ih =>
      intro hk
      have hnext := hall (k + 1)
      rw [run_take_succ step s as hk] at hnext
      exact hok _ _ (hinv k fun j hjk hj => ih j hjk hj) hnext
  · exact fun hall k => hgood _ (hinv k fun j _ hj => hall j hj)

/-- **Simulation**: a view of the state that every step leaves alone or takes a step of another
machine with, takes a run of it. -/
theorem simulation {I : S → Prop} {view : S → S'} (hstep : ∀ s a, I s → I (step s a))
    (hsim : ∀ s a, I s → view (step s a) = view s ∨ ∃ a', view (step s a) = step' (view s) a')
    (h : I s) (as : List A) :
    ∃ as', view (run step s as) = run step' (view s) as' := by
  induction as generalizing s with
  | nil => exact ⟨[], rfl⟩
  | cons a as ih =>
    obtain ⟨as', has⟩ := ih (hstep s a h)
    rcases hsim s a h with hstay | ⟨a', hmove⟩
    · exact ⟨as', by rw [run_cons, has, hstay]⟩
    · exact ⟨a' :: as', by rw [run_cons, has, hmove, run_cons]⟩

/-- Take steps that may be undefined. -/
def tryRun (step : S → A → Option S) (s : S) : List A → Option S
  | [] => some s
  | a :: as => (step s a).bind fun s => tryRun step s as

/-- Steps that are defined and keep an invariant make a run that is and does. -/
theorem tryRun_invariant {step : S → A → Option S} {I : S → Prop} {as : List A}
    (hstep : ∀ s, ∀ a ∈ as, I s → ∃ s', step s a = some s' ∧ I s') (h : I s) :
    ∃ s', tryRun step s as = some s' ∧ I s' := by
  induction as generalizing s with
  | nil => exact ⟨s, rfl, h⟩
  | cons a as ih =>
    obtain ⟨s₁, hs₁, h₁⟩ := hstep s a (by simp) h
    obtain ⟨s', hs', h'⟩ := ih (fun s a ha => hstep s a (by simp [ha])) h₁
    exact ⟨s', by rw [tryRun, hs₁, Option.bind_some, hs'], h'⟩

/-- Every step of a run is allowed in the state that it is taken in. -/
def Allowed (step : S → A → Option S) (ok : S → A → Prop) : S → List A → Prop
  | _, [] => True
  | s, a :: as => ok s a ∧ ∀ s', step s a = some s' → Allowed step ok s' as

/-- Where the allowed steps are defined and keep an invariant, a run of them is and does. -/
theorem tryRun_allowed {step : S → A → Option S} {I : S → Prop} {ok : S → A → Prop} {as : List A}
    (hstep : ∀ s a, ok s a → I s → ∃ s', step s a = some s' ∧ I s') (has : Allowed step ok s as)
    (h : I s) : ∃ s', tryRun step s as = some s' ∧ I s' := by
  induction as generalizing s with
  | nil => exact ⟨s, rfl, h⟩
  | cons a as ih =>
    obtain ⟨s₁, hs₁, h₁⟩ := hstep s a has.1 h
    obtain ⟨s', hs', h'⟩ := ih (has.2 s₁ hs₁) h₁
    exact ⟨s', by rw [tryRun, hs₁, Option.bind_some, hs'], h'⟩

/-- **Runs come to an end** where every step makes a measure smaller. -/
theorem not_endless {α : Type*} [LT α] [WellFoundedLT α] {I : S → Prop} {r : S → S → Prop}
    {μ : S → α} (hstep : ∀ s s', I s → r s s' → I s' ∧ μ s' < μ s) (h : I s) :
    ¬ ∃ f : ℕ → S, f 0 = s ∧ ∀ i, r (f i) (f (i + 1)) := by
  rintro ⟨f, rfl, hf⟩
  have hall : ∀ i, I (f i) := fun i => by
    induction i with
    | zero => exact h
    | succ i ih => exact (hstep _ _ ih (hf i)).1
  obtain ⟨_, ⟨i, rfl⟩, hmin⟩ := wellFounded_lt.has_min (Set.range fun i => μ (f i)) ⟨_, 0, rfl⟩
  exact hmin _ ⟨i + 1, rfl⟩ (hstep _ _ (hall i) (hf i)).2

/-! ### Runs that stop -/

section Stop

variable {stop : S → Prop} [DecidablePred stop] {as : List A}

/-- Take steps in order until one leads to a state that stops. -/
def runUntil (step : S → A → S) (stop : S → Prop) [DecidablePred stop] (s : S) : List A → S
  | [] => s
  | a :: as => if stop (step s a) then step s a else runUntil step stop (step s a) as

/-- **The steps that are taken**: all, or the first ones that lead to a state that stops. -/
theorem runUntil_spec (step : S → A → S) (stop : S → Prop) [DecidablePred stop] (s : S)
    (as : List A) :
    ∃ k ≤ as.length, runUntil step stop s as = run step s (as.take k) ∧
      (k < as.length → stop (run step s (as.take k))) ∧
      ∀ j < k, 0 < j → ¬ stop (run step s (as.take j)) := by
  induction as generalizing s with
  | nil => exact ⟨0, le_rfl, rfl,
    fun h => absurd h (Nat.lt_irrefl 0), fun j hj => absurd hj (Nat.not_lt_zero j)⟩
  | cons a as ih =>
    by_cases hstop : stop (step s a)
    · refine ⟨1, Nat.succ_pos _, if_pos hstop, fun _ => hstop, fun j hj hpos => ?_⟩
      omega
    · obtain ⟨k, hk, hrun, hend, hgo⟩ := ih (step s a)
      refine ⟨k + 1, Nat.succ_le_succ hk, (if_neg hstop).trans hrun,
        fun h => hend (Nat.lt_of_succ_lt_succ h), ?_⟩
      intro j hj hpos
      obtain ⟨j, rfl⟩ := Nat.exists_eq_succ_of_ne_zero (Nat.ne_of_gt hpos)
      cases j with
      | zero => exact hstop
      | succ j => exact hgo (j + 1) (Nat.lt_of_succ_lt_succ hj) (Nat.succ_pos j)

/-- Only which states stop matters. -/
theorem runUntil_congr {stop' : S → Prop} [DecidablePred stop'] (h : ∀ s, stop s ↔ stop' s) (s : S)
    (as : List A) :
    runUntil step stop s as = runUntil step stop' s as := by
  induction as generalizing s with
  | nil => rfl
  | cons a as ih => simp only [runUntil, h, ih]

/-- A run that nothing stops. -/
theorem runUntil_never (hnever : ∀ s, ¬ stop s) (s : S) (as : List A) :
    runUntil step stop s as = run step s as := by
  obtain ⟨k, hk, hrun, hend, -⟩ := runUntil_spec step stop s as
  rw [hrun, List.take_of_length_le (not_lt.mp fun hlt => hnever _ (hend hlt))]

end Stop

/-! ### Limits -/

section Limit

variable {β : Type*} {items : A → List β} {as : List A} {n : ℕ}

/-- No input has items on both sides of place `n`: there are no more than `n` items, or the
first inputs have just so many. -/
def Aligned (items : A → List β) (n : ℕ) (as : List A) : Prop :=
  (as.flatMap items).length ≤ n ∨ ∃ k, ((as.take k).flatMap items).length = n

theorem prefix_flatMap_take (items : A → List β) (as : List A) {j k : ℕ} (h : j ≤ k) :
    (as.take j).flatMap items <+: (as.take k).flatMap items := by
  have hpre : as.take j <+: as.take k := List.take_prefix_take_left h
  obtain ⟨t, ht⟩ := hpre
  rw [← ht, List.flatMap_append]
  exact List.prefix_append _ _

/-- Below the place, the next input does not go past it. -/
theorem Aligned.next (h : Aligned items n as) {j : ℕ}
    (hj : ((as.take j).flatMap items).length < n) :
    ((as.take (j + 1)).flatMap items).length ≤ n := by
  rcases h with hall | ⟨k, hk⟩
  · refine le_trans (List.IsPrefix.length_le ?_) hall
    obtain ⟨t, ht⟩ := List.take_prefix (j + 1) as
    exact ⟨t.flatMap items, by rw [← List.flatMap_append, ht]⟩
  · have hlt : j < k := not_le.mp fun hle => by
      have := (prefix_flatMap_take items as hle).length_le
      omega
    exact (prefix_flatMap_take items as hlt).length_le.trans_eq hk

/-- **The limit**: a machine that counts its items modulo `m` and stops at `n` of them has taken the
first `n`, if no input goes past them. -/
theorem runUntil_limit {count : S → ℕ} {m : ℕ} (hn : 0 < n) (hm : n < m)
    (hcount : ∀ j, count (run step s (as.take j)) = ((as.take j).flatMap items).length % m)
    (h : Aligned items n as) :
    ∃ k, runUntil step (fun s => n ≤ count s) s as = run step s (as.take k) ∧
      (as.take k).flatMap items = (as.flatMap items).take n := by
  obtain ⟨k, hk, hrun, hend, hgo⟩ := runUntil_spec step (fun s => n ≤ count s) s as
  refine ⟨k, hrun, ?_⟩
  -- before the last step there are fewer items, so the counter has not wrapped around
  have hbelow : ∀ j < k, ((as.take j).flatMap items).length < n := by
    intro j hj
    induction j with
    | zero => simpa using hn
    | succ j ih =>
      have hle := h.next (ih (by omega))
      have hgo := hgo (j + 1) hj (Nat.succ_pos j)
      rw [hcount, Nat.mod_eq_of_lt (by omega)] at hgo
      omega
  have hle : ((as.take k).flatMap items).length ≤ n := by
    cases k with
    | zero => simp
    | succ k => exact h.next (hbelow k (Nat.lt_succ_self k))
  have hpre : (as.take k).flatMap items <+: as.flatMap items := by
    have hpre := prefix_flatMap_take items as hk
    rwa [List.take_length] at hpre
  rcases Nat.lt_or_ge k as.length with hlt | hge
  · have hstop := hend hlt
    rw [hcount, Nat.mod_eq_of_lt (by omega)] at hstop
    rw [List.prefix_iff_eq_take.mp hpre, le_antisymm hle hstop]
  · rw [List.take_of_length_le hge] at hle ⊢
    exact (List.take_of_length_le hle).symm

/-- One item at a time goes past no place. -/
theorem aligned_single (n : ℕ) (as : List β) : Aligned (fun b => [b]) n as := by
  have hall : ∀ l : List β, l.flatMap (fun b => [b]) = l := List.flatMap_singleton'
  rcases le_total as.length n with hle | hle
  · exact .inl (by rwa [hall])
  · exact .inr ⟨n, by rw [hall, List.length_take_of_le hle]⟩

end Limit

/-! ### Outcomes side by side -/

section Outcomes

variable {α β γ δ : Type*}

/-- Related outcomes, continued alike, have related outcomes. -/
theorem rel_bind {R : α → β → Prop} {S : γ → δ → Prop} {x : Option α} {y : Option β}
    {f : α → Option γ} {g : β → Option δ} (h : Option.Rel R x y)
    (hfg : ∀ a b, R a b → Option.Rel S (f a) (g b)) :
    Option.Rel S (x.bind f) (y.bind g) := by
  cases h with
  | none => exact .none
  | some hab => exact hfg _ _ hab

theorem rel_map {R : α → β → Prop} {S : γ → δ → Prop} {x : Option α} {y : Option β} {f : α → γ}
    {g : β → δ} (h : Option.Rel R x y) (hfg : ∀ a b, R a b → S (f a) (g b)) :
    Option.Rel S (x.map f) (y.map g) := by
  cases h with
  | none => exact .none
  | some hab => exact .some (hfg _ _ hab)

/-- An outcome related to a returned one is returned too. -/
theorem rel_some {R : α → β → Prop} {a : α} {y : Option β} (h : Option.Rel R (some a) y) :
    ∃ b, y = some b ∧ R a b := by
  rcases h with hab | -
  exact ⟨_, rfl, hab⟩

/-- What is known of the first of two related outcomes. -/
theorem rel_and {R : α → β → Prop} {P : α → Prop} {x : Option α} {y : Option β}
    (h : Option.Rel R x y) (hP : ∀ a, x = some a → P a) :
    Option.Rel (fun a b => P a ∧ R a b) x y := by
  rcases h with hab | -
  · exact .some ⟨hP _ rfl, hab⟩
  · exact .none

/-- Outcomes are related by a function exactly when it maps the one to the other. -/
theorem rel_map_iff {f : α → β} {x : Option α} {y : Option β} :
    Option.Rel (fun a b => b = f a) x y ↔ x.map f = y := by
  constructor
  · rintro (h | -)
    · rw [h, Option.map_some]
    · rfl
  · rintro rfl
    cases x with
    | none => exact .none
    | some a => exact .some rfl

end Outcomes

end TradeFeed.Lib.Machine
