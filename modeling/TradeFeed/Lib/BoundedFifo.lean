import TradeFeed.Lib.Machine

/-!
# Bounded queues

A queue that holds at most `C` items: pushing to a full one and popping an empty one do nothing.
`Fifo` keeps what was ever pushed and popped along with what is held, and `run_order` says that
nothing is lost, doubled or reordered: what is popped and then what is held are what was held first
and then what was pushed. Which of the items offered are pushed depends on the numbers of items
alone (`rooms`, `run_pushed`).
-/

namespace TradeFeed.Lib

/-- What can be done with a queue. -/
inductive FifoOp (α : Type*) where
  /-- Offer an item. -/
  | push (x : α)
  /-- Ask for one. -/
  | pop

/-- A queue and its history. -/
structure Fifo (α : Type*) where
  /-- The items it holds, the oldest first. -/
  held : List α
  /-- The items it has taken. -/
  pushed : List α
  /-- The items it has given. -/
  popped : List α

namespace Fifo

variable {α : Type*} {C : ℕ}

/-- A queue that holds some items and has no history yet. -/
def start (q : List α) : Fifo α := ⟨q, [], []⟩

/-- What an operation does. -/
def step (C : ℕ) (q : Fifo α) : FifoOp α → Fifo α
  | .push x =>
    if q.held.length < C then { q with held := q.held ++ [x], pushed := q.pushed ++ [x] } else q
  | .pop =>
    match q.held with
    | [] => q
    | x :: xs => { q with held := xs, popped := q.popped ++ [x] }

/-- What operations do. -/
abbrev run (C : ℕ) (q : Fifo α) (ops : List (FifoOp α)) : Fifo α := Machine.run (step C) q ops

/-- One operation more. -/
theorem run_snoc (q : Fifo α) (ops : List (FifoOp α)) (op : FifoOp α) :
    run C q (ops ++ [op]) = step C (run C q ops) op :=
  Machine.run_append (step C) q ops [op]

theorem step_push {q : Fifo α} (h : q.held.length < C) (x : α) :
    q.step C (.push x) = { q with held := q.held ++ [x], pushed := q.pushed ++ [x] } := if_pos h

theorem step_push_full {q : Fifo α} (h : ¬ q.held.length < C) (x : α) : q.step C (.push x) = q :=
  if_neg h

theorem step_pop {q : Fifo α} {x : α} {xs : List α} (h : q.held = x :: xs) :
    q.step C .pop = { q with held := xs, popped := q.popped ++ [x] } := by
  simp [step, h]

theorem step_pop_empty {q : Fifo α} (h : q.held = []) : q.step C .pop = q := by
  simp [step, h]

/-- **First in, first out.** -/
theorem run_order (C : ℕ) (q : List α) (ops : List (FifoOp α)) :
    (run C (start q) ops).popped ++ (run C (start q) ops).held = q ++
      (run C (start q) ops).pushed := by
  refine Machine.invariant (I := fun r : Fifo α => r.popped ++ r.held = q ++ r.pushed)
    (fun r op h => ?_) (by simp [start]) ops
  cases op with
  | push x =>
    by_cases hroom : r.held.length < C
    · rw [step_push hroom, ← List.append_assoc, h, List.append_assoc]
    · rwa [step_push_full hroom]
  | pop =>
    cases hq : r.held with
    | nil => rwa [step_pop_empty hq]
    | cons x xs =>
      rw [step_pop hq]
      rw [hq] at h
      show r.popped ++ [x] ++ xs = q ++ r.pushed
      rw [← h, List.append_assoc]
      rfl

/-! ### Which items are taken -/

/-- The items that some operations offer. -/
def offered : List (FifoOp α) → List α
  | [] => []
  | .push x :: ops => x :: offered ops
  | .pop :: ops => offered ops

theorem offered_append (ops ops' : List (FifoOp α)) :
    offered (ops ++ ops') = offered ops ++ offered ops' := by
  induction ops with
  | nil => rfl
  | cons op ops ih =>
    cases op with
    | push x => exact congrArg (x :: ·) ih
    | pop => exact ih

/-- Whether each offer finds room, when `n` items are held at first. -/
def rooms (C : ℕ) : ℕ → List (FifoOp α) → List Bool
  | _, [] => []
  | n, .push _ :: ops => decide (n < C) :: rooms C (if n < C then n + 1 else n) ops
  | n, .pop :: ops => rooms C (n - 1) ops

/-- How many items are held after some operations, when `n` are held at first. -/
def occupancy (C : ℕ) : ℕ → List (FifoOp α) → ℕ
  | n, [] => n
  | n, .push _ :: ops => occupancy C (if n < C then n + 1 else n) ops
  | n, .pop :: ops => occupancy C (n - 1) ops

/-- The items whose offers find room. -/
def taken (xs : List α) (room : List Bool) : List α := ((xs.zip room).filter Prod.snd).map Prod.fst

theorem length_step_push (q : Fifo α) (x : α) :
    (q.step C (.push x)).held.length =
      if q.held.length < C then q.held.length + 1 else q.held.length := by
  by_cases h : q.held.length < C
  · rw [step_push h, if_pos h, List.length_append]
    rfl
  · rw [step_push_full h, if_neg h]

theorem length_step_pop (q : Fifo α) : (q.step C .pop).held.length = q.held.length - 1 := by
  cases hq : q.held with
  | nil => rw [step_pop_empty hq, hq]; rfl
  | cons x xs => rw [step_pop hq]; rfl

/-- **The items taken** are those whose offers find room. -/
theorem run_pushed (q : Fifo α) (ops : List (FifoOp α)) :
    (run C q ops).pushed = q.pushed ++ taken (offered ops) (rooms C q.held.length ops) := by
  induction ops generalizing q with
  | nil => simp [offered, rooms, taken]
  | cons op ops ih =>
    cases op with
    | push x =>
      show (run C (q.step C (.push x)) ops).pushed = _
      rw [ih, length_step_push]
      by_cases h : q.held.length < C
      · rw [step_push h]
        simp [offered, rooms, taken, h]
      · rw [step_push_full h]
        simp [offered, rooms, taken, h]
    | pop =>
      have hsame : (q.step C .pop).pushed = q.pushed := by
        cases hq : q.held with
        | nil => rw [step_pop_empty hq]
        | cons x xs => rw [step_pop hq]
      show (run C (q.step C .pop) ops).pushed = _
      rw [ih, length_step_pop, hsame]
      rfl

/-! ### What comes out -/

/-- All that comes out behind the items held at first, once everything is popped. -/
def drained (C : ℕ) (q : List α) (ops : List (FifoOp α)) : List α :=
  ((run C (start q) ops).popped ++ (run C (start q) ops).held).drop q.length

/-- **What comes out** are the items whose offers find room. -/
theorem drained_eq (C : ℕ) (q : List α) (ops : List (FifoOp α)) :
    drained C q ops = taken (offered ops) (rooms C q.length ops) := by
  rw [drained, run_order, List.drop_left, run_pushed]
  rfl

@[simp] theorem taken_nil (room : List Bool) : taken ([] : List α) room = [] := rfl

@[simp] theorem taken_cons (x : α) (xs : List α) (b : Bool) (room : List Bool) :
    taken (x :: xs) (b :: room) = (if b then [x] else []) ++ taken xs room := by
  cases b <;> rfl

@[simp] theorem offered_pops (p : ℕ) (ops : List (FifoOp α)) :
    offered (List.replicate p .pop ++ ops) = offered ops := by
  induction p with
  | zero => rfl
  | succ p ih => exact ih

@[simp] theorem rooms_pops (C n p : ℕ) (ops : List (FifoOp α)) :
    rooms C n (List.replicate p .pop ++ ops) = rooms C (n - p) ops := by
  induction p generalizing n with
  | zero => rfl
  | succ p ih =>
    show rooms C (n - 1) (List.replicate p .pop ++ ops) = _
    rw [ih, Nat.sub_sub, Nat.add_comm 1]

theorem taken_subset (xs : List α) (room : List Bool) : taken xs room ⊆ xs := by
  intro x hx
  obtain ⟨t, ht, rfl⟩ := List.mem_map.mp hx
  exact (List.of_mem_zip (List.mem_of_mem_filter ht)).1

theorem length_taken_le (xs : List α) (room : List Bool) : (taken xs room).length ≤ xs.length := by
  rw [taken, List.length_map]
  refine (List.length_filter_le _ _).trans ?_
  rw [List.length_zip]
  exact Nat.min_le_left _ _

/-- Before the first offer there are only pops. -/
theorem exists_pops {ops : List (FifoOp α)} {x : α} {xs : List α} (h : offered ops = x :: xs) :
    ∃ p ops', ops = List.replicate p .pop ++ .push x :: ops' ∧ offered ops' = xs := by
  induction ops with
  | nil => cases h
  | cons op ops ih =>
    cases op with
    | push y =>
      obtain ⟨rfl, rfl⟩ := List.cons.inj h
      exact ⟨0, ops, rfl, rfl⟩
    | pop =>
      obtain ⟨p, ops', rfl, hops'⟩ := ih h
      exact ⟨p + 1, ops', rfl, hops'⟩

/-- The first offer is the first. -/
theorem pops_inj {p p' : ℕ} {x x' : α} {ops ops' : List (FifoOp α)}
    (h : List.replicate p .pop ++ .push x :: ops = List.replicate p' .pop ++ .push x' :: ops') :
    p = p' ∧ x = x' ∧ ops = ops' := by
  induction p generalizing p' with
  | zero =>
    cases p' with
    | zero => simpa using h
    | succ p' => simp [List.replicate_succ] at h
  | succ p ih =>
    cases p' with
    | zero => simp [List.replicate_succ] at h
    | succ p' =>
      obtain ⟨rfl, hx⟩ := ih (List.cons.inj h).2
      exact ⟨rfl, hx⟩

end Fifo

end TradeFeed.Lib
