import Mathlib.Data.List.FinRange
import Mathlib.Data.Fintype.Card
import TradeFeed.Core.OrderBook
import TradeFeed.Lib.PriceTime

/-!
# The invariant of the order book

What holds of the pool, the levels and the table together. `Core b Q x` says that the
levels of book `b` are the queues `Q`, that each order of the arena is in exactly one
place (free, held in hand as one of `x`, or queued at one level), that a queued order
belongs where it is, and that the table points only to queued or held orders in their
own slots. `Live` adds that every queued order has something left, and `Indexed` that a
side's bitset and best price say which of its levels are occupied.

Each primitive of the book is shown to keep `Core`: linking and unlinking an order,
filling two of them, registering, unregistering and freeing.
-/

namespace TradeFeed

open Function (update)
open Lib Lib.PriceTime

variable {cap : ℕ}

/-! ### Prices and levels -/

/-- The price of a level. -/
def priceAt (i : Fin priceLevels) : Price := UInt32.ofNat (i.val + minPrice.toNat)

theorem priceAt_toNat (i : Fin priceLevels) : (priceAt i).toNat = i.val + 1 := by
  have : i.val < 1000000 := i.isLt
  rw [priceAt, UInt32.toNat_ofNat', show minPrice.toNat = 1 from rfl]
  omega

theorem minPrice_le_priceAt (i : Fin priceLevels) : minPrice ≤ priceAt i := by
  rw [UInt32.le_iff_toNat_le, priceAt_toNat]
  exact Nat.succ_le_succ (Nat.zero_le _)

theorem priceAt_le_maxPrice (i : Fin priceLevels) : priceAt i ≤ maxPrice := by
  rw [UInt32.le_iff_toNat_le, priceAt_toNat]
  exact i.isLt

theorem priceAt_ne_invalidPrice (i : Fin priceLevels) : priceAt i ≠ invalidPrice := fun e => by
  have h := priceAt_toNat i
  rw [e] at h
  simp [invalidPrice] at h

theorem idx_priceAt (i : Fin priceLevels) : idx (priceAt i) = i.val := by
  have h := priceAt_toNat i
  rw [idx, UInt32.toNat_sub_of_le, h, show minPrice.toNat = 1 from rfl]
  · omega
  · rw [UInt32.le_iff_toNat_le, h, show minPrice.toNat = 1 from rfl]
    omega

@[simp] theorem levelOf_priceAt (i : Fin priceLevels) : levelOf (priceAt i) = some i := by
  rw [levelOf, idx_priceAt, index_of_lt i.isLt]

/-- A price has a level exactly when it is the price of it. -/
theorem levelOf_eq_some {p : Price} {i : Fin priceLevels} : levelOf p = some i ↔ p = priceAt i := by
  constructor
  · intro h
    have hlt : i.val < 1000000 := i.isLt
    have hidx : (p - minPrice).toNat = i.val := by
      unfold levelOf index at h
      split_ifs at h with hp
      exact congrArg Fin.val (Option.some.inj h)
    have hp : p = p - minPrice + minPrice := by rw [UInt32.sub_add_cancel]
    apply UInt32.toNat_inj.mp
    rw [hp, UInt32.toNat_add, hidx, priceAt_toNat]
    exact Nat.mod_eq_of_lt (by show i.val + 1 < 2 ^ 32; omega)
  · rintro rfl
    exact levelOf_priceAt i

theorem priceAt_injective : Function.Injective priceAt := fun i j h => by
  have := congrArg UInt32.toNat h
  rw [priceAt_toNat, priceAt_toNat] at this
  exact Fin.ext (by omega)

/-- A price in the range has a level. -/
theorem exists_level {p : Price} (h₁ : minPrice ≤ p) (h₂ : p ≤ maxPrice) : ∃ i, p = priceAt i := by
  rw [UInt32.le_iff_toNat_le] at h₁ h₂
  rw [show minPrice.toNat = 1 from rfl] at h₁
  rw [show maxPrice.toNat = 1000000 from rfl] at h₂
  have hlt : p.toNat - 1 < priceLevels := by rw [priceLevels_eq]; omega
  refine ⟨⟨p.toNat - 1, hlt⟩, UInt32.toNat_inj.mp ?_⟩
  rw [priceAt_toNat]
  simp only
  omega

/-- Which prices of a side are better. -/
def BookSide.dir : BookSide → Best
  | .bids => .highest
  | .asks => .lowest

/-- The levels of a side, the best price first. -/
def BookSide.byPriority : BookSide → List (Fin priceLevels)
  | .bids => (List.finRange priceLevels).reverse
  | .asks => List.finRange priceLevels

theorem BookSide.mem_byPriority (s : BookSide) (i : Fin priceLevels) : i ∈ s.byPriority := by
  cases s <;> simp [byPriority]

theorem BookSide.byPriority_pairwise (s : BookSide) :
    s.byPriority.Pairwise fun i j => s.dir.Better i.val j.val := by
  cases s
  · rw [byPriority, List.pairwise_reverse]
    exact (List.sortedLT_finRange _).pairwise
  · exact (List.sortedLT_finRange _).pairwise

/-- The levels of a side before and after a given one are the better and the worse. -/
theorem BookSide.byPriority_split (s : BookSide) (i : Fin priceLevels) :
    ∃ better worse, s.byPriority = better ++ i :: worse ∧ (∀ j ∈ better, s.dir.Better j.val i.val) ∧
      ∀ j ∈ worse, s.dir.Better i.val j.val := by
  obtain ⟨better, worse, h⟩ := List.append_of_mem (s.mem_byPriority i)
  have hp := s.byPriority_pairwise
  rw [h, List.pairwise_append, List.pairwise_cons] at hp
  exact ⟨better, worse, h, fun j hj => hp.2.2 j hj i (by simp), hp.2.1.1⟩

/-! ### Queues -/

/-- The queue at each level. -/
abbrev Queues (cap : ℕ) := BookSide → Fin priceLevels → List (Fin cap)

/-- Replace one queue. -/
def Queues.set (Q : Queues cap) (s : BookSide) (i : Fin priceLevels) (q : List (Fin cap)) :
    Queues cap :=
  update Q s (update (Q s) i q)

@[simp] theorem Queues.set_self (Q : Queues cap) (s : BookSide) (i : Fin priceLevels)
    (q : List (Fin cap)) :
    Q.set s i q s i = q := by simp [set]

theorem Queues.set_of_ne (Q : Queues cap) {s s' : BookSide} {i i' : Fin priceLevels}
    (q : List (Fin cap)) (h : ¬ (s' = s ∧ i' = i)) :
    Q.set s i q s' i' = Q s' i' := by
  by_cases hs : s' = s
  · subst hs
    have hi : i' ≠ i := fun e => h ⟨rfl, e⟩
    simp [set, hi]
  · simp [set, hs]

theorem Queues.set_apply (Q : Queues cap) (s s' : BookSide) (i i' : Fin priceLevels)
    (q : List (Fin cap)) :
    Q.set s i q s' i' = if s' = s ∧ i' = i then q else Q s' i' := by
  by_cases h : s' = s ∧ i' = i
  · obtain ⟨rfl, rfl⟩ := h; simp
  · rw [set_of_ne _ _ h, if_neg h]

theorem Queues.mem_set {Q : Queues cap} {s s' : BookSide} {i i' : Fin priceLevels}
    {q : List (Fin cap)} {p : Fin cap} (h : p ∈ Q.set s i q s' i') :
    (s' = s ∧ i' = i ∧ p ∈ q) ∨ p ∈ Q s' i' := by
  rw [set_apply] at h
  split_ifs at h with he
  · exact Or.inl ⟨he.1, he.2, h⟩
  · exact Or.inr h

/-- Behind an order that joins a queue are the orders that were queued. -/
theorem Queues.mem_join {Q : Queues cap} {s s' : BookSide} {i i' : Fin priceLevels} {o p : Fin cap}
    (h : p ∈ Q.set s i (Q s i ++ [o]) s' i') : p ∈ Q s' i' ∨ p = o := by
  rcases mem_set h with ⟨rfl, rfl, h⟩ | h
  · exact (List.mem_append.mp h).imp_right List.mem_singleton.mp
  · exact Or.inl h

/-- The others stay queued where they were when an order joins a queue. -/
theorem Queues.mem_join_of_ne {Q : Queues cap} {s s' : BookSide} {i i' : Fin priceLevels}
    {o p : Fin cap} (hp : p ≠ o) :
    p ∈ Q.set s i (Q s i ++ [o]) s' i' ↔ p ∈ Q s' i' := by
  rw [set_apply]
  split_ifs with he
  · obtain ⟨rfl, rfl⟩ := he
    simp [hp]
  · rfl

/-- And when an order leaves a queue. -/
theorem Queues.mem_leave_of_ne {Q : Queues cap} {s s' : BookSide} {i i' : Fin priceLevels}
    {o p : Fin cap} {l₁ l₂ : List (Fin cap)} (hq : Q s i = l₁ ++ o :: l₂) (hp : p ≠ o) :
    p ∈ Q.set s i (l₁ ++ l₂) s' i' ↔ p ∈ Q s' i' := by
  rw [set_apply]
  split_ifs with he
  · obtain ⟨rfl, rfl⟩ := he
    rw [hq]
    simp [hp]
  · rfl

@[simp] theorem Queues.set_same (Q : Queues cap) (s : BookSide) (i : Fin priceLevels) :
    Q.set s i (Q s i) = Q := by simp [set]

@[simp] theorem Queues.set_set (Q : Queues cap) (s : BookSide) (i : Fin priceLevels)
    (q q' : List (Fin cap)) :
    (Q.set s i q).set s i q' = Q.set s i q' := by simp [set]

/-- Where an order of the arena can be. -/
inductive Place where
  /-- On the free list. -/
  | free
  /-- In hand: allocated, and not linked. -/
  | held
  /-- Linked at a level. -/
  | queued (s : BookSide) (i : Fin priceLevels)
  deriving DecidableEq

/-- What an order linked at a level is: a limit order of that side at that price. -/
structure OrderAt (o : Order cap) (s : BookSide) (i : Fin priceLevels) : Prop where
  /-- Its price is the level's. -/
  price : o.price = priceAt i
  /-- Its side is the level's. -/
  side : o.side.book = s
  /-- Only limit orders rest. -/
  type : o.type = .limit

/-- Every order of the arena is in one place. -/
structure Placed (b : OrderBook cap) (Q : Queues cap) (x : List (Fin cap))
    (place : Fin cap → Place) : Prop where
  /-- The free ones. -/
  free : ∀ p, p ∈ b.pool.freeList ↔ place p = .free
  /-- The ones in hand. -/
  held : ∀ p, p ∈ x ↔ place p = .held
  /-- The ones that rest. -/
  queued : ∀ p s i, p ∈ Q s i ↔ place p = .queued s i

/-- One order moves to another place. -/
theorem Placed.move {b b' : OrderBook cap} {Q Q' : Queues cap} {x x' : List (Fin cap)}
    {place : Fin cap → Place} {o : Fin cap} (h : Placed b Q x place) (pl : Place)
    (hfree : o ∈ b'.pool.freeList ↔ pl = .free) (hheld : o ∈ x' ↔ pl = .held)
    (hqueued : ∀ s i, o ∈ Q' s i ↔ pl = .queued s i)
    (hother : ∀ p, p ≠ o → (p ∈ b'.pool.freeList ↔ p ∈ b.pool.freeList) ∧ (p ∈ x' ↔ p ∈ x) ∧
      ∀ s i, p ∈ Q' s i ↔ p ∈ Q s i) :
    Placed b' Q' x' (update place o pl) where
  free p := by
    by_cases hp : p = o
    · rw [hp, Function.update_self, hfree]
    · rw [Function.update_of_ne hp, (hother p hp).1, h.free]
  held p := by
    by_cases hp : p = o
    · rw [hp, Function.update_self, hheld]
    · rw [Function.update_of_ne hp, (hother p hp).2.1, h.held]
  queued p s i := by
    by_cases hp : p = o
    · rw [hp, Function.update_self, hqueued]
    · rw [Function.update_of_ne hp, (hother p hp).2.2, h.queued]

/-- The levels, the pool and the table agree, the orders `x` being in hand. -/
structure Core (b : OrderBook cap) (Q : Queues cap) (x : List (Fin cap)) : Prop where
  /-- Each level is its queue. -/
  levels : ∀ s i, LevelOk b.pool.arena (b.levels s i) (Q s i)
  /-- Each order is in one place. -/
  placed : ∃ place, Placed b Q x place
  /-- No order is free twice. -/
  free_nodup : b.pool.freeList.Nodup
  /-- Each queued order belongs where it is. -/
  orders : ∀ s i, ∀ p ∈ Q s i, OrderAt (b.order p) s i
  /-- The table points to orders that are not free, in their own slots. -/
  table : ∀ k p, b.orderTable k = some p → slot (b.order p).id = k ∧ (p ∈ x ∨ ∃ s i, p ∈ Q s i)

/-- Every queued order has something left. -/
def Live (b : OrderBook cap) (Q : Queues cap) : Prop :=
  ∀ s i, ∀ p ∈ Q s i, (b.order p).filledQty < (b.order p).quantity

theorem remaining_pos {b : OrderBook cap} {Q : Queues cap} {s : BookSide} {i : Fin priceLevels}
    {p : Fin cap} (h : Live b Q) (hp : p ∈ Q s i) :
    0 < (b.order p).remaining.toNat := by
  have hlive := h s i p hp
  have hrem := Order.remaining_toNat (UInt32.le_of_lt hlive)
  rw [UInt32.lt_iff_toNat_lt] at hlive
  omega

/-- The best price of a side is that of its best occupied level. -/
def BestOk (s : BookSide) (Q : Queues cap) (best : Price) : Prop :=
  ((∀ i, Q s i = []) ∧ best = s.noPrice) ∨
    ∃ i, Q s i ≠ [] ∧ best = priceAt i ∧ ∀ j, s.dir.Better j.val i.val → Q s j = []

/-- The bitset and the best price of a side say which of its levels are occupied. -/
structure Indexed (b : OrderBook cap) (Q : Queues cap) (s : BookSide) : Prop where
  /-- The tiers of the bitset agree. -/
  tiers : (b.bits s).Tiers
  /-- A level's bit is set exactly when the level has orders. -/
  occupied : ∀ i : Fin priceLevels, i.val ∈ (b.bits s).occupied ↔ Q s i ≠ []
  /-- The best price. -/
  best : BestOk s Q (b.best s)

namespace Core

variable {b b' : OrderBook cap} {Q : Queues cap} {x : List (Fin cap)} {s s' : BookSide}
  {i i' : Fin priceLevels} {o p : Fin cap}

theorem ne_of_held (h : Core b Q x) (ho : o ∈ x) (hp : p ∈ Q s i) : p ≠ o := by
  obtain ⟨place, hpl⟩ := h.placed
  rintro rfl
  have h₁ := (hpl.held p).mp ho
  rw [(hpl.queued p s i).mp hp] at h₁
  cases h₁

/-- An order is queued at one level only. -/
theorem level_unique (h : Core b Q x) (hp : p ∈ Q s i) (hp' : p ∈ Q s' i') : s' = s ∧ i' = i := by
  obtain ⟨place, hpl⟩ := h.placed
  have h₁ := (hpl.queued p s i).mp hp
  rw [(hpl.queued p s' i').mp hp'] at h₁
  simpa using h₁

theorem not_mem_of_ne (h : Core b Q x) (hp : p ∈ Q s i) (hne : ¬ (s' = s ∧ i' = i)) : p ∉ Q s' i' :=
  fun hp' => hne (h.level_unique hp hp')

theorem not_free_of_queued (h : Core b Q x) (hp : p ∈ Q s i) : p ∉ b.pool.freeList := by
  obtain ⟨place, hpl⟩ := h.placed
  intro hf
  have h₁ := (hpl.free p).mp hf
  rw [(hpl.queued p s i).mp hp] at h₁
  cases h₁

theorem not_free_of_held (h : Core b Q x) (hp : p ∈ x) : p ∉ b.pool.freeList := by
  obtain ⟨place, hpl⟩ := h.placed
  intro hf
  have h₁ := (hpl.free p).mp hf
  rw [(hpl.held p).mp hp] at h₁
  cases h₁

/-- What a book needs to share with another to keep `Core`. -/
theorem congr (h : Core b Q x) (hl : b'.levels = b.levels) (hp : b'.pool = b.pool)
    (ht : b'.orderTable = b.orderTable) : Core b' Q x where
  levels := by rw [hl, hp]; exact h.levels
  placed := by
    obtain ⟨place, hpl⟩ := h.placed
    exact ⟨place, by rw [hp]; exact hpl.free, hpl.held, hpl.queued⟩
  free_nodup := by rw [hp]; exact h.free_nodup
  orders := by simp only [OrderBook.order, hp]; exact h.orders
  table := by simp only [OrderBook.order, hp, ht]; exact h.table

/-! ### What the primitives do to the orders -/

theorem order_tradeWith (b : OrderBook cap) (s : BookSide) (i : Fin priceLevels) {a r : Fin cap}
    (hne : a ≠ r) (side : Side) (p : Fin cap) :
    (b.tradeWith s i a r side).order p =
      if p = a ∨ p = r then (b.order p).fill (min (b.order a).remaining (b.order r).remaining)
      else b.order p := by
  simp only [OrderBook.tradeWith, OrderBook.order, OrderBook.setLevel, OrderBook.writeOrder,
    OrderBook.setArena, Arena.modify_apply]
  by_cases hr : p = r
  · subst hr; simp [hne.symm]
  · by_cases ha : p = a
    · subst ha; simp [hne]
    · simp [hr, ha]

theorem bare_removeLevel {l₁ l₂ : List (Fin cap)} (h : Core b Q x) (hq : Q s i = l₁ ++ o :: l₂)
    (p : Fin cap) :
    ((b.removeLevel s i o).order p).bare = (b.order p).bare := by
  have hl := h.levels s i
  rw [hq] at hl
  show ((PriceLevel.remove b.pool.arena (b.levels s i) o).1 p).bare = _
  rw [hl.remove_apply p]
  rfl

theorem order_removeLevel_of_not_mem {l₁ l₂ : List (Fin cap)} (h : Core b Q x)
    (hq : Q s i = l₁ ++ o :: l₂) (hp : p ∉ Q s i) :
    (b.removeLevel s i o).order p = b.order p := by
  have hl := h.levels s i
  rw [hq] at hl hp
  have ho : p ≠ o := fun e => hp (by simp [e])
  have h₁ : l₁.getLast? ≠ some p := fun e => hp (by simp [List.mem_of_getLast? e])
  have h₂ : l₂.head? ≠ some p := fun e => hp (by simp [List.mem_of_head? e])
  show (PriceLevel.remove b.pool.arena (b.levels s i) o).1 p = _
  rw [hl.remove_apply p]
  simp [ho, h₁, h₂, OrderBook.order]

theorem bare_pushLevel (h : Core b Q x) (ho : o ∉ Q s i) (p : Fin cap) :
    ((b.pushLevel s i o).order p).bare = (b.order p).bare := by
  show ((PriceLevel.push b.pool.arena (b.levels s i) o).1 p).bare = _
  rw [(h.levels s i).push_apply ho p]
  rfl

theorem order_pushLevel_of_not_mem (h : Core b Q x) (ho : o ∉ Q s i) (hpo : p ≠ o)
    (hp : p ∉ Q s i) :
    (b.pushLevel s i o).order p = b.order p := by
  have h₁ : (Q s i).getLast? ≠ some p := fun e => hp (List.mem_of_getLast? e)
  show (PriceLevel.push b.pool.arena (b.levels s i) o).1 p = _
  rw [(h.levels s i).push_apply ho p]
  simp [hpo, h₁, OrderBook.order]

/-- Freeing an order clears its links and its filled quantity. -/
theorem order_release (b : OrderBook cap) (o p : Fin cap) :
    ((b.unreg o).deallocate o).order p =
      if p = o then { b.order p with prev := none, next := none, filledQty := 0 }
        else b.order p := by
  show b.pool.arena.modify o (fun x => { x with prev := none, next := none, filledQty := 0 }) p = _
  rw [Arena.modify_apply]
  rfl

theorem order_held (b : OrderBook cap) (o : Fin cap) (rest : List (Fin cap)) (new : Order cap)
    (p : Fin cap) :
    (b.held o rest new).order p = if p = o then new else b.order p := by
  show b.pool.arena.modify o (fun _ => new) p = _
  rw [Arena.modify_apply]
  rfl

theorem orderTable_held (b : OrderBook cap) (o : Fin cap) (rest : List (Fin cap))
    (new : Order cap) :
    (b.held o rest new).orderTable = update b.orderTable (slot new.id) (some o) := by
  show update b.orderTable (slot (b.pool.arena.modify o (fun _ => new) o).id) (some o) = _
  rw [Arena.modify_self]

/-- `OrderAt` says nothing of links and fills. -/
theorem orderAt_congr {o o' : Order cap} (h : OrderAt o s i) (hp : o'.price = o.price)
    (hs : o'.side = o.side) (ht : o'.type = o.type) :
    OrderAt o' s i :=
  ⟨hp.trans h.price, by rw [hs]; exact h.side, ht.trans h.type⟩

theorem orderAt_of_bare {o o' : Order cap} (h : OrderAt o s i) (he : o'.bare = o.bare) :
    OrderAt o' s i := by
  have hp : o'.bare.price = o.bare.price := by rw [he]
  have hs : o'.bare.side = o.bare.side := by rw [he]
  have ht : o'.bare.type = o.bare.type := by rw [he]
  exact orderAt_congr h hp hs ht

theorem id_of_bare {o o' : Order cap} (he : o'.bare = o.bare) : o'.id = o.id := by
  have hid : o'.bare.id = o.bare.id := by rw [he]
  exact hid

/-! ### The primitives keep `Core` -/

/-- Trading with a queued order: both are filled, and the level's total goes down. -/
theorem tradeWith (h : Core b Q x) {a r : Fin cap} (ha : a ∈ x) (hr : r ∈ Q s i) (side : Side) :
    Core (b.tradeWith s i a r side) Q x := by
  have hra : r ≠ a := h.ne_of_held ha hr
  have hord := order_tradeWith b s i hra.symm side
  constructor
  · intro s' i'
    set k := min (b.order a).remaining (b.order r).remaining with hk
    show LevelOk ((b.pool.arena.modify a fun o => o.fill k).modify r fun o => o.fill k) _ _
    have hA : LevelOk (b.pool.arena.modify a fun o => o.fill k) (b.levels s' i') (Q s' i') :=
      (h.levels s' i').congr fun p hp => Arena.modify_of_ne _ (h.ne_of_held ha hp) _
    have hlev : (b.tradeWith s i a r side).levels s' i' =
        if s' = s ∧ i' = i then (b.levels s i).adjustQty (-k.toInt32) else b.levels s' i' :=
      OrderBook.setLevel_levels _ _ _ _ _ _
    rw [hlev]
    split_ifs with he
    · obtain ⟨rfl, rfl⟩ := he
      apply hA.adjust_ok hr
      rw [Arena.modify_of_ne _ hra, UInt32.le_iff_toNat_le, hk, toNat_min]
      exact Nat.min_le_right _ _
    · exact hA.congr fun p hp =>
        Arena.modify_of_ne _ (by rintro rfl; exact h.not_mem_of_ne hr he hp) _
  · obtain ⟨place, hpl⟩ := h.placed
    exact ⟨place, hpl.free, hpl.held, hpl.queued⟩
  · exact h.free_nodup
  · intro s' i' p hp
    have ho := h.orders s' i' p hp
    rw [hord]
    split_ifs
    · exact orderAt_congr ho rfl rfl rfl
    · exact ho
  · intro k p hk
    obtain ⟨hid, hin⟩ := h.table k p hk
    refine ⟨?_, hin⟩
    rw [hord]
    split_ifs
    · exact hid
    · exact hid

/-- An order that has left its queue stands in none. -/
theorem not_mem_left {l₁ l₂ : List (Fin cap)} (h : Core b Q x) (hq : Q s i = l₁ ++ o :: l₂)
    (s' : BookSide) (i' : Fin priceLevels) :
    o ∉ Q.set s i (l₁ ++ l₂) s' i' := by
  have hnd := (h.levels s i).nodup
  rw [hq, List.nodup_middle, List.nodup_cons] at hnd
  rw [Queues.set_apply]
  split_ifs with he
  · exact hnd.1
  · exact h.not_mem_of_ne (by simp [hq]) he

/-- Unlinking an order: it is in hand then. -/
theorem removeLevel {l₁ l₂ : List (Fin cap)} (h : Core b Q x) (hq : Q s i = l₁ ++ o :: l₂) :
    Core (b.removeLevel s i o) (Q.set s i (l₁ ++ l₂)) (o :: x) := by
  have ho : o ∈ Q s i := by simp [hq]
  have hbare := fun p => bare_removeLevel h hq p
  have hl := h.levels s i
  rw [hq] at hl
  constructor
  · intro s' i'
    rw [Queues.set_apply, OrderBook.removeLevel, OrderBook.setLevel_levels]
    split_ifs with he
    · exact hl.remove_ok
    · exact (h.levels s' i').congr fun p hp =>
        order_removeLevel_of_not_mem h hq (h.not_mem_of_ne hp fun e => he ⟨e.1.symm, e.2.symm⟩)
  · obtain ⟨place, hpl⟩ := h.placed
    refine ⟨_, hpl.move .held (iff_of_false (h.not_free_of_queued ho) (by simp)) (by simp)
      (fun s' i' => iff_of_false (h.not_mem_left hq s' i') (by simp)) fun p hp => ?_⟩
    exact ⟨Iff.rfl, by simp [hp], fun s' i' => Queues.mem_leave_of_ne hq hp⟩
  · exact h.free_nodup
  · intro s' i' p hp
    refine orderAt_of_bare (h.orders s' i' p ?_) (hbare p)
    rcases Queues.mem_set hp with ⟨rfl, rfl, hmem⟩ | hmem
    · rw [hq]
      exact List.mem_append.mpr ((List.mem_append.mp hmem).imp_right (List.mem_cons_of_mem o))
    · exact hmem
  · intro k p hk
    obtain ⟨hid, hin⟩ := h.table k p hk
    refine ⟨by rw [id_of_bare (hbare p)]; exact hid, ?_⟩
    by_cases hp : p = o
    · exact Or.inl (by simp [hp])
    · rcases hin with hin | ⟨s', i', hin⟩
      · exact Or.inl (by simp [hin])
      · exact Or.inr ⟨s', i', (Queues.mem_leave_of_ne hq hp).mpr hin⟩

/-- Unregistering and freeing an order in hand. -/
theorem release (h : Core b Q (o :: x)) (ho : o ∉ x) : Core ((b.unreg o).deallocate o) Q x := by
  have hord := order_release b o
  have hne : ∀ s i, ∀ p ∈ Q s i, p ≠ o := fun s i p hp => h.ne_of_held (by simp) hp
  constructor
  · intro s i
    apply (h.levels s i).congr
    intro p hp
    have := hord p
    rw [if_neg (hne s i p hp)] at this
    exact this
  · obtain ⟨place, hpl⟩ := h.placed
    refine ⟨_, hpl.move .free ?_ (by simpa using ho) (fun s i => ?_) fun p hp =>
      ⟨?_, by simp [hp], fun _ _ => Iff.rfl⟩⟩
    · show o ∈ o :: b.pool.freeList ↔ _
      simp
    · exact iff_of_false (fun hm => hne s i o hm rfl) (by simp)
    · show p ∈ o :: b.pool.freeList ↔ _
      simp [hp]
  · exact List.nodup_cons.mpr ⟨h.not_free_of_held (by simp), h.free_nodup⟩
  · intro s i p hp
    rw [hord, if_neg (hne s i p hp)]
    exact h.orders s i p hp
  · intro k p hk
    -- the order's own slot is cleared, so no entry points to it any more
    have hk' : k ≠ slot (b.order o).id ∧ b.orderTable k = some p := by
      have hk : update b.orderTable (slot (b.order o).id) none k = some p := hk
      by_cases he : k = slot (b.order o).id
      · subst he; simp at hk
      · exact ⟨he, by simpa [he] using hk⟩
    obtain ⟨hid, hin⟩ := h.table k p hk'.2
    have hp : p ≠ o := by rintro rfl; exact hk'.1 hid.symm
    rw [hord, if_neg hp]
    refine ⟨hid, ?_⟩
    simpa [hp] using hin

/-- Linking an order in hand at its level. -/
theorem pushLevel (h : Core b Q (o :: x)) (ho : o ∉ x) (hat : OrderAt (b.order o) s i)
    (hlen : (Q s i).length + 1 < 2 ^ 32) :
    Core (b.pushLevel s i o) (Q.set s i (Q s i ++ [o])) x := by
  have hno : ∀ s i, o ∉ Q s i := fun s i hm => h.ne_of_held (by simp) hm rfl
  have hbare := fun p => bare_pushLevel h (hno s i) p
  constructor
  · intro s' i'
    rw [Queues.set_apply, OrderBook.pushLevel, OrderBook.setLevel_levels]
    split_ifs with he
    · exact (h.levels s i).push_ok (hno s i) hlen
    · exact (h.levels s' i').congr fun p hp =>
        order_pushLevel_of_not_mem h (hno s i) (h.ne_of_held (by simp) hp)
          (h.not_mem_of_ne hp fun e => he ⟨e.1.symm, e.2.symm⟩)
  · obtain ⟨place, hpl⟩ := h.placed
    refine ⟨_, hpl.move (.queued s i) (iff_of_false (h.not_free_of_held (by simp)) (by simp))
      (by simpa using ho) (fun s' i' => ?_) fun p hp =>
      ⟨Iff.rfl, by simp [hp], fun s' i' => Queues.mem_join_of_ne hp⟩⟩
    rw [Queues.set_apply]
    split_ifs with he
    · obtain ⟨rfl, rfl⟩ := he; simp
    · simp only [hno s' i', Place.queued.injEq, false_iff]
      exact fun e => he ⟨e.1.symm, e.2.symm⟩
  · exact h.free_nodup
  · intro s' i' p hp
    rcases Queues.mem_set hp with ⟨rfl, rfl, hmem⟩ | hmem
    · rcases List.mem_append.mp hmem with hmem | hmem
      · exact orderAt_of_bare (h.orders _ _ p hmem) (hbare p)
      · rw [List.mem_singleton.mp hmem]
        exact orderAt_of_bare hat (hbare o)
    · exact orderAt_of_bare (h.orders s' i' p hmem) (hbare p)
  · intro k p hk
    obtain ⟨hid, hin⟩ := h.table k p hk
    refine ⟨by rw [id_of_bare (hbare p)]; exact hid, ?_⟩
    rcases hin with hin | ⟨s', i', hin⟩
    · rcases List.mem_cons.mp hin with rfl | hin
      · exact Or.inr ⟨s, i, by simp⟩
      · exact Or.inl hin
    · have hp : p ≠ o := fun e => hno s' i' (e ▸ hin)
      exact Or.inr ⟨s', i', (Queues.mem_join_of_ne hp).mpr hin⟩

/-- Taking an order from the pool, writing it and registering it. -/
theorem hold {rest : List (Fin cap)} (h : Core b Q x) (hf : b.pool.freeList = o :: rest)
    (new : Order cap) :
    Core (b.held o rest new) Q (o :: x) := by
  have hfo : o ∈ b.pool.freeList := by simp [hf]
  have hnd := h.free_nodup
  rw [hf, List.nodup_cons] at hnd
  have hne : ∀ s i, ∀ p ∈ Q s i, p ≠ o := by
    rintro s i p hp rfl
    exact h.not_free_of_queued hp hfo
  have hord := order_held b o rest new
  constructor
  · intro s i
    apply (h.levels s i).congr
    intro p hp
    have := hord p
    rw [if_neg (hne s i p hp)] at this
    exact this
  · obtain ⟨place, hpl⟩ := h.placed
    refine ⟨update place o .held, hpl.move .held ?_ (by simp) (fun s i => ?_) fun p hp =>
      ⟨?_, by simp [hp], fun _ _ => Iff.rfl⟩⟩
    · exact iff_of_false hnd.1 (by simp)
    · exact iff_of_false (fun hm => hne s i o hm rfl) (by simp)
    · rw [hf]
      show p ∈ rest ↔ _
      simp [hp]
  · exact hnd.2
  · intro s i p hp
    rw [hord, if_neg (hne s i p hp)]
    exact h.orders s i p hp
  · intro k p hk
    rw [orderTable_held] at hk
    rw [hord]
    by_cases he : k = slot new.id
    · rw [he, Function.update_self, Option.some.injEq] at hk
      subst hk
      rw [if_pos rfl, he]
      exact ⟨rfl, Or.inl (by simp)⟩
    · rw [Function.update_of_ne he] at hk
      obtain ⟨hid, hin⟩ := h.table k p hk
      have hp : p ≠ o := by
        rintro rfl
        rcases hin with hin | ⟨s, i, hin⟩
        · exact h.not_free_of_held hin hfo
        · exact hne s i p hin rfl
      rw [if_neg hp]
      exact ⟨hid, by simpa [hp] using hin⟩

end Core

/-! ### An order leaves -/

/-- A queued order leaves the book: it is unlinked, unregistered and freed. -/
def OrderBook.leave (b : OrderBook cap) (s : BookSide) (i : Fin priceLevels) (o : Fin cap) :
    OrderBook cap :=
  ((b.removeLevel s i o).unreg o).deallocate o

namespace Core

variable {b : OrderBook cap} {Q : Queues cap} {x l₁ l₂ : List (Fin cap)} {s s' : BookSide}
  {i i' : Fin priceLevels}
  {o p : Fin cap}

theorem leave (h : Core b Q x) (hq : Q s i = l₁ ++ o :: l₂) :
    Core (b.leave s i o) (Q.set s i (l₁ ++ l₂)) x := by
  apply (h.removeLevel hq).release
  intro ho
  exact h.ne_of_held ho (show o ∈ Q s i by simp [hq]) rfl

/-- The orders that are queued afterwards are the others that were before. -/
theorem mem_set_iff (h : Core b Q x) (hq : Q s i = l₁ ++ o :: l₂) :
    p ∈ Q.set s i (l₁ ++ l₂) s' i' ↔ p ∈ Q s' i' ∧ p ≠ o := by
  by_cases hp : p = o
  · subst hp
    exact iff_of_false (h.not_mem_left hq s' i') fun hm => hm.2 rfl
  · rw [Queues.mem_leave_of_ne hq hp, and_iff_left hp]

theorem bare_leave (h : Core b Q x) (hq : Q s i = l₁ ++ o :: l₂) (hp : p ≠ o) :
    ((b.leave s i o).order p).bare = (b.order p).bare := by
  rw [OrderBook.leave, order_release, if_neg hp, bare_removeLevel h hq]

theorem order_leave_of_not_mem (h : Core b Q x) (hq : Q s i = l₁ ++ o :: l₂) (hp : p ∉ Q s i) :
    (b.leave s i o).order p = b.order p := by
  have hpo : p ≠ o := by rintro rfl; exact hp (by simp [hq])
  rw [OrderBook.leave, order_release, if_neg hpo, order_removeLevel_of_not_mem h hq hp]

theorem id_leave (h : Core b Q x) (hq : Q s i = l₁ ++ o :: l₂) (p : Fin cap) :
    ((b.leave s i o).order p).id = (b.order p).id := by
  have hid := id_of_bare (bare_removeLevel h hq p)
  rw [OrderBook.leave, order_release]
  split_ifs
  · exact hid
  · exact hid

end Core

/-- Every order that is queued or in hand is the one its id's slot points to. -/
def Registered (b : OrderBook cap) (Q : Queues cap) (x : List (Fin cap)) : Prop :=
  ∀ p, (p ∈ x ∨ ∃ s i, p ∈ Q s i) → b.orderTable (slot (b.order p).id) = some p

namespace Registered

variable {b b' : OrderBook cap} {Q Q' : Queues cap} {x x' : List (Fin cap)} {o : Fin cap}

/-- Only the ids and the table matter. -/
theorem congr (h : Registered b Q x) (ht : b'.orderTable = b.orderTable)
    (hid : ∀ p, (b'.order p).id = (b.order p).id)
    (hsub : ∀ p, (p ∈ x' ∨ ∃ s i, p ∈ Q' s i) → (p ∈ x ∨ ∃ s i, p ∈ Q s i)) :
    Registered b' Q' x' := by
  intro p hp
  rw [hid, ht]
  exact h p (hsub p hp)

/-- Each order has a slot of its own. -/
theorem slot_ne {p : Fin cap} (h : Registered b Q x) (hp : p ∈ x ∨ ∃ s i, p ∈ Q s i)
    (ho : o ∈ x ∨ ∃ s i, o ∈ Q s i) (hne : p ≠ o) : slot (b.order p).id ≠ slot (b.order o).id := by
  intro he
  have h₁ := h p hp
  rw [he, h o ho] at h₁
  exact hne (Option.some.inj h₁).symm

/-- Unregistering an order hides no other. -/
theorem unreg (h : Registered b Q x) (ho : o ∈ x ∨ ∃ s i, o ∈ Q s i)
    (ht : b'.orderTable = update b.orderTable (slot (b.order o).id) none)
    (hid : ∀ p, (b'.order p).id = (b.order p).id)
    (hsub : ∀ p, (p ∈ x' ∨ ∃ s i, p ∈ Q' s i) → p ≠ o ∧ (p ∈ x ∨ ∃ s i, p ∈ Q s i)) :
    Registered b' Q' x' := by
  intro p hp
  obtain ⟨hne, hin⟩ := hsub p hp
  rw [hid, ht, Function.update_of_ne (h.slot_ne hin ho hne)]
  exact h p hin

/-- An order that leaves hides no other. -/
theorem leave {l₁ l₂ : List (Fin cap)} {s : BookSide} {i : Fin priceLevels} (h : Registered b Q x)
    (hc : Core b Q x) (hq : Q s i = l₁ ++ o :: l₂) :
    Registered (b.leave s i o) (Q.set s i (l₁ ++ l₂)) x := by
  have ho : o ∈ Q s i := by simp [hq]
  have ht : (b.leave s i o).orderTable = update b.orderTable (slot (b.order o).id) none := by
    show update b.orderTable (slot ((b.removeLevel s i o).order o).id) none = _
    rw [Core.id_of_bare (Core.bare_removeLevel hc hq o)]
  refine h.unreg (Or.inr ⟨s, i, ho⟩) ht (hc.id_leave hq) ?_
  rintro p (hp | ⟨s', i', hp⟩)
  · exact ⟨fun e => hc.ne_of_held hp ho e.symm, Or.inl hp⟩
  · obtain ⟨hp, hne⟩ := (hc.mem_set_iff hq).mp hp
    exact ⟨hne, Or.inr ⟨s', i', hp⟩⟩

end Registered

end TradeFeed
