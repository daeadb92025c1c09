import TradeFeed.Core.Matching

/-!
# The operations of the order book

`Inv b Q` is what holds of a book between operations, its levels being the queues `Q`:
everything agrees (`Core`, `Live`, `Indexed`) and the book is not crossed. Each
operation returns, and keeps it.

* `addOrder_refused` and `addOrder_accepted` — an accepted order sweeps the opposite side,
  and what is left of a limit order joins the end of the queue at its price (`Accepted`).
* `cancelOrder_unknown` and `cancelOrder_found` — the order that the table gives for the
  id leaves its queue, and nothing else changes (`Left`).

Nothing is assumed about ids: two orders may have the same id, or share a slot of the
table, which then hides one of them. Under `Registered` no order is hidden, and
`Accepted` and `Left` say when that stays so.
-/

namespace TradeFeed

open Function (update)
open Lib Lib.PriceTime Tradable
open OrderBook (badPrice incoming)

variable {cap : ℕ}

/-- The order book between operations. -/
structure Inv (b : OrderBook cap) (Q : Queues cap) : Prop where
  /-- The levels, the pool and the table agree. -/
  core : Core b Q []
  /-- No filled order rests. -/
  live : Live b Q
  /-- The bitsets and the best prices say which levels are occupied. -/
  indexed : ∀ s, Indexed b Q s
  /-- The best bid is below the best ask. -/
  uncrossed : b.best .bids < b.best .asks

/-- There is room in the 32-bit count of each level for one order more. -/
def Room (Q : Queues cap) : Prop := ∀ s i, (Q s i).length + 1 < 2 ^ 32

theorem room_of_cap {b : OrderBook cap} {Q : Queues cap} {x : List (Fin cap)} (h : Core b Q x)
    (hf : b.pool.freeList ≠ []) (hcap : cap < 2 ^ 32) : Room Q := by
  intro s i
  obtain ⟨o, rest, he⟩ := List.exists_cons_of_ne_nil hf
  have ho : o ∉ Q s i := fun hm => h.not_free_of_queued hm (by simp [he])
  have hnd : (o :: Q s i).Nodup := List.nodup_cons.mpr ⟨ho, (h.levels s i).nodup⟩
  have hle := hnd.length_le_card
  rw [Fintype.card_fin, List.length_cons] at hle
  omega

/-- Registered orders are told apart by their slots. -/
theorem room_of_registered {b : OrderBook cap} {Q : Queues cap} {x : List (Fin cap)}
    (h : Core b Q x) (hr : Registered b Q x) :
    Room Q := by
  intro s i
  have hnd : ((Q s i).map fun p => slot (b.order p).id).Nodup := by
    apply (List.nodup_map_iff_inj_on (h.levels s i).nodup).mpr
    intro p hp p' hp' he
    have h₁ := hr p (Or.inr ⟨s, i, hp⟩)
    have h₂ := hr p' (Or.inr ⟨s, i, hp'⟩)
    rw [he, h₂] at h₁
    exact (Option.some.inj h₁).symm
  have hle := hnd.length_le_card
  rw [Fintype.card_fin, List.length_map, maxOrders_eq] at hle
  omega

/-! ### Best prices -/

section BestPrices

variable {Q Q' : Queues cap} {s : BookSide} {i : Fin priceLevels} {p p' : Price} {o : Fin cap}

theorem noPrice_toNat (s : BookSide) :
    s.noPrice.toNat = match s with | .bids => 0 | .asks => 1000001 := by
  cases s <;> rfl

/-- No level's price is worse than the price of an empty side. -/
theorem better_noPrice (s : BookSide) (i : Fin priceLevels) :
    s.dir.Better (priceAt i).toNat s.noPrice.toNat := by
  have : i.val < 1000000 := i.isLt
  rw [noPrice_toNat, priceAt_toNat]
  cases s <;> simp only [BookSide.dir, Best.Better] <;> omega

theorem better_priceAt (s : BookSide) (i j : Fin priceLevels) :
    s.dir.Better (priceAt i).toNat (priceAt j).toNat ↔ s.dir.Better i.val j.val := by
  rw [priceAt_toNat, priceAt_toNat]
  cases s <;> simp only [BookSide.dir, Best.Better] <;> omega

/-- When orders only leave, the best price does not get better. -/
theorem BestOk.not_better (h : BestOk s Q p) (h' : BestOk s Q' p')
    (hsub : ∀ i, ∀ o ∈ Q' s i, o ∈ Q s i) :
    ¬ s.dir.Better p'.toNat p.toNat := by
  rcases h' with ⟨-, rfl⟩ | ⟨j, hj, rfl, -⟩
  · rcases h with ⟨-, rfl⟩ | ⟨i, -, rfl, -⟩
    · exact s.dir.better_irrefl _
    · exact (better_noPrice s i).asymm
  · obtain ⟨o, ho⟩ := List.exists_mem_of_ne_nil _ hj
    have hne : Q s j ≠ [] := List.ne_nil_of_mem (hsub j o ho)
    rcases h with ⟨hempty, -⟩ | ⟨i, -, rfl, hbest⟩
    · exact absurd (hempty j) hne
    · rw [better_priceAt]
      exact fun hb => hne (hbest j hb)

/-- The best price after an order has joined level `i`. -/
theorem BestOk.push (h : BestOk s Q p) :
    BestOk s (Q.set s i (Q s i ++ [o])) (if OrderBook.improves s (priceAt i) p then priceAt i
      else p) := by
  have himp : OrderBook.improves s (priceAt i) p = true ↔
      s.dir.Better (priceAt i).toNat p.toNat := by
    cases s <;> simp [OrderBook.improves, BookSide.dir, Best.Better, UInt32.lt_iff_toNat_lt]
  have hne : ∀ j, Q.set s i (Q s i ++ [o]) s j = [] ↔ j ≠ i ∧ Q s j = [] := by
    intro j
    rw [Queues.set_apply]
    by_cases hj : j = i <;> simp [hj]
  by_cases hb : s.dir.Better (priceAt i).toNat p.toNat
  · rw [if_pos (himp.mpr hb)]
    refine Or.inr ⟨i, by simp, rfl, fun j hj => (hne j).mpr ⟨?_, ?_⟩⟩
    · rintro rfl
      exact s.dir.better_irrefl _ hj
    · rcases h with ⟨hempty, -⟩ | ⟨k, -, rfl, hbest⟩
      · exact hempty j
      · apply hbest j
        rw [better_priceAt] at hb
        revert hj hb
        cases s <;> simp only [BookSide.dir, Best.Better] <;> omega
  · rw [if_neg fun e => hb (himp.mp e)]
    rcases h with ⟨-, rfl⟩ | ⟨k, hk, rfl, hbest⟩
    · exact absurd (better_noPrice s i) hb
    · refine Or.inr ⟨k, fun e => hk ((hne k).mp e).2, rfl, fun j hj => (hne j).mpr ⟨?_, hbest j hj⟩⟩
      rintro rfl
      rw [better_priceAt] at hb
      exact hb hj

/-- The orders of a side by priority: no order has a better price than one before it. -/
theorem resting_sorted {b : OrderBook cap} {x : List (Fin cap)} (h : Core b Q x) (s : BookSide) :
    (Q.resting s).Pairwise fun o o' =>
      ¬ s.dir.Better (b.order o').price.toNat (b.order o).price.toNat := by
  -- within a level the prices are equal, between levels they get worse
  rw [Queues.resting, List.pairwise_flatMap]
  refine ⟨fun i _ => List.pairwise_of_forall_mem_list fun o ho o' ho' => ?_,
    s.byPriority_pairwise.imp fun {i j} hij o ho o' ho' => ?_⟩
  · rw [(h.orders s i o ho).price, (h.orders s i o' ho').price]
    exact s.dir.better_irrefl _
  · rw [(h.orders s i o ho).price, (h.orders s j o' ho').price, better_priceAt]
    exact hij.asymm

end BestPrices

/-! ### Adding an order -/

/-- The prices at which `match_limit` and `match_market` go on: those of the opposite side
that the order accepts. -/
def accepts (side : Side) (type : OrderType) (price best : Price) : Bool :=
  if side = .buy then (type = .market || decide (best ≤ price)) && decide (best ≤ maxPrice)
  else (type = .market || decide (best ≥ price)) && decide (best ≠ invalidPrice)

/-- A limit price is in the range, or is refused. -/
theorem badPrice_limit (price : Price) :
    badPrice .limit price = false ↔ minPrice ≤ price ∧ price ≤ maxPrice := by
  simp [badPrice]

/-- A limit order that is not refused has a level. -/
theorem exists_level_of_limit {type : OrderType} {price : Price}
    (hbad : badPrice type price = false) (hlimit : type = .limit) :
    ∃ i, price = priceAt i := by
  rw [hlimit, badPrice_limit] at hbad
  exact exists_level hbad.1 hbad.2

/-- Every side byte but Buy's stands for Sell. -/
theorem mkFill_side (side : Side) (a r : Order cap) (q : Quantity) :
    OrderBook.mkFill (if side = .buy then .buy else .sell) a r q = OrderBook.mkFill side a r q := by
  by_cases h : side = .buy
  · simp [h]
  · have : Side.sell ≠ .buy := by decide
    simp [OrderBook.mkFill, h, this]

/-- The four loops are one. -/
theorem match_eq (b : OrderBook cap) {o : Fin cap} {side : Side} {price : Price}
    (hs : (b.order o).side = side) (hp : (b.order o).price = price) (type : OrderType) :
    (if type = .market then b.matchMarket o else b.matchLimit o) =
      b.matchWhile side.book.opposite (if side = .buy then .buy else .sell)
        (accepts side type price) o (cap + 1) := by
  subst hs hp
  have hacc : accepts (b.order o).side type (b.order o).price =
    fun best => accepts (b.order o).side type
      (b.order o).price best := rfl
  rw [hacc]
  by_cases hm : type = .market <;> by_cases hb : (b.order o).side = .buy <;>
    simp [OrderBook.matchMarket, OrderBook.matchLimit, Side.book, BookSide.opposite,
      accepts, hm, hb]

theorem accepts_noPrice (side : Side) (type : OrderType) (price : Price) :
    accepts side type price side.book.opposite.noPrice = false := by
  by_cases hb : side = .buy
  · simp [accepts, hb, Side.book, BookSide.opposite, BookSide.noPrice, maxPrice]
  · simp [accepts, hb, Side.book, BookSide.opposite, BookSide.noPrice]

section Add

variable {b : OrderBook cap} {Q : Queues cap} {s : BookSide} {i : Fin priceLevels} {o : Fin cap}

/-- What is left of a limit order joins the end of the queue at its price. -/
theorem rest_spec (h : Core b Q [o]) (hi : Indexed b Q s) (i : Fin priceLevels) :
    ∃ bits, b.rest s (priceAt i) o = some { b.pushLevel s i o with
        bits := update b.bits s bits
        best := update b.best s (if OrderBook.improves s (priceAt i) (b.best s) then priceAt i
          else b.best s) } ∧
      bits.Tiers ∧ ∀ j : Fin priceLevels, j.val ∈ bits.occupied ↔
        Q.set s i (Q s i ++ [o]) s j ≠ [] := by
  have hocc : ∀ bits : PriceBitset, bits.occupied = insert i.val (b.bits s).occupied →
      ∀ j : Fin priceLevels, j.val ∈ bits.occupied ↔ Q.set s i (Q s i ++ [o]) s j ≠ [] := by
    intro bits he j
    rw [he, Set.mem_insert_iff, hi.occupied, Fin.val_inj, Queues.set_apply]
    by_cases hj : j = i <;> simp [hj]
  by_cases he : (b.levels s i).empty = true
  · refine ⟨(b.bits s).set i, ?_, PriceBitset.set_tiers hi.tiers i,
      hocc _ (PriceBitset.set_occupied _ _)⟩
    by_cases himp : OrderBook.improves s (priceAt i) (b.best s) = true <;>
      simp [OrderBook.rest, he, himp, OrderBook.setBit, OrderBook.pushLevel, OrderBook.setLevel,
        OrderBook.setArena, OrderBook.setBest]
  · have hne : Q s i ≠ [] := fun e => he ((h.levels s i).empty_iff.mpr e)
    refine ⟨b.bits s, ?_, hi.tiers, hocc _ ?_⟩
    · by_cases himp : OrderBook.improves s (priceAt i) (b.best s) = true <;>
        simp [OrderBook.rest, he, himp, OrderBook.pushLevel, OrderBook.setLevel, OrderBook.setArena,
          OrderBook.setBest]
    · rw [Set.insert_eq_of_mem ((hi.occupied i).mpr hne)]

/-- The matching that an incoming order does: a sweep of the opposite side, at the prices
it accepts. -/
def trading (b : OrderBook cap) (Q : Queues cap) (new : Order cap) : Matched (Entry cap) :=
  sweep (fun p => accepts new.side new.type new.price (UInt32.ofNat p)) new.quantity.toNat
    (b.entries (Q.resting new.side.book.opposite))

/-- It trades at most once with each order of the arena. -/
theorem trading_length_le {b : OrderBook cap} {Q : Queues cap} {x : List (Fin cap)} (h : Core b Q x)
    (new : Order cap) :
    (trading b Q new).trades.length ≤ cap := by
  apply (trades_length_le _ _ _).trans
  rw [OrderBook.entries_length]
  exact Queues.resting_length_le h _

/-- What is left of an incoming order joins a queue. -/
def Rests (b : OrderBook cap) (Q : Queues cap) (new : Order cap) : Prop :=
  (trading b Q new).left ≠ 0 ∧ new.type = .limit

instance (b : OrderBook cap) (Q : Queues cap) (new : Order cap) : Decidable (Rests b Q new) :=
  inferInstanceAs (Decidable (_ ∧ _))

/-- The incoming order when matching is done. -/
def remainder (b : OrderBook cap) (Q : Queues cap) (new : Order cap) : Order cap :=
  { new with filledQty := new.quantity - UInt32.ofNat (trading b Q new).left }

/-- It is what the matching left. -/
theorem remainder_remaining (b : OrderBook cap) (Q : Queues cap) (new : Order cap) :
    (remainder b Q new).remaining.toNat = (trading b Q new).left := by
  have hle : (trading b Q new).left ≤ new.quantity.toNat := sweep_left_le _ _ _
  have hlt := new.quantity.toNat_lt
  have hn : (UInt32.ofNat (trading b Q new).left).toNat = (trading b Q new).left := by
    rw [UInt32.toNat_ofNat']; omega
  have hle' : UInt32.ofNat (trading b Q new).left ≤ new.quantity :=
    UInt32.le_iff_toNat_le.mpr (by rw [hn]; exact hle)
  show (new.quantity - (new.quantity - UInt32.ofNat (trading b Q new).left)).toNat =
    (trading b Q new).left
  rw [UInt32.toNat_sub_of_le, UInt32.toNat_sub_of_le _ _ hle', hn]
  · omega
  · rw [UInt32.le_iff_toNat_le, UInt32.toNat_sub_of_le _ _ hle']
    omega

/-- What an accepted order does to the book. -/
structure Accepted (b b' : OrderBook cap) (Q Q' : Queues cap) (o : Fin cap) (new : Order cap) :
    Prop where
  /-- The book is in order. -/
  inv : Inv b' Q'
  /-- The opposite side is swept. -/
  swept : b'.entries (Q'.resting new.side.book.opposite) = (trading b Q new).rest
  /-- On its own side the order joins the end of the queue at its price, if it rests. -/
  joined : ∀ i, b'.entries (Q' new.side.book i) = b.entries (Q new.side.book i) ++
    if Rests b Q new ∧ new.price = priceAt i then [(o, remainder b Q new)] else []
  /-- The fills. -/
  fills : b'.fills = b.fills ++ (trading b Q new).trades.map (fillOf new.side new)
  /-- The number of matches. -/
  matchCount : b'.matchCount = b.matchCount + UInt64.ofNat (trading b Q new).trades.length
  /-- The order was not resting before. -/
  fresh : ∀ s i, o ∉ Q s i
  /-- The new order hides another only by sharing its slot. -/
  registered : Registered b Q [] → (∀ s i, ∀ p ∈ Q s i, slot (b.order p).id ≠ slot new.id) →
    Registered b' Q' []

section Held

variable {rest : List (Fin cap)} {new : Order cap}

theorem registered_held (hr : Registered b Q [])
    (hslot : ∀ s i, ∀ p ∈ Q s i, slot (b.order p).id ≠ slot new.id) :
    Registered (b.held o rest new) Q [o] := by
  intro p hp
  rw [Core.order_held, Core.orderTable_held]
  by_cases hpo : p = o
  · subst hpo; simp
  · obtain ⟨s, i, hp⟩ : ∃ s i, p ∈ Q s i := by simpa [hpo] using hp
    rw [if_neg hpo, Function.update_of_ne (hslot s i p hp)]
    exact hr p (Or.inr ⟨s, i, hp⟩)

/-- A free order does not rest. -/
theorem Inv.ne_of_free (h : Inv b Q) (hf : b.pool.freeList = o :: rest) {s : BookSide}
    {i : Fin priceLevels} {p : Fin cap} (hp : p ∈ Q s i) :
    p ≠ o := by
  rintro rfl
  exact h.core.not_free_of_queued hp (by simp [hf])

/-- Taking an order from the pool leaves those that rest alone. -/
theorem Inv.order_held (h : Inv b Q) (hf : b.pool.freeList = o :: rest) (new : Order cap)
    {s : BookSide} {i : Fin priceLevels} {p : Fin cap} (hp : p ∈ Q s i) :
    (b.held o rest new).order p = b.order p := by
  rw [Core.order_held, if_neg (h.ne_of_free hf hp)]

theorem Inv.entries_held (h : Inv b Q) (hf : b.pool.freeList = o :: rest) (new : Order cap)
    (s : BookSide) :
    (b.held o rest new).entries (Q.resting s) = b.entries (Q.resting s) := by
  apply OrderBook.entries_congr
  intro p hp
  obtain ⟨i, hp⟩ := Queues.mem_resting.mp hp
  rw [h.order_held hf new hp]

/-- A book in order, with an order just taken from the pool, is ready for matching it. -/
theorem Inv.held (h : Inv b Q) (hf : b.pool.freeList = o :: rest) (hnew : new.filledQty = 0) :
    Core (b.held o rest new) Q [o] ∧ Live (b.held o rest new) Q ∧
      ((b.held o rest new).order o).filledQty ≤ ((b.held o rest new).order o).quantity := by
  refine ⟨h.core.hold hf new, fun s i p hp => ?_, ?_⟩
  · rw [h.order_held hf new hp]
    exact h.live s i p hp
  · rw [Core.order_held, if_pos rfl, hnew, UInt32.le_iff_toNat_le]
    exact Nat.zero_le _

end Held

/-- The sides stay apart when an order arrives: its own best price is the old one or,
when it rests, a price that the opposite side did not accept. -/
theorem uncrossed {b b' : OrderBook cap} (side : Side) {p : Price} (h : b.best .bids < b.best .asks)
    (hopp : ¬ side.book.opposite.dir.Better (b'.best side.book.opposite).toNat
      (b.best side.book.opposite).toNat) (hown : b'.best side.book = b.best side.book ∨
      (b'.best side.book = p ∧ minPrice ≤ p ∧ p ≤ maxPrice ∧
      accepts side .limit p (b'.best side.book.opposite) = false)) :
    b'.best .bids < b'.best .asks := by
  rw [UInt32.lt_iff_toNat_lt] at *
  by_cases hb : side = .buy
  · simp only [Side.book, hb, if_true, BookSide.opposite, BookSide.dir, Best.Better] at hopp hown
    rcases hown with he | ⟨he, -, hp, hacc⟩
    · rw [he]; omega
    · rw [he]
      by_contra hlt
      have h₁ : b'.best .asks ≤ p := UInt32.le_iff_toNat_le.mpr (by omega)
      have h₂ : b'.best .asks ≤ maxPrice := UInt32.le_trans h₁ hp
      simp [accepts, h₁, h₂] at hacc
  · simp only [Side.book, hb, if_false, BookSide.opposite, BookSide.dir, Best.Better] at hopp hown
    rcases hown with he | ⟨he, hp, -, hacc⟩
    · rw [he]; omega
    · rw [he]
      by_contra hlt
      have h₁ : p ≤ b'.best .bids := UInt32.le_iff_toNat_le.mpr (by omega)
      have h₂ : b'.best .bids ≠ invalidPrice := by
        rintro e
        rw [e] at h₁
        have := UInt32.le_trans hp h₁
        exact absurd this (by decide)
      simp [accepts, hb, h₁, h₂] at hacc

/-- The book when matching is done, the incoming order still in hand. -/
structure Met (b b₁ : OrderBook cap) (Q Q₁ : Queues cap) (o : Fin cap) (new : Order cap) :
    Prop where
  /-- The levels, the pool and the table agree. -/
  core : Core b₁ Q₁ [o]
  /-- No filled order rests. -/
  live : Live b₁ Q₁
  /-- The bitsets and the best prices say which levels are occupied. -/
  indexed : ∀ s, Indexed b₁ Q₁ s
  /-- The order in hand. -/
  order : b₁.order o = remainder b Q new
  /-- It is not filled beyond its quantity. -/
  filled : (b₁.order o).filledQty ≤ (b₁.order o).quantity
  /-- What it has left. -/
  left : (b₁.order o).remaining.toNat = (trading b Q new).left
  /-- Why matching stopped. -/
  stops : (trading b Q new).left = 0 ∨
    accepts new.side new.type new.price (b₁.best new.side.book.opposite) = false
  /-- The opposite side is swept. -/
  swept : b₁.entries (Q₁.resting new.side.book.opposite) = (trading b Q new).rest
  /-- Its best price is not better than it was. -/
  worse : ¬ new.side.book.opposite.dir.Better (b₁.best new.side.book.opposite).toNat
    (b.best new.side.book.opposite).toNat
  /-- The order's own side is as it was. -/
  own : Q₁ new.side.book = Q new.side.book ∧
    (∀ i, b₁.entries (Q new.side.book i) = b.entries (Q new.side.book i)) ∧
    b₁.best new.side.book = b.best new.side.book
  /-- The fills. -/
  fills : b₁.fills = b.fills ++ (trading b Q new).trades.map (fillOf new.side new)
  /-- The number of matches. -/
  matchCount : b₁.matchCount = b.matchCount + UInt64.ofNat (trading b Q new).trades.length
  /-- The order was free. -/
  fresh : ∀ s i, o ∉ Q s i
  /-- The table. -/
  registered : Registered b Q [] → (∀ s i, ∀ p ∈ Q s i, slot (b.order p).id ≠ slot new.id) →
    Registered b₁ Q₁ [o]

theorem opposite_ne (s : BookSide) : s ≠ s.opposite := by cases s <;> decide

theorem eq_or_eq_opposite (s s' : BookSide) :
    s' = s ∨ s' = s.opposite := by cases s <;> cases s' <;> decide

/-- What is filled is what is not left. -/
theorem filledQty_of_left {q filled : Quantity} (hle : filled ≤ q) :
    filled = q - UInt32.ofNat (q - filled).toNat := by
  have hle' := UInt32.le_iff_toNat_le.mp hle
  have hleft : q - filled ≤ q := by
    rw [UInt32.le_iff_toNat_le, UInt32.toNat_sub_of_le _ _ hle]
    omega
  rw [UInt32.ofNat_toNat, ← UInt32.toNat_inj, UInt32.toNat_sub_of_le _ _ hleft,
    UInt32.toNat_sub_of_le _ _ hle]
  omega

/-- The fills of either loop name the sides alike. -/
theorem fillOf_side (side : Side) (new : Order cap) :
    fillOf (if side = .buy then .buy else .sell) new =
      (fillOf side new : Entry cap × ℕ → Fill) := by
  funext t
  exact mkFill_side _ _ _ _

/-- Matching an order taken from the pool. -/
theorem met_spec {rest : List (Fin cap)} (new : Order cap) (h : Inv b Q)
    (hf : b.pool.freeList = o :: rest) (hnew : new.filledQty = 0) :
    ∃ b₁ Q₁, (if new.type = .market then (b.held o rest new).matchMarket o
      else (b.held o rest new).matchLimit o) =
      some b₁ ∧ Met b b₁ Q Q₁ o new := by
  have ho : (b.held o rest new).order o = new := by rw [Core.order_held, if_pos rfl]
  have hi : ∀ s, Indexed (b.held o rest new) Q s := fun s => (h.indexed s).congr rfl rfl rfl
  obtain ⟨hcore, hlive, hzero⟩ := h.held hf hnew
  have hlen : (Q.resting new.side.book.opposite).length < cap + 1 :=
    Nat.lt_succ_of_le (Queues.resting_length_le h.core _)
  obtain ⟨b₁, Q₁, hrun, hs⟩ :=
    matchWhile_spec (if new.side = .buy then .buy else .sell)
      (accepts_noPrice new.side new.type new.price) hcore hlive hzero (hi _) hlen
  have htr : sweep (fun p => accepts new.side new.type new.price (UInt32.ofNat p))
      ((b.held o rest new).order o).remaining.toNat
      ((b.held o rest new).entries (Q.resting new.side.book.opposite)) = trading b Q new := by
    rw [ho, Order.remaining, hnew, UInt32.sub_zero, h.entries_held hf new]
    rfl
  rw [htr] at hs
  have ht := hs.traded
  obtain ⟨hQ, hbits, hbest⟩ := hs.others new.side.book (opposite_ne _)
  have hagg := ht.aggressor
  rw [ho] at hagg
  refine ⟨b₁, Q₁, (match_eq _ (by rw [ho]) (by rw [ho]) _).trans hrun, ?_⟩
  exact {
    core := ht.core
    live := ht.live
    indexed := fun s => by
      rcases eq_or_eq_opposite new.side.book s with rfl | rfl
      · exact (hi _).congr hbits hbest hQ
      · exact hs.indexed
    order := by
      have hq : (b₁.order o).quantity = new.quantity := by rw [hagg]
      have hfq := filledQty_of_left ht.filled
      rw [← Order.remaining, hs.left, hq] at hfq
      rw [hagg, remainder, ← hfq]
    filled := ht.filled
    left := hs.left
    stops := hs.stops
    swept := hs.rest
    worse := (hi _).best.not_better hs.indexed.best fun i p hp => ht.queues _ i p hp
    own := ⟨hQ, fun i => OrderBook.entries_congr fun p hp => by
      have hnot : p ∉ Q.resting new.side.book.opposite := by
        intro hp'
        obtain ⟨j, hp'⟩ := Queues.mem_resting.mp hp'
        exact opposite_ne _ (h.core.level_unique hp hp').1.symm
      rw [ht.frame p (h.ne_of_free hf hp) hnot, h.order_held hf new hp], hbest⟩
    fills := by
      rw [ht.fills, ho, fillOf_side]
      rfl
    matchCount := ht.matchCount
    fresh := fun _ _ hp => h.ne_of_free hf hp rfl
    registered := fun hr hslot => ht.registered (registered_held hr hslot) }

namespace Met

variable {b₁ : OrderBook cap} {Q₁ : Queues cap} {new : Order cap}

theorem notMem (h : Met b b₁ Q Q₁ o new) (s : BookSide) (i : Fin priceLevels) : o ∉ Q₁ s i :=
  fun hm => h.core.ne_of_held (by simp) hm rfl

/-- Nothing is left, or what is left does not rest: the order is freed. -/
theorem done (h : Met b b₁ Q Q₁ o new) (hb : Inv b Q) (hr : ¬ Rests b Q new) :
    Accepted b ((b₁.unreg o).deallocate o) Q Q₁ o new := by
  have hord : ∀ {s i p}, p ∈ Q₁ s i → ((b₁.unreg o).deallocate o).order p = b₁.order p := by
    intro s i p hp
    rw [Core.order_release, if_neg]
    rintro rfl
    exact h.notMem s i hp
  have hent : ∀ s i, ((b₁.unreg o).deallocate o).entries (Q₁ s i) = b₁.entries (Q₁ s i) :=
      fun s i =>
    OrderBook.entries_congr fun p hp => by rw [hord hp]
  refine ⟨⟨h.core.release (by simp), ?_, fun s => ?_, ?_⟩, ?_,
    fun i => ?_, h.fills, h.matchCount, h.fresh, fun hreg hs => ?_⟩
  · intro s i p hp
    rw [hord hp]
    exact h.live s i p hp
  · exact (h.indexed s).congr rfl rfl rfl
  · exact uncrossed new.side (p := new.price) hb.uncrossed h.worse (Or.inl h.own.2.2)
  · rw [← h.swept]
    apply OrderBook.entries_congr
    intro p hp
    obtain ⟨i, hp⟩ := Queues.mem_resting.mp hp
    rw [hord hp]
  · rw [hent, h.own.1, h.own.2.1, if_neg fun e => hr e.1, List.append_nil]
  · refine (h.registered hreg hs).unreg (o := o) (Or.inl (by simp)) rfl (fun p => ?_) ?_
    · rw [Core.order_release]
      split_ifs <;> rfl
    · rintro p (hp | ⟨s, i, hp⟩)
      · simp at hp
      · exact ⟨fun e => h.notMem s i (e ▸ hp), Or.inr ⟨s, i, hp⟩⟩

/-- An order that rests is not filled. -/
theorem unfilled (h : Met b b₁ Q Q₁ o new) (hr : Rests b Q new) :
    (b₁.order o).filledQty < (b₁.order o).quantity := by
  have hnf : ¬ (b₁.order o).isFilled = true := by
    rw [Order.isFilled_iff h.filled, h.left]
    exact hr.1
  simpa [Order.isFilled] using hnf

/-- Its price does not cross the opposite side. -/
theorem improved (h : Met b b₁ Q Q₁ o new) (hr : Rests b Q new) {i : Fin priceLevels}
    (hp : new.price = priceAt i) {best : Price}
    (hbest : best = if OrderBook.improves new.side.book (priceAt i) (b₁.best new.side.book)
      then priceAt i else b₁.best new.side.book) :
    best = b.best new.side.book ∨ (best = new.price ∧ minPrice ≤ new.price ∧ new.price ≤ maxPrice ∧
      accepts new.side .limit new.price (b₁.best new.side.book.opposite) = false) := by
  have hacc := h.stops.resolve_left hr.1
  rw [hr.2] at hacc
  rw [hp] at hacc ⊢
  split_ifs at hbest
  · exact Or.inr ⟨hbest, minPrice_le_priceAt i, priceAt_le_maxPrice i, hacc⟩
  · exact Or.inl (hbest.trans h.own.2.2)

/-- The queue that it joins. -/
theorem entries_join (h : Met b b₁ Q Q₁ o new) (hr : Rests b Q new) (hbare : new.bare = new)
    {i : Fin priceLevels} (hp : new.price = priceAt i) (j : Fin priceLevels) :
    b₁.entries (Q₁.set new.side.book i (Q₁ new.side.book i ++ [o]) new.side.book j) =
      b.entries (Q new.side.book j) ++ if Rests b Q new ∧
        new.price = priceAt j then [(o, remainder b Q new)] else [] := by
  by_cases hj : j = i
  · subst hj
    have hb : (remainder b Q new).bare = remainder b Q new :=
      congrArg (fun w : Order cap =>
        { w with filledQty := new.quantity - UInt32.ofNat (trading b Q new).left }) hbare
    have ho : b₁.entry o = (o, remainder b Q new) := by rw [OrderBook.entry, h.order, hb]
    rw [Queues.set_self, if_pos ⟨hr, hp⟩, OrderBook.entries_append, h.own.1, h.own.2.1,
      OrderBook.entries_cons, ho]
    rfl
  · have hpj : ¬ (Rests b Q new ∧ new.price = priceAt j) := by
      rintro ⟨-, e⟩
      exact hj (priceAt_injective (e.symm.trans hp))
    rw [Queues.set_of_ne _ _ fun e => hj e.2, if_neg hpj, h.own.1, h.own.2.1, List.append_nil]

/-- What is left of a limit order joins the queue at its price. -/
theorem rests (h : Met b b₁ Q Q₁ o new) (hb : Inv b Q) (hr : Rests b Q new) (hbare : new.bare = new)
    {i : Fin priceLevels} (hp : new.price = priceAt i) (hroom : Room Q) :
    ∃ b', b₁.rest new.side.book new.price o = some b' ∧
      Accepted b b' Q (Q₁.set new.side.book i (Q₁ new.side.book i ++ [o])) o new := by
  have hown := opposite_ne new.side.book
  obtain ⟨bits, hrun, htiers, hocc⟩ := rest_spec h.core (h.indexed new.side.book) i
  have hbare' : ∀ p, ((b₁.pushLevel new.side.book i o).order p).bare = (b₁.order p).bare :=
    Core.bare_pushLevel h.core (h.notMem _ _)
  have hat : OrderAt (b₁.order o) new.side.book i := by
    rw [h.order]
    exact ⟨hp, rfl, hr.2⟩
  have hlen : (Q₁ new.side.book i).length + 1 < 2 ^ 32 := by
    rw [h.own.1]
    exact hroom _ _
  rw [hp]
  refine ⟨_, hrun, ⟨(h.core.pushLevel (by simp) hat hlen).congr rfl rfl rfl, ?_, fun s => ?_, ?_⟩,
    ?_, fun j => ?_, h.fills, h.matchCount, h.fresh, fun hreg hs => ?_⟩
  · -- the new order is not filled either
    intro s j p hmem
    apply live_of_bare _ (hbare' p)
    rcases Queues.mem_join hmem with hmem | rfl
    · exact h.live _ _ p hmem
    · exact h.unfilled hr
  · exact Indexed.replace rfl rfl (fun _ => h.indexed s)
      (fun hs => funext fun j => Queues.set_of_ne _ _ fun e => hs e.1)
      htiers hocc
      ((h.indexed new.side.book).best.push (i := i) (o := o))
  · apply uncrossed new.side (p := new.price) hb.uncrossed
    · simpa [hown.symm] using h.worse
    · simpa [hown.symm] using h.improved hr hp rfl
  · rw [← h.swept, Queues.resting_congr (Q := Q₁) (by simp [Queues.set, hown.symm])]
    exact OrderBook.entries_congr fun p _ => hbare' p
  · exact (OrderBook.entries_congr fun p _ => hbare' p).trans (h.entries_join hr hbare hp j)
  · refine (h.registered hreg hs).congr rfl (fun p => Core.id_of_bare (hbare' p)) ?_
    rintro p (hmem | ⟨s, j, hmem⟩)
    · simp at hmem
    · rcases Queues.mem_join hmem with hmem | rfl
      · exact Or.inr ⟨_, _, hmem⟩
      · exact Or.inl (by simp)

/-- The end of `add_order`: what is left of a limit order rests, and any other order is freed. -/
theorem settle_eq (h : Met b b₁ Q Q₁ o new) : b₁.settle new.side new.type new.price o =
    if Rests b Q new then (b₁.rest new.side.book new.price o).map fun b => (b, true)
    else some ((b₁.unreg o).deallocate o, true) := by
  have hfill : (b₁.order o).isFilled = true ↔ (trading b Q new).left = 0 := by
    rw [Order.isFilled_iff h.filled, h.left]
  have hcond : (!(b₁.order o).isFilled && decide (new.type = .limit)) = true ↔ Rests b Q new := by
    rw [Bool.and_eq_true, Bool.not_eq_true', ← Bool.not_eq_true, hfill, decide_eq_true_eq]
    rfl
  rw [OrderBook.settle]
  exact if_congr hcond rfl rfl

end Met

/-- **An accepted order** sweeps the opposite side, and what is left of a limit order
joins the queue at its price. -/
theorem addOrder_accepted (h : Inv b Q) (hroom : Room Q) (id : OrderId) (client : ClientId)
    (side : Side) (type : OrderType) (price : Price) (qty : Quantity) (ts : Timestamp)
    (hav : b.pool.available ≠ 0) (hbad : badPrice type price = false) :
    ∃ b' Q' o, b.addOrder id client side type price qty ts = some (b', true) ∧
      Accepted b b' Q Q' o (incoming id client side type price qty ts) := by
  obtain ⟨o, rest, hf⟩ := List.exists_cons_of_ne_nil (fun e => hav (List.length_eq_zero_iff.mpr e))
  set new : Order cap := incoming id client side type price qty ts with hnew
  obtain ⟨b₁, Q₁, hrun, hmet⟩ := met_spec new h hf rfl
  have hstep : b.addOrder id client side type price qty ts = b₁.settle side type price o := by
    have hrun : (if type = .market then (b.held o rest new).matchMarket o
      else (b.held o rest new).matchLimit o) =
      some b₁ := hrun
    rw [OrderBook.addOrder_eq hf id client side qty ts hbad, ← hnew, hrun]
    rfl
  have hsettle : b₁.settle side type price o = _ := hmet.settle_eq
  by_cases hr : Rests b Q new
  · obtain ⟨i, hi⟩ := exists_level_of_limit hbad hr.2
    obtain ⟨b', hrest, hacc⟩ := hmet.rests h hr rfl hi hroom
    refine ⟨b', _, o, ?_, hacc⟩
    rw [hstep, hsettle, if_pos hr, hrest]
    rfl
  · exact ⟨_, Q₁, o, by rw [hstep, hsettle, if_neg hr], hmet.done h hr⟩

end Add

/-! ### Cancelling an order -/

/-- The queues when an order has left. -/
def Queues.without (Q : Queues cap) (o : Fin cap) : Queues cap := fun s i => (Q s i).filter (· ≠ o)

theorem Queues.mem_without {Q : Queues cap} {o p : Fin cap} {s : BookSide} {i : Fin priceLevels} :
    p ∈ Q.without o s i ↔ p ∈ Q s i ∧ p ≠ o := by
  simp [without]

theorem Queues.without_of_not_mem {Q : Queues cap} {o : Fin cap} {s : BookSide}
    {i : Fin priceLevels} (h : o ∉ Q s i) :
    Q.without o s i = Q s i := by
  apply List.filter_eq_self.mpr
  intro p hp
  rw [decide_eq_true_eq]
  rintro rfl
  exact h hp

/-- What a cancelled order leaves behind. -/
structure Left (b b' : OrderBook cap) (Q : Queues cap) (o : Fin cap) : Prop where
  /-- The book is in order, and the others keep their places. -/
  inv : Inv b' (Q.without o)
  /-- The others are as they were. -/
  others : ∀ p, p ≠ o → (b'.order p).bare = (b.order p).bare
  /-- Its memory is free. -/
  freed : b'.pool.freeList = o :: b.pool.freeList
  /-- There are no fills. -/
  fills : b'.fills = b.fills
  /-- There are no matches. -/
  matchCount : b'.matchCount = b.matchCount
  /-- No other order is hidden. -/
  registered : Registered b Q [] → Registered b' (Q.without o) []

section Cancel

/-- The order leaves the queue that it stands in. -/
theorem Queues.set_without {b : OrderBook cap} {Q : Queues cap} {x : List (Fin cap)} {s : BookSide}
    {i : Fin priceLevels} {o : Fin cap} {l₁ l₂ : List (Fin cap)} (h : Core b Q x)
    (hq : Q s i = l₁ ++ o :: l₂) :
    Q.set s i (l₁ ++ l₂) = Q.without o := by
  have ho : o ∈ Q s i := by simp [hq]
  have hnd := (h.levels s i).nodup
  rw [hq, List.nodup_middle, List.nodup_cons, List.mem_append, not_or] at hnd
  funext s' i'
  rw [Queues.set_apply]
  split_ifs with he
  · obtain ⟨rfl, rfl⟩ := he
    have hf : ∀ l : List (Fin cap), o ∉ l → l.filter (· ≠ o) = l := fun l hl =>
      List.filter_eq_self.mpr fun p hp => by simpa using fun e : p = o => hl (e ▸ hp)
    rw [Queues.without, hq, List.filter_append, List.filter_cons_of_neg (by simp), hf _ hnd.1.1,
      hf _ hnd.1.2]
  · exact (Queues.without_of_not_mem (h.not_mem_of_ne ho he)).symm

variable {b : OrderBook cap} {Q : Queues cap} {s : BookSide} {i : Fin priceLevels} {o : Fin cap}
  {id : OrderId}

theorem lookup_eq_some :
    b.lookup id = some o ↔ b.orderTable (slot id) = some o ∧ (b.order o).id = id := by
  unfold OrderBook.lookup
  cases h : b.orderTable (slot id) with
  | none => simp
  | some p =>
    by_cases hid : (b.order p).id = id
    · simp only [hid, if_true, Option.some.injEq]
      exact ⟨by rintro rfl; exact ⟨rfl, hid⟩, And.left⟩
    · simp only [hid, if_false, reduceCtorEq, Option.some.injEq, false_iff]
      rintro ⟨rfl, h⟩
      exact hid h

/-- What the table gives for an id rests, and has that id. -/
theorem mem_of_lookup (h : Core b Q []) (hl : b.lookup id = some o) :
    (∃ s i, o ∈ Q s i) ∧ (b.order o).id = id := by
  obtain ⟨ht, hid⟩ := lookup_eq_some.mp hl
  exact ⟨by simpa using (h.table _ _ ht).2, hid⟩

/-- A registered order is found under its id. -/
theorem Registered.lookup (h : Registered b Q []) {p : Fin cap} (hp : p ∈ Q s i) :
    b.lookup (b.order p).id = some p :=
  lookup_eq_some.mpr ⟨h p (Or.inr ⟨s, i, hp⟩), rfl⟩

/-- When an order that was found has left, its slot is free. -/
theorem Left.slot_free {b' : OrderBook cap} (ha : Left b b' Q o) (hr : Registered b Q [])
    (h : Core b Q []) (hl : b.lookup id = some o) :
    ∀ s i, ∀ p ∈ Q.without o s i, slot (b'.order p).id ≠ slot id := by
  intro s i p hp
  obtain ⟨hmem, hne⟩ := Queues.mem_without.mp hp
  obtain ⟨ho, hid⟩ := mem_of_lookup h hl
  rw [Core.id_of_bare (ha.others p hne), ← hid]
  exact hr.slot_ne (Or.inr ⟨s, i, hmem⟩) (Or.inr ho) hne

/-- The bitset and the best price after an order has left level `i`. -/
theorem unindex_spec {b₁ : OrderBook cap} {q : List (Fin cap)} (hi : Indexed b₁ Q s)
    (hne : Q s i ≠ []) (hlevel : (b₁.levels s i).empty = true ↔ q = []) :
    ∃ bits best scanCalls,
      (if (b₁.levels s i).empty then
        if priceAt i = (b₁.clearBit s i).best s then (b₁.clearBit s i).scanBest s
          else some (b₁.clearBit s i)
      else some b₁) = some { b₁ with
        bits := update b₁.bits s bits, best := update b₁.best s best, scanCalls := scanCalls } ∧
      bits.Tiers ∧ (∀ j : Fin priceLevels, j.val ∈ bits.occupied ↔ Q.set s i q s j ≠ []) ∧
      BestOk s (Q.set s i q) best := by
  by_cases hq : q = []
  · rw [if_pos (hlevel.mpr hq), hq]
    by_cases hp : priceAt i = b₁.best s
    · -- the best level is empty now
      obtain ⟨p, hscan, hp'⟩ := clearBit_scanBest hi.tiers hi.occupied i
      refine ⟨_, p, _, (if_pos hp).trans hscan, PriceBitset.clear_tiers hi.tiers i,
        clear_occupied_iff hi.occupied, hp'⟩
    · refine ⟨(b₁.bits s).clear i, b₁.best s, b₁.scanCalls, ?_, PriceBitset.clear_tiers hi.tiers i,
        clear_occupied_iff hi.occupied, ?_⟩
      · rw [if_neg (show ¬ priceAt i = (b₁.clearBit s i).best s from hp), Function.update_eq_self]
        rfl
      · rcases hi.best with ⟨hempty, -⟩ | ⟨k, hk, hbest, hbetter⟩
        · exact absurd (hempty i) hne
        · have hki : k ≠ i := by
            rintro rfl
            exact hp hbest.symm
          refine Or.inr ⟨k, by simpa [Queues.set, hki] using hk, hbest, fun j hj => ?_⟩
          rw [Queues.set_apply]
          split_ifs
          · rfl
          · exact hbetter j hj
  · rw [if_neg fun e => hq (hlevel.mp e)]
    have hs := hi.shrink b₁ rfl rfl hne hq
    exact ⟨b₁.bits s, b₁.best s,
      b₁.scanCalls, by rw [Function.update_eq_self, Function.update_eq_self], hi.tiers,
      hs.occupied, hs.best⟩

theorem cancelOrder_unknown (b : OrderBook cap) (h : b.lookup id = none) :
    b.cancelOrder id = some (b, false) := by
  simp [OrderBook.cancelOrder, h]

/-- What `cancel_order` does with the order it finds: the order leaves its queue, its bit and
the best price follow, and it is unregistered and freed. -/
theorem cancelOrder_eq {l₁ l₂ : List (Fin cap)} (h : Inv b Q) (hl : b.lookup id = some o)
    (hq : Q s i = l₁ ++ o :: l₂) :
    ∃ bits best scanCalls, b.cancelOrder id = some ((({ b.removeLevel s i o with
        bits := update b.bits s bits, best := update b.best s best,
        scanCalls := scanCalls } : OrderBook cap).unreg
          o).deallocate o, true) ∧
      bits.Tiers ∧ (∀ j : Fin priceLevels, j.val ∈ bits.occupied ↔ Q.without o s j ≠ []) ∧
      BestOk s (Q.without o) best := by
  have ho : o ∈ Q s i := by simp [hq]
  have hat := h.core.orders s i o ho
  have hset := Queues.set_without h.core hq
  set b₁ := b.removeLevel s i o
  have hc₁ : Core b₁ (Q.without o) [o] := hset ▸ h.core.removeLevel hq
  have hi₁ : Indexed b₁ Q s := (h.indexed s).congr rfl rfl rfl
  have hlevel : (b₁.levels s i).empty = true ↔ l₁ ++ l₂ = [] := by
    rw [(hc₁.levels s i).empty_iff, ← hset, Queues.set_self]
  obtain ⟨bits, best, scanCalls, hrun, htiers, hocc, hbest⟩ :=
    unindex_spec hi₁ (List.ne_nil_of_mem ho) hlevel
  rw [hset] at hocc hbest
  refine ⟨bits, best, scanCalls, ?_, htiers, hocc, hbest⟩
  have hp : (b.order o).price = priceAt i := hat.price
  have hs : (b.order o).side.book = s := hat.side
  simp only [OrderBook.cancelOrder, hl, hp, hs, levelOf_priceAt]
  show (if (b₁.levels s i).empty = true then _ else _) =
    some ((({ b₁ with bits := update b₁.bits s bits, best := update b₁.best s best, scanCalls :=
    scanCalls } : OrderBook cap).unreg o).deallocate o, true)
  split_ifs at hrun ⊢
  · show ((b₁.clearBit s i).scanBest s).bind _ = _
    rw [hrun]
    rfl
  · rw [← Option.some.inj hrun]
    rfl
  · rw [← Option.some.inj hrun]
    rfl

/-- **A cancelled order** leaves its queue, and nothing else changes. -/
theorem cancelOrder_found (h : Inv b Q) (hl : b.lookup id = some o) :
    ∃ b', b.cancelOrder id = some (b', true) ∧ Left b b' Q o := by
  obtain ⟨⟨s, i, ho⟩, -⟩ := mem_of_lookup h.core hl
  obtain ⟨l₁, l₂, hq⟩ := List.append_of_mem ho
  have hset := Queues.set_without h.core hq
  obtain ⟨bits, best, scanCalls, hstep, htiers, hocc, hbest⟩ := cancelOrder_eq h hl hq
  have hc₁ : Core (b.removeLevel s i o) (Q.without o) [o] := hset ▸ h.core.removeLevel hq
  set b₂ : OrderBook cap := { b.removeLevel s i o with
    bits := update b.bits s bits, best := update b.best s best, scanCalls := scanCalls }
  set b' := (b₂.unreg o).deallocate o
  have hbits' : b'.bits = update b.bits s bits := rfl
  have hbest' : b'.best = update b.best s best := rfl
  have hbare : ∀ p, p ≠ o → (b'.order p).bare = (b.order p).bare :=
    fun p hp => Core.bare_leave h.core hq hp
  have hother : ∀ s', s' ≠ s → Q.without o s' = Q s' := fun s' hs => funext fun i' =>
    Queues.without_of_not_mem fun hm => hs (h.core.level_unique ho hm).1
  have hi' : ∀ s', Indexed b' (Q.without o) s' := fun s' =>
    Indexed.replace hbits' hbest' (fun _ => h.indexed s') (hother s') htiers hocc hbest
  have hc₂ : Core b₂ (Q.without o) [o] := hc₁.congr rfl rfl rfl
  refine ⟨b', hstep, ⟨hc₂.release (by simp), ?_, hi', ?_⟩, hbare, rfl, rfl, rfl,
    fun hr => ?_⟩
  · intro s' i' p hp
    obtain ⟨hp, hpo⟩ := Queues.mem_without.mp hp
    exact live_of_bare (h.live s' i' p hp) (hbare p hpo)
  · -- neither side's best price gets better
    have hworse : ∀ s : BookSide, ¬ s.dir.Better (b'.best s).toNat (b.best s).toNat := fun s =>
      (h.indexed s).best.not_better (hi' s).best fun i' p hp => (Queues.mem_without.mp hp).1
    have hb := hworse .bids
    have ha := hworse .asks
    have hlt := h.uncrossed
    simp only [BookSide.dir, Best.Better] at hb ha
    rw [UInt32.lt_iff_toNat_lt] at *
    omega
  · have := hr.leave h.core hq
    rw [hset] at this
    exact this.congr rfl (fun p => rfl) fun p hp => hp

/-- Its entry of the table is cleared. -/
theorem cancelOrder_table {b' : OrderBook cap} {r : Bool} (h : Inv b Q) (hl : b.lookup id = some o)
    (hrun : b.cancelOrder id = some (b', r)) :
    b'.orderTable = update b.orderTable (slot id) none := by
  obtain ⟨⟨s, i, ho⟩, hid⟩ := mem_of_lookup h.core hl
  obtain ⟨l₁, l₂, hq⟩ := List.append_of_mem ho
  obtain ⟨bits, best, scanCalls, hstep, -⟩ := cancelOrder_eq h hl hq
  rw [hrun, Option.some.injEq, Prod.mk.injEq] at hstep
  rw [hstep.1]
  show update b.orderTable (slot ((b.removeLevel s i o).order o).id) none = _
  rw [Core.id_of_bare (Core.bare_removeLevel h.core hq o), hid]

/-! ### Modifying an order -/

theorem modifyOrder_unknown (b : OrderBook cap) (price : Price) (qty : Quantity) (ts : Timestamp)
    (h : b.lookup id = none) : b.modifyOrder id price qty ts = some (b, false) := by
  simp [OrderBook.modifyOrder, h]

/-- **A modified order** is cancelled and added anew, as a limit order of the same side and
client under the same id. -/
theorem modifyOrder_found (h : Inv b Q) (hl : b.lookup id = some o) (price : Price) (qty : Quantity)
    (ts : Timestamp) :
    ∃ b₁, Left b b₁ Q o ∧ b₁.pool.available ≠ 0 ∧ b.modifyOrder id price qty ts =
      b₁.addOrder id (b.order o).clientId (b.order o).side .limit price qty ts := by
  obtain ⟨b₁, hrun, hleft⟩ := cancelOrder_found h hl
  refine ⟨b₁, hleft, ?_, by simp [OrderBook.modifyOrder, hl, hrun]⟩
  rw [OrderPool.available, hleft.freed]
  simp

end Cancel

/-! ### The book that operations start from, and what it shows -/

theorem new_indexed (cap : ℕ) (s : BookSide) : Indexed (OrderBook.new cap) (fun _ _ => []) s where
  tiers := PriceBitset.new_tiers
  occupied i := by
    rw [show (OrderBook.new cap).bits s = PriceBitset.new from rfl, PriceBitset.new_occupied]
    simp
  best := Or.inl ⟨fun _ => rfl, rfl⟩

/-- A fresh book is in order. -/
theorem new_inv (cap : ℕ) : Inv (OrderBook.new cap) (fun _ _ => []) where
  core := by
    have hfree : (OrderBook.new cap).pool.freeList = List.finRange cap := OrderPool.freeFrom_cap cap
    refine ⟨fun _ _ => LevelOk.new _,
      ⟨fun _ => .free, fun p => ?_, fun p => by simp, fun p s i => by simp⟩, ?_, ?_, ?_⟩
    · rw [hfree]; simp
    · rw [hfree]; exact List.nodup_finRange cap
    · simp
    · intro k p hk
      simp [OrderBook.new] at hk
  live := by simp [Live]
  indexed := new_indexed cap
  uncrossed := by show (0 : UInt32) < maxPrice + 1; decide

/-- Every order of the arena is free, in hand, or rests on one of the sides. -/
theorem arena_eq {b : OrderBook cap} {Q : Queues cap} (h : Core b Q []) :
    (b.pool.freeList ++ (Q.resting .bids ++ Q.resting .asks)).Perm (List.finRange cap) := by
  obtain ⟨place, hpl⟩ := h.placed
  refine (List.perm_ext_iff_of_nodup ?_ (List.nodup_finRange cap)).mpr fun p => ?_
  · refine List.nodup_append.mpr ⟨h.free_nodup, List.nodup_append.mpr
      ⟨Queues.resting_nodup h _, Queues.resting_nodup h _, ?_⟩, ?_⟩
    · rintro p hp q hq rfl
      obtain ⟨i, hp⟩ := Queues.mem_resting.mp hp
      obtain ⟨j, hq⟩ := Queues.mem_resting.mp hq
      have := (h.level_unique hp hq).1
      cases this
    · rintro p hp q hq rfl
      rw [List.mem_append, Queues.mem_resting, Queues.mem_resting] at hq
      rcases hq with ⟨i, hq⟩ | ⟨i, hq⟩
      · exact h.not_free_of_queued hq hp
      · exact h.not_free_of_queued hq hp
  · simp only [List.mem_append, Queues.mem_resting, List.mem_finRange, iff_true]
    cases hp : place p with
    | free => exact Or.inl ((hpl.free p).mpr hp)
    | held => exact absurd ((hpl.held p).mpr hp) List.not_mem_nil
    | queued s i =>
      have hm := (hpl.queued p s i).mpr hp
      cases s
      · exact Or.inr (Or.inl ⟨i, hm⟩)
      · exact Or.inr (Or.inr ⟨i, hm⟩)

/-- `active_orders()` is the number of orders that rest. -/
theorem activeOrders_eq {b : OrderBook cap} {Q : Queues cap} (h : Core b Q []) :
    b.activeOrders = (Q.resting .bids).length + (Q.resting .asks).length := by
  have hlen := (arena_eq h).length_eq
  rw [List.length_append, List.length_append, List.length_finRange] at hlen
  rw [OrderBook.activeOrders, OrderPool.capacity, OrderPool.available]
  omega

/-- The orders at a level, found by following its links from the head. -/
def OrderBook.queue (b : OrderBook cap) : Queues cap := fun s i =>
  walk (fun p => (b.order p).next) cap (b.levels s i).head

theorem Core.queue_eq {b : OrderBook cap} {Q : Queues cap} {x : List (Fin cap)} (h : Core b Q x) :
    b.queue = Q := by
  funext s i
  have hl := h.levels s i
  have hlen := hl.nodup.length_le_card
  rw [Fintype.card_fin] at hlen
  exact hl.linked.walk_eq hlen

theorem Inv.queue_eq {b : OrderBook cap} {Q : Queues cap} (h : Inv b Q) : b.queue = Q :=
  h.core.queue_eq

end TradeFeed
