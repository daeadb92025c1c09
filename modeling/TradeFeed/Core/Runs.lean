import Mathlib.Order.Bounds.Defs
import TradeFeed.Core.Operations

/-!
# Runs of the order book

A run is any sequence of calls with any arguments, on a fresh book. Every call returns
(`call_inv`), so every run does (`run_inv`), and the book it ends in satisfies `Inv`. From
it come the two accounts of a reachable book, for pools of fewer than 2³² orders:

* `book_structure` — the pool, the links, the totals, the bitsets and the table.
* `book_bbo` — the best prices, and the spread.
-/

namespace TradeFeed

open Lib Lib.PriceTime

variable {cap : ℕ}

/-- A call on the book. -/
inductive Call where
  /-- `add_order`. -/
  | addOrder (id : OrderId) (client : ClientId) (side : Side) (type : OrderType) (price : Price)
    (qty : Quantity)
      (ts : Timestamp)
  /-- `cancel_order`. -/
  | cancelOrder (id : OrderId)
  /-- `modify_order`. -/
  | modifyOrder (id : OrderId) (newPrice : Price) (newQty : Quantity) (ts : Timestamp)
  /-- `clear_fills`. -/
  | clearFills

namespace OrderBook

/-- Make a call: the book after it, and what it returns, if it returns something. -/
def call (b : OrderBook cap) : Call → Option (OrderBook cap × Option Bool)
  | .addOrder id client side type price qty ts =>
    (b.addOrder id client side type price qty ts).map fun (b, r) => (b, some r)
  | .cancelOrder id => (b.cancelOrder id).map fun (b, r) => (b, some r)
  | .modifyOrder id newPrice newQty ts =>
    (b.modifyOrder id newPrice newQty ts).map fun (b, r) => (b, some r)
  | .clearFills => some (b.clearFills, none)

/-- Make calls in order. -/
def run (b : OrderBook cap) : List Call → Option (OrderBook cap × List (Option Bool))
  | [] => some (b, [])
  | c :: cs => do
    let (b, r) ← b.call c
    let (b, rs) ← b.run cs
    return (b, r :: rs)

end OrderBook

theorem clearFills_inv {b : OrderBook cap} {Q : Queues cap} (h : Inv b Q) : Inv b.clearFills Q where
  core := h.core.congr rfl rfl rfl
  live := h.live
  indexed s := (h.indexed s).congr rfl rfl rfl
  uncrossed := h.uncrossed

theorem addOrder_inv {b : OrderBook cap} {Q : Queues cap} (h : Inv b Q) (hcap : cap < 2 ^ 32)
    (id : OrderId) (client : ClientId) (side : Side) (type : OrderType) (price : Price)
    (qty : Quantity) (ts : Timestamp) :
    ∃ b' r Q', b.addOrder id client side type price qty ts = some (b', r) ∧ Inv b' Q' := by
  by_cases hr : b.pool.available = 0 ∨ OrderBook.badPrice type price = true
  · exact ⟨b, false, Q, OrderBook.addOrder_refused b id client side type price qty ts hr, h⟩
  · rw [not_or, Bool.not_eq_true] at hr
    have hroom : Room Q := room_of_cap h.core (fun e => hr.1 (List.length_eq_zero_iff.mpr e)) hcap
    obtain ⟨b', Q', o, hrun, hacc⟩ :=
      addOrder_accepted h hroom id client side type price qty ts hr.1 hr.2
    exact ⟨b', true, Q', hrun, hacc.inv⟩

/-- **A step**: every call returns and keeps the invariant. -/
theorem call_inv {b : OrderBook cap} {Q : Queues cap} (h : Inv b Q) (hcap : cap < 2 ^ 32)
    (c : Call) :
    ∃ b' r Q', b.call c = some (b', r) ∧ Inv b' Q' := by
  cases c with
  | addOrder id client side type price qty ts =>
    obtain ⟨b', r, Q', hrun, h'⟩ := addOrder_inv h hcap id client side type price qty ts
    exact ⟨b', some r, Q', by simp [OrderBook.call, hrun], h'⟩
  | cancelOrder id =>
    cases hl : b.lookup id with
    | none => exact ⟨b, some false, Q, by simp [OrderBook.call, cancelOrder_unknown b hl], h⟩
    | some o =>
      obtain ⟨b', hrun, hleft⟩ := cancelOrder_found h hl
      exact ⟨b', some true, _, by simp [OrderBook.call, hrun], hleft.inv⟩
  | modifyOrder id price qty ts =>
    cases hl : b.lookup id with
    | none => exact ⟨b, some false,
      Q, by simp [OrderBook.call, modifyOrder_unknown b price qty ts hl], h⟩
    | some o =>
      obtain ⟨b₁, hleft, -, hadd⟩ := modifyOrder_found h hl price qty ts
      obtain ⟨b', r, Q', hrun, h'⟩ :=
        addOrder_inv hleft.inv hcap id (b.order o).clientId (b.order o).side .limit price qty ts
      exact ⟨b', some r, Q', by simp [OrderBook.call, hadd, hrun], h'⟩
  | clearFills => exact ⟨_, none, Q, rfl, clearFills_inv h⟩

/-- **A run**: it returns and keeps the invariant. -/
theorem run_inv {b : OrderBook cap} {Q : Queues cap} (h : Inv b Q) (hcap : cap < 2 ^ 32)
    (cs : List Call) :
    ∃ b' rs Q', b.run cs = some (b', rs) ∧ Inv b' Q' := by
  induction cs generalizing b Q with
  | nil => exact ⟨b, [], Q, rfl, h⟩
  | cons c cs ih =>
    obtain ⟨b₁, r, Q₁, hcall, h₁⟩ := call_inv h hcap c
    obtain ⟨b', rs, Q', hrun, h'⟩ := ih h₁
    exact ⟨b', r :: rs, Q', by simp [OrderBook.run, hcall, hrun], h'⟩

/-! ### The structure of a reachable book -/

/-- How the parts of a book agree, in terms of what it stores. -/
structure WellFormed (b : OrderBook cap) : Prop where
  /-- No order is free twice. -/
  free_nodup : b.pool.freeList.Nodup
  /-- An order is free exactly when it is not linked at a level. -/
  free_iff : ∀ p, p ∈ b.pool.freeList ↔ ∀ s i, p ∉ b.queue s i
  /-- It is linked at one level at most. -/
  one_level : ∀ p s i s' i', p ∈ b.queue s i → p ∈ b.queue s' i' → s = s' ∧ i = i'
  /-- `active_orders()` counts the orders that rest. -/
  active : b.activeOrders = (b.queue.resting .bids).length + (b.queue.resting .asks).length
  /-- The links of a level are a doubly linked list. -/
  linked : ∀ s i, Linked (fun p => (b.order p).next) (fun p => (b.order p).prev) (b.levels s i).head
    (b.levels s i).tail (b.queue s i)
  /-- It has no cycle. -/
  nodup : ∀ s i, (b.queue s i).Nodup
  /-- `count_` is its length. -/
  count : ∀ s i, (b.levels s i).count.toNat = (b.queue s i).length
  /-- Its orders have the level's price. -/
  price : ∀ s i, ∀ p ∈ b.queue s i, (b.order p).price = priceAt i
  /-- They are buyers exactly at the bid levels. -/
  side : ∀ s i, ∀ p ∈ b.queue s i, (b.order p).side = .buy ↔ s = .bids
  /-- None of them is filled. -/
  unfilled : ∀ s i, ∀ p ∈ b.queue s i, (b.order p).filledQty < (b.order p).quantity
  /-- `total_qty_` is what remains of them, modulo 2³². -/
  total : ∀ s i, (b.levels s i).totalQty.toNat =
    ((b.queue s i).map fun p => (b.order p).remaining.toNat).sum % 2 ^ 32
  /-- A level's bit is set exactly when it has orders. -/
  bit : ∀ s (i : Fin priceLevels), (b.bits s).test i = true ↔ b.queue s i ≠ []
  /-- The table points to orders that rest, in the slots of their ids. -/
  table : ∀ k p, b.orderTable k = some p → (∃ s i, p ∈ b.queue s i) ∧ slot (b.order p).id = k

theorem Inv.wellFormed {b : OrderBook cap} {Q : Queues cap} (h : Inv b Q) : WellFormed b := by
  have hc := h.core
  obtain ⟨place, hpl⟩ := hc.placed
  obtain rfl := h.queue_eq
  refine ⟨hc.free_nodup, fun p => ⟨fun hp s i hm => hc.not_free_of_queued hm hp, fun hp => ?_⟩, ?_,
    activeOrders_eq hc,
    fun s i => (hc.levels s i).linked,
    fun s i => (hc.levels s i).nodup,
    fun s i => (hc.levels s i).count,
    fun s i p hp => (hc.orders s i p hp).price,
    fun s i p hp => ?_, h.live, fun s i => (hc.levels s i).total, fun s i => ?_, fun k p hk => ?_⟩
  · rw [hpl.free]
    cases hplace : place p with
    | free => rfl
    | held => exact absurd ((hpl.held p).mpr hplace) List.not_mem_nil
    | queued s i => exact absurd ((hpl.queued p s i).mpr hplace) (hp s i)
  · intro p s i s' i' hp hp'
    obtain ⟨rfl, rfl⟩ := hc.level_unique hp hp'
    exact ⟨rfl, rfl⟩
  · rw [← (hc.orders s i p hp).side, Side.book]
    by_cases hb : (b.order p).side = .buy <;> simp [hb]
  · rw [PriceBitset.test_iff, (h.indexed s).occupied]
  · obtain ⟨hid, hin⟩ := hc.table k p hk
    exact ⟨by simpa using hin, hid⟩

/-- **Every reachable book is well formed.** -/
theorem book_structure (hcap : cap < 2 ^ 32) (cs : List Call) :
    ∃ b rs, (OrderBook.new cap).run cs = some (b, rs) ∧ WellFormed b := by
  obtain ⟨b, rs, Q, hrun, h⟩ := run_inv (new_inv cap) hcap cs
  exact ⟨b, rs, hrun, h.wellFormed⟩

/-- A run that fills, cancels and modifies, in a pool of two orders. -/
theorem book_structure_two :
    ∃ b rs, (OrderBook.new 2).run [.addOrder 1 7 .sell .limit 100 5 0,
      .addOrder (2 ^ 20 + 1) 8 .buy .limit 100 3 1, .modifyOrder 1 101 4 2,
      .cancelOrder 1] = some (b, rs) ∧ WellFormed b :=
  book_structure (by decide) _

/-! ### The best prices of a reachable book -/

section Bbo

variable {b : OrderBook cap} {Q : Queues cap}

/-- The prices whose level on side `s` is not empty. -/
def occupiedPrices (b : OrderBook cap) (s : BookSide) : Set Price :=
  {p | ∃ i, p = priceAt i ∧ (b.levels s i).empty = false}

theorem mem_occupiedPrices (h : Core b Q []) {s : BookSide} {i : Fin priceLevels} :
    priceAt i ∈ occupiedPrices b s ↔ Q s i ≠ [] := by
  have he : ∀ i, (b.levels s i).empty = false ↔ Q s i ≠ [] := fun i => by
    rw [← Bool.not_eq_true, (h.levels s i).empty_iff]
  constructor
  · rintro ⟨j, hj, hempty⟩
    rw [priceAt_injective hj]
    exact (he j).mp hempty
  · exact fun hne => ⟨i, rfl, (he i).mpr hne⟩

/-- The best price in terms of prices: no price of the side is better. -/
theorem best_spec (h : Inv b Q) (s : BookSide) :
    (occupiedPrices b s = ∅ ∧ b.best s = s.noPrice) ∨
      (b.best s ∈ occupiedPrices b s ∧
        ∀ p ∈ occupiedPrices b s, ¬ s.dir.Better p.toNat (b.best s).toNat) := by
  rcases (h.indexed s).best with ⟨hempty, hbest⟩ | ⟨i, hne, hbest, hbetter⟩
  · refine Or.inl ⟨Set.eq_empty_iff_forall_notMem.mpr ?_, hbest⟩
    rintro p ⟨i, rfl, hi⟩
    exact (mem_occupiedPrices h.core).mp ⟨i, rfl, hi⟩ (hempty i)
  · refine Or.inr ⟨hbest ▸ (mem_occupiedPrices h.core).mpr hne, ?_⟩
    rintro p ⟨j, rfl, hj⟩
    rw [hbest, better_priceAt]
    exact fun hb => (mem_occupiedPrices h.core).mp ⟨j, rfl, hj⟩ (hbetter j hb)

/-- The first loop of `validate_bbo` finds the best bid, if no level from `n` on is
occupied. -/
theorem topBid_spec (h : Core b Q []) {best : Price} (hb : BestOk .bids Q best) {n : ℕ}
    (hn : n ≤ priceLevels) (hrest : ∀ i : Fin priceLevels, n ≤ i.val → Q .bids i = []) :
    b.topBid n = some best := by
  induction n with
  | zero =>
    rcases hb with ⟨-, rfl⟩ | ⟨i, hne, -⟩
    · rfl
    · exact absurd (hrest i (Nat.zero_le _)) hne
  | succ n ih =>
    rw [OrderBook.topBid, index_of_lt hn]
    cases he : (b.levels .bids ⟨n, hn⟩).empty with
    | true =>
      have hnil := ((h.levels .bids ⟨n, hn⟩).empty_iff).mp he
      have hrest' : ∀ i : Fin priceLevels, n ≤ i.val → Q .bids i = [] := fun i hi => by
        rcases Nat.eq_or_lt_of_le hi with he | hlt
        · rw [← hnil]
          exact congrArg _ (Fin.ext he.symm)
        · exact hrest i hlt
      simpa [he] using ih (by omega) hrest'
    | false =>
      have hne : Q .bids ⟨n, hn⟩ ≠ [] := fun e => by
        have := ((h.levels .bids ⟨n, hn⟩).empty_iff).mpr e
        rw [he] at this
        cases this
      rcases hb with ⟨hempty, -⟩ | ⟨i, hi, rfl, hbetter⟩
      · exact absurd (hempty _) hne
      · -- the best level is the highest occupied one, so this one
        have hle : i.val ≤ n := by
          by_contra hlt
          exact hi (hrest i (by omega))
        have hge : ¬ i.val < n := fun hlt => hne (hbetter ⟨n, hn⟩ hlt)
        obtain rfl : i = ⟨n, hn⟩ := Fin.ext (by show i.val = n; omega)
        simp [he, priceAt]

/-- The second loop finds the best ask. -/
theorem bottomAsk_spec (h : Core b Q []) {best : Price} (hb : BestOk .asks Q best) {n : ℕ}
    (hn : n ≤ priceLevels)
    (hrest : ∀ i : Fin priceLevels, i.val < priceLevels - n → Q .asks i = []) :
    b.bottomAsk n = some best := by
  induction n with
  | zero =>
    rcases hb with ⟨-, rfl⟩ | ⟨i, hne, -⟩
    · rfl
    · exact absurd (hrest i (by have := i.isLt; omega)) hne
  | succ n ih =>
    have hlt : priceLevels - (n + 1) < priceLevels := by omega
    rw [OrderBook.bottomAsk, index_of_lt hlt]
    cases he : (b.levels .asks ⟨priceLevels - (n + 1), hlt⟩).empty with
    | true =>
      have hnil := ((h.levels .asks ⟨priceLevels - (n + 1), hlt⟩).empty_iff).mp he
      have hrest' : ∀ i : Fin priceLevels, i.val < priceLevels - n → Q .asks i = [] :=
          fun i hi => by
        by_cases hi' : i.val < priceLevels - (n + 1)
        · exact hrest i hi'
        · rw [← hnil]
          exact congrArg _ (Fin.ext (by show i.val = priceLevels - (n + 1); omega))
      simpa [he] using ih (by omega) hrest'
    | false =>
      have hne : Q .asks ⟨priceLevels - (n + 1), hlt⟩ ≠ [] := fun e => by
        have := ((h.levels .asks ⟨priceLevels - (n + 1), hlt⟩).empty_iff).mpr e
        rw [he] at this
        cases this
      rcases hb with ⟨hempty, -⟩ | ⟨i, hi, rfl, hbetter⟩
      · exact absurd (hempty _) hne
      · have hge : ¬ i.val < priceLevels - (n + 1) := fun h' => hi (hrest i h')
        have hle : ¬ priceLevels - (n + 1) < i.val := fun h' => hne (hbetter ⟨_, hlt⟩ h')
        obtain rfl : i = ⟨priceLevels - (n + 1), hlt⟩ :=
          Fin.ext (by show i.val = priceLevels - (n + 1); omega)
        simp [he, priceAt]

/-- `validate_bbo()` returns true. -/
theorem validateBbo_spec (h : Inv b Q) : b.validateBbo = some true := by
  have hb := topBid_spec h.core (h.indexed .bids).best le_rfl fun i hi => absurd i.isLt (by omega)
  have ha := bottomAsk_spec h.core (h.indexed .asks).best le_rfl fun i hi => absurd hi (by omega)
  simp [OrderBook.validateBbo, hb, ha, OrderBook.bestBid, OrderBook.bestAsk]

/-- What the best prices of a book are, in terms of the levels. -/
structure BboExact (b : OrderBook cap) : Prop where
  /-- The best bid is the highest price with buyers. -/
  bid : (occupiedPrices b .bids = ∅ ∧ b.bestBid = invalidPrice) ∨
    IsGreatest (occupiedPrices b .bids) b.bestBid
  /-- The best ask is the lowest price with sellers. -/
  ask : (occupiedPrices b .asks = ∅ ∧ b.bestAsk = maxPrice + 1) ∨
    IsLeast (occupiedPrices b .asks) b.bestAsk
  /-- `validate_bbo()` agrees. -/
  valid : b.validateBbo = some true
  /-- The book is not crossed. -/
  uncrossed : b.bestBid < b.bestAsk
  /-- The spread is positive, and the subtraction does not wrap. -/
  spread : (occupiedPrices b .bids).Nonempty → (occupiedPrices b .asks).Nonempty →
    0 < b.spread.toNat ∧ b.bestBid.toNat + b.spread.toNat = b.bestAsk.toNat
  /-- With a side empty the spread is zero. -/
  spread_zero : occupiedPrices b .bids = ∅ ∨ occupiedPrices b .asks = ∅ → b.spread = 0

theorem Inv.bboExact (h : Inv b Q) : BboExact b := by
  have hbid := best_spec h .bids
  have hask := best_spec h .asks
  simp only [BookSide.dir, Best.Better, Nat.not_lt, ← UInt32.le_iff_toNat_le] at hbid hask
  have hrange : ∀ s, ∀ p ∈ occupiedPrices b s, p ≠ invalidPrice ∧ ¬ p > maxPrice := by
    rintro s p ⟨i, rfl, -⟩
    exact ⟨priceAt_ne_invalidPrice i, UInt32.not_lt.mpr (priceAt_le_maxPrice i)⟩
  have hlt := h.uncrossed
  refine ⟨hbid, hask, validateBbo_spec h, hlt, fun hnb hna => ?_, fun hempty => ?_⟩
  · have hb := (hbid.resolve_left fun e => hnb.ne_empty e.1).1
    have ha := (hask.resolve_left fun e => hna.ne_empty e.1).1
    have hs : b.spread = b.best .asks - b.best .bids := by
      simp [OrderBook.spread, OrderBook.bestBid, OrderBook.bestAsk, (hrange _ _ hb).1,
        (hrange _ _ ha).2]
    rw [hs, UInt32.toNat_sub_of_le _ _ (UInt32.le_of_lt hlt)]
    have hlt' := UInt32.lt_iff_toNat_lt.mp hlt
    simp only [OrderBook.bestBid, OrderBook.bestAsk]
    omega
  · rcases hempty with he | he
    · have hb := (hbid.resolve_right fun e => by simp [he] at e).2
      simp [OrderBook.spread, OrderBook.bestBid, hb, BookSide.noPrice]
    · have ha := (hask.resolve_right fun e => by simp [he] at e).2
      simp [OrderBook.spread, OrderBook.bestAsk, ha, BookSide.noPrice, maxPrice]

/-- **The best prices of every reachable book are exact**, the book is not crossed, and
the spread never wraps. -/
theorem book_bbo (hcap : cap < 2 ^ 32) (cs : List Call) :
    ∃ b rs, (OrderBook.new cap).run cs = some (b, rs) ∧ BboExact b := by
  obtain ⟨b, rs, Q, hrun, h⟩ := run_inv (new_inv cap) hcap cs
  exact ⟨b, rs, hrun, h.bboExact⟩

/-- A run that rests on both sides and sweeps a level. -/
theorem book_bbo_two :
    ∃ b rs, (OrderBook.new 3).run [.addOrder 1 7 .sell .limit 101 5 0,
      .addOrder 2 8 .buy .limit 100 3 1, .addOrder 3 8 .buy .market 0 9 2] = some (b, rs) ∧
      BboExact b :=
  book_bbo (by decide) _

end Bbo

end TradeFeed
