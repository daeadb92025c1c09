import TradeFeed.Core.Runs

/-!
# The order book refines a naive one

The reference is a book that is just a list of buyers and a list of sellers in order of
arrival (`NaiveBook`). An incoming order trades with the earliest order at the best price
of the other side, again and again, while the prices cross (`Lib.PriceTime.naive`); a
cancelled order is deleted from its list; a modified one is deleted and submitted anew.

`refines_naive` says that the order book of the source returns, records and keeps the
same as the reference over any run in which no incoming order shares a slot of the table
with a resting one, whatever the pool's capacity.
-/

namespace TradeFeed

open Lib Lib.PriceTime Tradable
open OrderBook (badPrice)

variable {cap : ℕ}

/-! ### The reference -/

/-- An order that rests in the reference book. -/
@[ext]
structure Resting where
  /-- The id. -/
  id : OrderId
  /-- The client. -/
  client : ClientId
  /-- The price. -/
  price : Price
  /-- How many shares are left. -/
  remaining : ℕ
  deriving DecidableEq

instance : Tradable Resting where
  price r := r.price.toNat
  remaining r := r.remaining
  fill r q := { r with remaining := r.remaining - q }
  price_fill _ _ := rfl
  remaining_fill _ _ _ := rfl

/-- The reference book. -/
structure NaiveBook where
  /-- The orders of each side, in order of arrival. -/
  orders : BookSide → List Resting
  /-- The fills. -/
  fills : List Fill
  /-- How many there have ever been. -/
  matched : ℕ

namespace NaiveBook

/-- A book without orders. -/
def new : NaiveBook := ⟨fun _ => [], [], 0⟩

/-- How many orders rest. -/
def size (n : NaiveBook) : ℕ := (n.orders .bids).length + (n.orders .asks).length

/-- The incoming order's price crosses a resting order's; a market order's always does. -/
def crosses (s : BookSide) (type : OrderType) (price : Price) (best : ℕ) : Bool :=
  type = .market || match s with
    | .bids => decide (best ≤ price.toNat)
    | .asks => decide (price.toNat ≤ best)

/-- The record of a trade. -/
def record (s : BookSide) (id : OrderId) (client : ClientId) (t : Resting × ℕ) : Fill :=
  match s with
  | .bids => ⟨id, t.1.id, client, t.1.client, t.1.price, UInt32.ofNat t.2⟩
  | .asks => ⟨t.1.id, id, t.1.client, client, t.1.price, UInt32.ofNat t.2⟩

/-- Match an incoming order, and append what is left of a limit order. -/
def submit (n : NaiveBook) (s : BookSide) (id : OrderId) (client : ClientId) (type : OrderType)
    (price : Price) (qty : Quantity) : NaiveBook :=
  let m := naive s.opposite.dir (crosses s type price) (n.orders s.opposite).length qty.toNat
    (n.orders s.opposite)
  { orders := fun s' =>
      if s' = s then
        n.orders s ++ if m.left ≠ 0 ∧ type = .limit then [⟨id, client, price, m.left⟩] else []
      else m.rest
    fills := n.fills ++ m.trades.map (record s id client)
    matched := n.matched + m.trades.length }

/-- Submit an order, unless the book is full or a limit price is out of range. -/
def add (cap : ℕ) (n : NaiveBook) (s : BookSide) (id : OrderId) (client : ClientId)
    (type : OrderType) (price : Price) (qty : Quantity) : NaiveBook × Bool :=
  if n.size = cap ∨ badPrice type price then (n, false)
    else (n.submit s id client type price qty, true)

/-- The order with an id, and its side. -/
def find (n : NaiveBook) (id : OrderId) : Option (BookSide × Resting) :=
  match (n.orders .bids).find? (fun r => r.id = id) with
  | some r => some (.bids, r)
  | none => ((n.orders .asks).find? (fun r => r.id = id)).map fun r => (.asks, r)

/-- Delete by id. -/
def delete (n : NaiveBook) (id : OrderId) : NaiveBook :=
  { n with orders := fun s => (n.orders s).filter fun r => r.id ≠ id }

/-- Cancel by id. -/
def cancel (n : NaiveBook) (id : OrderId) : NaiveBook × Bool :=
  match n.find id with
  | none => (n, false)
  | some _ => (n.delete id, true)

/-- Delete, and submit anew. -/
def modify (cap : ℕ) (n : NaiveBook) (id : OrderId) (price : Price) (qty : Quantity) :
    NaiveBook × Bool :=
  match n.find id with
  | none => (n, false)
  | some (s, r) => (n.delete id).add cap s id r.client .limit price qty

/-- Make a call. -/
def call (cap : ℕ) (n : NaiveBook) : Call → NaiveBook × Option Bool
  | .addOrder id client side type price qty _ =>
    let (n, r) := n.add cap side.book id client type price qty
    (n, some r)
  | .cancelOrder id =>
    let (n, r) := n.cancel id
    (n, some r)
  | .modifyOrder id price qty _ =>
    let (n, r) := n.modify cap id price qty
    (n, some r)
  | .clearFills => ({ n with fills := [] }, none)

/-- Make calls in order. -/
def run (cap : ℕ) (n : NaiveBook) : List Call → NaiveBook × List (Option Bool)
  | [] => (n, [])
  | c :: cs =>
    let (n, r) := n.call cap c
    let (n, rs) := n.run cap cs
    (n, r :: rs)

/-- An incoming order shares the slot of its id with no order that rests. A modified order
comes in again under the id it had, in the slot it had. -/
def Unshared (n : NaiveBook) : Call → Prop
  | .addOrder id _ _ _ _ _ _ => ∀ r ∈ n.orders .bids ++ n.orders .asks, slot r.id ≠ slot id
  | _ => True

/-- So do all of a run. -/
def AllUnshared (cap : ℕ) : NaiveBook → List Call → Prop
  | _, [] => True
  | n, c :: cs => n.Unshared c ∧ AllUnshared cap (n.call cap c).1 cs

instance (n : NaiveBook) (c : Call) : Decidable (n.Unshared c) :=
  match c with
  | .addOrder id _ _ _ _ _ _ =>
    inferInstanceAs (Decidable (∀ r ∈ n.orders .bids ++ n.orders .asks, slot r.id ≠ slot id))
  | .cancelOrder _ => isTrue trivial
  | .modifyOrder _ _ _ _ => isTrue trivial
  | .clearFills => isTrue trivial

instance allUnsharedDecidable (cap : ℕ) :
    (n : NaiveBook) → (cs : List Call) → Decidable (n.AllUnshared cap cs)
  | _, [] => isTrue trivial
  | n, c :: cs =>
    have := allUnsharedDecidable cap (n.call cap c).1 cs
    inferInstanceAs (Decidable (n.Unshared c ∧ AllUnshared cap (n.call cap c).1 cs))

end NaiveBook

/-! ### The relation -/

/-- What the reference knows of an entry. -/
def view (e : Entry cap) : Resting := ⟨e.2.id, e.2.clientId, e.2.price, e.2.remaining.toNat⟩

/-- The orders of a side, as the reference knows them. -/
def OrderBook.views (b : OrderBook cap) (q : List (Fin cap)) : List Resting :=
  (b.entries q).map view

theorem mem_views {b : OrderBook cap} {q : List (Fin cap)} {r : Resting} :
    r ∈ b.views q ↔ ∃ p ∈ q, view (b.entry p) = r := by
  simp [OrderBook.views, OrderBook.entries]

/-- The book and the reference agree. -/
structure Refines (b : OrderBook cap) (Q : Queues cap) (n : NaiveBook) : Prop where
  /-- The book is in order. -/
  inv : Inv b Q
  /-- No order is hidden. -/
  registered : Registered b Q []
  /-- The orders of a side by priority are the reference's by arrival. -/
  orders : ∀ s : BookSide, Arranged s.dir (b.views (Q.resting s)) (n.orders s)
  /-- The fills. -/
  fills : b.fills = n.fills
  /-- The number of matches. -/
  matchCount : b.matchCount = UInt64.ofNat n.matched

section Levels

variable {b : OrderBook cap} {Q : Queues cap} {x : List (Fin cap)} {s : BookSide} {l : List Resting}

/-- At each price the resting orders are the level's. -/
theorem filter_views (h : Core b Q x) (s : BookSide) (i : Fin priceLevels) :
    (b.views (Q.resting s)).filter (fun r => r.price = priceAt i) = b.views (Q s i) := by
  rw [OrderBook.views, List.filter_map]
  exact congrArg _ (filter_entries h s i)

/-- The orders by priority arrange a list by arrival when they do so at each level. -/
theorem arranged_iff (h : Core b Q x) :
    Arranged s.dir (b.views (Q.resting s)) l ↔
      (∀ i, b.views (Q s i) = l.filter fun r => r.price = priceAt i) ∧
        ∀ r ∈ l, ∃ i, r.price = priceAt i := by
  have hp : ∀ (r : Resting) (p : Price), price r = p.toNat ↔ r.price = p :=
    fun r p => UInt32.toNat_inj
  have hlevel : ∀ r ∈ b.views (Q.resting s), ∃ i, r.price = priceAt i := by
    intro r hr
    obtain ⟨p, hp, rfl⟩ := mem_views.mp hr
    obtain ⟨i, hp⟩ := Queues.mem_resting.mp hp
    exact ⟨i, (h.orders s i p hp).price⟩
  constructor
  · intro ha
    refine ⟨fun i => ?_, fun r hr => hlevel r (ha.mem_iff.mpr hr)⟩
    rw [← filter_views h s i]
    simpa only [hp] using ha.same (priceAt i).toNat
  · rintro ⟨hl, hrange⟩
    refine ⟨?_, fun p => ?_⟩
    · rw [OrderBook.views, OrderBook.entries, List.map_map, List.pairwise_map]
      exact resting_sorted h s
    · by_cases hex : ∃ i, p = (priceAt i).toNat
      · obtain ⟨i, rfl⟩ := hex
        simp only [hp]
        rw [filter_views h s i, hl i]
      · have hnil : ∀ l : List Resting, (∀ r ∈ l, ∃ i, r.price = priceAt i) →
            l.filter (fun a => price a = p) = [] := by
          intro l hl
          apply List.filter_eq_nil_iff.mpr
          intro r hr
          obtain ⟨i, hi⟩ := hl r hr
          rw [decide_eq_true_eq]
          rintro rfl
          exact hex ⟨i, congrArg UInt32.toNat hi⟩
        rw [hnil _ hlevel, hnil _ hrange]

end Levels

/-! ### Adding an order -/

section Add

variable {b b' : OrderBook cap} {Q Q' : Queues cap} {n : NaiveBook} {o : Fin cap} {new : Order cap}

/-- On the prices of levels, the source's loop conditions are the crossing of prices. -/
theorem accepts_eq_crosses (side : Side) (type : OrderType) (price : Price) (i : Fin priceLevels) :
    accepts side type price (priceAt i) = NaiveBook.crosses side.book type price
      (priceAt i).toNat := by
  have hmax := priceAt_le_maxPrice i
  have hmin := priceAt_ne_invalidPrice i
  by_cases hb : side = .buy <;>
    simp [accepts, NaiveBook.crosses, Side.book, hb, hmax, hmin, UInt32.le_iff_toNat_le]

/-- The sweep of the entries, as the reference sees it. -/
theorem trading_views (h : Core b Q []) (new : Order cap) :
    sweep (NaiveBook.crosses new.side.book new.type new.price) new.quantity.toNat
        (b.views (Q.resting new.side.book.opposite)) =
      ⟨(trading b Q new).trades.map (Prod.map view id), (trading b Q new).left,
        (trading b Q new).rest.map view⟩ := by
  have hcong : trading b Q new = sweep (NaiveBook.crosses new.side.book new.type new.price)
      new.quantity.toNat (b.entries (Q.resting new.side.book.opposite)) := by
    apply sweep_congr _ _
    intro e he
    obtain ⟨p, hp, rfl⟩ := List.mem_map.mp he
    obtain ⟨i, hp⟩ := Queues.mem_resting.mp hp
    rw [OrderBook.price_entry, (h.orders _ i p hp).price, UInt32.ofNat_toNat, accepts_eq_crosses]
  rw [hcong]
  refine sweep_map (f := view) (fun _ => rfl) (fun _ => rfl) (fun e q hq => ?_) _ _
  exact Resting.ext rfl rfl rfl (remaining_fill e q hq)

/-- The two records of a trade are the same. -/
theorem record_view (new : Order cap) (t : Entry cap × ℕ) :
    NaiveBook.record new.side.book new.id new.clientId (Prod.map view id t) =
      fillOf new.side new t := by
  by_cases hb : new.side = .buy <;>
    simp [NaiveBook.record, fillOf, OrderBook.mkFill, Side.book, hb, view]

theorem size_eq (h : Refines b Q n) : n.size = b.activeOrders := by
  have hlen : ∀ s, (n.orders s).length = (Q.resting s).length := fun s => by
    rw [← (h.orders s).perm.length_eq, OrderBook.views, List.length_map, OrderBook.entries_length]
  rw [NaiveBook.size, hlen, hlen, activeOrders_eq h.inv.core]

/-- The pool is empty when as many orders rest as it has room for. -/
theorem available_eq_zero_iff (h : Refines b Q n) : b.pool.available = 0 ↔ n.size = cap := by
  rw [size_eq h, activeOrders_eq h.inv.core]
  have hlen := (arena_eq h.inv.core).length_eq
  rw [List.length_append, List.length_append, List.length_finRange] at hlen
  rw [OrderPool.available]
  omega

theorem views_pos (h : Inv b Q) (s : BookSide) {r : Resting} (hr : r ∈ b.views (Q.resting s)) :
    0 < remaining r := by
  obtain ⟨p, hp, rfl⟩ := mem_views.mp hr
  obtain ⟨i, hp⟩ := Queues.mem_resting.mp hp
  exact remaining_pos h.live hp

/-- The reference makes the trades of the book, and is left with the same orders. -/
theorem Refines.naive (h : Refines b Q n) (new : Order cap) :
    let m := naive new.side.book.opposite.dir (NaiveBook.crosses new.side.book new.type new.price)
      (n.orders new.side.book.opposite).length new.quantity.toNat (n.orders new.side.book.opposite)
    m.trades = (trading b Q new).trades.map (Prod.map view id) ∧ m.left = (trading b Q new).left ∧
      Arranged new.side.book.opposite.dir ((trading b Q new).rest.map view) m.rest := by
  have hsweep := naive_sweep (NaiveBook.crosses new.side.book new.type new.price)
    (h.orders new.side.book.opposite)
    (fun r => views_pos h.inv _) (n.orders new.side.book.opposite).length new.quantity.toNat
      (Or.inl le_rfl)
  rwa [trading_views h.inv.core new] at hsweep

/-- What joins the order's own side in the book joins the end of it in the reference. -/
theorem Accepted.arranged_own (h : Refines b Q n) (ha : Accepted b b' Q Q' o new)
    (hbad : badPrice new.type new.price = false) :
    Arranged new.side.book.dir (b'.views (Q'.resting new.side.book))
      (n.orders new.side.book ++ if (trading b Q new).left ≠ 0 ∧ new.type = .limit then
        [⟨new.id, new.clientId, new.price, (trading b Q new).left⟩] else []) := by
  obtain ⟨hl, hrange⟩ := (arranged_iff h.inv.core).mp (h.orders new.side.book)
  have hview : view ((o, remainder b Q new) : Entry cap) = ⟨new.id, new.clientId, new.price,
      (trading b Q new).left⟩ :=
    Resting.ext rfl rfl rfl (remainder_remaining b Q new)
  refine (arranged_iff ha.inv.core).mpr ⟨fun i => ?_, fun r hr => ?_⟩
  · rw [OrderBook.views, ha.joined, List.map_append, List.filter_append]
    congr 1
    · exact hl i
    · by_cases hr : (trading b Q new).left ≠ 0 ∧ new.type = .limit
      · rw [if_pos hr]
        by_cases hi : new.price = priceAt i
        · rw [if_pos ⟨hr, hi⟩, List.map_singleton, hview]
          simp [hi]
        · rw [if_neg fun e => hi e.2]
          simp [hi]
      · rw [if_neg hr, if_neg fun e => hr e.1]
        rfl
  · rcases List.mem_append.mp hr with hr | hr
    · exact hrange r hr
    · split_ifs at hr with hlim
      · rw [List.mem_singleton.mp hr]
        exact exists_level_of_limit hbad hlim.2
      · simp at hr

/-- **An accepted order** does to the reference what it does to the book. -/
theorem Accepted.refines (h : Refines b Q n) (ha : Accepted b b' Q Q' o new)
    (hslot : ∀ s, ∀ r ∈ n.orders s, slot r.id ≠ slot new.id)
    (hbad : badPrice new.type new.price = false) :
    Refines b' Q' (n.submit new.side.book new.id new.clientId new.type new.price new.quantity) := by
  obtain ⟨htrades, hleft, hrest⟩ := h.naive new
  refine ⟨ha.inv, ?_, fun s => ?_, ?_, ?_⟩
  · apply ha.registered h.registered
    intro s i p hp
    exact hslot s _
      ((h.orders s).mem_iff.mp (mem_views.mpr ⟨p, Queues.mem_resting.mpr ⟨i, hp⟩, rfl⟩))
  · rcases eq_or_eq_opposite new.side.book s with rfl | rfl
    · simp only [NaiveBook.submit, if_true, hleft]
      exact ha.arranged_own h hbad
    · have hne : new.side.book.opposite ≠ new.side.book := (opposite_ne _).symm
      simp only [NaiveBook.submit, hne, if_false]
      rw [OrderBook.views, ha.swept]
      exact hrest
  · have hrec : (fun t => NaiveBook.record new.side.book new.id new.clientId (Prod.map view id t)) =
        (fillOf new.side new : Entry cap × ℕ → Fill) := funext (record_view new)
    simp only [NaiveBook.submit, htrades, List.map_map]
    rw [ha.fills, h.fills, ← hrec]
    rfl
  · simp only [NaiveBook.submit, htrades, List.length_map]
    rw [ha.matchCount, h.matchCount, UInt64.ofNat_add]

/-- **A step**: adding an order. -/
theorem addOrder_refines (h : Refines b Q n) (id : OrderId) (client : ClientId) (side : Side)
    (type : OrderType) (price : Price) (qty : Quantity) (ts : Timestamp)
    (hslot : ∀ s, ∀ r ∈ n.orders s, slot r.id ≠ slot id) :
    ∃ b' Q', b.addOrder id client side type price qty ts =
        some (b', (n.add cap side.book id client type price qty).2) ∧
      Refines b' Q' (n.add cap side.book id client type price qty).1 := by
  have hfull := available_eq_zero_iff h
  by_cases hr : b.pool.available = 0 ∨ badPrice type price = true
  · have hr' : n.size = cap ∨ badPrice type price = true := by rwa [← hfull]
    refine ⟨b, Q, ?_, ?_⟩
    · rw [OrderBook.addOrder_refused b id client side type price qty ts hr,
        NaiveBook.add, if_pos hr']
    · rw [NaiveBook.add, if_pos hr']
      exact h
  · have hr' : ¬ (n.size = cap ∨ badPrice type price = true) := by rwa [← hfull]
    rw [not_or, Bool.not_eq_true] at hr
    obtain ⟨b', Q', o, hrun, hacc⟩ :=
      addOrder_accepted h.inv (room_of_registered h.inv.core h.registered) id client side type
        price qty ts hr.1 hr.2
    refine ⟨b', Q', ?_, ?_⟩
    · rw [hrun, NaiveBook.add, if_neg hr']
    · rw [NaiveBook.add, if_neg hr']
      exact hacc.refines h hslot hr.2

end Add

/-! ### Cancelling and modifying -/

section Cancel

variable {b b' : OrderBook cap} {Q : Queues cap} {n : NaiveBook} {o : Fin cap} {id : OrderId}

theorem Refines.mem_orders (h : Refines b Q n) {s : BookSide} {r : Resting} :
    r ∈ n.orders s ↔ ∃ i, ∃ p ∈ Q s i, view (b.entry p) = r := by
  rw [← (h.orders s).mem_iff, mem_views]
  simp only [Queues.mem_resting]
  exact ⟨fun ⟨p, ⟨i, hp⟩, hr⟩ => ⟨i, p, hp, hr⟩, fun ⟨i, p, hp, hr⟩ => ⟨p, ⟨i, hp⟩, hr⟩⟩

/-- The reference knows no order that the table does not. -/
theorem find_of_lookup_none (h : Refines b Q n) (hl : b.lookup id = none) : n.find id = none := by
  have hno : ∀ s, (n.orders s).find? (fun r => r.id = id) = none := by
    intro s
    refine List.find?_eq_none.mpr fun r hr => ?_
    obtain ⟨i, p, hp, rfl⟩ := h.mem_orders.mp hr
    rw [decide_eq_true_eq]
    rintro rfl
    have hlp : b.lookup (view (b.entry p)).id = some p := h.registered.lookup hp
    rw [hl] at hlp
    cases hlp
  simp [NaiveBook.find, hno]

/-- What the table gives for an id is what the reference finds. -/
theorem find_of_lookup_some (h : Refines b Q n) (hl : b.lookup id = some o) :
    n.find id = some ((b.order o).side.book, view (b.entry o)) := by
  obtain ⟨⟨s, i, ho⟩, hid⟩ := mem_of_lookup h.inv.core hl
  have hside := (h.inv.core.orders s i o ho).side
  have hmem : view (b.entry o) ∈ n.orders s := h.mem_orders.mpr ⟨i, o, ho, rfl⟩
  -- whatever is found, on either side, is this order
  have honly : ∀ s' r, (n.orders s').find? (fun r => r.id = id) = some r →
      s' = s ∧ r = view (b.entry o) := by
    intro s' r hf
    obtain ⟨j, p, hp, rfl⟩ := h.mem_orders.mp (List.mem_of_find?_eq_some hf)
    have hpid : (view (b.entry p)).id = id := by simpa using List.find?_some hf
    have hpid : (b.order p).id = (b.order o).id := Eq.trans hpid hid.symm
    obtain rfl : p = o := by
      by_contra hne
      exact h.registered.slot_ne (Or.inr ⟨_, j, hp⟩) (Or.inr ⟨s, i, ho⟩) hne (congrArg slot hpid)
    exact ⟨(h.inv.core.level_unique ho hp).1, rfl⟩
  have hfind : (n.orders s).find? (fun r => r.id = id) = some (view (b.entry o)) := by
    cases hf : (n.orders s).find? (fun r => r.id = id) with
    | none =>
      have := List.find?_eq_none.mp hf _ hmem
      rw [decide_eq_true_eq] at this
      exact absurd hid this
    | some r => rw [(honly s r hf).2]
  rw [hside]
  cases s with
  | bids => simp [NaiveBook.find, hfind]
  | asks =>
    have hnone : (n.orders .bids).find? (fun r => r.id = id) = none := by
      cases hf : (n.orders .bids).find? (fun r => r.id = id) with
      | none => rfl
      | some r => cases (honly .bids r hf).1
    simp [NaiveBook.find, hfind, hnone]

/-- **A cancelled order** leaves the reference as it leaves the book. -/
theorem Left.refines (h : Refines b Q n) (ha : Left b b' Q o) (hl : b.lookup id = some o) :
    Refines b' (Q.without o) (n.delete id) := by
  obtain ⟨⟨s₀, i₀, ho⟩, hid⟩ := mem_of_lookup h.inv.core hl
  refine ⟨ha.inv, ha.registered h.registered,
    fun s => ?_, ha.fills.trans h.fills, ha.matchCount.trans h.matchCount⟩
  obtain ⟨hlev, hrange⟩ := (arranged_iff h.inv.core).mp (h.orders s)
  refine (arranged_iff ha.inv.core).mpr
    ⟨fun i => ?_, fun r hr => hrange r (List.mem_filter.mp hr).1⟩
  have hviews : b'.views (Q.without o s i) = b.views (Q.without o s i) :=
    congrArg (List.map view)
      (OrderBook.entries_congr fun p hp => ha.others p (Queues.mem_without.mp hp).2)
  have hkeep : b.views (Q.without o s i) = (b.views (Q s i)).filter fun r => r.id ≠ id := by
    rw [OrderBook.views, OrderBook.views, OrderBook.entries, OrderBook.entries, List.map_map,
      List.map_map, List.filter_map, Queues.without]
    refine congrArg _ (List.filter_congr fun p hp => ?_)
    refine decide_eq_decide.mpr (not_congr ⟨?_, fun he => ?_⟩)
    · rintro rfl; exact hid
    · have he : (b.order p).id = id := he
      by_contra hne
      exact h.registered.slot_ne (Or.inr ⟨s, i, hp⟩) (Or.inr ⟨s₀, i₀, ho⟩) hne (by rw [he, hid])
  rw [hviews, hkeep, hlev i]
  simp only [NaiveBook.delete, List.filter_filter]
  exact List.filter_congr fun r _ => Bool.and_comm _ _

theorem cancelOrder_refines (h : Refines b Q n) (id : OrderId) :
    ∃ b' Q', b.cancelOrder id = some (b', (n.cancel id).2) ∧ Refines b' Q' (n.cancel id).1 := by
  cases hl : b.lookup id with
  | none =>
    rw [NaiveBook.cancel, find_of_lookup_none h hl]
    exact ⟨b, Q, cancelOrder_unknown b hl, h⟩
  | some o =>
    rw [NaiveBook.cancel, find_of_lookup_some h hl]
    obtain ⟨b', hrun, hleft⟩ := cancelOrder_found h.inv hl
    exact ⟨b', _, hrun, hleft.refines h hl⟩

theorem modifyOrder_refines (h : Refines b Q n) (id : OrderId) (price : Price) (qty : Quantity)
    (ts : Timestamp) :
    ∃ b' Q', b.modifyOrder id price qty ts = some (b', (n.modify cap id price qty).2) ∧
      Refines b' Q' (n.modify cap id price qty).1 := by
  cases hl : b.lookup id with
  | none =>
    rw [NaiveBook.modify, find_of_lookup_none h hl]
    exact ⟨b, Q, modifyOrder_unknown b price qty ts hl, h⟩
  | some o =>
    rw [NaiveBook.modify, find_of_lookup_some h hl]
    obtain ⟨b₁, hleft, -, hadd⟩ := modifyOrder_found h.inv hl price qty ts
    have h₁ := hleft.refines h hl
    have hslot : ∀ s, ∀ r ∈ (n.delete id).orders s, slot r.id ≠ slot id := by
      intro s r hr
      obtain ⟨i, p, hp, rfl⟩ := h₁.mem_orders.mp hr
      exact hleft.slot_free h.registered h.inv.core hl s i p hp
    obtain ⟨b', Q', hrun, h'⟩ :=
      addOrder_refines h₁ id (b.order o).clientId (b.order o).side .limit price qty ts hslot
    exact ⟨b', Q', hadd.trans hrun, h'⟩

end Cancel

/-! ### Runs -/

section Runs

variable {b : OrderBook cap} {Q : Queues cap} {n : NaiveBook}

theorem new_refines (cap : ℕ) : Refines (OrderBook.new cap) (fun _ _ => []) NaiveBook.new where
  inv := new_inv cap
  registered := by simp [Registered]
  orders s := (arranged_iff (new_inv cap).core).mpr ⟨fun _ => rfl, by simp [NaiveBook.new]⟩
  fills := rfl
  matchCount := rfl

/-- **A step.** -/
theorem call_refines (h : Refines b Q n) (c : Call) (hc : n.Unshared c) :
    ∃ b' Q', b.call c = some (b', (n.call cap c).2) ∧ Refines b' Q' (n.call cap c).1 := by
  cases c with
  | addOrder id client side type price qty ts =>
    have hslot : ∀ s, ∀ r ∈ n.orders s, slot r.id ≠ slot id := fun s r hr =>
      hc r (by cases s <;> simp [hr])
    obtain ⟨b', Q', hrun, h'⟩ := addOrder_refines h id client side type price qty ts hslot
    exact ⟨b', Q', by simp [OrderBook.call, hrun, NaiveBook.call], h'⟩
  | cancelOrder id =>
    obtain ⟨b', Q', hrun, h'⟩ := cancelOrder_refines h id
    exact ⟨b', Q', by simp [OrderBook.call, hrun, NaiveBook.call], h'⟩
  | modifyOrder id price qty ts =>
    obtain ⟨b', Q', hrun, h'⟩ := modifyOrder_refines h id price qty ts
    exact ⟨b', Q', by simp [OrderBook.call, hrun, NaiveBook.call], h'⟩
  | clearFills => exact ⟨_, Q, rfl, clearFills_inv h.inv, h.registered, h.orders, rfl, h.matchCount⟩

/-- **A run.** -/
theorem run_refines (h : Refines b Q n) (cs : List Call) (hcs : n.AllUnshared cap cs) :
    ∃ b' Q', b.run cs = some (b', (n.run cap cs).2) ∧ Refines b' Q' (n.run cap cs).1 := by
  induction cs generalizing b Q n with
  | nil => exact ⟨b, Q, rfl, h⟩
  | cons c cs ih =>
    obtain ⟨b₁, Q₁, hcall, h₁⟩ := call_refines h c hcs.1
    obtain ⟨b', Q', hrun, h'⟩ := ih h₁ hcs.2
    exact ⟨b', Q', by simp [OrderBook.run, hcall, hrun, NaiveBook.run], h'⟩

/-- What a book shows is what the reference holds. -/
structure Agrees (b : OrderBook cap) (n : NaiveBook) : Prop where
  /-- The fills. -/
  fills : b.fills = n.fills
  /-- The queue at each price, with what each order has left. -/
  queues : ∀ s i, b.views (b.queue s i) = (n.orders s).filter fun r => r.price = priceAt i
  /-- The reference has no orders elsewhere. -/
  prices : ∀ s, ∀ r ∈ n.orders s, ∃ i, r.price = priceAt i
  /-- The best prices. -/
  best : ∀ s : BookSide, b.best s = match bestPrice s.dir (n.orders s) with
    | none => s.noPrice
    | some p => UInt32.ofNat p
  /-- The number of orders. -/
  active : b.activeOrders = n.size
  /-- The number of matches. -/
  matchCount : b.matchCount = UInt64.ofNat n.matched

theorem Refines.agrees (h : Refines b Q n) : Agrees b n := by
  have hl := fun s => (arranged_iff h.inv.core).mp (h.orders s)
  refine ⟨h.fills, fun s i => ?_, fun s => (hl s).2, fun s => ?_, (size_eq h).symm, h.matchCount⟩
  · rw [h.inv.queue_eq]
    exact (hl s).1 i
  · rcases (h.inv.indexed s).best with ⟨hempty, hbest⟩ | ⟨i, hne, hbest, hbetter⟩
    · have hnil : n.orders s = [] := by
        apply List.eq_nil_iff_forall_not_mem.mpr
        intro r hr
        obtain ⟨i, p, hp, -⟩ := h.mem_orders.mp hr
        simp [hempty] at hp
      rw [hnil, hbest]
      rfl
    · obtain ⟨p, hp⟩ := List.exists_mem_of_ne_nil _ hne
      have hprice : price (view (b.entry p)) = (priceAt i).toNat :=
        congrArg UInt32.toNat (h.inv.core.orders s i p hp).price
      have hspec : bestPrice s.dir (n.orders s) = some (priceAt i).toNat := by
        rw [← hprice]
        refine bestPrice_eq (h.mem_orders.mpr ⟨i, p, hp, rfl⟩) fun r hr => ?_
        obtain ⟨j, p', hp', rfl⟩ := h.mem_orders.mp hr
        have hprice' : price (view (b.entry p')) = (priceAt j).toNat :=
          congrArg UInt32.toNat (h.inv.core.orders s j p' hp').price
        rw [hprice, hprice', better_priceAt]
        exact fun hb => List.ne_nil_of_mem hp' (hbetter j hb)
      rw [hspec, hbest]
      exact (UInt32.ofNat_toNat).symm

/-- **The order book refines the naive one**: over any run in which no incoming order
shares a slot with a resting one, it returns the same and shows the same. -/
theorem refines_naive (cap : ℕ) (cs : List Call) (h : NaiveBook.new.AllUnshared cap cs) :
    ∃ b, (OrderBook.new cap).run cs = some (b, (NaiveBook.new.run cap cs).2) ∧
      Agrees b (NaiveBook.new.run cap cs).1 := by
  obtain ⟨b, Q, hrun, h'⟩ := run_refines (new_refines cap) cs h
  exact ⟨b, hrun, h'.agrees⟩

/-- A run that rests, sweeps two prices, modifies and cancels. -/
theorem refines_naive_four :
    let cs : List Call := [.addOrder 1 7 .sell .limit 101 5 0, .addOrder 2 7 .sell .limit 100 2 1,
      .addOrder 3 8 .buy .limit 101 4 2, .clearFills, .modifyOrder 1 99 6 3,
      .addOrder 4 9 .buy .market 0 1 4, .cancelOrder 1]
    ∃ b, (OrderBook.new 4).run cs = some (b, (NaiveBook.new.run 4 cs).2) ∧
      Agrees b (NaiveBook.new.run 4 cs).1 :=
  refines_naive 4 _ (by decide)

end Runs

end TradeFeed
