import TradeFeed.Core.Relabelling

/-!
# Loading a book

Limit orders that do not cross, neither each other nor the book, rest one after the other. In which
sequence they come matters at each price of a side and not beyond: `loading_order`. So a book may be
loaded level by level, side by side, or in any other way that keeps the time priority within each
level.
-/

namespace TradeFeed

open Lib Lib.PriceTime Tradable
open OrderBook (badPrice)

variable {cap : ℕ}

/-- A limit order. -/
structure Quote where
  /-- The id. -/
  id : OrderId
  /-- The client. -/
  client : ClientId
  /-- The side. -/
  side : Side
  /-- The price. -/
  price : Price
  /-- The quantity. -/
  qty : Quantity
  /-- The timestamp. -/
  ts : Timestamp
  deriving DecidableEq

namespace Quote

/-- The call that submits it. -/
def call (x : Quote) : Call := .addOrder x.id x.client x.side .limit x.price x.qty x.ts

/-- As it rests. -/
def order (x : Quote) : Resting := ⟨x.id, x.client, x.price, x.qty.toNat⟩

/-- It is for one price of one side. -/
def At (s : BookSide) (p : Price) (x : Quote) : Prop := x.side.book = s ∧ x.price = p

instance (s : BookSide) (p : Price) (x : Quote) : Decidable (x.At s p) :=
  inferInstanceAs (Decidable (_ ∧ _))

/-- It is an order of some shares, in the range of prices, that does not cross the book. -/
structure Outside (b : OrderBook cap) (x : Quote) : Prop where
  /-- It is not empty. -/
  pos : 0 < x.qty
  /-- The range of prices. -/
  range : minPrice ≤ x.price ∧ x.price ≤ maxPrice
  /-- A buyer bids less than is asked. -/
  buys : x.side = .buy → x.price < b.bestAsk
  /-- A seller asks more than is bid. -/
  sells : x.side ≠ .buy → b.bestBid < x.price

end Quote

namespace NaiveBook

variable {n : NaiveBook} {as : List Quote}

/-- The reference with orders that rest. -/
def loaded (n : NaiveBook) (as : List Quote) : NaiveBook :=
  { n with orders := fun s => n.orders s ++ (as.filter fun x => x.side.book = s).map Quote.order }

/-- The orders find room, and nobody to trade with. -/
structure Fits (cap : ℕ) (n : NaiveBook) (as : List Quote) : Prop where
  /-- They are not empty. -/
  pos : ∀ x ∈ as, 0 < x.qty
  /-- They are in the range of prices. -/
  range : ∀ x ∈ as, badPrice .limit x.price = false
  /-- They do not cross the book. -/
  apart : ∀ x ∈ as,
    ∀ r ∈ n.orders x.side.book.opposite, crosses x.side.book .limit x.price (price r) = false
  /-- They do not cross each other. -/
  uncrossed : ∀ x ∈ as, ∀ y ∈ as, y.side.book = x.side.book.opposite →
    crosses x.side.book .limit x.price y.price.toNat = false
  /-- There is room for them. -/
  room : n.size + as.length ≤ cap

/-- An order that does not cross rests. -/
theorem submit_apart {x : Quote} (hpos : 0 < x.qty)
    (h : ∀ r ∈ n.orders x.side.book.opposite,
      crosses x.side.book .limit x.price (price r) = false) :
    n.submit x.side.book x.id x.client .limit x.price x.qty = n.loaded [x] := by
  have hqty : x.qty.toNat ≠ 0 := by
    have := UInt32.lt_iff_toNat_lt.mp hpos
    rw [UInt32.toNat_zero] at this
    omega
  rw [submit, naive_refuse h]
  simp only [hqty, ne_eq, not_false_eq_true, and_self, if_true, List.map_nil, List.append_nil,
    List.length_nil, Nat.add_zero, loaded]
  congr 1
  funext s
  rcases eq_or_eq_opposite x.side.book s with rfl | rfl
  · simp [Quote.order]
  · simp [(opposite_ne x.side.book), (opposite_ne x.side.book).symm]

theorem size_loaded (n : NaiveBook) (x : Quote) : (n.loaded [x]).size = n.size + 1 := by
  cases hs : x.side.book <;> simp [size, loaded, hs] <;> omega

theorem loaded_loaded (n : NaiveBook) (as bs : List Quote) :
    (n.loaded as).loaded bs = n.loaded (as ++ bs) := by
  simp [loaded]

/-- The rest of the orders fit when the first rests. -/
theorem Fits.tail {x : Quote} (h : Fits cap n (x :: as)) : Fits cap (n.loaded [x]) as where
  pos y hy := h.pos y (List.mem_cons_of_mem _ hy)
  range y hy := h.range y (List.mem_cons_of_mem _ hy)
  apart y hy r hr := by
    rcases List.mem_append.mp hr with hr | hr
    · exact h.apart y (List.mem_cons_of_mem _ hy) r hr
    · obtain ⟨z, hz, rfl⟩ := List.mem_map.mp hr
      obtain ⟨hz, hside⟩ := List.mem_filter.mp hz
      rw [List.mem_singleton.mp hz] at hside ⊢
      exact h.uncrossed y (List.mem_cons_of_mem _ hy) x List.mem_cons_self (of_decide_eq_true hside)
  uncrossed y hy z hz := h.uncrossed y (List.mem_cons_of_mem _ hy) z (List.mem_cons_of_mem _ hz)
  room := by
    have := h.room
    rw [List.length_cons] at this
    rw [size_loaded]
    omega

/-- **Orders that fit rest**, one after the other. -/
theorem Fits.run (h : Fits cap n as) :
    n.run cap (as.map Quote.call) = (n.loaded as, as.map fun _ => some true) := by
  induction as generalizing n with
  | nil => simp [NaiveBook.run, loaded]
  | cons x as ih =>
    have hroom : n.size ≠ cap := by
      have := h.room
      rw [List.length_cons] at this
      omega
    have hcall : n.call cap x.call = (n.loaded [x], some true) := by
      rw [Quote.call, NaiveBook.call, add, if_neg (by simp [hroom, h.range x List.mem_cons_self]),
        submit_apart (h.pos x List.mem_cons_self) (h.apart x List.mem_cons_self)]
    rw [List.map_cons, NaiveBook.run, hcall]
    simp only [ih h.tail, loaded_loaded]
    rfl

theorem mem_loaded {x : Quote} {s : BookSide} {r : Resting} :
    r ∈ (n.loaded [x]).orders s ↔ r ∈ n.orders s ∨ x.side.book = s ∧ r = x.order := by
  by_cases hs : x.side.book = s <;> simp [loaded, hs]

/-- Which of them share a slot. -/
theorem Fits.allUnshared_iff (h : Fits cap n as) : n.AllUnshared cap (as.map Quote.call) ↔
    (∀ x ∈ as, ∀ s, ∀ r ∈ n.orders s, slot r.id ≠ slot x.id) ∧
      as.Pairwise fun x y => slot x.id ≠ slot y.id := by
  induction as generalizing n with
  | nil => simp [AllUnshared]
  | cons x as ih =>
    have hrun : (n.call cap x.call).1 = n.loaded [x] := by
      have hone : Fits cap n [x] :=
        ⟨fun y hy => h.pos y (by simp_all),
          fun y hy => h.range y (by simp_all),
          fun y hy => h.apart y (by simp_all),
          fun y hy z hz => h.uncrossed y (by simp_all) z (by simp_all), le_trans (by simp) h.room⟩
      exact congrArg Prod.fst hone.run
    have hfirst : n.Unshared x.call ↔ ∀ s, ∀ r ∈ n.orders s, slot r.id ≠ slot x.id := by
      constructor
      · exact fun hu s r hr => hu r (by cases s <;> simp [hr])
      · exact fun hu r hr => (List.mem_append.mp hr).elim (hu .bids r) (hu .asks r)
    rw [List.map_cons, AllUnshared, hrun, ih h.tail, hfirst, List.pairwise_cons,
      List.forall_mem_cons]
    constructor
    · rintro ⟨hx, hrest, hpair⟩
      exact ⟨⟨hx, fun y hy s r hr => hrest y hy s r (mem_loaded.mpr (Or.inl hr))⟩,
        fun y hy => hrest y hy x.side.book x.order (mem_loaded.mpr (Or.inr ⟨rfl, rfl⟩)), hpair⟩
    · rintro ⟨⟨hx, hrest⟩, hne, hpair⟩
      refine ⟨hx, fun y hy s r hr => ?_, hpair⟩
      rcases mem_loaded.mp hr with hr | ⟨-, rfl⟩
      · exact hrest y hy s r hr
      · exact hne y hy

variable {as' : List Quote}

/-- Orders that fit do so in any sequence. -/
theorem Fits.perm (h : Fits cap n as) (hp : as'.Perm as) : Fits cap n as' where
  pos x hx := h.pos x (hp.mem_iff.mp hx)
  range x hx := h.range x (hp.mem_iff.mp hx)
  apart x hx := h.apart x (hp.mem_iff.mp hx)
  uncrossed x hx y hy := h.uncrossed x (hp.mem_iff.mp hx) y (hp.mem_iff.mp hy)
  room := hp.length_eq ▸ h.room

theorem Fits.unshared_perm (h : Fits cap n as) (hp : as'.Perm as)
    (hu : n.AllUnshared cap (as.map Quote.call)) :
    n.AllUnshared cap (as'.map Quote.call) := by
  obtain ⟨hbook, hpair⟩ := h.allUnshared_iff.mp hu
  exact (h.perm hp).allUnshared_iff.mpr ⟨fun x hx => hbook x (hp.mem_iff.mp hx),
    (hp.pairwise_iff fun {x y} hne => Ne.symm hne).mpr hpair⟩

theorem run_append (n : NaiveBook) (cs ds : List Call) : n.run cap (cs ++ ds) =
    (((n.run cap cs).1.run cap ds).1, (n.run cap cs).2 ++ ((n.run cap cs).1.run cap ds).2) := by
  induction cs generalizing n with
  | nil => rfl
  | cons c cs ih =>
    rw [List.cons_append]
    simp only [run, ih, List.cons_append]

theorem allUnshared_append {n : NaiveBook} {cs ds : List Call} :
    n.AllUnshared cap (cs ++ ds) ↔ n.AllUnshared cap cs ∧ (n.run cap cs).1.AllUnshared cap ds := by
  induction cs generalizing n with
  | nil => simp [AllUnshared, run]
  | cons c cs ih =>
    rw [List.cons_append, AllUnshared, ih, AllUnshared, and_assoc]
    rfl

end NaiveBook

/-! ### Two sequences -/

/-- The same orders at each price of each side are the same orders. -/
theorem perm_of_same {as as' : List Quote}
    (h : ∀ s p, as'.filter (Quote.At s p) = as.filter (Quote.At s p)) :
    as'.Perm as := by
  refine List.perm_iff_count.mpr fun x => ?_
  have hcount : ∀ l : List Quote,
      (l.filter (Quote.At x.side.book x.price)).count x = l.count x := fun l =>
    List.count_filter (decide_eq_true ⟨rfl, rfl⟩)
  rw [← hcount as', h, hcount]

/-- Every name stays. -/
def Renaming.same : Renaming :=
  ⟨fun id => id, fun client => client, fun price => price, fun ts => ts⟩

theorem Renaming.same_faithful (P : Set Price) : Renaming.same.Faithful P where
  mono _ _ _ _ h := h
  range _ _ := rfl
  id _ _ h := h
  slot _ _ h := h

theorem Renaming.same_calls (cs : List Call) : cs.map Renaming.same.call = cs := by
  refine (List.map_congr_left fun c _ => ?_).trans (List.map_id' cs)
  cases c <;> rfl

open NaiveBook (Fits)

/-- References loaded in two sequences are alike when they are so at each price. -/
theorem loaded_renamed (n : NaiveBook) {as as' : List Quote}
    (h : ∀ s p, as'.filter (Quote.At s p) = as.filter (Quote.At s p)) :
    NaiveBook.Renamed .same Set.univ (n.loaded as) (n.loaded as') where
  orders s := by
    have hall : ∀ r : Resting, price r ∈ numbers Set.univ :=
      fun r => mem_numbers.mpr (Set.mem_univ r.price)
    have hbook := Lib.PriceTime.Alike.map (l := n.orders s)
      (Renaming.same_faithful Set.univ).relabels fun r _ => hall r
    have hid : Renaming.same.resting = fun r => r := rfl
    rw [hid, List.map_id'] at hbook
    refine hbook.append
      ⟨fun r _ => hall r,
      fun r _ => ⟨price r, hall r, (Renaming.same.level_toNat r.price).symm⟩, ?_⟩
    rintro _ ⟨p, -, rfl⟩
    have hat : ∀ as : List Quote,
      (((as.filter fun x => x.side.book = s).map Quote.order).filter fun r => price r = p.toNat) =
        (as.filter (Quote.At s p)).map Quote.order := fun as => by
      rw [List.filter_map, List.filter_filter]
      refine congrArg _ (List.filter_congr fun x _ => ?_)
      have hprice : price x.order = p.toNat ↔ x.price = p := UInt32.toNat_inj
      rw [Bool.eq_iff_iff]
      simp [Quote.At, hprice, and_comm]
    rw [Renaming.level_toNat, List.map_id', hat, ← h, ← hat]
    rfl
  fills := by
    have hid : Renaming.same.fill = fun f => f := rfl
    rw [hid, List.map_id']
    rfl
  matched := rfl

section Loading

variable {b : OrderBook cap} {Q : Queues cap} {n : NaiveBook} {as : List Quote}

/-- No order that rests is at a better price than the best. -/
theorem Refines.not_better (h : Refines b Q n) {s : BookSide} {r : Resting} (hr : r ∈ n.orders s) :
    ¬ s.dir.Better (price r) (b.best s).toNat := by
  obtain ⟨i, p, hp, rfl⟩ := h.mem_orders.mp hr
  have hprice : price (view (b.entry p)) = (priceAt i).toNat :=
    congrArg UInt32.toNat (h.inv.core.orders s i p hp).price
  rcases best_spec h.inv s with ⟨hempty, -⟩ | ⟨-, hbetter⟩
  · have hmem := (mem_occupiedPrices h.inv.core).mpr (List.ne_nil_of_mem hp)
    rw [hempty] at hmem
    exact absurd hmem (Set.notMem_empty _)
  · rw [hprice]
    exact hbetter _ ((mem_occupiedPrices h.inv.core).mpr (List.ne_nil_of_mem hp))

/-- Orders outside the book fit. -/
theorem Refines.fits (h : Refines b Q n) (hout : ∀ x ∈ as, x.Outside b)
    (hcross : ∀ x ∈ as, ∀ y ∈ as, x.side = .buy → y.side ≠ .buy → x.price < y.price)
    (hroom : b.activeOrders + as.length ≤ cap) : Fits cap n as where
  pos x hx := (hout x hx).pos
  range x hx := (badPrice_limit _).mpr (hout x hx).range
  apart x hx r hr := by
    have hbest := h.not_better hr
    by_cases hb : x.side = .buy
    · have hlt : x.price.toNat < (b.best .asks).toNat :=
        UInt32.lt_iff_toNat_lt.mp ((hout x hx).buys hb)
      simp only [Side.book, hb, if_true, BookSide.opposite, BookSide.dir, Best.Better] at hbest
      simp only [NaiveBook.crosses, Side.book, hb, if_true]
      exact Bool.or_eq_false_iff.mpr ⟨by decide, decide_eq_false (by omega)⟩
    · have hlt : (b.best .bids).toNat < x.price.toNat :=
        UInt32.lt_iff_toNat_lt.mp ((hout x hx).sells hb)
      simp only [Side.book, hb, if_false, BookSide.opposite, BookSide.dir, Best.Better] at hbest
      simp only [NaiveBook.crosses, Side.book, hb, if_false]
      exact Bool.or_eq_false_iff.mpr ⟨by decide, decide_eq_false (by omega)⟩
  uncrossed x hx y hy hside := by
    by_cases hb : x.side = .buy <;> by_cases hb' : y.side = .buy <;>
      simp only [Side.book, hb, hb', if_true, if_false, BookSide.opposite, reduceCtorEq] at hside
    · have hlt := UInt32.lt_iff_toNat_lt.mp (hcross x hx y hy hb hb')
      simp only [NaiveBook.crosses, Side.book, hb, if_true]
      exact Bool.or_eq_false_iff.mpr ⟨by decide, decide_eq_false (by omega)⟩
    · have hlt := UInt32.lt_iff_toNat_lt.mp (hcross y hy x hx hb' hb)
      simp only [NaiveBook.crosses, Side.book, hb, if_false]
      exact Bool.or_eq_false_iff.mpr ⟨by decide, decide_eq_false (by omega)⟩
  room := by rwa [size_eq h]

end Loading

/-- **In which sequence a book is loaded does not matter** but at each price: after every run in
which no incoming order shares a slot of the table with a resting one, let limit orders come, of
positive quantities and with prices in range, that cross neither the book nor each other and find
room in the pool, and then any other calls. Coming in another sequence that is the same at each
price of each side, the orders are accepted as well, and from then on every call returns the same,
makes the same fills and leaves the same orders, by priority. -/
theorem loading_order {cs : List Call} {as as' : List Quote} {ds : List Call}
    (hcs : NaiveBook.new.AllUnshared cap (cs ++ (as.map Quote.call ++ ds))) {b : OrderBook cap}
    {rs : List (Option Bool)} (hrun : (OrderBook.new cap).run cs = some (b, rs))
    (hout : ∀ x ∈ as, x.Outside b)
    (hcross : ∀ x ∈ as, ∀ y ∈ as, x.side = .buy → y.side ≠ .buy → x.price < y.price)
    (hroom : b.activeOrders + as.length ≤ cap)
    (hsame : ∀ s p, as'.filter (Quote.At s p) = as.filter (Quote.At s p)) :
    ∃ b₁ b₂ rs', b.run (as.map Quote.call ++ ds) = some (b₁, as.map (fun _ => some true) ++ rs') ∧
      b.run (as'.map Quote.call ++ ds) = some (b₂, as'.map (fun _ => some true) ++ rs') ∧
      b₂.fills = b₁.fills ∧ b₂.matchCount = b₁.matchCount ∧
      ∀ s, b₂.views (b₂.queue.resting s) = b₁.views (b₁.queue.resting s) := by
  obtain ⟨hcs, hrest⟩ := NaiveBook.allUnshared_append.mp hcs
  obtain ⟨b', Q, hrun', h⟩ := run_refines (new_refines cap) cs hcs
  obtain rfl : b = b' := congrArg Prod.fst (Option.some.inj (hrun.symm.trans hrun'))
  obtain ⟨has, hds⟩ := NaiveBook.allUnshared_append.mp hrest
  have hfits := h.fits hout hcross hroom
  have hperm := perm_of_same hsame
  have hfits' := hfits.perm hperm
  have has' := hfits.unshared_perm hperm has
  -- the two loaded books are alike, and stay so
  obtain ⟨b₁, Q₁, -, h₁⟩ := run_refines h _ has
  rw [hfits.run] at h₁ hds
  obtain ⟨hrs, ha, hun⟩ :=
    run_renamed h₁ (loaded_renamed _ hsame) (Renaming.same_faithful _)
    (Set.subset_univ (pricesOf ds)) hds
  rw [Renaming.same_calls] at hrs ha hun
  -- the runs of the two
  obtain ⟨c₁, R₁, hrun₁, hc₁⟩ :=
    run_refines h _ (NaiveBook.allUnshared_append.mpr ⟨has, by rw [hfits.run]; exact hds⟩)
  obtain ⟨c₂, R₂, hrun₂, hc₂⟩ :=
    run_refines h _ (NaiveBook.allUnshared_append.mpr ⟨has', by rw [hfits'.run]; exact hun⟩)
  rw [NaiveBook.run_append, hfits.run] at hrun₁ hc₁
  rw [NaiveBook.run_append, hfits'.run] at hrun₂ hc₂
  refine ⟨c₁, c₂, _, hrun₁, by rw [hrun₂, hrs], ?_, ?_, fun s => ?_⟩
  · have hf : Renaming.same.fill = fun f => f := rfl
    rw [hc₂.fills, ha.fills, hc₁.fills, hf, List.map_id']
  · rw [hc₂.matchCount, ha.matched, hc₁.matchCount]
  · have hr : Renaming.same.resting = fun r => r := rfl
    rw [resting_renamed hc₁ hc₂ ha (Renaming.same_faithful _) s, hr, List.map_id']

/-- A seller at 105, then a buyer and two sellers in two sequences, and a buyer who takes the
cheapest of them. -/
theorem loading_order_three :
    let cs : List Call := [.addOrder 1 7 .sell .limit 105 5 0]
    let as : List Quote :=
      [⟨2, 7, .buy, 100, 5, 0⟩, ⟨3, 7, .sell, 103, 4, 0⟩, ⟨4, 8, .sell, 104, 4, 0⟩]
    let as' : List Quote :=
      [⟨4, 8, .sell, 104, 4, 0⟩, ⟨2, 7, .buy, 100, 5, 0⟩, ⟨3, 7, .sell, 103, 4, 0⟩]
    let ds : List Call := [.addOrder 5 9 .buy .market 0 6 1, .cancelOrder 4]
    ∃ (b : OrderBook 6) (rs : _) (b₁ : _) (b₂ : _) (rs' : _),
      (OrderBook.new 6).run cs = some (b, rs) ∧
      b.run (as.map Quote.call ++ ds) = some (b₁, as.map (fun _ => some true) ++ rs') ∧
      b.run (as'.map Quote.call ++ ds) = some (b₂, as'.map (fun _ => some true) ++ rs') ∧
      b₂.fills = b₁.fills ∧ b₂.matchCount = b₁.matchCount ∧
      ∀ s, b₂.views (b₂.queue.resting s) = b₁.views (b₁.queue.resting s) := by
  intro cs as as' ds
  obtain ⟨b, rs, -, hrun, -⟩ := run_inv (new_inv 6) (by decide) cs
  have heval : ((OrderBook.new 6).run cs).map
      (fun x => (x.1.bestBid, x.1.bestAsk, x.1.activeOrders)) = some (0, 105, 1) := by
    decide +kernel
  rw [hrun] at heval
  obtain ⟨hbid, hask, hactive⟩ : b.bestBid = 0 ∧ b.bestAsk = 105 ∧ b.activeOrders = 1 := by
    simpa using heval
  have hbuy : ¬ Side.sell = .buy := by decide
  have hsame : ∀ s p, as'.filter (Quote.At s p) = as.filter (Quote.At s p) := by
    intro s p
    by_cases h₁ : 103 = p
    · subst h₁
      cases s <;> decide
    by_cases h₂ : 104 = p
    · subst h₂
      cases s <;> decide
    cases s <;> simp [as, as', List.filter_cons, Quote.At, Side.book, hbuy, h₁, h₂]
  have hout : ∀ x ∈ as, x.Outside b := by
    simp only [as, List.mem_cons, List.not_mem_nil, or_false]
    rintro x (rfl | rfl | rfl) <;>
      exact ⟨by decide, by decide, fun _ => by rw [hask]; decide, fun _ => by rw [hbid]; decide⟩
  have hcross : ∀ x ∈ as, ∀ y ∈ as, x.side = .buy → y.side ≠ .buy → x.price < y.price := by decide
  exact ⟨b, rs, (loading_order (by decide) hrun hout hcross (by rw [hactive]; decide) hsame).imp
    fun _ h => h.imp fun _ h => h.imp fun _ h => ⟨hrun, h⟩⟩

end TradeFeed
