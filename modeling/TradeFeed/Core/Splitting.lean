import Mathlib.Algebra.Order.Ring.Nat
import TradeFeed.Core.MarketLimit

/-!
# Splitting an order

Shares that come in as several orders of one side, type and price do what they do as one:
`split_orders`. What is the same, share by share, is with whom they trade and at what price, what is
left of the opposite side, and how much rests at each price. Which orders the shares belong to is
not, and neither is how many fills there are.

What orders do, taken together, depends on the number of their shares alone (`Absorbed`), which adds
up when one comes after the other (`Absorbed.trans`).
-/

namespace TradeFeed

open Lib Lib.PriceTime Tradable
open OrderBook (badPrice incoming)

variable {cap : ℕ}

/-- The order that an incoming order of the side met in a fill, with its client and its price. -/
def Fill.met (side : Side) (f : Fill) : OrderId × ClientId × Price :=
  if side = .buy then (f.askId, f.askClient, f.price) else (f.bidId, f.bidClient, f.price)

/-- The fills of incoming orders of a side, share by share. -/
def sharesOf (side : Side) (fs : List Fill) : List (OrderId × ClientId × Price) :=
  fs.flatMap fun f => List.replicate f.quantity.toNat (f.met side)

/-- One of the orders as which some shares come in. -/
structure Part where
  /-- Its id. -/
  id : OrderId
  /-- Its client. -/
  client : ClientId
  /-- Its quantity. -/
  qty : Quantity
  /-- Its timestamp. -/
  ts : Timestamp

/-- How many shares there are. -/
def Part.total (ps : List Part) : ℕ := (ps.map fun p => p.qty.toNat).sum

/-- The calls that submit them. -/
def Part.calls (side : Side) (type : OrderType) (price : Price) (ps : List Part) : List Call :=
  ps.map fun p => .addOrder p.id p.client side type price p.qty p.ts

/-- What the market sees of a book. -/
structure SameDepth (b b' : OrderBook cap) : Prop where
  /-- The best bid. -/
  bestBid : b'.bestBid = b.bestBid
  /-- The best ask. -/
  bestAsk : b'.bestAsk = b.bestAsk
  /-- The shares bid for at each price. -/
  bidQtyAt : ∀ p, b'.bidQtyAt p = b.bidQtyAt p
  /-- The shares on offer at each price. -/
  askQtyAt : ∀ p, b'.askQtyAt p = b.askQtyAt p

/-- The matching of so many shares. -/
def tradingOf (b : OrderBook cap) (Q : Queues cap) (side : Side) (type : OrderType) (price : Price)
    (n : ℕ) : Matched (Entry cap) :=
  sweep (fun p => accepts side type price (UInt32.ofNat p)) n
    (b.entries (Q.resting side.book.opposite))

/-- With whom a trade is. -/
def Entry.party (e : Entry cap) : OrderId × ClientId × Price := (e.2.id, e.2.clientId, e.2.price)

/-- The book `b'` is what `n` shares of one side, type and price make of the book `b`, with the
fills `fs`. -/
structure Absorbed (b b' : OrderBook cap) (Q Q' : Queues cap) (side : Side) (type : OrderType)
    (price : Price) (n : ℕ) (fs : List Fill) : Prop where
  /-- The book is in order. -/
  inv : Inv b' Q'
  /-- The opposite side is swept. -/
  swept : b'.entries (Q'.resting side.book.opposite) = (tradingOf b Q side type price n).rest
  /-- What is left of limit orders rests at their price. -/
  joined : ∀ i, queueQty b'.pool.arena (Q' side.book i) = queueQty b.pool.arena (Q side.book i) +
    if type = .limit ∧ price = priceAt i then (tradingOf b Q side type price n).left else 0
  /-- The fills. -/
  fills : b'.fills = b.fills ++ fs
  /-- The trades, share by share. -/
  shares : sharesOf side fs = shares Entry.party (tradingOf b Q side type price n).trades

section Absorbed

variable {b b₁ b' : OrderBook cap} {Q Q₁ Q' : Queues cap} {o : Fin cap} {new : Order cap}
  {side : Side}
  {type : OrderType} {price : Price} {m n : ℕ} {fs fs' : List Fill}

theorem fill_fill (e : Entry cap) (q q' : ℕ) : fill (fill e q) q' = fill e (q + q') := by
  show (e.1, (e.2.fill (UInt32.ofNat q)).fill (UInt32.ofNat q')) =
    (e.1, e.2.fill (UInt32.ofNat (q + q')))
  rw [UInt32.ofNat_add]
  simp [Order.fill, UInt32.add_assoc]

theorem tradingOf_add (b : OrderBook cap) (Q : Queues cap) (side : Side) (type : OrderType)
    (price : Price) (m n : ℕ) :
    let s := sweep (fun p => accepts side type price (UInt32.ofNat p)) n
      (tradingOf b Q side type price m).rest
    (tradingOf b Q side type price (m + n)).rest = s.rest ∧
      (tradingOf b Q side type price (m + n)).left =
      (tradingOf b Q side type price m).left + s.left ∧
      Lib.PriceTime.shares Entry.party (tradingOf b Q side type price (m + n)).trades =
        Lib.PriceTime.shares Entry.party (tradingOf b Q side type price m).trades ++
          Lib.PriceTime.shares Entry.party s.trades :=
  sweep_add fill_fill (fun _ _ => rfl) m n _

/-- No shares do nothing. -/
theorem Absorbed.refl (h : Inv b Q) (side : Side) (type : OrderType) (price : Price) :
    Absorbed b b Q Q side type price 0 [] where
  inv := h
  swept := by rw [tradingOf, sweep_zero]
  joined i := by rw [tradingOf, sweep_zero, ite_self, Nat.add_zero]
  fills := (List.append_nil _).symm
  shares := by rw [tradingOf, sweep_zero]; rfl

/-- **Shares that come after others** do what all of them do together. -/
theorem Absorbed.trans (h : Absorbed b b₁ Q Q₁ side type price m fs)
    (h' : Absorbed b₁ b' Q₁ Q' side type price n fs') :
    Absorbed b b' Q Q' side type price (m + n) (fs ++ fs') := by
  obtain ⟨hrest, hleft, hshares⟩ := tradingOf_add b Q side type price m n
  have hsecond : tradingOf b₁ Q₁ side type price n =
      sweep (fun p => accepts side type price (UInt32.ofNat p)) n
        (tradingOf b Q side type price m).rest := by
    rw [tradingOf, h.swept]
  refine ⟨h'.inv, ?_, fun i => ?_, ?_, ?_⟩
  · rw [h'.swept, hsecond, hrest]
  · rw [h'.joined, h.joined, hsecond, hleft]
    split_ifs <;> omega
  · rw [h'.fills, h.fills, List.append_assoc]
  · rw [sharesOf, List.flatMap_append, hshares, ← hsecond, ← h.shares, ← h'.shares]
    rfl

/-- The shares of the fills are those of the trades. -/
theorem sharesOf_fillsOf (b : OrderBook cap) (Q : Queues cap) (new : Order cap) :
    sharesOf new.side (fillsOf b Q new) = Lib.PriceTime.shares Entry.party
      (trading b Q new).trades := by
  have hle : ∀ t ∈ (trading b Q new).trades, t.2 ≤ remaining t.1 :=
    fun t ht => (mem_trades _ _ ht).2.1
  rw [sharesOf, fillsOf, List.flatMap_map, Lib.PriceTime.shares]
  apply List.flatMap_congr
  intro t ht
  rw [quantity_fillOf (hle t ht)]
  by_cases hb : new.side = .buy <;> simp [Fill.met, fillOf, OrderBook.mkFill, hb, Entry.party]

/-- What an accepted order does depends on its side, type, price and quantity. -/
theorem Accepted.absorbed (ha : Accepted b b' Q Q' o new) :
    Absorbed b b' Q Q' new.side new.type new.price new.quantity.toNat (fillsOf b Q new) where
  inv := ha.inv
  swept := ha.swept
  joined i := by
    have hqty : ∀ (b : OrderBook cap) q,
        queueQty b.pool.arena q = ((b.entries q).map remaining).sum := fun b q => by
      rw [OrderBook.entries, List.map_map]
      rfl
    have hleft : remaining ((o, remainder b Q new) : Entry cap) = (trading b Q new).left :=
      remainder_remaining b Q new
    rw [hqty, hqty, ha.joined, List.map_append, List.sum_append]
    congr 1
    change _ = if new.type = .limit ∧ new.price = priceAt i then (trading b Q new).left else 0
    by_cases hl : (trading b Q new).left = 0
    · rw [if_neg fun e => e.1.1 hl, hl, ite_self]
      rfl
    · by_cases hi : new.type = .limit ∧ new.price = priceAt i
      · rw [if_pos ⟨⟨hl, hi.1⟩, hi.2⟩, if_pos hi, List.map_singleton, List.sum_singleton, hleft]
      · rw [if_neg fun e => hi ⟨e.1.2, e.2⟩, if_neg hi]
        rfl
  fills := ha.fills
  shares := sharesOf_fillsOf b Q new

/-- The places that are free, and those that are taken. -/
theorem available_add (h : Core b Q []) :
    b.pool.available + (Q.resting .bids ++ Q.resting .asks).length = cap := by
  have hlen := (arena_eq h).length_eq
  rwa [List.length_append, List.length_finRange] at hlen

/-- An accepted order takes one place in the pool at most. -/
theorem Accepted.available_le (h : Inv b Q) (ha : Accepted b b' Q Q' o new) :
    b.pool.available ≤ b'.pool.available + 1 := by
  have hnd : (Q'.resting .bids ++ Q'.resting .asks).Nodup := by
    have hall := (arena_eq ha.inv.core).nodup_iff.mpr (List.nodup_finRange cap)
    exact (List.nodup_append.mp hall).2.1
  have hmem : ∀ s, ∀ p ∈ Q'.resting s, p = o ∨ p ∈ Q.resting s := fun s p hp => by
    obtain ⟨i, hp⟩ := Queues.mem_resting.mp hp
    rcases ha.mem h hp with ⟨hp, -⟩ | ⟨rfl, -⟩
    · exact Or.inr (Queues.mem_resting.mpr ⟨i, hp⟩)
    · exact Or.inl rfl
  have hsub : Q'.resting .bids ++ Q'.resting .asks ⊆ o :: (Q.resting .bids ++ Q.resting .asks) :=
      fun p hp => by
    rw [List.mem_cons, List.mem_append]
    exact (List.mem_append.mp hp).elim (fun hp => (hmem .bids p hp).imp_right Or.inl) fun hp =>
      (hmem .asks p hp).imp_right Or.inr
  have hle := (hnd.subperm hsub).length_le
  rw [List.length_cons] at hle
  have hsum := available_add h.core
  have hsum' := available_add ha.inv.core
  omega

/-- **A run of orders** of one side, type and price, with room for each of them. -/
theorem run_absorbed (h : Inv b Q) (hcap : cap < 2 ^ 32) (hbad : badPrice type price = false)
    (side : Side) (ps : List Part) (hps : ps.length ≤ b.pool.available) :
    ∃ b' Q' fs, b.run (Part.calls side type price ps) = some (b', ps.map fun _ => some true) ∧
      Absorbed b b' Q Q' side type price (Part.total ps) fs := by
  induction ps generalizing b Q with
  | nil => exact ⟨b, Q, [], rfl, .refl h side type price⟩
  | cons p ps ih =>
    have hav : b.pool.available ≠ 0 := by
      rw [List.length_cons] at hps
      omega
    have hroom : Room Q := room_of_cap h.core (fun e => hav (List.length_eq_zero_iff.mpr e)) hcap
    obtain ⟨b₁, Q₁, o, hrun, ha⟩ :=
      addOrder_accepted h hroom p.id p.client side type price p.qty p.ts hav hbad
    have hps' : ps.length ≤ b₁.pool.available := by
      have hle := ha.available_le h
      rw [List.length_cons] at hps
      omega
    obtain ⟨b', Q', fs, hrest, hab⟩ := ih ha.inv hps'
    refine ⟨b', Q', _, ?_, ha.absorbed.trans hab⟩
    have hcall : b.call (.addOrder p.id p.client side type price p.qty p.ts) =
        some (b₁, some true) := by
      simp [OrderBook.call, hrun]
    rw [Part.calls] at hrest
    simp [Part.calls, OrderBook.run, hcall, hrest]

/-! ### Two ways to split -/

/-- The shares that rest at each price determine which levels are occupied, and with them the best
price. -/
theorem best_of_quantities (h : Inv b Q) (h' : Inv b' Q') {s : BookSide}
    (hq : ∀ i, queueQty b'.pool.arena (Q' s i) = queueQty b.pool.arena (Q s i)) :
    b'.best s = b.best s := by
  have hoccupied :
      ∀ {b : OrderBook cap} {Q : Queues cap}, Inv b Q →
      ∀ i, Q s i = [] ↔ queueQty b.pool.arena (Q s i) = 0 := by
    intro b Q h i
    refine ⟨fun he => by rw [he]; rfl, fun h0 => List.eq_nil_iff_forall_not_mem.mpr fun p hp => ?_⟩
    have hpos := remaining_pos h.live hp
    have hle : (b.order p).remaining.toNat ≤ queueQty b.pool.arena (Q s i) :=
      List.single_le_sum (fun _ _ => Nat.zero_le _) _ (List.mem_map.mpr ⟨p, hp, rfl⟩)
    omega
  have hsame : ∀ i, Q' s i = [] ↔ Q s i = [] := fun i => by rw [hoccupied h', hq, ← hoccupied h]
  rcases (h.indexed s).best with ⟨hnil, hbest⟩ | ⟨i, hi, hbest, hbetter⟩ <;>
    rcases (h'.indexed s).best with ⟨hnil', hbest'⟩ | ⟨j, hj, hbest', hbetter'⟩
  · rw [hbest, hbest']
  · exact absurd ((hsame j).mpr (hnil j)) hj
  · exact absurd ((hsame i).mp (hnil' i)) hi
  · have hij : ¬ s.dir.Better i.val j.val := fun hlt => hi ((hsame i).mp (hbetter' i hlt))
    have hji : ¬ s.dir.Better j.val i.val := fun hlt => hj ((hsame j).mpr (hbetter j hlt))
    rw [hbest, hbest', Fin.ext (s.dir.eq_of_not_better hij hji)]

/-- They determine the total of each level too. -/
theorem levels_of_quantities (h : Inv b Q) (h' : Inv b' Q') {s : BookSide}
    (hq : ∀ i, queueQty b'.pool.arena (Q' s i) = queueQty b.pool.arena (Q s i))
    (i : Fin priceLevels) :
    (b'.levels s i).totalQty = (b.levels s i).totalQty := by
  apply UInt32.toNat_inj.mp
  rw [(h'.core.levels s i).total, (h.core.levels s i).total, hq]

theorem sameDepth (h : Inv b Q) (h' : Inv b' Q')
    (hq : ∀ s i, queueQty b'.pool.arena (Q' s i) = queueQty b.pool.arena (Q s i)) :
    SameDepth b b' where
  bestBid := best_of_quantities h h' (hq .bids)
  bestAsk := best_of_quantities h h' (hq .asks)
  bidQtyAt p := by
    rw [OrderBook.bidQtyAt, OrderBook.bidQtyAt]
    exact congrArg _ (funext fun i => by rw [levels_of_quantities h h' (hq .bids)])
  askQtyAt p := by
    rw [OrderBook.askQtyAt, OrderBook.askQtyAt]
    exact congrArg _ (funext fun i => by rw [levels_of_quantities h h' (hq .asks)])

variable {b₂ : OrderBook cap} {Q₂ : Queues cap}

/-- What the same number of shares makes of the opposite side. -/
theorem Absorbed.opposite (h₁ : Absorbed b b₁ Q Q₁ side type price n fs)
    (h₂ : Absorbed b b₂ Q Q₂ side type price n fs') :
    SameSide b₁ b₂ side.book.opposite := by
  refine sameSide h₁.inv h₂.inv fun i => ?_
  rw [← filter_entries h₂.inv.core, ← filter_entries h₁.inv.core, h₁.swept, h₂.swept]

/-- What the market sees afterwards. -/
theorem Absorbed.sameDepth (h₁ : Absorbed b b₁ Q Q₁ side type price n fs)
    (h₂ : Absorbed b b₂ Q Q₂ side type price n fs') : SameDepth b₁ b₂ := by
  refine TradeFeed.sameDepth h₁.inv h₂.inv fun s i => ?_
  rcases eq_or_eq_opposite side.book s with rfl | rfl
  · rw [h₁.joined, h₂.joined]
  · have hs := h₁.opposite h₂
    have hqueue : Q₂ side.book.opposite i = Q₁ side.book.opposite i := by
      rw [← h₂.inv.queue_eq, ← h₁.inv.queue_eq, hs.queue]
    rw [hqueue]
    refine queueQty_congr fun p hp => congrArg Order.bare (hs.orders i p ?_)
    rwa [h₁.inv.queue_eq]

end Absorbed

/-- **How shares are split into orders does not matter**: on every reachable book, for any two ways
to split the same number of shares into orders of one side, type and price, a limit price being in
range, with room in the pool for the orders of each, every order is accepted, the same shares are
traded one by one, the opposite sides are the same, and the market sees the same. -/
theorem split_orders (hcap : cap < 2 ^ 32) (cs : List Call) (side : Side) (type : OrderType)
    (price : Price) (hprice : type = .limit → minPrice ≤ price ∧ price ≤ maxPrice)
    (ps ps' : List Part) (htotal : Part.total ps' = Part.total ps) :
    ∃ b rs, (OrderBook.new cap).run cs = some (b, rs) ∧
      (ps.length ≤ b.pool.available → ps'.length ≤ b.pool.available →
        ∃ b₁ b₂ fs₁ fs₂,
        b.run (Part.calls side type price ps) = some (b₁, ps.map fun _ => some true) ∧
        b.run (Part.calls side type price ps') = some (b₂, ps'.map fun _ => some true) ∧
        b₁.fills = b.fills ++ fs₁ ∧ b₂.fills = b.fills ++ fs₂ ∧
        sharesOf side fs₂ = sharesOf side fs₁ ∧ SameSide b₁ b₂ side.book.opposite ∧
        SameDepth b₁ b₂) := by
  obtain ⟨b, rs, Q, hrun, h⟩ := run_inv (new_inv cap) hcap cs
  have hbad : badPrice type price = false := by
    by_cases hl : type = .limit
    · rw [hl, badPrice_limit]
      exact hprice hl
    · simp [badPrice, hl]
  refine ⟨b, rs, hrun, fun hps hps' => ?_⟩
  obtain ⟨b₁, Q₁, fs₁, hrun₁, h₁⟩ := run_absorbed h hcap hbad side ps hps
  obtain ⟨b₂, Q₂, fs₂, hrun₂, h₂⟩ := run_absorbed h hcap hbad side ps' hps'
  rw [htotal] at h₂
  exact ⟨b₁, b₂, fs₁, fs₂, hrun₁, hrun₂, h₁.fills, h₂.fills, h₂.shares.trans h₁.shares.symm,
    h₁.opposite h₂, h₁.sameDepth h₂⟩

/-- Eight shares as one order and as three, the second of which takes the last of one seller and the
first of the next. -/
theorem split_orders_three :
    ∃ b rs b₁ b₂ fs₁ fs₂,
      (OrderBook.new 6).run [.addOrder 1 7 .sell .limit 100 3 0,
        .addOrder 2 8 .sell .limit 101 3 1] = some (b, rs) ∧
      b.run (Part.calls .buy .limit 101 [⟨3, 9, 8, 2⟩]) = some (b₁, [some true]) ∧
      b.run (Part.calls .buy .limit 101 [⟨3, 9, 2, 2⟩, ⟨4, 9, 3, 3⟩, ⟨5, 9, 3, 4⟩]) =
        some (b₂, [some true, some true, some true]) ∧
      b₁.fills = b.fills ++ fs₁ ∧ b₂.fills = b.fills ++ fs₂ ∧
        sharesOf .buy fs₂ = sharesOf .buy fs₁ ∧
      SameSide b₁ b₂ .asks ∧ SameDepth b₁ b₂ := by
  obtain ⟨b, rs, hrun, h⟩ := @split_orders 6 (by decide)
    [.addOrder 1 7 .sell .limit 100 3 0, .addOrder 2 8 .sell .limit 101 3 1] .buy .limit 101
    (fun _ => by decide) [⟨3, 9, 8, 2⟩] [⟨3, 9, 2, 2⟩, ⟨4, 9, 3, 3⟩, ⟨5, 9, 3, 4⟩] (by decide)
  have hroom : ((OrderBook.new 6).run [.addOrder 1 7 .sell .limit 100 3 0,
    .addOrder 2 8 .sell .limit 101 3 1]).map
      (fun x => x.1.pool.available) = some 4 := by decide +kernel
  rw [hrun] at hroom
  have hav : b.pool.available = 4 := Option.some.inj hroom
  exact ⟨b, rs, (h (by rw [hav]; decide) (by rw [hav]; decide)).imp fun b₁ hb =>
      hb.imp fun b₂ hb => hb.imp fun fs₁ hf =>
    hf.imp fun fs₂ hf => ⟨hrun, hf⟩⟩

end TradeFeed
