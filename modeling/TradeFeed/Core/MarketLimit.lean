import TradeFeed.Core.Accounts
import TradeFeed.Core.Simulation

/-!
# Market orders and the most aggressive limit orders

`match_market` is `match_limit` without the comparison of prices. At the most aggressive
price the comparison always succeeds, so a limit order at that price does what a market order
does, until what is left of it is put on the book.

The loops of the two are followed side by side (`alike_asLimit`): all through, the book of the
limit order is that of the market order, with the order in hand called a limit order
(`asLimit`). What a side of a book looks like in memory depends on the orders that rest there
and on nothing else (`sameSide`), so a market order, which leaves the orders of its own side
alone, leaves all of that side alone.
-/

namespace TradeFeed

open Function (update)
open Lib Lib.PriceTime Tradable
open Lib.Machine (rel_some)
open OrderBook (badPrice incoming)

variable {cap : ℕ}

/-! ### The memory of a side -/

/-- The two books are the same on one side. -/
structure SameSide (b b' : OrderBook cap) (s : BookSide) : Prop where
  /-- The levels. -/
  levels : b'.levels s = b.levels s
  /-- The bitset. -/
  bits : b'.bits s = b.bits s
  /-- The best price. -/
  best : b'.best s = b.best s
  /-- The queues. -/
  queue : b'.queue s = b.queue s
  /-- The orders, with their links. -/
  orders : ∀ i, ∀ p ∈ b.queue s i, b'.order p = b.order p

section Side

variable {b b' : OrderBook cap} {Q Q' : Queues cap} {s : BookSide} {x : List (Fin cap)}

/-- Queues of the same orders are the same queues. -/
theorem queue_of_entries {q q' : List (Fin cap)} (h : b'.entries q' = b.entries q) :
    q' = q ∧ ∀ p ∈ q, (b'.order p).bare = (b.order p).bare := by
  have hfst : ∀ (b : OrderBook cap) q, (b.entries q).map Prod.fst = q := fun b q => by
    rw [OrderBook.entries, List.map_map]
    exact List.map_id q
  have hq : q' = q := by rw [← hfst b' q', h, hfst]
  subst hq
  refine ⟨rfl, fun p hp => ?_⟩
  exact congrArg Prod.snd (List.map_inj_left.mp h p hp)

/-- The orders that rest on a side determine the best price. -/
theorem BestOk.unique {p p' : Price} (h : BestOk s Q p) (h' : BestOk s Q' p') (hQ : Q' s = Q s) :
    p' = p := by
  apply UInt32.toNat_inj.mp
  apply s.dir.eq_of_not_better
  · exact h.not_better h' fun i o ho => by rwa [hQ] at ho
  · exact h'.not_better h fun i o ho => by rwa [hQ]

/-- **The orders that rest on a side determine all of it**: its levels, its bitset, its best
price and its links. -/
theorem sameSide (h : Inv b Q) (h' : Inv b' Q')
    (he : ∀ i, b'.entries (Q' s i) = b.entries (Q s i)) :
    SameSide b b' s := by
  have hQ : Q' s = Q s := funext fun i => (queue_of_entries (he i)).1
  have hlevel : ∀ i, b'.levels s i = b.levels s i ∧
      ∀ p ∈ Q s i, b'.order p = b.order p := fun i => by
    have hl := h'.core.levels s i
    rw [hQ] at hl
    exact (h.core.levels s i).unique hl (queue_of_entries (he i)).2
  refine ⟨funext fun i => (hlevel i).1, ?_, (h.indexed s).best.unique (h'.indexed s).best hQ, ?_,
    fun i p hp => ?_⟩
  · refine (h'.indexed s).tiers.ext (h.indexed s).tiers (Set.ext fun k => ?_)
    constructor
    · intro hk
      have hlt := PriceBitset.lt_of_mem_occupied hk
      have := ((h'.indexed s).occupied ⟨k, hlt⟩).mp hk
      rw [hQ] at this
      exact ((h.indexed s).occupied ⟨k, hlt⟩).mpr this
    · intro hk
      have hlt := PriceBitset.lt_of_mem_occupied hk
      have := ((h.indexed s).occupied ⟨k, hlt⟩).mp hk
      rw [← hQ] at this
      exact ((h'.indexed s).occupied ⟨k, hlt⟩).mpr this
  · rw [h'.queue_eq, h.queue_eq, hQ]
  · rw [h.queue_eq] at hp
    exact (hlevel i).2 p hp

end Side

/-! ### Side by side -/

/-- The most aggressive price of a side. -/
def mostAggressive (side : Side) : Price := if side = .buy then maxPrice else minPrice

/-- Call the order `o` a limit order at a price. -/
def asLimit (o : Fin cap) (price : Price) : Relabel cap where
  price p q := if p = o then price else q
  side _ s := s
  type p t := if p = o then .limit else t
  timestamp _ t := t

theorem asLimit_of_ne {o p : Fin cap} (h : p ≠ o) (price : Price) (w : Order cap) :
    (asLimit o price).order p w = w := by
  simp [asLimit, Relabel.order, h]

theorem asLimit_incoming (o : Fin cap) (id : OrderId) (client : ClientId) (side : Side)
    (price price' : Price) (qty : Quantity) (ts : Timestamp) :
    (asLimit o price').order o (incoming id client side .market price qty ts) =
      incoming id client side .limit price' qty ts := by
  simp [asLimit, Relabel.order, incoming]

/-- At the most aggressive price, `match_limit` goes on at the prices at which `match_market`
does. -/
theorem accepts_mostAggressive (side : Side) (price : Price) :
    accepts side .limit (mostAggressive side) = accepts side .market price := by
  have hlm : OrderType.limit ≠ .market := by decide
  funext best
  by_cases hb : side = .buy
  · simp [accepts, mostAggressive, hb, hlm]
  · -- every price but 0 is at least `MIN_PRICE`
    have hmin : best ≠ invalidPrice → minPrice ≤ best := fun hne => by
      rw [UInt32.le_iff_toNat_le, show minPrice.toNat = 1 from rfl]
      have : best.toNat ≠ 0 := fun e => hne (UInt32.toNat_inj.mp e)
      omega
    by_cases hne : best = invalidPrice
    · simp [accepts, mostAggressive, hb, hlm, hne]
    · simp [accepts, mostAggressive, hb, hlm, hne, hmin hne]

section Alike

/-- **The two kinds of matching are alike**: while one order is matched, calling it a limit
order makes no difference. -/
theorem alike_asLimit (o : Fin cap) (s : BookSide) (side : Side) {accept accept' : Price → Bool}
    (price : Price) (ha : accept' = accept) :
    Alike (fun b b' => Matching o b ∧ b' = b.relabel (asLimit o price)) o s s side side accept
      accept' id where
  filled h := by rw [h.2]; rfl
  accept h := by rw [h.2, ha]; rfl
  level h := by rw [h.2, Option.map_id]; rfl
  empty h i := by rw [h.2]; rfl
  front h i := by rw [h.2]; rfl
  round i p h hp _ _ := by
    refine ⟨h.1.round hp side, ?_⟩
    rw [h.2, id, OrderBook.tradeWith_relabel, OrderBook.retire_relabel]
    exact if_neg (h.1.front_ne hp)
  scan {b b'} i h _ := by
    rw [h.2, id, OrderBook.clearBit_scanBest_relabel]
    cases hs : (b.clearBit s i).scanBest s with
    | none => exact .none
    | some b₁ => exact .some ⟨h.1.scan hs, rfl⟩

end Alike

/-! ### The two orders -/

section Orders

variable {b : OrderBook cap} {Q : Queues cap} {o : Fin cap} {rest : List (Fin cap)}

/-- The two orders, taken from the same slot of the pool, are matched in the same way. -/
theorem matched_alike (h : Inv b Q) (hf : b.pool.freeList = o :: rest) (id : OrderId)
    (client : ClientId) (side : Side) (price : Price) (qty : Quantity) (ts : Timestamp) :
    let market := incoming id client side .market price qty ts
    let limit := incoming id client side .limit (mostAggressive side) qty ts
    ∃ b₁ Q₁ Q₂, (b.held o rest market).matchMarket o = some b₁ ∧ Met b b₁ Q Q₁ o market ∧
      (b.held o rest limit).matchLimit o = some (b₁.relabel (asLimit o (mostAggressive side))) ∧
      Met b (b₁.relabel (asLimit o (mostAggressive side))) Q Q₂ o limit := by
  intro market limit
  have hlm : OrderType.limit ≠ .market := by decide
  obtain ⟨b₁, Q₁, hrun, hmet⟩ := met_spec market h hf rfl
  obtain ⟨b₂, Q₂, hrun₂, hmet₂⟩ := met_spec limit h hf rfl
  have horder : ∀ new : Order cap, (b.held o rest new).order o = new :=
    fun new => by rw [Core.order_held, if_pos rfl]
  have hheld : b.held o rest limit = (b.held o rest market).relabel
      (asLimit o (mostAggressive side)) := by
    have hlimit : (asLimit o (mostAggressive side)).order o market = limit := asLimit_incoming ..
    rw [← hlimit]
    exact OrderBook.held_relabel b _ o rest market fun p hp => (asLimit_of_ne hp _ _).symm
  have halike := (alike_asLimit o side.book.opposite (if side = .buy then .buy else .sell)
    (mostAggressive side) (accepts_mostAggressive side price)).matchWhile (cap + 1)
    ⟨⟨Q, h.held hf rfl⟩, hheld⟩
  have hmarket : (b.held o rest market).matchWhile side.book.opposite
    (if side = .buy then .buy else .sell)
      (accepts side .market price) o (cap + 1) = some b₁ :=
    (match_eq _ (congrArg _ (horder market)) (congrArg _ (horder market)) .market).symm.trans hrun
  have hlimit : (b.held o rest limit).matchWhile side.book.opposite
    (if side = .buy then .buy else .sell)
      (accepts side .limit (mostAggressive side)) o (cap + 1) = some b₂ :=
    (match_eq _ (congrArg _ (horder limit)) (congrArg _ (horder limit)) .limit).symm.trans hrun₂
  rw [hmarket, hlimit] at halike
  obtain ⟨_, he, -, rfl⟩ := rel_some halike
  obtain rfl := Option.some.inj he
  exact ⟨b₁, Q₁, Q₂, hrun, hmet, (if_neg hlm).symm.trans hrun₂, hmet₂⟩

/-- They trade alike. -/
theorem trading_alike (b : OrderBook cap) (Q : Queues cap) (id : OrderId) (client : ClientId)
    (side : Side) (price : Price) (qty : Quantity) (ts : Timestamp) :
    trading b Q (incoming id client side .limit (mostAggressive side) qty ts) =
      trading b Q (incoming id client side .market price qty ts) :=
  congrArg (fun accept : Price → Bool =>
    sweep (fun p => accept (UInt32.ofNat p)) qty.toNat (b.entries (Q.resting side.book.opposite)))
    (accepts_mostAggressive side price)

end Orders

/-- What is left of a limit order rests at the end of a queue, in the slot `o`; what is left
of the market order is discarded, and that slot is free. -/
structure Remainder (bm bl : OrderBook cap) (id : OrderId) (side : Side) (qty : Quantity)
    (fs : List Fill) (o : Fin cap) :
    Prop where
  /-- Something is left. -/
  pos : 0 < (bl.order o).remaining.toNat
  /-- What the fills did not take. -/
  left : (fs.map fun f => f.quantity.toNat).sum + (bl.order o).remaining.toNat = qty.toNat
  /-- The order has the id. -/
  named : (bl.order o).id = id
  /-- It stands at the end of the queue at its price, and no other queue differs. -/
  queue : ∀ i, bl.entries (bl.queue side.book i) =
    bm.entries (bm.queue side.book i) ++
      if mostAggressive side = priceAt i then [bl.entry o] else []
  /-- Its slot of the pool. -/
  free : bm.pool.freeList = o :: bl.pool.freeList
  /-- Its slot of the table. -/
  table : bm.orderTable = update bl.orderTable (slot id) none

/-- The books `bm` and `bl` that a market order and a limit order make of the book `b`, with
the fills `fs`. -/
structure Agree (b bm bl : OrderBook cap) (id : OrderId) (side : Side) (qty : Quantity)
    (fs : List Fill) : Prop where
  /-- The same fills are appended. -/
  fills : bm.fills = b.fills ++ fs ∧ bl.fills = b.fills ++ fs
  /-- The number of matches goes up equally. -/
  matchCount : bm.matchCount = b.matchCount + UInt64.ofNat fs.length ∧ bl.matchCount = bm.matchCount
  /-- The same searches are made. -/
  scanCalls : bl.scanCalls = bm.scanCalls
  /-- The opposite sides are the same. -/
  opposite : SameSide bm bl side.book.opposite
  /-- The market order leaves its own side alone. -/
  untouched : SameSide b bm side.book
  /-- Either all is filled, and nothing differs, or the limit order's remainder does. -/
  rests : ((fs.map fun f => f.quantity.toNat).sum = qty.toNat ∧ SameSide bm bl side.book ∧
      bl.orderTable = bm.orderTable ∧ bl.pool.freeList = bm.pool.freeList) ∨
    ∃ o, Remainder bm bl id side qty fs o

section Agree

variable {b bm bl : OrderBook cap} {Q Qm Ql : Queues cap} {o : Fin cap} {id : OrderId}
  {client : ClientId} {side : Side}
  {price : Price} {qty : Quantity} {ts : Timestamp}

theorem not_rests_market : ¬ Rests b Q (incoming id client side .market price qty ts) := fun hr =>
  absurd hr.2 (by decide : OrderType.market ≠ .limit)

theorem badPrice_mostAggressive (side : Side) : badPrice .limit (mostAggressive side) = false := by
  unfold mostAggressive
  split_ifs <;> decide

/-- An order that does not rest leaves its own side alone. -/
theorem own_entries {b' : OrderBook cap} {Q' : Queues cap} {new : Order cap}
    (ha : Accepted b b' Q Q' o new) (hne : ¬ Rests b Q new) (i : Fin priceLevels) :
    b'.entries (Q' new.side.book i) = b.entries (Q new.side.book i) := by
  rw [ha.joined, if_neg fun e => hne e.1, List.append_nil]

/-- After the two orders the opposite sides are the same. -/
theorem sameSide_opposite (hm : Accepted b bm Q Qm o (incoming id client side .market price qty ts))
    (hl : Accepted b bl Q Ql o (incoming id client side .limit (mostAggressive side) qty ts)) :
    SameSide bm bl side.book.opposite := by
  have hswept : bl.entries (Ql.resting side.book.opposite) =
      bm.entries (Qm.resting side.book.opposite) := by
    have hl' := hl.swept
    rw [trading_alike b Q id client side price qty ts, ← hm.swept] at hl'
    exact hl'
  apply sameSide hm.inv hl.inv
  intro i
  rw [← filter_entries hl.inv.core, ← filter_entries hm.inv.core, hswept]

/-- The market order's own side is as it was. -/
theorem sameSide_own (h : Inv b Q)
    (hm : Accepted b bm Q Qm o (incoming id client side .market price qty ts)) :
    SameSide b bm side.book :=
  sameSide h hm.inv (own_entries hm not_rests_market)

/-- The entry of the limit order, if it rests. -/
theorem entry_rests (hl : Accepted b bl Q Ql o (incoming id client side .limit price qty ts))
    (hr : Rests b Q (incoming id client side .limit price qty ts)) {i : Fin priceLevels}
    (hi : price = priceAt i) :
    bl.entry o = (o, remainder b Q (incoming id client side .limit price qty ts)) := by
  have hmem : (o, remainder b Q (incoming id client side .limit price qty ts)) ∈
      bl.entries (Ql side.book i) := by
    have hj := hl.joined i
    rw [if_pos ⟨hr, hi⟩] at hj
    have hj : bl.entries (Ql side.book i) = _ := hj
    simp [hj]
  obtain ⟨p, -, hp⟩ := List.mem_map.mp hmem
  obtain rfl : p = o := congrArg Prod.fst hp
  exact hp

/-- What is left of the limit order, if it rests. -/
theorem remainder_rests (hm : Accepted b bm Q Qm o (incoming id client side .market price qty ts))
    (hl : Accepted b bl Q Ql o (incoming id client side .limit (mostAggressive side) qty ts))
    (hr : Rests b Q (incoming id client side .limit (mostAggressive side) qty ts))
    {i : Fin priceLevels} (hi : mostAggressive side = priceAt i)
    (hfree : bm.pool.freeList = o :: bl.pool.freeList)
    (htable : bm.orderTable = update bl.orderTable (slot id) none) :
    Remainder bm bl id side qty (fillsOf b Q (incoming id client side .market price qty ts)) o := by
  have hentry := entry_rests hl hr hi
  have hbare : (bl.order o).bare =
      remainder b Q (incoming id client side .limit (mostAggressive side) qty ts) :=
    congrArg Prod.snd hentry
  have hleft : (bl.order o).remaining.toNat =
      (trading b Q (incoming id client side .market price qty ts)).left := by
    rw [← trading_alike, ← remainder_remaining, ← hbare]
    rfl
  refine ⟨?_, ?_, ?_, fun j => ?_, hfree, htable⟩
  · rw [hleft, ← trading_alike]
    exact Nat.pos_of_ne_zero hr.1
  · rw [hleft]
    exact sum_fillsOf b Q (incoming id client side .market price qty ts)
  · show (bl.order o).bare.id = id
    rw [hbare]
    rfl
  · have hjm : bm.entries (Qm side.book j) = b.entries (Q side.book j) :=
      own_entries hm not_rests_market j
    have hjl := hl.joined j
    have hif : (if Rests b Q (incoming id client side .limit (mostAggressive side) qty ts) ∧
        mostAggressive side = priceAt j then
          [(o, remainder b Q (incoming id client side .limit (mostAggressive side) qty ts))]
        else []) =
        if mostAggressive side = priceAt j then [bl.entry o] else [] := by
      rw [hentry]
      simp only [hr, true_and]
    rw [hl.inv.queue_eq, hm.inv.queue_eq, hjm, ← hif]
    exact hjl

/-- They have the same fills. -/
theorem fillsOf_alike (b : OrderBook cap) (Q : Queues cap) (id : OrderId) (client : ClientId)
    (side : Side) (price : Price) (qty : Quantity) (ts : Timestamp) :
    fillsOf b Q (incoming id client side .limit (mostAggressive side) qty ts) =
      fillsOf b Q (incoming id client side .market price qty ts) := by
  rw [fillsOf, trading_alike b Q id client side price qty ts]
  rfl

/-- A limit order at the most aggressive price that does not rest is filled. -/
theorem filled_of_not_rests
    (hr : ¬ Rests b Q (incoming id client side .limit (mostAggressive side) qty ts)) :
    ((fillsOf b Q (incoming id client side .market price qty ts)).map fun f =>
      f.quantity.toNat).sum = qty.toNat := by
  have hleft : (trading b Q (incoming id client side .market price qty ts)).left = 0 := by
    rw [← trading_alike b Q id client side price qty ts]
    by_contra h0
    exact hr ⟨h0, rfl⟩
  have hsum := sum_fillsOf b Q (incoming id client side .market price qty ts)
  rw [hleft] at hsum
  exact hsum

/-- Two accepted orders agree once the searches and what is left of them do. -/
theorem agree_of_accepted (h : Inv b Q)
    (hm : Accepted b bm Q Qm o (incoming id client side .market price qty ts))
    (hl : Accepted b bl Q Ql o (incoming id client side .limit (mostAggressive side) qty ts))
    (hscan : bl.scanCalls = bm.scanCalls)
    (hrests : (((fillsOf b Q (incoming id client side .market price qty ts)).map fun f =>
      f.quantity.toNat).sum = qty.toNat ∧ SameSide bm bl side.book ∧ bl.orderTable = bm.orderTable ∧
      bl.pool.freeList = bm.pool.freeList) ∨
      ∃ o, Remainder bm bl id side qty
        (fillsOf b Q (incoming id client side .market price qty ts)) o) :
    Agree b bm bl id side qty (fillsOf b Q (incoming id client side .market price qty ts)) where
  fills := ⟨hm.fills, fillsOf_alike b Q id client side price qty ts ▸ hl.fills⟩
  matchCount := by
    constructor
    · rw [hm.matchCount, fillsOf, List.length_map]
    · rw [hm.matchCount, hl.matchCount, trading_alike b Q id client side price qty ts]
  scanCalls := hscan
  opposite := sameSide_opposite hm hl
  untouched := sameSide_own h hm
  rests := hrests

/-- **The two orders agree** on a book in order. -/
theorem agree (h : Inv b Q) (hroom : Room Q) (hav : b.pool.available ≠ 0) (id : OrderId)
    (client : ClientId) (side : Side) (price : Price) (qty : Quantity) (ts : Timestamp) :
    ∃ bm bl fs, b.addOrder id client side .market price qty ts = some (bm, true) ∧
      b.addOrder id client side .limit (mostAggressive side) qty ts = some (bl, true) ∧
      Agree b bm bl id side qty fs := by
  obtain ⟨o, rest, hf⟩ := List.exists_cons_of_ne_nil (fun e => hav (List.length_eq_zero_iff.mpr e))
  obtain ⟨b₁, Q₁, Q₂, hrun, hmet, hrun₂, hmet₂⟩ := matched_alike h hf id client side price qty ts
  set market : Order cap := incoming id client side .market price qty ts
  set limit : Order cap := incoming id client side .limit (mostAggressive side) qty ts
  set r : Relabel cap := asLimit o (mostAggressive side)
  have hlm : OrderType.limit ≠ .market := by decide
  have hml : OrderType.market ≠ .limit := by decide
  have hne : ¬ Rests b Q market := not_rests_market
  have hbad := badPrice_mostAggressive side
  obtain ⟨i, hi⟩ := exists_level_of_limit hbad rfl
  -- the market order is freed
  have hsettle : b₁.settle side .market price o = _ := hmet.settle_eq
  have hmarket : b.addOrder id client side .market price qty ts =
      some ((b₁.unreg o).deallocate o, true) := by
    rw [OrderBook.addOrder_eq hf id client side qty ts (by simp [badPrice, hml]), if_pos rfl, hrun,
      Option.bind_some, hsettle, if_neg hne]
  have hm := hmet.done h hne
  have hid : (b₁.order o).id = id := by rw [hmet.order]; rfl
  have htable : ((b₁.unreg o).deallocate o).orderTable = update b₁.orderTable (slot id) none := by
    rw [← hid]
    rfl
  -- the limit order is freed, or rests
  have hsettle₂ : (b₁.relabel r).settle side .limit (mostAggressive side) o = _ := hmet₂.settle_eq
  have hlimit : b.addOrder id client side .limit (mostAggressive side) qty ts =
      if Rests b Q limit then
        ((b₁.relabel r).rest side.book (mostAggressive side) o).map fun b => (b, true)
      else some (((b₁.relabel r).unreg o).deallocate o, true) := by
    rw [OrderBook.addOrder_eq hf id client side qty ts hbad, if_neg hlm, hrun₂,
      Option.bind_some, hsettle₂]
    rfl
  by_cases hr : Rests b Q limit
  · obtain ⟨bl, hrest, hl⟩ := hmet₂.rests h hr rfl hi hroom
    obtain ⟨bits, hspec, -⟩ := rest_spec hmet₂.core (hmet₂.indexed side.book) i
    rw [← hi] at hspec
    have hbl := Option.some.inj (hrest.symm.trans hspec)
    have hrest : (b₁.relabel r).rest side.book (mostAggressive side) o = some bl := hrest
    refine ⟨_, bl, fillsOf b Q market, hmarket, ?_,
      agree_of_accepted h hm hl ?_ (Or.inr ⟨o, remainder_rests hm hl hr hi ?_ ?_⟩)⟩
    · rw [hlimit, if_pos hr, hrest]
      rfl
    · rw [hbl]
      rfl
    · rw [hbl]
      rfl
    · rw [htable, hbl]
      rfl
  · have hl := hmet₂.done h hr
    have hrelease := OrderBook.release_relabel b₁ r o
    refine ⟨_, _, fillsOf b Q market, hmarket, ?_,
      agree_of_accepted h hm hl ?_ (Or.inl ⟨filled_of_not_rests hr, ?_, ?_, ?_⟩)⟩
    · rw [hlimit, if_neg hr]
    · rw [hrelease]
      rfl
    · exact sameSide hm.inv hl.inv fun j => (own_entries hl hr j).trans (own_entries hm hne j).symm
    · rw [hrelease]
      rfl
    · rw [hrelease]
      rfl

end Agree

/-- **A market order and a limit order at the most aggressive price agree**, on every
reachable book, for both sides and every quantity. Both are refused, and change nothing, when
the pool is empty. -/
theorem market_limit_agree (hcap : cap < 2 ^ 32) (cs : List Call) (id : OrderId) (client : ClientId)
    (side : Side) (price : Price) (qty : Quantity) (ts : Timestamp) :
    ∃ b rs, (OrderBook.new cap).run cs = some (b, rs) ∧
      ((b.pool.available = 0 ∧ b.addOrder id client side .market price qty ts = some (b, false) ∧
          b.addOrder id client side .limit (mostAggressive side) qty ts = some (b, false)) ∨
        ∃ bm bl fs, b.addOrder id client side .market price qty ts = some (bm, true) ∧
          b.addOrder id client side .limit (mostAggressive side) qty ts = some (bl, true) ∧
          Agree b bm bl id side qty fs) := by
  obtain ⟨b, rs, Q, hrun, h⟩ := run_inv (new_inv cap) hcap cs
  refine ⟨b, rs, hrun, ?_⟩
  by_cases hav : b.pool.available = 0
  · exact Or.inl ⟨hav,
      OrderBook.addOrder_refused b id client side .market price qty ts (Or.inl hav),
      OrderBook.addOrder_refused b id client side .limit (mostAggressive side) qty ts (Or.inl hav)⟩
  · have hroom : Room Q := room_of_cap h.core (fun e => hav (List.length_eq_zero_iff.mpr e)) hcap
    exact Or.inr (agree h hroom hav id client side price qty ts)

/-- A book with two sellers, swept empty, and something left of the order. -/
theorem market_limit_agree_two :
    ∃ b rs, (OrderBook.new 3).run [.addOrder 1 7 .sell .limit 100 5 0,
      .addOrder 2 7 .sell .limit 1000000 5 1] = some (b, rs) ∧
      ((b.pool.available = 0 ∧ b.addOrder 3 8 .buy .market 0 12 2 = some (b, false) ∧
          b.addOrder 3 8 .buy .limit (mostAggressive .buy) 12 2 = some (b, false)) ∨
        ∃ bm bl fs, b.addOrder 3 8 .buy .market 0 12 2 = some (bm, true) ∧
          b.addOrder 3 8 .buy .limit (mostAggressive .buy) 12 2 = some (bl, true) ∧
          Agree b bm bl 3 .buy 12 fs) :=
  market_limit_agree (by decide) _ _ _ _ _ _ _

end TradeFeed
