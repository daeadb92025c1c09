import TradeFeed.Core.Runs

/-!
# Accounts of single orders

What an incoming order does to each order that rests: `named fs id` shares go to the order
with that id in the fills `fs`, exactly these are taken off what it has left, and it goes
when nothing is left (`Accepted.account`). The orders that are not named stay as they
are, where they are. `addOrder_conserves` says it of `add_order`, in terms of what the
book stores. Ids have to be distinct for that, as a fill names an order by its id.
-/

namespace TradeFeed

open Lib Lib.PriceTime Tradable
open OrderBook (incoming)

variable {cap : ℕ}

/-- How many shares some fills report for an id, on either side. -/
def named (fs : List Fill) (id : OrderId) : ℕ :=
  (fs.map fun f => if f.bidId = id ∨ f.askId = id then f.quantity.toNat else 0).sum

/-- No two orders that rest have the same id. -/
def DistinctIds (b : OrderBook cap) (Q : Queues cap) : Prop :=
  ∀ s i, ∀ p ∈ Q s i, ∀ s' i', ∀ p' ∈ Q s' i', (b.order p).id = (b.order p').id → p = p'

/-- No order that rests has the id. -/
def FreshId (b : OrderBook cap) (Q : Queues cap) (id : OrderId) : Prop :=
  ∀ s i, ∀ p ∈ Q s i, (b.order p).id ≠ id

section Account

variable {b b' : OrderBook cap} {Q Q' : Queues cap} {o p : Fin cap} {new : Order cap} {s : BookSide}
  {i : Fin priceLevels}

theorem fill_zero (e : Entry cap) : fill e 0 = e := by
  show (e.1, e.2.fill (UInt32.ofNat 0)) = e
  have : e.2.fill (UInt32.ofNat 0) = e.2 := by
    rw [Order.fill, show UInt32.ofNat 0 = 0 from rfl, UInt32.add_zero]
  rw [this]

/-- A fill of an incoming order reports what was traded with the resting one. -/
theorem named_fills {trades : List (Entry cap × ℕ)} {id : OrderId} (hid : id ≠ new.id)
    (ht : ∀ t ∈ trades, t.2 ≤ remaining t.1) :
    named (trades.map (fillOf new.side new)) id =
      tradedWith (fun e : Entry cap => e.2.id) trades id := by
  unfold named tradedWith
  rw [List.map_map]
  congr 1
  apply List.map_congr_left
  intro t hmem
  have hq : (UInt32.ofNat t.2).toNat = t.2 := by
    have hle := ht t hmem
    have hlt : t.1.2.remaining.toNat < 2 ^ 32 := t.1.2.remaining.toNat_lt
    have : remaining t.1 = t.1.2.remaining.toNat := rfl
    rw [UInt32.toNat_ofNat']
    omega
  by_cases hb : new.side = .buy <;>
    simp [fillOf, OrderBook.mkFill, hb, hq, hid.symm]

/-- An order that differs in what is filled and in its links. -/
theorem bare_filled {w w' : Order cap} {k : Quantity}
    (h : w'.bare = { w.bare with filledQty := k }) :
    w'.bare = { w.bare with filledQty := w'.filledQty } ∧ w'.price = w.price := by
  have hk : w'.bare.filledQty = k := by rw [h]
  have hp : w'.bare.price = w.bare.price := by rw [h]
  subst hk
  exact ⟨h, hp⟩

/-- Where an order that rests afterwards comes from: it rested there before, or it is the
new one. -/
theorem Accepted.mem (h : Inv b Q) (ha : Accepted b b' Q Q' o new) (hp : p ∈ Q' s i) :
    (p ∈ Q s i ∧
        (b'.order p).bare = { (b.order p).bare with filledQty := (b'.order p).filledQty }) ∨
      (p = o ∧ s = new.side.book ∧ Rests b Q new ∧ new.price = priceAt i ∧
        (b'.order o).bare = remainder b Q new) := by
  rcases eq_or_eq_opposite new.side.book s with rfl | rfl
  · have hmem : b'.entry p ∈ b'.entries (Q' new.side.book i) := List.mem_map.mpr ⟨p, hp, rfl⟩
    rw [ha.joined, List.mem_append] at hmem
    rcases hmem with hmem | hmem
    · obtain ⟨p', hp', he⟩ := List.mem_map.mp hmem
      obtain ⟨rfl, he⟩ := Prod.mk.inj he
      exact Or.inl ⟨hp', (bare_filled he.symm).1⟩
    · split_ifs at hmem with hr
      · obtain ⟨rfl, he⟩ := Prod.mk.inj (List.mem_singleton.mp hmem)
        exact Or.inr ⟨rfl, rfl, hr.1, hr.2, he⟩
      · simp at hmem
  · have hmem : b'.entry p ∈ b'.entries (Q'.resting new.side.book.opposite) :=
      List.mem_map.mpr ⟨p, Queues.mem_resting.mpr ⟨i, hp⟩, rfl⟩
    rw [ha.swept] at hmem
    have hprice := (ha.inv.core.orders _ i p hp).price
    -- the price says which level it was at
    have hlevel : ∀ p', p' ∈ Q.resting new.side.book.opposite →
      (b'.order p).price = (b.order p').price →
        p' ∈ Q new.side.book.opposite i := by
      intro p' hp' he
      obtain ⟨j, hp'⟩ := Queues.mem_resting.mp hp'
      have hj := (h.core.orders _ j p' hp').price
      rw [← he, hprice] at hj
      rw [priceAt_injective hj]
      exact hp'
    rcases mem_rest _ _ hmem with hmem | ⟨e, hmem, m, he⟩
    · obtain ⟨p', hp', he⟩ := List.mem_map.mp hmem
      obtain ⟨rfl, he⟩ := Prod.mk.inj he
      have he := bare_filled he.symm
      exact Or.inl ⟨hlevel _ hp' he.2, he.1⟩
    · obtain ⟨p', hp', rfl⟩ := List.mem_map.mp hmem
      obtain ⟨rfl, he⟩ := Prod.mk.inj he
      have he := bare_filled he
      exact Or.inl ⟨hlevel _ hp' he.2, he.1⟩

/-- It rested before under the id it has, or has the new one's. -/
theorem Accepted.mem_id (h : Inv b Q) (ha : Accepted b b' Q Q' o new) (hp : p ∈ Q' s i) :
    (p ∈ Q s i ∧ (b'.order p).id = (b.order p).id) ∨ (p = o ∧ (b'.order p).id = new.id) := by
  rcases ha.mem h hp with ⟨hp, hbare⟩ | ⟨rfl, -, -, -, hbare⟩
  · refine Or.inl ⟨hp, ?_⟩
    show (b'.order p).bare.id = _
    rw [hbare]
    rfl
  · refine Or.inr ⟨rfl, ?_⟩
    show (b'.order p).bare.id = _
    rw [hbare]
    rfl

/-- Ids stay distinct when a fresh one joins. -/
theorem Accepted.distinct (h : Inv b Q) (ha : Accepted b b' Q Q' o new) (hd : DistinctIds b Q)
    (hf : FreshId b Q new.id) : DistinctIds b' Q' := by
  intro s i p hp s' i' p' hp' he
  rcases ha.mem_id h hp with ⟨hp, hid⟩ | ⟨rfl, hid⟩ <;>
    rcases ha.mem_id h hp' with ⟨hp', hid'⟩ | ⟨rfl, hid'⟩
  · exact hd s i p hp s' i' p' hp' (by rw [← hid, ← hid', he])
  · exact absurd (by rw [← hid, he, hid']) (hf s i p hp)
  · exact absurd (by rw [← hid', ← he, hid]) (hf s' i' p' hp')
  · rfl

/-- Ids stay distinct when an order leaves. -/
theorem Left.distinct (ha : Left b b' Q o) (hd : DistinctIds b Q) :
    DistinctIds b' (Q.without o) := by
  intro s i p hp s' i' p' hp' he
  obtain ⟨hp, hne⟩ := Queues.mem_without.mp hp
  obtain ⟨hp', hne'⟩ := Queues.mem_without.mp hp'
  rw [Core.id_of_bare (ha.others p hne), Core.id_of_bare (ha.others p' hne')] at he
  exact hd s i p hp s' i' p' hp' he

/-- The id of the order that leaves is fresh then. -/
theorem Left.freshId {id : OrderId} (h : Core b Q []) (ha : Left b b' Q o) (hd : DistinctIds b Q)
    (hl : b.lookup id = some o) : FreshId b' (Q.without o) id := by
  intro s i p hp he
  obtain ⟨hp, hne⟩ := Queues.mem_without.mp hp
  obtain ⟨⟨s', i', ho⟩, hid⟩ := mem_of_lookup h hl
  rw [Core.id_of_bare (ha.others p hne), ← hid] at he
  exact hne (hd s i p hp s' i' o ho he)

/-- The fills of an incoming order. -/
def fillsOf (b : OrderBook cap) (Q : Queues cap) (new : Order cap) : List Fill :=
  (trading b Q new).trades.map (fillOf new.side new)

/-- What the fills take off an order that rests is what was traded with it. -/
theorem named_fillsOf {id : OrderId} (hid : id ≠ new.id) :
    named (fillsOf b Q new) id = tradedWith (fun e : Entry cap => e.2.id)
      (trading b Q new).trades id :=
  named_fills hid fun _ ht => (mem_trades _ _ ht).2.1

theorem keys_nodup (h : Core b Q []) (hd : DistinctIds b Q) (s : BookSide) :
    ((b.entries (Q.resting s)).map fun e => e.2.id).Nodup := by
  rw [OrderBook.entries, List.map_map]
  apply (List.nodup_map_iff_inj_on (Queues.resting_nodup h s)).mpr
  intro p hp p' hp' he
  obtain ⟨i, hp⟩ := Queues.mem_resting.mp hp
  obtain ⟨j, hp'⟩ := Queues.mem_resting.mp hp'
  exact hd s i p hp s j p' hp' he

/-- It names two different orders. -/
theorem bidId_ne_askId (hf : FreshId b Q new.id) : ∀ f ∈ fillsOf b Q new, f.bidId ≠ f.askId := by
  intro f hmem
  obtain ⟨t, ht, rfl⟩ := List.mem_map.mp hmem
  obtain ⟨p, hp, he⟩ := List.mem_map.mp (mem_trades _ _ ht).1
  obtain ⟨i, hp⟩ := Queues.mem_resting.mp hp
  have hid : t.1.2.id ≠ new.id := by
    rw [← he]
    exact hf _ i p hp
  by_cases hb : new.side = .buy <;> simp [fillOf, OrderBook.mkFill, hb, hid, hid.symm]

/-- On the incoming order's own side nobody is named. -/
theorem named_own (h : Core b Q []) (hd : DistinctIds b Q) (hf : FreshId b Q new.id)
    (hp : p ∈ Q new.side.book i) :
    named (fillsOf b Q new) (b.order p).id = 0 := by
  rw [named_fillsOf (hf _ i p hp)]
  apply tradedWith_sweep_of_not_mem
  intro hmem
  obtain ⟨e, he, hid⟩ := List.mem_map.mp hmem
  obtain ⟨p', hp', rfl⟩ := List.mem_map.mp he
  obtain ⟨j, hp'⟩ := Queues.mem_resting.mp hp'
  obtain rfl := hd _ j p' hp' _ i p hp hid
  exact opposite_ne _ (h.level_unique hp' hp).1

/-- No order is filled for more than it has left. -/
theorem named_le (h : Inv b Q) (hd : DistinctIds b Q) (hf : FreshId b Q new.id) (hp : p ∈ Q s i) :
    named (fillsOf b Q new) (b.order p).id ≤ (b.order p).remaining.toNat := by
  rcases eq_or_eq_opposite new.side.book s with rfl | rfl
  · rw [named_own h.core hd hf hp]
    exact Nat.zero_le _
  · rw [named_fillsOf (hf _ i p hp)]
    exact tradedWith_le _ (keys_nodup h.core hd _)
      (List.mem_map.mpr ⟨p, Queues.mem_resting.mpr ⟨i, hp⟩, rfl⟩)

/-- **The account of an accepted order**: each order that rests gives up what the fills
name it for, and goes when nothing is left; the new order joins the end of its queue. -/
theorem Accepted.account (h : Inv b Q) (ha : Accepted b b' Q Q' o new) (hd : DistinctIds b Q)
    (hf : FreshId b Q new.id) (s : BookSide) (i : Fin priceLevels) :
    b'.entries (Q' s i) =
      ((b.entries (Q s i)).map fun e => fill e (named (fillsOf b Q new) e.2.id)).filter
        (fun e => 0 < remaining e) ++
        if s = new.side.book ∧ Rests b Q new ∧ new.price = priceAt i then
          [(o, remainder b Q new)] else [] := by
  rcases eq_or_eq_opposite new.side.book s with rfl | rfl
  · -- its own side is not touched
    have hself : ((b.entries (Q new.side.book i)).map fun e =>
      fill e (named (fillsOf b Q new) e.2.id)) =
        b.entries (Q new.side.book i) := by
      conv_rhs => rw [← List.map_id (b.entries (Q new.side.book i))]
      apply List.map_congr_left
      intro e he
      obtain ⟨p, hp, rfl⟩ := List.mem_map.mp he
      have hz : named (fillsOf b Q new) (b.entry p).2.id = 0 := named_own h.core hd hf hp
      rw [hz, fill_zero, id_eq]
    have hall : (b.entries (Q new.side.book i)).filter (fun e => 0 < remaining e) =
        b.entries (Q new.side.book i) := by
      apply List.filter_eq_self.mpr
      intro e he
      obtain ⟨p, hp, rfl⟩ := List.mem_map.mp he
      rw [decide_eq_true_eq]
      exact remaining_pos h.live hp
    rw [ha.joined, hself, hall]
    simp only [true_and]
  · have hne : ¬ (new.side.book.opposite = new.side.book ∧ Rests b Q new ∧ new.price = priceAt i) :=
      fun e => opposite_ne _ e.1.symm
    have hsub : (trading b Q new).rest =
        ((b.entries (Q.resting new.side.book.opposite)).map fun e =>
        fill e (named (fillsOf b Q new) e.2.id)).filter fun e => 0 < remaining e := by
      rw [trading, sweep_account (fun e : Entry cap => e.2.id) fill_zero _ (keys_nodup h.core hd _)]
      · refine congrArg _ (List.map_congr_left fun e he => ?_)
        obtain ⟨p, hp, rfl⟩ := List.mem_map.mp he
        obtain ⟨j, hp⟩ := Queues.mem_resting.mp hp
        exact congrArg (fill (b.entry p)) (named_fillsOf (hf _ j p hp)).symm
      · intro e he
        obtain ⟨p, hp, rfl⟩ := List.mem_map.mp he
        obtain ⟨j, hp⟩ := Queues.mem_resting.mp hp
        exact remaining_pos h.live hp
    rw [if_neg hne, List.append_nil, ← filter_entries ha.inv.core, ha.swept, hsub,
      ← filter_entries h.core, List.filter_comm, List.filter_map]
    rfl

end Account

/-! ### Conservation -/

/-- What `add_order` comes to for every order, in terms of the queues: `fs` are the fills it
appended, `left` the shares it could not match, and `o` where it would rest. -/
structure Conserved (b b' : OrderBook cap) (id : OrderId) (side : Side) (type : OrderType)
    (price : Price) (qty : Quantity) (fs : List Fill) (left : ℕ) (o : Fin cap) : Prop where
  /-- The fills are appended. -/
  fills : b'.fills = b.fills ++ fs
  /-- None is empty. -/
  positive : ∀ f ∈ fs, 0 < f.quantity.toNat
  /-- Each is counted. -/
  matchCount : b'.matchCount = b.matchCount + UInt64.ofNat fs.length
  /-- The incoming quantity is what the fills have and what is left. -/
  incoming : qty.toNat = (fs.map fun f => f.quantity.toNat).sum + left
  /-- Every order that rests has something left. -/
  live : ∀ s i, ∀ p ∈ b.queue s i, 0 < (b.order p).remaining.toNat
  /-- No order is filled for more than it had left. -/
  enough : ∀ s i, ∀ p ∈ b.queue s i, named fs (b.order p).id ≤ (b.order p).remaining.toNat
  /-- The orders with something left keep their places; what is left of a limit order joins
  the end of the queue at its price. -/
  queue : ∀ s i, b'.queue s i =
    (b.queue s i).filter (fun p => named fs (b.order p).id < (b.order p).remaining.toNat) ++
      if s = side.book ∧ left ≠ 0 ∧ type = .limit ∧ price = priceAt i then [o] else []
  /-- There is a level for the price of a limit order. -/
  level : type = .limit → ∃ i, price = priceAt i
  /-- An order that stays has the rest left, and is the order it was. -/
  stays : ∀ s i, ∀ p ∈ b.queue s i, p ∈ b'.queue s i →
    (b'.order p).remaining.toNat + named fs (b.order p).id = (b.order p).remaining.toNat ∧
      (b'.order p).bare = { (b.order p).bare with filledQty := (b'.order p).filledQty }
  /-- The new order did not rest before. -/
  fresh : ∀ s i, o ∉ b.queue s i
  /-- Where it rests it has what is left. -/
  rests : ∀ s i, o ∈ b'.queue s i → (b'.order o).id = id ∧ (b'.order o).remaining.toNat = left

section Conserves

variable {b b' : OrderBook cap} {Q Q' : Queues cap} {o p : Fin cap} {new : Order cap} {s : BookSide}
  {i : Fin priceLevels}

/-- The quantities of the fills are those of the trades. -/
theorem quantity_fillOf {t : Entry cap × ℕ} (ht : t.2 ≤ remaining t.1) (new : Order cap) :
    (fillOf new.side new t).quantity.toNat = t.2 := by
  have hlt : t.1.2.remaining.toNat < 2 ^ 32 := t.1.2.remaining.toNat_lt
  have hr : remaining t.1 = t.1.2.remaining.toNat := rfl
  have hq : (UInt32.ofNat t.2).toNat = t.2 := by
    rw [UInt32.toNat_ofNat']
    omega
  by_cases hb : new.side = .buy <;> simp [fillOf, OrderBook.mkFill, hb, hq]

/-- The fills and what is left make the quantity of the order. -/
theorem sum_fillsOf (b : OrderBook cap) (Q : Queues cap) (new : Order cap) :
    ((fillsOf b Q new).map fun f => f.quantity.toNat).sum + (trading b Q new).left =
      new.quantity.toNat := by
  have hsum : ((fillsOf b Q new).map fun f => f.quantity.toNat) =
      (trading b Q new).trades.map Prod.snd := by
    rw [fillsOf, List.map_map]
    exact List.map_congr_left fun t ht => quantity_fillOf (mem_trades _ _ ht).2.1 new
  rw [hsum]
  exact sweep_conserves _ _ _

/-- Every fill names the new order. -/
theorem named_new (b : OrderBook cap) (Q : Queues cap) (new : Order cap) :
    named (fillsOf b Q new) new.id + (trading b Q new).left = new.quantity.toNat := by
  have hle : ∀ t ∈ (trading b Q new).trades, t.2 ≤ remaining t.1 :=
    fun t ht => (mem_trades _ _ ht).2.1
  have hsum : named (fillsOf b Q new) new.id = ((trading b Q new).trades.map Prod.snd).sum := by
    rw [named, fillsOf, List.map_map]
    refine congrArg List.sum (List.map_congr_left fun t ht => ?_)
    have hnames : (fillOf new.side new t).bidId = new.id ∨
        (fillOf new.side new t).askId = new.id := by
      by_cases hb : new.side = .buy <;> simp [fillOf, OrderBook.mkFill, hb]
    exact (if_pos hnames).trans (quantity_fillOf (hle t ht) new)
  rw [hsum]
  exact sweep_conserves _ _ _

theorem OrderBook.map_fst_entries (b : OrderBook cap) (q : List (Fin cap)) :
    (b.entries q).map Prod.fst = q := by
  rw [OrderBook.entries, List.map_map]
  exact List.map_id q

/-- No fill is empty. -/
theorem fillsOf_pos (h : Inv b Q) {f : Fill} (hmem : f ∈ fillsOf b Q new) :
    0 < f.quantity.toNat := by
  obtain ⟨t, ht, rfl⟩ := List.mem_map.mp hmem
  rw [quantity_fillOf (mem_trades _ _ ht).2.1]
  apply trades_pos _ _ _ ht
  intro e he
  obtain ⟨p, hp, rfl⟩ := List.mem_map.mp he
  obtain ⟨j, hp⟩ := Queues.mem_resting.mp hp
  exact remaining_pos h.live hp

/-- Who stands in a queue afterwards. -/
theorem Accepted.queue_after (h : Inv b Q) (ha : Accepted b b' Q Q' o new) (hd : DistinctIds b Q)
    (hf : FreshId b Q new.id) (s : BookSide) (i : Fin priceLevels) :
    Q' s i =
      (Q s i).filter (fun p => named (fillsOf b Q new) (b.order p).id <
        (b.order p).remaining.toNat) ++
        if s = new.side.book ∧ (trading b Q new).left ≠ 0 ∧ new.type = .limit ∧
          new.price = priceAt i then [o] else [] := by
  have hmap := congrArg (List.map Prod.fst) (ha.account h hd hf s i)
  rw [OrderBook.map_fst_entries, List.map_append] at hmap
  rw [hmap]
  congr 1
  · rw [OrderBook.entries, List.map_map, List.filter_map, List.map_map]
    conv_rhs => rw [← List.map_id (List.filter _ (Q s i))]
    refine congrArg₂ _ rfl (List.filter_congr fun p hp => decide_eq_decide.mpr ?_)
    have hleft : remaining (fill (b.entry p) (named (fillsOf b Q new) (b.order p).id)) =
        (b.order p).remaining.toNat - named (fillsOf b Q new) (b.order p).id :=
      remaining_fill _ _ (named_le h hd hf hp)
    have hid : (b.entry p).2.id = (b.order p).id := rfl
    rw [Function.comp_apply, hid, hleft]
    omega
  · simp only [Rests, and_assoc]
    split_ifs <;> rfl

/-- An order that stays is filled for what the fills name it for. -/
theorem Accepted.order_stays (h : Inv b Q) (ha : Accepted b b' Q Q' o new) (hd : DistinctIds b Q)
    (hf : FreshId b Q new.id) (hp : p ∈ Q s i) (hp' : p ∈ Q' s i) :
    (b'.order p).bare = (fill (b.entry p) (named (fillsOf b Q new) (b.order p).id)).2 := by
  have hmem : b'.entry p ∈ b'.entries (Q' s i) := List.mem_map.mpr ⟨p, hp', rfl⟩
  rw [ha.account h hd hf, List.mem_append] at hmem
  rcases hmem with hmem | hmem
  · obtain ⟨hmem, -⟩ := List.mem_filter.mp hmem
    obtain ⟨e, he, heq⟩ := List.mem_map.mp hmem
    obtain ⟨p', -, rfl⟩ := List.mem_map.mp he
    obtain rfl : p' = p := congrArg Prod.fst heq
    exact (congrArg Prod.snd heq).symm
  · split_ifs at hmem
    · obtain ⟨rfl, -⟩ := Prod.mk.inj (List.mem_singleton.mp hmem)
      obtain rfl := h.queue_eq
      exact absurd hp (ha.fresh s i)
    · simp at hmem

/-- Where the new order rests it has what is left. -/
theorem Accepted.new_rests (h : Inv b Q) (ha : Accepted b b' Q Q' o new) (hp : o ∈ Q' s i) :
    (b'.order o).id = new.id ∧ (b'.order o).remaining.toNat = (trading b Q new).left := by
  obtain rfl := h.queue_eq
  rcases ha.mem h hp with ⟨hp, -⟩ | ⟨-, -, -, -, hbare⟩
  · exact absurd hp (ha.fresh s i)
  · constructor
    · show (b'.order o).bare.id = new.id
      rw [hbare, remainder]
    · rw [← remainder_remaining]
      show (b'.order o).bare.remaining.toNat = _
      rw [hbare]

theorem Accepted.conserved (h : Inv b Q) (ha : Accepted b b' Q Q' o new) (hd : DistinctIds b Q)
    (hf : FreshId b Q new.id) (hlevel : new.type = .limit → ∃ i, new.price = priceAt i) :
    Conserved b b' new.id new.side new.type new.price new.quantity (fillsOf b Q new)
      (trading b Q new).left o := by
  obtain rfl := h.queue_eq
  obtain rfl := ha.inv.queue_eq
  refine ⟨ha.fills, fun f => fillsOf_pos h, ?_, (sum_fillsOf b b.queue new).symm,
    fun s i p hp => remaining_pos h.live hp, fun s i p hp => named_le h hd hf hp,
    ha.queue_after h hd hf, hlevel, fun s i p hp hp' => ?_, ha.fresh, fun s i => ha.new_rests h⟩
  · rw [ha.matchCount, fillsOf, List.length_map]
  · have hbare := ha.order_stays h hd hf hp hp'
    refine ⟨?_, (bare_filled hbare).1⟩
    have hle := named_le h hd hf hp
    have hr : (b'.order p).remaining.toNat = (b.order p).remaining.toNat -
        named (fillsOf b b.queue new) (b.order p).id := by
      show (b'.order p).bare.remaining.toNat = _
      rw [hbare]
      exact remaining_fill (b.entry p) _ hle
    rw [hr]
    omega

/-- **What `add_order` conserves**, when ids are distinct. -/
theorem addOrder_conserves (h : Inv b Q) (hcap : cap < 2 ^ 32) (hd : DistinctIds b Q) {id : OrderId}
    (hf : FreshId b Q id) {client : ClientId} {side : Side} {type : OrderType} {price : Price}
    {qty : Quantity} {ts : Timestamp}
    (hrun : b.addOrder id client side type price qty ts = some (b', true)) :
    ∃ fs left o, Conserved b b' id side type price qty fs left o := by
  by_cases hr : b.pool.available = 0 ∨ OrderBook.badPrice type price = true
  · rw [OrderBook.addOrder_refused b id client side type price qty ts hr] at hrun
    simp at hrun
  · rw [not_or, Bool.not_eq_true] at hr
    have hroom : Room Q := room_of_cap h.core (fun e => hr.1 (List.length_eq_zero_iff.mpr e)) hcap
    obtain ⟨b₁, Q₁, o, hrun₁, ha⟩ :=
      addOrder_accepted h hroom id client side type price qty ts hr.1 hr.2
    obtain rfl : b' = b₁ := congrArg Prod.fst (Option.some.inj (hrun.symm.trans hrun₁))
    refine ⟨_, _, o, ha.conserved h hd hf fun hlim => ?_⟩
    exact exists_level_of_limit hr.2 hlim

end Conserves

end TradeFeed
