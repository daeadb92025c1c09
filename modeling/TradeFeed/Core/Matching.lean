import TradeFeed.Core.Invariant

/-!
# Matching against the book

The matching loops of the order book are sweeps of the opposite side in price-time
priority. An `Entry` is an order with the place it is stored at, and
`b.entries (Q.resting s)` are the orders of side `s`, the best price first and the
earliest first at each price.

* `drainLevel_spec` — `drain_level` is a sweep of the level's queue.
* `matchWhile_spec` — each loop of `match_limit` and `match_market` is a sweep of the
  side, as long as the best price is acceptable.

Both say that the loop ends, that nothing it does is undefined, and what else it leaves
alone (`Traded`). That the two loops together have one round for each order of the arena
is enough, as a round of either ends the loop or uses an order up.
-/

namespace TradeFeed

open Function (update)
open Lib Lib.PriceTime Tradable

variable {cap : ℕ}

/-! ### Entries -/

/-- An order, without its links, and where it is stored. -/
abbrev Entry (cap : ℕ) := Fin cap × Order cap

instance : Tradable (Entry cap) where
  price e := e.2.price.toNat
  remaining e := e.2.remaining.toNat
  fill e q := (e.1, e.2.fill (UInt32.ofNat q))
  price_fill _ _ := rfl
  remaining_fill e q hq := by
    have hlt := e.2.remaining.toNat_lt
    have hn : (UInt32.ofNat q).toNat = q := by rw [UInt32.toNat_ofNat']; omega
    have := Order.fill_remaining (o := e.2) (q := UInt32.ofNat q)
      (by rw [UInt32.le_iff_toNat_le, hn]; exact hq)
    rw [this, hn]

namespace OrderBook

/-- The entry at a pointer. -/
def entry (b : OrderBook cap) (p : Fin cap) : Entry cap := (p, (b.order p).bare)

/-- The entries of a queue. -/
def entries (b : OrderBook cap) (q : List (Fin cap)) : List (Entry cap) := q.map b.entry

@[simp] theorem entries_nil (b : OrderBook cap) : b.entries [] = [] := rfl

@[simp] theorem entries_cons (b : OrderBook cap) (p : Fin cap) (q : List (Fin cap)) :
    b.entries (p :: q) = b.entry p :: b.entries q := rfl

@[simp] theorem entries_append (b : OrderBook cap) (q q' : List (Fin cap)) :
    b.entries (q ++ q') = b.entries q ++ b.entries q' := List.map_append

@[simp] theorem entries_length (b : OrderBook cap) (q : List (Fin cap)) :
    (b.entries q).length = q.length :=
  List.length_map _

@[simp] theorem entries_eq_nil {b : OrderBook cap} {q : List (Fin cap)} :
    b.entries q = [] ↔ q = [] :=
  List.map_eq_nil_iff

theorem entries_eq_cons {b : OrderBook cap} {q : List (Fin cap)} {t : Entry cap}
    {l : List (Entry cap)} :
    b.entries q = t :: l ↔ ∃ q', q = t.1 :: q' ∧ (b.order t.1).bare = t.2 ∧ b.entries q' = l := by
  obtain ⟨o, w⟩ := t
  cases q with
  | nil => simp [entries]
  | cons p q =>
    rw [entries, List.map_cons, List.cons_eq_cons, entry, Prod.mk.injEq]
    constructor
    · rintro ⟨⟨rfl, hw⟩, hl⟩
      exact ⟨q, rfl, hw, hl⟩
    · rintro ⟨q', he, hw, hl⟩
      obtain ⟨rfl, rfl⟩ := List.cons_eq_cons.mp he
      exact ⟨⟨rfl, hw⟩, hl⟩

theorem entries_congr {b b' : OrderBook cap} {q : List (Fin cap)}
    (h : ∀ p ∈ q, (b'.order p).bare = (b.order p).bare) : b'.entries q = b.entries q :=
  List.map_congr_left fun p hp => by rw [entry, entry, h p hp]

@[simp] theorem price_entry (b : OrderBook cap) (p : Fin cap) :
    price (b.entry p) = (b.order p).price.toNat :=
  rfl

@[simp] theorem remaining_entry (b : OrderBook cap) (p : Fin cap) :
    remaining (b.entry p) = (b.order p).remaining.toNat := rfl

theorem fill_entry (b : OrderBook cap) (p : Fin cap) (q : Quantity) :
    fill (b.entry p) q.toNat = (p, ((b.order p).fill q).bare) := by
  show (p, (b.order p).bare.fill (UInt32.ofNat q.toNat)) = _
  rw [UInt32.ofNat_toNat, Order.bare_fill]

end OrderBook

/-- The orders of a side, the best price first and the earliest first at each price. -/
def Queues.resting (Q : Queues cap) (s : BookSide) : List (Fin cap) := s.byPriority.flatMap (Q s)

namespace Queues

variable {b : OrderBook cap} {Q : Queues cap} {x : List (Fin cap)} {s s' : BookSide}
  {i : Fin priceLevels} {p : Fin cap}

theorem mem_resting : p ∈ Q.resting s ↔ ∃ i, p ∈ Q s i := by
  simp [resting, s.mem_byPriority]

theorem resting_congr {Q' : Queues cap} (h : Q' s = Q s) : Q'.resting s = Q.resting s := by
  rw [resting, resting, h]

/-- No order rests twice. -/
theorem resting_nodup (h : Core b Q x) (s : BookSide) : (Q.resting s).Nodup := by
  refine List.nodup_flatMap.mpr ⟨fun i _ => (h.levels s i).nodup, ?_⟩
  refine s.byPriority_pairwise.imp fun {i j} hij p hp hp' => ?_
  obtain rfl := (h.level_unique hp hp').2
  exact s.dir.better_irrefl _ hij

theorem resting_length_le (h : Core b Q x) (s : BookSide) : (Q.resting s).length ≤ cap := by
  simpa using (resting_nodup h s).length_le_card

/-- Where a level stands among the resting orders: after the better ones, before the
worse ones. -/
theorem resting_set (Q : Queues cap) (s : BookSide) (i : Fin priceLevels) :
    ∃ before after, (∀ q, (Q.set s i q).resting s = before ++ q ++ after) ∧
      (∀ p ∈ before, ∃ j, s.dir.Better j.val i.val ∧ p ∈ Q s j) ∧
      ∀ p ∈ after, ∃ j, s.dir.Better i.val j.val ∧ p ∈ Q s j := by
  obtain ⟨better, worse, hsplit, hb, hw⟩ := s.byPriority_split i
  refine ⟨better.flatMap (Q s), worse.flatMap (Q s), fun q => ?_, ?_, ?_⟩
  · have he : ∀ l : List (Fin priceLevels), (∀ j ∈ l, j ≠ i) →
        l.flatMap (Q.set s i q s) = l.flatMap (Q s) := by
      intro l hl
      apply List.flatMap_congr
      intro j hj
      rw [set_of_ne _ _ fun e => hl j hj e.2]
    have hb' : ∀ j ∈ better, j ≠ i := by
      rintro j hj rfl
      exact s.dir.better_irrefl _ (hb j hj)
    have hw' : ∀ j ∈ worse, j ≠ i := by
      rintro j hj rfl
      exact s.dir.better_irrefl _ (hw j hj)
    rw [resting, hsplit, List.flatMap_append, List.flatMap_cons, he _ hb', he _ hw', set_self,
      List.append_assoc]
  · intro p hp
    obtain ⟨j, hj, hp⟩ := List.mem_flatMap.mp hp
    exact ⟨j, hb j hj, hp⟩
  · intro p hp
    obtain ⟨j, hj, hp⟩ := List.mem_flatMap.mp hp
    exact ⟨j, hw j hj, hp⟩

/-- When all of a side rests at one level, the side is that level. -/
theorem resting_of_single (h : ∀ j, j ≠ i → Q s j = []) : Q.resting s = Q s i := by
  obtain ⟨before, after, hset, hbef, haft⟩ := resting_set Q s i
  have hnil : ∀ l : List (Fin cap), (∀ p ∈ l, ∃ j, j ≠ i ∧ p ∈ Q s j) → l = [] := by
    intro l hl
    apply List.eq_nil_iff_forall_not_mem.mpr
    intro p hp
    obtain ⟨j, hj, hp⟩ := hl p hp
    simp [h j hj] at hp
  have hne : ∀ {j : Fin priceLevels}, s.dir.Better i.val j.val ∨
      s.dir.Better j.val i.val → j ≠ i := by
    rintro j hj rfl
    exact s.dir.better_irrefl _ (hj.elim id id)
  have hrest := hset (Q s i)
  rw [set_same, hnil before fun p hp => (hbef p hp).imp fun j hj => ⟨hne (Or.inr hj.1), hj.2⟩,
    hnil after fun p hp => (haft p hp).imp fun j hj => ⟨hne (Or.inl hj.1), hj.2⟩] at hrest
  simpa using hrest

end Queues

/-- At each price the entries of a side are the level's. -/
theorem filter_entries {b : OrderBook cap} {Q : Queues cap} {x : List (Fin cap)} (h : Core b Q x)
    (s : BookSide) (i : Fin priceLevels) :
    (b.entries (Q.resting s)).filter (fun e => e.2.price = priceAt i) = b.entries (Q s i) := by
  obtain ⟨before, after, hset, hbef, haft⟩ := Queues.resting_set Q s i
  have hrest := hset (Q s i)
  rw [Queues.set_same] at hrest
  have hprice : ∀ q : List (Fin cap), (∀ p ∈ q, ∃ j, j ≠ i ∧ p ∈ Q s j) →
      (b.entries q).filter (fun e => e.2.price = priceAt i) = [] := by
    intro q hq
    apply List.filter_eq_nil_iff.mpr
    intro e he
    obtain ⟨p, hp, rfl⟩ := List.mem_map.mp he
    obtain ⟨j, hj, hp⟩ := hq p hp
    have he : (b.entry p).2.price = priceAt j := (h.orders s j p hp).price
    rw [he, decide_eq_true_eq]
    exact fun e => hj (priceAt_injective e)
  have hself : (b.entries (Q s i)).filter (fun e => e.2.price = priceAt i) = b.entries (Q s i) := by
    apply List.filter_eq_self.mpr
    intro e he
    obtain ⟨p, hp, rfl⟩ := List.mem_map.mp he
    have he : (b.entry p).2.price = priceAt i := (h.orders s i p hp).price
    rw [he, decide_eq_true_eq]
  have hne : ∀ {j : Fin priceLevels}, s.dir.Better i.val j.val ∨
      s.dir.Better j.val i.val → j ≠ i := by
    rintro j hj rfl
    exact s.dir.better_irrefl _ (hj.elim id id)
  rw [hrest, OrderBook.entries_append, OrderBook.entries_append, List.filter_append,
    List.filter_append, hself, hprice before, hprice after, List.nil_append, List.append_nil]
  · exact fun p hp => (haft p hp).imp fun j hj => ⟨hne (Or.inl hj.1), hj.2⟩
  · exact fun p hp => (hbef p hp).imp fun j hj => ⟨hne (Or.inr hj.1), hj.2⟩

/-- The record of a trade of a sweep. -/
def fillOf (side : Side) (aggressor : Order cap) (t : Entry cap × ℕ) : Fill :=
  OrderBook.mkFill side aggressor t.1.2 (UInt32.ofNat t.2)

/-! ### What trading does besides -/

/-- Some trades of the order in hand `a` with the orders `touched`: the fills are
recorded, and nothing changes of the other orders. -/
structure Traded (b b' : OrderBook cap) (Q Q' : Queues cap) (touched : List (Fin cap)) (side : Side)
    (a : Fin cap) (trades : List (Entry cap × ℕ)) : Prop where
  /-- The book is in order. -/
  core : Core b' Q' [a]
  /-- No filled order rests. -/
  live : Live b' Q'
  /-- Orders only leave. -/
  queues : ∀ s i, ∀ p ∈ Q' s i, p ∈ Q s i
  /-- The other orders. -/
  frame : ∀ p, p ≠ a → p ∉ touched → b'.order p = b.order p
  /-- The order in hand is filled, and otherwise as it was. -/
  aggressor : b'.order a = { b.order a with filledQty := (b'.order a).filledQty }
  /-- It is not filled beyond its quantity. -/
  filled : (b'.order a).filledQty ≤ (b'.order a).quantity
  /-- The fills. -/
  fills : b'.fills = b.fills ++ trades.map (fillOf side (b.order a))
  /-- The number of matches. -/
  matchCount : b'.matchCount = b.matchCount + UInt64.ofNat trades.length
  /-- The table. -/
  registered : Registered b Q [a] → Registered b' Q' [a]

namespace Traded

variable {b b₁ b₂ : OrderBook cap} {Q Q₁ Q₂ : Queues cap} {t t' : List (Fin cap)} {side : Side}
  {a : Fin cap}
  {trades trades' : List (Entry cap × ℕ)}

theorem refl (hc : Core b Q [a]) (hl : Live b Q)
    (hf : (b.order a).filledQty ≤ (b.order a).quantity) :
    Traded b b Q Q t side a [] where
  core := hc
  live := hl
  queues _ _ _ h := h
  frame _ _ _ := rfl
  aggressor := rfl
  filled := hf
  fills := by simp
  matchCount := by simp
  registered h := h

theorem trans (h : Traded b b₁ Q Q₁ t side a trades) (h' : Traded b₁ b₂ Q₁ Q₂ t' side a trades')
    (ht : ∀ p ∈ t', p ∈ t) : Traded b b₂ Q Q₂ t side a (trades ++ trades') where
  core := h'.core
  live := h'.live
  queues s i p hp := h.queues s i p (h'.queues s i p hp)
  frame p hpa hp := by rw [h'.frame p hpa fun hp' => hp (ht p hp'), h.frame p hpa hp]
  aggressor := by
    have h₂ := h'.aggressor
    rw [h.aggressor] at h₂
    exact h₂
  filled := h'.filled
  fills := by
    have hagg : fillOf side (b₁.order a) = fillOf side (b.order a) := by
      funext e
      rw [h.aggressor]
      rfl
    rw [h'.fills, h.fills, hagg, List.map_append, List.append_assoc]
  matchCount := by
    rw [h'.matchCount, h.matchCount, List.length_append, UInt64.ofNat_add, UInt64.add_assoc]
  registered hr := h'.registered (h.registered hr)

theorem mono (h : Traded b b₁ Q Q₁ t side a trades) (ht : ∀ p ∈ t, p ∈ t') :
    Traded b b₁ Q Q₁ t' side a trades :=
  { h with frame := fun p hpa hp => h.frame p hpa fun hp' => hp (ht p hp') }

/-- The bitsets and the best prices play no part in it. -/
theorem index (h : Traded b b₁ Q Q₁ t side a trades) (bits : BookSide → PriceBitset)
    (best : BookSide → Price) (scanCalls : UInt64) :
    Traded b { b₁ with bits := bits, best := best, scanCalls :=
      scanCalls } Q Q₁ t side a trades where
  core := h.core.congr rfl rfl rfl
  live := h.live
  queues := h.queues
  frame := h.frame
  aggressor := h.aggressor
  filled := h.filled
  fills := h.fills
  matchCount := h.matchCount
  registered := h.registered

end Traded

/-! ### One round of `drain_level` -/

section Round

variable {b : OrderBook cap} {Q : Queues cap} {s : BookSide} {i : Fin priceLevels} {a r : Fin cap}
  {q : List (Fin cap)}

/-- The quantity traded, when the resting order has no more left than the aggressor. -/
theorem min_remaining_right (h : (b.order r).remaining ≤ (b.order a).remaining) :
    min (b.order a).remaining (b.order r).remaining = (b.order r).remaining := by
  rw [← UInt32.toNat_inj, toNat_min, Nat.min_eq_right (UInt32.le_iff_toNat_le.mp h)]

theorem min_remaining_left (h : (b.order a).remaining < (b.order r).remaining) :
    min (b.order a).remaining (b.order r).remaining = (b.order a).remaining := by
  rw [← UInt32.toNat_inj, toNat_min, Nat.min_eq_left (UInt32.lt_iff_toNat_lt.mp h).le]

/-- What `drain_level` records. -/
theorem fills_tradeWith (b : OrderBook cap) (s : BookSide) (i : Fin priceLevels) (hne : a ≠ r)
    (side : Side) :
    (b.tradeWith s i a r side).fills = b.fills ++
      [fillOf side (b.order a) (b.entry r,
        (min (b.order a).remaining (b.order r).remaining).toNat)] := by
  have hord := Core.order_tradeWith b s i hne side
  have ha := hord a
  have hr := hord r
  rw [if_pos (Or.inl rfl)] at ha
  rw [if_pos (Or.inr rfl)] at hr
  show b.fills ++
    [OrderBook.mkFill side ((b.tradeWith s i a r side).order a)
    ((b.tradeWith s i a r side).order r) _] = _
  rw [ha, hr, fillOf, UInt32.ofNat_toNat]
  rfl

theorem live_of_bare {o o' : Order cap} (h : o.filledQty < o.quantity) (he : o'.bare = o.bare) :
    o'.filledQty < o'.quantity := by
  have h₁ : o'.bare.filledQty = o.bare.filledQty := by rw [he]
  have h₂ : o'.bare.quantity = o.bare.quantity := by rw [he]
  exact h₁ ▸ h₂ ▸ h

/-- **The resting order is used up**: it leaves the queue and the book. -/
theorem round_full (h : Core b Q [a]) (hlive : Live b Q)
    (hf : (b.order a).filledQty ≤ (b.order a).quantity) (hq : Q s i = r :: q)
    (hle : (b.order r).remaining ≤ (b.order a).remaining) (side : Side) :
    let b₁ := (b.tradeWith s i a r side).retire s i r
    Traded b b₁ Q (Q.set s i q) (Q s i) side a [(b.entry r, (b.order r).remaining.toNat)] ∧
      b₁.entries q = b.entries q ∧
      (b₁.order a).remaining.toNat = (b.order a).remaining.toNat - (b.order r).remaining.toNat ∧
      b₁.bits = b.bits ∧ b₁.best = b.best := by
  have hr : r ∈ Q s i := by simp [hq]
  have hra : r ≠ a := h.ne_of_held (by simp) hr
  have ha : a ∉ Q s i := fun ha => h.ne_of_held (by simp) ha rfl
  have hq' : Q s i = [] ++ r :: q := hq
  -- trading fills the resting order
  have hord := Core.order_tradeWith b s i hra.symm side
  rw [min_remaining_right hle] at hord
  have hrle := (UInt32.le_of_lt (hlive s i r hr))
  have hfilled : ((b.tradeWith s i a r side).order r).isFilled = true := by
    rw [hord, if_pos (Or.inr rfl), Order.isFilled_iff (Order.fill_le hrle (UInt32.le_refl _)),
      Order.fill_remaining (UInt32.le_refl _)]
    omega
  have hret : (b.tradeWith s i a r side).retire s i r = (b.tradeWith s i a r side).leave s i r := by
    simp [OrderBook.retire, OrderBook.leave, hfilled]
  have hct : Core (b.tradeWith s i a r side) Q [a] := h.tradeWith (by simp) hr side
  have hmem : ∀ {s' i' p}, p ∈ Q.set s i q s' i' → p ∈ Q s' i' ∧ p ≠ r :=
    fun hp => (hct.mem_set_iff hq').mp hp
  rw [hret]
  set b₁ := (b.tradeWith s i a r side).leave s i r
  have hb₁ : ∀ {p}, p ≠ r → p ≠ a → (b₁.order p).bare = (b.order p).bare := by
    intro p hpr hpa
    rw [hct.bare_leave hq' hpr, hord, if_neg (by simp [hpr, hpa])]
  have ha₁ : b₁.order a = (b.order a).fill (b.order r).remaining := by
    rw [hct.order_leave_of_not_mem hq' ha, hord, if_pos (Or.inl rfl)]
  refine ⟨⟨hct.leave hq', ?_, fun s' i' p hp => (hmem hp).1, ?_, ?_, ?_, ?_, ?_, ?_⟩, ?_,
    ?_, rfl, rfl⟩
  · intro s' i' p hp
    obtain ⟨hp, hpr⟩ := hmem hp
    exact live_of_bare (hlive s' i' p hp) (hb₁ hpr (h.ne_of_held (by simp) hp))
  · intro p hpa hp
    have hpr : p ≠ r := by rintro rfl; exact hp hr
    rw [hct.order_leave_of_not_mem hq' hp, hord, if_neg (by simp [hpr, hpa])]
  · rw [ha₁]; rfl
  · rw [ha₁]; exact Order.fill_le hf hle
  · show (b.tradeWith s i a r side).fills = _
    rw [fills_tradeWith b s i hra.symm, min_remaining_right hle]
    rfl
  · rfl
  · intro hreg
    have hreg : Registered (b.tradeWith s i a r side) Q [a] := by
      refine hreg.congr rfl (fun p => ?_) fun p hp => hp
      rw [hord]
      split_ifs <;> rfl
    exact hreg.leave hct hq'
  · exact OrderBook.entries_congr fun p hp => by
      have hp : p ∈ Q.set s i q s i := by simpa using hp
      exact hb₁ (hmem hp).2 (h.ne_of_held (by simp) (hmem hp).1)
  · rw [ha₁, Order.fill_remaining hle]

/-- **The aggressor is used up**: the resting order keeps its place with what it has
left. -/
theorem round_short (h : Core b Q [a]) (hlive : Live b Q)
    (hf : (b.order a).filledQty ≤ (b.order a).quantity) (hq : Q s i = r :: q)
    (hlt : (b.order a).remaining < (b.order r).remaining) (side : Side) :
    let b₁ := (b.tradeWith s i a r side).retire s i r
    Traded b b₁ Q Q (Q s i) side a [(b.entry r, (b.order a).remaining.toNat)] ∧
      b₁.entries (r :: q) = fill (b.entry r) (b.order a).remaining.toNat :: b.entries q ∧
      (b₁.order a).remaining.toNat = 0 ∧ b₁.bits = b.bits ∧ b₁.best = b.best := by
  have hr : r ∈ Q s i := by simp [hq]
  have hra : r ≠ a := h.ne_of_held (by simp) hr
  have hle : (b.order a).remaining ≤ (b.order r).remaining := UInt32.le_of_lt hlt
  have hord := Core.order_tradeWith b s i hra.symm side
  rw [min_remaining_left hlt] at hord
  have hr₁ : (b.tradeWith s i a r side).order r = (b.order r).fill (b.order a).remaining := by
    rw [hord, if_pos (Or.inr rfl)]
  have hrle := UInt32.le_of_lt (hlive s i r hr)
  have hfilled : ((b.tradeWith s i a r side).order r).isFilled = false := by
    rw [← Bool.not_eq_true, hr₁, Order.isFilled_iff (Order.fill_le hrle hle),
      Order.fill_remaining hle]
    rw [UInt32.lt_iff_toNat_lt] at hlt
    omega
  have hret : (b.tradeWith s i a r side).retire s i r = b.tradeWith s i a r side := by
    simp [OrderBook.retire, hfilled]
  rw [hret]
  set b₁ := b.tradeWith s i a r side
  have ha₁ : b₁.order a = (b.order a).fill (b.order a).remaining := by
    rw [hord, if_pos (Or.inl rfl)]
  have hother : ∀ {p}, p ≠ r → p ≠ a → b₁.order p = b.order p := by
    intro p hpr hpa
    rw [hord, if_neg (by simp [hpr, hpa])]
  refine ⟨⟨h.tradeWith (by simp) hr side, ?_, fun _ _ _ hp => hp, ?_, ?_, ?_, ?_, rfl, ?_⟩, ?_,
    ?_, rfl, rfl⟩
  · intro s' i' p hp
    by_cases hpr : p = r
    · subst hpr
      have : ¬ (b₁.order p).isFilled = true := by simp [hfilled]
      simpa [Order.isFilled] using this
    · rw [hother hpr (h.ne_of_held (by simp) hp)]
      exact hlive s' i' p hp
  · intro p hpa hp
    exact hother (by rintro rfl; exact hp hr) hpa
  · rw [ha₁]; rfl
  · rw [ha₁]; exact Order.fill_le hf (UInt32.le_refl _)
  · rw [fills_tradeWith b s i hra.symm, min_remaining_left hlt]
    rfl
  · intro hreg
    refine hreg.congr rfl (fun p => ?_) fun p hp => hp
    rw [hord]
    split_ifs <;> rfl
  · rw [OrderBook.fill_entry, OrderBook.entries_cons, OrderBook.entry, hr₁]
    refine congrArg _ (OrderBook.entries_congr fun p hp => ?_)
    have hnd := (h.levels s i).nodup
    rw [hq, List.nodup_cons] at hnd
    rw [hother (by rintro rfl; exact hnd.1 hp)
      (h.ne_of_held (by simp) (show p ∈ Q s i by simp [hq, hp]))]
  · rw [ha₁, Order.fill_remaining (UInt32.le_refl _)]
    omega

end Round

/-! ### The best price -/

section Scan

variable {b : OrderBook cap} {Q : Queues cap} {s : BookSide} {i : Fin priceLevels}

/-- `scan_best_bid` and `scan_best_ask` find the best occupied level. -/
theorem scanBest_spec (ht : (b.bits s).Tiers)
    (ho : ∀ i : Fin priceLevels, i.val ∈ (b.bits s).occupied ↔ Q s i ≠ []) :
    ∃ p, b.scanBest s = some ({ b with scanCalls := b.scanCalls + 1 }.setBest s p) ∧
      BestOk s Q p := by
  have hnone : (b.bits s).occupied = ∅ → ∀ i, Q s i = [] := by
    intro he i
    by_contra hne
    have := (ho i).mpr hne
    simp [he] at this
  cases s with
  | bids =>
    rcases PriceBitset.highest_spec ht with ⟨hscan, he⟩ | ⟨k, hscan, hk⟩
    · exact ⟨_, by simp only [OrderBook.scanBest, OrderBook.scanBestBid, hscan]; rfl,
        Or.inl ⟨hnone he, rfl⟩⟩
    · refine ⟨_, by simp only [OrderBook.scanBest, OrderBook.scanBestBid, hscan]; rfl, Or.inr ?_⟩
      refine ⟨⟨k, PriceBitset.lt_of_mem_occupied hk.1⟩, (ho _).mp hk.1, rfl, fun j hj => ?_⟩
      by_contra hne
      exact absurd (hk.2 ((ho j).mpr hne)) (Nat.not_le.mpr hj)
  | asks =>
    rcases PriceBitset.lowest_spec ht with ⟨hscan, he⟩ | ⟨k, hscan, hk⟩
    · exact ⟨_, by simp only [OrderBook.scanBest, OrderBook.scanBestAsk, hscan]; rfl,
        Or.inl ⟨hnone he, rfl⟩⟩
    · refine ⟨_, by simp only [OrderBook.scanBest, OrderBook.scanBestAsk, hscan]; rfl, Or.inr ?_⟩
      refine ⟨⟨k, PriceBitset.lt_of_mem_occupied hk.1⟩, (ho _).mp hk.1, rfl, fun j hj => ?_⟩
      by_contra hne
      exact absurd (hk.2 ((ho j).mpr hne)) (Nat.not_le.mpr hj)

/-- A level with orders left stays occupied, and the best level stays the best. -/
theorem Indexed.shrink {q : List (Fin cap)} (h : Indexed b Q s) (b' : OrderBook cap)
    (hbits : b'.bits s = b.bits s) (hbest : b'.best s = b.best s) (hne : Q s i ≠ []) (hq : q ≠ []) :
    Indexed b' (Q.set s i q) s where
  tiers := hbits ▸ h.tiers
  occupied j := by
    rw [hbits, h.occupied, Queues.set_apply]
    by_cases hj : j = i <;> simp [hj, hne, hq]
  best := by
    have hempty : ∀ j, Q.set s i q s j = [] ↔ Q s j = [] := by
      intro j
      rw [Queues.set_apply]
      by_cases hj : j = i <;> simp [hj, hne, hq]
    simpa only [BestOk, hbest, hempty, ne_eq] using h.best

/-- Clearing the bit of a level that is empty now. -/
theorem clear_occupied_iff {bs : PriceBitset}
    (h : ∀ j : Fin priceLevels, j.val ∈ bs.occupied ↔ Q s j ≠ []) (j : Fin priceLevels) :
    j.val ∈ (bs.clear i).occupied ↔ Q.set s i [] s j ≠ [] := by
  rw [PriceBitset.clear_occupied, Set.mem_sdiff, h, Set.mem_singleton_iff, Fin.val_inj,
    Queues.set_apply]
  by_cases hj : j = i <;> simp [hj]

/-- A level empties: its bit is cleared, and the next best price is found. -/
theorem clearBit_scanBest (ht : (b.bits s).Tiers)
    (ho : ∀ j : Fin priceLevels, j.val ∈ (b.bits s).occupied ↔ Q s j ≠ []) (i : Fin priceLevels) :
    ∃ p, (b.clearBit s i).scanBest s = some { b with
        bits := update b.bits s ((b.bits s).clear i), best := update b.best s p,
        scanCalls := b.scanCalls + 1 } ∧
      BestOk s (Q.set s i []) p := by
  have hbits : (b.clearBit s i).bits s = (b.bits s).clear i := by simp [OrderBook.clearBit]
  obtain ⟨p, hscan, hp⟩ := scanBest_spec (b := b.clearBit s i) (Q := Q.set s i [])
    (by rw [hbits]; exact PriceBitset.clear_tiers ht i)
    (by rw [hbits]; exact clear_occupied_iff ho)
  exact ⟨p, hscan, hp⟩

end Scan

/-! ### The loops -/

section Loops

variable {b : OrderBook cap} {Q : Queues cap} {s : BookSide} {i : Fin priceLevels} {a : Fin cap}

/-- **`drain_level` is a sweep of the level**: it ends, and it trades with the orders of
the queue from the front until the aggressor has nothing left. -/
theorem drainLevel_spec (side : Side) (h : Core b Q [a]) (hlive : Live b Q)
    (hf : (b.order a).filledQty ≤ (b.order a).quantity) {fuel : ℕ} (hfuel : (Q s i).length < fuel) :
    let m := sweep (fun _ => true) (b.order a).remaining.toNat (b.entries (Q s i))
    ∃ b' q', OrderBook.drainLevel s i a side fuel b = some b' ∧
      Traded b b' Q (Q.set s i q') (Q s i) side a m.trades ∧ b'.entries q' = m.rest ∧
      (b'.order a).remaining.toNat = m.left ∧ b'.bits = b.bits ∧ b'.best = b.best := by
  induction fuel generalizing b Q with
  | zero => omega
  | succ fuel ih =>
    by_cases ha : (b.order a).isFilled = true
    · -- the aggressor has nothing left
      have h0 := (Order.isFilled_iff hf).mp ha
      refine ⟨b, Q s i, by simp [OrderBook.drainLevel, ha], ?_, ?_, ?_, rfl, rfl⟩
      · rw [h0, sweep_zero, Queues.set_same]
        exact Traded.refl h hlive hf
      · rw [h0, sweep_zero]
      · rw [h0, sweep_zero]
    have hn : (b.order a).remaining.toNat ≠ 0 := fun e => ha ((Order.isFilled_iff hf).mpr e)
    cases hq : Q s i with
    | nil =>
      have he := (h.levels s i).empty_iff.mpr hq
      refine ⟨b, [], by simp [OrderBook.drainLevel, he], ?_, rfl, rfl, rfl, rfl⟩
      have : Q.set s i [] = Q := by rw [← hq, Queues.set_same]
      rw [this]
      exact Traded.refl h hlive hf
    | cons r q =>
      have he : (b.levels s i).empty = false := by
        rw [← Bool.not_eq_true, (h.levels s i).empty_iff, hq]
        simp
      have hfront : (b.levels s i).front = some r := by rw [(h.levels s i).front_eq, hq]; rfl
      have hstep : OrderBook.drainLevel s i a side (fuel + 1) b =
          OrderBook.drainLevel s i a side fuel ((b.tradeWith s i a r side).retire s i r) := by
        simp [OrderBook.drainLevel, he, ha, hfront]
      rw [hq, List.length_cons] at hfuel
      rw [hstep, OrderBook.entries_cons]
      rcases Nat.lt_or_ge (b.order a).remaining.toNat (b.order r).remaining.toNat with hlt | hge
      · -- the aggressor is used up, and the next round ends the loop
        obtain ⟨ht, hent, hrem, hbits, hbest⟩ :=
          round_short h hlive hf hq (UInt32.lt_iff_toNat_lt.mpr hlt) side
        rw [sweep_short hn rfl hlt]
        refine ⟨_, r :: q, ?_, ?_, hent, hrem, hbits, hbest⟩
        · cases fuel with
          | zero => omega
          | succ fuel => simp [OrderBook.drainLevel, (Order.isFilled_iff ht.filled).mpr hrem]
        · rw [← hq, Queues.set_same]
          exact ht
      · -- the resting order is used up
        obtain ⟨ht, hent, hrem, hbits, hbest⟩ :=
          round_full h hlive hf hq (UInt32.le_iff_toNat_le.mpr hge) side
        have hlen : (Q.set s i q s i).length < fuel := by
          rw [Queues.set_self]
          omega
        obtain ⟨b', q', hrun, ht', hent', hrem', hbits', hbest'⟩ :=
          ih ht.core ht.live ht.filled hlen
        rw [Queues.set_self, hent, hrem] at hent' hrem' ht'
        rw [Queues.set_set] at ht'
        rw [sweep_full hn rfl hge]
        refine ⟨b', q', hrun, ?_, hent', hrem', hbits'.trans hbits, hbest'.trans hbest⟩
        rw [← hq]
        exact ht.trans ht' fun p hp => by rw [hq]; exact List.mem_cons_of_mem _ hp

/-- At one level, only the level's price is asked about. -/
theorem sweep_level (h : Core b Q [a]) {accept : Price → Bool} (hacc : accept (priceAt i) = true)
    (n : ℕ) :
    sweep (fun p => accept (UInt32.ofNat p)) n (b.entries (Q s i)) = sweep (fun _ => true) n
      (b.entries (Q s i)) := by
  apply sweep_congr n _
  intro e he
  obtain ⟨p, hp, rfl⟩ := List.mem_map.mp he
  rw [OrderBook.price_entry, (h.orders s i p hp).price, UInt32.ofNat_toNat, hacc]

/-- From the best level on: its queue comes first, whatever it is, and the orders behind it are
those of worse levels. -/
theorem resting_from_best (hbest : ∀ j, s.dir.Better j.val i.val → Q s j = []) :
    ∃ later, (∀ q, (Q.set s i q).resting s = q ++ later) ∧
      ∀ p ∈ later, ∃ j, s.dir.Better i.val j.val ∧ p ∈ Q s j := by
  obtain ⟨before, later, hset, hbef, hlater⟩ := Queues.resting_set Q s i
  obtain rfl : before = [] := by
    apply List.eq_nil_iff_forall_not_mem.mpr
    intro p hp
    obtain ⟨j, hj, hp⟩ := hbef p hp
    rw [hbest j hj] at hp
    exact List.not_mem_nil hp
  exact ⟨later, fun q => by rw [hset, List.nil_append], hlater⟩

/-- Orders are left at a level only when the aggressor has nothing left. -/
theorem sweep_level_left {n : ℕ} (hrest : (sweep (fun _ => true) n (b.entries (Q s i))).rest ≠ []) :
    (sweep (fun _ => true) n (b.entries (Q s i))).left = 0 := by
  rcases sweep_stops (fun _ => true) n (b.entries (Q s i)) with h0 | hnil | ⟨_, _, -, hfalse⟩
  · exact h0
  · exact absurd hnil hrest
  · simp at hfalse

/-- What it means to be indexed depends on the side alone. -/
theorem Indexed.congr {b' : OrderBook cap} {Q' : Queues cap} (h : Indexed b Q s)
    (hbits : b'.bits s = b.bits s) (hbest : b'.best s = b.best s) (hQ : Q' s = Q s) :
    Indexed b' Q' s where
  tiers := by
    rw [hbits]
    exact h.tiers
  occupied := by
    rw [hbits, hQ]
    exact h.occupied
  best := by
    rw [BestOk, hbest, hQ]
    exact h.best

/-- A side's bitset and best price are replaced; another side is indexed as before. -/
theorem Indexed.replace {b' : OrderBook cap} {Q' : Queues cap} {s' : BookSide} {bits : PriceBitset}
    {best : Price} (hbits : b'.bits = update b.bits s bits) (hbest : b'.best = update b.best s best)
    (hi : s' ≠ s → Indexed b Q s') (hQ : s' ≠ s → Q' s' = Q s') (htiers : bits.Tiers)
    (hocc : ∀ j : Fin priceLevels, j.val ∈ bits.occupied ↔ Q' s j ≠ []) (hok : BestOk s Q' best) :
    Indexed b' Q' s' := by
  by_cases hs : s' = s
  · subst hs
    refine ⟨?_, ?_, ?_⟩
    · rwa [hbits, Function.update_self]
    · rwa [hbits, Function.update_self]
    · rwa [hbest, Function.update_self]
  · apply (hi hs).congr _ _ (hQ hs)
    · rw [hbits, Function.update_of_ne hs]
    · rw [hbest, Function.update_of_ne hs]

/-- **A used-up level leaves the index**: its bit is cleared, and the next best price is found. -/
theorem Indexed.rescan {b₁ : OrderBook cap} (hi : Indexed b Q s) (hbits : b₁.bits = b.bits)
    (hbest : b₁.best = b.best) (i : Fin priceLevels) :
    ∃ p, (b₁.clearBit s i).scanBest s = some { b₁ with
        bits := update b.bits s ((b.bits s).clear i), best := update b.best s p,
        scanCalls := b₁.scanCalls + 1 } ∧
      Indexed { b₁ with
        bits := update b.bits s ((b.bits s).clear i), best := update b.best s p,
        scanCalls := b₁.scanCalls + 1 }
        (Q.set s i []) s := by
  obtain ⟨p, hscan, hp⟩ :=
    clearBit_scanBest (b := b₁) (Q := Q) (s := s) (by rw [hbits]; exact hi.tiers)
    (by rw [hbits]; exact hi.occupied) i
  rw [hbits, hbest] at hscan
  exact ⟨p, hscan, Indexed.replace rfl rfl (fun _ => hi) (fun hs => absurd rfl hs)
    (PriceBitset.clear_tiers hi.tiers i) (clear_occupied_iff hi.occupied) hp⟩

/-- What a matching loop comes to that trades `m`: the bitset and the best price of its side
follow. -/
structure Swept (s : BookSide) (side : Side) (accept : Price → Bool) (a : Fin cap)
    (m : Matched (Entry cap)) (b b' : OrderBook cap) (Q Q' : Queues cap) : Prop where
  /-- The trades. -/
  traded : Traded b b' Q Q' (Q.resting s) side a m.trades
  /-- The side is indexed. -/
  indexed : Indexed b' Q' s
  /-- The orders that are left. -/
  rest : b'.entries (Q'.resting s) = m.rest
  /-- What the aggressor has left. -/
  left : (b'.order a).remaining.toNat = m.left
  /-- The loop ended. -/
  stops : m.left = 0 ∨ accept (b'.best s) = false
  /-- The other side. -/
  others : ∀ s', s' ≠ s → Q' s' = Q s' ∧ b'.bits s' = b.bits s' ∧ b'.best s' = b.best s'

/-- The loop ends without a trade. -/
theorem Swept.refl {side : Side} {accept : Price → Bool} (h : Core b Q [a]) (hlive : Live b Q)
    (hf : (b.order a).filledQty ≤ (b.order a).quantity) (hi : Indexed b Q s)
    (hstop : (b.order a).remaining.toNat = 0 ∨ accept (b.best s) = false) :
    Swept s side accept a ⟨[], (b.order a).remaining.toNat, b.entries (Q.resting s)⟩ b b Q Q where
  traded := Traded.refl h hlive hf
  indexed := hi
  rest := rfl
  left := rfl
  stops := hstop
  others _ _ := ⟨rfl, rfl, rfl⟩

/-- The loop goes on behind a level that is used up. -/
theorem Swept.behind {b₁ b' : OrderBook cap} {Q' : Queues cap} {side : Side} {accept : Price → Bool}
    {later : List (Fin cap)} {trades : List (Entry cap × ℕ)} {m : Matched (Entry cap)}
    (ht : Traded b b₁ Q (Q.set s i []) (Q s i) side a trades) (hrest : Q.resting s = Q s i ++ later)
    (hrest₁ : (Q.set s i []).resting s = later)
    (hother : ∀ s', s' ≠ s → b₁.bits s' = b.bits s' ∧ b₁.best s' = b.best s')
    (h : Swept s side accept a m b₁ b' (Q.set s i []) Q') :
    Swept s side accept a ⟨trades ++ m.trades, m.left, m.rest⟩ b b' Q Q' where
  traded := by
    have hlevel : ∀ p ∈ Q s i, p ∈ Q.resting s := fun p hp => by simp [hrest, hp]
    apply (ht.mono hlevel).trans h.traded
    intro p hp
    rw [hrest₁] at hp
    simp [hrest, hp]
  indexed := h.indexed
  rest := h.rest
  left := h.left
  stops := h.stops
  others s' hs' := by
    obtain ⟨hQ, hbits, hbest⟩ := h.others s' hs'
    obtain ⟨hbits₁, hbest₁⟩ := hother s' hs'
    exact ⟨hQ.trans (by simp [Queues.set, hs']), hbits.trans hbits₁, hbest.trans hbest₁⟩

/-- **A matching loop is a sweep of its side**: it ends, it trades with the orders in
price-time priority until the aggressor has nothing left or the best price is not
acceptable, and the bitset and the best price follow. -/
theorem matchWhile_spec (side : Side) {accept : Price → Bool} (hno : accept s.noPrice = false)
    (h : Core b Q [a]) (hlive : Live b Q) (hf : (b.order a).filledQty ≤ (b.order a).quantity)
    (hi : Indexed b Q s) {fuel : ℕ} (hfuel : (Q.resting s).length < fuel) :
    ∃ b' Q', OrderBook.matchWhile s side accept a fuel b = some b' ∧
      Swept s side accept a
        (sweep (fun p => accept (UInt32.ofNat p)) (b.order a).remaining.toNat
          (b.entries (Q.resting s))) b b' Q Q' := by
  induction fuel generalizing b Q with
  | zero => omega
  | succ fuel ih =>
    by_cases ha : (b.order a).isFilled = true
    · -- the aggressor has nothing left
      have h0 := (Order.isFilled_iff hf).mp ha
      have hs : Swept s side accept a _ b b Q Q := .refl h hlive hf hi (Or.inl h0)
      rw [h0] at hs ⊢
      exact ⟨b, Q, by simp [OrderBook.matchWhile, ha], by rwa [sweep_zero]⟩
    have hn : (b.order a).remaining.toNat ≠ 0 := fun e => ha ((Order.isFilled_iff hf).mpr e)
    rcases hi.best with ⟨hempty, hbest⟩ | ⟨i, hne, hbest, hbetter⟩
    · -- the side is empty
      have hr : Q.resting s = [] := by simp [Queues.resting, hempty]
      have hs : Swept s side accept a _ b b Q Q := .refl h hlive hf hi (Or.inr (by rw [hbest, hno]))
      rw [hr] at hs ⊢
      exact ⟨b, Q, by simp [OrderBook.matchWhile, hbest, hno], hs⟩
    -- `i` is the best level; the rest of the side is `later`
    obtain ⟨later, hset, hlater⟩ := resting_from_best hbetter
    have hrest := hset (Q s i)
    rw [Queues.set_same] at hrest
    cases hacc : accept (priceAt i) with
    | false =>
      -- the best price is not acceptable
      obtain ⟨r, q, hq⟩ := List.exists_cons_of_ne_nil hne
      have hprice : price (b.entry r) = (priceAt i).toNat := by
        rw [OrderBook.price_entry, (h.orders s i r (by simp [hq])).price]
      have hs : Swept s side accept a _ b b Q Q :=
        .refl h hlive hf hi (Or.inr (by rw [hbest, hacc]))
      rw [hrest, hq, List.cons_append, OrderBook.entries_cons] at hs ⊢
      exact ⟨b, Q, by simp [OrderBook.matchWhile, hbest,
        hacc], by rwa [sweep_refuse (by simpa [hprice] using hacc)]⟩
    | true =>
      have hlen : (Q s i).length < cap + 1 := by
        have := (h.levels s i).nodup.length_le_card
        rw [Fintype.card_fin] at this
        omega
      obtain ⟨b₁, q', hrun, ht, hent, hrem, hbits, hbst⟩ :=
        drainLevel_spec (s := s) (i := i) side h hlive hf hlen
      rw [← sweep_level h hacc] at ht hent hrem
      have hlevel : (b₁.levels s i).empty = true ↔ q' = [] := by
        rw [(ht.core.levels s i).empty_iff, Queues.set_self]
      have hrest' := hset q'
      -- the later orders are not touched
      have hframe : b₁.entries later = b.entries later := OrderBook.entries_congr fun p hp => by
        obtain ⟨j, hj, hp⟩ := hlater p hp
        have hji : ¬ (s = s ∧ i = j) := by
          rintro ⟨-, rfl⟩
          exact s.dir.better_irrefl _ hj
        rw [ht.frame p (h.ne_of_held (by simp) hp) (h.not_mem_of_ne hp hji)]
      by_cases hq' : q' = []
      · -- the level is used up: the next best price is found, and the loop goes on
        subst hq'
        obtain ⟨p, hscan, hi₂⟩ := hi.rescan hbits hbst i
        set b₂ : OrderBook cap := { b₁ with
          bits := update b.bits s ((b.bits s).clear i), best := update b.best s p,
          scanCalls := b₁.scanCalls + 1 }
        have ht₂ : Traded b b₂ Q (Q.set s i []) (Q s i) side a _ := ht.index _ _ _
        have hstep : OrderBook.matchWhile s side accept a (fuel + 1) b =
            OrderBook.matchWhile s side accept a fuel b₂ := by
          simp [OrderBook.matchWhile, ha, hbest, hacc, hrun, hlevel.mpr rfl, hscan]
        rw [List.nil_append] at hrest'
        have hlen' : ((Q.set s i []).resting s).length < fuel := by
          have := List.length_pos_iff.mpr hne
          rw [hrest, List.length_append] at hfuel
          rw [hrest']
          omega
        obtain ⟨b', Q', hrun', hs⟩ := ih ht₂.core ht₂.live ht₂.filled hi₂ hlen'
        have he₂ : b₂.entries ((Q.set s i []).resting s) = b.entries later := by
          rw [hrest']
          exact hframe
        have hr₂ : (b₂.order a).remaining.toNat = _ := hrem
        rw [he₂, hr₂] at hs
        refine ⟨b', Q', hstep ▸ hrun', ?_⟩
        rw [hrest, OrderBook.entries_append, sweep_append _ _ _ (by rw [← hent]; rfl)]
        exact hs.behind ht₂ hrest hrest' fun s' hs' =>
          ⟨Function.update_of_ne hs' _ _, Function.update_of_ne hs' _ _⟩
      · -- an order of the level is left: the aggressor is used up, and the loop ends
        have hleft : (b₁.order a).remaining.toNat = 0 := by
          rw [hrem, sweep_level h hacc]
          rw [sweep_level h hacc] at hent
          apply sweep_level_left
          intro hnil
          rw [← hent, OrderBook.entries_eq_nil] at hnil
          exact hq' hnil
        have hstep : OrderBook.matchWhile s side accept a (fuel + 1) b = some b₁ := by
          have hf₁ := (Order.isFilled_iff ht.filled).mpr hleft
          cases fuel with
          | zero =>
            have := List.length_pos_iff.mpr hne
            rw [hrest, List.length_append] at hfuel
            omega
          | succ fuel => simp [OrderBook.matchWhile, ha, hbest, hacc, hrun, hlevel, hq', hf₁]
        refine ⟨b₁, Q.set s i q', hstep, ?_⟩
        rw [hrest, OrderBook.entries_append,
          sweep_append_of_left_eq_zero _ _ _ (by rw [← hrem, hleft])]
        exact {
          traded := ht.mono fun p hp => by simp [hrest, hp]
          indexed := hi.shrink b₁ (by rw [hbits]) (by rw [hbst]) hne hq'
          rest := by rw [hrest', OrderBook.entries_append, hent, hframe]
          left := hleft
          stops := Or.inl rfl
          others := fun s' hs' => ⟨by simp [Queues.set, hs'], by rw [hbits], by rw [hbst]⟩ }

end Loops

/-! ### While an order is matched -/

/-- An order in hand that is matched, and the book around it. -/
def Matching (o : Fin cap) (b : OrderBook cap) : Prop :=
  ∃ Q, Core b Q [o] ∧ Live b Q ∧ (b.order o).filledQty ≤ (b.order o).quantity

section Matching

variable {b b' : OrderBook cap} {o p : Fin cap} {s : BookSide} {i : Fin priceLevels}

/-- It is not the first of a level. -/
theorem Matching.front_ne (h : Matching o b) (hp : (b.levels s i).front = some p) : p ≠ o := by
  obtain ⟨Q, hc, -, -⟩ := h
  rw [(hc.levels s i).front_eq] at hp
  exact hc.ne_of_held (by simp) (List.mem_of_head? hp)

/-- Neither that order nor the one in hand is free. -/
theorem Matching.not_free (h : Matching o b) (hp : (b.levels s i).front = some p) :
    p ∉ b.pool.freeList ∧ o ∉ b.pool.freeList := by
  obtain ⟨Q, hc, -, -⟩ := h
  rw [(hc.levels s i).front_eq] at hp
  exact ⟨hc.not_free_of_queued (List.mem_of_head? hp), hc.not_free_of_held (by simp)⟩

/-- A trade with the first order of a level goes on with matching. -/
theorem Matching.round (h : Matching o b) (hp : (b.levels s i).front = some p) (side : Side) :
    Matching o ((b.tradeWith s i o p side).retire s i p) := by
  obtain ⟨Q, hc, hl, hf⟩ := h
  rw [(hc.levels s i).front_eq] at hp
  obtain ⟨q, hq⟩ := List.head?_eq_some_iff.mp hp
  rcases Nat.lt_or_ge (b.order o).remaining.toNat (b.order p).remaining.toNat with hlt | hge
  · obtain ⟨ht, -⟩ := round_short hc hl hf hq (UInt32.lt_iff_toNat_lt.mpr hlt) side
    exact ⟨Q, ht.core, ht.live, ht.filled⟩
  · obtain ⟨ht, -⟩ := round_full hc hl hf hq (UInt32.le_iff_toNat_le.mpr hge) side
    exact ⟨_, ht.core, ht.live, ht.filled⟩

/-- The search for the next best price touches no order. -/
theorem Matching.scan (h : Matching o b) (hs : (b.clearBit s i).scanBest s = some b') :
    Matching o b' := by
  have hframe : b'.levels = b.levels ∧ b'.pool = b.pool ∧ b'.orderTable = b.orderTable := by
    cases s
    · simp only [OrderBook.scanBest, OrderBook.scanBestBid, Option.bind_eq_bind,
        Option.bind_eq_some_iff, Option.pure_def, Option.some.injEq] at hs
      obtain ⟨_, -, rfl⟩ := hs
      exact ⟨rfl, rfl, rfl⟩
    · simp only [OrderBook.scanBest, OrderBook.scanBestAsk, Option.bind_eq_bind,
        Option.bind_eq_some_iff, Option.pure_def, Option.some.injEq] at hs
      obtain ⟨_, -, rfl⟩ := hs
      exact ⟨rfl, rfl, rfl⟩
  obtain ⟨Q, hc, hl, hf⟩ := h
  have horder : ∀ p, b'.order p = b.order p :=
    fun p => congrArg (fun pool => pool.arena p) hframe.2.1
  refine ⟨Q, hc.congr hframe.1 hframe.2.1 hframe.2.2, fun s i p hp => ?_, ?_⟩
  · rw [horder]
    exact hl s i p hp
  · rw [horder]
    exact hf

end Matching

end TradeFeed
