import Mathlib.Algebra.Order.Group.Nat
import TradeFeed.Core.Impact
import TradeFeed.Engine.Steps

/-!
# The totals of the levels

`total_qty_` is a 32-bit sum of the 32-bit quantities that clients choose, and `drain_level`
takes each fill off it as a signed 32-bit amount. `Sound` says that neither has overflowed: the
published totals are the true ones, and every quantity that was filled fits the conversion.

Both can. `QuantitiesFit` is the exact condition on an order that comes in, in terms of the
orders that rest: one that it can trade with has less than 2³¹ left, or is reached with less
than 2³¹ to fill, and what then rests still fits the total at its price (`Accepted.sound_iff`).
`totals_exact` says that a run is sound all along exactly when every order that comes in fits.
-/

namespace TradeFeed

open Lib Lib.PriceTime Tradable
open OrderBook (badPrice incoming)

variable {cap : ℕ}

/-- What remains of the orders that rest at a level. -/
def OrderBook.restingQty (b : OrderBook cap) (s : BookSide) (i : Fin priceLevels) : ℕ :=
  queueQty b.pool.arena (b.queue s i)

/-- The published quantities are those of the orders that rest. -/
def TotalsExact (b : OrderBook cap) : Prop :=
  ∀ p i, levelOf p = some i → (b.bidQtyAt p).map UInt32.toNat = some (b.restingQty .bids i) ∧
    (b.askQtyAt p).map UInt32.toNat = some (b.restingQty .asks i)

/-- `static_cast<int32_t>(fill_q)` is the quantity, and its negation the negated quantity. -/
def Converts (fillQ : Quantity) : Prop :=
  fillQ.toInt32.toInt = fillQ.toNat ∧ (-fillQ.toInt32).toInt = -(fillQ.toNat : ℤ)

instance (fillQ : Quantity) : Decidable (Converts fillQ) := inferInstanceAs (Decidable (_ ∧ _))

/-- Nothing has overflowed. A round of `drain_level` records the quantity that it converts as
that of the fill. -/
structure Sound (b : OrderBook cap) : Prop where
  /-- The totals are exact. -/
  totals : TotalsExact b
  /-- The conversions were exact. -/
  fills : ∀ f ∈ b.fills, Converts f.quantity

/-- The quantity that `tradeWith` converts is that of the fill that it records. -/
theorem tradeWith_converts (b : OrderBook cap) (s : BookSide) (i : Fin priceLevels) (a r : Fin cap)
    (side : Side) :
    ∃ f, (b.tradeWith s i a r side).fills = b.fills ++ [f] ∧
      (b.tradeWith s i a r side).levels s i = (b.levels s i).adjustQty (-f.quantity.toInt32) := by
  refine ⟨_, rfl, ?_⟩
  show (OrderBook.setLevel _ s i _).levels s i = _
  rw [OrderBook.setLevel_levels, if_pos ⟨rfl, rfl⟩]
  by_cases hb : side = .buy <;> simp [OrderBook.mkFill, hb, OrderBook.writeOrder,
    OrderBook.setArena]

/-- What the orders have left that an incoming order can trade with, by priority. -/
def crossed (b : OrderBook cap) (Q : Queues cap) (new : Order cap) : List ℕ :=
  ((Q.resting new.side.book.opposite).filter fun p =>
    CanTrade new.side new.type new.price (b.order p).price).map
    fun p => (b.order p).remaining.toNat

/-- The quantities fit when the order comes in. -/
structure QuantitiesFit (b : OrderBook cap) (Q : Queues cap) (new : Order cap) : Prop where
  /-- Each order that it can trade with has less than 2³¹ left, or is reached with less than that to
  fill. -/
  trades : ∀ k (hk : k < (crossed b Q new).length), (crossed b Q new)[k] < 2 ^ 31 ∨
    new.quantity.toNat < ((crossed b Q new).take k).sum + 2 ^ 31
  /-- What they cannot fill of a limit order fits the total at its price. -/
  rests : new.type = .limit → ∀ i, levelOf new.price = some i →
    queueQty b.pool.arena (Q new.side.book i) + (new.quantity.toNat - (crossed b Q new).sum) <
      2 ^ 32

/-- The order that a message brings, if it is not refused, fits; a modified order has left by
then. -/
structure MessageFits (e : MatchingEngine cap) (msg : InboundMessage) : Prop where
  /-- A new order. -/
  added : msg.type = .newOrder → ¬ Refused e msg →
    QuantitiesFit e.book e.book.queue (newOrderOf e msg)
  /-- A modified order. -/
  modified : msg.type = .modifyOrder → badPrice .limit msg.price = false →
    ∀ o, e.book.lookup msg.orderId = some o →
    QuantitiesFit e.book (e.book.queue.without o) (modifiedOf (e.book.order o) msg)

/-- Every message of a run fits when its turn comes. -/
def AllFit (e : MatchingEngine cap) : List (Timestamp × InboundMessage) → Prop
  | [] => True
  | (tsc, msg) :: msgs => MessageFits e msg ∧ ∀ e' out, e.process tsc msg = some (e', out) →
    AllFit e' msgs

/-! ### A book -/

section Book

variable {b b' : OrderBook cap} {Q Q' : Queues cap} {o : Fin cap} {new : Order cap}

/-- The conversions are exact below 2³¹. -/
theorem converts_iff (q : Quantity) : Converts q ↔ q.toNat < 2 ^ 31 := by
  have hlt := q.toNat_lt
  have hconv : q.toInt32.toInt = if 2 * q.toNat < 2 ^ 32 then (q.toNat : ℤ)
      else q.toNat - (2 ^ 32 : ℕ) :=
    BitVec.toInt_eq_toNat_cond q.toBitVec
  rw [Converts, Int32.toInt_neg, hconv]
  split_ifs with h
  · rw [Int.bmod_eq_of_le (by omega) (by omega)]
    exact iff_of_true ⟨rfl, rfl⟩ (by omega)
  · exact iff_of_false (fun hc => by omega) (by omega)

/-- The totals are exact when they fit in 32 bits. -/
theorem totalsExact_iff (h : Core b Q []) :
    TotalsExact b ↔ ∀ s i, queueQty b.pool.arena (Q s i) < 2 ^ 32 := by
  obtain rfl := h.queue_eq
  have hlevel : ∀ s i, (b.levels s i).totalQty.toNat = b.restingQty s i ↔
      b.restingQty s i < 2 ^ 32 := fun s i => by
    have ht : (b.levels s i).totalQty.toNat = b.restingQty s i % 2 ^ 32 := (h.levels s i).total
    rw [ht, Nat.mod_eq_iff_lt (Nat.two_pow_pos 32).ne']
  have hside : ∀ i, (b.bidQtyAt (priceAt i)).map UInt32.toNat =
    some (b.levels .bids i).totalQty.toNat ∧
      (b.askQtyAt (priceAt i)).map UInt32.toNat = some (b.levels .asks i).totalQty.toNat :=
        fun i => by
    simp [OrderBook.bidQtyAt, OrderBook.askQtyAt]
  constructor
  · intro ht s i
    obtain ⟨hb, ha⟩ := ht (priceAt i) i (levelOf_priceAt i)
    rw [(hside i).1, Option.some.injEq] at hb
    rw [(hside i).2, Option.some.injEq] at ha
    cases s
    · exact (hlevel .bids i).mp hb
    · exact (hlevel .asks i).mp ha
  · intro hlt p i hi
    obtain rfl := levelOf_eq_some.mp hi
    rw [(hside i).1, (hside i).2, (hlevel .bids i).mpr (hlt .bids i),
      (hlevel .asks i).mpr (hlt .asks i)]
    exact ⟨rfl, rfl⟩

/-- A queue's quantity, from its entries. -/
theorem queueQty_eq (b : OrderBook cap) (q : List (Fin cap)) :
    queueQty b.pool.arena q = ((b.entries q).map remaining).sum := by
  rw [OrderBook.entries, List.map_map]
  rfl

/-- The orders that an incoming order can trade with are those at prices it accepts. -/
theorem crossed_eq (h : Core b Q []) (new : Order cap) : crossed b Q new =
    acceptable (fun p => accepts new.side new.type new.price (UInt32.ofNat p))
      (b.entries (Q.resting new.side.book.opposite)) := by
  rw [crossed, acceptable, OrderBook.entries, List.filter_map, List.map_map]
  refine congrArg (List.map fun p => (b.order p).remaining.toNat) (List.filter_congr fun p hp => ?_)
  obtain ⟨i, hi⟩ := Queues.mem_resting.mp hp
  have hprice : price (b.entry p) = (priceAt i).toNat :=
    congrArg UInt32.toNat (h.orders _ i p hi).price
  rw [(h.orders _ i p hi).price, Function.comp_apply, hprice, UInt32.ofNat_toNat]
  exact Bool.eq_iff_iff.mpr (by rw [decide_eq_true_eq, accepts_priceAt])

/-- By priority, the prices that an incoming order accepts come first. -/
theorem accepted_first (h : Core b Q []) (new : Order cap) :
    (b.entries (Q.resting new.side.book.opposite)).Pairwise fun e e' =>
      accepts new.side new.type new.price (UInt32.ofNat (price e')) = true →
        accepts new.side new.type new.price (UInt32.ofNat (price e)) = true := by
  rw [OrderBook.entries, List.pairwise_map]
  refine (resting_sorted h _).imp_of_mem fun {p p'} hp hp' hs hacc => ?_
  obtain ⟨i, hi⟩ := Queues.mem_resting.mp hp
  obtain ⟨i', hi'⟩ := Queues.mem_resting.mp hp'
  have hprice : price (b.entry p) = (priceAt i).toNat :=
    congrArg UInt32.toNat (h.orders _ i p hi).price
  have hprice' : price (b.entry p') = (priceAt i').toNat :=
    congrArg UInt32.toNat (h.orders _ i' p' hi').price
  rw [(h.orders _ i p hi).price, (h.orders _ i' p' hi').price] at hs
  rw [hprice', UInt32.ofNat_toNat, accepts_priceAt] at hacc
  rw [hprice, UInt32.ofNat_toNat, accepts_priceAt]
  exact hacc.mono hs

/-- What is left of an incoming order is what it cannot trade. -/
theorem left_eq (h : Core b Q []) (new : Order cap) :
    (trading b Q new).left = new.quantity.toNat - (crossed b Q new).sum := by
  rw [crossed_eq h, trading, sweep_left_eq (accepted_first h new)]

/-- Its fills are converted exactly when each order it can trade with is small, or is
reached with little to fill. -/
theorem Accepted.converts_iff (h : Inv b Q) (ha : Accepted b b' Q Q' o new) (hnil : b.fills = []) :
    (∀ f ∈ b'.fills, Converts f.quantity) ↔ ∀ k (hk : k < (crossed b Q new).length),
      (crossed b Q new)[k] < 2 ^ 31 ∨ new.quantity.toNat < ((crossed b Q new).take k).sum +
        2 ^ 31 := by
  have hq : ∀ t ∈ (trading b Q new).trades, Converts (fillOf new.side new t).quantity ↔
      t.2 < 2 ^ 31 := fun t ht => by
    rw [TradeFeed.converts_iff, quantity_fillOf (mem_trades _ _ ht).2.1 new]
  rw [ha.fills, hnil, List.nil_append, List.forall_mem_map, forall₂_congr hq]
  simp only [crossed_eq h.core]
  exact trades_lt_iff (accepted_first h.core new) (Nat.two_pow_pos 31) _

/-- What rests on the order's own side afterwards. -/
theorem Accepted.own_queueQty (ha : Accepted b b' Q Q' o new) (i : Fin priceLevels) :
    queueQty b'.pool.arena (Q' new.side.book i) = queueQty b.pool.arena (Q new.side.book i) +
      if Rests b Q new ∧ new.price = priceAt i then (trading b Q new).left else 0 := by
  rw [queueQty_eq, queueQty_eq, ha.joined, List.map_append, List.sum_append]
  congr 1
  split_ifs
  · show (remainder b Q new).remaining.toNat + 0 = _
    rw [remainder_remaining, Nat.add_zero]
  · rfl

/-- On the opposite side no level has more than before. -/
theorem Accepted.opposite_queueQty (h : Inv b Q) (ha : Accepted b b' Q Q' o new)
    (i : Fin priceLevels) :
    queueQty b'.pool.arena (Q' new.side.book.opposite i) ≤
      queueQty b.pool.arena (Q new.side.book.opposite i) := by
  have hp : ∀ e : Entry cap,
      decide (e.2.price = priceAt i) = decide (price e = (priceAt i).toNat) := fun e =>
    decide_eq_decide.mpr UInt32.toNat_inj.symm
  rw [queueQty_eq, queueQty_eq, ← filter_entries ha.inv.core, ← filter_entries h.core, ha.swept]
  simp only [hp]
  exact sum_rest_le (· = (priceAt i).toNat) _ _

/-- **Nothing overflows when an order is accepted** exactly when its quantities fit. -/
theorem Accepted.sound_iff (h : Inv b Q) (ha : Accepted b b' Q Q' o new) (hnil : b.fills = [])
    (hlt : ∀ s i, queueQty b.pool.arena (Q s i) < 2 ^ 32) : Sound b' ↔ QuantitiesFit b Q new := by
  have hown := ha.own_queueQty
  have hleft := left_eq h.core new
  have hfills := ha.converts_iff h hnil
  constructor
  · intro hs
    refine ⟨hfills.mp hs.fills, fun hlimit i hi => ?_⟩
    rw [← hleft]
    by_cases h0 : (trading b Q new).left = 0
    · rw [h0]
      exact hlt _ i
    · have hlt' := (totalsExact_iff ha.inv.core).mp hs.totals new.side.book i
      rwa [hown, if_pos ⟨⟨h0, hlimit⟩, levelOf_eq_some.mp hi⟩] at hlt'
  · intro hf
    refine ⟨(totalsExact_iff ha.inv.core).mpr fun s i => ?_, hfills.mpr hf.trades⟩
    by_cases hs : s = new.side.book
    · subst hs
      rw [hown]
      split_ifs with hr
      · rw [hleft]
        exact hf.rests hr.1.2 i (levelOf_eq_some.mpr hr.2)
      · exact hlt _ i
    · obtain rfl : s = new.side.book.opposite := by
        revert hs
        cases s <;> cases new.side.book <;> simp [BookSide.opposite]
      exact (ha.opposite_queueQty h i).trans_lt (hlt _ i)

/-- An order for less than 2³¹ fits where no order rests at its price. -/
theorem quantitiesFit_of_small (hq : new.quantity.toNat < 2 ^ 31)
    (hempty : new.type = .limit → ∀ i, Q new.side.book i = []) : QuantitiesFit b Q new where
  trades _ _ := Or.inr (hq.trans_le (Nat.le_add_left _ _))
  rests hlimit i _ := by
    rw [hempty hlimit i, queueQty, List.map_nil, List.sum_nil, Nat.zero_add]
    omega

/-- Clearing the fills changes no total. -/
theorem Sound.cleared (h : Sound b) : Sound b.clearFills :=
  ⟨h.totals, by simp [OrderBook.clearFills]⟩

/-- When an order leaves, no level has more than before. -/
theorem Left.queueQty_le (ha : Left b b' Q o) (s : BookSide) (i : Fin priceLevels) :
    queueQty b'.pool.arena (Q.without o s i) ≤ queueQty b.pool.arena (Q s i) := by
  have hbare : ∀ p ∈ Q.without o s i, (b'.pool.arena p).bare = (b.pool.arena p).bare := fun p hp =>
    ha.others p (Queues.mem_without.mp hp).2
  rw [queueQty_congr hbare, queueQty, queueQty]
  exact (List.filter_sublist.map _).sum_le_sum fun _ _ => Nat.zero_le _

/-- An order that leaves makes nothing overflow. -/
theorem Left.sound (h : Inv b Q) (ha : Left b b' Q o) (hs : Sound b) : Sound b' := by
  have hlt := (totalsExact_iff h.core).mp hs.totals
  refine ⟨(totalsExact_iff ha.inv.core).mpr fun s i => (ha.queueQty_le s i).trans_lt (hlt s i), ?_⟩
  rw [ha.fills]
  exact hs.fills

/-- For an order that comes in, it makes no difference that another has left. -/
theorem Left.quantitiesFit_iff (ha : Left b b' Q o) (new : Order cap) :
    QuantitiesFit b' (Q.without o) new ↔ QuantitiesFit b (Q.without o) new := by
  have hbare : ∀ s i, ∀ p ∈ Q.without o s i, (b'.order p).bare = (b.order p).bare := fun s i p hp =>
    ha.others p (Queues.mem_without.mp hp).2
  have hcrossed : crossed b' (Q.without o) new = crossed b (Q.without o) new := by
    have hb : ∀ p ∈ (Q.without o).resting new.side.book.opposite,
        (b'.order p).bare = (b.order p).bare := fun p hp => by
      obtain ⟨i, hi⟩ := Queues.mem_resting.mp hp
      exact hbare _ i p hi
    have hprice : ∀ p ∈ (Q.without o).resting new.side.book.opposite,
        (b'.order p).price = (b.order p).price :=
      fun p hp => by
        show (b'.order p).bare.price = (b.order p).bare.price
        rw [hb p hp]
    have hrem : ∀ p ∈ (Q.without o).resting new.side.book.opposite,
        (b'.order p).remaining = (b.order p).remaining :=
      fun p hp => by rw [← Order.bare_remaining, hb p hp, Order.bare_remaining]
    rw [crossed, crossed, List.filter_congr fun p hp => by rw [hprice p hp]]
    exact List.map_congr_left fun p hp => by rw [hrem p (List.mem_of_mem_filter hp)]
  have hqty : ∀ i, queueQty b'.pool.arena (Q.without o new.side.book i) =
      queueQty b.pool.arena (Q.without o new.side.book i) := fun i => queueQty_congr (hbare _ i)
  constructor
  · rintro ⟨ht, hr⟩
    exact ⟨by simpa only [hcrossed] using ht, by simpa only [hcrossed, hqty] using hr⟩
  · rintro ⟨ht, hr⟩
    exact ⟨by simpa only [hcrossed] using ht, by simpa only [hcrossed, hqty] using hr⟩

end Book

/-! ### The engine -/

section Engine

variable {e e' : MatchingEngine cap} {Q Q' : Queues cap} {tsc : Timestamp} {msg : InboundMessage}
  {out : List OutboundMessage}

/-- A message that is neither a new order nor a modification fits. -/
theorem messageFits_of_ne (hn : msg.type ≠ .newOrder) (hm : msg.type ≠ .modifyOrder) :
    MessageFits e msg :=
  ⟨fun h => absurd h hn, fun h => absurd h hm⟩

/-- **A step** leaves nothing overflowed exactly when the message fits. -/
theorem Processed.sound_iff (hinv : Inv e.book Q) (hs : Sound e.book)
    (hp : Processed e Q tsc msg e' Q' out) :
    Sound e'.book ↔ MessageFits e msg := by
  have hcn : MessageType.cancelOrder ≠ .newOrder := by decide
  have hcm : MessageType.cancelOrder ≠ .modifyOrder := by decide
  have hmn : MessageType.modifyOrder ≠ .newOrder := by decide
  have hinv' : Inv e.book.clearFills Q := clearFills_inv hinv
  have hlt := (totalsExact_iff hinv.core).mp hs.totals
  have hnew : msg.type = .newOrder → ¬ msg.type = .modifyOrder := fun h h' => hmn (h'.symm.trans h)
  cases hp with
  | unknown hn _ hm => exact iff_of_true hs (messageFits_of_ne hn hm)
  | refused hn hr =>
    exact iff_of_true hs.cleared ⟨fun _ h => absurd hr h, fun h => absurd h (hnew hn)⟩
  | added hn hr ha =>
    refine (ha.sound_iff hinv' rfl hlt).trans
      ⟨fun h => ⟨fun _ _ => ?_, fun h => absurd h (hnew hn)⟩, fun h => ?_⟩
    · rw [hinv.queue_eq]
      exact ⟨h.trades, h.rests⟩
    · have := h.added hn hr
      rw [hinv.queue_eq] at this
      exact ⟨this.trades, this.rests⟩
  | notCanceled hc => exact iff_of_true hs (messageFits_of_ne (hc ▸ hcn) (hc ▸ hcm))
  | canceled hc _ ha =>
    exact iff_of_true (ha.sound hinv hs) (messageFits_of_ne (hc ▸ hcn) (hc ▸ hcm))
  | notModified hm hl =>
    exact iff_of_true hs.cleared ⟨fun h => absurd hm (hnew h), fun _ _ o ho => by simp [hl] at ho⟩
  | lost hm _ hb ha =>
    exact iff_of_true (ha.sound hinv' hs.cleared)
      ⟨fun h => absurd hm (hnew h), fun _ h => by simp [hb] at h⟩
  | @modified hm o hl hb b₁ b Q' o' ha ha' =>
    have hs₁ := ha.sound hinv' hs.cleared
    have hlt₁ := (totalsExact_iff ha.inv.core).mp hs₁.totals
    have hnil : b₁.fills = [] := ha.fills
    rw [ha'.sound_iff ha.inv hnil hlt₁, ha.quantitiesFit_iff]
    constructor
    · refine fun h => ⟨fun h => absurd hm (hnew h), fun _ _ o' ho' => ?_⟩
      obtain rfl : o' = o := Option.some.inj (ho'.symm.trans hl)
      rw [hinv.queue_eq]
      exact ⟨h.trades, h.rests⟩
    · intro h
      have := h.modified hm hb o hl
      rw [hinv.queue_eq] at this
      exact ⟨this.trades, this.rests⟩

/-- **A run** is sound all along exactly when every message fits. -/
theorem allFit_iff (hinv : Inv e.book Q) (hcap : cap < 2 ^ 32) (hs : Sound e.book)
    (msgs : List (Timestamp × InboundMessage)) :
    AllFit e msgs ↔ ∀ ms, ms <+: msgs → ∀ e' outs, e.run ms = some (e', outs) → Sound e'.book := by
  induction msgs generalizing e Q with
  | nil =>
    apply iff_of_true trivial
    intro ms hms e' outs hrun
    obtain rfl := List.prefix_nil.mp hms
    obtain rfl : e = e' := congrArg Prod.fst (Option.some.inj hrun)
    exact hs
  | cons m msgs ih =>
    obtain ⟨tsc, msg⟩ := m
    obtain ⟨e₁, Q₁, out, hstep, hp⟩ := process_spec hinv hcap tsc msg
    have hiff := hp.sound_iff hinv hs
    constructor
    · rintro ⟨hfit, hrest⟩ ms hms e' outs hrun
      have hs₁ := hiff.mpr hfit
      rcases List.prefix_cons_iff.mp hms with rfl | ⟨ms, rfl, hpre⟩
      · obtain rfl : e = e' := congrArg Prod.fst (Option.some.inj hrun)
        exact hs
      · obtain ⟨e₂, out₂, outs₂, hstep₂, hrun₂, -⟩ := run_cons.mp hrun
        obtain rfl : e₁ = e₂ := congrArg Prod.fst (Option.some.inj (hstep.symm.trans hstep₂))
        exact (ih (hp.inv hinv) hs₁).mp (hrest e₁ out hstep) ms hpre e' outs₂ hrun₂
    · intro h
      have hs₁ : Sound e₁.book := h [(tsc, msg)] (by simp) e₁ [out] (run_single hstep)
      refine ⟨hiff.mp hs₁, fun e₂ out₂ hstep₂ => ?_⟩
      obtain rfl : e₁ = e₂ := congrArg Prod.fst (Option.some.inj (hstep.symm.trans hstep₂))
      apply (ih (hp.inv hinv) hs₁).mpr
      intro ms hms e' outs hrun
      exact h ((tsc, msg) :: ms) (List.cons_prefix_cons.mpr ⟨rfl, hms⟩) e' (out :: outs)
        (run_cons.mpr ⟨e₁, out, outs, hstep, hrun, rfl⟩)

end Engine

/-- A fresh engine is sound. -/
theorem new_sound (cap : ℕ) : Sound (MatchingEngine.new cap).book :=
  ⟨(totalsExact_iff (new_inv cap).core).mpr fun _ _ => Nat.two_pow_pos 32,
    fun _ hf => absurd hf List.not_mem_nil⟩

/-- **The totals of the levels are exact**, and so are the conversions of the quantities filled, in
all the states of a run exactly when each order that comes in fits. -/
theorem totals_exact (hcap : cap < 2 ^ 32) (msgs : List (Timestamp × InboundMessage)) :
    AllFit (MatchingEngine.new cap) msgs ↔
      ∀ ms, ms <+: msgs → ∀ e outs, (MatchingEngine.new cap).run ms = some (e, outs) →
        Sound e.book :=
  allFit_iff (new_inv cap) hcap (new_sound cap) msgs

/-- An offer of five shares at 1.00. -/
def offerFive : InboundMessage := ⟨.newOrder, .sell, .limit, 1, 0, 100, 5, 0⟩

/-- A market order for three. -/
def takeThree : InboundMessage := ⟨.newOrder, .buy, .market, 2, 0, 0, 3, 1⟩

/-- Five shares are offered and three of them are bought. -/
theorem totals_exact_two :
    AllFit (MatchingEngine.new 2) [(0, offerFive), (1, takeThree)] ∧
      ∀ ms, ms <+: [(0, offerFive), (1, takeThree)] →
        ∀ e outs, (MatchingEngine.new 2).run ms = some (e, outs) →
        Sound e.book := by
  have hnm : MessageType.newOrder ≠ .modifyOrder := by decide
  have hml : OrderType.market ≠ .limit := by decide
  have hfit : AllFit (MatchingEngine.new 2) [(0, offerFive), (1, takeThree)] := by
    refine ⟨?_, fun e₁ _ _ => ⟨?_, fun _ _ _ => trivial⟩⟩
    · refine ⟨fun _ _ => quantitiesFit_of_small (by decide) fun _ i => ?_, fun h => absurd h hnm⟩
      rw [show (MatchingEngine.new 2).book.queue = fun _ _ => [] from (new_inv 2).queue_eq]
    · have hthree : (3 : Quantity).toNat < 2 ^ 31 := by decide
      exact ⟨fun _ _ => quantitiesFit_of_small hthree fun h => absurd h hml, fun h => absurd h hnm⟩
  exact ⟨hfit, (totals_exact (by decide) _).mp hfit⟩

/-- A bid for 2³¹ shares at 1.00. -/
def bidHuge : InboundMessage := ⟨.newOrder, .buy, .limit, 1, 0, 100, 2147483648, 0⟩

/-- An offer of 2³¹ shares at 1.00. -/
def offerHuge : InboundMessage := ⟨.newOrder, .sell, .limit, 2, 0, 100, 2147483648, 1⟩

/-- **The total wraps** when two bids for 2³¹ shares rest at a price: 0 is published, and 2³²
shares rest. An offer of 2³¹ shares then makes a fill whose quantity does not fit `int32_t`. -/
theorem totals_wrap :
    ∃ (e : MatchingEngine 3) (outs : List (List OutboundMessage)) (e' : MatchingEngine 3)
      (outs' : List (List OutboundMessage)),
      (MatchingEngine.new 3).run [(0, bidHuge), (0, bidHuge)] = some (e, outs) ∧
      e.book.bidQtyAt 100 = some 0 ∧ e.book.restingQty .bids level100 = 2 ^ 32 ∧ ¬ Sound e.book ∧
      e.run [(1, offerHuge)] = some (e', outs') ∧ ∃ f ∈ e'.book.fills, ¬ Converts f.quantity := by
  have htotal : ((MatchingEngine.new 3).run [(0, bidHuge), (0, bidHuge)]).map
      (fun r => (r.1.book.bidQtyAt 100, r.1.book.restingQty .bids level100)) =
        some (some 0, 2 ^ 32) := by decide
  have hfill : ((MatchingEngine.new 3).run [(0, bidHuge), (0, bidHuge)]).bind
      (fun r => (r.1.run [(1, offerHuge)]).map fun r => r.1.book.fills.map fun f => f.quantity) =
        some [2147483648] := by
    decide
  obtain ⟨⟨e, outs⟩, hrun, hqty⟩ := Option.map_eq_some_iff.mp htotal
  rw [hrun, Option.bind_some] at hfill
  obtain ⟨⟨e', outs'⟩, hrun', hfills⟩ := Option.map_eq_some_iff.mp hfill
  obtain ⟨hpub, hrest⟩ := Prod.mk.inj hqty
  refine ⟨e, outs, e', outs', hrun, hpub, hrest, fun hs => ?_, hrun', ?_⟩
  · have := (hs.totals 100 level100 (by decide)).1
    rw [hpub, hrest] at this
    exact absurd this (by decide)
  · obtain ⟨f, fs, hf, hq, -⟩ := List.map_eq_cons_iff.mp hfills
    have hf : e'.book.fills = f :: fs := hf
    refine ⟨f, by simp [hf], ?_⟩
    rw [converts_iff, hq]
    decide

end TradeFeed
