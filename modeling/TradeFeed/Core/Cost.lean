import Mathlib.Data.Set.Card
import TradeFeed.Core.Accounts
import TradeFeed.Core.Splitting
import TradeFeed.Lib.Amortized

/-!
# What a run costs

The loops of the book go round once for each match that `match_count_` counts, and once more for
each search for a best price that `scan_calls_` counts. Neither is bounded for a single call: one
order may sweep the book. Over a run both are paid for by the orders that were accepted. An accepted
order adds one order and one occupied level to the book at most; a match uses up a resting order, or
is the last of its order, which does not rest then; and a search comes with a level that is no
longer occupied (`Charged`).

* `drainLevel_scanCalls`, `matchWhile_scans` — the searches of the matching loops.
* `addOrder_charged`, `cancelOrder_charged` — what the calls cost.
* `amortized_cost` — what any run costs.
-/

namespace TradeFeed

open Function (update)
open Lib Lib.PriceTime Tradable
open OrderBook (badPrice incoming)

variable {cap : ℕ}

/-! ### What pays -/

/-- How many levels of a side have orders. -/
noncomputable def Queues.used (Q : Queues cap) (s : BookSide) : ℕ := {i | Q s i ≠ []}.ncard

/-- How many orders rest. -/
def Queues.orders (Q : Queues cap) : ℕ := (Q.resting .bids ++ Q.resting .asks).length

namespace Queues

variable {b : OrderBook cap} {Q Q' : Queues cap} {x : List (Fin cap)} {s s' : BookSide}
  {i : Fin priceLevels}

theorem orders_empty (h : ∀ s i, Q s i = []) : Q.orders = 0 := by
  have hnil : ∀ s, Q.resting s = [] := fun s => by simp [resting, h]
  rw [orders, hnil, hnil]
  rfl

theorem used_empty (h : ∀ i, Q s i = []) : Q.used s = 0 := by
  simp [used, h]

/-- A level at most is taken up. -/
theorem used_le (h : ∀ j, Q' s j ≠ [] → Q s j ≠ [] ∨ j = i) : Q'.used s ≤ Q.used s + 1 := by
  have hsub : {j | Q' s j ≠ []} ⊆ insert i {j | Q s j ≠ []} := fun j hj => (h j hj).symm
  exact (Set.ncard_le_ncard hsub).trans (Set.ncard_insert_le _ _)

theorem used_mono (h : ∀ j, Q' s j ≠ [] → Q s j ≠ []) : Q'.used s ≤ Q.used s :=
  Set.ncard_le_ncard h

/-- A level is given up. -/
theorem used_lt (h : ∀ j, Q' s j ≠ [] → Q s j ≠ []) (hi : Q s i ≠ []) (hi' : Q' s i = []) :
    1 + Q'.used s ≤ Q.used s := by
  have hlt : Q'.used s < Q.used s := Set.ncard_lt_ncard
    ⟨h, fun hsub => hsub (show i ∈ {j | Q s j ≠ []} from hi) hi'⟩
  omega

theorem used_set_nil (hi : Q s i ≠ []) : 1 + (Q.set s i []).used s ≤ Q.used s := by
  refine used_lt (i := i) (fun j hj => ?_) hi (set_self Q s i [])
  rw [set_apply] at hj
  split_ifs at hj with he
  · exact absurd rfl hj
  · exact hj

theorem used_set {q : List (Fin cap)} (hi : Q s i ≠ []) : (Q.set s i q).used s ≤ Q.used s := by
  refine used_mono fun j hj => ?_
  rw [set_apply] at hj
  split_ifs at hj with he
  · rw [he.2]
    exact hi
  · exact hj

end Queues

/-! ### The searches of the matching loops -/

section Loops

variable {b b' : OrderBook cap} {Q : Queues cap} {s : BookSide} {i : Fin priceLevels} {a : Fin cap}

/-- `drain_level` searches for no price. -/
theorem drainLevel_scanCalls {side : Side} {fuel : ℕ}
    (hrun : OrderBook.drainLevel s i a side fuel b = some b') :
    b'.scanCalls = b.scanCalls := by
  induction fuel generalizing b with
  | zero => simp [OrderBook.drainLevel] at hrun
  | succ fuel ih =>
    rw [OrderBook.drainLevel] at hrun
    split_ifs at hrun with hc
    · obtain ⟨r, -, hrun⟩ := Option.bind_eq_some_iff.mp hrun
      rw [ih hrun, OrderBook.retire]
      split_ifs <;> rfl
    · rw [← Option.some.inj hrun]

/-- Each search of a matching loop gives up a level. -/
theorem matchWhile_scans {side : Side} {accept : Price → Bool} (hno : accept s.noPrice = false)
    {fuel : ℕ} (h : Core b Q [a]) (hlive : Live b Q)
    (hf : (b.order a).filledQty ≤ (b.order a).quantity) (hi : Indexed b Q s)
    (hrun : OrderBook.matchWhile s side accept a fuel b = some b') :
    ∃ n Q', Core b' Q' [a] ∧ Metered n b.scanCalls b'.scanCalls (Q.used s) (Q'.used s) 0 := by
  induction fuel generalizing b Q with
  | zero => simp [OrderBook.matchWhile] at hrun
  | succ fuel ih =>
    rw [OrderBook.matchWhile] at hrun
    split_ifs at hrun with hc
    · rw [Bool.and_eq_true] at hc
      rcases hi.best with ⟨-, hbest⟩ | ⟨i, hne, hbest, -⟩
      · rw [hbest, hno] at hc
        exact absurd hc.2 Bool.false_ne_true
      have hlen : (Q s i).length < cap + 1 := by
        have := (h.levels s i).nodup.length_le_card
        rw [Fintype.card_fin] at this
        omega
      obtain ⟨b₁, q', hdrain, ht, -, -, hbits, hbst⟩ :=
        drainLevel_spec (s := s) (i := i) side h hlive hf hlen
      have hscans := drainLevel_scanCalls hdrain
      have hlevel : (b₁.levels s i).empty = true ↔ q' = [] := by
        rw [(ht.core.levels s i).empty_iff, Queues.set_self]
      simp only [hbest, levelOf_priceAt, hdrain, Option.bind_eq_bind, Option.bind_some] at hrun
      by_cases hq' : q' = []
      · -- the level is used up, which pays for the search
        subst hq'
        obtain ⟨p, hscan, hi₂⟩ := hi.rescan hbits hbst i
        rw [if_pos (hlevel.mpr rfl), hscan, Option.bind_some] at hrun
        have ht₂ := ht.index (update b.bits s ((b.bits s).clear i)) (update b.best s p)
          (b₁.scanCalls + 1)
        obtain ⟨n, Q', hc', hm⟩ := ih ht₂.core ht₂.live ht₂.filled hi₂ hrun
        refine ⟨1 + n, Q', hc', ?_⟩
        have hpaid : Metered 1 b.scanCalls (b₁.scanCalls + 1) (Q.used s)
            ((Q.set s i []).used s) 0 :=
          .tick (by rw [hscans]) (Queues.used_set_nil hne)
        exact hpaid.trans hm
      · rw [if_neg fun e => hq' (hlevel.mp e)] at hrun
        have hi₁ := hi.shrink b₁ (by rw [hbits]) (by rw [hbst]) hne hq'
        obtain ⟨n, Q', hc', hm⟩ := ih ht.core ht.live ht.filled hi₁ hrun
        exact ⟨0 + n, Q', hc', (Metered.idle hscans (Queues.used_set hne)).trans hm⟩
    · obtain rfl := Option.some.inj hrun
      exact ⟨0, Q, h, .idle rfl (Nat.le_add_right _ _)⟩

end Loops

/-! ### What the calls cost -/

/-- The matches of a call that brings one book to another: the fills that it appends. -/
def matchesOf (b b' : OrderBook cap) : ℕ := b'.fills.length - b.fills.length

/-- Its searches for a best price: what it adds to their counter. -/
def searchesOf (b b' : OrderBook cap) : ℕ := (b'.scanCalls - b.scanCalls).toNat

/-- So many matches and searches bring one book to another, and the credit covers them: the matches
by orders, the searches by levels. -/
structure Charged (b b' : OrderBook cap) (Q Q' : Queues cap) (matched searched credit : ℕ) :
    Prop where
  /-- The matches. -/
  matched : Metered matched b.matchCount b'.matchCount Q.orders Q'.orders credit
  /-- The searches. -/
  searched : Metered searched b.scanCalls b'.scanCalls (Q.used .bids + Q.used .asks)
    (Q'.used .bids + Q'.used .asks) credit

/-- A call's own matches and searches. -/
abbrev CallCharged (b b' : OrderBook cap) (Q Q' : Queues cap) (credit : ℕ) : Prop :=
  Charged b b' Q Q' (matchesOf b b') (searchesOf b b') credit

namespace Charged

variable {b b₁ b' : OrderBook cap} {Q Q₁ Q' : Queues cap} {m m' n n' k k' : ℕ}

theorem trans (h : Charged b b₁ Q Q₁ m n k) (h' : Charged b₁ b' Q₁ Q' m' n' k') :
    Charged b b' Q Q' (m + m') (n + n') (k + k') :=
  ⟨h.matched.trans h'.matched, h.searched.trans h'.searched⟩

/-- Where nothing is counted, nothing is searched for or matched. -/
theorem of_idle (hm : b'.matchCount = b.matchCount) (hs : b'.scanCalls = b.scanCalls)
    (horders : Q'.orders ≤ Q.orders + k)
    (hused : Q'.used .bids + Q'.used .asks ≤ Q.used .bids + Q.used .asks + k) :
    Charged b b' Q Q' 0 0 k :=
  ⟨.idle hm horders, .idle hs hused⟩

theorem refl (b : OrderBook cap) (Q : Queues cap) : Charged b b Q Q 0 0 0 :=
  of_idle rfl rfl (Nat.le_add_right _ _) (Nat.le_add_right _ _)

/-- Those of a call, where it appends so many fills. -/
theorem call (h : Charged b b' Q Q' m n k) (hm : matchesOf b b' = m) : CallCharged b b' Q Q' k :=
  ⟨hm ▸ h.matched, h.searched.shown⟩

/-- A call that does nothing. -/
theorem call_refl (b : OrderBook cap) (Q : Queues cap) : CallCharged b b Q Q 0 :=
  (refl b Q).call (Nat.sub_self _)

end Charged

section Calls

variable {b b₁ b' : OrderBook cap} {Q Q₁ Q' : Queues cap} {o : Fin cap} {new : Order cap}
  {s : BookSide}

/-- The levels of both sides, one of which is the incoming order's own. -/
theorem used_sides (Q : Queues cap) (side : Side) :
    Q.used .bids + Q.used .asks = Q.used side.book + Q.used side.book.opposite := by
  by_cases hb : side = .buy
  · simp [hb, Side.book, BookSide.opposite]
  · simp [hb, Side.book, BookSide.opposite, Nat.add_comm]

theorem orders_sides (Q : Queues cap) (side : Side) :
    Q.orders = (Q.resting side.book).length + (Q.resting side.book.opposite).length := by
  rw [Queues.orders, List.length_append]
  by_cases hb : side = .buy
  · simp [hb, Side.book, BookSide.opposite]
  · simp [hb, Side.book, BookSide.opposite, Nat.add_comm]

/-- On the incoming order's side an order joins, if it rests. -/
theorem Accepted.own_length_le (h : Inv b Q) (ha : Accepted b b' Q Q' o new) :
    (Q'.resting new.side.book).length ≤
      (Q.resting new.side.book).length + if Rests b Q new then 1 else 0 := by
  have hmem : ∀ p ∈ Q'.resting new.side.book, p ∈ Q.resting new.side.book ∨
      (p = o ∧ Rests b Q new) := fun p hp => by
    obtain ⟨i, hp⟩ := Queues.mem_resting.mp hp
    rcases ha.mem h hp with ⟨hp, -⟩ | ⟨rfl, -, hr, -⟩
    · exact Or.inl (Queues.mem_resting.mpr ⟨i, hp⟩)
    · exact Or.inr ⟨rfl, hr⟩
  have hnd := Queues.resting_nodup ha.inv.core new.side.book
  by_cases hr : Rests b Q new
  · have hsub : Q'.resting new.side.book ⊆ o :: Q.resting new.side.book := fun p hp =>
      List.mem_cons.mpr ((hmem p hp).symm.imp_left And.left)
    rw [if_pos hr]
    exact (hnd.subperm hsub).length_le
  · have hsub : Q'.resting new.side.book ⊆ Q.resting new.side.book := fun p hp =>
      (hmem p hp).resolve_right fun e => hr e.2
    rw [if_neg hr]
    exact (hnd.subperm hsub).length_le

/-- An accepted order trades once with each order it uses up, and once more, or rests. -/
theorem Accepted.trades_le (h : Inv b Q) (ha : Accepted b b' Q Q' o new) :
    (trading b Q new).trades.length + Q'.orders ≤ Q.orders + 1 := by
  have hown := ha.own_length_le h
  have hopp := congrArg List.length ha.swept
  rw [OrderBook.entries_length] at hopp
  rw [orders_sides Q new.side, orders_sides Q' new.side, hopp]
  have hlens : _ ∨ _ :=
    sweep_lengths (fun p => accepts new.side new.type new.price (UInt32.ofNat p))
    new.quantity.toNat (b.entries (Q.resting new.side.book.opposite))
  rw [OrderBook.entries_length, ← trading] at hlens
  split_ifs at hown with hr
  · -- an order that rests has used up every order it met
    have := hlens.resolve_right fun e => hr.1 e.2
    omega
  · omega

/-- **The matches of an accepted order** are paid by the orders it uses up, and by itself. -/
theorem Accepted.matched (h : Inv b Q) (ha : Accepted b b' Q Q' o new) :
    Metered (matchesOf b b') b.matchCount b'.matchCount Q.orders Q'.orders 1 := by
  have hmatches : matchesOf b b' = (trading b Q new).trades.length := by
    rw [matchesOf, ha.fills, List.length_append, List.length_map, Nat.add_sub_cancel_left]
  rw [hmatches]
  exact ⟨ha.matchCount, ha.trades_le h⟩

/-- An order that rests takes up one level at most. -/
theorem Accepted.own_used_le (ha : Accepted b b' Q Q' o new)
    (hbad : badPrice new.type new.price = false) :
    Q'.used new.side.book ≤ Q.used new.side.book + 1 := by
  have hnil : ∀ j, ¬ (Rests b Q new ∧ new.price = priceAt j) → Q' new.side.book j ≠ [] →
      Q new.side.book j ≠ [] := by
    intro j hj hne he
    have hjoin := ha.joined j
    rw [if_neg hj, he, OrderBook.entries_nil, List.append_nil, OrderBook.entries_eq_nil] at hjoin
    exact hne hjoin
  by_cases hr : Rests b Q new
  · obtain ⟨i, hi⟩ := exists_level_of_limit hbad hr.2
    refine Queues.used_le (i := i) fun j hj => ?_
    by_cases hji : j = i
    · exact Or.inr hji
    · exact Or.inl (hnil j (fun e => hji (priceAt_injective (e.2.symm.trans hi))) hj)
  · exact (Queues.used_mono fun j => hnil j fun e => hr e.1).trans (Nat.le_succ _)

/-- What is left of an order rests or is freed, which is nothing to the opposite side. -/
theorem Met.settled (h : Inv b Q) (hmet : Met b b₁ Q Q₁ o new) (hbare : new.bare = new)
    (hroom : Room Q) (hbad : badPrice new.type new.price = false) :
    ∃ b' Q', b₁.settle new.side new.type new.price o = some (b', true) ∧ Accepted b b' Q Q' o new ∧
      Q' new.side.book.opposite = Q₁ new.side.book.opposite := by
  rw [hmet.settle_eq]
  by_cases hr : Rests b Q new
  · obtain ⟨i, hi⟩ := exists_level_of_limit hbad hr.2
    obtain ⟨b', hrest, hacc⟩ := hmet.rests h hr hbare hi hroom
    refine ⟨b', _, by rw [if_pos hr, hrest]; rfl, hacc,
      funext fun j => Queues.set_of_ne _ _ fun e => ?_⟩
    exact opposite_ne _ e.1.symm
  · exact ⟨_, Q₁, by rw [if_neg hr], hmet.done h hr, rfl⟩

/-- That searches for no price. -/
theorem settle_scans {type : OrderType} {price : Price} {side : Side} {r : Bool}
    (hrun : b₁.settle side type price o = some (b', r)) : b'.scanCalls = b₁.scanCalls := by
  rw [OrderBook.settle] at hrun
  split_ifs at hrun
  · obtain ⟨b₂, hrest, he⟩ := Option.map_eq_some_iff.mp hrun
    obtain rfl := (Prod.mk.inj he).1
    rw [OrderBook.rest] at hrest
    obtain ⟨i, -, hrest⟩ := Option.bind_eq_some_iff.mp hrest
    rw [← Option.some.inj hrest]
    split_ifs <;> rfl
  · rw [← (Prod.mk.inj (Option.some.inj hrun)).1]
    rfl

/-- **An accepted order** costs what it brings. -/
theorem addOrder_charged (h : Inv b Q) (hroom : Room Q) (id : OrderId) (client : ClientId)
    (side : Side) (type : OrderType) (price : Price) (qty : Quantity) (ts : Timestamp)
    (hav : b.pool.available ≠ 0) (hbad : badPrice type price = false) :
    ∃ b' Q', b.addOrder id client side type price qty ts = some (b', true) ∧ Inv b' Q' ∧
      CallCharged b b' Q Q' 1 := by
  obtain ⟨o, rest, hf⟩ := List.exists_cons_of_ne_nil (fun e => hav (List.length_eq_zero_iff.mpr e))
  set new : Order cap := incoming id client side type price qty ts with hnew
  obtain ⟨b₁, Q₁, hrun, hmet⟩ := met_spec new h hf rfl
  -- the searches of the matching
  have ho : (b.held o rest new).order o = new := by rw [Core.order_held, if_pos rfl]
  obtain ⟨hcore, hlive, hzero⟩ := h.held hf (show new.filledQty = 0 from rfl)
  have hi : Indexed (b.held o rest new) Q new.side.book.opposite := (h.indexed _).congr rfl rfl rfl
  have hwhile := (match_eq _ (by rw [ho]) (by rw [ho]) _).symm.trans hrun
  obtain ⟨n, Q₂, hc₂, hm⟩ :=
    matchWhile_scans (accepts_noPrice new.side new.type new.price) hcore hlive hzero hi hwhile
  obtain rfl : Q₂ = Q₁ := hc₂.queue_eq.symm.trans hmet.core.queue_eq
  obtain ⟨b', Q', hsettle, hacc, hopp⟩ := hmet.settled h rfl hroom hbad
  have hstep : b.addOrder id client side type price qty ts = some (b', true) := by
    have hrun : (if type = .market then (b.held o rest new).matchMarket o
        else (b.held o rest new).matchLimit o) = some b₁ := hrun
    rw [OrderBook.addOrder_eq hf id client side qty ts hbad, ← hnew, hrun]
    exact hsettle
  refine ⟨b', Q', hstep, hacc.inv, hacc.matched h, ?_⟩
  have hused : Q'.used side.book.opposite = Q₂.used side.book.opposite := by
    rw [Queues.used, Queues.used, show Q' side.book.opposite = _ from hopp]
    rfl
  rw [used_sides Q side, used_sides Q' side, hused]
  have hm' : Metered n b.scanCalls b₁.scanCalls (Q.used side.book + Q.used side.book.opposite)
      (Q.used side.book + Q₂.used side.book.opposite) 0 := by
    rw [Nat.add_comm, Nat.add_comm (Q.used side.book)]
    exact hm.shift _
  have hown : Metered 0 b₁.scanCalls b'.scanCalls (Q.used side.book + Q₂.used side.book.opposite)
      (Q'.used side.book + Q₂.used side.book.opposite) 1 := by
    have hle : Q'.used side.book ≤ Q.used side.book + 1 := hacc.own_used_le hbad
    exact .idle (settle_scans hsettle) (by omega)
  exact (hm'.trans hown).shown

theorem addOrder_cost (h : Inv b Q) (hcap : cap < 2 ^ 32) (id : OrderId) (client : ClientId)
    (side : Side) (type : OrderType) (price : Price) (qty : Quantity) (ts : Timestamp) :
    ∃ b' r Q', b.addOrder id client side type price qty ts = some (b', r) ∧ Inv b' Q' ∧
      CallCharged b b' Q Q' (if r then 1 else 0) := by
  by_cases hr : b.pool.available = 0 ∨ badPrice type price = true
  · exact ⟨b, false, Q, OrderBook.addOrder_refused b id client side type price qty ts hr, h,
      .call_refl b Q⟩
  · rw [not_or, Bool.not_eq_true] at hr
    have hroom : Room Q := room_of_cap h.core (fun e => hr.1 (List.length_eq_zero_iff.mpr e)) hcap
    obtain ⟨b', Q', hrun, h', hcost⟩ :=
      addOrder_charged h hroom id client side type price qty ts hr.1 hr.2
    exact ⟨b', true, Q', hrun, h', hcost⟩

/-- Where an order leaves, one less rests. -/
theorem Left.orders_succ (h : Inv b Q) (hleft : Left b b' Q o) :
    (Q.without o).orders + 1 = Q.orders := by
  have hsum := available_add h.core
  have hsum' := available_add hleft.inv.core
  have hav : b'.pool.available = b.pool.available + 1 := by
    rw [OrderPool.available, hleft.freed, List.length_cons]
    rfl
  rw [← Queues.orders] at hsum hsum'
  omega

theorem scanBest_scanCalls {b b' : OrderBook cap} (hscan : b.scanBest s = some b') :
    b'.scanCalls = b.scanCalls + 1 := by
  cases s
  · obtain ⟨i, -, he⟩ := Option.bind_eq_some_iff.mp (show b.scanBestBid = some b' from hscan)
    rw [← Option.some.inj he]
    rfl
  · obtain ⟨i, -, he⟩ := Option.bind_eq_some_iff.mp (show b.scanBestAsk = some b' from hscan)
    rw [← Option.some.inj he]
    rfl

/-- An order that leaves searches for a price only when its level goes with it. -/
theorem cancelOrder_scans {id : OrderId} {i : Fin priceLevels} (h : Inv b Q)
    (hl : b.lookup id = some o) (ho : o ∈ Q s i) (hrun : b.cancelOrder id = some (b', true)) :
    Metered (searchesOf b b') b.scanCalls b'.scanCalls (Q.used s) ((Q.without o).used s) 0 := by
  obtain ⟨l₁, l₂, hq⟩ := List.append_of_mem ho
  have hat := h.core.orders s i o ho
  have hset := Queues.set_without h.core hq
  have hc₁ : Core (b.removeLevel s i o) (Q.without o) [o] := hset ▸ h.core.removeLevel hq
  have hsub : ∀ j, Q.without o s j ≠ [] → Q s j ≠ [] :=
    fun j hj e => hj (by rw [Queues.without, e]; rfl)
  rw [OrderBook.cancelOrder] at hrun
  simp only [hl, hat.price, hat.side, levelOf_priceAt, Option.bind_eq_bind,
    Option.bind_some] at hrun
  by_cases he : ((b.removeLevel s i o).levels s i).empty = true
  · have hlt := Queues.used_lt hsub (List.ne_nil_of_mem ho) ((hc₁.levels s i).empty_iff.mp he)
    rw [if_pos he] at hrun
    split_ifs at hrun
    · obtain ⟨b₂, hscan, hrun⟩ := Option.bind_eq_some_iff.mp hrun
      have hscans := scanBest_scanCalls hscan
      rw [← (Prod.mk.inj (Option.some.inj hrun)).1]
      exact (Metered.tick hscans hlt).shown
    · rw [← (Prod.mk.inj (Option.some.inj hrun)).1]
      exact (Metered.idle rfl (by omega)).shown
  · rw [if_neg he] at hrun
    rw [← (Prod.mk.inj (Option.some.inj hrun)).1]
    exact (Metered.idle rfl (Queues.used_mono hsub)).shown

/-- **A cancelled order** brings nothing, and pays for the search it may lead to. -/
theorem cancelOrder_charged {id : OrderId} (h : Inv b Q) (hl : b.lookup id = some o) :
    ∃ b', b.cancelOrder id = some (b', true) ∧ Left b b' Q o ∧
      CallCharged b b' Q (Q.without o) 0 := by
  obtain ⟨b', hrun, hleft⟩ := cancelOrder_found h hl
  obtain ⟨⟨s, i, ho⟩, -⟩ := mem_of_lookup h.core hl
  refine ⟨b', hrun, hleft, ?_, ?_⟩
  · have hnone : matchesOf b b' = 0 := by rw [matchesOf, hleft.fills, Nat.sub_self]
    have := hleft.orders_succ h
    rw [hnone]
    exact .idle hleft.matchCount (by omega)
  · -- the other side's levels stay as they are
    have hother : ∀ s', s' ≠ s → (Q.without o).used s' = Q.used s' := fun s' hs => by
      have hQ : Q.without o s' = Q s' := funext fun j =>
        Queues.without_of_not_mem fun hm => hs (h.core.level_unique ho hm).1
      rw [Queues.used, Queues.used, hQ]
    have hm := cancelOrder_scans h hl ho hrun
    cases s with
    | bids =>
      rw [hother .asks (by decide)]
      exact hm.shift _
    | asks =>
      rw [hother .bids (by decide), Nat.add_comm, Nat.add_comm (Q.used .bids)]
      exact hm.shift _

end Calls

/-! ### What a run costs -/

/-- The call brought an order that was accepted. -/
def Call.accepted : Call → Option Bool → Bool
  | .addOrder .., some true => true
  | .modifyOrder .., some true => true
  | _, _ => false

/-- How many orders a run accepted. -/
def acceptedOrders (cs : List Call) (rs : List (Option Bool)) : ℕ :=
  ((cs.zip rs).filter fun x => x.1.accepted x.2).length

@[simp] theorem acceptedOrders_nil : acceptedOrders [] [] = 0 := rfl

@[simp] theorem acceptedOrders_cons (c : Call) (cs : List Call) (r : Option Bool)
    (rs : List (Option Bool)) :
    acceptedOrders (c :: cs) (r :: rs) = (if c.accepted r then 1 else 0) +
      acceptedOrders cs rs := by
  rw [acceptedOrders, List.zip_cons_cons, List.filter_cons]
  split_ifs
  · rw [List.length_cons, Nat.add_comm]
    rfl
  · exact (Nat.zero_add _).symm

/-- What the calls of a run come to, each counted from the book it finds to the one it leaves. -/
def OrderBook.total (count : OrderBook cap → OrderBook cap → ℕ) (b : OrderBook cap) : List Call → ℕ
  | [] => 0
  | c :: cs =>
    match b.call c with
    | some (b', _) => count b b' + b'.total count cs
    | none => 0

section Run

variable {b b' : OrderBook cap} {Q : Queues cap}

theorem OrderBook.total_cons {c : Call} {r : Option Bool}
    (count : OrderBook cap → OrderBook cap → ℕ) (hcall : b.call c = some (b', r)) (cs : List Call) :
    b.total count (c :: cs) = count b b' + b'.total count cs := by
  rw [OrderBook.total, hcall]

/-- **A step**: every call costs what it brings. -/
theorem call_charged (h : Inv b Q) (hcap : cap < 2 ^ 32) (c : Call) :
    ∃ b' r Q', b.call c = some (b', r) ∧ Inv b' Q' ∧
      CallCharged b b' Q Q' (if c.accepted r then 1 else 0) := by
  cases c with
  | addOrder id client side type price qty ts =>
    obtain ⟨b', r, Q', hrun, h', hcost⟩ := addOrder_cost h hcap id client side type price qty ts
    refine ⟨b', some r, Q', by simp [OrderBook.call, hrun], h', ?_⟩
    cases r <;> exact hcost
  | cancelOrder id =>
    cases hl : b.lookup id with
    | none => exact ⟨b, some false, Q, by simp [OrderBook.call, cancelOrder_unknown b hl], h,
      .call_refl b Q⟩
    | some o =>
      obtain ⟨b', hrun, hleft, hcost⟩ := cancelOrder_charged h hl
      exact ⟨b', some true, _, by simp [OrderBook.call, hrun], hleft.inv, hcost⟩
  | modifyOrder id price qty ts =>
    cases hl : b.lookup id with
    | none => exact ⟨b, some false,
      Q, by simp [OrderBook.call, modifyOrder_unknown b price qty ts hl], h, .call_refl b Q⟩
    | some o =>
      obtain ⟨b₁, hrun₁, hleft, hcost₁⟩ := cancelOrder_charged h hl
      obtain ⟨b', r, Q', hrun, h', hcost⟩ :=
        addOrder_cost hleft.inv hcap id (b.order o).clientId (b.order o).side .limit price qty ts
      refine ⟨b', some r, Q', by simp [OrderBook.call, OrderBook.modifyOrder, hl, hrun₁, hrun], h',
        ?_⟩
      have hmatches : matchesOf b b' = matchesOf b b₁ + matchesOf b₁ b' := by
        rw [matchesOf, matchesOf, matchesOf, hleft.fills, Nat.sub_self, Nat.zero_add]
      have hboth := (hcost₁.trans hcost).call hmatches
      rw [Nat.zero_add] at hboth
      cases r <;> exact hboth
  | clearFills =>
    refine ⟨_, none, Q, rfl, clearFills_inv h, Charged.call (m := 0) (n := 0) ?_ (Nat.zero_sub _)⟩
    exact .of_idle rfl rfl (Nat.le_add_right _ _) (Nat.le_add_right _ _)

/-- **A run** costs what its calls bring. -/
theorem run_charged (h : Inv b Q) (hcap : cap < 2 ^ 32) (cs : List Call) :
    ∃ b' rs Q', b.run cs = some (b', rs) ∧ Inv b' Q' ∧
      Charged b b' Q Q' (b.total matchesOf cs) (b.total searchesOf cs) (acceptedOrders cs rs) := by
  induction cs generalizing b Q with
  | nil => exact ⟨b, [], Q, rfl, h, .refl b Q⟩
  | cons c cs ih =>
    obtain ⟨b₁, r, Q₁, hcall, h₁, hcost₁⟩ := call_charged h hcap c
    obtain ⟨b', rs, Q', hrun, h', hcost⟩ := ih h₁
    refine ⟨b', r :: rs, Q', by simp [OrderBook.run, hcall, hrun], h', ?_⟩
    rw [acceptedOrders_cons, OrderBook.total_cons _ hcall, OrderBook.total_cons _ hcall]
    exact hcost₁.trans hcost

/-- The occupied levels are as many as the occupied prices. -/
theorem used_eq (h : Core b Q []) (s : BookSide) : Q.used s = (occupiedPrices b s).ncard := by
  have himage : occupiedPrices b s = Set.image priceAt {i | Q s i ≠ []} := by
    ext p
    constructor
    · rintro ⟨i, rfl, hi⟩
      exact ⟨i, (mem_occupiedPrices h).mp ⟨i, rfl, hi⟩, rfl⟩
    · rintro ⟨i, hi, rfl⟩
      exact (mem_occupiedPrices h).mpr hi
  rw [himage, Set.ncard_image_of_injective _ priceAt_injective, Queues.used]

end Run

/-- **Matching and searching cost one round each for every order accepted**: in every run the
matches together with the orders that rest, and the searches for a best price together with the
prices that are occupied, are no more than the orders the run accepted, new or modified. The
counters show these numbers modulo 2⁶⁴, and so no more either. -/
theorem amortized_cost (hcap : cap < 2 ^ 32) (cs : List Call) :
    ∃ b rs, (OrderBook.new cap).run cs = some (b, rs) ∧
      ((OrderBook.new cap).total matchesOf cs + b.activeOrders ≤ acceptedOrders cs rs ∧
        (OrderBook.new cap).total searchesOf cs +
        ((occupiedPrices b .bids).ncard + (occupiedPrices b .asks).ncard) ≤ acceptedOrders cs rs) ∧
      (b.matchCount = UInt64.ofNat ((OrderBook.new cap).total matchesOf cs) ∧
        b.scanCalls = UInt64.ofNat ((OrderBook.new cap).total searchesOf cs)) ∧
      b.matchCount.toNat + b.activeOrders ≤ acceptedOrders cs rs ∧
      b.scanCalls.toNat + ((occupiedPrices b .bids).ncard + (occupiedPrices b .asks).ncard) ≤
        acceptedOrders cs rs := by
  obtain ⟨b, rs, Q, hrun, h, hcost⟩ := run_charged (new_inv cap) hcap cs
  have hfresh : Queues.orders (fun _ _ => [] : Queues cap) = 0 := Queues.orders_empty fun _ _ => rfl
  have hunused : ∀ s, Queues.used (fun _ _ => [] : Queues cap) s = 0 :=
    fun s => Queues.used_empty fun _ => rfl
  have hm := hcost.matched
  have hs := hcost.searched
  rw [hfresh] at hm
  rw [hunused, hunused] at hs
  have hactive : b.activeOrders = Q.orders := by
    rw [activeOrders_eq h.core, ← List.length_append, Queues.orders]
  refine ⟨b, rs, hrun, ?_⟩
  rw [hactive, ← used_eq h.core, ← used_eq h.core]
  refine ⟨⟨?_, ?_⟩, ⟨?_, ?_⟩, hm.toNat_add_le, hs.toNat_add_le⟩
  · simpa using hm.2
  · simpa using hs.2
  · exact hm.1.trans (UInt64.zero_add _)
  · exact hs.1.trans (UInt64.zero_add _)

/-- Five orders, one of them modified: the last takes two levels, and is charged to the orders it
uses up. -/
theorem amortized_cost_six :
    ∃ b rs, (OrderBook.new 4).run [.addOrder 1 7 .sell .limit 100 5 0,
      .addOrder 2 7 .sell .limit 101 5 1, .modifyOrder 2 102 4 2, .addOrder 3 8 .buy .limit 99 1 3,
      .addOrder 4 8 .buy .market 0 20 4] = some (b, rs) ∧
      b.matchCount = 2 ∧ b.matchCount.toNat + b.activeOrders ≤ 5 ∧
      b.scanCalls.toNat +
        ((occupiedPrices b .bids).ncard + (occupiedPrices b .asks).ncard) ≤ 5 := by
  obtain ⟨b, rs, hrun, -, -, h⟩ :=
    @amortized_cost 4 (by decide) [.addOrder 1 7 .sell .limit 100 5 0,
      .addOrder 2 7 .sell .limit 101 5 1, .modifyOrder 2 102 4 2, .addOrder 3 8 .buy .limit 99 1 3,
      .addOrder 4 8 .buy .market 0 20 4]
  have hrs : ((OrderBook.new 4).run [.addOrder 1 7 .sell .limit 100 5 0,
      .addOrder 2 7 .sell .limit 101 5 1, .modifyOrder 2 102 4 2, .addOrder 3 8 .buy .limit 99 1 3,
      .addOrder 4 8 .buy .market 0 20 4]).map (fun x => (x.2, x.1.matchCount)) =
    some ([some true, some true, some true, some true, some true], 2) := by decide +kernel
  rw [hrun] at hrs
  obtain ⟨rfl, hcount⟩ := Prod.mk.inj (Option.some.inj hrs)
  exact ⟨b, _, hrun, hcount, h⟩

end TradeFeed
