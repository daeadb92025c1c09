import Mathlib.Data.List.Flatten
import TradeFeed.Core.Accounts
import TradeFeed.Lib.Before

/-!
# Priority over time

A place in the line is kept for as long as an order rests (`no_overtaking`). Whatever calls come,
those that name neither order apart: one that stands behind another is not traded with before that
one is gone, and stays behind it; and nobody comes to stand before an order who did not before, but
at a better price. Memory that was freed may be used again, and so an order is its place in the
arena together with its id.

* `Accepted.before` — an incoming order trades with nobody behind one that it leaves.
* `Accepted.overtakes` — it comes to stand before others only at a better price.
-/

namespace TradeFeed

open Lib Lib.PriceTime Tradable
open OrderBook (badPrice incoming)

variable {cap : ℕ}

theorem price_of_bare {o o' : Order cap} (he : o'.bare = o.bare) : o'.price = o.price := by
  have hprice : o'.bare.price = o.bare.price := by rw [he]
  exact hprice

/-! ### When an order comes in -/

section Accepted

variable {b b' : OrderBook cap} {Q Q' : Queues cap} {o p q : Fin cap} {new : Order cap}
  {s : BookSide}
  {i : Fin priceLevels}

/-- On its own side it joins the end of a queue. -/
theorem Accepted.own_queue (ha : Accepted b b' Q Q' o new) (i : Fin priceLevels) :
    Q' new.side.book i =
      Q new.side.book i ++ if Rests b Q new ∧ new.price = priceAt i then [o] else [] := by
  have hjoin := congrArg (List.map Prod.fst) (ha.joined i)
  rw [List.map_append, OrderBook.map_fst_entries, OrderBook.map_fst_entries] at hjoin
  rw [hjoin]
  split_ifs <;> rfl

/-- And leaves the others as they are. -/
theorem Accepted.own_order (ha : Accepted b b' Q Q' o new) (hp : p ∈ Q new.side.book i) :
    (b'.order p).bare = (b.order p).bare := by
  have hjoin := ha.joined i
  rw [ha.own_queue, OrderBook.entries_append] at hjoin
  have hleft := (List.append_inj hjoin
    (by rw [OrderBook.entries_length, OrderBook.entries_length])).1
  exact congrArg Prod.snd (List.map_inj_left.mp hleft p hp)

/-- An order that rests afterwards and is not the new one is the one that rested before. -/
theorem Accepted.stayed (h : Inv b Q) (ha : Accepted b b' Q Q' o new) (hp : p ∈ Q'.resting s)
    (hpo : p ≠ o) :
    p ∈ Q.resting s ∧ (b'.order p).id = (b.order p).id ∧
      (b'.order p).price = (b.order p).price := by
  obtain ⟨i, hp⟩ := Queues.mem_resting.mp hp
  rcases ha.mem h hp with ⟨hp, hbare⟩ | ⟨rfl, -⟩
  · refine ⟨Queues.mem_resting.mpr ⟨i, hp⟩, ?_, (bare_filled hbare).2⟩
    show (b'.order p).bare.id = _
    rw [hbare]
    rfl
  · exact absurd rfl hpo

/-- The others that are left stand as they stood. -/
theorem Accepted.others_sublist (ha : Accepted b b' Q Q' o new) (s : BookSide) :
    ((Q'.resting s).filter (· ≠ o)).Sublist (Q.resting s) := by
  rcases eq_or_eq_opposite new.side.book s with rfl | rfl
  · rw [Queues.resting, List.filter_flatMap]
    refine List.Sublist.flatMap_right _ fun i _ => ?_
    rw [ha.own_queue, List.filter_append]
    have hnew : (if Rests b Q new ∧ new.price = priceAt i then [o] else []).filter
        (· ≠ o) = [] := by
      split_ifs <;> simp
    rw [hnew, List.append_nil]
    exact List.filter_sublist
  · have hrest : ((trading b Q new).rest.map Prod.fst).Sublist
        ((b.entries (Q.resting new.side.book.opposite)).map Prod.fst) :=
      rest_sublist (fun _ _ => rfl) _ _
    rw [← ha.swept] at hrest
    have hkeys := OrderBook.map_fst_entries b' (Q'.resting new.side.book.opposite)
    have hkeys₀ := OrderBook.map_fst_entries b (Q.resting new.side.book.opposite)
    exact List.filter_sublist.trans (hkeys ▸ hkeys₀ ▸ hrest)

/-- **Nobody behind an order that it leaves** was traded with. -/
theorem Accepted.before (h : Inv b Q) (ha : Accepted b b' Q Q' o new)
    (hpq : Before (Q.resting s) p q) (hp : p ∈ Q'.resting s) :
    Before (Q'.resting s) p q ∧ (b'.order q).bare = (b.order q).bare := by
  rcases eq_or_eq_opposite new.side.book s with rfl | rfl
  · obtain ⟨i, hq⟩ := Queues.mem_resting.mp hpq.right_mem
    refine ⟨hpq.mono (List.Sublist.flatMap_right _ fun i _ => ?_), ha.own_order hq⟩
    rw [ha.own_queue]
    exact List.sublist_append_left _ _
  · have hentries : Before (b.entries (Q.resting new.side.book.opposite)) (b.entry p) (b.entry q) :=
      List.Sublist.map b.entry hpq
    have hnd : ((b.entries (Q.resting new.side.book.opposite)).map Prod.fst).Nodup := by
      rw [OrderBook.map_fst_entries]
      exact Queues.resting_nodup h.core _
    have hmem : p ∈ (trading b Q new).rest.map Prod.fst := by
      rw [← ha.swept, OrderBook.map_fst_entries]
      exact hp
    obtain ⟨e, he, hbefore⟩ :
        ∃ e : Entry cap, e.1 = (b.entry p).1 ∧ Before (trading b Q new).rest e (b.entry q) :=
      before_sweep (fun _ _ => rfl) hnd hentries hmem
    rw [← ha.swept] at hbefore
    -- the entries behind are those of the same orders
    obtain ⟨q', -, hq'⟩ := List.mem_map.mp hbefore.right_mem
    obtain ⟨rfl, hbare⟩ := Prod.mk.inj hq'
    have hpair := List.Sublist.map Prod.fst hbefore
    rw [OrderBook.map_fst_entries, List.map_cons, he] at hpair
    exact ⟨hpair, hbare⟩

/-- **It comes to stand before others** only at a better price. -/
theorem Accepted.overtakes (h : Inv b Q) (ha : Accepted b b' Q Q' o new)
    (hp : Before (Q'.resting s) o p) :
    s.dir.Better (b'.order o).price.toNat (b'.order p).price.toNat := by
  obtain ⟨i, ho⟩ := Queues.mem_resting.mp hp.left_mem
  obtain ⟨j, hj⟩ := Queues.mem_resting.mp hp.right_mem
  have hnd := Queues.resting_nodup ha.inv.core s
  have hpo : p ≠ o := by
    rintro rfl
    exact hp.asymm hnd hp
  rcases ha.mem h ho with ⟨hin, -⟩ | ⟨-, rfl, hr, hprice, -⟩
  · exact absurd hin (ha.fresh s i)
  have hsorted := List.pairwise_iff_forall_sublist.mp (resting_sorted ha.inv.core new.side.book) hp
  by_contra hnot
  have hsame := new.side.book.dir.eq_of_not_better hnot hsorted
  -- at one price it stands behind
  rw [(ha.inv.core.orders _ i o ho).price, (ha.inv.core.orders _ j p hj).price] at hsame
  obtain rfl := priceAt_injective (UInt32.toNat_inj.mp hsame)
  have hq := ha.own_queue i
  rw [if_pos ⟨hr, hprice⟩] at hq
  have hmem : p ∈ Q new.side.book i := by
    rw [hq] at hj
    exact (List.mem_append.mp hj).resolve_right fun e => hpo (List.mem_singleton.mp e)
  have hbehind : Before (Q' new.side.book i) p o := hq ▸ Before.concat hmem o
  exact hp.asymm hnd (hbehind.flatMap (BookSide.mem_byPriority _ i))

end Accepted

/-! ### A place in the line -/

/-- The call adds, cancels or modifies the order with this id. -/
def Call.Names (id : OrderId) : Call → Prop
  | .addOrder id' .. => id' = id
  | .cancelOrder id' => id' = id
  | .modifyOrder id' .. => id' = id
  | .clearFills => False

/-- The order `p` of the book `b₀` still rests on side `s` of the book `b`. -/
def StillRests (b₀ b : OrderBook cap) (Q : Queues cap) (s : BookSide) (p : Fin cap) : Prop :=
  p ∈ Q.resting s ∧ (b.order p).id = (b₀.order p).id

/-- As long as the order `p` of the book `b₀` rests it keeps its place: those behind it whose ids
are not among `ids` are as they were, and those before it were before, or have a better price. -/
structure KeepsPlace (b₀ : OrderBook cap) (Q₀ : Queues cap) (ids : Set OrderId) (s : BookSide)
    (p : Fin cap) (b : OrderBook cap) (Q : Queues cap) : Prop where
  /-- The price is the order's. -/
  price : StillRests b₀ b Q s p → (b.order p).price = (b₀.order p).price
  /-- Those behind it. -/
  behind : StillRests b₀ b Q s p → ∀ q, Before (Q₀.resting s) p q → (b₀.order q).id ∉ ids →
    Before (Q.resting s) p q ∧ (b.order q).bare = (b₀.order q).bare
  /-- Those before it. -/
  before : StillRests b₀ b Q s p → ∀ r, Before (Q.resting s) r p →
    (Before (Q₀.resting s) r p ∧ (b.order r).id = (b₀.order r).id) ∨
      s.dir.Better (b.order r).price.toNat (b.order p).price.toNat

namespace KeepsPlace

variable {b₀ b b' : OrderBook cap} {Q₀ Q Q' : Queues cap} {ids : Set OrderId} {s : BookSide}
  {p o : Fin cap}
  {new : Order cap}

theorem refl (b : OrderBook cap) (Q : Queues cap) (ids : Set OrderId) (s : BookSide) (p : Fin cap) :
    KeepsPlace b Q ids s p b Q where
  price _ := rfl
  behind _ _ hq _ := ⟨hq, rfl⟩
  before _ _ hr := Or.inl ⟨hr, rfl⟩

/-- An order comes in. -/
theorem added (hk : KeepsPlace b₀ Q₀ ids s p b Q) (h : Inv b Q) (ha : Accepted b b' Q Q' o new)
    (hid : new.id ≠ (b₀.order p).id) : KeepsPlace b₀ Q₀ ids s p b' Q' := by
  -- the new order has another id, so `p` rested before
  have hstill : StillRests b₀ b' Q' s p → p ≠ o ∧ StillRests b₀ b Q s p ∧
      (b'.order p).price = (b.order p).price := by
    rintro ⟨hp, hpid⟩
    have hpo : p ≠ o := by
      rintro rfl
      obtain ⟨i, hp⟩ := Queues.mem_resting.mp hp
      rcases ha.mem_id h hp with ⟨hin, -⟩ | ⟨-, he⟩
      · exact ha.fresh s i hin
      · exact hid (he.symm.trans hpid)
    obtain ⟨hin, hsame, hprice⟩ := ha.stayed h hp hpo
    exact ⟨hpo, ⟨hin, hsame.symm.trans hpid⟩, hprice⟩
  refine ⟨fun hp => ?_, fun hp q hq hqid => ?_, fun hp r hr => ?_⟩
  · obtain ⟨-, hp₀, hprice⟩ := hstill hp
    rw [hprice, hk.price hp₀]
  · obtain ⟨-, hp₀, -⟩ := hstill hp
    obtain ⟨hbefore, hbare⟩ := hk.behind hp₀ q hq hqid
    obtain ⟨hbefore', hbare'⟩ := ha.before h hbefore hp.1
    exact ⟨hbefore', hbare'.trans hbare⟩
  · obtain ⟨hpo, hp₀, hprice⟩ := hstill hp
    by_cases hro : r = o
    · subst hro
      exact Or.inr (ha.overtakes h hr)
    · have hold := (hr.filter (p := fun x => decide (x ≠ o)) (by simpa using hro)
        (by simpa using hpo)).mono
        (ha.others_sublist s)
      obtain ⟨-, hrid, hrprice⟩ := ha.stayed h hr.left_mem hro
      rw [hprice, hrprice, hrid]
      exact hk.before hp₀ r hold

/-- An order leaves. -/
theorem left (hk : KeepsPlace b₀ Q₀ ids s p b Q) (hl : Left b b' Q o)
    (hid : (b.order o).id ≠ (b₀.order p).id) (hids : (b.order o).id ∈ ids) :
    KeepsPlace b₀ Q₀ ids s p b' (Q.without o) := by
  have hrest : (Q.without o).resting s = (Q.resting s).filter (· ≠ o) := by
    rw [Queues.resting, Queues.resting, List.filter_flatMap]
    rfl
  have hbare : ∀ {r}, r ∈ (Q.without o).resting s →
      (b'.order r).bare = (b.order r).bare := fun {r} hr => by
    rw [hrest, List.mem_filter, decide_eq_true_eq] at hr
    exact hl.others r hr.2
  have hstill : StillRests b₀ b' (Q.without o) s p → p ≠ o ∧ StillRests b₀ b Q s p ∧
      (b'.order p).price = (b.order p).price := by
    rintro ⟨hp, hpid⟩
    have hpb := hbare hp
    rw [hrest, List.mem_filter, decide_eq_true_eq] at hp
    exact ⟨hp.2, ⟨hp.1, (Core.id_of_bare hpb).symm.trans hpid⟩, price_of_bare hpb⟩
  refine ⟨fun hp => ?_, fun hp q hq hqid => ?_, fun hp r hr => ?_⟩
  · obtain ⟨-, hp₀, hprice⟩ := hstill hp
    rw [hprice, hk.price hp₀]
  · obtain ⟨hpo, hp₀, -⟩ := hstill hp
    obtain ⟨hbefore, hqbare⟩ := hk.behind hp₀ q hq hqid
    have hqo : q ≠ o := by
      rintro rfl
      rw [Core.id_of_bare hqbare] at hids
      exact hqid hids
    have hbefore' :=
      hbefore.filter (p := fun x => decide (x ≠ o)) (by simpa using hpo) (by simpa using hqo)
    rw [← hrest] at hbefore'
    exact ⟨hbefore', (hbare hbefore'.right_mem).trans hqbare⟩
  · obtain ⟨-, hp₀, hprice⟩ := hstill hp
    have hrbare := hbare hr.left_mem
    rw [hrest] at hr
    have hrprice : (b'.order r).price = (b.order r).price := price_of_bare hrbare
    rw [hprice, hrprice, Core.id_of_bare hrbare]
    exact hk.before hp₀ r (hr.mono List.filter_sublist)

theorem addOrder (hk : KeepsPlace b₀ Q₀ ids s p b Q) (h : Inv b Q) (hcap : cap < 2 ^ 32)
    {id : OrderId} (hid : id ≠ (b₀.order p).id) (client : ClientId) (side : Side) (type : OrderType)
    (price : Price) (qty : Quantity) (ts : Timestamp) :
    ∃ b' r Q', b.addOrder id client side type price qty ts = some (b', r) ∧ Inv b' Q' ∧
      KeepsPlace b₀ Q₀ ids s p b' Q' := by
  by_cases hr : b.pool.available = 0 ∨ badPrice type price = true
  · exact ⟨b, false, Q, OrderBook.addOrder_refused b id client side type price qty ts hr, h, hk⟩
  · rw [not_or, Bool.not_eq_true] at hr
    have hroom : Room Q := room_of_cap h.core (fun e => hr.1 (List.length_eq_zero_iff.mpr e)) hcap
    obtain ⟨b', Q', o, hrun, ha⟩ :=
      addOrder_accepted h hroom id client side type price qty ts hr.1 hr.2
    exact ⟨b', true, Q', hrun, ha.inv, hk.added h ha hid⟩

/-- **A step**: a call that does not name the order leaves it its place. -/
theorem call (hk : KeepsPlace b₀ Q₀ ids s p b Q) (h : Inv b Q) (hcap : cap < 2 ^ 32) {c : Call}
    (hc : ¬ c.Names (b₀.order p).id) (hids : ∀ id, c.Names id → id ∈ ids) :
    ∃ b' r Q', b.call c = some (b', r) ∧ Inv b' Q' ∧ KeepsPlace b₀ Q₀ ids s p b' Q' := by
  cases c with
  | addOrder id client side type price qty ts =>
    obtain ⟨b', r, Q', hrun, h', hk'⟩ := hk.addOrder h hcap hc client side type price qty ts
    exact ⟨b', some r, Q', by simp [OrderBook.call, hrun], h', hk'⟩
  | cancelOrder id =>
    cases hl : b.lookup id with
    | none => exact ⟨b, some false, Q, by simp [OrderBook.call, cancelOrder_unknown b hl], h, hk⟩
    | some o =>
      obtain ⟨b', hrun, hleft⟩ := cancelOrder_found h hl
      obtain ⟨-, rfl⟩ := mem_of_lookup h.core hl
      exact ⟨b', some true, _, by simp [OrderBook.call, hrun], hleft.inv,
        hk.left hleft hc (hids _ rfl)⟩
  | modifyOrder id price qty ts =>
    cases hl : b.lookup id with
    | none => exact ⟨b, some false,
      Q, by simp [OrderBook.call, modifyOrder_unknown b price qty ts hl], h, hk⟩
    | some o =>
      obtain ⟨b₁, hleft, -, hadd⟩ := modifyOrder_found h hl price qty ts
      obtain ⟨-, rfl⟩ := mem_of_lookup h.core hl
      have hk₁ := hk.left hleft hc (hids _ rfl)
      obtain ⟨b', r, Q', hrun, h', hk'⟩ :=
        hk₁.addOrder hleft.inv hcap hc (b.order o).clientId (b.order o).side .limit price qty ts
      exact ⟨b', some r, Q', by simp [OrderBook.call, hadd, hrun], h', hk'⟩
  | clearFills => exact ⟨_, none, Q, rfl, clearFills_inv h, hk.price, hk.behind, hk.before⟩

/-- **A run.** -/
theorem run (hk : KeepsPlace b₀ Q₀ ids s p b Q) (h : Inv b Q) (hcap : cap < 2 ^ 32) {cs : List Call}
    (hcs : ∀ c ∈ cs, ¬ c.Names (b₀.order p).id) (hids : ∀ c ∈ cs, ∀ id, c.Names id → id ∈ ids) :
    ∃ b' rs Q', b.run cs = some (b', rs) ∧ Inv b' Q' ∧ KeepsPlace b₀ Q₀ ids s p b' Q' := by
  induction cs generalizing b Q with
  | nil => exact ⟨b, [], Q, rfl, h, hk⟩
  | cons c cs ih =>
    obtain ⟨b₁, r, Q₁, hcall, h₁, hk₁⟩ :=
      hk.call h hcap (hcs c List.mem_cons_self) (hids c List.mem_cons_self)
    obtain ⟨b', rs, Q', hrun, h', hk'⟩ :=
        ih hk₁ h₁ (fun c hc => hcs c (List.mem_cons_of_mem _ hc)) fun c hc =>
      hids c (List.mem_cons_of_mem _ hc)
    exact ⟨b', r :: rs, Q', by simp [OrderBook.run, hcall, hrun], h', hk'⟩

end KeepsPlace

/-- **No overtaking**: take any reachable book, an order of it that rests, and any further calls
that do not name its id. As long as it rests, every order behind it that the calls do not name
either rests behind it still, and no share of it was traded; and every order before it was before it
from the start, or has a better price. -/
theorem no_overtaking (hcap : cap < 2 ^ 32) (cs cs' : List Call) :
    ∃ b rs, (OrderBook.new cap).run cs = some (b, rs) ∧
      ∀ s p, (∀ c ∈ cs', ¬ c.Names (b.order p).id) →
      ∃ b' rs', b.run cs' = some (b', rs') ∧
        (p ∈ b'.queue.resting s → (b'.order p).id = (b.order p).id →
          (∀ q, Before (b.queue.resting s) p q → (∀ c ∈ cs', ¬ c.Names (b.order q).id) →
            Before (b'.queue.resting s) p q ∧ (b'.order q).bare = (b.order q).bare) ∧
          ∀ r, Before (b'.queue.resting s) r p →
            (Before (b.queue.resting s) r p ∧ (b'.order r).id = (b.order r).id) ∨
              s.dir.Better (b'.order r).price.toNat (b.order p).price.toNat) := by
  obtain ⟨b, rs, Q, hrun, h⟩ := run_inv (new_inv cap) hcap cs
  refine ⟨b, rs, hrun, fun s p hp => ?_⟩
  obtain ⟨b', rs', Q', hrun', h', hk⟩ :=
    (KeepsPlace.refl b Q {id | ∃ c ∈ cs', c.Names id} s p).run h hcap hp
    fun c hc id hid => ⟨c, hc, hid⟩
  rw [h.queue_eq]
  refine ⟨b', rs', hrun', ?_⟩
  rw [h'.queue_eq]
  refine fun hin hid => ⟨fun q hq hqid => hk.behind ⟨hin, hid⟩ q hq ?_, fun r hr => ?_⟩
  · rintro ⟨c, hc, hname⟩
    exact hqid c hc hname
  · rw [← hk.price ⟨hin, hid⟩]
    exact hk.before ⟨hin, hid⟩ r hr

/-- Two sellers at 100: a buyer takes a part of what the first one has, and a third seller joins. -/
theorem no_overtaking_two :
    ∃ b rs b' rs',
      (OrderBook.new 4).run [.addOrder 1 7 .sell .limit 100 5 0,
        .addOrder 2 8 .sell .limit 100 5 1] = some (b, rs) ∧
      b.run [.addOrder 3 9 .buy .limit 100 2 2, .addOrder 4 7 .sell .limit 100 1 3] =
        some (b', rs') ∧
      Before (b'.queue.resting .asks) 0 1 ∧ (b'.order 1).bare = (b.order 1).bare := by
  obtain ⟨b, rs, hrun, h⟩ := @no_overtaking 4 (by decide)
    [.addOrder 1 7 .sell .limit 100 5 0, .addOrder 2 8 .sell .limit 100 5 1]
    [.addOrder 3 9 .buy .limit 100 2 2, .addOrder 4 7 .sell .limit 100 1 3]
  have hids : ((OrderBook.new 4).run [.addOrder 1 7 .sell .limit 100 5 0,
    .addOrder 2 8 .sell .limit 100 5 1]).map
      (fun x => ((x.1.order 0).id, (x.1.order 1).id, x.1.queue .asks ⟨99, by decide⟩)) =
        some (1, 2, [0, 1]) := by
    decide +kernel
  have hlast : (((OrderBook.new 4).run [.addOrder 1 7 .sell .limit 100 5 0,
    .addOrder 2 8 .sell .limit 100 5 1]).bind fun x =>
    x.1.run [.addOrder 3 9 .buy .limit 100 2 2, .addOrder 4 7 .sell .limit 100 1 3]).map
      (fun x => ((x.1.order 0).id, x.1.queue .asks ⟨99, by decide⟩)) = some (1, [0, 1, 2]) := by
        decide +kernel
  rw [hrun] at hids hlast
  obtain ⟨hid₀, hid₁, hqueue⟩ : (b.order 0).id = 1 ∧ (b.order 1).id = 2 ∧
      b.queue .asks ⟨99, by decide⟩ = [0, 1] := by
    simpa using hids
  obtain ⟨b', rs', hrun', h⟩ := h .asks 0 fun c hc => by
    rw [hid₀]
    simp only [List.mem_cons, List.not_mem_nil, or_false] at hc
    rcases hc with rfl | rfl <;> simp [Call.Names]
  rw [Option.bind_some, hrun'] at hlast
  obtain ⟨hid₀', hqueue'⟩ : (b'.order 0).id = 1 ∧ b'.queue .asks ⟨99, by decide⟩ = [0, 1, 2] := by
    simpa using hlast
  have hmem : 0 ∈ b'.queue.resting .asks := Queues.mem_resting.mpr ⟨_, hqueue' ▸ List.mem_cons_self⟩
  have hfirst : Before (b.queue .asks ⟨99, by decide⟩) 0 1 := by
    rw [hqueue]
    exact List.Sublist.refl _
  have hbefore : Before (b.queue.resting .asks) 0 1 :=
    hfirst.flatMap (BookSide.mem_byPriority .asks _)
  obtain ⟨hbehind, -⟩ := h hmem (hid₀'.trans hid₀.symm)
  have hlater := hbehind 1 hbefore fun c hc => by
    rw [hid₁]
    simp only [List.mem_cons, List.not_mem_nil, or_false] at hc
    rcases hc with rfl | rfl <;> simp [Call.Names]
  exact ⟨b, rs, b', rs', hrun, hrun', hlater.1, hlater.2⟩

end TradeFeed
