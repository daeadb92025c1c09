import TradeFeed.Core.NaiveBook
import TradeFeed.Lib.Relabelling

/-!
# What the book does not look at

The book matches by the order in which prices stand and by time. The clients, the timestamps, the
distance between prices and, as far as the slots of the table stay apart, the ids are of no account:
`relabelled_run`.

The two books are compared through their references (`NaiveBook.Renamed`), of which one knows the
orders of the other by other names (`Renaming`).
-/

namespace TradeFeed

open Lib Lib.PriceTime Tradable
open OrderBook (badPrice)

variable {cap : ℕ}

/-- Other names for ids, clients, prices and times. -/
structure Renaming where
  /-- Ids. -/
  id : OrderId → OrderId
  /-- Clients. -/
  client : ClientId → ClientId
  /-- Prices. -/
  price : Price → Price
  /-- Timestamps. -/
  time : Timestamp → Timestamp

namespace Renaming

/-- A call under other names. -/
def call (ρ : Renaming) : Call → Call
  | .addOrder id client side type price qty ts =>
    .addOrder (ρ.id id) (ρ.client client) side type (ρ.price price) qty (ρ.time ts)
  | .cancelOrder id => .cancelOrder (ρ.id id)
  | .modifyOrder id price qty ts => .modifyOrder (ρ.id id) (ρ.price price) qty (ρ.time ts)
  | .clearFills => .clearFills

/-- A fill under other names. -/
def fill (ρ : Renaming) (f : Fill) : Fill :=
  ⟨ρ.id f.bidId, ρ.id f.askId, ρ.client f.bidClient, ρ.client f.askClient,
    ρ.price f.price, f.quantity⟩

/-- An order that rests, under other names. -/
def resting (ρ : Renaming) (r : Resting) : Resting :=
  ⟨ρ.id r.id, ρ.client r.client, ρ.price r.price, r.remaining⟩

/-- What a renaming does to a price, as a number. -/
def level (ρ : Renaming) (p : ℕ) : ℕ := (ρ.price (UInt32.ofNat p)).toNat

end Renaming

/-- The price that a call compares with others: a market order's is not looked at. -/
def Call.price? : Call → Option Price
  | .addOrder _ _ _ type price _ _ => if type = .market then none else some price
  | .modifyOrder _ price _ _ => some price
  | _ => none

/-- The prices that a run compares. -/
def pricesOf (cs : List Call) : Set Price := {p | ∃ c ∈ cs, c.price? = some p}

/-- A renaming is faithful on some prices when it keeps their order and their range, and ids
apart. -/
structure Renaming.Faithful (ρ : Renaming) (P : Set Price) : Prop where
  /-- The order of the prices. -/
  mono : ∀ p ∈ P, ∀ q ∈ P, p < q → ρ.price p < ρ.price q
  /-- In the range of prices, or not. -/
  range : ∀ p ∈ P, badPrice .limit (ρ.price p) = badPrice .limit p
  /-- Different ids stay different. -/
  id : Function.Injective ρ.id
  /-- Different slots of the table stay different. -/
  slot : ∀ id id', slot id ≠ slot id' → slot (ρ.id id) ≠ slot (ρ.id id')

/-- The prices as numbers. -/
def numbers (P : Set Price) : Set ℕ := UInt32.toNat '' P

theorem mem_numbers {P : Set Price} {p : Price} : p.toNat ∈ numbers P ↔ p ∈ P := by
  constructor
  · rintro ⟨q, hq, he⟩
    rwa [← UInt32.toNat_inj.mp he]
  · exact fun h => ⟨p, h, rfl⟩

section Faithful

variable {ρ : Renaming} {P : Set Price}

@[simp] theorem Renaming.level_toNat (ρ : Renaming) (p : Price) :
    ρ.level p.toNat = (ρ.price p).toNat := by
  rw [Renaming.level, UInt32.ofNat_toNat]

theorem Renaming.Faithful.relabels (h : ρ.Faithful P) : Relabels ρ.resting ρ.level (numbers P) where
  mono := by
    rintro _ ⟨p, hp, rfl⟩ _ ⟨q, hq, rfl⟩ hlt
    rw [ρ.level_toNat, ρ.level_toNat]
    exact UInt32.lt_iff_toNat_lt.mp (h.mono p hp q hq (UInt32.lt_iff_toNat_lt.mpr hlt))
  price r _ := (ρ.level_toNat r.price).symm
  remaining _ := rfl
  fill _ _ := rfl

end Faithful

/-! ### Two references -/

namespace NaiveBook

/-- The second reference has the orders of the first under other names, at each price in the same
sequence. -/
structure Renamed (ρ : Renaming) (P : Set Price) (n n' : NaiveBook) : Prop where
  /-- The orders. -/
  orders : ∀ s, Lib.PriceTime.Alike ρ.resting ρ.level (numbers P) (n.orders s) (n'.orders s)
  /-- The fills. -/
  fills : n'.fills = n.fills.map ρ.fill
  /-- How many there have ever been. -/
  matched : n'.matched = n.matched

/-- The orders that rest are told apart by their ids. -/
def Distinct (n : NaiveBook) : Prop :=
  ∀ s, ∀ r ∈ n.orders s, ∀ s', ∀ r' ∈ n.orders s', r.id = r'.id → s = s' ∧ r = r'

variable {n n' : NaiveBook} {id : OrderId} {s : BookSide} {r : Resting}

theorem find_eq_none : n.find id = none ↔ ∀ s, ∀ r ∈ n.orders s, r.id ≠ id := by
  constructor
  · intro h s r hr
    rw [find] at h
    cases hb : (n.orders .bids).find? fun r => r.id = id with
    | some _ => rw [hb] at h; cases h
    | none =>
      rw [hb] at h
      cases s with
      | bids => simpa using List.find?_eq_none.mp hb r hr
      | asks => simpa using List.find?_eq_none.mp (Option.map_eq_none_iff.mp h) r hr
  · intro h
    have hno : ∀ s, (n.orders s).find? (fun r => r.id = id) = none := fun s =>
      List.find?_eq_none.mpr fun r hr => by simpa using h s r hr
    simp [find, hno]

theorem mem_of_find (h : n.find id = some (s, r)) : r ∈ n.orders s ∧ r.id = id := by
  rw [find] at h
  cases hb : (n.orders .bids).find? fun r => r.id = id with
  | some r' =>
    rw [hb] at h
    obtain ⟨rfl, rfl⟩ := Prod.mk.inj (Option.some.inj h)
    exact ⟨List.mem_of_find?_eq_some hb, by simpa using List.find?_some hb⟩
  | none =>
    rw [hb] at h
    obtain ⟨r', ha, he⟩ := Option.map_eq_some_iff.mp h
    obtain ⟨rfl, rfl⟩ := Prod.mk.inj he
    exact ⟨List.mem_of_find?_eq_some ha, by simpa using List.find?_some ha⟩

theorem find_of_mem (hd : n.Distinct) (hr : r ∈ n.orders s) : n.find r.id = some (s, r) := by
  cases hf : n.find r.id with
  | none => exact absurd rfl (find_eq_none.mp hf s r hr)
  | some x =>
    obtain ⟨hx, hid⟩ := mem_of_find hf
    obtain ⟨hs, hr⟩ := hd _ _ hx _ _ hr hid
    rw [← hs, ← hr]

variable {ρ : Renaming} {P : Set Price}

namespace Renamed

/-- The orders of the second are those of the first. -/
theorem mem_iff (h : Renamed ρ P n n') {r' : Resting} :
    r' ∈ n'.orders s ↔ ∃ r ∈ n.orders s, ρ.resting r = r' :=
  (h.orders s).mem_iff

theorem distinct (h : Renamed ρ P n n') (hρ : ρ.Faithful P) (hd : n.Distinct) : n'.Distinct := by
  intro s r hr s' r' hr' he
  obtain ⟨q, hq, rfl⟩ := h.mem_iff.mp hr
  obtain ⟨q', hq', rfl⟩ := h.mem_iff.mp hr'
  obtain ⟨rfl, rfl⟩ := hd s q hq s' q' hq' (hρ.id he)
  exact ⟨rfl, rfl⟩

/-- An id finds the same order under its other name. -/
theorem find (h : Renamed ρ P n n') (hρ : ρ.Faithful P) (hd : n.Distinct) (id : OrderId) :
    n'.find (ρ.id id) = (n.find id).map (Prod.map (fun s => s) ρ.resting) := by
  cases hf : n.find id with
  | none =>
    refine find_eq_none.mpr fun s r' hr' he => ?_
    obtain ⟨r, hr, rfl⟩ := h.mem_iff.mp hr'
    exact find_eq_none.mp hf s r hr (hρ.id he)
  | some x =>
    obtain ⟨s, r⟩ := x
    obtain ⟨hr, rfl⟩ := mem_of_find hf
    exact find_of_mem (h.distinct hρ hd) (h.mem_iff.mpr ⟨r, hr, rfl⟩)

theorem delete (h : Renamed ρ P n n') (hρ : ρ.Faithful P) (id : OrderId) :
    Renamed ρ P (n.delete id) (n'.delete (ρ.id id)) where
  orders s := (h.orders s).filter fun _ _ => decide_eq_decide.mpr (not_congr hρ.id.eq_iff)
  fills := h.fills
  matched := h.matched

/-- What shares no slot under one name shares none under the other. -/
theorem unshared (h : Renamed ρ P n n') (hρ : ρ.Faithful P) {c : Call} (hc : n.Unshared c) :
    n'.Unshared (ρ.call c) := by
  cases c with
  | addOrder id client side type price qty ts =>
    intro r' hr'
    rcases List.mem_append.mp hr' with hr' | hr' <;>
    · obtain ⟨r, hr, rfl⟩ := h.mem_iff.mp hr'
      exact hρ.slot _ _ (hc r (by simp [hr]))
  | cancelOrder id => exact trivial
  | modifyOrder id price qty ts => exact trivial
  | clearFills => exact trivial

end Renamed

end NaiveBook

/-! ### Side by side -/

section Steps

variable {b : OrderBook cap} {Q : Queues cap} {n n' : NaiveBook} {ρ : Renaming} {P : Set Price}

theorem Refines.distinct (h : Refines b Q n) : n.Distinct := by
  intro s r hr s' r' hr' he
  obtain ⟨i, p, hp, rfl⟩ := h.mem_orders.mp hr
  obtain ⟨j, p', hp', rfl⟩ := h.mem_orders.mp hr'
  obtain rfl : p = p' := by
    by_contra hne
    exact h.registered.slot_ne (Or.inr ⟨s, i, hp⟩) (Or.inr ⟨s', j, hp'⟩) hne (congrArg slot he)
  exact ⟨(h.inv.core.level_unique hp' hp).1, rfl⟩

/-- As many orders rest in one as in the other. -/
theorem size_renamed (h : Refines b Q n) (ha : NaiveBook.Renamed ρ P n n') (hρ : ρ.Faithful P) :
    n'.size = n.size := by
  have hlen : ∀ s, (n'.orders s).length = (n.orders s).length := fun s => by
    have harr := h.orders s
    rw [← ((ha.orders s).arranged hρ.relabels harr).perm.length_eq, ← harr.perm.length_eq,
      List.length_map]
  rw [NaiveBook.size, NaiveBook.size, hlen, hlen]

/-- Which prices an order crosses does not change. -/
theorem crosses_renamed (hρ : ρ.Faithful P) (s : BookSide) {type : OrderType} {price : Price}
    (hp : type ≠ .market → price ∈ P) :
    ∀ q ∈ numbers P, NaiveBook.crosses s type (ρ.price price) (ρ.level q) =
      NaiveBook.crosses s type price q := by
  rintro _ ⟨q, hq, rfl⟩
  by_cases hm : type = .market
  · simp [NaiveBook.crosses, hm]
  have hmono := hρ.relabels.mono
  have hp' : price.toNat ∈ numbers P := mem_numbers.mpr (hp hm)
  have hq' : q.toNat ∈ numbers P := mem_numbers.mpr hq
  have hle : ρ.level q.toNat ≤ (ρ.price price).toNat ↔ q.toNat ≤ price.toNat := by
    rw [← ρ.level_toNat price]
    exact hmono.le_iff_le hq' hp'
  have hge : (ρ.price price).toNat ≤ ρ.level q.toNat ↔ price.toNat ≤ q.toNat := by
    rw [← ρ.level_toNat price]
    exact hmono.le_iff_le hp' hq'
  cases s
  · exact congrArg _ (decide_eq_decide.mpr hle)
  · exact congrArg _ (decide_eq_decide.mpr hge)

/-- **An incoming order** does to the one what it does to the other under other names. -/
theorem submit_renamed (h : Refines b Q n) (ha : NaiveBook.Renamed ρ P n n') (hρ : ρ.Faithful P)
    (s : BookSide) (id : OrderId) (client : ClientId) {type : OrderType} {price : Price}
    (hp : type ≠ .market → price ∈ P) (qty : Quantity) :
    NaiveBook.Renamed ρ P (n.submit s id client type price qty)
      (n'.submit s (ρ.id id) (ρ.client client) type (ρ.price price) qty) := by
  have hrecord : ∀ t,
    NaiveBook.record s (ρ.id id) (ρ.client client) (Prod.map ρ.resting (fun q => q) t) =
      ρ.fill (NaiveBook.record s id client t) := fun t => by cases s <;> rfl
  obtain ⟨ht, hl, hr⟩ := naive_alike hρ.relabels (crosses_renamed hρ s hp) (h.orders s.opposite)
    (fun r hr => views_pos h.inv _ hr) (ha.orders s.opposite) qty.toNat
  refine ⟨fun s' => ?_, ?_, ?_⟩
  · simp only [NaiveBook.submit]
    by_cases hs : s' = s
    · rw [if_pos hs, if_pos hs]
      refine (ha.orders s).append ?_
      rw [hl]
      split_ifs with hrest
      · refine Lib.PriceTime.Alike.map (l := [⟨id, client, price, _⟩]) hρ.relabels fun r hr => ?_
        rw [List.mem_singleton.mp hr]
        exact mem_numbers.mpr (hp (by rw [hrest.2]; decide))
      · exact .nil _ _ _
    · rw [if_neg hs, if_neg hs]
      exact hr
  · simp only [NaiveBook.submit]
    rw [ht, ha.fills, List.map_append, List.map_map, List.map_map]
    exact congrArg _ (List.map_congr_left fun t _ => hrecord t)
  · simp only [NaiveBook.submit]
    rw [ht, ha.matched, List.length_map]

theorem add_renamed (h : Refines b Q n) (ha : NaiveBook.Renamed ρ P n n') (hρ : ρ.Faithful P)
    (s : BookSide) (id : OrderId) (client : ClientId) {type : OrderType} {price : Price}
    (hp : type ≠ .market → price ∈ P) (qty : Quantity) :
    (n'.add cap s (ρ.id id) (ρ.client client) type (ρ.price price) qty).2 =
      (n.add cap s id client type price qty).2 ∧
      NaiveBook.Renamed ρ P (n.add cap s id client type price qty).1
        (n'.add cap s (ρ.id id) (ρ.client client) type (ρ.price price) qty).1 := by
  have hbad : badPrice type (ρ.price price) = badPrice type price := by
    by_cases hl : type = .limit
    · subst hl
      exact hρ.range price (hp (by decide))
    · simp [badPrice, hl]
  rw [NaiveBook.add, NaiveBook.add, size_renamed h ha hρ, hbad]
  split_ifs
  · exact ⟨rfl, ha⟩
  · exact ⟨rfl, submit_renamed h ha hρ s id client hp qty⟩

/-- **A step.** -/
theorem call_renamed (h : Refines b Q n) (ha : NaiveBook.Renamed ρ P n n') (hρ : ρ.Faithful P)
    {c : Call} (hc : ∀ p, c.price? = some p → p ∈ P) :
    (n'.call cap (ρ.call c)).2 = (n.call cap c).2 ∧
      NaiveBook.Renamed ρ P (n.call cap c).1 (n'.call cap (ρ.call c)).1 := by
  cases c with
  | addOrder id client side type price qty ts =>
    obtain ⟨hr, ha⟩ := add_renamed h ha hρ side.book id client (fun hm => hc price (if_neg hm)) qty
    exact ⟨congrArg some hr, ha⟩
  | cancelOrder id =>
    simp only [Renaming.call, NaiveBook.call, NaiveBook.cancel, ha.find hρ h.distinct]
    cases n.find id with
    | none => exact ⟨rfl, ha⟩
    | some x => exact ⟨rfl, ha.delete hρ id⟩
  | modifyOrder id price qty ts =>
    simp only [Renaming.call, NaiveBook.call, NaiveBook.modify, ha.find hρ h.distinct]
    cases hl : b.lookup id with
    | none =>
      rw [find_of_lookup_none h hl]
      exact ⟨rfl, ha⟩
    | some o =>
      rw [find_of_lookup_some h hl]
      obtain ⟨b₁, -, hleft⟩ := cancelOrder_found h.inv hl
      obtain ⟨hr, ha⟩ :=
        add_renamed (hleft.refines h hl) (ha.delete hρ id) hρ (b.order o).side.book id
        (b.order o).clientId (fun _ => hc price rfl) qty
      exact ⟨congrArg some hr, ha⟩
  | clearFills => exact ⟨rfl, ha.orders, rfl, ha.matched⟩

/-- **A run.** -/
theorem run_renamed (h : Refines b Q n) (ha : NaiveBook.Renamed ρ P n n') (hρ : ρ.Faithful P)
    {cs : List Call} (hcs : pricesOf cs ⊆ P) (hunshared : n.AllUnshared cap cs) :
    (n'.run cap (cs.map ρ.call)).2 = (n.run cap cs).2 ∧
      NaiveBook.Renamed ρ P (n.run cap cs).1 (n'.run cap (cs.map ρ.call)).1 ∧
      n'.AllUnshared cap (cs.map ρ.call) := by
  induction cs generalizing b Q n n' with
  | nil => exact ⟨rfl, ha, trivial⟩
  | cons c cs ih =>
    obtain ⟨b₁, Q₁, -, h₁⟩ := call_refines h c hunshared.1
    obtain ⟨hr, ha₁⟩ := call_renamed h ha hρ fun p hp => hcs ⟨c, List.mem_cons_self, hp⟩
    obtain ⟨hrs, ha', hun⟩ :=
      ih h₁ ha₁ (fun p ⟨c', hc', hp⟩ => hcs ⟨c', List.mem_cons_of_mem _ hc', hp⟩) hunshared.2
    refine ⟨?_, ha', ha.unshared hρ hunshared.1, hun⟩
    rw [List.map_cons, NaiveBook.run, NaiveBook.run]
    exact congrArg₂ _ hr hrs

/-- The orders of a side, by priority, under other names. -/
theorem resting_renamed {b' : OrderBook cap} {Q' : Queues cap} (h : Refines b Q n)
    (h' : Refines b' Q' n') (ha : NaiveBook.Renamed ρ P n n') (hρ : ρ.Faithful P) (s : BookSide) :
    b'.views (b'.queue.resting s) = (b.views (b.queue.resting s)).map ρ.resting := by
  rw [h.inv.queue_eq, h'.inv.queue_eq]
  exact ((ha.orders s).arranged hρ.relabels (h.orders s)).unique (h'.orders s)

end Steps

/-- **The book does not look at names**, at times, or at how far prices are from each other: over
every run in which no incoming order shares a slot of the table with a resting one, and every
faithful renaming of it, the calls return the same, the fills are the same under the other names,
and so are the orders of both sides, by priority. -/
theorem relabelled_run (cap : ℕ) (cs : List Call) (ρ : Renaming) (hρ : ρ.Faithful (pricesOf cs))
    (hcs : NaiveBook.new.AllUnshared cap cs) :
    ∃ b b' rs, (OrderBook.new cap).run cs = some (b, rs) ∧
      (OrderBook.new cap).run (cs.map ρ.call) = some (b', rs) ∧
      b'.fills = b.fills.map ρ.fill ∧ b'.matchCount = b.matchCount ∧
      ∀ s, b'.views (b'.queue.resting s) = (b.views (b.queue.resting s)).map ρ.resting := by
  have hnew : NaiveBook.Renamed ρ (pricesOf cs) NaiveBook.new NaiveBook.new :=
    ⟨fun _ => .nil _ _ _, rfl, rfl⟩
  obtain ⟨hrs, ha, hun⟩ := run_renamed (new_refines cap) hnew hρ subset_rfl hcs
  obtain ⟨b, Q, hrun, h⟩ := run_refines (new_refines cap) cs hcs
  obtain ⟨b', Q', hrun', h'⟩ := run_refines (new_refines cap) (cs.map ρ.call) hun
  refine ⟨b, b', _, hrun, hrs ▸ hrun', ?_, ?_, resting_renamed h h' ha hρ⟩
  · rw [h'.fills, ha.fills, h.fills]
  · rw [h'.matchCount, ha.matched, h.matchCount]

/-- Ids that are counted from elsewhere are told apart by their slots as before. -/
theorem slot_of_shifted {k id id' : OrderId} (h : slot (id + k) = slot (id' + k)) :
    slot id = slot id' := by
  have hval : ∀ id : OrderId, (slot id).val = id.toNat % 2 ^ 20 :=
    fun id => Nat.and_two_pow_sub_one_eq_mod _ 20
  have heq : (slot (id + k)).val = (slot (id' + k)).val := congrArg Fin.val h
  rw [hval, hval, UInt64.toNat_add, UInt64.toNat_add] at heq
  refine Fin.ext ?_
  rw [hval, hval]
  omega

/-- Two sellers and a buyer who takes both, at prices ten times as far apart, with all clients one
client. -/
theorem relabelled_run_three :
    let cs : List Call := [.addOrder 1 7 .sell .limit 101 5 0, .addOrder 2 8 .sell .limit 100 2 1,
      .addOrder 3 9 .buy .limit 101 6 2]
    let ρ : Renaming := ⟨fun id => id + 3, fun _ => 0, fun p => 10 * p, fun _ => 0⟩
    ∃ b b' rs, (OrderBook.new 4).run cs = some (b, rs) ∧
      (OrderBook.new 4).run (cs.map ρ.call) = some (b', rs) ∧
      b'.fills = b.fills.map ρ.fill ∧ b'.matchCount = b.matchCount ∧
      ∀ s, b'.views (b'.queue.resting s) = (b.views (b.queue.resting s)).map ρ.resting := by
  intro cs ρ
  have hprices : ∀ p ∈ pricesOf cs, p = 101 ∨ p = 100 := fun p hp => by
    have hne : ¬ OrderType.limit = .market := by decide
    have hor : 101 = p ∨ 100 = p ∨ 101 = p := by simpa [pricesOf, cs, Call.price?, hne] using hp
    rcases hor with rfl | rfl | rfl <;> simp
  refine relabelled_run 4 cs ρ ⟨fun p hp q hq => ?_, fun p hp => ?_, fun id id' he => ?_,
    fun id id' hne he => hne ?_⟩ (by decide)
  · rcases hprices p hp with rfl | rfl <;> rcases hprices q hq with rfl | rfl <;> decide
  · rcases hprices p hp with rfl | rfl <;> decide
  · exact add_right_cancel (he : id + 3 = id' + 3)
  · exact slot_of_shifted he

end TradeFeed
