import TradeFeed.Engine.Ids

/-!
# The outbound stream accounts for the book

A client that sees every inbound message, paired with the outbound messages it causes, can keep a
book of its own (`Shadow`): what is accepted goes in, what is executed is taken off, what is
canceled goes. `shadow_mirrors` says that after each message this shadow book is the set of orders
that rest, by id, with their sides, prices and remaining quantities, whether or not the table of
orders can still find them.

Ids have to be distinct for that: no order may come in under the id of one that rests. In runs with
at most 2⁶⁴ messages of type NewOrder none does; in `shadow_blurred`, which has one more, two orders
rest under one id. And a ModifyOrder has to carry a price in range, as one that does not removes the
order and is answered as if it had not.
-/

namespace TradeFeed

open Lib Tradable
open OrderBook (badPrice incoming)

variable {cap : ℕ}

/-- What is known of an order. -/
@[ext]
structure Known where
  /-- The side. -/
  side : Side
  /-- The price. -/
  price : Price
  /-- The remaining quantity. -/
  remaining : Quantity
  deriving DecidableEq

/-- What there is to know of an order. -/
def Order.known (w : Order cap) : Known := ⟨w.side, w.price, w.remaining⟩

theorem Order.known_of_bare {w w' : Order cap} (h : w'.bare = w.bare) : w'.known = w.known := by
  show w'.bare.known = w.bare.known
  rw [h]

/-- An entry with nothing left vanishes. -/
def Known.kept (k : Known) : Option Known := if k.remaining = 0 then none else some k

/-- Take a quantity off. -/
def Known.less (k : Known) (q : Quantity) : Option Known :=
  { k with remaining := k.remaining - q }.kept

/-- The shadow book. -/
abbrev Shadow := OrderId → Option Known

namespace Shadow

/-- It starts empty. -/
def empty : Shadow := fun _ => none

/-- A NewOrder of type Limit was accepted. -/
def insert (m : Shadow) (id : OrderId) (k : Known) : Shadow := Function.update m id k.kept

/-- Change the entry of an id, if there is one. -/
def change (m : Shadow) (id : OrderId) (f : Known → Option Known) : Shadow :=
  Function.update m id ((m id).bind f)

/-- An order was canceled. -/
def delete (m : Shadow) (id : OrderId) : Shadow := Function.update m id none

/-- Take note of an outbound message that an inbound one caused. -/
def note (msg : InboundMessage) (m : Shadow) (out : OutboundMessage) : Shadow :=
  if out.type = .orderAccepted then
    if msg.type = .newOrder then
      if msg.orderType = .limit then m.insert out.orderId ⟨msg.side, msg.price, msg.quantity⟩ else m
    else if msg.type = .modifyOrder then
      m.change out.orderId fun k => { k with price := msg.price, remaining := msg.quantity }.kept
    else m
  else if out.type = .orderExecuted then m.change out.orderId fun k => k.less out.quantity
  else if out.type = .orderCanceled then m.delete out.orderId
  else m

/-- Follow a run: each inbound message comes with the outbound ones it caused. -/
def follow (m : Shadow) (stream : List (InboundMessage × List OutboundMessage)) : Shadow :=
  stream.foldl (fun m t => t.2.foldl (note t.1) m) m

/-- The shadow book is the set of orders that rest. -/
def Mirrors (m : Shadow) (b : OrderBook cap) : Prop :=
  ∀ id k, m id = some k ↔ ∃ s i, ∃ p ∈ b.queue s i, (b.order p).id = id ∧ (b.order p).known = k

end Shadow

/-! ### Taking quantities off -/

theorem Known.kept_eq_some {k k' : Known} : k.kept = some k' ↔ k.remaining ≠ 0 ∧ k = k' := by
  unfold kept
  split_ifs with h <;> simp [h]

theorem Known.less_eq_some {k k' : Known} {q : Quantity} :
    k.less q = some k' ↔ k.remaining - q ≠ 0 ∧ { k with remaining := k.remaining - q } = k' :=
  Known.kept_eq_some

/-- One quantity after another. -/
theorem Known.less_less (k : Known) {q q' : Quantity} (h : q.toNat + q'.toNat ≤ k.remaining.toNat) :
    (k.less q).bind (·.less q') = k.less (q + q') := by
  have hsub : k.remaining - q - q' = k.remaining - (q + q') := by
    simp only [UInt32.sub_eq_add_neg, UInt32.neg_add, UInt32.add_assoc]
  by_cases hq : k.remaining - q = 0
  · -- nothing is left to take the second one off
    have hle : q ≤ k.remaining := UInt32.le_iff_toNat_le.mpr (by omega)
    have hzero : (k.remaining - q).toNat = 0 := by rw [hq]; rfl
    rw [UInt32.toNat_sub_of_le _ _ hle] at hzero
    obtain rfl : q' = 0 := by
      rw [← UInt32.toNat_inj, UInt32.toNat_zero]
      omega
    rw [UInt32.add_zero]
    simp [less, kept, hq]
  · have hless : k.less q = some { k with remaining := k.remaining - q } :=
      Known.less_eq_some.mpr ⟨hq, rfl⟩
    rw [hless, Option.bind_some, less, less, hsub]

theorem Known.less_zero {k : Known} (h : k.remaining ≠ 0) : k.less 0 = some k :=
  Known.less_eq_some.mpr ⟨by rwa [UInt32.sub_zero], by rw [UInt32.sub_zero]⟩

section Note

variable {m : Shadow} {msg : InboundMessage} {tsc : Timestamp} {n : UInt64} {f : Fill}

open Shadow

theorem note_executedBid (m : Shadow) :
    note msg m (executedBid f n tsc) = m.change f.bidId (·.less f.quantity) := by
  have hne : MessageType.orderExecuted ≠ .orderAccepted := by decide
  simp [note, executedBid, executed, hne]

theorem note_executedAsk (m : Shadow) :
    note msg m (executedAsk f n tsc) = m.change f.askId (·.less f.quantity) := by
  have hne : MessageType.orderExecuted ≠ .orderAccepted := by decide
  simp [note, executedAsk, executed, hne]

/-- The two reports of a fill take its quantity off the orders it names. -/
theorem note_fill (msg : InboundMessage) (tsc : Timestamp) (n : UInt64) (hne : f.bidId ≠ f.askId)
    {id : OrderId} (hk : ∀ k, m id = some k → k.remaining ≠ 0) :
    note msg (note msg m (executedBid f n tsc)) (executedAsk f n tsc) id =
      (m id).bind (·.less (if f.bidId = id ∨ f.askId = id then f.quantity else 0)) := by
  rw [note_executedBid, note_executedAsk]
  simp only [change, Function.update_apply]
  by_cases hb : id = f.bidId
  · subst hb
    simp [hne]
  · by_cases ha : id = f.askId
    · subst ha
      simp [hb]
    · rw [if_neg ha, if_neg hb, if_neg (by tauto)]
      cases hm : m id with
      | none => rfl
      | some k => exact (Known.less_zero (hk k hm)).symm

/-- **The reports of some fills** take off each order what the fills name it for. -/
theorem note_reports (msg : InboundMessage) (tsc : Timestamp) (n : UInt64) {fs : List Fill}
    (hne : ∀ f ∈ fs, f.bidId ≠ f.askId) {id : OrderId}
    (hk : ∀ k, m id = some k → k.remaining ≠ 0 ∧ named fs id ≤ k.remaining.toNat) :
    (reports tsc fs n).foldl (note msg) m id =
      (m id).bind (·.less (UInt32.ofNat (named fs id))) := by
  induction fs generalizing m n with
  | nil =>
    cases hm : m id with
    | none => exact hm
    | some k => exact hm.trans (Known.less_zero (hk k hm).1).symm
  | cons f fs ih =>
    set q : Quantity := if f.bidId = id ∨ f.askId = id then f.quantity else 0 with hq
    have hnamed : named (f :: fs) id = q.toNat + named fs id := by
      rw [named, List.map_cons, List.sum_cons, hq]
      split_ifs <;> rfl
    have hfirst := note_fill msg tsc n (hne f (by simp)) fun k hm => (hk k hm).1
    rw [← hq] at hfirst
    rw [reports_cons, List.foldl_cons, List.foldl_cons,
      ih (n + 1) (fun f' h' => hne f' (by simp [h'])), hfirst, hnamed]
    · cases hm : m id with
      | none => rfl
      | some k =>
        have hle := (hk k hm).2
        have hlt : k.remaining.toNat < 2 ^ 32 := k.remaining.toNat_lt
        rw [hnamed] at hle
        have hrest : (UInt32.ofNat (named fs id)).toNat = named fs id := by
          rw [UInt32.toNat_ofNat']
          omega
        rw [Option.bind_some, Option.bind_some, Known.less_less k (by rw [hrest]; exact hle),
          UInt32.ofNat_add, UInt32.ofNat_toNat]
    · intro k' hk'
      rw [hfirst] at hk'
      obtain ⟨k, hm, hless⟩ := Option.bind_eq_some_iff.mp hk'
      obtain ⟨hne', rfl⟩ := Known.less_eq_some.mp hless
      have hle := (hk k hm).2
      rw [hnamed] at hle
      refine ⟨hne', ?_⟩
      show named fs id ≤ (k.remaining - q).toNat
      rw [UInt32.toNat_sub_of_le _ _ (UInt32.le_iff_toNat_le.mpr (by omega))]
      omega

end Note

/-! ### What orders do to the shadow book -/

section Mirrors

open Shadow

variable {b b' : OrderBook cap} {Q Q' : Queues cap} {o : Fin cap} {new : Order cap} {m : Shadow}

/-- The shadow book in terms of what the queues hold. -/
theorem mirrors_iff (h : Inv b Q) :
    Mirrors m b ↔ ∀ id k, m id = some k ↔
      ∃ s i, ∃ t ∈ b.entries (Q s i), t.2.id = id ∧ t.2.known = k := by
  obtain rfl := h.queue_eq
  refine forall_congr' fun id => forall_congr' fun k => iff_congr Iff.rfl ?_
  refine exists_congr fun s => exists_congr fun i => ?_
  constructor
  · rintro ⟨p, hp, hid, hk⟩
    exact ⟨b.entry p, List.mem_map.mpr ⟨p, hp, rfl⟩, hid, hk⟩
  · rintro ⟨t, ht, hid, hk⟩
    obtain ⟨p, hp, rfl⟩ := List.mem_map.mp ht
    exact ⟨p, hp, hid, hk⟩

/-- An order that leaves is deleted. -/
theorem Left.mirrors {id : OrderId} (h : Inv b Q) (ha : Left b b' Q o) (hd : DistinctIds b Q)
    (hl : b.lookup id = some o) (hm : Mirrors m b) : Mirrors (m.delete id) b' := by
  obtain rfl := h.queue_eq
  obtain ⟨⟨s₀, i₀, ho⟩, hid⟩ := mem_of_lookup h.core hl
  intro id' k
  rw [ha.inv.queue_eq, delete, Function.update_apply]
  split_ifs with he
  · subst he
    refine iff_of_false (by simp) ?_
    rintro ⟨s, i, p, hp, hid', -⟩
    exact ha.freshId h.core hd hl s i p hp hid'
  · rw [hm id' k]
    refine exists_congr fun s => exists_congr fun i => exists_congr fun p => ?_
    rw [Queues.mem_without]
    constructor
    · rintro ⟨hp, hid', hk⟩
      have hne : p ≠ o := by
        rintro rfl
        exact he (hid'.symm.trans hid)
      have hbare := ha.others p hne
      refine ⟨⟨hp, hne⟩, (Core.id_of_bare hbare).trans hid', ?_⟩
      rw [Order.known_of_bare hbare, hk]
    · rintro ⟨⟨hp, hne⟩, hid', hk⟩
      have hbare := ha.others p hne
      refine ⟨hp, (Core.id_of_bare hbare).symm.trans hid', ?_⟩
      rw [← Order.known_of_bare hbare, hk]

theorem known_fill (t : Entry cap) (n : ℕ) :
    (fill t n).2.known = { t.2.known with remaining := t.2.known.remaining - UInt32.ofNat n } := by
  have : (t.2.fill (UInt32.ofNat n)).remaining = t.2.remaining - UInt32.ofNat n := by
    simp only [Order.fill, Order.remaining, UInt32.sub_eq_add_neg, UInt32.neg_add, UInt32.add_assoc]
  show Known.mk t.2.side t.2.price (t.2.fill (UInt32.ofNat n)).remaining = _
  rw [this]
  rfl

/-- What is known of an incoming order. -/
def Order.arriving (new : Order cap) : Known := ⟨new.side, new.price, new.quantity⟩

/-- The shadow book when an order was accepted, before its fills. -/
def Shadow.accept (m : Shadow) (new : Order cap) : Shadow :=
  if new.type = .limit then m.insert new.id new.arriving else m

/-- What is known of the new order afterwards, if it rests. -/
theorem Accepted.known_new (h : Inv b Q) (ha : Accepted b b' Q Q' o new) (hd : DistinctIds b Q)
    (hf : FreshId b Q new.id) (hlevel : new.type = .limit → ∃ i, new.price = priceAt i)
    (k' : Known) :
    (∃ s i, ∃ t ∈ b'.entries (Q' s i), t.2.id = new.id ∧ t.2.known = k') ↔
      Rests b Q new ∧ (remainder b Q new).known = k' := by
  constructor
  · rintro ⟨s, i, t, ht, hid, hk⟩
    rw [ha.account h hd hf, List.mem_append] at ht
    rcases ht with ht | ht
    · obtain ⟨t₀, ht₀, rfl⟩ := List.mem_map.mp (List.mem_filter.mp ht).1
      obtain ⟨p, hp, rfl⟩ := List.mem_map.mp ht₀
      exact absurd hid (hf s i p hp)
    · split_ifs at ht with hr
      · obtain rfl := List.mem_singleton.mp ht
        exact ⟨hr.2.1, hk⟩
      · exact absurd ht List.not_mem_nil
  · rintro ⟨hr, hk⟩
    obtain ⟨i, hi⟩ := hlevel hr.2
    refine ⟨new.side.book, i, (o, remainder b Q new), ?_, rfl, hk⟩
    rw [ha.account h hd hf, if_pos ⟨rfl, hr, hi⟩]
    exact List.mem_append_right _ (List.mem_singleton_self _)

/-- What is known of the others has lost what the fills name them for. -/
theorem Accepted.known_other (h : Inv b Q) (ha : Accepted b b' Q Q' o new) (hd : DistinctIds b Q)
    (hf : FreshId b Q new.id) {id : OrderId} (hid : id ≠ new.id) (k' : Known) :
    (∃ s i, ∃ t ∈ b'.entries (Q' s i), t.2.id = id ∧ t.2.known = k') ↔
      ∃ s i, ∃ t ∈ b.entries (Q s i), t.2.id = id ∧
        t.2.known.less (UInt32.ofNat (named (fillsOf b Q new) id)) = some k' := by
  have hpos : ∀ (t : Entry cap) n, 0 < remaining (fill t n) ↔
      t.2.known.remaining - UInt32.ofNat n ≠ 0 := by
    intro t n
    have hr : (fill t n).2.known.remaining = t.2.known.remaining - UInt32.ofNat n := by
      rw [known_fill]
    rw [← hr, Nat.pos_iff_ne_zero, ne_eq, ne_eq, ← UInt32.toNat_inj]
    rfl
  refine exists_congr fun s => exists_congr fun i => ?_
  constructor
  · rintro ⟨t, ht, hid', hk⟩
    rw [ha.account h hd hf, List.mem_append] at ht
    rcases ht with ht | ht
    · obtain ⟨hmem, hleft⟩ := List.mem_filter.mp ht
      obtain ⟨t₀, ht₀, rfl⟩ := List.mem_map.mp hmem
      have hid' : t₀.2.id = id := hid'
      rw [decide_eq_true_eq, hid', hpos] at hleft
      rw [hid', known_fill] at hk
      exact ⟨t₀, ht₀, hid', Known.less_eq_some.mpr ⟨hleft, hk⟩⟩
    · split_ifs at ht
      · obtain rfl := List.mem_singleton.mp ht
        exact absurd hid'.symm hid
      · exact absurd ht List.not_mem_nil
  · rintro ⟨t₀, ht₀, hid', hless⟩
    obtain ⟨hleft, hk⟩ := Known.less_eq_some.mp hless
    refine ⟨fill t₀ (named (fillsOf b Q new) t₀.2.id), ?_, hid', by rw [hid', known_fill, hk]⟩
    rw [ha.account h hd hf]
    refine List.mem_append_left _ (List.mem_filter.mpr ⟨List.mem_map.mpr ⟨t₀, ht₀, rfl⟩, ?_⟩)
    rw [decide_eq_true_eq, hid', hpos]
    exact hleft

/-- Nothing is known of an id that no order has. -/
theorem Shadow.Mirrors.none_of_fresh (h : Inv b Q) (hm : Mirrors m b) {id : OrderId}
    (hf : FreshId b Q id) :
    m id = none := by
  rw [mirrors_iff h] at hm
  apply Option.eq_none_iff_forall_ne_some.mpr
  intro k hk
  obtain ⟨s, i, t, ht, hid, -⟩ := (hm id k).mp hk
  obtain ⟨p, hp, rfl⟩ := List.mem_map.mp ht
  exact hf s i p hp hid

theorem Shadow.accept_new (hnone : m new.id = none) :
    m.accept new new.id = if new.type = .limit then new.arriving.kept else none := by
  unfold accept Shadow.insert
  split_ifs <;> simp [hnone]

theorem Shadow.accept_other {id : OrderId} (hid : id ≠ new.id) : m.accept new id = m id := by
  unfold accept Shadow.insert
  split_ifs <;> simp [hid]

/-- The fills leave what rests of the new order. -/
theorem quantity_sub_named (b : OrderBook cap) (Q : Queues cap) (new : Order cap) :
    new.quantity - UInt32.ofNat (named (fillsOf b Q new) new.id) =
      (remainder b Q new).remaining := by
  have hlt := new.quantity.toNat_lt
  have hnew := named_new b Q new
  have hnat : (UInt32.ofNat (named (fillsOf b Q new) new.id)).toNat =
      named (fillsOf b Q new) new.id := by
    rw [UInt32.toNat_ofNat']
    omega
  have hle : UInt32.ofNat (named (fillsOf b Q new) new.id) ≤ new.quantity := by
    rw [UInt32.le_iff_toNat_le, hnat]
    omega
  rw [← UInt32.toNat_inj, remainder_remaining, UInt32.toNat_sub_of_le _ _ hle, hnat]
  omega

/-- What the fills leave of what arrived is known if it rests. -/
theorem arriving_less (b : OrderBook cap) (Q : Queues cap) (new : Order cap) (k' : Known) :
    ((if new.type = .limit then new.arriving.kept else none).bind
        (·.less (UInt32.ofNat (named (fillsOf b Q new) new.id))) = some k') ↔
      Rests b Q new ∧ (remainder b Q new).known = k' := by
  have hrem := quantity_sub_named b Q new
  have hzero : (remainder b Q new).remaining = 0 ↔ (trading b Q new).left = 0 := by
    rw [← UInt32.toNat_inj, remainder_remaining, UInt32.toNat_zero]
  have hknown : { new.arriving with
      remaining := new.arriving.remaining - UInt32.ofNat (named (fillsOf b Q new) new.id) } =
        (remainder b Q new).known := by
    show Known.mk new.side new.price (new.quantity - _) = _
    rw [hrem]
    rfl
  have hne : new.arriving.remaining - UInt32.ofNat (named (fillsOf b Q new) new.id) ≠ 0 ↔
      (trading b Q new).left ≠ 0 := by
    show new.quantity - _ ≠ 0 ↔ _
    rw [hrem, ne_eq, hzero]
  by_cases hlim : new.type = .limit
  · rw [if_pos hlim, Option.bind_eq_some_iff]
    constructor
    · rintro ⟨k, hkept, hless⟩
      obtain ⟨-, rfl⟩ := Known.kept_eq_some.mp hkept
      obtain ⟨hleft, hk⟩ := Known.less_eq_some.mp hless
      exact ⟨⟨hne.mp hleft, hlim⟩, hknown.symm.trans hk⟩
    · rintro ⟨hr, hk⟩
      have hq : new.quantity ≠ 0 := by
        intro h0
        have hnew := named_new b Q new
        rw [h0, UInt32.toNat_zero] at hnew
        exact hr.1 (by omega)
      exact ⟨new.arriving, Known.kept_eq_some.mpr ⟨hq, rfl⟩,
        Known.less_eq_some.mpr ⟨hne.mpr hr.1, hknown.trans hk⟩⟩
  · rw [if_neg hlim]
    exact iff_of_false (by simp) fun hr => hlim hr.1.2

/-- What is known of an order has something left, and the fills take no more. -/
theorem known_enough (h : Inv b Q) (hd : DistinctIds b Q) (hf : FreshId b Q new.id) {s : BookSide}
    {i : Fin priceLevels} {t : Entry cap} (ht : t ∈ b.entries (Q s i)) :
    t.2.known.remaining ≠ 0 ∧ named (fillsOf b Q new) t.2.id ≤ t.2.known.remaining.toNat := by
  obtain ⟨p, hp, rfl⟩ := List.mem_map.mp ht
  have hpos := remaining_pos h.live hp
  refine ⟨fun h0 => ?_, named_le h hd hf hp⟩
  have h0 : (b.order p).remaining = 0 := h0
  simp [h0] at hpos

/-- **An accepted order**: it is inserted, and the reports of its fills do to the shadow
book what the fills do to the book. -/
theorem Accepted.mirrors (h : Inv b Q) (ha : Accepted b b' Q Q' o new) (hd : DistinctIds b Q)
    (hf : FreshId b Q new.id) (hlevel : new.type = .limit → ∃ i, new.price = priceAt i)
    (hm : Mirrors m b) (msg : InboundMessage) (tsc : Timestamp) (n : UInt64) :
    Mirrors ((reports tsc (fillsOf b Q new) n).foldl (note msg) (m.accept new)) b' := by
  have hnone := hm.none_of_fresh h hf
  rw [mirrors_iff h] at hm
  rw [mirrors_iff ha.inv]
  intro id k'
  have hreports := @note_reports (m.accept new) msg tsc n _ (bidId_ne_askId hf) id
  by_cases hid : id = new.id
  · subst hid
    rw [accept_new hnone] at hreports
    rw [ha.known_new h hd hf hlevel, hreports, arriving_less]
    intro k hk
    split_ifs at hk
    obtain ⟨hq, rfl⟩ := Known.kept_eq_some.mp hk
    have hnew := named_new b Q new
    exact ⟨hq, show named _ _ ≤ new.quantity.toNat by omega⟩
  · rw [accept_other hid] at hreports
    rw [ha.known_other h hd hf hid, hreports, Option.bind_eq_some_iff]
    · constructor
      · rintro ⟨k, hk, hless⟩
        obtain ⟨s, i, t, ht, hid', rfl⟩ := (hm id k).mp hk
        exact ⟨s, i, t, ht, hid', hless⟩
      · rintro ⟨s, i, t, ht, hid', hless⟩
        exact ⟨t.2.known, (hm id _).mpr ⟨s, i, t, ht, hid', rfl⟩, hless⟩
    · intro k hk
      obtain ⟨s, i, t, ht, rfl, rfl⟩ := (hm id k).mp hk
      exact known_enough h hd hf ht

end Mirrors

/-! ### Messages -/

section Messages

open Shadow

variable {e e' : MatchingEngine cap} {Q Q' : Queues cap} {m : Shadow} {msg : InboundMessage}
  {tsc : Timestamp}
  {out : List OutboundMessage}

theorem note_reject (m : Shadow) (c : ClientId) (id : OrderId) (reason : UInt8) :
    note msg m (emitReject c id reason tsc) = m := by
  have hne : MessageType.orderRejected ≠ .orderAccepted ∧ MessageType.orderRejected ≠
    .orderExecuted ∧
    MessageType.orderRejected ≠ .orderCanceled := by decide
  simp [note, emitReject, hne]

theorem note_cancel (m : Shadow) (c : ClientId) (id : OrderId) :
    note msg m (emitCancel c id tsc) = m.delete id := by
  have hne : MessageType.orderCanceled ≠ .orderAccepted ∧ MessageType.orderCanceled ≠
    .orderExecuted := by decide
  simp [note, emitCancel, hne]

theorem note_accept_new (m : Shadow) (e : MatchingEngine cap) (hn : msg.type = .newOrder) :
    note msg m (emitAccept msg.clientId e.nextId tsc) = m.accept (newOrderOf e msg) := by
  have ht : (emitAccept msg.clientId e.nextId tsc).type = .orderAccepted := rfl
  rw [note, if_pos ht, if_pos hn]
  rfl

/-- An order whose modification is accepted is deleted and inserted anew. -/
theorem note_accept_modified {old : Order cap} (hold : m msg.orderId = some old.known)
    (hm : msg.type = .modifyOrder) :
    note msg m (emitAccept msg.clientId msg.orderId tsc) = (m.delete msg.orderId).accept
      (modifiedOf old msg) := by
  have hne : MessageType.modifyOrder ≠ .newOrder := by decide
  simp [note, emitAccept, hm, hne, change, hold, Shadow.accept, modifiedOf, incoming, Shadow.insert,
    delete, Order.arriving, Order.known]

/-- **A step.** -/
theorem Processed.mirrors (hinv : Inv e.book Q) (hd : DistinctIds e.book Q) (hf : IdFree e msg)
    (hprice : msg.type = .modifyOrder → minPrice ≤ msg.price ∧ msg.price ≤ maxPrice)
    (hm : Mirrors m e.book) (hp : Processed e Q tsc msg e' Q' out) :
    Mirrors (out.foldl (note msg) m) e'.book := by
  have hinv' : Inv e.book.clearFills Q := clearFills_inv hinv
  rw [IdFree, hinv.queue_eq] at hf
  cases hp with
  | unknown => exact hm
  | refused =>
    rw [List.foldl_cons, note_reject]
    exact hm
  | added hnn hr ha =>
    rw [List.foldl_cons, note_accept_new m e hnn, show _ = _ from ha.fills]
    have hb : badPrice msg.orderType msg.price = false := by simpa using (not_or.mp hr).2
    exact ha.mirrors hinv' hd (hf hnn hr) (exists_level_of_limit hb) hm msg tsc _
  | notCanceled =>
    rw [List.foldl_cons, note_reject]
    exact hm
  | canceled _ hl ha =>
    rw [List.foldl_cons, note_cancel]
    exact ha.mirrors hinv hd hl hm
  | notModified =>
    rw [List.foldl_cons, note_reject]
    exact hm
  | lost hmm _ hb =>
    have := hprice hmm
    simp [badPrice, UInt32.not_lt.mpr this.1, UInt32.not_lt.mpr this.2] at hb
  | @modified hmm o hl hb b₁ b Q' o' ha ha' =>
    obtain ⟨⟨s, i, ho⟩, hid⟩ := mem_of_lookup hinv.core hl
    have hold : m msg.orderId = some (e.book.order o).known :=
      (hm _ _).mpr ⟨s, i, o, by rw [hinv.queue_eq]; exact ho, hid, rfl⟩
    have hfills : b.fills = fillsOf b₁ (Q.without o) (modifiedOf (e.book.order o) msg) := by
      rw [ha'.fills, ha.fills]
      rfl
    rw [List.foldl_cons, note_accept_modified hold hmm, hfills]
    have hm₁ : Mirrors (m.delete msg.orderId) b₁ := ha.mirrors hinv' hd hl hm
    exact ha'.mirrors ha.inv (ha.distinct hd) (ha.freshId hinv'.core hd hl)
      (exists_level_of_limit hb) hm₁ msg tsc _

/-- **A run.** -/
theorem mirrors_run (hinv : Inv e.book Q) (hcap : cap < 2 ^ 32) (hd : DistinctIds e.book Q)
    (hm : Mirrors m e.book) {msgs : List (Timestamp × InboundMessage)} (hfree : AllIdsFree e msgs)
    (hprice : ∀ t ∈ msgs, t.2.type = .modifyOrder → minPrice ≤ t.2.price ∧ t.2.price ≤ maxPrice) :
    ∃ e' outs, e.run msgs = some (e', outs) ∧
      Mirrors (m.follow ((msgs.map Prod.snd).zip outs)) e'.book := by
  induction msgs generalizing e Q m with
  | nil => exact ⟨e, [], rfl, hm⟩
  | cons t msgs ih =>
    obtain ⟨tsc, msg⟩ := t
    obtain ⟨hf, hrest⟩ : IdFree e msg ∧ ∀ e' out, e.process tsc msg = some (e', out) →
      AllIdsFree e' msgs := hfree
    obtain ⟨e₁, Q₁, out, hrun₁, hp⟩ := process_spec hinv hcap tsc msg
    have hm₁ := hp.mirrors hinv hd hf (hprice (tsc, msg) (by simp)) hm
    obtain ⟨e', outs, hrun, h'⟩ :=
      ih (hp.inv hinv) (hp.distinct hinv hd hf) hm₁ (hrest e₁ out hrun₁)
      fun t ht => hprice t (by simp [ht])
    exact ⟨e', out :: outs, run_cons.mpr ⟨e₁, out, outs, hrun₁, hrun, rfl⟩, h'⟩

end Messages

/-- **The shadow book is the book** after every run in which the modified prices are in range,
while no id is given twice, or none to an order while another rests under it. -/
theorem shadow_mirrors (hcap : cap < 2 ^ 32) {msgs : List (Timestamp × InboundMessage)}
    (hids : newOrders msgs ≤ 2 ^ 64 ∨ AllIdsFree (MatchingEngine.new cap) msgs)
    (hprice : ∀ t ∈ msgs, t.2.type = .modifyOrder → minPrice ≤ t.2.price ∧ t.2.price ≤ maxPrice) :
    ∃ e outs, (MatchingEngine.new cap).run msgs = some (e, outs) ∧
      (Shadow.empty.follow ((msgs.map Prod.snd).zip outs)).Mirrors e.book := by
  have hinv : Inv (MatchingEngine.new cap).book fun _ _ => [] := new_inv cap
  have hgiven := new_given cap
  have hfree : AllIdsFree (MatchingEngine.new cap) msgs :=
    hids.elim (fun hn => allIdsFree_of_few hinv hcap hgiven (by omega)) id
  refine mirrors_run hinv hcap hgiven.distinct ?_ hfree hprice
  rw [mirrors_iff hinv]
  intro id k
  refine iff_of_false (by simp [Shadow.empty]) ?_
  rintro ⟨s, i, t, ht, -⟩
  exact List.not_mem_nil ht

/-- A share is offered, its price is changed, and it is sold. -/
theorem shadow_mirrors_sale :
    ∃ e outs, (MatchingEngine.new maxOrders).run
        [(0, sellOne), (1, ⟨.modifyOrder, .sell, .limit, 1, 1, 99, 1, 0⟩),
          (2, ⟨.newOrder, .buy, .limit, 2, 0, 100, 1, 0⟩)] =
          some (e, outs) ∧
      (Shadow.empty.follow ([sellOne, ⟨.modifyOrder, .sell, .limit, 1, 1, 99, 1, 0⟩,
        ⟨.newOrder, .buy, .limit, 2, 0, 100, 1, 0⟩].zip outs)).Mirrors e.book :=
  shadow_mirrors (by decide) (.inl (by decide)) (by decide)

/-- **The shadow book is blurred** once an id is given again: of two orders that rest under
id 1 it can tell only one. -/
theorem shadow_blurred :
    ∃ e outs, (MatchingEngine.new maxOrders).run (twoSellers (2 ^ 64 - 1)) = some (e, outs) ∧
      ¬ (Shadow.empty.follow (((twoSellers (2 ^ 64 - 1)).map Prod.snd).zip outs)).Mirrors
        e.book := by
  have hcap : maxOrders < 2 ^ 32 := by decide
  obtain ⟨e, Q, o, o', hrun, hinv, -, -, hasks⟩ := run_twoSellers hcap (by decide) (2 ^ 64 - 1)
  rw [show 2 + UInt64.ofNat (2 ^ 64 - 1) = 1 from rfl] at hasks
  refine ⟨e, _, hrun, fun hm => ?_⟩
  rw [mirrors_iff hinv] at hm
  have hknown : ∀ t ∈ e.book.entries (Q .asks level100), t.2.id = 1 → _ = some t.2.known :=
      fun t ht hid =>
    (hm 1 t.2.known).mpr ⟨_, _, t, ht, hid, rfl⟩
  rw [hasks] at hknown
  have h₁ := hknown (o, incoming 1 1 .sell .limit 100 1 0) (by simp) rfl
  have h₂ := hknown (o', incoming 1 1 .sell .limit 100 2 0) (by simp) rfl
  have hrem := congrArg Known.remaining (Option.some.inj (h₁.symm.trans h₂))
  simp only [Order.known, incoming_remaining] at hrem
  exact absurd hrem (by decide)

end TradeFeed
