import TradeFeed.Engine.Ids

/-!
# Finding orders by id

The table of orders has a slot for the low 20 bits of an id, and an order that comes in is
registered in its slot whatever the slot holds. `lookup` compares ids, so that an order
that another one has displaced is not mistaken for it; it is not found at all.

`SlotFree` is the condition on a step that rules this out, and `addressable` says that in
the runs whose steps all meet it every order that rests stays addressable. The first 2²⁰
messages of type NewOrder meet it (`allSlotsFree_of_few`); `order_hidden` is a run of one
more, in which the orders 1 and 2²⁰ + 1 both rest and one of them cannot be found.
-/

namespace TradeFeed

open OrderBook (badPrice)

variable {cap : ℕ}

/-- Every order that rests can be found, cancelled and modified by its id. -/
structure Addressable (e : MatchingEngine cap) : Prop where
  /-- `lookup` finds it. -/
  lookup : ∀ s i, ∀ p ∈ e.book.queue s i, e.book.lookup (e.book.order p).id = some p
  /-- A message that cancels it is answered so, and it leaves its queue. -/
  cancel : ∀ s i,
    ∀ p ∈ e.book.queue s i, ∀ tsc msg, msg.type = .cancelOrder → msg.orderId = (e.book.order p).id →
    ∃ e', e.process tsc msg = some (e', [emitCancel msg.clientId msg.orderId tsc]) ∧
      ∀ s i, e'.book.queue s i = (e.book.queue s i).filter (· ≠ p)
  /-- A message that modifies it is not refused as naming no order: it is accepted if the new
  price is in range, and else the order has left its queue. -/
  modify : ∀ s i,
    ∀ p ∈ e.book.queue s i, ∀ tsc msg, msg.type = .modifyOrder → msg.orderId = (e.book.order p).id →
    ∃ e' out, e.process tsc msg = some (e', out) ∧
      if minPrice ≤ msg.price ∧ msg.price ≤ maxPrice then out.head? =
        some (emitAccept msg.clientId msg.orderId tsc)
      else ∀ s i, e'.book.queue s i = (e.book.queue s i).filter (· ≠ p)

/-- An order that comes in and is not refused shares the slot of its id with no order that
rests. -/
def SlotFree (e : MatchingEngine cap) (msg : InboundMessage) : Prop :=
  msg.type = .newOrder → ¬ Refused e msg →
    ∀ s i, ∀ p ∈ e.book.queue s i, slot (e.book.order p).id ≠ slot e.nextId

/-- Every step of a run meets this condition. -/
def AllSlotsFree (e : MatchingEngine cap) : List (Timestamp × InboundMessage) → Prop
  | [] => True
  | (tsc, msg) :: msgs => SlotFree e msg ∧ ∀ e' out, e.process tsc msg = some (e', out) →
    AllSlotsFree e' msgs

section Lookup

variable {e e' : MatchingEngine cap} {Q Q' : Queues cap} {tsc : Timestamp} {msg : InboundMessage}
  {out : List OutboundMessage}

/-- Registered orders are addressable. -/
theorem addressable_of_registered (hinv : Inv e.book Q) (hcap : cap < 2 ^ 32)
    (hr : Registered e.book Q []) :
    Addressable e := by
  have hcn : MessageType.cancelOrder ≠ .newOrder := by decide
  have hmn : MessageType.modifyOrder ≠ .newOrder ∧ MessageType.modifyOrder ≠
    .cancelOrder := by decide
  have hfound : ∀ {s i p}, p ∈ e.book.queue s i → e.book.lookup (e.book.order p).id = some p := by
    intro s i p hp
    rw [hinv.queue_eq] at hp
    exact hr.lookup hp
  refine ⟨fun s i p hp => hfound hp,
    fun s i p hp tsc msg hc hid => ?_, fun s i p hp tsc msg hm hid => ?_⟩
  · have hl := hfound hp
    rw [← hid] at hl
    obtain ⟨e', Q', out, hrun, hpr⟩ := process_spec hinv hcap tsc msg
    cases hpr with
    | canceled _ hl' ha =>
      obtain rfl := Option.some.inj (hl'.symm.trans hl)
      refine ⟨_, hrun, fun s i => ?_⟩
      rw [ha.inv.queue_eq, hinv.queue_eq]
      rfl
    | notCanceled _ hl' => simp [hl] at hl'
    | unknown _ hc' => exact absurd hc hc'
    | refused hn => exact absurd (hc.symm.trans hn) hcn
    | added hn => exact absurd (hc.symm.trans hn) hcn
    | notModified hm => exact absurd (hm.symm.trans hc) hmn.2
    | lost hm => exact absurd (hm.symm.trans hc) hmn.2
    | modified hm => exact absurd (hm.symm.trans hc) hmn.2
  · have hl := hfound hp
    rw [← hid] at hl
    obtain ⟨e', Q', out, hrun, hpr⟩ := process_spec hinv hcap tsc msg
    cases hpr with
    | modified _ _ hb _ _ => exact ⟨_, _, hrun, by rw [if_pos ((badPrice_limit _).mp hb)]; rfl⟩
    | lost _ hl' hb ha =>
      obtain rfl := Option.some.inj (hl'.symm.trans hl)
      refine ⟨_, _, hrun, ?_⟩
      rw [if_neg fun h => by simp [(badPrice_limit _).mpr h] at hb]
      intro s i
      rw [ha.inv.queue_eq, hinv.queue_eq]
      rfl
    | notModified _ hl' => simp [hl] at hl'
    | unknown _ _ hm' => exact absurd hm hm'
    | refused hn => exact absurd (hm.symm.trans hn) hmn.1
    | added hn => exact absurd (hm.symm.trans hn) hmn.1
    | notCanceled hc => exact absurd (hm.symm.trans hc) hmn.2
    | canceled hc => exact absurd (hm.symm.trans hc) hmn.2

/-- **A step**: no order is hidden. -/
theorem Processed.registered (hinv : Inv e.book Q) (hr : Registered e.book Q [])
    (hs : SlotFree e msg) (hp : Processed e Q tsc msg e' Q' out) :
    Registered e'.book Q' [] := by
  cases hp with
  | unknown => exact hr
  | refused => exact hr
  | added hn hnr ha =>
    apply ha.registered hr
    intro s i p hp
    rw [SlotFree, hinv.queue_eq] at hs
    exact hs hn hnr s i p hp
  | notCanceled => exact hr
  | canceled _ _ ha => exact ha.registered hr
  | notModified => exact hr
  | lost _ _ _ ha => exact ha.registered hr
  | modified _ hl _ ha ha' =>
    exact ha'.registered (ha.registered hr) (ha.slot_free hr (clearFills_inv hinv).core hl)

/-- **A run.** -/
theorem registered_run (hinv : Inv e.book Q) (hcap : cap < 2 ^ 32) (hr : Registered e.book Q [])
    {pre post : List (Timestamp × InboundMessage)} (hs : AllSlotsFree e (pre ++ post)) :
    ∃ e' Q' outs, e.run pre = some (e', outs) ∧ Inv e'.book Q' ∧ Registered e'.book Q' [] := by
  induction pre generalizing e Q with
  | nil => exact ⟨e, Q, [], rfl, hinv, hr⟩
  | cons m pre ih =>
    obtain ⟨tsc, msg⟩ := m
    obtain ⟨hfree, hrest⟩ : SlotFree e msg ∧ ∀ e' out, e.process tsc msg = some (e', out) →
      AllSlotsFree e' (pre ++ post) := hs
    obtain ⟨e₁, Q₁, out, hrun₁, hp⟩ := process_spec hinv hcap tsc msg
    obtain ⟨e', Q', outs, hrun, h'⟩ :=
      ih (hp.inv hinv) (hp.registered hinv hr hfree) (hrest e₁ out hrun₁)
    exact ⟨e', Q', out :: outs, run_cons.mpr ⟨e₁, out, outs, hrun₁, hrun, rfl⟩, h'⟩

/-- The slot of an id is its low 20 bits. -/
theorem slot_val (id : OrderId) : (slot id).val = id.toNat % 2 ^ 20 :=
  Nat.and_two_pow_sub_one_eq_mod _ 20

/-- The first 2²⁰ ids have slots of their own. -/
theorem slot_ofNat_ne {k n : ℕ} (hk : k < n) (hn : n < 2 ^ 20) :
    slot (UInt64.ofNat (k + 1)) ≠ slot (UInt64.ofNat (n + 1)) := by
  intro he
  have := congrArg Fin.val he
  rw [slot_val, slot_val, UInt64.toNat_ofNat', UInt64.toNat_ofNat'] at this
  omega

/-- **The first 2²⁰ messages of type NewOrder** find their slots free. -/
theorem allSlotsFree_of_few (hinv : Inv e.book Q) (hcap : cap < 2 ^ 32) {n : ℕ} (h : Given e Q n)
    {msgs : List (Timestamp × InboundMessage)} (hn : n + newOrders msgs ≤ 2 ^ 20) :
    AllSlotsFree e msgs := by
  induction msgs generalizing e Q n with
  | nil => trivial
  | cons m msgs ih =>
    obtain ⟨tsc, msg⟩ := m
    rw [newOrders_cons] at hn
    refine ⟨fun hnn _ s i p hp => ?_, fun e₁ out hrun => ?_⟩
    · rw [hinv.queue_eq] at hp
      obtain ⟨k, hk, hid⟩ := h.given s i p hp
      rw [if_pos hnn] at hn
      rw [hid, h.next]
      exact slot_ofNat_ne hk (by omega)
    · obtain ⟨e₁', Q₁, out', hrun₁, hp⟩ := process_spec hinv hcap tsc msg
      obtain ⟨rfl, rfl⟩ : e₁ = e₁' ∧ out = out' := by simpa using hrun.symm.trans hrun₁
      exact ih (hp.inv hinv) (hp.given hinv h fun hnn => by rw [if_pos hnn] at hn; omega) (by omega)

end Lookup

/-- **Every order that rests stays addressable** in the runs whose steps all find the slots
they need free. -/
theorem addressable (hcap : cap < 2 ^ 32) {pre post : List (Timestamp × InboundMessage)}
    (hs : AllSlotsFree (MatchingEngine.new cap) (pre ++ post)) :
    ∃ e outs, (MatchingEngine.new cap).run pre = some (e, outs) ∧ Addressable e := by
  obtain ⟨e, Q, outs, hrun, hinv, hr⟩ :=
    registered_run (e := MatchingEngine.new cap) (new_inv cap) hcap (by simp [Registered]) hs
  exact ⟨e, outs, hrun, addressable_of_registered hinv hcap hr⟩

/-- Two sellers rest, and both can be reached. -/
theorem addressable_two :
    ∃ e outs, (MatchingEngine.new maxOrders).run [(0, sellOne), (0, sellTwo)] = some (e, outs) ∧
      Addressable e := by
  have hfree : AllSlotsFree (MatchingEngine.new maxOrders) ([(0, sellOne), (0, sellTwo)] ++ []) :=
    allSlotsFree_of_few (new_inv maxOrders) (by decide) (new_given maxOrders) (by decide)
  exact addressable (by decide) hfree

/-- **An order is hidden**: the orders 1 and 2²⁰ + 1 rest and share a slot. -/
theorem order_hidden :
    ∃ e outs, (MatchingEngine.new maxOrders).run (twoSellers (2 ^ 20 - 1)) = some (e, outs) ∧
      ¬ Addressable e := by
  have hcap : maxOrders < 2 ^ 32 := by decide
  obtain ⟨e, Q, o, o', hrun, hinv, -, -, hasks⟩ := run_twoSellers hcap (by decide) (2 ^ 20 - 1)
  rw [show 2 + UInt64.ofNat (2 ^ 20 - 1) = 1048577 from rfl] at hasks
  obtain ⟨q, hq, hbare, htail⟩ := OrderBook.entries_eq_cons.mp hasks
  obtain ⟨q', rfl, hbare', -⟩ := OrderBook.entries_eq_cons.mp htail
  refine ⟨e, _, hrun, fun h => ?_⟩
  have hid : (e.book.order o).id = 1 := congrArg Order.id hbare
  have hid' : (e.book.order o').id = 1048577 := congrArg Order.id hbare'
  have hfound : ∀ p ∈ Q .asks level100, e.book.orderTable (slot (e.book.order p).id) = some p :=
      fun p hp =>
    (lookup_eq_some.mp (h.lookup .asks level100 p (by rw [hinv.queue_eq]; exact hp))).1
  have h₁ := hfound o (by rw [hq]; simp)
  have h₂ := hfound o' (by rw [hq]; simp)
  -- one entry of the table would have to point to both
  rw [hid', show slot 1048577 = slot 1 from Fin.ext (by rw [slot_val, slot_val]; rfl),
    ← hid, h₁] at h₂
  rw [Option.some.inj h₂, hid'] at hid
  exact absurd hid (by decide)

end TradeFeed
