import TradeFeed.Core.Runs
import TradeFeed.Engine.MatchingEngine

/-!
# The steps of the matching engine

`Processed` lists what one call of `process` can do, with all it depends on: one case for
each way a message is answered. `process_spec` says that the engine does one of them, and
everything about runs of the engine is proved by its cases.
-/

namespace TradeFeed

open Lib
open OrderBook (badPrice incoming)

variable {cap : ℕ}

/-- The reports of some fills. -/
def reports (tsc : Timestamp) (fs : List Fill) (n : UInt64) : List OutboundMessage :=
  (emitFills tsc fs n).1

@[simp] theorem reports_nil (tsc : Timestamp) (n : UInt64) : reports tsc [] n = [] := rfl

@[simp] theorem reports_cons (tsc : Timestamp) (f : Fill) (fs : List Fill) (n : UInt64) :
    reports tsc (f :: fs) n = executedBid f n tsc :: executedAsk f n tsc ::
      reports tsc fs (n + 1) := rfl

/-- `match_number_` grows by the number of fills. -/
theorem emitFills_eq (tsc : Timestamp) (fs : List Fill) (n : UInt64) :
    emitFills tsc fs n = (reports tsc fs n, n + UInt64.ofNat fs.length) := by
  refine Prod.ext rfl ?_
  induction fs generalizing n with
  | nil => simp [emitFills]
  | cons f fs ih =>
    show (emitFills tsc fs (n + 1)).2 = _
    rw [ih, List.length_cons, UInt64.ofNat_add, UInt64.add_assoc, UInt64.add_comm 1]
    rfl

/-- An incoming order has all of its quantity left. -/
theorem incoming_remaining (id : OrderId) (client : ClientId) (side : Side) (type : OrderType)
    (price : Price) (qty : Quantity) (ts : Timestamp) :
    (incoming id client side type price qty ts : Order cap).remaining = qty :=
  UInt32.sub_zero qty

/-- The order that a message of type NewOrder brings, under the engine's next id. -/
def newOrderOf (e : MatchingEngine cap) (msg : InboundMessage) : Order cap :=
  incoming e.nextId msg.clientId msg.side msg.orderType msg.price msg.quantity msg.recvTsc

/-- The order that replaces a modified one. -/
def modifiedOf (old : Order cap) (msg : InboundMessage) : Order cap :=
  incoming msg.orderId old.clientId old.side .limit msg.price msg.quantity msg.recvTsc

/-- The book refuses a message of type NewOrder. -/
def Refused (e : MatchingEngine cap) (msg : InboundMessage) : Prop :=
  e.book.pool.available = 0 ∨ badPrice msg.orderType msg.price = true

instance (e : MatchingEngine cap) (msg : InboundMessage) : Decidable (Refused e msg) :=
  inferInstanceAs (Decidable (_ ∨ _))

/-- What a call of `process` can do, from an engine whose book has the queues `Q`: the
engine and the queues after it, and the messages pushed. -/
inductive Processed (e : MatchingEngine cap) (Q : Queues cap) (tsc : Timestamp)
    (msg : InboundMessage) :
    MatchingEngine cap → Queues cap → List OutboundMessage → Prop
  /-- A message of another type is ignored. -/
  | unknown (hn : msg.type ≠ .newOrder) (hc : msg.type ≠ .cancelOrder)
    (hm : msg.type ≠ .modifyOrder) :
    Processed e Q tsc msg e Q []
  /-- The pool is empty, or a limit price is out of range. -/
  | refused (hn : msg.type = .newOrder) (hr : Refused e msg) :
    Processed e Q tsc msg { e with book := e.book.clearFills, nextId := e.nextId + 1 } Q
      [emitReject msg.clientId e.nextId 1 tsc]
  /-- A new order is matched. -/
  | added (hn : msg.type = .newOrder) (hr : ¬ Refused e msg) {b : OrderBook cap} {Q' : Queues cap}
    {o : Fin cap} (ha : Accepted e.book.clearFills b Q Q' o (newOrderOf e msg)) :
    Processed e Q tsc msg ⟨b, e.nextId + 1, e.matchNumber + UInt64.ofNat b.fills.length⟩ Q'
      (emitAccept msg.clientId e.nextId tsc :: reports tsc b.fills e.matchNumber)
  /-- The order to cancel is not found. -/
  | notCanceled (hc : msg.type = .cancelOrder) (hl : e.book.lookup msg.orderId = none) :
    Processed e Q tsc msg e Q [emitReject msg.clientId msg.orderId 2 tsc]
  /-- An order is cancelled. -/
  | canceled (hc : msg.type = .cancelOrder) {o : Fin cap} (hl : e.book.lookup msg.orderId = some o)
    {b : OrderBook cap} (ha : Left e.book b Q o) :
    Processed e Q tsc msg { e with book := b } (Q.without o)
      [emitCancel msg.clientId msg.orderId tsc]
  /-- The order to modify is not found. -/
  | notModified (hm : msg.type = .modifyOrder) (hl : e.book.lookup msg.orderId = none) :
    Processed e Q tsc msg { e with book := e.book.clearFills } Q
      [emitReject msg.clientId msg.orderId 3 tsc]
  /-- The new price of a modified order is out of range: it is cancelled, and rejected. -/
  | lost (hm : msg.type = .modifyOrder) {o : Fin cap} (hl : e.book.lookup msg.orderId = some o)
    (hb : badPrice .limit msg.price = true) {b : OrderBook cap}
    (ha : Left e.book.clearFills b Q o) :
    Processed e Q tsc msg { e with book := b } (Q.without o)
      [emitReject msg.clientId msg.orderId 3 tsc]
  /-- A modified order is cancelled, and matched anew. -/
  | modified (hm : msg.type = .modifyOrder) {o : Fin cap} (hl : e.book.lookup msg.orderId = some o)
    (hb : badPrice .limit msg.price = false) {b₁ b : OrderBook cap} {Q' : Queues cap} {o' : Fin cap}
    (ha : Left e.book.clearFills b₁ Q o)
    (ha' : Accepted b₁ b (Q.without o) Q' o' (modifiedOf (e.book.order o) msg)) :
    Processed e Q tsc msg ⟨b, e.nextId, e.matchNumber + UInt64.ofNat b.fills.length⟩ Q'
      (emitAccept msg.clientId msg.orderId tsc :: reports tsc b.fills e.matchNumber)

/-- The book takes every order that it does not refuse. -/
theorem OrderBook.addOrder_takes {b b' : OrderBook cap} {id : OrderId} {client : ClientId}
    {side : Side} {type : OrderType} {price : Price} {qty : Quantity} {ts : Timestamp} {ok : Bool}
    (hav : b.pool.available ≠ 0) (hbad : badPrice type price = false)
    (h : b.addOrder id client side type price qty ts = some (b', ok)) :
    ok = true := by
  obtain ⟨o, rest, hf⟩ := List.exists_cons_of_ne_nil fun e => hav (List.length_eq_zero_iff.mpr e)
  rw [OrderBook.addOrder_eq hf id client side qty ts hbad] at h
  obtain ⟨b₁, -, hsettle⟩ := Option.bind_eq_some_iff.mp h
  rw [OrderBook.settle] at hsettle
  split_ifs at hsettle
  · obtain ⟨b₂, -, hb⟩ := Option.map_eq_some_iff.mp hsettle
    exact (congrArg Prod.snd hb).symm
  · exact (congrArg Prod.snd (Option.some.inj hsettle)).symm

theorem type_reports {tsc : Timestamp} {fs : List Fill} {n : UInt64} :
    ∀ m ∈ reports tsc fs n, m.type = .orderExecuted := by
  induction fs generalizing n with
  | nil => exact fun m hm => absurd hm List.not_mem_nil
  | cons f fs ih =>
    rw [reports_cons]
    exact List.forall_mem_cons.mpr ⟨rfl, List.forall_mem_cons.mpr ⟨rfl, ih⟩⟩

/-- **A new order is rejected** only if the book refuses it, whatever state the engine is in. -/
theorem refused_of_rejected {e e' : MatchingEngine cap} {tsc : Timestamp} {msg : InboundMessage}
    {out : List OutboundMessage} (hn : msg.type = .newOrder)
    (h : e.process tsc msg = some (e', out)) (hrej : ∃ m ∈ out, m.type = .orderRejected) :
    Refused e msg := by
  by_contra hr
  obtain ⟨hav, hbad⟩ := not_or.mp hr
  rw [MatchingEngine.process, if_pos hn] at h
  obtain ⟨⟨b, ok⟩, hadd, h⟩ := Option.bind_eq_some_iff.mp h
  obtain rfl := OrderBook.addOrder_takes (b := e.book.clearFills) hav
    (Bool.not_eq_true _ ▸ hbad) hadd
  simp only [if_true, emitFills_eq, Option.pure_def, Option.some.injEq, Prod.mk.injEq] at h
  obtain ⟨-, rfl⟩ := h
  obtain ⟨m, hm, htype⟩ := hrej
  have hne : MessageType.orderAccepted ≠ .orderRejected ∧ MessageType.orderExecuted ≠
    .orderRejected := by decide
  rcases List.mem_cons.mp hm with rfl | hm
  · exact hne.1 htype
  · exact hne.2 ((type_reports m hm).symm.trans htype)

section Process

variable {e : MatchingEngine cap} {Q : Queues cap} {msg : InboundMessage}

/-- A refused message of type NewOrder uses up an id and clears the fills. -/
theorem process_refused (hn : msg.type = .newOrder) (hr : Refused e msg) (tsc : Timestamp) :
    e.process tsc msg = some ({ e with book := e.book.clearFills, nextId := e.nextId + 1 },
      [emitReject msg.clientId e.nextId 1 tsc]) := by
  have hadd := OrderBook.addOrder_refused e.book.clearFills e.nextId msg.clientId msg.side
    msg.orderType msg.price msg.quantity
    msg.recvTsc hr
  simp [MatchingEngine.process, hn, hadd]

/-- A message of type NewOrder that is not refused is matched. -/
theorem process_added (msg : InboundMessage) (h : Inv e.book Q) (hcap : cap < 2 ^ 32)
    (hn : msg.type = .newOrder) (hr : ¬ Refused e msg) (tsc : Timestamp) :
    ∃ b Q' o, e.process tsc msg =
      some (⟨b, e.nextId + 1, e.matchNumber + UInt64.ofNat b.fills.length⟩,
      emitAccept msg.clientId e.nextId tsc :: reports tsc b.fills e.matchNumber) ∧
      Accepted e.book.clearFills b Q Q' o (newOrderOf e msg) := by
  have hinv : Inv e.book.clearFills Q := clearFills_inv h
  have hr' := not_or.mp hr
  have hroom : Room Q :=
    room_of_cap hinv.core (fun he => hr'.1 (List.length_eq_zero_iff.mpr he)) hcap
  obtain ⟨b, Q', o, hrun, hacc⟩ :=
    addOrder_accepted hinv hroom e.nextId msg.clientId msg.side msg.orderType
    msg.price msg.quantity msg.recvTsc hr'.1 (Bool.not_eq_true _ ▸ hr'.2)
  exact ⟨b, Q', o, by simp [MatchingEngine.process, hn, hrun, emitFills_eq], hacc⟩

/-- **The engine does one of the things listed**: `process` returns. -/
theorem process_spec (h : Inv e.book Q) (hcap : cap < 2 ^ 32) (tsc : Timestamp)
    (msg : InboundMessage) :
    ∃ e' Q' out, e.process tsc msg = some (e', out) ∧ Processed e Q tsc msg e' Q' out := by
  have hinv : Inv e.book.clearFills Q := clearFills_inv h
  have hne : MessageType.cancelOrder ≠ .newOrder := by decide
  have hne' : MessageType.modifyOrder ≠ .newOrder ∧
      MessageType.modifyOrder ≠ .cancelOrder := by decide
  by_cases hn : msg.type = .newOrder
  · by_cases hr : Refused e msg
    · exact ⟨_, _, _, process_refused hn hr tsc, .refused hn hr⟩
    · obtain ⟨b, Q', o, hrun, hacc⟩ := process_added msg h hcap hn hr tsc
      exact ⟨_, _, _, hrun, .added hn hr hacc⟩
  by_cases hc : msg.type = .cancelOrder
  · cases hl : e.book.lookup msg.orderId with
    | none =>
      exact ⟨_, _, _, by simp [MatchingEngine.process, hc, hne, cancelOrder_unknown _ hl],
        .notCanceled hc hl⟩
    | some o =>
      obtain ⟨b, hrun, hleft⟩ := cancelOrder_found h hl
      exact ⟨_, _, _, by simp [MatchingEngine.process, hc, hne, hrun], .canceled hc hl hleft⟩
  by_cases hm : msg.type = .modifyOrder
  · cases hl : e.book.lookup msg.orderId with
    | none =>
      have hrun := modifyOrder_unknown e.book.clearFills msg.price msg.quantity msg.recvTsc hl
      exact ⟨_, _, _, by simp [MatchingEngine.process, hm, hne', hrun], .notModified hm hl⟩
    | some o =>
      obtain ⟨b₁, hleft, hav, hadd⟩ := modifyOrder_found hinv hl msg.price msg.quantity msg.recvTsc
      cases hb : badPrice .limit msg.price with
      | true =>
        have hrun := hadd.trans (OrderBook.addOrder_refused b₁ _ _ _ _ _ _ _ (Or.inr hb))
        exact ⟨_, _, _, by simp [MatchingEngine.process, hm, hne', hrun], .lost hm hl hb hleft⟩
      | false =>
        have hroom : Room (Q.without o) :=
          room_of_cap hleft.inv.core (fun he => hav (List.length_eq_zero_iff.mpr he)) hcap
        obtain ⟨b, Q', o', hrun, hacc⟩ :=
          addOrder_accepted hleft.inv hroom msg.orderId (e.book.order o).clientId
          (e.book.order o).side .limit msg.price msg.quantity msg.recvTsc hav hb
        have hrun := hadd.trans hrun
        exact ⟨_, _, _, by simp [MatchingEngine.process, hm, hne', hrun, emitFills_eq],
          .modified hm hl hb hleft hacc⟩
  · exact ⟨_, _, _, by simp [MatchingEngine.process, hn, hc, hm], .unknown hn hc hm⟩

/-- Every step keeps the book in order. -/
theorem Processed.inv {e' : MatchingEngine cap} {Q' : Queues cap} {tsc : Timestamp}
    {out : List OutboundMessage} (h : Inv e.book Q) (hp : Processed e Q tsc msg e' Q' out) :
    Inv e'.book Q' := by
  cases hp with
  | unknown => exact h
  | refused => exact clearFills_inv h
  | added _ _ ha => exact ha.inv
  | notCanceled => exact h
  | canceled _ _ ha => exact ha.inv
  | notModified => exact clearFills_inv h
  | lost _ _ _ ha => exact ha.inv
  | modified _ _ _ _ ha => exact ha.inv

end Process

/-! ### Longer runs -/

/-- A run is a step and a run. -/
theorem run_cons {e e₂ : MatchingEngine cap} {tsc : Timestamp} {msg : InboundMessage}
    {msgs : List (Timestamp × InboundMessage)} {outs : List (List OutboundMessage)} :
    e.run ((tsc, msg) :: msgs) = some (e₂, outs) ↔
      ∃ e₁ out outs', e.process tsc msg = some (e₁, out) ∧ e₁.run msgs = some (e₂, outs') ∧
        outs = out :: outs' := by
  simp only [MatchingEngine.run, Option.bind_eq_bind, Option.bind_eq_some_iff, Option.pure_def,
    Option.some.injEq, Prod.mk.injEq, Prod.exists]
  constructor
  · rintro ⟨e₁, out, h₁, e₂', outs', h₂, rfl, rfl⟩
    exact ⟨e₁, out, outs', h₁, h₂, rfl⟩
  · rintro ⟨e₁, out, outs', h₁, h₂, rfl⟩
    exact ⟨e₁, out, h₁, e₂, outs', h₂, rfl, rfl⟩

/-- One run after another. -/
theorem run_trans {e e₁ e₂ : MatchingEngine cap} {msgs msgs' : List (Timestamp × InboundMessage)}
    {outs outs' : List (List OutboundMessage)} (h : e.run msgs = some (e₁, outs))
    (h' : e₁.run msgs' = some (e₂, outs')) : e.run (msgs ++ msgs') = some (e₂, outs ++ outs') := by
  induction msgs generalizing e outs with
  | nil =>
    obtain ⟨rfl, rfl⟩ : e = e₁ ∧ [] = outs := by simpa [MatchingEngine.run] using h
    exact h'
  | cons m msgs ih =>
    obtain ⟨e₀, out, outs₀, hp, hr, rfl⟩ := run_cons.mp h
    exact run_cons.mpr ⟨e₀, out, outs₀ ++ outs', hp, ih hr, rfl⟩

/-- A run on the first messages is the first part of a run. -/
theorem run_take {e e₂ : MatchingEngine cap} {msgs : List (Timestamp × InboundMessage)}
    {outs : List (List OutboundMessage)} (h : e.run msgs = some (e₂, outs)) (n : ℕ) :
    ∃ e₁, e.run (msgs.take n) = some (e₁, outs.take n) := by
  induction n generalizing e msgs outs with
  | zero => exact ⟨e, rfl⟩
  | succ n ih =>
    cases msgs with
    | nil =>
      obtain ⟨rfl, rfl⟩ : e = e₂ ∧ [] = outs := by simpa [MatchingEngine.run] using h
      exact ⟨e, rfl⟩
    | cons m msgs =>
      obtain ⟨e₀, out, outs₀, hp, hr, rfl⟩ := run_cons.mp h
      obtain ⟨e₁, hrun⟩ := ih hr
      exact ⟨e₁, run_cons.mpr ⟨e₀, out, outs₀.take n, hp, hrun, rfl⟩⟩

/-- **Every run** keeps the book in order. -/
theorem inv_run {e : MatchingEngine cap} {Q : Queues cap} (h : Inv e.book Q) (hcap : cap < 2 ^ 32)
    (msgs : List (Timestamp × InboundMessage)) :
    ∃ e' Q' outs, e.run msgs = some (e', outs) ∧ Inv e'.book Q' := by
  induction msgs generalizing e Q with
  | nil => exact ⟨e, Q, [], rfl, h⟩
  | cons m msgs ih =>
    obtain ⟨tsc, msg⟩ := m
    obtain ⟨e₁, Q₁, out, hrun₁, hp⟩ := process_spec h hcap tsc msg
    obtain ⟨e', Q', outs, hrun, h'⟩ := ih (hp.inv h)
    exact ⟨e', Q', out :: outs, run_cons.mpr ⟨e₁, out, outs, hrun₁, hrun, rfl⟩, h'⟩

theorem run_single {e e' : MatchingEngine cap} {tsc : Timestamp} {msg : InboundMessage}
    {out : List OutboundMessage} (h : e.process tsc msg = some (e', out)) :
    e.run [(tsc, msg)] = some (e', [out]) := by
  simp [MatchingEngine.run, h]

/-- A new order that the book refuses, whatever the book: its price is out of range. -/
def refusedOrder : InboundMessage := ⟨.newOrder, .buy, .limit, 9, 0, 0, 1, 0⟩

/-- Refused orders use ids up, and nothing else. -/
theorem run_refused (e : MatchingEngine cap) (n : ℕ) (hfills : e.book.fills = []) :
    e.run (List.replicate n (0, refusedOrder)) =
      some ({ e with nextId := e.nextId + UInt64.ofNat n },
        (List.range n).map fun k => [emitReject 9 (e.nextId + UInt64.ofNat k) 1 0]) := by
  have hclear : e.book.clearFills = e.book := by
    rw [OrderBook.clearFills, ← hfills]
  induction n with
  | zero =>
    have h0 : e.nextId + UInt64.ofNat 0 = e.nextId := UInt64.add_zero _
    rw [h0]
    rfl
  | succ n ih =>
    have hstep : ({ e with nextId := e.nextId + UInt64.ofNat n } : MatchingEngine cap).process 0
      refusedOrder =
        some ({ e with nextId := e.nextId + UInt64.ofNat (n + 1) },
          [emitReject 9 (e.nextId + UInt64.ofNat n) 1 0]) := by
      rw [process_refused rfl (Or.inr (by decide)), UInt64.ofNat_add, ← UInt64.add_assoc]
      simp only [hclear]
      rfl
    rw [List.replicate_succ', run_trans ih (run_single hstep), List.range_succ, List.map_append]
    rfl

/-- The pool has room while fewer orders rest than it holds. -/
theorem available_ne_zero {b : OrderBook cap} {Q : Queues cap} (h : Core b Q [])
    (hlen : (Q.resting .bids).length + (Q.resting .asks).length < cap) : b.pool.available ≠ 0 := by
  have := (arena_eq h).length_eq
  rw [List.length_append, List.length_append, List.length_finRange] at this
  rw [OrderPool.available]
  omega

/-- With nothing to trade with, nothing is traded. -/
theorem trading_empty {b : OrderBook cap} {Q : Queues cap} {new : Order cap}
    (h : Q.resting new.side.book.opposite = []) :
    trading b Q new = ⟨[], new.quantity.toNat, []⟩ := by
  rw [trading, h]
  rfl

/-- An order that wants exactly what the first order of the other side has. -/
theorem trading_first {b : OrderBook cap} {Q : Queues cap} {new : Order cap} {t : Entry cap}
    {l : List (Entry cap)} (hl : b.entries (Q.resting new.side.book.opposite) = t :: l)
    (hq : new.quantity.toNat = Tradable.remaining t) (hpos : 0 < Tradable.remaining t)
    (hok : accepts new.side new.type new.price (UInt32.ofNat (Tradable.price t)) = true) :
    trading b Q new = ⟨[(t, Tradable.remaining t)], 0, l⟩ := by
  rw [trading, hl, hq, PriceTime.sweep_full hpos.ne' hok le_rfl, Nat.sub_self, PriceTime.sweep_zero]

theorem not_refused {e : MatchingEngine cap} {msg : InboundMessage} {i : Fin priceLevels}
    (hav : e.book.pool.available ≠ 0) (hp : msg.price = priceAt i) : ¬ Refused e msg := by
  rintro (h0 | hbad)
  · exact hav h0
  · have h₁ := UInt32.not_lt.mpr (minPrice_le_priceAt i)
    have h₂ := UInt32.not_lt.mpr (priceAt_le_maxPrice i)
    simp [badPrice, hp, h₁, h₂] at hbad

/-- A limit order with nothing to trade with rests. -/
theorem process_rests {e : MatchingEngine cap} {Q : Queues cap} {i : Fin priceLevels}
    (msg : InboundMessage) (h : Inv e.book Q) (hcap : cap < 2 ^ 32) (hn : msg.type = .newOrder)
    (hav : e.book.pool.available ≠ 0) (hlim : msg.orderType = .limit) (hp : msg.price = priceAt i)
    (hq : msg.quantity ≠ 0) (hempty : Q.resting msg.side.book.opposite = []) (tsc : Timestamp) :
    ∃ e' Q' o, e.process tsc msg = some (e', [emitAccept msg.clientId e.nextId tsc]) ∧
      Inv e'.book Q' ∧
      e'.nextId = e.nextId + 1 ∧ e'.matchNumber = e.matchNumber ∧ e'.book.fills = [] ∧
      e'.book.entries (Q'.resting msg.side.book.opposite) = [] ∧
      ∀ j, e'.book.entries (Q' msg.side.book j) = e.book.entries (Q msg.side.book j) ++
        if j = i then [(o, newOrderOf e msg)] else [] := by
  obtain ⟨b, Q', o, hrun, ha⟩ := process_added msg h hcap hn (not_refused hav hp) tsc
  have htr : trading e.book.clearFills Q (newOrderOf e msg) = ⟨[], msg.quantity.toNat, []⟩ :=
    trading_empty hempty
  have hfills : b.fills = [] := by
    rw [ha.fills, htr]
    rfl
  have hrests : Rests e.book.clearFills Q (newOrderOf e msg) := by
    refine ⟨?_, hlim⟩
    rw [htr]
    exact fun h0 => hq (UInt32.toNat_inj.mp h0)
  have hrem : remainder e.book.clearFills Q (newOrderOf e msg) = newOrderOf e msg := by
    rw [remainder, htr]
    simp [newOrderOf, incoming]
  rw [hfills] at hrun
  refine ⟨_, Q', o, hrun, ha.inv, rfl, UInt64.add_zero _, hfills, ?_, fun j => ?_⟩
  · have := ha.swept
    rw [htr] at this
    exact this
  · have hprice : (newOrderOf e msg).price = priceAt i := hp
    have hiff : (Rests e.book.clearFills Q (newOrderOf e msg) ∧
        (newOrderOf e msg).price = priceAt j) ↔ j = i := by
      rw [hprice]
      exact ⟨fun h => (priceAt_injective h.2).symm, fun h => ⟨hrests, by rw [h]⟩⟩
    have hj := ha.joined j
    rw [hrem] at hj
    simp only [hiff] at hj
    exact hj

/-- A share offered at 100. -/
def sellOne : InboundMessage := ⟨.newOrder, .sell, .limit, 1, 0, 100, 1, 0⟩

/-- Two shares offered at 100. -/
def sellTwo : InboundMessage := ⟨.newOrder, .sell, .limit, 1, 0, 100, 2, 0⟩

/-- The level of the price 100. -/
def level100 : Fin priceLevels := ⟨99, by decide⟩

theorem priceAt_level100 : priceAt level100 = 100 := rfl

theorem buy_book : Side.buy.book = .bids := by decide

theorem sell_book : Side.sell.book = .asks := by decide

/-- Who wants one share, and accepts 100 for it, takes it from the first seller, if that one offers
it there. -/
theorem trading_share {b : OrderBook cap} {Q : Queues cap} {new : Order cap} {t : Entry cap}
    {l : List (Entry cap)} (hs : new.side = .buy)
    (hacc : accepts .buy new.type new.price 100 = true) (hq : new.quantity = 1)
    (hl : b.entries (Q.resting .asks) = t :: l) (hpt : t.2.price = 100) (hrt : t.2.remaining = 1) :
    trading b Q new = ⟨[(t, 1)], 0, l⟩ := by
  have hrem : Tradable.remaining t = 1 := congrArg UInt32.toNat hrt
  have hprice : Tradable.price t = (100 : Price).toNat := congrArg UInt32.toNat hpt
  have hbook : new.side.book.opposite = .asks := by rw [hs, buy_book]; rfl
  rw [← hrem]
  refine trading_first (by rw [hbook]; exact hl) ?_ (by rw [hrem]; exact Nat.one_pos) ?_
  · rw [hrem, hq]
    decide
  · rw [hs, hprice]
    exact hacc

/-- Offered to an empty book, a share rests, and nothing else. -/
theorem process_sellOne {e : MatchingEngine cap} (h : Inv e.book fun _ _ => [])
    (hcap : cap < 2 ^ 32) (hone : 0 < cap) :
    ∃ e' Q o, e.process 0 sellOne = some (e', [emitAccept 1 e.nextId 0]) ∧ Inv e'.book Q ∧
      e'.nextId = e.nextId + 1 ∧ e'.book.fills = [] ∧ Q.resting .bids = [] ∧
        (∀ j, j ≠ level100 → Q .asks j = []) ∧
      e'.book.entries (Q .asks level100) = [(o, newOrderOf e sellOne)] := by
  have hnil : ∀ s, Queues.resting (fun _ _ => [] : Queues cap) s = [] :=
    fun s => by simp [Queues.resting]
  have hroom : e.book.pool.available ≠ 0 :=
    available_ne_zero h.core (by rw [hnil, hnil]; exact hone)
  obtain ⟨e', Q, o, hrun, h', hid, -, hfills, hbids, hasks⟩ :=
    process_rests sellOne h hcap rfl hroom rfl priceAt_level100.symm (by decide) (hnil _) 0
  rw [show sellOne.side.book = .asks from sell_book] at hbids hasks
  have hasks : ∀ j, e'.book.entries (Q .asks j) =
      if j = level100 then [(o, newOrderOf e sellOne)] else [] := hasks
  exact ⟨e', Q, o, hrun, h', hid, hfills, OrderBook.entries_eq_nil.mp hbids,
    fun j hj => OrderBook.entries_eq_nil.mp ((hasks j).trans (if_neg hj)),
    (hasks level100).trans (if_pos rfl)⟩

/-- Then what rests, rests there. -/
theorem mem_level100 {Q : Queues cap} (hbids : Q.resting .bids = [])
    (hsingle : ∀ j, j ≠ level100 → Q .asks j = []) {s : BookSide} {i : Fin priceLevels}
    {p : Fin cap} (hp : p ∈ Q s i) :
    p ∈ Q .asks level100 := by
  have hmem := Queues.mem_resting.mpr ⟨i, hp⟩
  cases s with
  | bids =>
    rw [hbids] at hmem
    exact absurd hmem List.not_mem_nil
  | asks => rwa [Queues.resting_of_single hsingle] at hmem

/-- The pool has room for a second order. -/
theorem available_of_sellOne {b : OrderBook cap} {Q : Queues cap} {t : Entry cap} (h : Core b Q [])
    (htwo : 2 ≤ cap) (hbids : Q.resting .bids = []) (hsingle : ∀ j, j ≠ level100 → Q .asks j = [])
    (hasks : b.entries (Q .asks level100) = [t]) :
    b.pool.available ≠ 0 := by
  apply available_ne_zero h
  have := congrArg List.length hasks
  rw [OrderBook.entries_length] at this
  rw [hbids, Queues.resting_of_single hsingle, this]
  exact htwo

/-- Two sellers, with so many refused orders between them. -/
def twoSellers (n : ℕ) : List (Timestamp × InboundMessage) :=
  (0, sellOne) :: (List.replicate n (0, refusedOrder) ++ [(0, sellTwo)])

/-- Their orders rest, one behind the other, the second under an id as far on as there were
orders refused. -/
theorem run_twoSellers (hcap : cap < 2 ^ 32) (htwo : 2 ≤ cap) (n : ℕ) :
    ∃ e Q o o', (MatchingEngine.new cap).run (twoSellers n) =
        some (e, [emitAccept 1 1 0] ::
          ((List.range n).map (fun k => [emitReject 9 (2 + UInt64.ofNat k) 1 0]) ++
          [[emitAccept 1 (2 + UInt64.ofNat n) 0]])) ∧
      Inv e.book Q ∧ Q.resting .bids = [] ∧ (∀ j, j ≠ level100 → Q .asks j = []) ∧
      e.book.entries (Q .asks level100) = [(o, incoming 1 1 .sell .limit 100 1 0),
        (o', incoming (2 + UInt64.ofNat n) 1 .sell .limit 100 2 0)] := by
  obtain ⟨e₁, Q₁, o, hfirst, h₁, hid₁, hfills₁, hbids₁, hsingle, hasks₁⟩ :=
    process_sellOne (e := MatchingEngine.new cap) (new_inv cap) hcap (by omega)
  have hid₁ : e₁.nextId = 2 := hid₁
  -- the refused orders
  have hmid := run_refused e₁ n hfills₁
  rw [hid₁] at hmid
  set e₂ : MatchingEngine cap := { e₁ with nextId := 2 + UInt64.ofNat n }
  obtain ⟨e₃, Q₃, o', hlast, h₃, -, -, -, hbids₃, hasks₃⟩ :=
    process_rests (e := e₂) sellTwo h₁ hcap rfl
      (available_of_sellOne h₁.core htwo hbids₁ hsingle hasks₁) rfl
      priceAt_level100.symm (by decide)
        (by rw [show sellTwo.side.book = .asks from sell_book]; exact hbids₁) 0
  rw [show sellTwo.side.book = .asks from sell_book] at hbids₃ hasks₃
  have hasks₃ : ∀ j, e₃.book.entries (Q₃ .asks j) = e₁.book.entries (Q₁ .asks j) ++
      if j = level100 then [(o', incoming (2 + UInt64.ofNat n) 1 .sell .limit 100 2 0)]
        else [] := hasks₃
  refine ⟨e₃, Q₃, o, o', run_cons.mpr ⟨e₁, _, _, hfirst, run_trans hmid (run_single hlast), rfl⟩,
    h₃, OrderBook.entries_eq_nil.mp hbids₃, fun j hj => ?_, ?_⟩
  · have := hasks₃ j
    rw [hsingle j hj, if_neg hj] at this
    exact OrderBook.entries_eq_nil.mp this
  · rw [hasks₃, hasks₁, if_pos rfl]
    rfl

end TradeFeed
