import TradeFeed.Core.NaiveBook
import TradeFeed.Engine.Lookup

/-!
# The engine refines a naive one

The reference (`NaiveEngine`) keeps a naive book and counts the ids that it has given. It takes a
message up, asks its book, and answers: an order that is taken with its acceptance and two reports
for each trade, which are numbered on through all trades; a cancel that finds its order with its
confirmation; anything else with a rejection.

`engine_refines` says that the engine of the source gives the same answers to any messages, one by
one, and that its book shows what the reference holds, as long as no order that comes in shares the
slot of its id with one that rests: so for the first 2²⁰ messages of type NewOrder in any case
(`allSlotsFree_of_few`).
-/

namespace TradeFeed

open Lib
open OrderBook (badPrice)

variable {cap : ℕ}

/-! ### The reference -/

/-- The reference engine. -/
structure NaiveEngine where
  /-- Its book. -/
  book : NaiveBook
  /-- How many ids it has given. -/
  given : ℕ

namespace NaiveEngine

/-- An engine at the start. -/
def new : NaiveEngine := ⟨.new, 0⟩

/-- The id that the next order gets. -/
def nextId (n : NaiveEngine) : OrderId := UInt64.ofNat (n.given + 1)

/-- The book, with no trades to report. -/
def cleared (n : NaiveEngine) : NaiveBook := { n.book with fills := [] }

/-- The answer to an order that was submitted, when so many trades were made before. -/
def answer (before : ℕ) (r : NaiveBook × Bool) (client : ClientId) (id : OrderId) (reason : UInt8)
    (tsc : Timestamp) : List OutboundMessage :=
  if r.2 then emitAccept client id tsc :: reports tsc r.1.fills (UInt64.ofNat (before + 1))
  else [emitReject client id reason tsc]

/-- Take a message up, when the counter reads `tsc`: the engine after it, and the answers. -/
def process (cap : ℕ) (n : NaiveEngine) (tsc : Timestamp) (msg : InboundMessage) :
    NaiveEngine × List OutboundMessage :=
  if msg.type = .newOrder then
    let r := n.cleared.add cap msg.side.book n.nextId msg.clientId msg.orderType msg.price
      msg.quantity
    (⟨r.1, n.given + 1⟩, answer n.book.matched r msg.clientId n.nextId 1 tsc)
  else if msg.type = .cancelOrder then
    let r := n.book.cancel msg.orderId
    (⟨r.1, n.given⟩, if r.2 then [emitCancel msg.clientId msg.orderId tsc]
      else [emitReject msg.clientId msg.orderId 2 tsc])
  else if msg.type = .modifyOrder then
    let r := n.cleared.modify cap msg.orderId msg.price msg.quantity
    (⟨r.1, n.given⟩, answer n.book.matched r msg.clientId msg.orderId 3 tsc)
  else (n, [])

/-- Take messages up in order: the answers to each. -/
def run (cap : ℕ) (n : NaiveEngine) :
    List (Timestamp × InboundMessage) → NaiveEngine × List (List OutboundMessage)
  | [] => (n, [])
  | (tsc, msg) :: msgs =>
    let (n, out) := n.process cap tsc msg
    let (n, outs) := n.run cap msgs
    (n, out :: outs)

end NaiveEngine

/-! ### Trades are counted -/

/-- What came of an order in the reference book: every trade is recorded and counted, and one that
is refused makes none. -/
structure Tallied (n : NaiveBook) (r : NaiveBook × Bool) : Prop where
  /-- The trades are recorded and counted. -/
  counted : r.1.matched + n.fills.length = n.matched + r.1.fills.length
  /-- A refused order makes none. -/
  refused : r.2 = false → r.1.fills = n.fills

namespace NaiveBook

variable {n : NaiveBook}

theorem tallied_add (cap : ℕ) (n : NaiveBook) (s : BookSide) (id : OrderId) (client : ClientId)
    (type : OrderType) (price : Price) (qty : Quantity) :
    Tallied n (n.add cap s id client type price qty) := by
  unfold add
  split_ifs
  · exact ⟨rfl, fun _ => rfl⟩
  · refine ⟨?_, fun h => absurd h.symm Bool.false_ne_true⟩
    simp only [submit, List.length_append, List.length_map]
    omega

theorem tallied_modify (cap : ℕ) (n : NaiveBook) (id : OrderId) (price : Price) (qty : Quantity) :
    Tallied n (n.modify cap id price qty) := by
  unfold modify
  cases n.find id with
  | none => exact ⟨rfl, fun _ => rfl⟩
  | some found =>
    obtain ⟨s, r⟩ := found
    obtain ⟨hcounted, hrefused⟩ := tallied_add cap (n.delete id) s id r.client .limit price qty
    exact ⟨hcounted, hrefused⟩

end NaiveBook

/-! ### The relation -/

/-- The engine and the reference agree. -/
structure EngineRefines (e : MatchingEngine cap) (Q : Queues cap) (n : NaiveEngine) : Prop where
  /-- Their books do. -/
  book : Refines e.book Q n.book
  /-- They give the same id next. -/
  nextId : e.nextId = n.nextId
  /-- They give the next trade the same number. -/
  matchNumber : e.matchNumber = UInt64.ofNat (n.book.matched + 1)

section Steps

variable {e : MatchingEngine cap} {Q : Queues cap} {n : NaiveEngine} {msg : InboundMessage}

theorem new_engineRefines (cap : ℕ) :
    EngineRefines (MatchingEngine.new cap) (fun _ _ => []) NaiveEngine.new :=
  ⟨new_refines cap, rfl, rfl⟩

theorem EngineRefines.cleared (h : EngineRefines e Q n) : Refines e.book.clearFills Q n.cleared :=
  ⟨clearFills_inv h.book.inv, h.book.registered, h.book.orders, rfl, h.book.matchCount⟩

/-- The number of the next trade, after those of an order. -/
theorem EngineRefines.numbered (h : EngineRefines e Q n) {b : OrderBook cap} {Q' : Queues cap}
    {r : NaiveBook × Bool} (hb : Refines b Q' r.1) (ht : Tallied n.cleared r) :
    e.matchNumber + UInt64.ofNat b.fills.length = UInt64.ofNat (r.1.matched + 1) := by
  have hcounted : r.1.matched = n.book.matched + r.1.fills.length := ht.counted
  rw [h.matchNumber, ← UInt64.ofNat_add, hb.fills, hcounted]
  congr 1
  omega

/-- A refused order leaves that number. -/
theorem EngineRefines.unnumbered (h : EngineRefines e Q n) {r : NaiveBook × Bool}
    (ht : Tallied n.cleared r) (hr : r.2 = false) :
    e.matchNumber = UInt64.ofNat (r.1.matched + 1) := by
  have hcounted : r.1.matched = n.book.matched + r.1.fills.length := ht.counted
  rw [h.matchNumber, hcounted, ht.refused hr]
  rfl

/-- A message of type NewOrder. -/
theorem EngineRefines.newOrder (h : EngineRefines e Q n) (hslot : SlotFree e msg)
    (hn : msg.type = .newOrder) (tsc : Timestamp) :
    ∃ e' Q', e.process tsc msg = some (e', (n.process cap tsc msg).2) ∧
      EngineRefines e' Q' (n.process cap tsc msg).1 := by
  have hnext : e.nextId + 1 = UInt64.ofNat (n.given + 1 + 1) := by
    rw [h.nextId, NaiveEngine.nextId, ← UInt64.ofNat_one, ← UInt64.ofNat_add]
  have hadd : ∃ b Q',
      e.book.clearFills.addOrder e.nextId msg.clientId msg.side msg.orderType msg.price
        msg.quantity msg.recvTsc =
        some (b, (n.cleared.add cap msg.side.book n.nextId msg.clientId msg.orderType msg.price
          msg.quantity).2) ∧
      Refines b Q' (n.cleared.add cap msg.side.book n.nextId msg.clientId msg.orderType msg.price
        msg.quantity).1 := by
    by_cases hr : Refused e msg
    · have hfull : n.cleared.size = cap ∨ badPrice msg.orderType msg.price = true := by
        rwa [← available_eq_zero_iff h.cleared]
      rw [NaiveBook.add, if_pos hfull]
      exact ⟨_, Q, OrderBook.addOrder_refused _ _ _ _ _ _ _ _ hr, h.cleared⟩
    · rw [← h.nextId]
      refine addOrder_refines h.cleared _ _ _ _ _ _ _ fun s r hmem => ?_
      obtain ⟨i, p, hp, rfl⟩ := h.cleared.mem_orders.mp hmem
      refine hslot hn hr s i p ?_
      rwa [h.book.inv.queue_eq]
  obtain ⟨b, Q', hrun, hb⟩ := hadd
  have ht := NaiveBook.tallied_add cap n.cleared msg.side.book n.nextId msg.clientId msg.orderType
    msg.price msg.quantity
  simp only [MatchingEngine.process, NaiveEngine.process, if_pos hn, hrun, Option.bind_eq_bind,
    Option.bind_some, NaiveEngine.answer, emitFills_eq]
  generalize n.cleared.add cap msg.side.book n.nextId msg.clientId msg.orderType msg.price
    msg.quantity = r at hb ht ⊢
  cases hr : r.2 with
  | true =>
    refine ⟨⟨b, e.nextId + 1, e.matchNumber + UInt64.ofNat b.fills.length⟩, Q', ?_,
      ⟨hb, hnext, h.numbered hb ht⟩⟩
    rw [if_pos rfl, if_pos rfl, hb.fills, h.nextId, h.matchNumber]
    rfl
  | false =>
    refine ⟨⟨b, e.nextId + 1, e.matchNumber⟩, Q', ?_, ⟨hb, hnext, h.unnumbered ht hr⟩⟩
    rw [if_neg Bool.false_ne_true, if_neg Bool.false_ne_true, h.nextId]
    rfl

/-- A message of type CancelOrder. -/
theorem EngineRefines.cancelOrder (h : EngineRefines e Q n) (hc : msg.type = .cancelOrder)
    (tsc : Timestamp) :
    ∃ e' Q', e.process tsc msg = some (e', (n.process cap tsc msg).2) ∧
      EngineRefines e' Q' (n.process cap tsc msg).1 := by
  have hne : msg.type ≠ .newOrder := hc ▸ by decide
  obtain ⟨b, Q', hrun, hb⟩ := cancelOrder_refines h.book msg.orderId
  have hmatched : (n.book.cancel msg.orderId).1.matched = n.book.matched := by
    unfold NaiveBook.cancel
    cases n.book.find msg.orderId <;> rfl
  simp only [MatchingEngine.process, NaiveEngine.process, if_neg hne, if_pos hc, hrun,
    Option.bind_eq_bind, Option.bind_some]
  refine ⟨{ e with book := b }, Q', ?_, ⟨hb, h.nextId, by rw [hmatched]; exact h.matchNumber⟩⟩
  cases (n.book.cancel msg.orderId).2 <;> rfl

/-- A message of type ModifyOrder. -/
theorem EngineRefines.modifyOrder (h : EngineRefines e Q n) (hm : msg.type = .modifyOrder)
    (tsc : Timestamp) :
    ∃ e' Q', e.process tsc msg = some (e', (n.process cap tsc msg).2) ∧
      EngineRefines e' Q' (n.process cap tsc msg).1 := by
  have hnew : msg.type ≠ .newOrder := hm ▸ by decide
  have hcancel : msg.type ≠ .cancelOrder := hm ▸ by decide
  obtain ⟨b, Q', hrun, hb⟩ :=
    modifyOrder_refines h.cleared msg.orderId msg.price msg.quantity msg.recvTsc
  have ht := NaiveBook.tallied_modify cap n.cleared msg.orderId msg.price msg.quantity
  simp only [MatchingEngine.process, NaiveEngine.process, if_neg hnew, if_neg hcancel, if_pos hm,
    hrun, Option.bind_eq_bind, Option.bind_some, NaiveEngine.answer, emitFills_eq]
  generalize n.cleared.modify cap msg.orderId msg.price msg.quantity = r at hb ht ⊢
  cases hr : r.2 with
  | true =>
    refine ⟨⟨b, e.nextId, e.matchNumber + UInt64.ofNat b.fills.length⟩, Q', ?_,
      ⟨hb, h.nextId, h.numbered hb ht⟩⟩
    rw [if_pos rfl, if_pos rfl, hb.fills, h.matchNumber]
    rfl
  | false =>
    refine ⟨{ e with book := b }, Q', ?_, ⟨hb, h.nextId, h.unnumbered ht hr⟩⟩
    rw [if_neg Bool.false_ne_true, if_neg Bool.false_ne_true]
    rfl

/-- **A step.** -/
theorem EngineRefines.process (h : EngineRefines e Q n) (hslot : SlotFree e msg) (tsc : Timestamp) :
    ∃ e' Q', e.process tsc msg = some (e', (n.process cap tsc msg).2) ∧
      EngineRefines e' Q' (n.process cap tsc msg).1 := by
  by_cases hn : msg.type = .newOrder
  · exact h.newOrder hslot hn tsc
  by_cases hc : msg.type = .cancelOrder
  · exact h.cancelOrder hc tsc
  by_cases hm : msg.type = .modifyOrder
  · exact h.modifyOrder hm tsc
  · refine ⟨e, Q, ?_, ?_⟩
    · simp [MatchingEngine.process, NaiveEngine.process, hn, hc, hm]
    · simpa [NaiveEngine.process, hn, hc, hm] using h

/-- **A run.** -/
theorem EngineRefines.run (h : EngineRefines e Q n) (msgs : List (Timestamp × InboundMessage))
    (hslots : AllSlotsFree e msgs) :
    ∃ e' Q', e.run msgs = some (e', (n.run cap msgs).2) ∧
      EngineRefines e' Q' (n.run cap msgs).1 := by
  induction msgs generalizing e Q n with
  | nil => exact ⟨e, Q, rfl, h⟩
  | cons m msgs ih =>
    obtain ⟨tsc, msg⟩ := m
    obtain ⟨hslot, hrest⟩ := hslots
    obtain ⟨e₁, Q₁, hstep, h₁⟩ := h.process hslot tsc
    obtain ⟨e', Q', hrun, h'⟩ := ih h₁ (hrest e₁ _ hstep)
    exact ⟨e', Q', run_cons.mpr ⟨e₁, _, _, hstep, hrun, rfl⟩, h'⟩

end Steps

/-- **The engine refines the naive one**: it gives every message of a run the same answers, and its
book shows the same, when every order that comes in finds the slot of its id free. -/
theorem engine_refines {msgs : List (Timestamp × InboundMessage)}
    (hslots : AllSlotsFree (MatchingEngine.new cap) msgs) :
    ∃ e, (MatchingEngine.new cap).run msgs = some (e, (NaiveEngine.new.run cap msgs).2) ∧
      Agrees e.book (NaiveEngine.new.run cap msgs).1.book := by
  obtain ⟨e, Q, hrun, h⟩ := (new_engineRefines cap).run msgs hslots
  exact ⟨e, hrun, h.book.agrees⟩

/-- Two shares are offered, one of them is bought, and the rest is cancelled. -/
def saleAndCancel : List (Timestamp × InboundMessage) :=
  [(0, sellTwo), (1, ⟨.newOrder, .buy, .limit, 2, 0, 100, 1, 0⟩),
    (2, ⟨.cancelOrder, .sell, .limit, 1, 1, 0, 0, 0⟩)]

theorem engine_refines_sale :
    (NaiveEngine.new.run 4 saleAndCancel).2.map (List.map OutboundMessage.type) =
        [[.orderAccepted], [.orderAccepted, .orderExecuted, .orderExecuted], [.orderCanceled]] ∧
      ∃ e, (MatchingEngine.new 4).run saleAndCancel =
        some (e, (NaiveEngine.new.run 4 saleAndCancel).2) ∧
        Agrees e.book (NaiveEngine.new.run 4 saleAndCancel).1.book :=
  ⟨by decide +kernel,
    engine_refines (allSlotsFree_of_few (new_inv 4) (by decide) (new_given 4) (by decide))⟩

end TradeFeed
