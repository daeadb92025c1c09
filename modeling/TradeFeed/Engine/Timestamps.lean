import TradeFeed.Core.Timestamps
import TradeFeed.Engine.MatchingEngine

/-!
# Timestamps do not matter to the engine

The counter's readings go into orders (`recv_tsc`) and into responses (`engine_tsc`), and
nothing is decided by them: `process` does to an engine, a message and its responses
without their timestamps what it does to them with them (`process_untimed`), and so does a
run (`run_untimed`).
-/

namespace TradeFeed

variable {cap : ℕ}

/-- A message without the reading that the gateway took. -/
def InboundMessage.untimed (msg : InboundMessage) : InboundMessage := { msg with recvTsc := 0 }

/-- A response without the reading that the engine took. -/
def OutboundMessage.untimed (out : OutboundMessage) : OutboundMessage := { out with engineTsc := 0 }

/-- An engine whose orders have no timestamps. -/
def MatchingEngine.untimed (e : MatchingEngine cap) : MatchingEngine cap :=
  { e with book := e.book.untimed }

theorem emitFills_untimed (tsc : Timestamp) (fs : List Fill) (n : UInt64) :
    emitFills 0 fs n = ((emitFills tsc fs n).1.map OutboundMessage.untimed,
      (emitFills tsc fs n).2) := by
  induction fs generalizing n with
  | nil => rfl
  | cons f fs ih =>
    unfold emitFills
    rw [ih (n + 1)]
    rfl

namespace MatchingEngine

/-- The outcome of `process` without timestamps. -/
def untimedOutcome (r : MatchingEngine cap × List OutboundMessage) :
    MatchingEngine cap × List OutboundMessage :=
  (r.1.untimed, r.2.map OutboundMessage.untimed)

/-- The answer to an order that was tried. -/
def answer (tsc : Timestamp) (c : ClientId) (id : OrderId) (reason : UInt8) (nextId : OrderId)
    (n : UInt64) (r : OrderBook cap × Bool) : MatchingEngine cap × List OutboundMessage :=
  if r.2 then (⟨r.1, nextId, (emitFills tsc r.1.fills n).2⟩,
    emitAccept c id tsc :: (emitFills tsc r.1.fills n).1)
  else (⟨r.1, nextId, n⟩, [emitReject c id reason tsc])

theorem answer_untimed (tsc : Timestamp) (c : ClientId) (id : OrderId) (reason : UInt8)
    (nextId : OrderId) (n : UInt64) (r : OrderBook cap × Bool) :
    untimedOutcome (answer tsc c id reason nextId n r) = answer 0 c id reason nextId n
      (r.1.untimed, r.2) := by
  obtain ⟨b, accepted⟩ := r
  cases accepted with
  | false => rfl
  | true =>
    have hfills : b.untimed.fills = b.fills := rfl
    simp only [answer, if_true, hfills, emitFills_untimed tsc]
    rfl

theorem process_newOrder (e : MatchingEngine cap) (tsc : Timestamp) {msg : InboundMessage}
    (hn : msg.type = .newOrder) :
    e.process tsc msg =
      (e.book.clearFills.addOrder e.nextId msg.clientId msg.side msg.orderType msg.price
        msg.quantity msg.recvTsc).map
        (answer tsc msg.clientId e.nextId 1 (e.nextId + 1) e.matchNumber) := by
  rw [process, if_pos hn]
  dsimp only
  cases e.book.clearFills.addOrder e.nextId msg.clientId msg.side msg.orderType msg.price
    msg.quantity msg.recvTsc with
  | none => rfl
  | some r =>
    obtain ⟨b, accepted⟩ := r
    cases accepted <;> rfl

theorem process_modifyOrder (e : MatchingEngine cap) (tsc : Timestamp) {msg : InboundMessage}
    (hm : msg.type = .modifyOrder) :
    e.process tsc msg =
      (e.book.clearFills.modifyOrder msg.orderId msg.price msg.quantity msg.recvTsc).map
      (answer tsc msg.clientId msg.orderId 3 e.nextId e.matchNumber) := by
  have hne : MessageType.modifyOrder ≠ .newOrder ∧
      MessageType.modifyOrder ≠ .cancelOrder := by decide
  rw [process, if_neg (hm ▸ hne.1), if_neg (hm ▸ hne.2), if_pos hm]
  cases e.book.clearFills.modifyOrder msg.orderId msg.price msg.quantity msg.recvTsc with
  | none => rfl
  | some r =>
    obtain ⟨b, accepted⟩ := r
    cases accepted <;> rfl

theorem process_cancelOrder (e : MatchingEngine cap) (tsc : Timestamp) {msg : InboundMessage}
    (hc : msg.type = .cancelOrder) :
    e.process tsc msg = (e.book.cancelOrder msg.orderId).map fun r =>
      ({ e with book := r.1 }, [if r.2 then emitCancel msg.clientId msg.orderId tsc
      else emitReject msg.clientId msg.orderId 2 tsc]) := by
  have hne : MessageType.cancelOrder ≠ .newOrder := by decide
  rw [process, if_neg (hc ▸ hne), if_pos hc]
  cases e.book.cancelOrder msg.orderId with
  | none => rfl
  | some r =>
    obtain ⟨b, canceled⟩ := r
    cases canceled <;> rfl

/-- **A step.** -/
theorem process_untimed (e : MatchingEngine cap) (tsc : Timestamp) (msg : InboundMessage) :
    (e.process tsc msg).map untimedOutcome = e.untimed.process 0 msg.untimed := by
  have htype : msg.untimed.type = msg.type := rfl
  have hanswer : ∀ (r : Option (OrderBook cap × Bool)) c id reason nextId n,
      (r.map (answer tsc c id reason nextId n)).map untimedOutcome =
        (r.map fun r => (r.1.untimed, r.2)).map (answer 0 c id reason nextId n) := by
    intro r c id reason nextId n
    rw [Option.map_map, Option.map_map]
    exact congrArg (Option.map · r) (funext (answer_untimed tsc c id reason nextId n))
  by_cases hn : msg.type = .newOrder
  · rw [process_newOrder e tsc hn, process_newOrder e.untimed 0 (htype.trans hn), hanswer,
      OrderBook.addOrder_untimed]
    rfl
  by_cases hm : msg.type = .modifyOrder
  · rw [process_modifyOrder e tsc hm, process_modifyOrder e.untimed 0 (htype.trans hm), hanswer,
      OrderBook.modifyOrder_untimed]
    rfl
  by_cases hc : msg.type = .cancelOrder
  · have hcancel : e.untimed.book.cancelOrder msg.untimed.orderId =
        (e.book.cancelOrder msg.orderId).map fun r => (r.1.untimed, r.2) :=
          (OrderBook.cancelOrder_untimed ..).symm
    rw [process_cancelOrder e tsc hc, process_cancelOrder e.untimed 0 (htype.trans hc), hcancel,
      Option.map_map, Option.map_map]
    refine congrArg (Option.map · _) (funext fun r => ?_)
    obtain ⟨b, canceled⟩ := r
    cases canceled <;> rfl
  · unfold process
    rw [htype, if_neg hn, if_neg hc, if_neg hm, if_neg hn, if_neg hc, if_neg hm]
    rfl

/-- **A run.** -/
theorem run_untimed (e : MatchingEngine cap) (msgs : List (Timestamp × InboundMessage)) :
    ((e.run msgs).map fun r => (r.1.untimed, r.2.map (List.map OutboundMessage.untimed))) =
      e.untimed.run (msgs.map fun m => (0, m.2.untimed)) := by
  induction msgs generalizing e with
  | nil => rfl
  | cons m msgs ih =>
    obtain ⟨tsc, msg⟩ := m
    rw [List.map_cons]
    unfold run
    rw [← process_untimed e tsc msg]
    cases e.process tsc msg with
    | none => rfl
    | some r =>
      obtain ⟨e₁, out⟩ := r
      simp only [Option.bind_eq_bind, Option.bind_some, Option.map_some, untimedOutcome, ← ih e₁]
      cases e₁.run msgs <;> rfl

/-- **Runs on the same messages**, whenever they were received and taken up, end alike. -/
theorem run_alike {e e₁ e₂ : MatchingEngine cap} {msgs msgs' : List (Timestamp × InboundMessage)}
    {outs outs' : List (List OutboundMessage)} (h : e.run msgs = some (e₁, outs))
    (h' : e.run msgs' = some (e₂, outs'))
    (hsame : msgs.map (fun m => m.2.untimed) = msgs'.map fun m => m.2.untimed) :
    e₁.untimed = e₂.untimed ∧ outs.map (List.map OutboundMessage.untimed) =
      outs'.map (List.map OutboundMessage.untimed) := by
  have hzero : ∀ l : List (Timestamp × InboundMessage),
    l.map (fun m => ((0 : Timestamp), m.2.untimed)) =
      (l.map fun m => m.2.untimed).map ((0 : Timestamp), ·) := fun l => List.map_map.symm
  have hrun := run_untimed e msgs
  rw [hzero, hsame, ← hzero, ← run_untimed e msgs', h, h'] at hrun
  simpa using hrun

end MatchingEngine

end TradeFeed
