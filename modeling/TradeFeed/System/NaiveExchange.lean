import TradeFeed.Engine.NaiveEngine
import TradeFeed.Transport.Exchange

/-!
# The exchange refines a naive one

The whole program, with its connections, its two threads and the rings between them, its pools,
tables and bit sets, against the naive engine on one thread, which keeps two lists of orders: what
is sent to the clients is the first of what that engine answers to the clients' messages, in one
order in which they arrive, and all of it when the rings are drained (`exchange_refines`). This is
said of the first 2²⁰ messages of type NewOrder, and of runs in which no push fails.
-/

namespace TradeFeed

open Lib Lib.Bytes

variable {cap k : ℕ}

theorem newOrders_eq (msgs : List (Timestamp × InboundMessage)) :
    newOrders msgs = (msgs.map Prod.snd).countP fun m => m.type = .newOrder := by
  rw [newOrders, List.countP_map]
  rfl

/-- The slots of the first 2²⁰ new orders are free. -/
theorem allSlotsFree_of_messages (hcap : cap < 2 ^ 32) {done : List (Timestamp × InboundMessage)}
    {msgs : List InboundMessage} (hfirst : done.map Prod.snd <+: msgs)
    (hfew : (msgs.countP fun m => m.type = .newOrder) ≤ 2 ^ 20) :
    AllSlotsFree (MatchingEngine.new cap) done := by
  refine allSlotsFree_of_few (new_inv cap) hcap (new_given cap) ?_
  rw [Nat.zero_add, newOrders_eq]
  exact (hfirst.sublist.countP_le).trans hfew

/-- **The exchange refines the naive one**: whatever the clients send, in whatever pieces it arrives
and whatever the order of the threads' steps, the messages made of each connection's bytes are those
of its frames in order; and as long as no push fails and the messages of type NewOrder are no more
than 2²⁰, the reports sent are the first of the naive engine's answers to the first of all these
messages, and the book shows what the naive one holds. When everything is pushed and the rings are
drained, it is all of the messages and all of the answers. -/
theorem exchange_refines (hk : k < 64) (hcap : cap < 2 ^ 32)
    (inBuffer : Fin (2 ^ k) → InboundMessage) (outBuffer : Fin (2 ^ k) → OutboundMessage)
    (steps : List ExchangeStep) :
    ∃ x, (Exchange.new cap inBuffer outBuffer).run steps = some x ∧
      (∀ c, (x.net.pushedFor c).map InboundMessage.untimed =
        (frames wireMsgSize (x.net.received c)).map decoded) ∧
      (x.threads.NoneFailed → (x.messages.countP fun m => m.type = .newOrder) ≤ 2 ^ 20 →
        ∃ done : List (Timestamp × InboundMessage), done.map Prod.snd <+: x.messages ∧
          x.net.popped <+: (NaiveEngine.new.run cap done).2.flatten ∧
          Agrees x.threads.engine.book (NaiveEngine.new.run cap done).1.book ∧
          (x.threads.Drained → x.threads.unread = [] → done.map Prod.snd = x.messages ∧
            x.net.popped = (NaiveEngine.new.run cap done).2.flatten)) := by
  obtain ⟨x, hrun, h⟩ := Machine.tryRun_invariant
    (fun (x : Exchange cap k) a (_ : a ∈ steps) (h : x.Inv inBuffer outBuffer) => h.step hcap a)
    (Exchange.new_inv cap inBuffer outBuffer)
  refine ⟨x, hrun, h.net.framed, fun hok hfew => ?_⟩
  obtain ⟨done, outs, hdone, hfirst, hpopped, hdrained⟩ := h.serial hk hok
  obtain ⟨e, Q, hnaive, hrefines⟩ :=
    (new_engineRefines cap).run done (allSlotsFree_of_messages hcap hfirst hfew)
  obtain ⟨rfl, rfl⟩ := Prod.mk.inj (Option.some.inj (hdone.symm.trans hnaive))
  exact ⟨done, hfirst, hpopped, hrefines.book.agrees, hdrained⟩

/-- A share is offered and bought, and the reports are the naive engine's. -/
theorem exchange_refines_two :
    ∃ x, (Exchange.new (k := 3) 4 (fun _ => cancelNone) fun _ => .zero).run twoClients = some x ∧
      (x.messages.countP fun m => m.type = .newOrder) = 2 ∧
      ∃ done : List (Timestamp × InboundMessage), done.map Prod.snd = x.messages ∧
        x.net.popped = (NaiveEngine.new.run 4 done).2.flatten ∧
        Agrees x.threads.engine.book (NaiveEngine.new.run 4 done).1.book := by
  obtain ⟨x, hx, hok, hdrained, hunread, -⟩ := twoClients_run
  have htwo : ((Exchange.new (k := 3) 4 (fun _ => cancelNone) fun _ => .zero).run twoClients).map
      (fun x => x.messages.countP fun m => m.type = .newOrder) = some 2 := by decide +kernel
  rw [hx] at htwo
  have htwo := Option.some.inj htwo
  obtain ⟨x', hx', -, hrefines⟩ :=
    @exchange_refines 4 3 (by decide) (by decide) (fun _ => cancelNone) (fun _ => .zero) twoClients
  obtain rfl : x = x' := Option.some.inj (hx.symm.trans hx')
  obtain ⟨done, -, -, hbook, hall⟩ := hrefines hok (htwo.trans_le (by decide))
  obtain ⟨hdone, hpopped⟩ := hall hdrained hunread
  exact ⟨x, hx, htwo, done, hdone, hpopped, hbook⟩

end TradeFeed
