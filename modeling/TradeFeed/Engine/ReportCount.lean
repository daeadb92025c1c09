import TradeFeed.Core.Cost
import TradeFeed.Engine.Steps

/-!
# How many reports there are

A message may be answered by any number of reports: one for itself, and two for each order that it
trades with. But each trade uses an order up, or is the last of its message; so over a run there are
no more than three reports a message (`run_reports_le`), which bounds what goes through the outbound
ring by what went through the inbound one.
-/

namespace TradeFeed

variable {cap : ℕ} {e e' : MatchingEngine cap} {Q Q' : Queues cap} {tsc : Timestamp}
  {msg : InboundMessage}
  {out : List OutboundMessage}

/-- Each fill is reported to both parties. -/
theorem length_reports (tsc : Timestamp) (fs : List Fill) (n : UInt64) :
    (reports tsc fs n).length = 2 * fs.length := by
  induction fs generalizing n with
  | nil => rfl
  | cons f fs ih =>
    rw [reports_cons, List.length_cons, List.length_cons, ih, List.length_cons]
    omega

/-- The reports of an accepted order. -/
theorem Accepted.reports_le {b b' : OrderBook cap} {o : Fin cap} {new : Order cap} (h : Inv b Q)
    (ha : Accepted b b' Q Q' o new) (hfills : b.fills = []) (tsc : Timestamp) (n : UInt64) :
    (reports tsc b'.fills n).length + 2 * Q'.orders ≤ 2 * Q.orders + 2 := by
  have htrades := ha.trades_le h
  rw [length_reports, ha.fills, hfills, List.nil_append, List.length_map]
  omega

/-- **A step**: what is reported is paid by orders that no longer rest, but for three reports. -/
theorem Processed.reports_le (h : Inv e.book Q) (hp : Processed e Q tsc msg e' Q' out) :
    out.length + 2 * Q'.orders ≤ 2 * Q.orders + 3 := by
  cases hp with
  | unknown => exact (Nat.zero_add _).trans_le (Nat.le_add_right _ _)
  | refused => rw [List.length_singleton]; omega
  | added hn hr ha =>
    have hle := ha.reports_le (clearFills_inv h) rfl tsc e.matchNumber
    rw [List.length_cons]
    omega
  | notCanceled => rw [List.length_singleton]; omega
  | canceled hc hl ha =>
    have hleft := ha.orders_succ h
    rw [List.length_singleton]
    omega
  | notModified => rw [List.length_singleton]; omega
  | lost hm hl hb ha =>
    have hleft := ha.orders_succ (clearFills_inv h)
    rw [List.length_singleton]
    omega
  | modified hm hl hb ha ha' =>
    have hleft := ha.orders_succ (clearFills_inv h)
    have hle := ha'.reports_le ha.inv ha.fills tsc e.matchNumber
    rw [List.length_cons]
    omega

/-- **A run.** -/
theorem run_reports (hcap : cap < 2 ^ 32) (h : Inv e.book Q)
    {msgs : List (Timestamp × InboundMessage)} {outs : List (List OutboundMessage)}
    (hrun : e.run msgs = some (e', outs)) :
    outs.flatten.length ≤ 2 * Q.orders + 3 * msgs.length := by
  induction msgs generalizing e Q outs with
  | nil =>
    obtain ⟨rfl, rfl⟩ : e = e' ∧ [] = outs := by simpa [MatchingEngine.run] using hrun
    exact Nat.zero_le _
  | cons m msgs ih =>
    obtain ⟨e₁, out, outs', hproc, hrun', rfl⟩ := run_cons.mp hrun
    obtain ⟨e₁', Q₁, out', hproc', hp⟩ := process_spec h hcap m.1 m.2
    obtain ⟨rfl, rfl⟩ := Prod.mk.inj (Option.some.inj (hproc.symm.trans hproc'))
    have hfirst := hp.reports_le h
    have hrest := ih (hp.inv h) hrun'
    rw [List.flatten_cons, List.length_append, List.length_cons]
    omega

/-- **From an empty book**, no more than three reports a message. -/
theorem run_reports_le (hcap : cap < 2 ^ 32) {msgs : List (Timestamp × InboundMessage)}
    {outs : List (List OutboundMessage)}
    (hrun : (MatchingEngine.new cap).run msgs = some (e, outs)) :
    outs.flatten.length ≤ 3 * msgs.length := by
  have hle := run_reports hcap (new_inv cap) hrun
  rwa [Queues.orders_empty fun _ _ => rfl, Nat.mul_zero, Nat.zero_add] at hle

end TradeFeed
