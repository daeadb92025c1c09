import TradeFeed.Feed.RecordLimit
import TradeFeed.Transport.Exchange

/-!
# Replays of a session

`tradefeed-feed` (`feed_main.cpp`) connected to `tradefeed` (`main.cpp`): a live session captures
its records and sends their orders, and a replay of the capture sends them to another exchange. What
TCP does to the bytes, and in which order the threads of the exchanges take their steps, may be
different each time.

An exchange with one client that has done all its work has done what the client's bytes say
(`Exchange.Finished.serial`), and where another client's bytes go on behind them, reports are only
added (`Exchange.Finished.initial`). So a replay makes the trades that the session made, and a
replay of a capture that was cut off anywhere, in the middle of a record even, makes the first of
them (`replay_reproduces`).
-/

namespace TradeFeed

open Lib Lib.Bytes Lib.Machine Feed

variable {cap k : ℕ}

/-! ### An exchange with one client -/

/-- The one client of an exchange has sent these bytes, and nothing is left to do: no push has
failed, and the rings are drained. -/
structure Exchange.Finished (x : Exchange cap k) (bytes : List UInt8) : Prop where
  /-- There was one client. -/
  accepted : x.net.accepted = 1
  /-- Its bytes were read. -/
  received : x.net.received 0 = bytes
  /-- No push has failed. -/
  noneFailed : x.threads.NoneFailed
  /-- Everything was pushed. -/
  unread : x.threads.unread = []
  /-- The rings are empty. -/
  drained : x.threads.Drained

instance (x : Exchange cap k) (bytes : List UInt8) : Decidable (x.Finished bytes) :=
  decidable_of_iff (x.net.accepted = 1 ∧ x.net.received 0 = bytes ∧ x.threads.NoneFailed ∧
    x.threads.unread = [] ∧ x.threads.Drained)
    ⟨fun ⟨h₁, h₂, h₃, h₄, h₅⟩ => ⟨h₁, h₂, h₃, h₄, h₅⟩,
      fun ⟨h₁, h₂, h₃, h₄, h₅⟩ => ⟨h₁, h₂, h₃, h₄, h₅⟩⟩

/-- All messages are of connections that were accepted. -/
theorem Wired.pushed_lt {n : Net} (h : Wired n) {m : ℕ × InboundMessage} (hm : m ∈ n.pushed) :
    m.1 < n.accepted := by
  by_contra hle
  have hnone := (h.fresh m.1 (not_lt.mp hle)).2
  have hmem : m.2 ∈ n.pushedFor m.1 := List.mem_map.mpr ⟨m, List.mem_filter.mpr ⟨hm, by simp⟩, rfl⟩
  rw [hnone] at hmem
  cases hmem

namespace Exchange

variable {inBuffer inBuffer' : Fin (2 ^ k) → InboundMessage}
  {outBuffer outBuffer' : Fin (2 ^ k) → OutboundMessage}
  {x x' : Exchange cap k} {steps steps' : List ExchangeStep} {bytes bytes' : List UInt8}

/-- Every state of a run keeps the invariant. -/
theorem inv_of_run (hcap : cap < 2 ^ 32) (h : (new cap inBuffer outBuffer).run steps = some x) :
    x.Inv inBuffer outBuffer := by
  obtain ⟨x', hrun, hinv, -⟩ := (new_inv cap inBuffer outBuffer).run (c := 0) hcap steps
  obtain rfl := Option.some.inj (h.symm.trans hrun)
  exact hinv

/-- **The bytes of the one client** say what the engine has done, and what was sent. -/
theorem Finished.serial (hk : k < 64) (hx : x.Inv inBuffer outBuffer) (h : x.Finished bytes) :
    ∃ done outs, (MatchingEngine.new cap).run done = some (x.threads.engine, outs) ∧
      done.map (fun m => m.2.untimed) = (frames wireMsgSize bytes).map decoded ∧
        x.net.popped = outs.flatten := by
  obtain ⟨done, outs, hdone, -, -, hall⟩ := hx.serial hk h.noneFailed
  obtain ⟨hmsgs, hpopped⟩ := hall h.drained h.unread
  refine ⟨done, outs, hdone, ?_, hpopped⟩
  have honly : x.net.pushed.filter (fun m => m.1 = 0) = x.net.pushed := by
    refine List.filter_eq_self.mpr fun m hm => decide_eq_true ?_
    have hlt := hx.net.wired.pushed_lt hm
    rw [h.accepted] at hlt
    exact Nat.lt_one_iff.mp hlt
  have hframed := hx.net.framed 0
  rw [Net.pushedFor, honly, ← hmsgs, h.received, List.map_map] at hframed
  exact hframed

/-- **More bytes, more reports**: what the first of a client's bytes come to is the beginning of
what they all come to. -/
theorem Finished.initial (hk : k < 64) (hx : x.Inv inBuffer outBuffer)
    (hx' : x'.Inv inBuffer' outBuffer') (h : x.Finished bytes) (h' : x'.Finished bytes')
    (hpre : bytes' <+: bytes) :
    x'.net.popped.map OutboundMessage.untimed <+: x.net.popped.map OutboundMessage.untimed ∧
      (bytes' = bytes → x'.threads.engine.untimed = x.threads.engine.untimed ∧
        x'.net.popped.map OutboundMessage.untimed = x.net.popped.map OutboundMessage.untimed) := by
  obtain ⟨done, outs, hdone, hmsgs, hpopped⟩ := h.serial hk hx
  obtain ⟨done', outs', hdone', hmsgs', hpopped'⟩ := h'.serial hk hx'
  have hfirst : done'.map (fun m => m.2.untimed) <+: done.map fun m => m.2.untimed := by
    rw [hmsgs, hmsgs']
    exact (frames_initial hpre).map decoded
  obtain ⟨hflat, hsame⟩ := run_first hdone' hdone hfirst
  rw [hpopped, hpopped']
  refine ⟨?_, fun heq => hsame ?_⟩
  · rw [hflat]
    exact ((List.take_prefix _ _).flatten).map _
  · have hlen := congrArg List.length
      (hmsgs'.trans ((congrArg (fun b => (frames wireMsgSize b).map decoded) heq).trans hmsgs.symm))
    rwa [List.length_map, List.length_map] at hlen

end Exchange

/-! ### Captures that were cut off -/

namespace Feed

/-- The orders of the first records are the first orders. -/
theorem ordersFrom_initial {rs rs' : List CaptureRecord} (h : rs' <+: rs) (buy : Bool) :
    ordersFrom buy rs' <+: ordersFrom buy rs := by
  obtain ⟨t, rfl⟩ := h
  induction rs' generalizing buy with
  | nil => exact List.nil_prefix
  | cons r rs' ih => exact List.prefix_append_right_inj _ |>.mpr (ih (nextBuy buy r))

/-- A replay sends the orders of its file's records. -/
theorem written_replay {send : ℕ → ℕ} (hsend : ∀ k, 0 < send k) (file : List UInt8) :
    (runReplay send true 0 file).sender.written =
      (ordersFrom true (records file)).flatMap WireMessage.bytes := by
  rw [runReplay_first, written_offers hsend (.new true) rfl, firstOf, if_pos rfl]
  rfl

/-- A live session captures its records. -/
theorem records_live (strtod : List UInt8 → ℚ) (send : ℕ → ℕ) (connect : Bool)
    (fs : List (List UInt8)) :
    records (runLive strtod send true connect 0 fs).file = fs.flatMap (accepted strtod) := by
  rw [runLive_unlimited, records_capture]

/-- It sends their orders. -/
theorem written_live {strtod : List UInt8 → ℚ} {send : ℕ → ℕ} (hsend : ∀ k, 0 < send k)
    (capture : Bool) (fs : List (List UInt8)) :
    (runLive strtod send capture true 0 fs).sender.written =
      (ordersFrom true (fs.flatMap (accepted strtod))).flatMap WireMessage.bytes := by
  have hlive : (runLive strtod send capture true 0 fs).toRecording = _ :=
    runLive_first (.inl rfl) capture true
  rw [hlive, written_offers hsend (.new true) rfl, firstOf, if_pos rfl]
  rfl

/-- **A replay of what was saved** of a capture sends the first bytes that the session sent. -/
theorem written_saved {strtod : List UInt8 → ℚ} {send send' : ℕ → ℕ} (hsend : ∀ k, 0 < send k)
    (hsend' : ∀ k, 0 < send' k) {fs : List (List UInt8)} {saved : List UInt8}
    (hsaved : saved <+: (runLive strtod send true true 0 fs).file) :
    (runReplay send' true 0 saved).sender.written <+:
      (runLive strtod send true true 0 fs).sender.written := by
  rw [written_replay hsend', written_live hsend, ← records_live strtod send true fs]
  obtain ⟨t, ht⟩ :=
    ordersFrom_initial ((frames_initial (n := captureSize) hsaved).map CaptureRecord.ofBytes) true
  exact ⟨t.flatMap WireMessage.bytes, by rw [← List.flatMap_append]; exact congrArg _ ht⟩

end Feed

/-- **A replay reproduces the session's trades.** Of a session that captures its records and sends
their orders to an exchange, any first bytes of the capture are saved, and replayed to another
exchange. Each exchange has this one client, no push has failed in it, all that the client sent was
read and pushed, and the rings are drained; no send fails, and neither program has a limit on its
records. Then the reports of the replay are the first of those of the session, and when all was
saved, they are the same and so are the engines. Only the time stamps of the exchanges differ. -/
theorem replay_reproduces (hk : k < 64) (hcap : cap < 2 ^ 32)
    {inBuffer inBuffer' : Fin (2 ^ k) → InboundMessage}
    {outBuffer outBuffer' : Fin (2 ^ k) → OutboundMessage} {steps steps' : List ExchangeStep}
    {x x' : Exchange cap k} (hx : (Exchange.new cap inBuffer outBuffer).run steps = some x)
    (hx' : (Exchange.new cap inBuffer' outBuffer').run steps' = some x') (strtod : List UInt8 → ℚ)
    {send send' : ℕ → ℕ} (hsend : ∀ k, 0 < send k) (hsend' : ∀ k, 0 < send' k)
    (fs : List (List UInt8)) {saved : List UInt8}
    (hsaved : saved <+: (runLive strtod send true true 0 fs).file)
    (hlive : x.Finished (runLive strtod send true true 0 fs).sender.written)
    (hreplay : x'.Finished (runReplay send' true 0 saved).sender.written) :
    x'.net.popped.map OutboundMessage.untimed <+: x.net.popped.map OutboundMessage.untimed ∧
      (saved = (runLive strtod send true true 0 fs).file →
        x'.threads.engine.untimed = x.threads.engine.untimed ∧
        x'.net.popped.map OutboundMessage.untimed = x.net.popped.map OutboundMessage.untimed) := by
  obtain ⟨hpopped, hall⟩ :=
    Exchange.Finished.initial hk (Exchange.inv_of_run hcap hx) (Exchange.inv_of_run hcap hx')
      hlive hreplay (written_saved hsend hsend' hsaved)
  refine ⟨hpopped, fun heq => hall ?_⟩
  rw [heq, written_replay hsend', records_live, written_live hsend]

/-- A client sends `n` messages 16 bytes at a time; then they are pushed, processed and answered. -/
def clientSteps (n : ℕ) (bytes : List UInt8) : List ExchangeStep :=
  .accept 5 :: (frames 16 bytes).map (fun bs => .readable 5 [(.bytes bs, 1)]) ++
    List.replicate (6 * n) .push ++
    List.replicate (22 * n) (.engine 2) ++
      List.replicate (24 * n) (.drain fun _ => .took wireMsgSize)

/-- What an exchange with small rings and few orders comes to. -/
def smallExchange (n : ℕ) (bytes : List UInt8) : Option (Exchange 4 3) :=
  (Exchange.new 4 (fun _ => cancelNone) fun _ => .zero).run (clientSteps n bytes)

theorem smallExchange_finished {n : ℕ} {bytes : List UInt8}
    (h : (smallExchange n bytes).any (fun x => decide (x.Finished bytes)) = true) :
    ∃ x, smallExchange n bytes = some x ∧ x.Finished bytes := by
  obtain ⟨x, hx, hfin⟩ := (Option.any_eq_true _ _).mp h
  exact ⟨x, hx, of_decide_eq_true hfin⟩

/-- A session of two trades, the second of which meets the first; 45 bytes of its capture are
saved. -/
theorem replay_reproduces_cut :
    ∃ x x',
      smallExchange 2
        (runLive (fun _ => 1) (fun k => k % 7 + 1) true true 0 [dollarsFrame]).sender.written =
          some x ∧
      smallExchange 1 (runReplay (fun _ => 32) true 0
        ((runLive (fun _ => 1) (fun k => k % 7 + 1) true true 0 [dollarsFrame]).file.take
          45)).sender.written = some x' ∧
      x'.net.popped.map OutboundMessage.untimed <+: x.net.popped.map OutboundMessage.untimed := by
  have hlive :
      (runLive (fun _ => 1) (fun k => k % 7 + 1) true true 0 [dollarsFrame]).sender.written =
        (ordersFrom true [dollarRecord, dollarRecord]).flatMap WireMessage.bytes := by
    rw [written_live fun k => Nat.succ_pos (k % 7)]
    simp [accepted_dollarsFrame]
  have hfile : (runLive (fun _ => 1) (fun k => k % 7 + 1) true true 0 [dollarsFrame]).file.take 45 =
      dollarRecord.bytes ++ dollarRecord.bytes.take 13 := by
    rw [runLive_unlimited]
    simp [accepted_dollarsFrame, List.take_append, captureSize]
  have hreplay : (runReplay (fun _ => 32) true 0
      (dollarRecord.bytes ++ dollarRecord.bytes.take 13)).sender.written =
        (ordersFrom true [dollarRecord]).flatMap WireMessage.bytes := by
    have hrecords : records (dollarRecord.bytes ++ dollarRecord.bytes.take 13) =
        [dollarRecord] := by
      have hcut : Cut captureSize (dollarRecord.bytes ++ dollarRecord.bytes.take 13)
          [dollarRecord.bytes] (dollarRecord.bytes.take 13) :=
        ⟨rfl, by simp, by simp [captureSize]⟩
      rw [records, hcut.frames_eq, List.map_singleton, CaptureRecord.ofBytes_bytes]
    rw [written_replay fun _ => Nat.succ_pos 31, hrecords]
  obtain ⟨x, hx, hfin⟩ :=
    @smallExchange_finished 2
      ((ordersFrom true [dollarRecord, dollarRecord]).flatMap WireMessage.bytes) (by decide +kernel)
  obtain ⟨x', hx', hfin'⟩ :=
    @smallExchange_finished 1 ((ordersFrom true [dollarRecord]).flatMap WireMessage.bytes)
      (by decide +kernel)
  rw [← hlive] at hx hfin
  rw [← hreplay, ← hfile] at hx' hfin'
  exact ⟨x, x', hx, hx',
    (replay_reproduces (by decide) (by decide) hx hx' (fun _ => 1) (fun k => Nat.succ_pos (k % 7))
      (fun _ => Nat.succ_pos 31) [dollarsFrame] (List.take_prefix 45 _) hfin hfin').1⟩

end TradeFeed
