import TradeFeed.Engine.Steps

/-!
# The response protocol

What the engine answers, and how it numbers matches. `Answered` says what is pushed for
one message, with the fills that this message produced; `process_answered` that every
step does that and keeps `match_number_` one ahead of the book's count; and
`response_protocol` what this comes to over runs.

The numbers are 64 bits wide. In a run with fewer than 2⁶⁴ fills they are 1, 2, 3 and so
on; the fill after that is given 0 (`numbers_wrap`).
-/

namespace TradeFeed

variable {cap : ℕ}

/-- The two reports of each fill, the buyer's first, numbered from `n` on. -/
def numbered (tsc : Timestamp) (fs : List Fill) (n : UInt64) : List OutboundMessage :=
  fs.zipIdx.flatMap fun t =>
    [executedBid t.1 (n + UInt64.ofNat t.2) tsc, executedAsk t.1 (n + UInt64.ofNat t.2) tsc]

/-- The order that a message is about: a new one is given the next id. -/
def answeredId (e : MatchingEngine cap) (msg : InboundMessage) : OrderId :=
  if msg.type = .newOrder then e.nextId else msg.orderId

/-- What a message is answered with, `fs` being the fills it produced. -/
structure Answered (e e' : MatchingEngine cap) (tsc : Timestamp) (msg : InboundMessage)
    (out : List OutboundMessage) (fs : List Fill) : Prop where
  /-- Nothing, if its type is none of the three. -/
  unknown : msg.type ≠ .newOrder → msg.type ≠ .cancelOrder → msg.type ≠ .modifyOrder → out = []
  /-- Else one message that accepts, cancels or rejects, and then the fills. -/
  known : msg.type = .newOrder ∨ msg.type = .cancelOrder ∨ msg.type = .modifyOrder →
    ∃ head, out = head :: numbered tsc fs e.matchNumber ∧
      (head.type = .orderAccepted ∨ head.type = .orderCanceled ∨ head.type = .orderRejected) ∧
      head.clientId = msg.clientId ∧ head.orderId = answeredId e msg ∧
      (fs ≠ [] → head.type = .orderAccepted)
  /-- The fills were produced by this message: the book's are these alone. -/
  produced : msg.type = .newOrder ∨ msg.type = .modifyOrder → e'.book.fills = fs
  /-- Other messages produce none. -/
  none : msg.type ≠ .newOrder → msg.type ≠ .modifyOrder → fs = []
  /-- Each of them was counted once. -/
  counted : e'.book.matchCount = e.book.matchCount + UInt64.ofNat fs.length
  /-- And given one number. -/
  numbers : e'.matchNumber = e.matchNumber + UInt64.ofNat fs.length

theorem reports_eq (tsc : Timestamp) (fs : List Fill) (n : UInt64) :
    reports tsc fs n = numbered tsc fs n := by
  have hshift : ∀ k m, reports tsc fs (m + UInt64.ofNat k) = (fs.zipIdx k).flatMap fun t =>
      [executedBid t.1 (m + UInt64.ofNat t.2) tsc, executedAsk t.1 (m + UInt64.ofNat t.2) tsc] := by
    induction fs with
    | nil => intro k m; rfl
    | cons f fs ih =>
      intro k m
      have hk : m + UInt64.ofNat k + 1 = m + UInt64.ofNat (k + 1) := by
        rw [UInt64.ofNat_add, UInt64.add_assoc]
        rfl
      rw [reports_cons, hk, ih (k + 1), List.zipIdx_cons, List.flatMap_cons]
      rfl
  have := hshift 0 n
  rwa [show UInt64.ofNat 0 = 0 from rfl, UInt64.add_zero] at this

theorem type_ne : MessageType.cancelOrder ≠ .newOrder ∧ MessageType.modifyOrder ≠ .newOrder ∧
    MessageType.modifyOrder ≠ .cancelOrder := by decide

/-- **A step**: every message is answered by the protocol. -/
theorem Processed.answered {e e' : MatchingEngine cap} {Q Q' : Queues cap} {tsc : Timestamp}
    {msg : InboundMessage} {out : List OutboundMessage} (hp : Processed e Q tsc msg e' Q' out) :
    ∃ fs, Answered e e' tsc msg out fs := by
  obtain ⟨hcn, hmn, hmc⟩ := type_ne
  cases hp with
  | unknown hn hc hm =>
    refine ⟨[], fun _ _ _ => rfl, fun h => ?_, fun h => ?_, fun _ _ => rfl, by simp, by simp⟩
    · exact absurd h (by simp [hn, hc, hm])
    · exact absurd h (by simp [hn, hm])
  | refused hn hr =>
    refine ⟨[], fun h => absurd hn h, fun _ => ?_, fun _ => rfl, fun h => absurd hn h, ?_, by simp⟩
    · exact ⟨_, rfl, Or.inr (Or.inr rfl), rfl, by simp [answeredId, hn, emitReject],
        fun h => absurd rfl h⟩
    · exact (UInt64.add_zero _).symm
  | @added hn hr b Q' o ha =>
    have hfills : b.fills = (trading e.book.clearFills Q (newOrderOf e msg)).trades.map
        (fillOf (newOrderOf e msg).side (newOrderOf e msg)) := ha.fills
    refine ⟨b.fills, fun h => absurd hn h, fun _ => ?_, fun _ => rfl, fun h => absurd hn h, ?_, rfl⟩
    · exact ⟨_, congrArg _ (reports_eq _ _ _), Or.inl rfl,
        rfl, by simp [answeredId, hn, emitAccept], fun _ => rfl⟩
    · rw [hfills, List.length_map]
      exact ha.matchCount
  | notCanceled hc hl =>
    refine ⟨[], fun _ h => absurd hc h, fun _ => ?_, fun h => ?_, fun _ _ => rfl, by simp, by simp⟩
    · exact ⟨_, rfl, Or.inr (Or.inr rfl), rfl, by simp [answeredId, hc, hcn, emitReject],
        fun h => absurd rfl h⟩
    · exact absurd h (by simp [hc, hcn, hmc.symm])
  | canceled hc hl ha =>
    refine ⟨[], fun _ h => absurd hc h, fun _ => ?_, fun h => ?_, fun _ _ => rfl, ?_, by simp⟩
    · exact ⟨_, rfl, Or.inr (Or.inl rfl), rfl, by simp [answeredId, hc, hcn, emitCancel],
        fun h => absurd rfl h⟩
    · exact absurd h (by simp [hc, hcn, hmc.symm])
    · exact ha.matchCount.trans (UInt64.add_zero _).symm
  | notModified hm hl =>
    refine ⟨[], fun _ _ h => absurd hm h,
      fun _ => ?_, fun _ => rfl, fun _ h => absurd hm h, ?_, by simp⟩
    · exact ⟨_, rfl, Or.inr (Or.inr rfl), rfl, by simp [answeredId, hm, hmn, emitReject],
        fun h => absurd rfl h⟩
    · exact (UInt64.add_zero _).symm
  | lost hm hl hb ha =>
    refine ⟨[], fun _ _ h => absurd hm h,
      fun _ => ?_, fun _ => ha.fills, fun _ h => absurd hm h, ?_, by simp⟩
    · exact ⟨_, rfl, Or.inr (Or.inr rfl), rfl, by simp [answeredId, hm, hmn, emitReject],
        fun h => absurd rfl h⟩
    · exact ha.matchCount.trans (UInt64.add_zero _).symm
  | @modified hm o hl hb b₁ b Q' o' ha ha' =>
    have hfills : b.fills = (trading b₁ (Q.without o) (modifiedOf (e.book.order o) msg)).trades.map
        (fillOf (modifiedOf (e.book.order o) msg).side (modifiedOf (e.book.order o) msg)) := by
      rw [ha'.fills, ha.fills]
      rfl
    refine ⟨b.fills,
      fun _ _ h => absurd hm h, fun _ => ?_, fun _ => rfl, fun _ h => absurd hm h, ?_, rfl⟩
    · exact ⟨_, congrArg _ (reports_eq _ _ _), Or.inl rfl,
        rfl, by simp [answeredId, hm, hmn, emitAccept], fun _ => rfl⟩
    · rw [hfills, List.length_map]
      exact ha'.matchCount.trans (congrArg (· + _) ha.matchCount)

/-- The numbers of the matches that some messages report. -/
def matchNumbers (out : List OutboundMessage) : List UInt64 :=
  (out.filter fun m => m.type = .orderExecuted).map OutboundMessage.matchNumber

theorem matchNumbers_append (out out' : List OutboundMessage) :
    matchNumbers (out ++ out') = matchNumbers out ++ matchNumbers out' := by
  simp [matchNumbers]

theorem matchNumbers_accept (c : ClientId) (id : OrderId) (tsc : Timestamp)
    (out : List OutboundMessage) :
    matchNumbers (emitAccept c id tsc :: out) = matchNumbers out := by
  have : MessageType.orderAccepted ≠ .orderExecuted := by decide
  simp [matchNumbers, emitAccept, this]

/-- Each number twice, once for each side, from `n` on. -/
def twice (n : UInt64) (count : ℕ) : List UInt64 :=
  (List.range count).flatMap fun k => [n + UInt64.ofNat k, n + UInt64.ofNat k]

theorem twice_add (n : UInt64) (k l : ℕ) :
    twice n (k + l) = twice n k ++ twice (n + UInt64.ofNat k) l := by
  rw [twice, List.range_add, List.flatMap_append, List.flatMap_map]
  congr 1
  apply List.flatMap_congr
  intro j _
  rw [UInt64.ofNat_add, UInt64.add_assoc]

theorem matchNumbers_numbered (tsc : Timestamp) (fs : List Fill) (n : UInt64) :
    matchNumbers (numbered tsc fs n) = twice n fs.length := by
  rw [← reports_eq]
  induction fs generalizing n with
  | nil => rfl
  | cons f fs ih =>
    have h : twice n (f :: fs).length = [n, n] ++ twice (n + 1) fs.length := by
      rw [List.length_cons, Nat.add_comm, twice_add]
      simp [twice]
    rw [h, ← ih]
    simp [reports_cons, matchNumbers, executedBid, executedAsk, executed]

/-- The numbers that one answer uses. -/
theorem Answered.matchNumbers_eq {e e' : MatchingEngine cap} {tsc : Timestamp}
    {msg : InboundMessage} {out : List OutboundMessage} {fs : List Fill}
    (h : Answered e e' tsc msg out fs) :
    matchNumbers out = twice e.matchNumber fs.length := by
  by_cases hk : msg.type = .newOrder ∨ msg.type = .cancelOrder ∨ msg.type = .modifyOrder
  · obtain ⟨head, rfl, ht, -⟩ := h.known hk
    have hhead : ¬ head.type = .orderExecuted := by
      rcases ht with ht | ht | ht <;> rw [ht] <;> decide
    rw [← matchNumbers_numbered tsc]
    simp [matchNumbers, hhead]
  · simp only [not_or] at hk
    rw [h.unknown hk.1 hk.2.1 hk.2.2, h.none hk.1 hk.2.2]
    rfl

/-- **A run**: the engine's steps all answer by the protocol, and number the matches
consecutively. -/
theorem run_answered {e : MatchingEngine cap} {Q : Queues cap} (h : Inv e.book Q)
    (hcap : cap < 2 ^ 32) (hn : e.matchNumber = e.book.matchCount + 1)
    (msgs : List (Timestamp × InboundMessage)) :
    ∃ e' Q' outs count, e.run msgs = some (e', outs) ∧ Inv e'.book Q' ∧
      e'.matchNumber = e'.book.matchCount + 1 ∧
      e'.matchNumber = e.matchNumber + UInt64.ofNat count ∧
      matchNumbers outs.flatten = twice e.matchNumber count := by
  induction msgs generalizing e Q with
  | nil => exact ⟨e, Q, [], 0, rfl, h, hn, (UInt64.add_zero _).symm, rfl⟩
  | cons m msgs ih =>
    obtain ⟨tsc, msg⟩ := m
    obtain ⟨e₁, Q₁, out, hrun₁, hp⟩ := process_spec h hcap tsc msg
    obtain ⟨fs, ha⟩ := hp.answered
    have hn₁ : e₁.matchNumber = e₁.book.matchCount + 1 := by
      rw [ha.numbers, ha.counted, hn, UInt64.add_assoc, UInt64.add_assoc, UInt64.add_comm 1]
    obtain ⟨e', Q', outs, count, hrun, hinv, hn', hcount, hnums⟩ := ih (hp.inv h) hn₁
    refine ⟨e', Q', out :: outs, fs.length + count, by simp [MatchingEngine.run, hrun₁, hrun], hinv,
      hn', ?_, ?_⟩
    · rw [hcount, ha.numbers, UInt64.ofNat_add, UInt64.add_assoc]
    · rw [List.flatten_cons, matchNumbers_append, ha.matchNumbers_eq, hnums, ha.numbers, twice_add]

/-- **The response protocol**: in every reachable state every message is answered by the
protocol, `match_number_` is one ahead of the book's count, and the matches reported so
far are numbered 1, 2, 3 and so on, each number used twice, for as long as they fit in
64 bits. -/
theorem response_protocol (hcap : cap < 2 ^ 32) (msgs : List (Timestamp × InboundMessage))
    (tsc : Timestamp) (msg : InboundMessage) :
    ∃ e outs count e' out fs, (MatchingEngine.new cap).run msgs = some (e, outs) ∧
      e.process tsc msg = some (e', out) ∧ Answered e e' tsc msg out fs ∧
      e.matchNumber = e.book.matchCount + 1 ∧ e.matchNumber = 1 + UInt64.ofNat count ∧
      matchNumbers outs.flatten = twice 1 count ∧
      (count < 2 ^ 64 → (matchNumbers outs.flatten).map UInt64.toNat =
        (List.range count).flatMap fun k => [k + 1, k + 1]) := by
  obtain ⟨e, Q, outs, count, hrun, hinv, hn, hcount, hnums⟩ :=
    run_answered (e := MatchingEngine.new cap) (new_inv cap) hcap rfl msgs
  obtain ⟨e', Q', out, hproc, hp⟩ := process_spec hinv hcap tsc msg
  obtain ⟨fs, ha⟩ := hp.answered
  refine ⟨e, outs, count, e', out, fs, hrun, hproc, ha, hn, hcount, hnums, fun hlt => ?_⟩
  rw [hnums]
  have hone : (MatchingEngine.new cap).matchNumber = 1 := rfl
  rw [hone, twice, List.map_flatMap]
  apply List.flatMap_congr
  intro k hk
  have hk := List.mem_range.mp hk
  have : (1 + UInt64.ofNat k).toNat = k + 1 := by
    rw [UInt64.toNat_add, UInt64.toNat_ofNat', UInt64.toNat_one]
    omega
  simp [this]

/-- A seller and a buyer who trade, and a message of an unknown type. -/
theorem response_protocol_trade :
    ∃ e outs count e' out fs, (MatchingEngine.new maxOrders).run
        [(5, ⟨.newOrder, .sell, .limit, 1, 0, 100, 1, 0⟩),
          (6, ⟨.newOrder, .buy, .limit, 2, 0, 100, 1, 0⟩)] =
          some (e, outs) ∧
      e.process 7 ⟨⟨99⟩, .buy, .limit, 2, 1, 100, 1, 0⟩ = some (e', out) ∧
      Answered e e' 7 ⟨⟨99⟩, .buy, .limit, 2, 1, 100, 1, 0⟩ out fs ∧
      e.matchNumber = e.book.matchCount + 1 ∧ e.matchNumber = 1 + UInt64.ofNat count ∧
      matchNumbers outs.flatten = twice 1 count ∧
      (count < 2 ^ 64 → (matchNumbers outs.flatten).map UInt64.toNat =
        (List.range count).flatMap fun k => [k + 1, k + 1]) :=
  response_protocol (by decide) _ _ _

/-! ### Where the numbers wrap -/

/-- A share wanted at 100. -/
def buyOne : InboundMessage := ⟨.newOrder, .buy, .limit, 2, 0, 100, 1, 0⟩

/-- So many trades of one share each. -/
def trades (n : ℕ) : List (Timestamp × InboundMessage) :=
  (List.replicate n [(0, sellOne), (0, buyOne)]).flatten

section Buy

variable {e : MatchingEngine cap} {Q : Queues cap} {o : Fin cap} {new : Order cap}

/-- Who wants a share where only one is offered, and accepts its price, takes it. -/
theorem process_buys (msg : InboundMessage) (h : Inv e.book Q) (hcap : cap < 2 ^ 32)
    (htwo : 2 ≤ cap) (hbids : Q.resting .bids = []) (hsingle : ∀ j, j ≠ level100 → Q .asks j = [])
    (hasks : e.book.entries (Q .asks level100) = [(o, new)]) (hp : new.price = 100)
    (hrem : new.remaining = 1) (hn : msg.type = .newOrder) (hs : msg.side = .buy)
    (hq : msg.quantity = 1) (hacc : accepts .buy msg.orderType msg.price 100 = true)
    (hgood : OrderBook.badPrice msg.orderType msg.price = false) (tsc : Timestamp) :
    ∃ b Q' o', e.process tsc msg =
      some (⟨b, e.nextId + 1, e.matchNumber + UInt64.ofNat b.fills.length⟩,
      emitAccept msg.clientId e.nextId tsc :: reports tsc b.fills e.matchNumber) ∧
      Accepted e.book.clearFills b Q Q' o' (newOrderOf e msg) ∧
      trading e.book.clearFills Q (newOrderOf e msg) = ⟨[((o, new), 1)], 0, []⟩ ∧
      b.fills.length = 1 := by
  have hentry : e.book.entries (Q.resting .asks) = [(o, new)] := by
    rw [Queues.resting_of_single hsingle, hasks]
  have hr : ¬ Refused e msg := by
    rintro (h0 | hbad)
    · exact available_of_sellOne h.core htwo hbids hsingle hasks h0
    · rw [hgood] at hbad
      cases hbad
  obtain ⟨b, Q', o', hbuy, ha⟩ := process_added msg h hcap hn hr tsc
  have htr : trading e.book.clearFills Q (newOrderOf e msg) = ⟨[((o, new), 1)], 0, []⟩ :=
    trading_share hs hacc hq hentry hp hrem
  refine ⟨b, Q', o', hbuy, ha, htr, ?_⟩
  rw [ha.fills, htr]
  rfl

theorem process_buyOne (h : Inv e.book Q) (hcap : cap < 2 ^ 32) (htwo : 2 ≤ cap)
    (hbids : Q.resting .bids = []) (hsingle : ∀ j, j ≠ level100 → Q .asks j = [])
    (hasks : e.book.entries (Q .asks level100) = [(o, new)]) (hp : new.price = 100)
    (hrem : new.remaining = 1) :
    ∃ b Q' o', e.process 0 buyOne =
      some (⟨b, e.nextId + 1, e.matchNumber + UInt64.ofNat b.fills.length⟩,
      emitAccept 2 e.nextId 0 :: reports 0 b.fills e.matchNumber) ∧
      Accepted e.book.clearFills b Q Q' o' (newOrderOf e buyOne) ∧
      trading e.book.clearFills Q (newOrderOf e buyOne) = ⟨[((o, new), 1)], 0, []⟩ ∧
      b.fills.length = 1 :=
  process_buys buyOne h hcap htwo hbids hsingle hasks hp hrem rfl rfl rfl (by decide) (by decide) 0

end Buy

/-- A share offered and taken leaves the book empty, and is one match. -/
theorem run_trade {e : MatchingEngine cap} (h : Inv e.book fun _ _ => []) (hcap : cap < 2 ^ 32)
    (htwo : 2 ≤ cap) :
    ∃ e' outs, e.run [(0, sellOne), (0, buyOne)] = some (e', outs) ∧ Inv e'.book (fun _ _ => []) ∧
      (matchNumbers outs.flatten).length = 2 := by
  obtain ⟨e₁, Q₁, o, hsell, h₁, -, -, hbids, hsingle, hasks⟩ := process_sellOne h hcap (by omega)
  obtain ⟨b, Q₂, o', hbuy, ha, htr, hfills⟩ :=
    process_buyOne h₁ hcap htwo hbids hsingle hasks rfl (incoming_remaining ..)
  have hmem : ∀ {Q : Queues cap} {s : BookSide}, Q.resting s = [] → ∀ j, Q s j = [] := by
    intro Q s hs j
    apply List.eq_nil_iff_forall_not_mem.mpr
    intro p hp
    have := Queues.mem_resting.mpr ⟨j, hp⟩
    rw [hs] at this
    exact List.not_mem_nil this
  have hempty : Q₂ = fun _ _ => [] := by
    have hswept : b.entries (Q₂.resting .asks) = [] := ha.swept.trans (by rw [htr])
    have hnot : ¬ Rests e₁.book.clearFills Q₁ (newOrderOf e₁ buyOne) := fun hr => hr.1 (by rw [htr])
    funext s j
    cases s with
    | bids =>
      have hj := ha.joined j
      rw [if_neg fun hr => hnot hr.1, List.append_nil] at hj
      have hj : b.entries (Q₂ .bids j) = e₁.book.entries (Q₁ .bids j) := hj
      rw [hmem hbids] at hj
      exact OrderBook.entries_eq_nil.mp hj
    | asks => exact hmem (OrderBook.entries_eq_nil.mp hswept) j
  refine ⟨_, _, run_cons.mpr ⟨_, _, _, hsell, run_single hbuy, rfl⟩, hempty ▸ ha.inv, ?_⟩
  have hnums := congrArg List.length (matchNumbers_numbered 0 b.fills e₁.matchNumber)
  rw [hfills, ← reports_eq] at hnums
  simpa [matchNumbers_accept] using hnums.trans (show (twice e₁.matchNumber 1).length = 2 from rfl)

/-- So many of them are so many matches. -/
theorem run_trades {e : MatchingEngine cap} (h : Inv e.book fun _ _ => []) (hcap : cap < 2 ^ 32)
    (htwo : 2 ≤ cap) (n : ℕ) :
    ∃ e' outs, e.run (trades n) = some (e', outs) ∧ (matchNumbers outs.flatten).length = 2 * n := by
  induction n generalizing e with
  | zero => exact ⟨e, [], rfl, rfl⟩
  | succ n ih =>
    obtain ⟨e₁, outs₁, hrun₁, h₁, hlen₁⟩ := run_trade h hcap htwo
    obtain ⟨e', outs, hrun, hlen⟩ := ih h₁
    refine ⟨e', outs₁ ++ outs, ?_, ?_⟩
    · rw [trades, List.replicate_succ, List.flatten_cons]
      exact run_trans hrun₁ hrun
    · rw [List.flatten_append, matchNumbers_append, List.length_append, hlen₁, hlen]
      omega

/-- **The numbers wrap**: over 2⁶⁴ trades of one share the numbers used are not 1, 2, 3
and so on, as the last one is 0. -/
theorem numbers_wrap :
    ∃ e outs, (MatchingEngine.new maxOrders).run (trades (2 ^ 64)) = some (e, outs) ∧
      0 ∈ matchNumbers outs.flatten ∧
      ¬ ∃ count, (matchNumbers outs.flatten).map UInt64.toNat =
        (List.range count).flatMap fun k => [k + 1, k + 1] := by
  have hcap : maxOrders < 2 ^ 32 := by decide
  have hinv : Inv (MatchingEngine.new maxOrders).book fun _ _ => [] := new_inv maxOrders
  obtain ⟨e, outs, hrun, hlen⟩ := run_trades hinv hcap (by decide) (2 ^ 64)
  obtain ⟨e', Q, outs', count, hrun', -, -, -, hnums⟩ :=
    run_answered hinv hcap rfl (trades (2 ^ 64))
  obtain ⟨rfl, rfl⟩ : e = e' ∧ outs = outs' := by simpa using hrun.symm.trans hrun'
  have hcount : count = 2 ^ 64 := by
    rw [hnums, twice, List.length_flatMap] at hlen
    simp at hlen
    omega
  have hzero : (0 : UInt64) ∈ matchNumbers outs.flatten := by
    rw [hnums, twice, List.mem_flatMap]
    exact ⟨2 ^ 64 - 1, by rw [hcount]; simp, by simp; rfl⟩
  refine ⟨e, outs, hrun, hzero, ?_⟩
  rintro ⟨count, hc⟩
  have h0 : (0 : ℕ) ∈ (matchNumbers outs.flatten).map UInt64.toNat :=
    List.mem_map.mpr ⟨0, hzero, rfl⟩
  rw [hc, List.mem_flatMap] at h0
  obtain ⟨k, -, hk⟩ := h0
  simp at hk

end TradeFeed
