import TradeFeed.Feed.FeedMain
import TradeFeed.Lib.Machine

/-!
# The record limit

`--limit N`. A replay looks at its counter after every record and takes just the first `N`.
A live session looks at it after every frame: it takes the first `N` records exactly when no
frame has accepted records on both sides of the `N`-th place (`limit_honoured_iff`). Where it
does, it sends the same orders as a replay of the whole capture; the counters have 64 bits
and may wrap around.
-/

namespace TradeFeed.Feed

open Lib.Bytes Lib.Machine

variable {strtod : List UInt8 → ℚ} {send : ℕ → ℕ}

/-! ### Orders -/

theorem sendLoop_spec (hsend : ∀ k, 0 < send k) {fuel : ℕ} {data : List UInt8}
    (hfuel : data.length ≤ fuel) (e : Sender) :
    ∃ calls, sendLoop send fuel e data =
      ({ e with written := e.written ++ data, calls := calls }, true) := by
  induction fuel generalizing e data with
  | zero =>
    obtain rfl := List.eq_nil_of_length_eq_zero (Nat.le_zero.mp hfuel)
    exact ⟨e.calls, by rw [sendLoop, List.append_nil]⟩
  | succ fuel ih =>
    by_cases hnil : data = []
    · subst hnil
      exact ⟨e.calls, by rw [sendLoop, if_pos rfl, List.append_nil]⟩
    · have hpos := List.length_pos_of_ne_nil hnil
      have hcall := hsend e.calls
      have hn : min (send e.calls) data.length ≠ 0 := by omega
      have hrest : (data.drop (min (send e.calls) data.length)).length ≤ fuel := by
        rw [List.length_drop]
        omega
      obtain ⟨calls, h⟩ := ih hrest
        { e with written := e.written ++ data.take (min (send e.calls) data.length), calls :=
          e.calls + 1 }
      refine ⟨calls, ?_⟩
      simp only [sendLoop, if_neg hnil, if_neg hn]
      rw [h, List.append_assoc, List.take_append_drop]

/-- A message is sent whole. -/
theorem sendWire_spec (hsend : ∀ k, 0 < send k) (e : Sender) (w : WireMessage) :
    ∃ calls, sendWire send e w =
      ({ e with written := e.written ++ w.bytes, calls := calls }, true) :=
  sendLoop_spec hsend w.length_bytes.le e

/-- The static variable after a record: it changes with each trade. -/
def nextBuy (buy : Bool) (r : CaptureRecord) : Bool := if r.type = quoteType then buy else !buy

/-- The orders of a record: a bid and an offer for a quote, and one order for a trade, on the
side after the last one's. -/
def ordersOf (buy : Bool) (r : CaptureRecord) : List WireMessage :=
  if r.type = quoteType then
    [orderWire r 1 .buy r.p1 (roundLots r.s1), orderWire r 1 .sell r.p2 (roundLots r.s2)]
  else [orderWire r 1 (if nextBuy buy r then .buy else .sell) r.p1 (tradeQuantity r.s1)]

/-- The orders of records, one after the other. -/
def ordersFrom (buy : Bool) : List CaptureRecord → List WireMessage
  | [] => []
  | r :: rs => ordersOf buy r ++ ordersFrom (nextBuy buy r) rs

/-- The orders of a record from any client; those of a run are from client 1. -/
def ordersFor (client : ClientId) (buy : Bool) (r : CaptureRecord) : List WireMessage :=
  if r.type = quoteType then
    [orderWire r client .buy r.p1 (roundLots r.s1), orderWire r client .sell r.p2 (roundLots r.s2)]
  else [orderWire r client (if nextBuy buy r then .buy else .sell) r.p1 (tradeQuantity r.s1)]

theorem ordersOf_eq (buy : Bool) (r : CaptureRecord) : ordersOf buy r = ordersFor 1 buy r := rfl

theorem emitOrders_spec (hsend : ∀ k, 0 < send k) (e : Sender) (r : CaptureRecord)
    (client : ClientId) :
    ∃ calls, emitOrders send e r client =
      ({ e with
          written := e.written ++ (ordersFor client e.buy r).flatMap WireMessage.bytes,
          calls := calls, buy := nextBuy e.buy r },
        (ordersFor client e.buy r).length) := by
  unfold emitOrders ordersFor nextBuy
  by_cases hquote : r.type = quoteType
  · simp only [if_pos hquote]
    obtain ⟨calls, hbid⟩ := sendWire_spec hsend e (orderWire r client .buy r.p1 (roundLots r.s1))
    obtain ⟨calls', hoffer⟩ := sendWire_spec hsend
      { e with
        written := e.written ++ (orderWire r client .buy r.p1 (roundLots r.s1)).bytes,
        calls := calls }
      (orderWire r client .sell r.p2 (roundLots r.s2))
    exact ⟨calls', by rw [hbid]; simp only [hoffer]; simp⟩
  · simp only [if_neg hquote]
    obtain ⟨calls, h⟩ := sendWire_spec hsend { e with buy := !e.buy }
      (orderWire r client (if !e.buy then .buy else .sell) r.p1 (tradeQuantity r.s1))
    exact ⟨calls, by rw [h]; simp⟩

/-- **What is sent for records**: their orders, each whole. -/
theorem written_offers (hsend : ∀ k, 0 < send k) (e : Sender) (hconn : e.connected = true)
    (rs : List CaptureRecord) :
    (run (Sender.offer send) e rs).written = e.written ++
      (ordersFrom e.buy rs).flatMap WireMessage.bytes := by
  induction rs generalizing e with
  | nil => exact (List.append_nil _).symm
  | cons r rs ih =>
    obtain ⟨calls, h⟩ := emitOrders_spec hsend e r 1
    rw [← ordersOf_eq] at h
    have hoffer : e.offer send r = { e with
        written := e.written ++ (ordersOf e.buy r).flatMap WireMessage.bytes, calls := calls,
        buy := nextBuy e.buy r
        orders := e.orders + UInt64.ofNat (ordersOf e.buy r).length } := by
      unfold Sender.offer
      rw [if_pos hconn, h]
    rw [run_cons, hoffer, ih _ (by exact hconn), ordersFrom, List.flatMap_append, List.append_assoc]

/-! ### Loops with a limit -/

/-- The first `limit` items, or all if the limit is 0. -/
def firstOf {α : Type*} (limit : UInt64) (l : List α) : List α :=
  if limit = 0 then l else l.take limit.toNat

/-- A loop that counts in 64 bits, and breaks at its limit. -/
theorem runUntil_first {S A β : Type*} (step : S → A → S) (count : S → UInt64) {items : A → List β}
    {limit : UInt64} {s : S} {as : List A}
    (hcount : ∀ j, count (run step s (as.take j)) = UInt64.ofNat ((as.take j).flatMap items).length)
    (h : limit = 0 ∨ Aligned items limit.toNat as) :
    ∃ k, runUntil step (fun s => limit ≠ 0 ∧ count s ≥ limit) s as = run step s (as.take k) ∧
      (as.take k).flatMap items = firstOf limit (as.flatMap items) := by
  unfold firstOf
  by_cases hlimit : limit = 0
  · refine ⟨as.length, ?_, ?_⟩
    · rw [runUntil_never (fun s hs => hs.1 hlimit), List.take_length]
    · rw [if_pos hlimit, List.take_length]
  · have hstop : ∀ s, (limit ≠ 0 ∧ count s ≥ limit) ↔ limit.toNat ≤ (count s).toNat := fun s =>
      (and_iff_right hlimit).trans UInt64.le_iff_toNat_le
    rw [runUntil_congr hstop, if_neg hlimit]
    refine runUntil_limit ?_ limit.toNat_lt (fun j => ?_) (h.resolve_left hlimit)
    · exact Nat.pos_of_ne_zero fun hzero => hlimit (UInt64.toNat_inj.mp hzero)
    · rw [hcount, UInt64.toNat_ofNat']

/-! ### Replays -/

theorem replayLoop_eq (limit : UInt64) (p : Replay) (rs : List CaptureRecord) :
    replayLoop send limit p rs =
      runUntil (fun p r => ⟨p.sender.offer send r, p.n + 1⟩)
        (fun p => limit ≠ 0 ∧ p.n ≥ limit) p rs := by
  induction rs generalizing p with
  | nil => rfl
  | cons r rs ih =>
    rw [replayLoop, runUntil, ih]

theorem run_replay (p : Replay) (rs : List CaptureRecord) :
    run (fun p r => ⟨p.sender.offer send r, p.n + 1⟩) p rs =
      ⟨run (Sender.offer send) p.sender rs, p.n + UInt64.ofNat rs.length⟩ := by
  induction rs generalizing p with
  | nil => simp
  | cons r rs ih =>
    rw [run_cons, ih, run_cons, List.length_cons, Nat.add_comm, UInt64.ofNat_add, UInt64.add_assoc]
    rfl

/-- **A replay takes the first records** of its file. -/
theorem runReplay_first (connect : Bool) (limit : UInt64) (file : List UInt8) :
    (runReplay send connect limit file).sender = run (Sender.offer send) (.new connect)
      (firstOf limit (records file)) := by
  have hall : ∀ l : List CaptureRecord, l.flatMap (fun r => [r]) = l := List.flatMap_singleton'
  have hcount : ∀ j,
    (run (fun p r => ⟨p.sender.offer send r, p.n + 1⟩) ⟨.new connect,
    0⟩ ((records file).take j) : Replay).n =
      UInt64.ofNat (((records file).take j).flatMap fun r => [r]).length := fun j => by
    rw [run_replay, hall, UInt64.zero_add]
  obtain ⟨k, hrun, hfirst⟩ :=
    runUntil_first _ Replay.n hcount (.inr (aligned_single limit.toNat (records file)))
  rw [hall, hall] at hfirst
  rw [runReplay, replayLoop_eq, hrun, run_replay, hfirst]

/-! ### Live sessions -/

/-- The records that a frame has, if its objects are read as numbers so. -/
def accepted (strtod : List UInt8 → ℚ) (frame : List UInt8) : List CaptureRecord :=
  (forEachObject frame).filterMap fun obj =>
    if (normalize strtod obj .zero).1 then some (normalize strtod obj .zero).2 else none

theorem liveLoop_eq (limit : UInt64) (s : Live) (fs : List (List UInt8)) :
    liveLoop strtod send limit s fs =
      runUntil (Live.onFrame strtod send) (fun s => limit ≠ 0 ∧ s.ticks ≥ limit) s fs := by
  induction fs generalizing s with
  | nil => rfl
  | cons f fs ih =>
    rw [liveLoop, runUntil, ih]

/-- Objects that are skipped leave the recording alone. -/
theorem recording_onObjects (s : Live) (objs : List (List UInt8)) :
    (objs.foldl (Live.onObject strtod send) s).toRecording =
      run (Recording.record send) s.toRecording (objs.filterMap fun obj =>
        if (normalize strtod obj .zero).1 then some (normalize strtod obj .zero).2 else none) := by
  induction objs generalizing s with
  | nil => rfl
  | cons obj objs ih =>
    rw [List.foldl_cons, ih]
    unfold Live.onObject
    rcases hobj : normalize strtod obj .zero with ⟨taken, r⟩
    cases taken with
    | false => rw [List.filterMap_cons_none (by rw [hobj]; rfl)]
    | true => rw [List.filterMap_cons_some (b := r) (by rw [hobj]; rfl), run_cons]

/-- **A live session is a run over the accepted records**, frame by frame. -/
theorem recording_onFrames (s : Live) (fs : List (List UInt8)) :
    (run (Live.onFrame strtod send) s fs).toRecording =
      run (Recording.record send) s.toRecording (fs.flatMap (accepted strtod)) := by
  induction fs generalizing s with
  | nil => rfl
  | cons f fs ih =>
    rw [run_cons, ih, List.flatMap_cons, run_append, Live.onFrame, recording_onObjects, accepted]

theorem run_record (s : Recording) (rs : List CaptureRecord) :
    run (Recording.record send) s rs =
      { s with
        ticks := s.ticks + UInt64.ofNat rs.length
        file := if s.capturing then s.file ++ rs.flatMap CaptureRecord.bytes else s.file
        sender := run (Sender.offer send) s.sender rs } := by
  induction rs generalizing s with
  | nil => cases s; simp
  | cons r rs ih =>
    rw [run_cons, ih, run_cons, List.length_cons, Nat.add_comm, UInt64.ofNat_add,
      ← UInt64.add_assoc, List.flatMap_cons]
    cases hcap : s.capturing <;> simp [Recording.record, hcap]

/-- The state of a live session once these records were taken. -/
theorem recording_new (capture connect : Bool) (fs : List (List UInt8)) :
    (run (Live.onFrame strtod send) ⟨⟨capture, [], .new connect, 0⟩, 0⟩ fs).toRecording =
      ⟨capture, if capture then (fs.flatMap (accepted strtod)).flatMap CaptureRecord.bytes else [],
        run (Sender.offer send) (.new connect) (fs.flatMap (accepted strtod)),
        UInt64.ofNat (fs.flatMap (accepted strtod)).length⟩ := by
  rw [recording_onFrames, run_record, UInt64.zero_add, List.nil_append]

/-- Where no frame goes past the limit, a live session takes the first records. -/
theorem runLive_first {limit : UInt64} {fs : List (List UInt8)}
    (h : limit = 0 ∨ Aligned (accepted strtod) limit.toNat fs) (capture connect : Bool) :
    (runLive strtod send capture connect limit fs).toRecording =
      ⟨capture, if capture then (firstOf limit (fs.flatMap (accepted strtod))).flatMap
        CaptureRecord.bytes else [],
        run (Sender.offer send) (.new connect) (firstOf limit (fs.flatMap (accepted strtod))),
        UInt64.ofNat (firstOf limit (fs.flatMap (accepted strtod))).length⟩ := by
  have hcount : ∀ j,
    (run (Live.onFrame strtod send) ⟨⟨capture, [], .new connect, 0⟩, 0⟩ (fs.take j)).ticks =
      UInt64.ofNat ((fs.take j).flatMap (accepted strtod)).length := fun j => by
    rw [recording_new]
  obtain ⟨k, hrun, hfirst⟩ := runUntil_first _ (fun s : Live => s.ticks) hcount h
  rw [runLive, liveLoop_eq, hrun, recording_new, hfirst]

theorem runLive_unlimited (connect : Bool) (fs : List (List UInt8)) :
    (runLive strtod send true connect 0 fs).file =
      (fs.flatMap (accepted strtod)).flatMap CaptureRecord.bytes := by
  rw [runLive_first (.inl rfl), firstOf, if_pos rfl, if_pos rfl]

/-- A session that captured the first records was not stopped within a frame. -/
theorem aligned_of_captured {limit : UInt64} {fs : List (List UInt8)} {connect : Bool}
    (h : (runLive strtod send true connect limit fs).file =
      (firstOf limit (fs.flatMap (accepted strtod))).flatMap CaptureRecord.bytes) :
    limit = 0 ∨ Aligned (accepted strtod) limit.toNat fs := by
  obtain ⟨k, -, hrun, -⟩ :=
    runUntil_spec (Live.onFrame strtod send) (fun s => limit ≠ 0 ∧ s.ticks ≥ limit)
    ⟨⟨true, [], .new connect, 0⟩, 0⟩ fs
  rw [runLive, liveLoop_eq, hrun, recording_new, if_pos rfl] at h
  have hrecords := congrArg records h
  rw [records_capture, records_capture, firstOf] at hrecords
  by_cases hlimit : limit = 0
  · exact .inl hlimit
  · rw [if_neg hlimit] at hrecords
    have hlen := congrArg List.length hrecords
    rw [List.length_take] at hlen
    rcases le_total (fs.flatMap (accepted strtod)).length limit.toNat with hle | hle
    · exact .inr (.inl hle)
    · exact .inr (.inr ⟨k, by omega⟩)

/-! ### The limit -/

/-- What `--limit` promises of a live session, and of a replay of an unlimited capture. -/
structure Honoured (strtod : List UInt8 → ℚ) (send send' : ℕ → ℕ) (limit : UInt64)
    (fs : List (List UInt8)) (unlimited : List UInt8) : Prop where
  /-- The session writes the first `limit` records to its capture file. -/
  captured : (runLive strtod send true true limit fs).file =
    (firstOf limit (fs.flatMap (accepted strtod))).flatMap CaptureRecord.bytes
  /-- It sends their orders. -/
  sent : (runLive strtod send true true limit fs).sender.written =
    (ordersFrom true (firstOf limit (fs.flatMap (accepted strtod)))).flatMap WireMessage.bytes
  /-- The replay sends the same. -/
  replayed : (runReplay send' true limit unlimited).sender.written =
    (runLive strtod send true true limit fs).sender.written

/-- **The limit is honoured** exactly when no frame has accepted records on both sides of it. -/
theorem limit_honoured_iff (strtod : List UInt8 → ℚ) {send send' : ℕ → ℕ} (hsend : ∀ k, 0 < send k)
    (hsend' : ∀ k, 0 < send' k) (send₀ : ℕ → ℕ) (connect₀ : Bool) (limit : UInt64)
    (fs : List (List UInt8)) :
    Honoured strtod send send' limit fs (runLive strtod send₀ true connect₀ 0 fs).file ↔
      limit = 0 ∨ Aligned (accepted strtod) limit.toNat fs := by
  refine ⟨fun h => aligned_of_captured h.captured, fun h => ?_⟩
  have hlive : (runLive strtod send true true limit fs).toRecording = _ := runLive_first h true true
  have hsent : (runLive strtod send true true limit fs).sender.written =
      (ordersFrom true (firstOf limit (fs.flatMap (accepted strtod)))).flatMap
        WireMessage.bytes := by
    rw [hlive, written_offers hsend (.new true) rfl]
    rfl
  refine ⟨by rw [hlive, if_pos rfl], hsent, ?_⟩
  rw [hsent, runReplay_first, runLive_unlimited, records_capture,
    written_offers hsend' (.new true) rfl]
  rfl

/-- A trade of one share at a dollar. -/
def dollarTrade : List UInt8 := ascii "\x7b\"T\":\"t\",\"S\":\"A\",\"p\":1,\"s\":1\x7d"

/-- Its record. -/
def dollarRecord : CaptureRecord := ⟨tradeType, symbolOf [65], 100, 1, 0, 0, 0⟩

/-- All its numbers are 1. -/
theorem normalize_dollarTrade :
    normalize (fun _ => 1) dollarTrade .zero = (true, dollarRecord) := by
  have hcents : toCents 1 = 100 := by
    norm_num [toCents, castU32, show maxPrice.toNat = 1000000 from rfl]
    rfl
  have hsize : castU32 1 = 1 := by norm_num [castU32]
  have hp : fieldNum (fun _ => 1) dollarTrade (ascii "p") = some 1 := by
    obtain ⟨v, hv⟩ : ∃ v, field dollarTrade (ascii "p") = some v := ⟨_, rfl⟩
    rw [fieldNum, hv, Option.map_some]
  have hs : fieldNum (fun _ => 1) dollarTrade (ascii "s") = some 1 := by
    obtain ⟨v, hv⟩ : ∃ v, field dollarTrade (ascii "s") = some v := ⟨_, rfl⟩
    rw [fieldNum, hv, Option.map_some]
  have hT : fieldStr dollarTrade (ascii "T") = some [116] := by decide
  have hS : fieldStr dollarTrade (ascii "S") = some [65] := by decide
  have ht : fieldStr dollarTrade (ascii "t") = none := by decide
  simp [normalize, normalizeTrade, hT, hS, ht, hp, hs, hcents, hsize, sizeOf, dollarRecord,
    tradeType, quoteType, CaptureRecord.zero]

/-- A frame with one of them. -/
def dollarFrame : List UInt8 := [91] ++ dollarTrade ++ [93]

/-- A frame with two of them. -/
def dollarsFrame : List UInt8 := [91] ++ dollarTrade ++ [44] ++ dollarTrade ++ [93]

theorem accepted_dollarFrame : accepted (fun _ => 1) dollarFrame = [dollarRecord] := by
  have hsplit : forEachObject dollarFrame = [dollarTrade] := by decide
  simp [accepted, hsplit, normalize_dollarTrade]

theorem accepted_dollarsFrame :
    accepted (fun _ => 1) dollarsFrame = [dollarRecord, dollarRecord] := by
  have hsplit : forEachObject dollarsFrame = [dollarTrade, dollarTrade] := by decide
  simp [accepted, hsplit, normalize_dollarTrade]

theorem limit_honoured_iff_frames :
    (∀ k : ℕ, 0 < k % 7 + 1) ∧ (∀ k : ℕ, 0 < (fun _ => 32 : ℕ → ℕ) k) ∧
      Honoured (fun _ => 1) (fun k => k % 7 + 1) (fun _ => 32) 3 [dollarFrame, dollarsFrame,
        dollarFrame]
        (runLive (fun _ => 1) (fun _ => 0) true false 0 [dollarFrame, dollarsFrame,
          dollarFrame]).file :=
  ⟨fun k => Nat.succ_pos _,
    fun _ => Nat.succ_pos 31,
    (limit_honoured_iff (fun _ => 1) (fun k => Nat.succ_pos (k % 7)) (fun _ => Nat.succ_pos 31) _ _
    _ _).mpr (.inr (.inr ⟨2, by simp [accepted_dollarFrame, accepted_dollarsFrame]⟩))⟩

/-- **Two records for a limit of one**: they are in one frame. -/
theorem limit_passed :
    ¬ Honoured (fun _ => 1) (fun _ => 32) (fun _ => 32) 1 [dollarsFrame]
      (runLive (fun _ => 1) (fun _ => 32) true true 0 [dollarsFrame]).file := by
  intro h
  have hsplit : forEachObject dollarsFrame = [dollarTrade, dollarTrade] := by decide
  have hfile : (runLive (fun _ => 1) (fun _ => 32) true true 1 [dollarsFrame]).file =
      dollarRecord.bytes ++ dollarRecord.bytes := by
    simp [runLive, liveLoop, Live.onFrame, hsplit, Live.onObject, normalize_dollarTrade,
      Recording.record]
  have hlen := congrArg List.length (hfile.symm.trans h.captured)
  simp [accepted_dollarsFrame, firstOf] at hlen
  exact absurd hlen (by decide)

end TradeFeed.Feed
