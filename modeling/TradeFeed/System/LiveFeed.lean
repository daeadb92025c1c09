import TradeFeed.Feed.Messages
import TradeFeed.Feed.RecordLimit
import TradeFeed.Feed.Session
import TradeFeed.Feed.Splitter

/-!
# The live feed

The live mode of `main` in `feed_main.cpp`, from the TLS connection on: it logs in, and each message
that it reads is split into objects, which are normalised, captured and made into orders. It stops
when the server closes the connection, at its limit, or when a signal has set `g_running` to false.

`live_feed` goes from the server's bytes to the capture file and to the bytes for the exchange: what
OpenSSL makes of the one stream and `send` of the other does not matter, and neither do pings, pongs
and the messages of the login.
-/

namespace TradeFeed

open Lib.Bytes Lib.Json

namespace AlpacaWebSocket

/-- `close()`, with a connection. -/
def close (tls : Tls) (ws : AlpacaWebSocket) : AlpacaWebSocket := (ws.sendFrame tls opClose []).1

end AlpacaWebSocket

namespace Feed

open AlpacaWebSocket ServerFrame

/-- The live loop of `main`, when it is stopped after so many messages; `none` if it does not come
to an end, or `read_frame` throws. -/
def watch (tls : Tls) (strtod : List UInt8 → ℚ) (send : ℕ → ℕ) (limit : UInt64) :
    ℕ → AlpacaWebSocket → Live → Option (AlpacaWebSocket × Live)
  | 0, ws, s => some (ws, s)
  | n + 1, ws, s => do
    match ← ws.readFrame tls with
    | (ws, .failed) => return (ws, s)
    | (_, .threw) => none
    | (ws, .message frame) =>
      let s := s.onFrame strtod send frame
      if limit ≠ 0 ∧ s.ticks ≥ limit then return (ws, s) else watch tls strtod send limit n ws s

/-- The live mode of `main`, once its TLS connection stands: no result if the login fails. -/
def liveFeed (tls : Tls) (strtod : List UInt8 → ℚ) (send : ℕ → ℕ) (capture connect : Bool)
    (limit : UInt64) (running : ℕ) (ws : AlpacaWebSocket) (host path key secret : List UInt8)
    (symbols : List (List UInt8)) (trades quotes : Bool) :
    Option (AlpacaWebSocket × Option Live) := do
  match ← ws.login tls host path key secret symbols trades quotes with
  | (ws, .failed) => return (ws, none)
  | (_, .threw) => none
  | (ws, .accepted) =>
    let (ws, s) ← watch tls strtod send limit running ws ⟨⟨capture, [], .new connect, 0⟩, 0⟩
    return (ws.close tls, some s)

/-! ### The loop -/

section Watch

variable {tls : Tls} {ws : AlpacaWebSocket} {fs : List ServerFrame} {strtod : List UInt8 → ℚ}
  {send : ℕ → ℕ}

/-- **The loop does with the messages** what it does with them one by one, wherever the bytes are
cut. -/
theorem watch_spec (strtod : List UInt8 → ℚ) (send : ℕ → ℕ) (hd : tls.Delivers)
    (ha : tls.Answers (pings fs)) (hfs : ∀ f ∈ fs, f.Data ∨ f.Skipped) (h : ws.pending = bytesOf fs)
    (limit : UInt64) (n : ℕ) (s : Live) :
    ∃ ws₁, watch tls strtod send limit n ws s =
      some (ws₁, liveLoop strtod send limit s ((messages fs).take n)) := by
  induction n generalizing ws fs s with
  | zero => exact ⟨ws, rfl⟩
  | succ n ih =>
    rcases exists_first hfs with hall | ⟨cs, d, rest, rfl, hcs, hdata⟩
    · obtain ⟨ws₁, -, h₁, -, -, -⟩ := readFrame_end hd ha hall h
      refine ⟨ws₁, ?_⟩
      rw [messages_skipped hall, List.take_nil]
      simp [watch, h₁, liveLoop]
    · have hmsgs : messages (cs ++ [d] ++ rest) = d.payload :: messages rest := by
        rw [messages_append, messages_append, messages_skipped hcs, messages_data hdata]
        rfl
      rw [bytesOf_append] at h
      have hpings : tls.Answers (pings cs) := ha.mono fun p hp => by
        rw [pings_append, pings_append]
        exact List.mem_append_left _ (List.mem_append_left _ hp)
      obtain ⟨ws₁, -, h₁, hpend, -, -⟩ := readFrame_message hd hpings hcs hdata h
      obtain ⟨ws₂, h₂⟩ :=
        ih (ha.mono fun p hp => by rw [pings_append]; exact List.mem_append_right _ hp)
        (fun f hf => hfs f (List.mem_append_right _ hf)) hpend (s.onFrame strtod send d.payload)
      simp only [watch, h₁, Option.bind_eq_bind, Option.bind_some, hmsgs,
        List.take_succ_cons, liveLoop]
      split_ifs
      · exact ⟨ws₁, rfl⟩
      · exact ⟨ws₂, h₂⟩

end Watch

/-! ### From bytes to records -/

/-- The record of an object, if it has one. -/
def recordOf (strtod : List UInt8 → ℚ) (obj : List UInt8) : Option CaptureRecord :=
  if (normalize strtod obj .zero).1 then some (normalize strtod obj .zero).2 else none

/-- The message is the text of an array of these objects. -/
def IsArray (os : List (List UInt8)) (msg : List UInt8) : Prop :=
  (∀ o ∈ os, IsObject o) ∧ Spaced (bracketed os) msg

/-- The records of the texts of arrays are those of their objects. -/
theorem accepted_arrays (strtod : List UInt8 → ℚ) {arrays : List (List (List UInt8))}
    {msgs : List (List UInt8)} (h : List.Forall₂ IsArray arrays msgs) :
    msgs.flatMap (accepted strtod) = arrays.flatten.filterMap (recordOf strtod) := by
  induction h with
  | nil => rfl
  | cons hmsg _ ih =>
    rw [List.flatMap_cons, List.flatten_cons, List.filterMap_append, ih, accepted,
      forEachObject_array hmsg.1 hmsg.2]
    rfl

section Live

variable {tls : Tls} {header host path nonce key secret : List UInt8} {symbols : List (List UInt8)}
  {trades quotes : Bool}
  {fs : List ServerFrame} {msgs : List (List UInt8)} {arrays : List (List (List UInt8))}
  {send : ℕ → ℕ}

/-- **From the server's bytes to the capture and the orders**: of a server that lets the client log
in, sends no frame that closes the connection, and whose messages are then arrays of objects, every
object that `normalize` accepts has its record in the capture file and its orders sent to the
exchange, in order, up to the message behind which the program is stopped; and nothing else has.
No send fails, and there is no limit on the records. -/
theorem live_feed (hw : Works tls) (hnonce : tls.nonce = some nonce)
    (hrequest : (request host path nonce).length < 2 ^ 31)
    (hauth : (authMessage key secret).length < 2 ^ 30)
    (hsubscribe : (subscribeMessage symbols trades quotes).length < 2 ^ 30)
    (hheader : search headerEnd header = some (header.length - 4))
    (hstatus : header.take 12 = ascii "HTTP/1.1 101") (hfs : Manageable fs)
    (hlogin : loginReply (messages fs) = .found msgs) (hmsgs : List.Forall₂ IsArray arrays msgs)
    (strtod : List UInt8 → ℚ) (hsend : ∀ k, 0 < send k) (running : ℕ) :
    ∃ ws s, liveFeed tls strtod send true true 0 running (connected (header ++ bytesOf fs)) host
        path key secret symbols trades quotes = some (ws, some s) ∧
      let rs := (arrays.take running).flatten.filterMap (recordOf strtod)
      s.file = rs.flatMap CaptureRecord.bytes ∧
        s.sender.written = (ordersFrom true rs).flatMap WireMessage.bytes ∧
        s.ticks = UInt64.ofNat rs.length := by
  obtain ⟨ws, r, post, h, hpend, hpost, hcomes, -⟩ :=
    hw.login hnonce hrequest hauth hsubscribe hheader hstatus hfs
  rw [hlogin] at hcomes
  obtain ⟨rfl, rfl⟩ := hcomes
  obtain ⟨ws₁, hwatch⟩ :=
    watch_spec strtod send hw.reads (hw.answers hpost.pings) hpost.kinds hpend 0 running
    ⟨⟨true, [], .new true, 0⟩, 0⟩
  refine ⟨ws₁.close tls, runLive strtod send true true 0 ((messages post).take running), ?_, ?_⟩
  · rw [liveFeed, h]
    simp only [Option.bind_eq_bind, Option.bind_some, hwatch]
    rfl
  · have hrecords := accepted_arrays strtod (List.forall₂_take running hmsgs)
    have hlive : (runLive strtod send true true 0 ((messages post).take running)).toRecording = _ :=
      runLive_first (.inl rfl) true true
    rw [firstOf, if_pos rfl, if_pos rfl, hrecords] at hlive
    intro rs
    rw [hlive]
    exact ⟨rfl, (written_offers hsend (.new true) rfl rs).trans (List.nil_append _), rfl⟩

/-- A server that confirms both requests, and then sends a trade, behind it what is none, and a ping
in between. -/
def feedFrames : List ServerFrame :=
  [unfragmented .text .short (ascii "\x7b\"T\":\"success\",\"msg\":\"authenticated\"\x7d"),
    unfragmented .text .short (ascii "\x7b\"T\":\"subscription\"\x7d"),
    unfragmented .text .medium dollarFrame, unfragmented .ping .short (ascii "p"),
    unfragmented .text .short (ascii "[ \x7b\x7d]")]

theorem feedFrames_manageable : Manageable feedFrames where
  kinds f hf := by
    simp only [feedFrames, List.mem_cons, List.not_mem_nil, or_false] at hf
    rcases hf with rfl | rfl | rfl | rfl | rfl
    · exact .inl (.inl rfl)
    · exact .inl (.inl rfl)
    · exact .inl (.inl rfl)
    · exact .inr (.inl rfl)
    · exact .inl (.inl rfl)
  pings := by decide

theorem isObject_dollarTrade : IsObject dollarTrade :=
  isObject_text [(plainStr (ascii "T") (by decide), .string (plainStr (ascii "t") (by decide))),
    (plainStr (ascii "S") (by decide), .string (plainStr (ascii "A") (by decide))),
    (plainStr (ascii "p") (by decide), .number oneNumber),
    (plainStr (ascii "s") (by decide), .number oneNumber)]

theorem live_feed_dollar :
    ∃ ws s, liveFeed slowTls (fun _ => 1) (fun k => k % 7 + 1) true true 0 9
      (connected (ascii "HTTP/1.1 101 OK\r\n\r\n" ++ bytesOf feedFrames)) (ascii "host")
      (ascii "/path") (ascii "key") (ascii "secret") [ascii "A"] true true = some (ws, some s) ∧
      let rs := ([[dollarTrade], [ascii "\x7b\x7d"]].take 9).flatten.filterMap (recordOf fun _ => 1)
      s.file = rs.flatMap CaptureRecord.bytes ∧
        s.sender.written = (ordersFrom true rs).flatMap WireMessage.bytes ∧
        s.ticks = UInt64.ofNat rs.length :=
  live_feed slowTls_works (rfl : slowTls.nonce = some (List.replicate 16 7)) (by decide +kernel)
    (by decide +kernel) (by decide +kernel) rfl rfl feedFrames_manageable
    (rfl : loginReply (messages feedFrames) = .found [dollarFrame, ascii "[ \x7b\x7d]"])
    (.cons ⟨List.forall_mem_singleton.mpr isObject_dollarTrade, .cons (w := []) (by decide)
        (.cons (w := []) (by decide) (.cons (w := []) (by decide) (.nil (w := []) (by decide))))⟩
      (.cons ⟨List.forall_mem_singleton.mpr (isObject_text []), .cons (w := []) (by decide)
        (.cons (w := [32]) (by decide) (.cons (w := []) (by decide) (.nil (w := []) (by decide))))⟩
      .nil))
    (fun _ => 1) (fun k => Nat.succ_pos (k % 7)) 9

end Live

end Feed

end TradeFeed
