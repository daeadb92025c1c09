import TradeFeed.Feed.Receive

/-!
# Sessions

`authenticate` and `subscribe` of `AlpacaWebSocket` (`alpaca_ws.cpp`) each send a request and wait
for a marker among the messages that come (`await`): the server greets before it is asked anything,
so that its messages are not one to one with the requests. At most 10 messages are looked at, and
one that says so is an error.

`Reply` is what waiting comes to in terms of the server's messages alone. However OpenSSL cuts the
two streams, the client's session comes to that (`login_chunked`): it sends the upgrade, the
credentials, the subscription and a pong for each ping in between, and what it reads afterwards is
every message behind the one that confirmed the subscription.
-/

namespace TradeFeed

open Lib.Bytes

/-- What `authenticate` and `subscribe` come to. -/
inductive Outcome where
  /-- True. -/
  | accepted
  /-- False. -/
  | failed
  /-- `read_frame` threw. -/
  | threw
  deriving DecidableEq

/-- The characters of some bytes. -/
def text (bs : List UInt8) : String := String.ofList (bs.map fun b => Char.ofNat b.toNat)

/-! ### Requests -/

/-- `json_array(v)`. -/
def jsonArray (v : List (List UInt8)) : List UInt8 :=
  ascii "[" ++ (v.mapIdx fun i s => (if i = 0 then [] else ascii ",") ++ ascii "\"" ++ s ++
    ascii "\"").flatten ++ ascii "]"

/-- The message of `authenticate`. -/
def authMessage (key secret : List UInt8) : List UInt8 :=
  ascii "\x7b\"action\":\"auth\",\"key\":\"" ++ key ++ ascii "\",\"secret\":\"" ++ secret ++
    ascii "\"\x7d"

/-- The message of `subscribe`. -/
def subscribeMessage (symbols : List (List UInt8)) (trades quotes : Bool) : List UInt8 :=
  ascii "\x7b\"action\":\"subscribe\"" ++
    (if trades then ascii ",\"trades\":" ++ jsonArray symbols else []) ++
    (if quotes then ascii ",\"quotes\":" ++ jsonArray symbols else []) ++ ascii "\x7d"

/-- `"msg":"authenticated"`. -/
def authMarker : List UInt8 := ascii "\"msg\":\"authenticated\""

/-- `"T":"subscription"`. -/
def subscribeMarker : List UInt8 := ascii "\"T\":\"subscription\""

/-- `"T":"error"`. -/
def errorMarker : List UInt8 := ascii "\"T\":\"error\""

namespace AlpacaWebSocket

/-- `send_text(payload)`. -/
def sendText (tls : Tls) (ws : AlpacaWebSocket) (payload : List UInt8) : AlpacaWebSocket × Bool :=
  ws.sendFrame tls opText payload

/-- The loop of `await`, when so many passes are left. -/
def awaitLoop (tls : Tls) (marker : List UInt8) (what : String) :
    ℕ → AlpacaWebSocket → Option (AlpacaWebSocket × Outcome)
  | 0, ws => some ({ ws with error := what ++ ": no response after 10 frames" }, .failed)
  | n + 1, ws => do
    match ← ws.readFrame tls with
    | (ws, .failed) => return (ws, .failed)
    | (ws, .threw) => return (ws, .threw)
    | (ws, .message reply) =>
      if (search marker reply).isSome then return (ws, .accepted)
      else if (search errorMarker reply).isSome then
        return ({ ws with error := what ++ " rejected: " ++ text reply }, .failed)
      else awaitLoop tls marker what n ws

/-- `await(marker, what)`. -/
def await (tls : Tls) (ws : AlpacaWebSocket) (marker : List UInt8) (what : String) :
    Option (AlpacaWebSocket × Outcome) :=
  awaitLoop tls marker what 10 ws

/-- `authenticate(key, secret)`. -/
def authenticate (tls : Tls) (ws : AlpacaWebSocket) (key secret : List UInt8) :
    Option (AlpacaWebSocket × Outcome) :=
  match ws.sendText tls (authMessage key secret) with
  | (ws, false) => some (ws, .failed)
  | (ws, true) => ws.await tls authMarker "auth"

/-- `subscribe(symbols, trades, quotes)`. -/
def subscribe (tls : Tls) (ws : AlpacaWebSocket) (symbols : List (List UInt8))
    (trades quotes : Bool) : Option (AlpacaWebSocket × Outcome) :=
  match ws.sendText tls (subscribeMessage symbols trades quotes) with
  | (ws, false) => some (ws, .failed)
  | (ws, true) => ws.await tls subscribeMarker "subscribe"

/-- `connect`, once its TLS connection stands, `authenticate` and `subscribe`, as `main` calls
them. -/
def login (tls : Tls) (ws : AlpacaWebSocket) (host path key secret : List UInt8)
    (symbols : List (List UInt8)) (trades quotes : Bool) : Option (AlpacaWebSocket × Outcome) :=
  match ws.httpUpgrade tls host path with
  | (ws, false) => some (ws, .failed)
  | (ws, true) => do
    match ← ws.authenticate tls key secret with
    | (ws, .accepted) => ws.subscribe tls symbols trades quotes
    | r => return r

end AlpacaWebSocket

/-! ### What waiting comes to -/

/-- What waiting for a message comes to. -/
inductive Reply where
  /-- It came, and these messages are behind it. -/
  | found (rest : List (List UInt8))
  /-- An error came, or too many other messages; the text is `error_`. -/
  | refused (error : String)
  /-- The messages ended. -/
  | ended

/-- What comes of waiting for a marker in the first `n` of some messages. -/
def replyTo (marker : List UInt8) (what : String) : ℕ → List (List UInt8) → Reply
  | 0, _ => .refused (what ++ ": no response after 10 frames")
  | _ + 1, [] => .ended
  | n + 1, msg :: msgs =>
    if (search marker msg).isSome then .found msgs
    else if (search errorMarker msg).isSome then .refused (what ++ " rejected: " ++ text msg)
    else replyTo marker what n msgs

/-- What comes of waiting for both confirmations. -/
def loginReply (msgs : List (List UInt8)) : Reply :=
  match replyTo authMarker "auth" 10 msgs with
  | .found rest => replyTo subscribeMarker "subscribe" 10 rest
  | r => r

/-! ### Waiting -/

namespace AlpacaWebSocket

open ServerFrame

variable {tls : Tls} {ws ws₁ : AlpacaWebSocket} {fs post : List ServerFrame} {marker : List UInt8}
  {what : String} {r : Outcome}

/-- The first message among some frames, if there is one. -/
theorem exists_first (hfs : ∀ f ∈ fs, f.Data ∨ f.Skipped) :
    (∀ f ∈ fs, f.Skipped) ∨ ∃ cs d rest, fs = cs ++ [d] ++ rest ∧ (∀ f ∈ cs, f.Skipped) ∧
      d.Data := by
  induction fs with
  | nil => exact .inl nofun
  | cons f fs ih =>
    obtain ⟨hf, hrest⟩ := List.forall_mem_cons.mp hfs
    rcases hf with hdata | hskip
    · exact .inr ⟨[], f, fs, rfl, nofun, hdata⟩
    · rcases ih hrest with hall | ⟨cs, d, rest, rfl, hcs, hd⟩
      · exact .inl (List.forall_mem_cons.mpr ⟨hskip, hall⟩)
      · exact .inr ⟨f :: cs, d, rest, rfl, List.forall_mem_cons.mpr ⟨hskip, hcs⟩, hd⟩

/-- What is waited for comes with the last of some frames, and not before. -/
structure Confirming (marker : List UInt8) (what : String) (n : ℕ) (pre : List ServerFrame) :
    Prop where
  /-- The last frame is a message. -/
  last : ∃ before d, pre = before ++ [d] ∧ d.Data
  /-- Among their messages it is the last one that is waited for. -/
  found : replyTo marker what n (messages pre) = .found []

/-- The client has come to what waiting comes to, and the frames that are left are `post`. -/
def Comes (reply : Reply) (ws₁ : AlpacaWebSocket) (r : Outcome) (post : List ServerFrame) : Prop :=
  match reply with
  | .found rest => r = .accepted ∧ messages post = rest
  | .refused error => r = .failed ∧ ws₁.error = error
  | .ended => r = .failed ∧ post = [] ∧ ws₁.error = "SSL_read"

/-- Behind the last frame `read_exact` fails. -/
theorem readPass_end_error (h : ws.pending = []) : (ws.readPass tls).1.error = "SSL_read" := by
  obtain ⟨hrx, hstream⟩ := List.append_eq_nil_iff.mp h
  have htake : ws.takeFrame tls = ({ ws with readCalls := ws.readCalls + 1 }.fail "SSL_read",
      .failed) := by
    simp [takeFrame, readExact, readUntil, sslRead, hrx, hstream, fail]
  rw [readPass, htake]
  rfl

/-- **The end** is found behind skipped frames. -/
theorem readFrame_ended (hd : tls.Delivers) (ha : tls.Answers (pings fs))
    (hfs : ∀ f ∈ fs, f.Skipped) (h : ws.pending = bytesOf fs) :
    ∃ ws₁ out, ws.readFrame tls = some (ws₁, .failed) ∧ ws₁.pending = [] ∧
      ws₁.written = ws.written ++ out ∧
      Pongs (pings fs) out ∧ ws₁.error = "SSL_read" := by
  obtain ⟨ws₁, out, k, h₁, hpend₁, hwritten₁, hpongs⟩ :=
    readFrame_skipped hd ha hfs (by rw [h, List.append_nil])
  obtain ⟨ws₂, h₂, hpend₂, hwritten₂⟩ := readPass_end hd hpend₁
  have herror : (ws₁.readPass tls).1.error = "SSL_read" := readPass_end_error hpend₁
  rw [h₂] at herror
  exact ⟨ws₂, out, by rw [h₁, frameLoop_some h₂], hpend₂, by rw [hwritten₂, hwritten₁],
    hpongs, herror⟩

/-- **Waiting** comes to what it does with the messages alone; the pings in between are answered. -/
theorem awaitLoop_spec (marker : List UInt8) (what : String) (hd : tls.Delivers)
    (ha : tls.Answers (pings fs)) (hfs : ∀ f ∈ fs, f.Data ∨ f.Skipped) (h : ws.pending = bytesOf fs)
    (n : ℕ) :
    ∃ ws₁ r pre post out, awaitLoop tls marker what n ws = some (ws₁, r) ∧ fs = pre ++ post ∧
      ws₁.pending = bytesOf post ∧
      ws₁.written = ws.written ++ out ∧ Pongs (pings pre) out ∧
        Comes (replyTo marker what n (messages fs)) ws₁ r post ∧
      (r = .accepted → Confirming marker what n pre) := by
  induction n generalizing ws fs with
  | zero =>
    exact ⟨_, _, [], fs, [], rfl, rfl, h, (List.append_nil _).symm, .nil, ⟨rfl, rfl⟩, nofun⟩
  | succ n ih =>
    rcases exists_first hfs with hall | ⟨cs, d, rest, rfl, hcs, hdata⟩
    · obtain ⟨ws₁, out, h₁, hpend, hwritten, hpongs, herror⟩ := readFrame_ended hd ha hall h
      refine ⟨ws₁, .failed, fs, [], out, by simp [awaitLoop, h₁],
        (List.append_nil _).symm, hpend, hwritten, hpongs,
        ?_, nofun⟩
      rw [messages_skipped hall]
      exact ⟨rfl, rfl, herror⟩
    · have hfirst : ∀ fs, messages (cs ++ [d] ++ fs) = d.payload :: messages fs := fun fs => by
        rw [messages_append, messages_append, messages_skipped hcs, messages_data hdata]
        rfl
      have hpings : pings (cs ++ [d]) = pings cs := by
        rw [pings_append, pings_single hdata.not_ping, List.append_nil]
      rw [bytesOf_append] at h
      rw [pings_append, hpings] at ha
      obtain ⟨ws₁, out, h₁, hpend, hwritten, hpongs⟩ :=
        readFrame_message hd (ha.mono fun p hp => List.mem_append_left _ hp) hcs hdata h
      simp only [awaitLoop, h₁, Option.bind_eq_bind, Option.bind_some, hfirst, replyTo]
      split_ifs with hmarker herror
      · refine ⟨ws₁, _, cs ++ [d], rest, out, rfl, rfl, hpend, hwritten, hpings ▸ hpongs,
          ⟨rfl, rfl⟩, fun _ => ⟨⟨cs, d, rfl, hdata⟩, ?_⟩⟩
        have hone := hfirst []
        rw [List.append_nil] at hone
        rw [hone, replyTo, if_pos hmarker]
        rfl
      · exact ⟨_, _, cs ++ [d], rest, out, rfl, rfl, hpend, hwritten,
          hpings ▸ hpongs, ⟨rfl, rfl⟩, nofun⟩
      · obtain ⟨ws₂, r, pre, post, more, h₂, rfl, hpend₂, hwritten₂, hpongs₂, hcomes,
            hconfirming⟩ :=
          ih (ha.mono fun p hp => List.mem_append_right _ hp)
            (fun f hf => hfs f (List.mem_append_right _ hf)) hpend
        refine ⟨ws₂, r, cs ++ [d] ++ pre, post, out ++ more, h₂, (List.append_assoc _ _ _).symm,
          hpend₂, ?_, ?_, hcomes, fun hr => ?_⟩
        · rw [hwritten₂, hwritten, List.append_assoc]
        · rw [pings_append, hpings]
          exact hpongs.append hpongs₂
        · obtain ⟨⟨before, last, rfl, hlast⟩, hfound⟩ := hconfirming hr
          refine ⟨⟨cs ++ [d] ++ before, last, (List.append_assoc _ _ _).symm, hlast⟩, ?_⟩
          rw [hfirst, replyTo, if_neg hmarker, if_neg herror]
          exact hfound

/-! ### Sending -/

/-- OpenSSL works: no call fails. -/
structure Works (tls : Tls) : Prop where
  /-- `SSL_read` gives bytes while there are any. -/
  reads : tls.Delivers
  /-- `SSL_write` takes bytes. -/
  writes : ∀ k, 0 < tls.writes k
  /-- `RAND_bytes` gives masks. -/
  masks : ∀ k, tls.masks k ≠ none

theorem length_frameOf (opcode : UInt8) (payload : List UInt8) (mask : Mask) :
    (frameOf opcode payload mask).length ≤ payload.length + 14 := by
  have hext := (LengthForm.shortest payload.length).length_extended payload.length
  have hle := (LengthForm.shortest payload.length).header_le
  simp only [frameOf, maskedLength_eq, List.length_append, List.length_cons, List.length_ofFn,
    List.length_mapIdx]
  omega

theorem Works.sends (hw : Works tls) {payload : List UInt8} (hlen : payload.length < 2 ^ 30)
    (opcode : UInt8) (mask : Mask) :
    Sends tls (frameOf opcode payload mask) := by
  have hle := length_frameOf opcode payload mask
  exact sends_of_small hw.writes (by omega)

theorem Works.answers (hw : Works tls) {ps : List (List UInt8)}
    (hps : ∀ p ∈ ps, p.length < 2 ^ 30) :
    tls.Answers ps :=
  ⟨hw.masks, fun p hp => hw.sends (hps p hp) opPong⟩

/-- A text is sent. -/
theorem Works.sendText (hw : Works tls) {payload : List UInt8} (hlen : payload.length < 2 ^ 30)
    (ws : AlpacaWebSocket) :
    ∃ ws₁ bs, ws.sendText tls payload = (ws₁, true) ∧ Sent ws ws₁ bs ∧
      IsClientFrame opText payload bs :=
  sendFrame_spec ws hw.masks (hw.sends hlen opText) (by omega)

/-! ### Requests and answers -/

/-- A request and the pongs behind it were written. -/
def Asked (payload : List UInt8) (pre : List ServerFrame) (bs : List UInt8) : Prop :=
  ∃ request pongs, bs = request ++ pongs ∧ IsClientFrame opText payload request ∧
    Pongs (pings pre) pongs

/-- **A request** is sent, and the answer is waited for. -/
theorem Works.ask (hw : Works tls) (marker : List UInt8) (what : String) {payload : List UInt8}
    (hlen : payload.length < 2 ^ 30) (hfs : ∀ f ∈ fs, f.Data ∨ f.Skipped)
    (hps : ∀ p ∈ pings fs, p.length < 2 ^ 30) (h : ws.pending = bytesOf fs) :
    ∃ ws₀ ws₁ r pre post bs, ws.sendText tls payload = (ws₀, true) ∧
      ws₀.await tls marker what = some (ws₁, r) ∧
      fs = pre ++ post ∧ ws₁.pending = bytesOf post ∧ ws₁.written = ws.written ++ bs ∧
        Asked payload pre bs ∧
      Comes (replyTo marker what 10 (messages fs)) ws₁ r post ∧
      (r = .accepted → Confirming marker what 10 pre) := by
  obtain ⟨ws₀, bs, h₀, hsent, hframe⟩ := hw.sendText hlen ws
  obtain ⟨ws₁, r, pre, post, out, h₁, hsplit, hpend, hwritten, hpongs, hcomes, hconfirming⟩ :=
    awaitLoop_spec marker what hw.reads (hw.answers hps) hfs (hsent.pending.trans h) 10
  exact ⟨ws₀, ws₁, r, pre, post, bs ++ out, h₀, h₁, hsplit,
    hpend, by rw [hwritten, hsent.written, List.append_assoc], ⟨bs, out, rfl, hframe, hpongs⟩,
    hcomes, hconfirming⟩

/-- Every message is read, and then the stream has ended. -/
theorem readFrames_all (hd : tls.Delivers) (ha : tls.Answers (pings fs))
    (hfs : ∀ f ∈ fs, f.Data ∨ f.Skipped) (h : ws.pending = bytesOf fs) :
    ∃ ws₁, readFrames tls ((messages fs).length + 1) ws =
      some (ws₁, (messages fs).map .message ++ [.failed]) ∧
      ws₁.pending = [] := by
  obtain ⟨pre, cs, rfl, hpre, hcs⟩ := exists_ended hfs
  rw [pings_append] at ha
  rw [bytesOf_append] at h
  obtain ⟨ws₁, -, h₁, hpend₁, -⟩ :=
    readFrames_messages hd hpre (ha.mono fun p hp => List.mem_append_left _ hp) h
  obtain ⟨ws₂, -, h₂, hpend₂, -⟩ :=
    readFrame_end hd (ha.mono fun p hp => List.mem_append_right _ hp) hcs hpend₁
  refine ⟨ws₂, ?_, hpend₂⟩
  rw [messages_append, messages_skipped hcs, List.append_nil]
  exact readFrames_snoc h₁ h₂

/-! ### The session -/

section Login

variable {header host path nonce key secret : List UInt8} {symbols : List (List UInt8)}
  {trades quotes : Bool}

/-- Frames that a server may send while OpenSSL works. -/
structure Manageable (fs : List ServerFrame) : Prop where
  /-- The frames are data, pings, pongs and continuations. -/
  kinds : ∀ f ∈ fs, f.Data ∨ f.Skipped
  /-- A pong can be written at once. -/
  pings : ∀ p ∈ pings fs, p.length < 2 ^ 30

theorem Manageable.right {pre : List ServerFrame} (h : Manageable (pre ++ post)) :
    Manageable post where
  kinds f hf := h.kinds f (List.mem_append_right _ hf)
  pings p hp := h.pings p (by rw [pings_append]; exact List.mem_append_right _ hp)

/-- **The session** comes to what the messages of the server make of it. -/
theorem Works.login (hw : Works tls) (hnonce : tls.nonce = some nonce)
    (hrequest : (request host path nonce).length < 2 ^ 31)
    (hauth : (authMessage key secret).length < 2 ^ 30)
    (hsubscribe : (subscribeMessage symbols trades quotes).length < 2 ^ 30)
    (hheader : search headerEnd header = some (header.length - 4))
    (hstatus : header.take 12 = ascii "HTTP/1.1 101") (hfs : Manageable fs) :
    ∃ ws r post, (connected (header ++ bytesOf fs)).login tls host path key secret symbols trades
        quotes = some (ws, r) ∧
      ws.pending = bytesOf post ∧ Manageable post ∧ Comes (loginReply (messages fs)) ws r post ∧
      ((∃ rest, loginReply (messages fs) = .found rest) → ∃ pre mid a s, fs = pre ++ mid ++ post ∧
        Confirming authMarker "auth" 10 pre ∧ Confirming subscribeMarker "subscribe" 10 mid ∧
        ws.written = request host path nonce ++ a ++ s ∧ Asked (authMessage key secret) pre a ∧
        Asked (subscribeMessage symbols trades quotes) mid s) := by
  obtain ⟨ws₁, h₁, hpend₁, hwritten₁⟩ := httpUpgrade_spec hw.reads hnonce
    (sends_of_small hw.writes hrequest) hheader hstatus
    (rfl : (connected (header ++ bytesOf fs)).pending = header ++ bytesOf fs)
  obtain ⟨ws₂, ws₃, r, pre, post, a, h₂, h₃, rfl, hpend₃, hwritten₃, ha, hcomes, hpre⟩ :=
    hw.ask authMarker "auth" hauth hfs.kinds hfs.pings hpend₁
  have hpost := hfs.right
  have hauthenticate : ws₁.authenticate tls key secret = some (ws₃, r) := by
    unfold authenticate
    rw [h₂]
    exact h₃
  simp only [AlpacaWebSocket.login, h₁, hauthenticate, Option.bind_eq_bind,
    Option.bind_some, loginReply]
  cases hreply : replyTo authMarker "auth" 10 (messages (pre ++ post)) with
  | refused error =>
    rw [hreply] at hcomes
    obtain ⟨rfl, herror⟩ := hcomes
    exact ⟨ws₃, .failed, post, rfl, hpend₃, hpost, ⟨rfl, herror⟩, fun ⟨_, hfound⟩ => nomatch hfound⟩
  | ended =>
    rw [hreply] at hcomes
    obtain ⟨rfl, hnone, herror⟩ := hcomes
    exact ⟨ws₃, .failed, post, rfl, hpend₃, hpost, ⟨rfl, hnone, herror⟩,
      fun ⟨_, hfound⟩ => nomatch hfound⟩
  | found rest =>
    rw [hreply] at hcomes
    obtain ⟨rfl, rfl⟩ := hcomes
    obtain ⟨ws₄, ws₅, r, mid, last, s, h₄, h₅, rfl, hpend₅, hwritten₅, hs, hcomes, hmid⟩ :=
      hw.ask subscribeMarker "subscribe" hsubscribe hpost.kinds hpost.pings hpend₃
    have hsub : ws₃.subscribe tls symbols trades quotes = some (ws₅, r) := by
      unfold subscribe
      rw [h₄]
      exact h₅
    refine ⟨ws₅, r, last, hsub, hpend₅, hpost.right, hcomes, fun ⟨rest, hfound⟩ => ?_⟩
    have hfound : replyTo subscribeMarker "subscribe" 10 (messages (mid ++ last)) = .found rest :=
      hfound
    rw [hfound] at hcomes
    refine ⟨pre, mid, a, s, (List.append_assoc _ _ _).symm, hpre rfl, hmid hcomes.1, ?_, ha, hs⟩
    rw [hwritten₅, hwritten₃, hwritten₁]
    rfl

/-- **The session does not depend on how the streams are cut**: behind a head that accepts the
upgrade, it is what the messages of the server's frames make of it; none of these closes the
connection. When both requests are confirmed, the client has sent the upgrade, the credentials and
the subscription, each followed by a pong for each ping before the message that confirmed it; and
the next calls of `read_frame` return every message behind the last of these, in order, and then
that the stream has ended. Otherwise it says why: the message that refused it, that ten messages
came, or that `SSL_read` failed. -/
theorem login_chunked (hw : Works tls) (hnonce : tls.nonce = some nonce)
    (hrequest : (request host path nonce).length < 2 ^ 31)
    (hauth : (authMessage key secret).length < 2 ^ 30)
    (hsubscribe : (subscribeMessage symbols trades quotes).length < 2 ^ 30)
    (hheader : search headerEnd header = some (header.length - 4))
    (hstatus : header.take 12 = ascii "HTTP/1.1 101") (hfs : Manageable fs) :
    ∃ ws r, login tls (connected (header ++ bytesOf fs)) host path key secret symbols trades
        quotes = some (ws, r) ∧
      match loginReply (messages fs) with
      | .found rest => r = .accepted ∧
          (∃ pre mid post a s, fs = pre ++ mid ++ post ∧ Confirming authMarker "auth" 10 pre ∧
            Confirming subscribeMarker "subscribe" 10 mid ∧ messages post = rest ∧
            ws.written = request host path nonce ++ a ++ s ∧ Asked (authMessage key secret) pre a ∧
            Asked (subscribeMessage symbols trades quotes) mid s) ∧
          ∃ ws₁, readFrames tls (rest.length + 1) ws = some (ws₁, rest.map .message ++ [.failed]) ∧
            ws₁.pending = []
      | .refused error => r = .failed ∧ ws.error = error
      | .ended => r = .failed ∧ ws.error = "SSL_read" ∧ ws.pending = [] := by
  obtain ⟨ws, r, post, h, hpend, hpost, hcomes, hwritten⟩ :=
    hw.login hnonce hrequest hauth hsubscribe hheader hstatus hfs
  refine ⟨ws, r, h, ?_⟩
  cases hreply : loginReply (messages fs) with
  | refused error =>
    rw [hreply] at hcomes
    exact hcomes
  | ended =>
    rw [hreply] at hcomes
    obtain ⟨hr, rfl, herror⟩ := hcomes
    exact ⟨hr, herror, hpend⟩
  | found rest =>
    rw [hreply] at hcomes
    obtain ⟨hr, rfl⟩ := hcomes
    obtain ⟨pre, mid, a, s, hsplit, hpre, hmid, hsent, ha, hs⟩ := hwritten ⟨_, hreply⟩
    exact ⟨hr, ⟨pre, mid, post, a, s, hsplit, hpre, hmid, rfl, hsent, ha, hs⟩,
      readFrames_all hw.reads (hw.answers hpost.pings) hpost.kinds hpend⟩

end Login

theorem slowTls_works : Works slowTls :=
  ⟨slowTls_delivers, fun _ => Nat.succ_pos 4, fun _ => Option.some_ne_none _⟩

theorem empty_fits : ([] : List UInt8).length < LengthForm.short.bound := by decide

/-- A whole message, or an empty one if the form has no room for it. -/
def unfragmented (opcode : Opcode) (form : LengthForm) (payload : List UInt8) : ServerFrame :=
  if h : payload.length < form.bound then ⟨true, opcode, form, payload, h⟩
    else ⟨true, opcode, .short, [], empty_fits⟩

/-- A greeting, a ping, both confirmations and a message. -/
def loginFrames : List ServerFrame :=
  [unfragmented .text .short (ascii "\x7b\"T\":\"success\",\"msg\":\"connected\"\x7d"),
    unfragmented .ping .short (ascii "p"),
    unfragmented .text .medium (ascii "\x7b\"T\":\"success\",\"msg\":\"authenticated\"\x7d"),
    unfragmented .text .short (ascii "\x7b\"T\":\"subscription\"\x7d"),
    unfragmented .binary .long (ascii "tick")]

theorem loginFrames_manageable : Manageable loginFrames where
  kinds f hf := by
    simp only [loginFrames, List.mem_cons, List.not_mem_nil, or_false] at hf
    rcases hf with rfl | rfl | rfl | rfl | rfl
    · exact .inl (.inl rfl)
    · exact .inr (.inl rfl)
    · exact .inl (.inl rfl)
    · exact .inl (.inl rfl)
    · exact .inl (.inr rfl)
  pings := by decide

theorem login_chunked_tick :
    ∃ ws ws₁, login slowTls (connected (ascii "HTTP/1.1 101 OK\r\n\r\n" ++ bytesOf loginFrames))
        (ascii "host") (ascii "/path") (ascii "key") (ascii "secret") [ascii "AAPL"] true false =
          some (ws, .accepted) ∧
      readFrames slowTls 2 ws = some (ws₁, [.message (ascii "tick"), .failed]) := by
  obtain ⟨ws, r, h, hreply⟩ :=
    @login_chunked slowTls loginFrames (ascii "HTTP/1.1 101 OK\r\n\r\n") (ascii "host")
      (ascii "/path") (List.replicate 16 7) (ascii "key") (ascii "secret") [ascii "AAPL"] true false
      slowTls_works rfl (by decide +kernel) (by decide +kernel) (by decide +kernel) rfl rfl
      loginFrames_manageable
  have hfound : loginReply (messages loginFrames) = .found [ascii "tick"] := rfl
  rw [hfound] at hreply
  obtain ⟨rfl, -, ws₁, hread, -⟩ := hreply
  exact ⟨ws, ws₁, h, hread⟩

end AlpacaWebSocket

end TradeFeed
