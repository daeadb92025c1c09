import TradeFeed.Feed.Session
import TradeFeed.Feed.ServerDecoder
import TradeFeed.Feed.Upgrade
import TradeFeed.Lib.PlainJson

/-!
# What the server reads of a session

`authenticate` and `subscribe` put the key, the secret and the symbols between quotes as they are.
Each request is a JSON text of the object that is meant exactly when none of them has a byte that
needs an escape (`requests_json_iff`).

A server that decodes all that a session writes finds the head of the upgrade and then the frames of
the two requests, each followed by a pong for each ping that came before its answer, and nothing
else (`session_read`).
-/

namespace TradeFeed

open Lib Lib.Bytes Lib.Json Lib.Http

/-! ### The requests as JSON -/

/-- What `authenticate` means to send. -/
def authDatum (key secret : List UInt8) : Datum :=
  .object [(ascii "action", .string (ascii "auth")), (ascii "key", .string key),
    (ascii "secret", .string secret)]

/-- What `subscribe` means to send. -/
def subscribeDatum (symbols : List (List UInt8)) (trades quotes : Bool) : Datum :=
  .object ((ascii "action", .string (ascii "subscribe")) ::
    ((if trades then [(ascii "trades", .array (symbols.map .string))] else []) ++
      if quotes then [(ascii "quotes", .array (symbols.map .string))] else []))

theorem authMessage_eq (key secret : List UInt8) :
    authMessage key secret = (authDatum key secret).naive := by
  have hfirst : ascii "\x7b\"action\":\"auth\",\"key\":\"" =
      123 :: (quoted (ascii "action") ++ 58 ::
        (quoted (ascii "auth") ++ 44 :: (quoted (ascii "key") ++ [58, 34]))) := rfl
  have hsecond : ascii "\",\"secret\":\"" = 34 :: 44 :: (quoted (ascii "secret") ++ [58, 34]) := rfl
  have hlast : ascii "\"\x7d" = [34, 125] := rfl
  rw [authMessage, hfirst, hsecond, hlast]
  simp [authDatum, Datum.naive, membersNaive, comma, quoted]

/-- The array of some strings, without its brackets. -/
theorem jsonArray_items (first : Bool) (v : List (List UInt8)) :
    (v.mapIdx fun i s => (if first = true ∧ i = 0 then [] else ascii ",") ++ ascii "\"" ++ s ++
      ascii "\"").flatten =
      itemsNaive first (v.map .string) := by
  have hcomma : ∀ first : Bool, (if first = true then [] else ascii ",") = comma first := by decide
  have hquote : ascii "\"" = [34] := rfl
  induction v generalizing first with
  | nil => rfl
  | cons s v ih =>
    have hrest := ih false
    simp only [Bool.false_eq_true, false_and, if_false] at hrest
    rw [List.mapIdx_cons, List.flatten_cons, List.map_cons, itemsNaive]
    simp only [Nat.succ_ne_zero, and_false, if_false, and_true]
    rw [hrest, hcomma, hquote]
    simp [Datum.naive, quoted]

theorem jsonArray_eq (v : List (List UInt8)) :
    jsonArray v = (Datum.array (v.map .string)).naive := by
  have hitems := jsonArray_items true v
  simp only [true_and] at hitems
  rw [jsonArray, hitems, Datum.naive]
  rfl

theorem subscribeMessage_eq (symbols : List (List UInt8)) (trades quotes : Bool) :
    subscribeMessage symbols trades quotes = (subscribeDatum symbols trades quotes).naive := by
  have hfirst : ascii "\x7b\"action\":\"subscribe\"" = 123 ::
    (quoted (ascii "action") ++ 58 :: quoted (ascii "subscribe")) := rfl
  have htrades : ascii ",\"trades\":" = 44 :: (quoted (ascii "trades") ++ [58]) := rfl
  have hquotes : ascii ",\"quotes\":" = 44 :: (quoted (ascii "quotes") ++ [58]) := rfl
  have hlast : ascii "\x7d" = [125] := rfl
  rw [subscribeMessage, jsonArray_eq, hfirst, htrades, hquotes, hlast]
  cases trades <;> cases quotes <;> simp [subscribeDatum, Datum.naive, membersNaive, comma, quoted]

theorem itemsStrings_map (v : List (List UInt8)) : itemsStrings (v.map .string) = v := by
  induction v with
  | nil => rfl
  | cons s v ih => rw [List.map_cons, itemsStrings, ih, Datum.strings, List.singleton_append]

theorem authDatum_plain_iff (key secret : List UInt8) :
    (authDatum key secret).Plain ↔ Each IsPlain key ∧ Each IsPlain secret := by
  have hfixed : ∀ l ∈ [ascii "action", ascii "auth", ascii "key", ascii "secret"],
    Each IsPlain l := by decide +kernel
  simp only [List.forall_mem_cons, List.not_mem_nil, false_imp_iff, implies_true,
    and_true] at hfixed
  obtain ⟨haction, hauth, hkey, hsecret⟩ := hfixed
  simp [Datum.Plain, authDatum, Datum.strings, membersStrings, haction, hauth, hkey, hsecret]

theorem subscribeDatum_plain_iff (symbols : List (List UInt8)) (trades quotes : Bool) :
    (subscribeDatum symbols trades quotes).Plain ↔
      ((trades || quotes) = true → ∀ s ∈ symbols, Each IsPlain s) := by
  have hfixed : ∀ l ∈ [ascii "action", ascii "subscribe", ascii "trades", ascii "quotes"],
    Each IsPlain l := by decide +kernel
  simp only [List.forall_mem_cons, List.not_mem_nil, false_imp_iff, implies_true,
    and_true] at hfixed
  obtain ⟨haction, hsubscribe, htrades, hquotes⟩ := hfixed
  cases trades <;> cases quotes <;>
    simp [Datum.Plain, subscribeDatum, Datum.strings, membersStrings, itemsStrings_map, or_imp,
      forall_and, haction, hsubscribe, htrades, hquotes]

/-- **The requests as JSON**: what `authenticate` sends is a text of the object that is meant
exactly when the key and the secret need no escapes; and so for `subscribe`, if it asks for
anything, and the symbols. -/
theorem requests_json_iff (key secret : List UInt8) (symbols : List (List UInt8))
    (trades quotes : Bool) :
    ((authDatum key secret).Means (authMessage key secret) ↔
      Each IsPlain key ∧ Each IsPlain secret) ∧
      ((subscribeDatum symbols trades quotes).Means (subscribeMessage symbols trades quotes) ↔
        ((trades || quotes) = true → ∀ s ∈ symbols, Each IsPlain s)) := by
  rw [authMessage_eq, subscribeMessage_eq, Datum.means_naive_iff, Datum.means_naive_iff]
  exact ⟨authDatum_plain_iff key secret, subscribeDatum_plain_iff symbols trades quotes⟩

/-! ### The frames of a session -/

/-- The first frames of some bytes, so many at most, and what is behind them. -/
def decodeFrames : ℕ → List UInt8 → List ClientFrame × List UInt8
  | 0, bs => ([], bs)
  | n + 1, bs =>
    match decodeFrame bs with
    | none => ([], bs)
    | some (f, rest) => (f :: (decodeFrames n rest).1, (decodeFrames n rest).2)

/-- What a frame is for: its opcode and its payload. -/
def ClientFrame.content (f : ClientFrame) : UInt8 × List UInt8 := (f.opcode, f.payload)

/-- A frame as a client has to send it: it is whole, and masked. -/
structure ClientFrame.Proper (f : ClientFrame) : Prop where
  /-- FIN is set. -/
  fin : f.fin = true
  /-- The reserved bits are not. -/
  reserved : f.reserved = 0
  /-- It is masked. -/
  masked : f.masked = true

/-- The bytes of frames of these contents, one after the other. -/
inductive Carries : List (UInt8 × List UInt8) → List UInt8 → Prop where
  /-- No frame. -/
  | nil : Carries [] []
  /-- A frame, and the others. -/
  | cons {opcode : UInt8} {payload bs out : List UInt8} {cs : List (UInt8 × List UInt8)} :
    opcode < 16 → IsClientFrame opcode payload bs → Carries cs out →
      Carries ((opcode, payload) :: cs) (bs ++ out)

theorem unmask_ofFn (mask : Mask) (bs : List UInt8) :
    unmask (List.ofFn mask) bs =
      bs.mapIdx fun i b => b ^^^ mask ⟨i % 4, Nat.mod_lt i (Nat.succ_pos 3)⟩ := by
  rw [unmask]
  congr 1
  funext i b
  rw [List.getD_eq_getElem _ _ (by simpa using Nat.mod_lt i (Nat.succ_pos 3)), List.getElem_ofFn]

/-- A frame is decoded, whatever is behind it. -/
theorem IsClientFrame.decode {opcode : UInt8} {payload bs : List UInt8} (hop : opcode < 16)
    (h : IsClientFrame opcode payload bs) (rest : List UInt8) :
    ∃ f : ClientFrame, decodeFrame (bs ++ rest) = some (f, rest) ∧ f.Proper ∧
      f.content = (opcode, payload) := by
  obtain ⟨form, mask, masked, hfits, hmasked, rfl⟩ := h
  obtain ⟨hmask, hform, hlen⟩ := second_masked hfits
  obtain ⟨hfin, hreserved, hopcode⟩ := first_sent hop
  have hextra : (form.extended payload.length).length = form.extra := by
    have hext := form.length_extended payload.length
    cases form <;> simpa [LengthForm.header, LengthForm.extra] using hext
  have hlength : masked.length = payload.length := by rw [← hmasked, List.length_mapIdx]
  refine ⟨⟨true, 0, opcode, true, form, payload⟩, ?_, ⟨rfl, rfl, rfl⟩, rfl⟩
  rw [List.cons_append, List.cons_append, List.cons_append, List.cons_append, List.cons_append,
    List.cons_append, decodeFrame]
  simp only [decide_eq_true hmask, hform, hlen, decide_eq_true hfin, hreserved, hopcode, if_true,
    List.append_assoc, takeBytes_append hextra, takeBytes_append (List.length_ofFn (f := mask)),
    takeBytes_append hlength, Option.bind_eq_bind, Option.bind_some, unmask_ofFn, hmasked]
  rfl

namespace Carries

variable {cs cs' : List (UInt8 × List UInt8)} {bs bs' : List UInt8}

theorem append (h : Carries cs bs) (h' : Carries cs' bs') : Carries (cs ++ cs') (bs ++ bs') := by
  induction h with
  | nil => exact h'
  | cons hop hframe hout ih =>
    rw [List.append_assoc]
    exact .cons hop hframe ih

/-- There are no more frames than bytes. -/
theorem length_le (h : Carries cs bs) : cs.length ≤ bs.length := by
  induction h with
  | nil => exact le_rfl
  | cons hop hframe hout ih =>
    obtain ⟨form, mask, masked, -, -, rfl⟩ := hframe
    simp only [List.length_append, List.length_cons]
    omega

/-- **Frames that were sent** one after the other are decoded one after the other, with nothing
behind them. -/
theorem decode (h : Carries cs bs) {n : ℕ} (hn : cs.length ≤ n) :
    ∃ frames, decodeFrames n bs = (frames, []) ∧ (∀ f ∈ frames, f.Proper) ∧
      frames.map ClientFrame.content = cs := by
  induction h generalizing n with
  | nil => cases n <;> exact ⟨[], rfl, nofun, rfl⟩
  | cons hop hframe hout ih =>
    obtain ⟨n, rfl⟩ := Nat.exists_eq_add_of_le' (Nat.le_trans (Nat.succ_le_succ (Nat.zero_le _)) hn)
    obtain ⟨f, hf, hproper, hcontent⟩ := hframe.decode hop _
    obtain ⟨frames, hframes, hall, hrest⟩ := ih (Nat.le_of_succ_le_succ hn)
    refine ⟨f :: frames, ?_, List.forall_mem_cons.mpr ⟨hproper, hall⟩, by rw [List.map_cons,
      hcontent, hrest]⟩
    rw [decodeFrames, hf]
    simp only [hframes]

end Carries

/-- What is sent for some pings. -/
def pongs (ps : List (List UInt8)) : List (UInt8 × List UInt8) := ps.map (opPong, ·)

theorem Pongs.carries {ps : List (List UInt8)} {bs : List UInt8} (h : Pongs ps bs) :
    Carries (pongs ps) bs := by
  induction h with
  | nil => exact .nil
  | cons hframe hout ih => exact .cons (by decide) hframe ih

namespace AlpacaWebSocket

open ServerFrame

variable {tls : Tls} {fs : List ServerFrame}

theorem Asked.carries {payload bs : List UInt8} {pre : List ServerFrame}
    (h : Asked payload pre bs) :
    Carries ((opText, payload) :: pongs (pings pre)) bs := by
  obtain ⟨request, out, rfl, hframe, hpongs⟩ := h
  exact .cons (by decide) hframe hpongs.carries

/-- **What the server reads of a session**: when both requests are confirmed, and nothing in the
upgrade ends early, it reads the head of the upgrade, with the nonce in it, and behind it whole
masked frames and nothing else: the credentials, a pong for each ping up to the message that
confirmed them, the subscription, and a pong for each ping from there up to the message that
confirmed this. -/
theorem session_read {header host path nonce key secret : List UInt8}
    {symbols rest : List (List UInt8)} {trades quotes : Bool} (hw : Works tls)
    (hnonce : tls.nonce = some nonce) (hrequest : (request host path nonce).length < 2 ^ 31)
    (hauth : (authMessage key secret).length < 2 ^ 30)
    (hsubscribe : (subscribeMessage symbols trades quotes).length < 2 ^ 30)
    (hheader : search headerEnd header = some (header.length - 4))
    (hstatus : header.take 12 = ascii "HTTP/1.1 101") (hfs : Manageable fs)
    (hfound : loginReply (messages fs) = .found rest) (hclear : Clear host path) :
    ∃ ws pre mid post accept bs frames,
      login tls (connected (header ++ bytesOf fs)) host path key secret symbols trades quotes =
        some (ws, .accepted) ∧
      fs = pre ++ mid ++ post ∧ Confirming authMarker "auth" 10 pre ∧
      Confirming subscribeMarker "subscribe" 10 mid ∧
      messages post = rest ∧ base64Alphabet.decode accept = some nonce ∧
      Head.read ws.written = some (upgradeHead host path accept, bs) ∧
      decodeFrames bs.length bs = (frames, []) ∧
      (∀ f ∈ frames, f.Proper) ∧
      frames.map ClientFrame.content = (opText, authMessage key secret) :: pongs (pings pre) ++
        (opText, subscribeMessage symbols trades quotes) :: pongs (pings mid) := by
  obtain ⟨ws, r, post, h, -, -, hcomes, hwritten⟩ :=
    hw.login hnonce hrequest hauth hsubscribe hheader hstatus hfs
  rw [hfound] at hcomes
  obtain ⟨rfl, hrest⟩ := hcomes
  obtain ⟨pre, mid, a, s, hsplit, hpre, hmid, hsent, ha, hs⟩ := hwritten ⟨_, hfound⟩
  have hcarries := ha.carries.append hs.carries
  obtain ⟨frames, hframes, hproper, hcontent⟩ := hcarries.decode hcarries.length_le
  have hread : Head.read ws.written = some (upgradeHead host path (base64 nonce), a ++ s) := by
    rw [hsent, List.append_assoc, request_eq]
    exact Head.read_eq_some_iff.mpr ⟨rfl, hclear.wellFormed (base64_clear nonce)⟩
  exact ⟨ws, pre, mid, post, base64 nonce, a ++ s, frames, h, hsplit, hpre, hmid, hrest,
    by rw [base64_eq, base64Alphabet.decode_encode], hread, hframes, hproper, hcontent⟩

theorem session_read_tick :
    ∃ ws accept bs,
      login slowTls (connected (ascii "HTTP/1.1 101 OK\r\n\r\n" ++ bytesOf loginFrames))
        (ascii "host") (ascii "/path") (ascii "key") (ascii "secret") [ascii "AAPL"] true false =
          some (ws, .accepted) ∧
      Head.read ws.written = some (upgradeHead (ascii "host") (ascii "/path") accept, bs) ∧
      (decodeFrames bs.length bs).2 = [] := by
  obtain ⟨ws, pre, mid, post, accept, bs, frames, h, -, -, -, -, -, hread, hframes, -⟩ :=
    @session_read slowTls loginFrames (ascii "HTTP/1.1 101 OK\r\n\r\n") (ascii "host")
      (ascii "/path") (List.replicate 16 7) (ascii "key") (ascii "secret") [ascii "AAPL"]
      [ascii "tick"] true false slowTls_works rfl (by decide +kernel) (by decide +kernel)
      (by decide +kernel) rfl rfl loginFrames_manageable rfl ⟨by decide, by decide, by decide⟩
  exact ⟨ws, accept, bs, h, hread, by rw [hframes]⟩

end AlpacaWebSocket

end TradeFeed
