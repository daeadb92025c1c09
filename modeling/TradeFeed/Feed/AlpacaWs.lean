import TradeFeed.Lib.Bytes

/-!
# The WebSocket client

`AlpacaWebSocket` (`alpaca_ws.h`, `alpaca_ws.cpp`), once its TLS connection stands: the HTTP
upgrade, frames sent and frames received. What OpenSSL answers is given by `Tls`, and the
object keeps, besides its own fields, the bytes of the server that it has not read and
those that it has written. Lengths are 64-bit numbers, as in the source, and their sums
wrap.

`error_` is kept without the text that OpenSSL's error queue adds to it.
-/

namespace TradeFeed

open Lib.Bytes

/-- The bytes of a string literal. -/
def ascii (s : String) : List UInt8 := s.toList.map fun c => UInt8.ofNat c.toNat

/-- `uint8_t mask[4]`. -/
abbrev Mask := Fin 4 → UInt8

/-- What the calls of OpenSSL answer. -/
structure Tls where
  /-- The most bytes that a call of `SSL_read` gives; 0 is a failure. -/
  reads : ℕ → ℕ
  /-- The most bytes that a call of `SSL_write` takes; 0 is a failure. -/
  writes : ℕ → ℕ
  /-- The bytes of `RAND_bytes` for a mask. -/
  masks : ℕ → Option Mask
  /-- The bytes of `RAND_bytes` for the upgrade. -/
  nonce : Option (List UInt8)

/-- `class AlpacaWebSocket`, connected. -/
structure AlpacaWebSocket where
  /-- `rx_`. -/
  rx : List UInt8
  /-- `error_`. -/
  error : String
  /-- The bytes of the server that were not read. -/
  stream : List UInt8
  /-- The bytes written. -/
  written : List UInt8
  /-- How often `SSL_read` was called. -/
  readCalls : ℕ
  /-- How often `SSL_write` was called. -/
  writeCalls : ℕ
  /-- How often a mask was drawn. -/
  maskCalls : ℕ

/-! ### Opcodes and base64 -/

/-- `OP_TEXT`. -/
def opText : UInt8 := 0x1

/-- `OP_BINARY`. -/
def opBinary : UInt8 := 0x2

/-- `OP_CLOSE`. -/
def opClose : UInt8 := 0x8

/-- `OP_PING`. -/
def opPing : UInt8 := 0x9

/-- `OP_PONG`. -/
def opPong : UInt8 := 0xA

/-- The table of `base64`. -/
def base64Table (v : ℕ) : UInt8 :=
  (ascii "ABCDEFGHIJKLMNOPQRSTUVWXYZabcdefghijklmnopqrstuvwxyz0123456789+/").getD v 0

/-- `base64(data, len)`. -/
def base64 : List UInt8 → List UInt8
  | [] => []
  | [a] =>
    let v := a.toNat <<< 16
    [base64Table ((v >>> 18) &&& 0x3F), base64Table ((v >>> 12) &&& 0x3F)] ++ ascii "=="
  | [a, b] =>
    let v := (a.toNat <<< 16) ||| (b.toNat <<< 8)
    [base64Table ((v >>> 18) &&& 0x3F), base64Table ((v >>> 12) &&& 0x3F),
      base64Table ((v >>> 6) &&& 0x3F)] ++ ascii "="
  | a :: b :: c :: data =>
    let v := (a.toNat <<< 16) ||| (b.toNat <<< 8) ||| c.toNat
    [base64Table ((v >>> 18) &&& 0x3F), base64Table ((v >>> 12) &&& 0x3F),
      base64Table ((v >>> 6) &&& 0x3F), base64Table (v &&& 0x3F)] ++ base64 data

namespace AlpacaWebSocket

/-- The client once its connection stands. -/
def connected (stream : List UInt8) : AlpacaWebSocket := ⟨[], "", stream, [], 0, 0, 0⟩

/-! ### Writing -/

/-- `fail(what)`. -/
def fail (ws : AlpacaWebSocket) (what : String) : AlpacaWebSocket := { ws with error := what }

/-- The loop of `write_all`; every pass sends a byte or fails, so `fuel` bytes need as many. -/
def writeLoop (tls : Tls) : ℕ → AlpacaWebSocket → List UInt8 → AlpacaWebSocket × Bool
  | 0, ws, _ => (ws, true)
  | fuel + 1, ws, data =>
    if data = [] then (ws, true)
    else
      -- the cast of the length to `int`: OpenSSL fails on what is not positive
      let len := data.length % 2 ^ 32
      let n := if len < 2 ^ 31 then min (tls.writes ws.writeCalls) len else 0
      let ws := { ws with writeCalls := ws.writeCalls + 1 }
      if n = 0 then (ws.fail "SSL_write", false)
      else writeLoop tls fuel { ws with written := ws.written ++ data.take n } (data.drop n)

/-- `write_all(data, len)`. -/
def writeAll (tls : Tls) (ws : AlpacaWebSocket) (data : List UInt8) : AlpacaWebSocket × Bool :=
  writeLoop tls data.length ws data

/-- The length in the header of a frame that is sent. -/
def maskedLength (len : ℕ) : List UInt8 :=
  if len < 126 then [UInt8.ofNat (0x80 ||| len)]
  else if len ≤ 0xFFFF then
    [0x80 ||| 126, UInt8.ofNat ((len >>> 8) &&& 0xFF), UInt8.ofNat (len &&& 0xFF)]
  else (0x80 ||| 127) :: [7, 6, 5, 4, 3, 2, 1, 0].map fun i =>
    UInt8.ofNat ((len >>> (i * 8)) &&& 0xFF)

/-- The frame that `send_frame` builds. -/
def frameOf (opcode : UInt8) (payload : List UInt8) (mask : Mask) : List UInt8 :=
  (0x80 ||| opcode) :: maskedLength payload.length ++ List.ofFn mask ++
    payload.mapIdx fun i b => b ^^^ mask (Fin.ofNat 4 i)

/-- `send_frame(opcode, payload, len)`. -/
def sendFrame (tls : Tls) (ws : AlpacaWebSocket) (opcode : UInt8) (payload : List UInt8) :
    AlpacaWebSocket × Bool :=
  let mask := tls.masks ws.maskCalls
  let ws := { ws with maskCalls := ws.maskCalls + 1 }
  match mask with
  | none => (ws.fail "RAND_bytes", false)
  | some mask => ws.writeAll tls (frameOf opcode payload mask)

/-! ### Reading -/

/-- `SSL_read` into a buffer of `size` bytes; no bytes are a failure. -/
def sslRead (tls : Tls) (ws : AlpacaWebSocket) (size : ℕ) : AlpacaWebSocket × List UInt8 :=
  let bs := ws.stream.take (min (tls.reads ws.readCalls) size)
  ({ ws with stream := ws.stream.drop bs.length, readCalls := ws.readCalls + 1 }, bs)

/-- A loop that reads until `rx_` has what is wanted. Every pass reads a byte or fails. -/
def readUntil (tls : Tls) (size : ℕ) (what : String) (wanted : List UInt8 → Bool) :
    ℕ → AlpacaWebSocket → AlpacaWebSocket × Bool
  | 0, ws => (ws, wanted ws.rx)
  | fuel + 1, ws =>
    if wanted ws.rx then (ws, true)
    else
      let (ws, bs) := ws.sslRead tls size
      if bs = [] then (ws.fail what, false)
      else readUntil tls size what wanted fuel { ws with rx := ws.rx ++ bs }

/-- `read_exact(n)`. -/
def readExact (tls : Tls) (ws : AlpacaWebSocket) (n : UInt64) : AlpacaWebSocket × Bool :=
  readUntil tls 16384 "SSL_read" (fun rx => decide (n.toNat ≤ rx.length)) (ws.stream.length + 1) ws

/-- `"\r\n\r\n"`. -/
def headerEnd : List UInt8 := ascii "\r\n\r\n"

/-- The loop of `http_upgrade`. -/
def readHeader (tls : Tls) (ws : AlpacaWebSocket) : AlpacaWebSocket × Bool :=
  readUntil tls 1024 "handshake read" (fun rx => (search headerEnd rx).isSome)
    (ws.stream.length + 1) ws

/-- The request that `http_upgrade` sends. -/
def request (host path nonce : List UInt8) : List UInt8 :=
  ascii "GET " ++ path ++ ascii " HTTP/1.1\r\n" ++ ascii "Host: " ++ host ++ ascii "\r\n" ++
    ascii "Upgrade: websocket\r\n" ++ ascii "Connection: Upgrade\r\n" ++
    ascii "Sec-WebSocket-Key: " ++ base64 nonce ++ ascii "\r\n" ++
      ascii "Sec-WebSocket-Version: 13\r\n\r\n"

/-- `http_upgrade(host, path)`. -/
def httpUpgrade (tls : Tls) (ws : AlpacaWebSocket) (host path : List UInt8) :
    AlpacaWebSocket × Bool :=
  match tls.nonce with
  | none => (ws.fail "RAND_bytes", false)
  | some nonce =>
    let (ws, ok) := ws.writeAll tls (request host path nonce)
    if !ok then (ws, false)
    else
      let (ws, ok) := ws.readHeader tls
      if !ok then (ws, false)
      else if ws.rx.take 12 ≠ ascii "HTTP/1.1 101" then
        let line := ws.rx.take ((search (ascii "\r\n") ws.rx).getD ws.rx.length)
        (ws.fail ("upgrade rejected: " ++ String.ofList (line.map fun b => Char.ofNat b.toNat)),
          false)
      else
        -- keep any frame bytes that arrived
        ({ ws with rx := ws.rx.drop ((search headerEnd ws.rx).getD 0 + 4) }, true)

/-- Bytes of a length, the highest first. -/
def lengthOf (bs : List UInt8) : UInt64 := bs.foldl (fun len b => (len <<< 8) ||| b.toUInt64) 0

/-- What reading a frame came to. -/
inductive Wire where
  /-- A frame. -/
  | frame (opcode : UInt8) (payload : List UInt8)
  /-- The connection failed. -/
  | failed
  /-- `substr` threw `out_of_range`. -/
  | threw

/-- The length in the header of a frame, and the size of the header. -/
def readLength (tls : Tls) (ws : AlpacaWebSocket) (b1 : UInt8) :
    AlpacaWebSocket × Option (UInt64 × UInt64) :=
  let len := (b1 &&& 0x7F).toUInt64
  if len = 126 then
    let (ws, ok) := ws.readExact tls 4
    if !ok then (ws, none)
    else (ws, some (((ws.rx.getD 2 0).toUInt64 <<< 8) ||| (ws.rx.getD 3 0).toUInt64, 4))
  else if len = 127 then
    let (ws, ok) := ws.readExact tls 10
    if !ok then (ws, none)
    else (ws, some (lengthOf ((ws.rx.drop 2).take 8), 10))
  else (ws, some (len, 2))

/-- `read_frame` up to the switch: the next frame is taken out of `rx_`. -/
def takeFrame (tls : Tls) (ws : AlpacaWebSocket) : AlpacaWebSocket × Wire :=
  let (ws, ok) := ws.readExact tls 2
  if !ok then (ws, .failed)
  else
    let b0 := ws.rx.getD 0 0
    let b1 := ws.rx.getD 1 0
    let opcode := b0 &&& 0x0F
    match ws.readLength tls b1 with
    | (ws, none) => (ws, .failed)
    | (ws, some (len, hdr)) =>
      let hdr := if b1 &&& 0x80 ≠ 0 then hdr + 4 else hdr
      let (ws, ok) := ws.readExact tls (hdr + len)
      if !ok then (ws, .failed)
      else if ws.rx.length < hdr.toNat then (ws, .threw)
      else
        let payload := (ws.rx.drop hdr.toNat).take len.toNat
        ({ ws with rx := ws.rx.drop (hdr + len).toNat }, .frame opcode payload)

/-- What `read_frame` returns. -/
inductive Read where
  /-- A message: true, and `out`. -/
  | message (payload : List UInt8)
  /-- False. -/
  | failed
  /-- It threw. -/
  | threw
  deriving DecidableEq

/-- The switch of `read_frame`; `none` goes on with the loop. -/
def dispatch (tls : Tls) (ws : AlpacaWebSocket) (opcode : UInt8) (payload : List UInt8) :
    AlpacaWebSocket × Option Read :=
  if opcode = opText ∨ opcode = opBinary then (ws, some (.message payload))
  else if opcode = opPing then
    let (ws, ok) := ws.sendFrame tls opPong payload
    (ws, if !ok then some .failed else none)
  else if opcode = opPong then (ws, none)
  else if opcode = opClose then ({ ws with error := "server closed connection" }, some .failed)
  else (ws, none)

/-- A pass of the loop of `read_frame`. -/
def readPass (tls : Tls) (ws : AlpacaWebSocket) : AlpacaWebSocket × Option Read :=
  match ws.takeFrame tls with
  | (ws, .frame opcode payload) => ws.dispatch tls opcode payload
  | (ws, .failed) => (ws, some .failed)
  | (ws, .threw) => (ws, some .threw)

/-- The loop of `read_frame`. -/
def frameLoop (tls : Tls) : ℕ → AlpacaWebSocket → Option (AlpacaWebSocket × Read)
  | 0, _ => none
  | fuel + 1, ws =>
    match ws.readPass tls with
    | (ws, some r) => some (ws, r)
    | (ws, none) => frameLoop tls fuel ws

/-- `read_frame(out)`. A pass that takes no byte out of `rx_` is repeated without end; the
others are fewer than the bytes. -/
def readFrame (tls : Tls) (ws : AlpacaWebSocket) : Option (AlpacaWebSocket × Read) :=
  frameLoop tls (ws.rx.length + ws.stream.length + 1) ws

/-- So many calls of `read_frame`. -/
def readFrames (tls : Tls) : ℕ → AlpacaWebSocket → Option (AlpacaWebSocket × List Read)
  | 0, ws => some (ws, [])
  | n + 1, ws => do
    let (ws, r) ← ws.readFrame tls
    let (ws, rs) ← readFrames tls n ws
    return (ws, r :: rs)

end AlpacaWebSocket

end TradeFeed
