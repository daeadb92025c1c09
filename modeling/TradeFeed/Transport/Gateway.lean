import TradeFeed.Codec.WireMessage

/-!
# The gateway

`Gateway` (`socket_transport.h`): 64 slots for clients, each with a descriptor and a buffer
for one frame. What the operating system answers (a new descriptor, the bytes that `recv`
finds, how many bytes `send` takes) is an argument of each operation. The rings are left
out: an operation gives the messages that it pushes, and takes those that it pops.

A function returns `none` where the source's behaviour is undefined: a length that would
be negative, or bytes stored outside the buffer.
-/

namespace TradeFeed

/-- `MAX_CLIENTS`. -/
def maxClients : ℕ := 64

/-- `char read_buf[WIRE_MSG_SIZE]`. -/
structure ReadBuf where
  /-- The bytes. -/
  bytes : List UInt8
  /-- There are as many as in a frame. -/
  length_eq : bytes.length = wireMsgSize

namespace ReadBuf

/-- A value-initialised buffer. -/
def zero : ReadBuf := ⟨List.replicate wireMsgSize 0, List.length_replicate⟩

/-- Store bytes at a position of the buffer, and not outside of it. -/
def store (buf : ReadBuf) (pos : ℕ) (bs : List UInt8) : Option ReadBuf :=
  if h : pos + bs.length ≤ wireMsgSize then
    some ⟨buf.bytes.take pos ++ bs ++ buf.bytes.drop (pos + bs.length), by
      rw [List.length_append, List.length_append, List.length_take, List.length_drop, buf.length_eq]
      omega⟩
  else none

/-- Bytes that fit are stored behind those before the position. -/
theorem store_eq (buf : ReadBuf) {pos : ℕ} {bs : List UInt8} (h : pos + bs.length ≤ wireMsgSize) :
    ∃ buf', buf.store pos bs = some buf' ∧ buf'.bytes.take (pos + bs.length) =
      buf.bytes.take pos ++ bs := by
  refine ⟨_, dif_pos h, ?_⟩
  have hlen : (buf.bytes.take pos ++ bs).length = pos + bs.length := by
    rw [List.length_append, List.length_take, buf.length_eq]
    omega
  exact List.take_left' hlen

end ReadBuf

/-- `struct ClientState`. -/
structure ClientState where
  /-- The descriptor. -/
  fd : ℤ
  /-- Whether the slot is in use. -/
  active : Bool
  /-- The frame that is being received. -/
  readBuf : ReadBuf
  /-- How many bytes of it have been. -/
  readPos : ℕ

/-- What `recv` finds: some bytes, or none when the connection was closed; nothing yet
(`EAGAIN`); another error. -/
inductive Recv where
  /-- Bytes of the stream. -/
  | bytes (bs : List UInt8)
  /-- It would block. -/
  | again
  /-- It failed. -/
  | error

/-- `recv` gives no more bytes than it is asked for. -/
def Recv.upTo (len : ℕ) : Recv → Recv
  | .bytes bs => .bytes (bs.take len)
  | .again => .again
  | .error => .error

/-- What `send` answers: how many of the bytes it took, or that it failed and took none. -/
inductive SendResult where
  /-- It took so many. -/
  | took (k : ℕ)
  /-- It failed. -/
  | failed

/-- The bytes that `send` took, of those that it was given. -/
def SendResult.taken (r : SendResult) (bs : List UInt8) : List UInt8 :=
  match r with
  | .took k => bs.take k
  | .failed => []

/-- A pass of the loop of `read_client`. -/
inductive Pass where
  /-- The loop ends, and the client is disconnected or not. -/
  | stop (disconnect : Bool)
  /-- Bytes were received, and messages pushed. -/
  | more (c : ClientState) (received : List UInt8) (pushed : List InboundMessage)

/-- A pass of the loop, when `recv` finds `r` and the counter reads `tsc`. -/
def readOnce (c : ClientState) (r : Recv) (tsc : Timestamp) : Option Pass :=
  if wireMsgSize < c.readPos then none
  else match r.upTo (wireMsgSize - c.readPos) with
    | .again => some (.stop false)
    | .error => some (.stop true)
    | .bytes [] => some (.stop true)
    | .bytes bs => do
      let buf ← c.readBuf.store c.readPos bs
      let c := { c with readBuf := buf, readPos := c.readPos + bs.length }
      if c.readPos ≥ wireMsgSize then
        let wire := WireMessage.ofBytes c.readBuf.bytes
        return .more { c with readPos := 0 } bs [wire.inbound tsc]
      else return .more c bs []

/-- What the loop of `read_client` did. -/
structure Reading where
  /-- The slot after it. -/
  client : ClientState
  /-- Whether the client is disconnected. -/
  disconnect : Bool
  /-- The bytes received. -/
  received : List UInt8
  /-- The messages pushed. -/
  pushed : List InboundMessage
  /-- `read_pos` at each call of `recv`. -/
  positions : List ℕ

/-- The loop of `read_client`, when its calls of `recv` find `rs` and then nothing. -/
def readLoop (c : ClientState) : List (Recv × Timestamp) → Option Reading
  | [] => (readOnce c .again 0).map fun _ => ⟨c, false, [], [], [c.readPos]⟩
  | (r, tsc) :: rs => do
    match ← readOnce c r tsc with
    | .stop d => return ⟨c, d, [], [], [c.readPos]⟩
    | .more c' bs msgs =>
      let rest ← readLoop c' rs
      return { rest with
        received := bs ++ rest.received, pushed := msgs ++ rest.pushed,
        positions := c.readPos :: rest.positions }

/-- `class Gateway`, without its rings. -/
structure Gateway where
  /-- `clients_`. -/
  clients : Fin maxClients → ClientState

namespace Gateway

/-- A gateway without clients. -/
def new : Gateway := ⟨fun _ => ⟨-1, false, ReadBuf.zero, 0⟩⟩

/-- Write a slot. -/
def setSlot (g : Gateway) (slot : Fin maxClients) (c : ClientState) : Gateway :=
  ⟨Function.update g.clients slot c⟩

/-- `find_slot()`. -/
def findSlot (g : Gateway) : Option (Fin maxClients) :=
  (List.finRange maxClients).find? fun i => !(g.clients i).active

/-- `slot_for_fd(fd)`. -/
def slotForFd (g : Gateway) (fd : ℤ) : Option (Fin maxClients) :=
  (List.finRange maxClients).find? fun i => (g.clients i).active && decide ((g.clients i).fd = fd)

/-- `accept_client()`, when `accept` returns `fd`: the gateway after it, and whether it keeps
the descriptor. -/
def acceptClient (g : Gateway) (fd : ℤ) : Gateway × Bool :=
  if fd < 0 then (g, false)
  else match g.findSlot with
    | none => (g, false)
    | some slot => (g.setSlot slot { g.clients slot with fd := fd, active := true, readPos := 0 },
      true)

/-- `disconnect(slot)`. -/
def disconnect (g : Gateway) (slot : Fin maxClients) : Gateway :=
  g.setSlot slot { g.clients slot with fd := -1, active := false }

/-- `read_client(fd)`, when its calls of `recv` find `rs`. -/
def readClient (g : Gateway) (fd : ℤ) (rs : List (Recv × Timestamp)) :
    Option (Gateway × Option Reading) :=
  match g.slotForFd fd with
  | none => some (g, none)
  | some slot => do
    let r ← readLoop (g.clients slot) rs
    let g := g.setSlot slot r.client
    return (if r.disconnect then g.disconnect slot else g, some r)

/-- The calls of `send` in `drain_outbound()` for a message: the slot, its descriptor and the
bytes that are sent. -/
def sends (g : Gateway) (out : OutboundMessage) : List (Fin maxClients × ℤ × List UInt8) :=
  (List.finRange maxClients).filterMap fun i =>
    if (g.clients i).active ∧ (g.clients i).fd ≥ 0 then some (i, (g.clients i).fd, out.wire.bytes)
      else none

/-- The clients' descriptors, which `~Gateway()` closes. -/
def closes (g : Gateway) : List ℤ :=
  (List.finRange maxClients).filterMap fun i => if (g.clients i).active then some (g.clients i).fd
    else none

end Gateway

end TradeFeed
