import TradeFeed.Lib.Machine
import TradeFeed.Transport.Inbound

/-!
# The gateway and its connections

`Net` is the gateway together with what the operating system knows and the gateway does
not: which connection is behind each open descriptor. Connections are numbered as they are
accepted, so that a slot or a descriptor that is used again is told apart from its earlier
users. `Net` also records what went through each connection.

An event is an arrival at the listening socket, a readable descriptor (any, in use or not),
or a pass over the outbound ring; events come in any order (`run`). Whatever they are:

* `inbound_framed` — what the gateway pushes for a connection is its bytes, cut into frames.
-/

namespace TradeFeed

open Function (update)
open Lib.Bytes

/-- The gateway, its connections, and what went through them. -/
structure Net where
  /-- The gateway. -/
  gateway : Gateway
  /-- The connection behind each open descriptor. -/
  conns : ℤ → Option ℕ
  /-- How many connections there have been. -/
  accepted : ℕ
  /-- The bytes received from each. -/
  received : ℕ → List UInt8
  /-- The messages pushed into the inbound ring, each with the connection it was read from. -/
  pushed : List (ℕ × InboundMessage)
  /-- `read_pos` at each call of `recv`. -/
  positions : List ℕ
  /-- The messages popped from the outbound ring. -/
  popped : List OutboundMessage
  /-- The bytes that `send` took for each connection. -/
  sent : ℕ → List UInt8

/-- What happens to a gateway. -/
inductive NetEvent where
  /-- The listening socket is ready, and `accept` would return `fd`. -/
  | accept (fd : ℤ)
  /-- A descriptor is readable, and calls of `recv` on it find `rs`. -/
  | readable (fd : ℤ) (rs : List (Recv × Timestamp))
  /-- `drain_outbound` pops these messages, and for each `send` answers so for each slot. -/
  | drain (outs : List (OutboundMessage × (Fin maxClients → SendResult)))

namespace Net

/-- A gateway that was just started. -/
def new : Net := ⟨Gateway.new, fun _ => none, 0, fun _ => [], [], [], [], fun _ => []⟩

/-- The messages pushed for a connection. -/
def pushedFor (n : Net) (c : ℕ) : List InboundMessage :=
  (n.pushed.filter fun m => m.1 = c).map Prod.snd

/-- `accept_client()`. The descriptor that `accept` returns is not open. -/
def accept (n : Net) (fd : ℤ) : Net :=
  if n.conns fd ≠ none then n
  else
    let (gateway, kept) := n.gateway.acceptClient fd
    if kept then
      { n with gateway := gateway, conns := update n.conns fd (some n.accepted), accepted :=
        n.accepted + 1 }
    else { n with gateway := gateway }

/-- `read_client(fd)`. It is undefined to receive from a descriptor that is not open. -/
def read (n : Net) (fd : ℤ) (rs : List (Recv × Timestamp)) : Option Net := do
  match ← n.gateway.readClient fd rs with
  | (gateway, none) => return { n with gateway := gateway }
  | (gateway, some r) =>
    let c ← n.conns fd
    return { n with
      gateway := gateway
      conns := if r.disconnect then update n.conns fd none else n.conns
      received := update n.received c (n.received c ++ r.received)
      pushed := n.pushed ++ r.pushed.map fun msg => (c, msg)
      positions := n.positions ++ r.positions }

/-- The bytes of a message that `send` takes for connection `c`. -/
def taken (n : Net) (out : OutboundMessage) (answer : Fin maxClients → SendResult) (c : ℕ) :
    List UInt8 :=
  (n.gateway.sends out).flatMap fun (i, fd, bs) => if n.conns fd = some c then (answer i).taken bs
    else []

/-- A pass of the loop of `drain_outbound()`. -/
def sendOne (n : Net) (out : OutboundMessage) (answer : Fin maxClients → SendResult) : Net :=
  { n with popped := n.popped ++ [out], sent := fun c => n.sent c ++ n.taken out answer c }

/-- `drain_outbound()`. -/
def drain (n : Net) (outs : List (OutboundMessage × (Fin maxClients → SendResult))) : Net :=
  outs.foldl (fun n (out, answer) => n.sendOne out answer) n

/-- An event. -/
def step (n : Net) : NetEvent → Option Net
  | .accept fd => some (n.accept fd)
  | .readable fd rs => n.read fd rs
  | .drain outs => some (n.drain outs)

/-- Events in order. -/
def run (n : Net) (es : List NetEvent) : Option Net := Lib.Machine.tryRun step n es

end Net

/-! ### Connections -/

/-- How slots, descriptors and connections belong together, and what was read. -/
structure Wired (n : Net) : Prop where
  /-- A client's descriptor is open. -/
  opened : ∀ i, (n.gateway.clients i).active = true → ∃ c, n.conns (n.gateway.clients i).fd = some c
  /-- It is the descriptor of one slot. -/
  slots : ∀ i j, (n.gateway.clients i).active = true → (n.gateway.clients j).active = true →
    (n.gateway.clients i).fd = (n.gateway.clients j).fd → i = j
  /-- A connection has one descriptor. -/
  descriptors : ∀ fd fd' c, n.conns fd = some c → n.conns fd' = some c → fd = fd'
  /-- It was accepted. -/
  old : ∀ fd c, n.conns fd = some c → c < n.accepted
  /-- Nothing was read from those to come. -/
  fresh : ∀ c, n.accepted ≤ c → n.received c = [] ∧ n.pushedFor c = []

/-- What was received from connection `c` is the frames whose messages were pushed for it, and
`rest`. -/
def Decoded (n : Net) (c : ℕ) (rest : List UInt8) : Prop :=
  ∃ fs, Cut wireMsgSize (n.received c) fs rest ∧ (n.pushedFor c).map InboundMessage.untimed =
    fs.map decoded

/-- What was read is decoded, and what was not is in the clients' buffers. -/
structure Reads (n : Net) : Prop where
  /-- There is room in the buffers. -/
  room : ∀ i, (n.gateway.clients i).active = true → (n.gateway.clients i).readPos < wireMsgSize
  /-- The buffers have the incomplete frames of the connections. -/
  buffers : ∀ i c, (n.gateway.clients i).active = true → n.conns (n.gateway.clients i).fd = some c →
    Decoded n c (n.gateway.clients i).pending
  /-- The connections, those that are closed included. -/
  decoded : ∀ c, ∃ rest, Decoded n c rest
  /-- There always was room. -/
  positions : ∀ p ∈ n.positions, p < wireMsgSize

theorem Gateway.setSlot_self (g : Gateway) (i : Fin maxClients) (c : ClientState) :
    (g.setSlot i c).clients i = c :=
  Function.update_self ..

theorem Gateway.setSlot_of_ne (g : Gateway) {i j : Fin maxClients} (h : j ≠ i) (c : ClientState) :
    (g.setSlot i c).clients j = g.clients j := Function.update_of_ne h ..

theorem pushedFor_append (n : Net) (c : ℕ) (msgs : List InboundMessage) (c' : ℕ) :
    ((n.pushed ++ msgs.map fun msg => (c, msg)).filter fun m => m.1 = c').map Prod.snd =
      n.pushedFor c' ++ if c = c' then msgs else [] := by
  rw [List.filter_append, List.map_append]
  split_ifs with h
  · simp [Net.pushedFor, h, List.filter_map, Function.comp_def]
  · simp [Net.pushedFor, h, List.filter_map, Function.comp_def]

theorem new_wired : Wired Net.new := by
  refine ⟨fun i hi => ?_,
    fun i j hi => ?_, fun fd fd' c hc => ?_, fun fd c hc => ?_, fun c _ => ⟨rfl, rfl⟩⟩
  · cases hi
  · cases hi
  · cases hc
  · cases hc

theorem new_reads : Reads Net.new := by
  refine ⟨fun i hi => ?_,
    fun i c hi => ?_, fun c => ⟨[], [], Cut.nil (by decide), rfl⟩, fun p hp => ?_⟩
  · cases hi
  · cases hi
  · cases hp

/-! ### A client arrives -/

section Accept

variable {n : Net} {fd : ℤ}

/-- What `accept_client` does: nothing, or it takes a free slot for a connection that is new. -/
theorem accept_cases (n : Net) (fd : ℤ) :
    n.accept fd = n ∨ ∃ slot, (n.gateway.clients slot).active = false ∧ n.conns fd = none ∧
      n.accept fd = { n with
        gateway := n.gateway.setSlot slot
          { n.gateway.clients slot with fd := fd, active := true, readPos := 0 }
        conns := update n.conns fd (some n.accepted)
        accepted := n.accepted + 1 } := by
  unfold Net.accept Gateway.acceptClient
  by_cases hopen : n.conns fd = none
  · rw [if_neg (by simpa using hopen)]
    split_ifs with hfd
    · exact Or.inl rfl
    · cases hslot : n.gateway.findSlot with
      | none => exact Or.inl rfl
      | some slot =>
        have hfree := List.find?_some hslot
        rw [Bool.not_eq_true'] at hfree
        exact Or.inr ⟨slot, hfree, hopen, rfl⟩
  · exact Or.inl (if_pos hopen)

/-- A descriptor that is not open is no client's. -/
theorem Wired.fd_ne (h : Wired n) (hopen : n.conns fd = none) {i : Fin maxClients}
    (hi : (n.gateway.clients i).active = true) : (n.gateway.clients i).fd ≠ fd := by
  rintro rfl
  obtain ⟨c, hc⟩ := h.opened i hi
  rw [hopen] at hc
  cases hc

theorem accept_wired (h : Wired n) : Wired (n.accept fd) := by
  rcases accept_cases n fd with he | ⟨slot, hfree, hopen, he⟩
  · rwa [he]
  rw [he]
  -- the new descriptor is not that of a client
  have hne : ∀ i, (n.gateway.clients i).active = true → (n.gateway.clients i).fd ≠ fd :=
    fun i hi => h.fd_ne hopen hi
  refine ⟨fun i hi => ?_,
    fun i j hi hj hfd => ?_, fun fd₁ fd₂ c h₁ h₂ => ?_, fun fd' c hc => ?_, fun c hc => ?_⟩
  · by_cases his : i = slot
    · subst his
      exact ⟨n.accepted, by simp [Gateway.setSlot_self]⟩
    · simp only [Gateway.setSlot_of_ne _ his] at hi ⊢
      obtain ⟨c, hc⟩ := h.opened i hi
      exact ⟨c, by rw [Function.update_of_ne (hne i hi), hc]⟩
  · by_cases his : i = slot <;> by_cases hjs : j = slot
    · rw [his, hjs]
    · subst his
      simp only [Gateway.setSlot_self, Gateway.setSlot_of_ne _ hjs] at hj hfd
      exact absurd hfd.symm (hne j hj)
    · subst hjs
      simp only [Gateway.setSlot_self, Gateway.setSlot_of_ne _ his] at hi hfd
      exact absurd hfd (hne i hi)
    · simp only [Gateway.setSlot_of_ne _ his, Gateway.setSlot_of_ne _ hjs] at hi hj hfd
      exact h.slots i j hi hj hfd
  · simp only [Function.update_apply] at h₁ h₂
    split_ifs at h₁ h₂ with he₁ he₂ he₂
    · rw [he₁, he₂]
    · cases h₁
      exact absurd (h.old _ _ h₂) (Nat.lt_irrefl _)
    · cases h₂
      exact absurd (h.old _ _ h₁) (Nat.lt_irrefl _)
    · exact h.descriptors _ _ _ h₁ h₂
  · simp only [Function.update_apply] at hc
    split_ifs at hc
    · cases hc
      exact Nat.lt_succ_self _
    · exact Nat.lt_succ_of_lt (h.old _ _ hc)
  · exact h.fresh c (Nat.le_of_succ_le hc)

theorem accept_reads (h : Wired n) (hr : Reads n) : Reads (n.accept fd) := by
  rcases accept_cases n fd with he | ⟨slot, hfree, hopen, he⟩
  · rwa [he]
  rw [he]
  refine ⟨fun i hi => ?_, fun i c hi hc => ?_, hr.decoded, hr.positions⟩
  · by_cases his : i = slot
    · subst his
      simp only [Gateway.setSlot_self]
      decide
    · simp only [Gateway.setSlot_of_ne _ his] at hi ⊢
      exact hr.room i hi
  · by_cases his : i = slot
    · -- nothing was read from the new connection
      subst his
      simp only [Gateway.setSlot_self, Function.update_self, Option.some.injEq] at hc ⊢
      obtain ⟨hreceived, hpushed⟩ := h.fresh c (Nat.le_of_eq hc)
      have hcut : Cut wireMsgSize (n.received c) [] [] := by
        rw [hreceived]
        exact Cut.nil (by decide)
      exact ⟨[], hcut, congrArg (List.map InboundMessage.untimed) hpushed⟩
    · simp only [Gateway.setSlot_of_ne _ his] at hi hc ⊢
      rw [Function.update_of_ne (h.fd_ne hopen hi)] at hc
      exact hr.buffers i c hi hc

end Accept

/-! ### A client is read -/

section Read

variable {n : Net} {fd : ℤ} {slot : Fin maxClients} {c : ℕ} {r : Reading}

/-- The net after connection `c`, behind descriptor `fd` and in slot `slot`, was read. -/
def Net.after (n : Net) (fd : ℤ) (slot : Fin maxClients) (c : ℕ) (r : Reading) : Net :=
  { n with
    gateway := n.gateway.setSlot slot
      (if r.disconnect then { r.client with fd := -1, active := false } else r.client)
    conns := if r.disconnect then update n.conns fd none else n.conns
    received := update n.received c (n.received c ++ r.received)
    pushed := n.pushed ++ r.pushed.map fun msg => (c, msg)
    positions := n.positions ++ r.positions }

/-- What `read_client` does: nothing, or it reads the slot of a client. -/
theorem read_cases (h : Wired n) (hr : Reads n) (fd : ℤ) (rs : List (Recv × Timestamp)) :
    n.read fd rs = some n ∨
      ∃ slot c r, (n.gateway.clients slot).active = true ∧ (n.gateway.clients slot).fd = fd ∧
      n.conns fd = some c ∧ n.read fd rs = some (n.after fd slot c r) ∧
      Framed (n.gateway.clients slot) r.client r.received r.pushed ∧
      ∀ p ∈ r.positions, p < wireMsgSize := by
  cases hslot : n.gateway.slotForFd fd with
  | none =>
    left
    simp only [Net.read, Gateway.readClient, hslot, Option.bind_eq_bind, Option.bind_some]
    rfl
  | some slot =>
    right
    have hfound := List.find?_some hslot
    rw [Bool.and_eq_true, decide_eq_true_eq] at hfound
    obtain ⟨c, hc⟩ := h.opened slot hfound.1
    rw [hfound.2] at hc
    obtain ⟨r, hloop, hframed, hpos⟩ := readLoop_spec (hr.room slot hfound.1) rs
    refine ⟨slot, c, r, hfound.1, hfound.2, hc, ?_, hframed, hpos⟩
    have hslots : (if r.disconnect then (n.gateway.setSlot slot r.client).disconnect slot
        else n.gateway.setSlot slot r.client) =
        n.gateway.setSlot slot
          (if r.disconnect then { r.client with fd := -1, active := false } else r.client) := by
      split_ifs
      · simp only [Gateway.disconnect, Gateway.setSlot, Function.update_self, Function.update_idem]
      · rfl
    simp only [Net.read, Gateway.readClient, hslot, hloop, hc, hslots, Option.bind_eq_bind,
      Option.bind_some, Option.pure_def]
    rfl

/-- Descriptors are closed only. -/
theorem conns_after {fd' : ℤ} {c' : ℕ} (hc : (n.after fd slot c r).conns fd' = some c') :
    n.conns fd' = some c' := by
  unfold Net.after at hc
  dsimp only at hc
  split_ifs at hc
  · by_cases hfd : fd' = fd
    · rw [hfd, Function.update_self] at hc
      cases hc
    · rwa [Function.update_of_ne hfd] at hc
  · exact hc

/-- The clients of the other slots stay. -/
theorem clients_after {i : Fin maxClients} (hi : i ≠ slot) :
    (n.after fd slot c r).gateway.clients i = n.gateway.clients i := Gateway.setSlot_of_ne _ hi _

/-- The slot's client stays, if it is there at all. -/
theorem client_after (hi : ((n.after fd slot c r).gateway.clients slot).active = true) :
    r.disconnect = false ∧ (n.after fd slot c r).gateway.clients slot = r.client := by
  have hclient : (n.after fd slot c r).gateway.clients slot =
      if r.disconnect then { r.client with fd := -1, active := false } else r.client :=
        Gateway.setSlot_self ..
  cases hd : r.disconnect with
  | true =>
    rw [hclient, hd, if_pos rfl] at hi
    cases hi
  | false => exact ⟨rfl, by rw [hclient, hd]; rfl⟩

theorem after_wired (h : Wired n) (hactive : (n.gateway.clients slot).active = true)
    (hfd : (n.gateway.clients slot).fd = fd) (hc : n.conns fd = some c)
    (hclient : r.client.fd = fd) :
    Wired (n.after fd slot c r) := by
  have hold : ∀ i, ((n.after fd slot c r).gateway.clients i).active = true →
    (n.gateway.clients i).active = true ∧
      ((n.after fd slot c r).gateway.clients i).fd = (n.gateway.clients i).fd := fun i hi => by
    by_cases his : i = slot
    · subst his
      rw [(client_after hi).2, hclient, hfd]
      exact ⟨hactive, rfl⟩
    · rw [clients_after his] at hi ⊢
      exact ⟨hi, rfl⟩
  refine ⟨fun i hi => ?_,
    fun i j hi hj he => ?_, fun fd₁ fd₂ c' h₁ h₂ => ?_, fun fd' c' hc' => ?_, fun c' hc' => ?_⟩
  · obtain ⟨hi', he⟩ := hold i hi
    obtain ⟨c', hc'⟩ := h.opened i hi'
    refine ⟨c', ?_⟩
    rw [he]
    unfold Net.after
    dsimp only
    split_ifs with hd
    · -- the descriptor that was closed is that of the slot
      have hne : (n.gateway.clients i).fd ≠ fd := fun hfd' => by
        obtain rfl := h.slots i slot hi' hactive (hfd'.trans hfd.symm)
        rw [(client_after hi).1] at hd
        cases hd
      rw [Function.update_of_ne hne, hc']
    · exact hc'
  · obtain ⟨hi', he₁⟩ := hold i hi
    obtain ⟨hj', he₂⟩ := hold j hj
    exact h.slots i j hi' hj' (he₁.symm.trans (he.trans he₂))
  · exact h.descriptors _ _ _ (conns_after h₁) (conns_after h₂)
  · exact h.old _ _ (conns_after hc')
  · have hne : c' ≠ c := by
      rintro rfl
      exact absurd (h.old _ _ hc) (Nat.not_lt.mpr hc')
    obtain ⟨hreceived, hpushed⟩ := h.fresh c' hc'
    refine ⟨(Function.update_of_ne hne ..).trans hreceived, ?_⟩
    have hfor := pushedFor_append n c r.pushed c'
    rw [if_neg (Ne.symm hne), hpushed] at hfor
    exact hfor

/-- The other connections are not touched. -/
theorem Decoded.other {c' : ℕ} {rest : List UInt8} (hd : Decoded n c' rest) (hne : c' ≠ c) :
    Decoded (n.after fd slot c r) c' rest := by
  have hreceived : (n.after fd slot c r).received c' = n.received c' := Function.update_of_ne hne ..
  have hpushed : (n.after fd slot c r).pushedFor c' = n.pushedFor c' :=
    (pushedFor_append n c r.pushed c').trans (by rw [if_neg (Ne.symm hne), List.append_nil])
  unfold Decoded
  rwa [hreceived, hpushed]

/-- This one goes on from its incomplete frame. -/
theorem Decoded.step (hframed : Framed (n.gateway.clients slot) r.client r.received r.pushed)
    (hd : Decoded n c (n.gateway.clients slot).pending) :
    Decoded (n.after fd slot c r) c r.client.pending := by
  obtain ⟨fs, hcut, hmsgs⟩ := hd
  obtain ⟨fs', hcut', hmsgs'⟩ := hframed.cut hcut
  have hreceived : (n.after fd slot c r).received c = n.received c ++ r.received :=
    Function.update_self ..
  have hpushed : (n.after fd slot c r).pushedFor c = n.pushedFor c ++ r.pushed :=
    (pushedFor_append n c r.pushed c).trans (by rw [if_pos rfl])
  refine ⟨fs ++ fs', by rwa [hreceived], ?_⟩
  rw [hpushed, List.map_append, hmsgs, hmsgs', List.map_append]

theorem after_reads (h : Wired n) (hr : Reads n) (hactive : (n.gateway.clients slot).active = true)
    (hfd : (n.gateway.clients slot).fd = fd) (hc : n.conns fd = some c)
    (hframed : Framed (n.gateway.clients slot) r.client r.received r.pushed)
    (hpos : ∀ p ∈ r.positions, p < wireMsgSize) :
    Reads (n.after fd slot c r) := by
  have hstep : Decoded (n.after fd slot c r) c r.client.pending :=
    (hr.buffers slot c hactive (hfd ▸ hc)).step hframed
  refine ⟨fun i hi => ?_, fun i c' hi hc' => ?_, fun c' => ?_, fun p hp => ?_⟩
  · by_cases his : i = slot
    · subst his
      rw [(client_after hi).2]
      exact hframed.pos
    · rw [clients_after his] at hi ⊢
      exact hr.room i hi
  · by_cases his : i = slot
    · subst his
      rw [(client_after hi).2] at hc' ⊢
      rw [hframed.fd, hfd] at hc'
      obtain rfl : c' = c := Option.some.inj ((conns_after hc').symm.trans hc)
      exact hstep
    · rw [clients_after his] at hi hc' ⊢
      have hopen := conns_after hc'
      have hne : c' ≠ c := fun he =>
        his (h.slots i slot hi hactive ((h.descriptors _ _ _ hopen (he ▸ hc)).trans hfd.symm))
      exact (hr.buffers i c' hi hopen).other hne
  · by_cases hcc : c' = c
    · subst hcc
      exact ⟨_, hstep⟩
    · obtain ⟨rest, hd⟩ := hr.decoded c'
      exact ⟨rest, hd.other hcc⟩
  · rcases List.mem_append.mp hp with hp | hp
    · exact hr.positions p hp
    · exact hpos p hp

end Read

/-! ### Runs -/

/-- The connections are wired, and what was read of them is decoded. -/
structure NetInv (n : Net) : Prop where
  /-- Slots, descriptors and connections. -/
  wired : Wired n
  /-- Frames. -/
  reads : Reads n

/-- What is sent is another matter. -/
theorem NetInv.sendOne {n : Net} (h : NetInv n) (out : OutboundMessage)
    (answer : Fin maxClients → SendResult) :
    NetInv (n.sendOne out answer) := by
  obtain ⟨⟨h₁, h₂, h₃, h₄, h₅⟩, ⟨h₆, h₇, h₈, h₉⟩⟩ := h
  exact ⟨⟨h₁, h₂, h₃, h₄, h₅⟩, ⟨h₆, h₇, h₈, h₉⟩⟩

theorem NetInv.drain {n : Net} (h : NetInv n)
    (outs : List (OutboundMessage × (Fin maxClients → SendResult))) :
    NetInv (n.drain outs) := by
  induction outs generalizing n with
  | nil => exact h
  | cons out outs ih =>
    exact ih (h.sendOne out.1 out.2)

/-- **A step**: every event is defined and keeps the invariant. -/
theorem NetInv.step {n : Net} (h : NetInv n) (e : NetEvent) :
    ∃ n', n.step e = some n' ∧ NetInv n' := by
  cases e with
  | accept fd => exact ⟨_, rfl, accept_wired h.wired, accept_reads h.wired h.reads⟩
  | readable fd rs =>
    rcases read_cases h.wired h.reads fd rs with he | ⟨slot, c, r, hactive, hfd, hc, he,
      hframed, hpos⟩
    · exact ⟨n, he, h⟩
    · exact ⟨_, he, after_wired h.wired hactive hfd hc (hframed.fd.trans hfd),
        after_reads h.wired h.reads hactive hfd hc hframed hpos⟩
  | drain outs => exact ⟨_, rfl, h.drain outs⟩

theorem new_netInv : NetInv Net.new := ⟨new_wired, new_reads⟩

/-- **Inbound framing**: after any events, `recv` was always called with room in the buffer, and
the messages pushed for a connection are those of the complete frames of its bytes, in order. -/
theorem inbound_framed (es : List NetEvent) :
    ∃ n, Net.new.run es = some n ∧ (∀ p ∈ n.positions, p < wireMsgSize) ∧
      ∀ c, (n.pushedFor c).map InboundMessage.untimed =
        (frames wireMsgSize (n.received c)).map decoded := by
  obtain ⟨n, hrun, h⟩ :=
    Lib.Machine.tryRun_invariant (fun n e (_ : e ∈ es) h => NetInv.step h e) new_netInv
  refine ⟨n, hrun, h.reads.positions, fun c => ?_⟩
  obtain ⟨rest, fs, hcut, hmsgs⟩ := h.reads.decoded c
  rw [hmsgs, hcut.frames_eq]

/-- A frame in two pieces, with nothing to read between them: the second completes it. -/
example : (Net.new.run [.accept 5, .readable 5 [(.bytes (List.replicate 20 1), 1), (.again, 2)],
    .readable 5 [(.bytes (List.replicate 12 1), 3)]]).map
    (fun n => (n.pushedFor 0).map InboundMessage.untimed) =
      some [decoded (List.replicate 32 1)] := by decide

end TradeFeed
