import TradeFeed.Transport.Connections

/-!
# Writing frames

`drain_outbound` calls `send` once for each message and client, on a descriptor that does not
block, and looks at no answer. A `send` that takes a part of a message leaves the rest of
it unsent, and the next message goes on in the middle of the client's frame
(`frame_torn`). When every `send` takes the whole message or nothing, each
client's bytes are whole messages, in order (`outbound_framed`).
-/

namespace TradeFeed

open Lib.Bytes

/-- `send` took the whole message, or nothing. -/
def SendResult.Whole : SendResult → Prop
  | .took k => k = 0 ∨ k = wireMsgSize
  | .failed => True

/-- The slot sends to connection `c`. -/
def SendsTo (n : Net) (i : Fin maxClients) (c : ℕ) : Prop :=
  ((n.gateway.clients i).active = true ∧ (n.gateway.clients i).fd ≥ 0) ∧
    n.conns (n.gateway.clients i).fd = some c

/-- Every `send` of the event did. A pass of the loop that sends changes no slot, so those that
send are the same for all of its messages. -/
def NetEvent.Whole (n : Net) : NetEvent → Prop
  | .drain outs => ∀ out ∈ outs, ∀ i c, SendsTo n i c → (out.2 i).Whole
  | _ => True

/-- What was sent to each connection is whole messages, in the order in which they were popped,
and read in frames it is these messages. -/
def SentWhole (n : Net) : Prop :=
  ∀ c, ∃ outs : List OutboundMessage, outs.Sublist n.popped ∧
    n.sent c = outs.flatMap (fun out => out.wire.bytes) ∧
    (frames wireMsgSize (n.sent c)).map WireMessage.ofBytes = outs.map OutboundMessage.wire

theorem SendResult.Whole.taken {r : SendResult} (h : r.Whole) {bs : List UInt8}
    (hbs : bs.length = wireMsgSize) :
    r.taken bs = [] ∨ r.taken bs = bs := by
  cases r with
  | failed => exact Or.inl rfl
  | took k =>
    rcases h with rfl | rfl
    · exact Or.inl rfl
    · exact Or.inr (List.take_of_length_le (Nat.le_of_eq hbs))

section Outbound

variable {n : Net}

/-- What a slot contributes to a connection's bytes. -/
theorem taken_eq (n : Net) (out : OutboundMessage) (answer : Fin maxClients → SendResult) (c : ℕ) :
    n.taken out answer c = (List.finRange maxClients).flatMap fun i =>
      if ((n.gateway.clients i).active = true ∧ (n.gateway.clients i).fd ≥ 0) ∧
        n.conns (n.gateway.clients i).fd = some c then
        (answer i).taken out.wire.bytes else [] := by
  unfold Net.taken Gateway.sends
  rw [List.filterMap_eq_flatMap_toList, List.flatMap_assoc]
  apply List.flatMap_congr
  intro i _
  split_ifs <;> simp_all

/-- A connection is sent a message through its own slot, and once. -/
theorem taken_slot (h : Wired n) (out : OutboundMessage) (answer : Fin maxClients → SendResult)
    {i : Fin maxClients} {c : ℕ} (hi : SendsTo n i c) :
    n.taken out answer c = (answer i).taken out.wire.bytes := by
  rw [taken_eq, flatMap_single (List.nodup_finRange _) (List.mem_finRange i) fun j _ hj => ?_]
  · exact if_pos hi
  · exact if_neg fun hj' => hj (h.slots j i hj'.1.1 hi.1.1 (h.descriptors _ _ _ hj'.2 hi.2))

theorem taken_whole (h : Wired n) (out : OutboundMessage) {answer : Fin maxClients → SendResult}
    (hanswer : ∀ i c, SendsTo n i c → (answer i).Whole) (c : ℕ) :
    n.taken out answer c = [] ∨ n.taken out answer c = out.wire.bytes := by
  by_cases hslot : ∃ i, SendsTo n i c
  · obtain ⟨i, hi⟩ := hslot
    rw [taken_slot h out answer hi]
    exact (hanswer i c hi).taken out.wire.length_bytes
  · rw [taken_eq]
    exact Or.inl (List.flatMap_eq_nil_iff.mpr fun i _ => if_neg fun hi => hslot ⟨i, hi⟩)

/-- Whole messages are read back. -/
theorem frames_wire (outs : List OutboundMessage) :
    (frames wireMsgSize (outs.flatMap fun out => out.wire.bytes)).map WireMessage.ofBytes =
      outs.map OutboundMessage.wire := by
  have hcut : Cut wireMsgSize (outs.flatMap fun out => out.wire.bytes)
      (outs.map fun out => out.wire.bytes) [] :=
    ⟨by rw [List.append_nil]; rfl, by simp, by decide⟩
  rw [hcut.frames_eq, List.map_map]
  exact List.map_congr_left fun out _ => WireMessage.ofBytes_bytes _

theorem sentWhole_of (h : ∀ c, ∃ outs : List OutboundMessage, outs.Sublist n.popped ∧
    n.sent c = outs.flatMap fun out => out.wire.bytes) : SentWhole n := by
  intro c
  obtain ⟨outs, hsub, hsent⟩ := h c
  refine ⟨outs, hsub, hsent, ?_⟩
  rw [hsent]
  exact frames_wire outs

/-- **A pass** of the loop whose sends are whole. -/
theorem SentWhole.sendOne (h : Wired n) (hs : SentWhole n) (out : OutboundMessage)
    {answer : Fin maxClients → SendResult} (hanswer : ∀ i c, SendsTo n i c → (answer i).Whole) :
    SentWhole (n.sendOne out answer) := by
  apply sentWhole_of
  intro c
  obtain ⟨outs, hsub, hsent, -⟩ := hs c
  rcases taken_whole h out hanswer c with ht | ht
  · refine ⟨outs, hsub.trans (List.sublist_append_left _ _), ?_⟩
    show n.sent c ++ n.taken out answer c = _
    rw [ht, List.append_nil, hsent]
  · refine ⟨outs ++ [out], hsub.append (List.Sublist.refl _), ?_⟩
    show n.sent c ++ n.taken out answer c = _
    rw [ht, hsent, List.flatMap_append, List.flatMap_singleton]

/-- Whole messages have a length that 32 divides. -/
theorem SentWhole.length (hs : SentWhole n) (c : ℕ) : wireMsgSize ∣ (n.sent c).length := by
  obtain ⟨outs, -, hsent, -⟩ := hs c
  exact ⟨outs.length, by simp [hsent, List.length_flatMap, Nat.mul_comm]⟩

/-- **A short write tears the frame**: where the bytes so far are whole messages, they are after
the next message exactly when every `send` to a connection takes it whole or not at all. -/
theorem sendOne_whole_iff (h : Wired n) (hs : SentWhole n) (out : OutboundMessage)
    {answer : Fin maxClients → SendResult} (hlen : ∀ i k, answer i = .took k → k ≤ wireMsgSize) :
    SentWhole (n.sendOne out answer) ↔ ∀ i c, SendsTo n i c → (answer i).Whole := by
  refine ⟨fun hs' i c hi => ?_, hs.sendOne h out⟩
  cases hanswer : answer i with
  | failed => trivial
  | took k =>
    have hsent : (n.sendOne out answer).sent c = n.sent c ++ out.wire.bytes.take k := by
      show n.sent c ++ n.taken out answer c = _
      rw [taken_slot h out answer hi, hanswer]
      rfl
    have hk := hlen i k hanswer
    have hdvd := hs'.length c
    rw [hsent, List.length_append, List.length_take, WireMessage.length_bytes, Nat.min_eq_left hk,
      Nat.dvd_add_right (hs.length c)] at hdvd
    obtain ⟨m, rfl⟩ := hdvd
    unfold wireMsgSize at hk
    show wireMsgSize * m = 0 ∨ wireMsgSize * m = wireMsgSize
    unfold wireMsgSize
    omega

theorem SentWhole.drain (h : NetInv n) (hs : SentWhole n)
    {outs : List (OutboundMessage × (Fin maxClients → SendResult))}
    (houts : ∀ out ∈ outs, ∀ i c, SendsTo n i c → (out.2 i).Whole) : SentWhole (n.drain outs) := by
  induction outs generalizing n with
  | nil => exact hs
  | cons out outs ih =>
    have hnext : ∀ out' ∈ outs, ∀ i c, SendsTo (n.sendOne out.1 out.2) i c → (out'.2 i).Whole :=
      fun out' hout' => houts out' (List.mem_cons_of_mem _ hout')
    exact ih (h.sendOne out.1 out.2) (hs.sendOne h.wired out.1 (houts out List.mem_cons_self)) hnext

/-- Arrivals and reads send nothing. -/
theorem SentWhole.congr {n' : Net} (hs : SentWhole n) (hpopped : n'.popped = n.popped)
    (hsent : n'.sent = n.sent) :
    SentWhole n' := by
  unfold SentWhole
  rwa [hpopped, hsent]

/-- **A step** whose sends are whole. -/
theorem SentWhole.step (h : NetInv n) (hs : SentWhole n) {e : NetEvent} (he : e.Whole n) :
    ∃ n', n.step e = some n' ∧ NetInv n' ∧ SentWhole n' := by
  obtain ⟨n', hstep, h'⟩ := h.step e
  refine ⟨n', hstep, h', ?_⟩
  cases e with
  | accept fd =>
    obtain rfl : n.accept fd = n' := Option.some.inj hstep
    rcases accept_cases n fd with ha | ⟨slot, -, -, ha⟩
    · rwa [ha]
    · rw [ha]
      exact hs.congr rfl rfl
  | readable fd rs =>
    rcases read_cases h.wired h.reads fd rs with ha | ⟨slot, c, r, -, -, -, ha, -⟩
    · obtain rfl : n = n' := Option.some.inj (ha.symm.trans hstep)
      exact hs
    · obtain rfl : n.after fd slot c r = n' := Option.some.inj (ha.symm.trans hstep)
      exact hs.congr rfl rfl
  | drain outs =>
    obtain rfl : n.drain outs = n' := Option.some.inj hstep
    exact hs.drain h he

end Outbound

/-- **Outbound framing**: as long as every `send` takes the whole message or nothing, what was
sent to each client is whole messages in order. -/
theorem outbound_framed (es : List NetEvent)
    (hes : Lib.Machine.Allowed Net.step NetEvent.Whole Net.new es) :
    ∃ n, Net.new.run es = some n ∧ SentWhole n := by
  have hnew : NetInv Net.new ∧ SentWhole Net.new :=
    ⟨new_netInv, sentWhole_of fun c => ⟨[], List.nil_sublist _, rfl⟩⟩
  obtain ⟨n, hrun, -, hs⟩ := Lib.Machine.tryRun_allowed
    (fun n (e : NetEvent) (he : e.Whole n) (h : NetInv n ∧ SentWhole n) => h.2.step h.1 he) hes hnew
  exact ⟨n, hrun, hs⟩

/-- A client takes a message, cannot take the next, and takes the one after it. What the answers
of the other 63 slots would be does not matter. -/
theorem outbound_framed_three :
    ∃ n, Net.new.run [.accept 5,
        .drain [(OutboundMessage.zero, fun i => .took (if i.val = 0 then 32 else 10)),
          (OutboundMessage.zero, fun _ => .failed),
          (OutboundMessage.zero, fun i => .took (if i.val = 0 then 32 else 10))]] = some n ∧
      SentWhole n := by
  refine outbound_framed _ ⟨trivial, fun n hn => ⟨?_, fun _ _ => trivial⟩⟩
  obtain rfl : Net.new.accept 5 = n := Option.some.inj hn
  have hslot : ∀ i, ((Net.new.accept 5).gateway.clients i).active = true → i.val = 0 := by decide
  simp only [NetEvent.Whole, List.forall_mem_cons]
  refine ⟨fun i c hi => ?_, fun i c _ => trivial, fun i c hi => ?_, by simp⟩ <;>
  · rw [if_pos (hslot i hi.1.1)]
    exact Or.inr rfl

/-- A client's socket takes 10 bytes of a message and then a whole one: the client has 42 bytes,
and its second frame does not come. -/
theorem frame_torn :
    ∃ n, Net.new.run [.accept 5, .drain [(OutboundMessage.zero, fun _ => .took 10)],
      .drain [(OutboundMessage.zero, fun _ => .took 32)]] = some n ∧ ¬ SentWhole n := by
  obtain ⟨n, hrun⟩ :
      ∃ n, Net.new.run [.accept 5, .drain [(OutboundMessage.zero, fun _ => .took 10)],
        .drain [(OutboundMessage.zero, fun _ => .took 32)]] = some n := ⟨_, rfl⟩
  refine ⟨n, hrun, fun hs => ?_⟩
  have hlen : (n.sent 0).length = 42 := by
    have hmap := congrArg (Option.map fun n => (n.sent 0).length) hrun
    exact (Option.some.inj hmap).symm
  have hdvd := hs.length 0
  rw [hlen] at hdvd
  exact absurd hdvd (by decide)

end TradeFeed
