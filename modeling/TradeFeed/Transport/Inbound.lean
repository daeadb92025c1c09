import TradeFeed.Engine.Timestamps
import TradeFeed.Transport.Gateway

/-!
# Reading frames

What the loop of `read_client` does to one client's slot, whatever the calls of `recv`
find. The first `read_pos` bytes of the buffer are the incomplete frame at the end of what
was received so far; from there on the loop pushes the messages of the frames that are
completed, and leaves the next incomplete frame (`readLoop_spec`).
-/

namespace TradeFeed

open Lib.Bytes

/-- The message of a frame, without the gateway's reading of the counter. -/
def decoded (frame : List UInt8) : InboundMessage := ((WireMessage.ofBytes frame).inbound 0)

theorem untimed_inbound (frame : List UInt8) (tsc : Timestamp) :
    ((WireMessage.ofBytes frame).inbound tsc).untimed = decoded frame := rfl

/-- The part of a frame that was received. -/
def ClientState.pending (c : ClientState) : List UInt8 := c.readBuf.bytes.take c.readPos

theorem ClientState.length_pending {c : ClientState} (h : c.readPos ≤ wireMsgSize) :
    c.pending.length = c.readPos := by
  rw [pending, List.length_take, c.readBuf.length_eq, Nat.min_eq_left h]

/-- From slot `c` to slot `c'`, bytes `bs` were received and messages `msgs` pushed. -/
structure Framed (c c' : ClientState) (bs : List UInt8) (msgs : List InboundMessage) : Prop where
  /-- The slot's client is the same. -/
  fd : c'.fd = c.fd
  /-- It is still there. -/
  active : c'.active = c.active
  /-- There is room in the buffer. -/
  pos : c'.readPos < wireMsgSize
  /-- The messages are those of the frames that were completed. -/
  cut : ∀ {l fs}, Cut wireMsgSize l fs c.pending →
    ∃ fs', Cut wireMsgSize (l ++ bs) (fs ++ fs') c'.pending ∧
    msgs.map InboundMessage.untimed = fs'.map decoded

namespace Framed

variable {c c₁ c₂ : ClientState} {bs bs' : List UInt8} {msgs msgs' : List InboundMessage}

theorem refl (h : c.readPos < wireMsgSize) : Framed c c [] [] :=
  ⟨rfl, rfl, h, fun {l fs} hcut => ⟨[], by rwa [List.append_nil, List.append_nil], rfl⟩⟩

theorem trans (h : Framed c c₁ bs msgs) (h' : Framed c₁ c₂ bs' msgs') :
    Framed c c₂ (bs ++ bs') (msgs ++ msgs') := by
  refine ⟨h'.fd.trans h.fd, h'.active.trans h.active, h'.pos, fun hcut => ?_⟩
  obtain ⟨fs₁, hcut₁, hmsgs⟩ := h.cut hcut
  obtain ⟨fs₂, hcut₂, hmsgs'⟩ := h'.cut hcut₁
  rw [List.append_assoc, List.append_assoc] at hcut₂
  exact ⟨fs₁ ++ fs₂, hcut₂, by rw [List.map_append, List.map_append, hmsgs, hmsgs']⟩

end Framed

/-- Bytes that are stored in the buffer, and a frame that is taken out when it is complete. -/
theorem store_spec {c : ClientState} (h : c.readPos < wireMsgSize) (bs : List UInt8)
    (hbs : c.readPos + bs.length ≤ wireMsgSize) (tsc : Timestamp) :
    ∃ buf, c.readBuf.store c.readPos bs = some buf ∧
      (wireMsgSize ≤ c.readPos + bs.length →
        Framed c { c with readBuf := buf, readPos :=
        0 } bs [(WireMessage.ofBytes buf.bytes).inbound tsc]) ∧
      (c.readPos + bs.length < wireMsgSize →
        Framed c { c with readBuf := buf, readPos := c.readPos + bs.length } bs []) := by
  obtain ⟨buf, hstore, htake⟩ := c.readBuf.store_eq hbs
  have hpending : buf.bytes.take (c.readPos + bs.length) = c.pending ++ bs := htake
  have hlen : c.pending.length = c.readPos := ClientState.length_pending (Nat.le_of_lt h)
  refine ⟨buf, hstore,
    fun hfull => ⟨rfl, rfl, (by decide : 0 < wireMsgSize), fun {l fs} hcut => ?_⟩,
    fun hmore => ⟨rfl, rfl, hmore, fun {l fs} hcut => ?_⟩⟩
  · -- the whole buffer is the frame
    have hsize : c.readPos + bs.length = wireMsgSize := Nat.le_antisymm hbs hfull
    have hframe : buf.bytes = c.pending ++ bs := by
      rw [← hpending, hsize, ← buf.length_eq, List.take_length]
    refine ⟨[c.pending ++ bs], hcut.full (by rw [hlen, hsize]), ?_⟩
    rw [List.map_singleton, List.map_singleton, untimed_inbound, hframe]
  · refine ⟨[], ?_, rfl⟩
    have hcut' : Cut wireMsgSize (l ++ bs) fs (c.pending ++ bs) := by
      apply hcut.more
      rw [hlen]
      exact hmore
    rw [List.append_nil]
    rwa [← hpending] at hcut'

/-- **A pass of the loop**: it is defined, and if it goes on then by bytes and frames. -/
theorem readOnce_spec {c : ClientState} (h : c.readPos < wireMsgSize) (r : Recv) (tsc : Timestamp) :
    (∃ d, readOnce c r tsc = some (.stop d)) ∨
      ∃ c' bs msgs, readOnce c r tsc = some (.more c' bs msgs) ∧ Framed c c' bs msgs := by
  have hroom : ¬ wireMsgSize < c.readPos := by omega
  cases r with
  | again => exact Or.inl ⟨false, by rw [readOnce, if_neg hroom, Recv.upTo]⟩
  | error => exact Or.inl ⟨true, by rw [readOnce, if_neg hroom, Recv.upTo]⟩
  | bytes bs =>
    have hlen : (bs.take (wireMsgSize - c.readPos)).length ≤ wireMsgSize - c.readPos :=
      List.length_take_le _ _
    rw [readOnce, if_neg hroom, Recv.upTo]
    cases hbs : bs.take (wireMsgSize - c.readPos) with
    | nil => exact Or.inl ⟨true, rfl⟩
    | cons b bs =>
      rw [hbs] at hlen
      obtain ⟨buf, hstore, hfull, hmore⟩ := store_spec h (b :: bs) (by omega) tsc
      right
      by_cases hge : wireMsgSize ≤ c.readPos + (b :: bs).length
      · refine ⟨_, _, _, ?_, hfull hge⟩
        simp only [hstore, Option.bind_eq_bind, Option.bind_some, ge_iff_le, if_pos hge]
        rfl
      · refine ⟨_, _, _, ?_, hmore (Nat.lt_of_not_le hge)⟩
        simp only [hstore, Option.bind_eq_bind, Option.bind_some, ge_iff_le, if_neg hge]
        rfl

/-- **The loop** is defined, and asks for at least one byte each time. -/
theorem readLoop_spec {c : ClientState} (h : c.readPos < wireMsgSize)
    (rs : List (Recv × Timestamp)) :
    ∃ r, readLoop c rs = some r ∧ Framed c r.client r.received r.pushed ∧
      ∀ p ∈ r.positions, p < wireMsgSize := by
  induction rs generalizing c with
  | nil =>
    refine ⟨⟨c, false, [], [], [c.readPos]⟩, ?_, Framed.refl h, by simpa using h⟩
    rw [readLoop, readOnce, if_neg (by omega), Recv.upTo]
    rfl
  | cons r rs ih =>
    obtain ⟨r, tsc⟩ := r
    rcases readOnce_spec h r tsc with ⟨d, honce⟩ | ⟨c', bs, msgs, honce, hframed⟩
    · refine ⟨⟨c, d, [], [], [c.readPos]⟩, ?_, Framed.refl h, by simpa using h⟩
      simp only [readLoop, honce, Option.bind_eq_bind, Option.bind_some]
      rfl
    · obtain ⟨rest, hrest, hframed', hpos⟩ := ih hframed.pos
      refine ⟨{ rest with
        received := bs ++ rest.received, pushed := msgs ++ rest.pushed,
        positions := c.readPos :: rest.positions },
        ?_, hframed.trans hframed', ?_⟩
      · simp only [readLoop, honce, hrest, Option.bind_eq_bind, Option.bind_some]
        rfl
      · rintro p (- | ⟨-, hp⟩)
        · exact h
        · exact hpos p hp

end TradeFeed
