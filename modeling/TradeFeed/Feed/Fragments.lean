import TradeFeed.Feed.Receive

/-!
# Fragmented messages

A message may come in fragments: a text or binary frame without the FIN bit, then
continuation frames, the last of them with it, and control frames between
(`Fragmented`). `read_frame` does not look at the FIN bit, and its switch has no case for
the continuation: it returns the first fragment (`readFrame_fragment`), and the call after it
drops the others (`readFrames_fragments`).
-/

namespace TradeFeed

open AlpacaWebSocket ServerFrame

/-- Continuation frames, the last of them with the FIN bit, and control frames before it. -/
inductive Continued : List ServerFrame → Prop where
  /-- The last. -/
  | last {f : ServerFrame} : f.Continuation → f.fin = true → Continued [f]
  /-- One that is not the last. -/
  | more {f : ServerFrame} {fs : List ServerFrame} :
    f.Continuation → f.fin = false → Continued fs → Continued (f :: fs)
  /-- A control frame. -/
  | control {f : ServerFrame} {fs : List ServerFrame} :
    f.Ping ∨ f.Pong → f.fin = true → Continued fs → Continued (f :: fs)

/-- The bytes begin with a continuation frame, or with control frames and then one. -/
def ContinuationFollows (bs : List UInt8) : Prop :=
  ∃ fs f rest, (∀ g ∈ fs, g.Ping ∨ g.Pong) ∧ f.Continuation ∧ bs = bytesOf (fs ++ [f]) ++ rest

/-- A first fragment, what comes with the others, and the bytes behind. -/
structure Fragmented (first : ServerFrame) (tail : List ServerFrame) (after : List UInt8) :
    Prop where
  /-- It is text or binary. -/
  data : first.Data
  /-- It is not the last fragment. -/
  fin : first.fin = false
  /-- The others follow up to the last one. If there is none at all, none follows later. -/
  tail : Continued tail ∨ tail = [] ∧ ¬ ContinuationFollows after

/-- The payload of the message. -/
def whole (first : ServerFrame) (tail : List ServerFrame) : List UInt8 :=
  first.payload ++ (tail.filter fun f => f.Continuation).flatMap payload

/-- Fragments that follow begin with one, behind control frames. -/
theorem Continued.follows {fs : List ServerFrame} (h : Continued fs) (after : List UInt8) :
    ContinuationFollows (bytesOf fs ++ after) := by
  induction h with
  | @last f hf => exact ⟨[], f, after, by simp, hf, rfl⟩
  | @more f fs hf _ _ _ =>
    exact ⟨[], f, bytesOf fs ++ after, by simp,
      hf, by rw [bytesOf_cons, List.append_assoc]; simp [bytesOf]⟩
  | @control f fs hf _ _ ih =>
    obtain ⟨gs, g, rest, hgs, hg, heq⟩ := ih
    refine ⟨f :: gs, g, rest, List.forall_mem_cons.mpr ⟨hf, hgs⟩, hg, ?_⟩
    rw [bytesOf_cons, List.append_assoc, heq, List.cons_append, bytesOf_cons, List.append_assoc]

theorem Continued.skipped {fs : List ServerFrame} (h : Continued fs) : ∀ f ∈ fs, f.Skipped := by
  induction h with
  | last hf => exact List.forall_mem_singleton.mpr (.inr (.inr hf))
  | more hf _ _ ih => exact List.forall_mem_cons.mpr ⟨.inr (.inr hf), ih⟩
  | control hf _ _ ih => exact List.forall_mem_cons.mpr ⟨hf.imp_right .inl, ih⟩

/-- **Reassembly**: a call returns the message, and takes all of its fragments, so that no call
after it finds one. -/
def Reassembled (tls : Tls) (ws : AlpacaWebSocket) (first : ServerFrame) (tail : List ServerFrame)
    (after : List UInt8) : Prop :=
  ∃ ws₁, ws.readFrame tls = some (ws₁, .message (whole first tail)) ∧ ws₁.pending = after

variable {tls : Tls} {ws : AlpacaWebSocket} {first : ServerFrame} {tail : List ServerFrame}
  {after : List UInt8}

/-- A call returns the first fragment, and leaves the others. -/
theorem readFrame_fragment (hd : tls.Delivers) (hdata : first.Data)
    (h : ws.pending = bytesOf (first :: tail) ++ after) :
    ∃ ws₁, ws.readFrame tls = some (ws₁, .message first.payload) ∧
      ws₁.pending = bytesOf tail ++ after := by
  rw [bytesOf_cons, List.append_assoc] at h
  obtain ⟨ws₁, h₁, hpend, -⟩ := readPass_data hd hdata h
  exact ⟨ws₁, frameLoop_some h₁, hpend⟩

/-- **The other fragments are lost**: the call after it drops them, and returns the message
behind. -/
theorem readFrames_fragments {next : ServerFrame} (hd : tls.Delivers)
    (hf : Fragmented first tail (bytesOf [next] ++ after)) (ha : tls.Answers (pings tail))
    (hnext : next.Data) (h : ws.pending = bytesOf (first :: (tail ++ [next])) ++ after) :
    ∃ ws₁, readFrames tls 2 ws = some (ws₁, [.message first.payload, .message next.payload]) ∧
      ws₁.pending = after := by
  have hskip : ∀ f ∈ tail, f.Skipped := by
    rcases hf.tail with htail | ⟨rfl, -⟩
    · exact htail.skipped
    · simp
  obtain ⟨ws₁, h₁, hpend₁⟩ := readFrame_fragment hd hf.data h
  obtain ⟨ws₂, -, h₂, hpend₂, -, -⟩ := readFrame_message hd ha hskip hnext hpend₁
  exact ⟨ws₂, readFrames_cons h₁ (readFrames_cons h₂ rfl), hpend₂⟩

theorem whole_eq_first_iff :
    whole first tail = first.payload ↔ ∀ f ∈ tail, f.Continuation → f.payload = [] := by
  rw [whole, List.append_right_eq_self, List.flatMap_eq_nil_iff]
  simp only [List.mem_filter, decide_eq_true_iff, and_imp]

/-- **When fragments are reassembled**: the payload is right where the continuation frames are
empty, and the message is put together only where no continuation frame follows. -/
theorem reassembled_iff (hd : tls.Delivers) (hf : Fragmented first tail after)
    (h : ws.pending = bytesOf (first :: tail) ++ after) :
    ((∃ ws₁, ws.readFrame tls = some (ws₁, .message (whole first tail))) ↔
      ∀ f ∈ tail, f.Continuation → f.payload = []) ∧
    (Reassembled tls ws first tail after ↔ ¬ ContinuationFollows (bytesOf tail ++ after)) := by
  obtain ⟨ws₁, h₁, hpend₁⟩ := readFrame_fragment hd hf.data h
  have hmsg : ∀ ws₂ p, ws.readFrame tls = some (ws₂, .message p) ↔
      ws₁ = ws₂ ∧ first.payload = p := by
    intro ws₂ p
    rw [h₁, Option.some.injEq, Prod.mk.injEq, Read.message.injEq]
  constructor
  · rw [← whole_eq_first_iff]
    constructor
    · rintro ⟨ws₂, h₂⟩
      exact ((hmsg _ _).mp h₂).2.symm
    · exact fun hw => ⟨ws₁, (hmsg _ _).mpr ⟨rfl, hw.symm⟩⟩
  · rcases hf.tail with htail | ⟨rfl, hnone⟩
    · -- the fragments that follow are still there when the call returns
      refine iff_of_false ?_ (not_not_intro (htail.follows after))
      rintro ⟨ws₂, h₂, hpend₂⟩
      obtain ⟨rfl, -⟩ := (hmsg _ _).mp h₂
      have hlen := length_le_bytesOf tail
      have hnil : bytesOf tail = [] := List.append_left_eq_self.mp (hpend₁.symm.trans hpend₂)
      rw [hnil] at hlen
      obtain rfl := List.eq_nil_of_length_eq_zero (Nat.le_zero.mp hlen)
      exact nomatch htail
    · refine iff_of_true ?_ hnone
      exact ⟨ws₁, (hmsg _ _).mpr ⟨rfl, (List.append_nil _).symm⟩, hpend₁⟩

/-- Text "a", not the last fragment. -/
def fragmentA : ServerFrame := ⟨false, .text, .short, ascii "a", by decide⟩

/-- "b", the last fragment. -/
def fragmentB : ServerFrame := ⟨true, .continuation, .short, ascii "b", by decide⟩

/-- A ping between them. -/
def pingBetween : ServerFrame := ⟨true, .ping, .medium, ascii "p", by decide⟩

theorem reassembled_iff_two :
    ((∃ ws₁, (connected (bytesOf [fragmentA, pingBetween, fragmentB] ++ [0])).readFrame slowTls =
        some (ws₁, .message (whole fragmentA [pingBetween, fragmentB]))) ↔
      ∀ f ∈ [pingBetween, fragmentB], f.Continuation → f.payload = []) ∧
    (Reassembled slowTls (connected (bytesOf [fragmentA, pingBetween, fragmentB] ++ [0])) fragmentA
      [pingBetween, fragmentB] [0] ↔
      ¬ ContinuationFollows (bytesOf [pingBetween, fragmentB] ++ [0])) :=
  reassembled_iff slowTls_delivers ⟨.inl rfl, rfl,
    .inl (.control (.inl rfl) rfl (.last rfl rfl))⟩ rfl

/-- Text "ab" in two fragments: the call returns "a". -/
theorem fragment_alone :
    slowTls.Delivers ∧ Fragmented fragmentA [fragmentB] [] ∧
    whole fragmentA [fragmentB] = ascii "ab" ∧
    ((connected (bytesOf [fragmentA, fragmentB])).readFrame slowTls).map (·.2) =
      some (.message (ascii "a")) ∧
    ¬ Reassembled slowTls (connected (bytesOf [fragmentA, fragmentB])) fragmentA [fragmentB]
      [] := by
  have hread : ((connected (bytesOf [fragmentA, fragmentB])).readFrame slowTls).map (·.2) =
      some (.message (ascii "a")) := by decide
  refine ⟨slowTls_delivers, ⟨.inl rfl, rfl, .inl (.last rfl rfl)⟩, rfl, hread, ?_⟩
  rintro ⟨ws₁, h₁, -⟩
  rw [h₁] at hread
  exact absurd (Read.message.inj (Option.some.inj hread)) (by decide)

end TradeFeed
