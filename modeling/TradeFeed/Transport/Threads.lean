import TradeFeed.Engine.Protocol
import TradeFeed.Engine.Timestamps
import TradeFeed.Transport.PushEach

/-!
# The two threads

The gateway thread (`Gateway::read_client`, `Gateway::drain_outbound` of
`socket_transport.h`) pushes the clients' messages onto the inbound ring, and pops
responses from the outbound ring. The engine thread (`MatchingEngine::run`) pops the
messages, processes each, and pushes its responses. `Threads.run` takes their steps, those
of the rings included, in any order, and with any reading of the counter at each message;
it lets the gateway be in a push and in a pop at once, which the source does not.

Whatever the order, as long as no push fails, the engine has done what it would have done
with the same messages on one thread (`Threads.Inv`), and what comes out does not depend
on the order (`one_thread`).
-/

namespace TradeFeed

open Lib

variable {cap k : ℕ}

/-! ### The threads -/

/-- What the engine thread is in the middle of. -/
inductive Task where
  /-- It asks for the next message. -/
  | polling
  /-- It has popped a message. -/
  | processing (msg : InboundMessage)
  /-- It pushes responses; these are left. -/
  | emitting (out : List OutboundMessage)

/-- The message that is not processed yet. -/
def Task.taken : Task → List InboundMessage
  | .processing msg => [msg]
  | _ => []

/-- The responses that are not pushed yet. -/
def Task.left : Task → List OutboundMessage
  | .emitting out => out
  | _ => []

/-- The gateway, the engine and the rings between them. -/
structure Threads (cap k : ℕ) where
  /-- `inbound_`. -/
  inbound : RingState InboundMessage k
  /-- `outbound_`. -/
  outbound : RingState OutboundMessage k
  /-- The messages that the gateway has not pushed yet. -/
  unread : List InboundMessage
  /-- The engine. -/
  engine : MatchingEngine cap
  /-- The engine's thread. -/
  task : Task

/-- A step of one of the threads. -/
inductive ThreadStep where
  /-- The gateway's, in `read_client`. -/
  | readClient
  /-- The gateway's, in `drain_outbound`. -/
  | drainOutbound
  /-- The engine's, when the counter reads `tsc`. -/
  | engine (tsc : Timestamp)

namespace Threads

/-- Nothing has happened yet, and these messages will come. -/
def new (cap : ℕ) (inBuffer : Fin (2 ^ k) → InboundMessage)
    (outBuffer : Fin (2 ^ k) → OutboundMessage) (msgs : List InboundMessage) : Threads cap k :=
  ⟨.new inBuffer, .new outBuffer, msgs, .new cap, .polling⟩

/-- `Gateway::read_client`: push the next message. -/
def readClient (t : Threads cap k) : Threads cap k :=
  let (inbound, unread) := t.inbound.pushEach t.unread
  { t with inbound := inbound, unread := unread }

/-- `Gateway::drain_outbound`: pop the next response. -/
def drainOutbound (t : Threads cap k) : Threads cap k := { t with outbound := t.outbound.consume }

/-- `MatchingEngine::run`: pop a message, process it, push the responses, and again. -/
def runEngine (t : Threads cap k) (tsc : Timestamp) : Threads cap k :=
  match t.task with
  | .polling =>
    { t with
      inbound := t.inbound.consume
      task := match t.inbound.consumer.popping with
        | some msg => .processing msg
        | none => .polling }
  | .processing msg =>
    match t.engine.process tsc msg with
    | some (engine, out) => { t with engine := engine, task := .emitting out }
    | none => t
  | .emitting [] => { t with task := .polling }
  | .emitting out =>
    let (outbound, out) := t.outbound.pushEach out
    { t with outbound := outbound, task := .emitting out }

/-- A step of one of the threads. -/
def step (t : Threads cap k) : ThreadStep → Threads cap k
  | .readClient => t.readClient
  | .drainOutbound => t.drainOutbound
  | .engine tsc => t.runEngine tsc

/-- Any steps, in any order. -/
abbrev run (t : Threads cap k) (steps : List ThreadStep) : Threads cap k := Machine.run step t steps

/-- No push has failed. -/
def NoneFailed (t : Threads cap k) : Prop := t.inbound.NoneFailed ∧ t.outbound.NoneFailed

instance (t : Threads cap k) : Decidable t.NoneFailed := inferInstanceAs (Decidable (_ ∧ _))

/-! ### The rings, among the threads -/

theorem pushEach_step {T : Type*} (s : RingState T k) (items : List T) :
    (s.pushEach items).1 = s ∨ ∃ a, (s.pushEach items).1 = s.step a := by
  cases items with
  | nil => exact Or.inl rfl
  | cons item items => exact Or.inr ⟨.produce item, rfl⟩

/-- A step does nothing to the inbound ring, or is a step of it. -/
theorem inbound_step (t : Threads cap k) (a : ThreadStep) :
    (t.step a).inbound = t.inbound ∨ ∃ b, (t.step a).inbound = t.inbound.step b := by
  cases a with
  | readClient => exact pushEach_step t.inbound t.unread
  | drainOutbound => exact Or.inl rfl
  | engine tsc =>
    unfold step runEngine
    cases t.task with
    | polling => exact Or.inr ⟨.consume, rfl⟩
    | processing msg =>
      simp only
      cases t.engine.process tsc msg <;> exact Or.inl rfl
    | emitting out => cases out <;> exact Or.inl rfl

/-- A step does nothing to the outbound ring, or is a step of it. -/
theorem outbound_step (t : Threads cap k) (a : ThreadStep) :
    (t.step a).outbound = t.outbound ∨ ∃ b, (t.step a).outbound = t.outbound.step b := by
  cases a with
  | readClient => exact Or.inl rfl
  | drainOutbound => exact Or.inr ⟨.consume, rfl⟩
  | engine tsc =>
    unfold step runEngine
    cases t.task with
    | polling => exact Or.inl rfl
    | processing msg =>
      simp only
      cases t.engine.process tsc msg <;> exact Or.inl rfl
    | emitting out =>
      cases out with
      | nil => exact Or.inl rfl
      | cons out rest => exact pushEach_step t.outbound (out :: rest)

/-- What a ring returned to a thread stays so. -/
theorem NoneFailed.of_step {t : Threads cap k} {a : ThreadStep} (h : (t.step a).NoneFailed) :
    t.NoneFailed := by
  have hring : ∀ {T : Type} {s s' : RingState T k}, (s' = s ∨ ∃ b, s' = s.step b) →
      s.returns <+: s'.returns := by
    rintro T s s' (rfl | ⟨b, rfl⟩)
    · exact List.prefix_rfl
    · cases b with
      | produce item => exact s.produce_returns item
      | consume => exact s.consume_returns
  exact ⟨h.1.earlier (hring (t.inbound_step a)), h.2.earlier (hring (t.outbound_step a))⟩

/-- Among the threads the inbound ring does what it can do alone. -/
theorem inbound_run (t : Threads cap k) (steps : List ThreadStep) :
    ∃ as, (t.run steps).inbound = t.inbound.run as :=
  Machine.simulation (I := fun _ => True) (fun _ _ h => h) (fun t a _ => t.inbound_step a)
    trivial steps

/-- So does the outbound ring. -/
theorem outbound_run (t : Threads cap k) (steps : List ThreadStep) :
    ∃ as, (t.run steps).outbound = t.outbound.run as :=
  Machine.simulation (I := fun _ => True) (fun _ _ h => h) (fun t a _ => t.outbound_step a)
    trivial steps

/-! ### What the threads have done -/

/-- The messages have come in order, the engine has done what it would have done on one thread, and
its responses have gone out in order. -/
structure Inv (msgs : List InboundMessage) (t : Threads cap k) : Prop where
  /-- The gateway pushes the messages that come. -/
  read : t.inbound.pushes ++ t.unread = msgs
  /-- It is pushing the first of those that are left. -/
  reading : t.inbound.Pushing t.unread
  /-- The engine has processed what it popped, and pushed the responses. -/
  done : ∃ (done : List (Timestamp × InboundMessage)) (outs : List (List OutboundMessage))
    (Q : Queues cap),
    (MatchingEngine.new cap).run done = some (t.engine, outs) ∧ TradeFeed.Inv t.engine.book Q ∧
      done.map Prod.snd ++ t.task.taken = t.inbound.pops ∧
      t.outbound.pushes ++ t.task.left = outs.flatten
  /-- It is pushing the first of those that are left. -/
  emitting : t.outbound.Pushing t.task.left

/-- At first nothing is done. -/
theorem new_inv (cap : ℕ) (inBuffer : Fin (2 ^ k) → InboundMessage)
    (outBuffer : Fin (2 ^ k) → OutboundMessage) (msgs : List InboundMessage) :
    (new cap inBuffer outBuffer msgs).Inv msgs where
  read := rfl
  reading := nofun
  done := ⟨[], [], fun _ _ => [], rfl, TradeFeed.new_inv cap, rfl, rfl⟩
  emitting := nofun

variable {msgs : List InboundMessage} {t : Threads cap k}

/-- The gateway's steps that push. -/
theorem Inv.readClient (h : t.Inv msgs) (hok : t.readClient.NoneFailed) :
    t.readClient.Inv msgs := by
  obtain ⟨hpushes, hpops⟩ := RingState.pushEach_spec h.reading hok.1
  obtain ⟨done, outs, Q, hrun, hinv, htaken, hleft⟩ := h.done
  exact ⟨hpushes.trans h.read, h.reading.pushEach,
    ⟨done, outs, Q, hrun, hinv, htaken.trans hpops.symm, hleft⟩, h.emitting⟩

/-- The gateway's steps that pop. -/
theorem Inv.drainOutbound (h : t.Inv msgs) : t.drainOutbound.Inv msgs := by
  obtain ⟨-, hpushes, hproducer⟩ := t.outbound.consume_spec
  obtain ⟨done, outs, Q, hrun, hinv, htaken, hleft⟩ := h.done
  refine ⟨h.read, h.reading, ⟨done, outs, Q, hrun, hinv, htaken, ?_⟩, ?_⟩
  · show t.outbound.consume.pushes ++ t.task.left = _
    rw [hpushes, hleft]
  · intro item hitem
    exact h.emitting item (hproducer ▸ hitem)

/-- The engine's steps that pop. -/
theorem Inv.poll (h : t.Inv msgs) (htask : t.task = .polling) (tsc : Timestamp) :
    (t.runEngine tsc).Inv msgs := by
  obtain ⟨hpops, hpushes, hproducer⟩ := t.inbound.consume_spec
  obtain ⟨done, outs, Q, hrun, hinv, htaken, hleft⟩ := h.done
  have hemitting := h.emitting
  have htaken : done.map Prod.snd = t.inbound.pops := by
    simpa only [htask, Task.taken, List.append_nil] using htaken
  rw [htask] at hleft hemitting
  have hread : t.inbound.consume.pushes ++ t.unread = msgs := by rw [hpushes, h.read]
  have hreading : t.inbound.consume.Pushing t.unread :=
    fun item hitem => h.reading item (hproducer ▸ hitem)
  unfold runEngine
  rw [htask]
  cases hpopping : t.inbound.consumer.popping with
  | none =>
    rw [hpopping, Option.toList_none, List.append_nil] at hpops
    exact ⟨hread, hreading,
      ⟨done, outs, Q, hrun, hinv, (List.append_nil _).trans (htaken.trans hpops.symm), hleft⟩,
      hemitting⟩
  | some msg =>
    rw [hpopping, Option.toList_some] at hpops
    refine ⟨hread, hreading, ⟨done, outs, Q, hrun, hinv, ?_, hleft⟩, hemitting⟩
    show done.map Prod.snd ++ [msg] = t.inbound.consume.pops
    rw [hpops, htaken]

/-- The engine's step that processes a message. -/
theorem Inv.process (hcap : cap < 2 ^ 32) (h : t.Inv msgs) {msg : InboundMessage}
    (htask : t.task = .processing msg) (tsc : Timestamp) :
    (t.runEngine tsc).Inv msgs := by
  obtain ⟨done, outs, Q, hrun, hinv, htaken, hleft⟩ := h.done
  have hemitting := h.emitting
  obtain ⟨e, Q', out, hproc, hp⟩ := process_spec hinv hcap tsc msg
  rw [htask] at htaken hleft hemitting
  have hidle : ∀ item, t.outbound.producer.pushing ≠ some item :=
    fun item hitem => nomatch hemitting item hitem
  unfold runEngine
  rw [htask]
  simp only [hproc]
  refine ⟨h.read, h.reading, ⟨done ++ [(tsc, msg)], outs ++ [out], Q', ?_, hp.inv hinv, ?_, ?_⟩,
    fun item hitem => absurd hitem (hidle item)⟩
  · exact run_trans hrun (run_single hproc)
  · rw [List.map_append]
    exact (List.append_nil _).trans htaken
  · rw [List.flatten_append, ← hleft, List.flatten_singleton]
    exact congrArg (· ++ out) (List.append_nil _).symm

/-- The engine's steps that push. -/
theorem Inv.emit (h : t.Inv msgs) {out : List OutboundMessage} (htask : t.task = .emitting out)
    (tsc : Timestamp) (hok : (t.runEngine tsc).NoneFailed) :
    (t.runEngine tsc).Inv msgs := by
  obtain ⟨done, outs, Q, hrun, hinv, htaken, hleft⟩ := h.done
  have hemitting := h.emitting
  rw [htask] at htaken hleft hemitting
  unfold runEngine at *
  rw [htask] at hok ⊢
  cases out with
  | nil => exact ⟨h.read, h.reading, ⟨done, outs, Q, hrun, hinv, htaken, hleft⟩, hemitting⟩
  | cons item rest =>
    have hpushes := (RingState.pushEach_spec hemitting hok.2).1
    exact ⟨h.read, h.reading, ⟨done, outs, Q, hrun, hinv, htaken, hpushes.trans hleft⟩,
      RingState.Pushing.pushEach hemitting⟩

/-- **A step.** -/
theorem Inv.step (hcap : cap < 2 ^ 32) (h : t.Inv msgs) {a : ThreadStep}
    (hok : (t.step a).NoneFailed) :
    (t.step a).Inv msgs := by
  cases a with
  | readClient => exact h.readClient hok
  | drainOutbound => exact h.drainOutbound
  | engine tsc =>
    cases htask : t.task with
    | polling => exact h.poll htask tsc
    | processing msg => exact h.process hcap htask tsc
    | emitting out => exact h.emit htask tsc hok

/-- **A run** in which no push fails. -/
theorem Inv.run (hcap : cap < 2 ^ 32) (h : t.Inv msgs) (steps : List ThreadStep)
    (hok : (t.run steps).NoneFailed) :
    (t.run steps).Inv msgs :=
  Machine.invariant (I := fun t : Threads cap k => t.NoneFailed → t.Inv msgs)
    (fun _ _ h hok => (h hok.of_step).step hcap hok) (fun _ => h) steps hok

/-! ### One thread -/

/-- Both rings are empty, and the engine is between messages. -/
def Drained (t : Threads cap k) : Prop :=
  t.inbound.held = 0 ∧ t.outbound.held = 0 ∧ t.task = .polling

instance (t : Threads cap k) : Decidable (t.task = .polling) :=
  match t.task with
  | .polling => isTrue rfl
  | .processing _ => isFalse nofun
  | .emitting _ => isFalse nofun

instance (t : Threads cap k) : Decidable t.Drained := inferInstanceAs (Decidable (_ ∧ _ ∧ _))

/-- Nothing is lost when a ring is empty. -/
theorem pops_eq {T : Type*} {s : RingState T k} (h : s.pops <+: s.pushes) (hheld : s.held = 0) :
    s.pops = s.pushes :=
  h.eq_of_length (Nat.le_antisymm h.length_le (Nat.sub_eq_zero_iff_le.mp hheld))

/-- What the gateway has popped are responses to the first messages, as one thread would have given
them. -/
theorem Inv.popped {msgs : List InboundMessage} {t : Threads cap k} (h : t.Inv msgs)
    (hin : t.inbound.pops <+: t.inbound.pushes) (hout : t.outbound.pops <+: t.outbound.pushes) :
    ∃ (done : List (Timestamp × InboundMessage)) (outs : List (List OutboundMessage)),
      (MatchingEngine.new cap).run done = some (t.engine, outs) ∧ done.map Prod.snd <+: msgs ∧
        t.outbound.pops <+: outs.flatten ∧
        (t.Drained → t.outbound.pops = outs.flatten ∧ done.length = t.inbound.pushes.length) := by
  obtain ⟨done, outs, Q, hrun, -, htaken, hleft⟩ := h.done
  refine ⟨done, outs, hrun, ?_, ?_, ?_⟩
  · apply List.IsPrefix.trans _ (hin.trans ⟨t.unread, h.read⟩)
    exact ⟨t.task.taken, htaken⟩
  · exact hout.trans ⟨t.task.left, hleft⟩
  · rintro ⟨hheld, hheld', htask⟩
    rw [htask] at htaken hleft
    refine ⟨?_, ?_⟩
    · rw [pops_eq hout hheld', ← hleft]
      exact (List.append_nil _).symm
    · rw [← pops_eq hin hheld, ← htaken, List.length_append, List.length_map]
      rfl

end Threads

/-- A run on some messages gives the responses of a run on the first of them, and then others. -/
theorem run_first {e e₀ e₁ : MatchingEngine cap} {done timed : List (Timestamp × InboundMessage)}
    {outs₀ outs : List (List OutboundMessage)} (h₀ : e.run done = some (e₀, outs₀))
    (h : e.run timed = some (e₁, outs))
    (hfirst : done.map (fun m => m.2.untimed) <+: timed.map fun m => m.2.untimed) :
    outs₀.flatten.map OutboundMessage.untimed =
      (outs.take done.length).flatten.map OutboundMessage.untimed ∧
      (done.length = timed.length → e₀.untimed = e₁.untimed ∧
        outs₀.flatten.map OutboundMessage.untimed = outs.flatten.map OutboundMessage.untimed) := by
  obtain ⟨e', hrun⟩ := run_take h done.length
  have hsame : done.map (fun m => m.2.untimed) = (timed.take done.length).map fun m =>
      m.2.untimed := by
    have htake := List.prefix_iff_eq_take.mp hfirst
    rwa [List.length_map, ← List.map_take] at htake
  obtain ⟨hengine, houts⟩ := MatchingEngine.run_alike h₀ hrun hsame
  have hflat : outs₀.flatten.map OutboundMessage.untimed =
      (outs.take done.length).flatten.map OutboundMessage.untimed := by
    rw [List.map_flatten, houts, ← List.map_flatten]
  refine ⟨hflat, fun hall => ?_⟩
  rw [hall, List.take_length, h, Option.some.injEq, Prod.mk.injEq] at hrun
  obtain ⟨rfl, hrun⟩ := hrun
  rw [hall, ← hrun] at hflat
  exact ⟨hengine, hflat⟩

open Threads in
/-- **Trades do not depend on the threads**: whatever the order of their steps, as long as no push
fails, the gateway has popped the first of the responses that the same messages get on one thread,
whenever they are received and taken up; and all the responses to what it pushed, when the rings are
drained and the engine is between messages. -/
theorem one_thread (hk : k < 64) (hcap : cap < 2 ^ 32) (inBuffer : Fin (2 ^ k) → InboundMessage)
    (outBuffer : Fin (2 ^ k) → OutboundMessage) (msgs : List InboundMessage)
    (steps : List ThreadStep)
    (hok : ((Threads.new cap inBuffer outBuffer msgs).run steps).NoneFailed)
    (timed : List (Timestamp × InboundMessage))
    (htimed : timed.map (fun m => m.2.untimed) = msgs.map InboundMessage.untimed) :
    let t := (Threads.new cap inBuffer outBuffer msgs).run steps
    ∃ e outs, (MatchingEngine.new cap).run timed = some (e, outs) ∧
      t.outbound.pops.map OutboundMessage.untimed <+: outs.flatten.map OutboundMessage.untimed ∧
      (t.Drained → t.outbound.pops.map OutboundMessage.untimed =
        (outs.take t.inbound.pushes.length).flatten.map OutboundMessage.untimed) ∧
      (t.Drained → t.unread = [] → t.engine.untimed = e.untimed ∧
        t.outbound.pops.map OutboundMessage.untimed = outs.flatten.map OutboundMessage.untimed) ∧
      ∀ timed' : List (Timestamp × InboundMessage),
        timed'.map (fun m => m.2.untimed) = msgs.map InboundMessage.untimed →
        ∃ e' outs', (MatchingEngine.new cap).run timed' = some (e', outs') ∧
          e'.untimed = e.untimed ∧
          outs'.map (List.map OutboundMessage.untimed) =
            outs.map (List.map OutboundMessage.untimed) := by
  intro t
  have h : t.Inv msgs := (Threads.new_inv cap inBuffer outBuffer msgs).run hcap steps hok
  obtain ⟨as, has⟩ := (Threads.new cap inBuffer outBuffer msgs).inbound_run steps
  obtain ⟨bs, hbs⟩ := (Threads.new cap inBuffer outBuffer msgs).outbound_run steps
  obtain ⟨done, outs₀, hrun₀, hdone, hpops, hdrained⟩ :=
    h.popped (has ▸ RingState.pops_prefix hk inBuffer as)
      (hbs ▸ RingState.pops_prefix hk outBuffer bs)
  have hfirst : done.map (fun m => m.2.untimed) <+: timed.map fun m => m.2.untimed := by
    rw [htimed]
    have hmap := hdone.map InboundMessage.untimed
    rwa [List.map_map] at hmap
  have htotal : ∀ l : List (Timestamp × InboundMessage),
      ∃ e outs, (MatchingEngine.new cap).run l = some (e, outs) := by
    intro l
    obtain ⟨e, -, outs, -, hrun, -⟩ :=
      run_answered (e := MatchingEngine.new cap) (new_inv cap) hcap rfl l
    exact ⟨e, outs, hrun⟩
  obtain ⟨e, outs, hrun⟩ := htotal timed
  obtain ⟨hflat, hall⟩ := run_first hrun₀ hrun hfirst
  refine ⟨e, outs, hrun, ?_, ?_, ?_, ?_⟩
  · apply (hpops.map _).trans
    rw [hflat]
    exact ((List.take_prefix _ _).flatten).map _
  · intro hd
    rw [(hdrained hd).1, hflat, (hdrained hd).2]
  · intro hd hunread
    have hpushes := h.read
    rw [hunread, List.append_nil] at hpushes
    have hlen := congrArg List.length htimed
    rw [List.length_map, List.length_map, ← hpushes, ← (hdrained hd).2] at hlen
    rw [(hdrained hd).1]
    exact hall hlen.symm
  · intro timed' htimed'
    obtain ⟨e', outs', hrun'⟩ := htotal timed'
    obtain ⟨he, hout'⟩ := MatchingEngine.run_alike hrun' hrun (htimed'.trans htimed.symm)
    exact ⟨e', outs', hrun', he, hout'⟩

/-- A message that cancels an order that is not there. -/
def cancelNone : InboundMessage := ⟨.cancelOrder, .buy, .limit, 1, 7, 0, 0, 30⟩

/-- The gateway pushes, the engine runs and the gateway pops, turn by turn. -/
def threadTurns (n : ℕ) : List ThreadStep :=
  (List.replicate n [.readClient, .engine 31, .drainOutbound]).flatten

/-- A share is offered, and bought: the gateway gets two answers and two reports, those of one
thread. -/
theorem one_thread_trade :
    let t := (Threads.new (k := 3) 4 (fun _ => cancelNone) (fun _ => .zero) [sellOne, buyOne]).run
      (threadTurns 60)
    t.Drained ∧ t.unread = [] ∧
    t.outbound.pops.map OutboundMessage.type = [.orderAccepted, .orderAccepted, .orderExecuted,
      .orderExecuted] ∧
    ∃ e outs, (MatchingEngine.new 4).run [(1, sellOne), (2, buyOne)] = some (e, outs) ∧
      t.engine.untimed = e.untimed ∧
      t.outbound.pops.map OutboundMessage.untimed = outs.flatten.map OutboundMessage.untimed := by
  intro t
  have hdrained : t.Drained ∧ t.unread = [] := by decide +kernel
  have htypes : t.outbound.pops.map OutboundMessage.type =
      [.orderAccepted, .orderAccepted, .orderExecuted, .orderExecuted] := by decide +kernel
  obtain ⟨e, outs, hrun, -, -, hall, -⟩ :=
    @one_thread 4 3 (by decide) (by decide) (fun _ => cancelNone) (fun _ => .zero)
      [sellOne, buyOne] (threadTurns 60) (by decide +kernel) [(1, sellOne), (2, buyOne)] rfl
  exact ⟨hdrained.1, hdrained.2, htypes, e, outs, hrun, hall hdrained.1 hdrained.2⟩

end TradeFeed
