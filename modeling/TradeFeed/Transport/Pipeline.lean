import TradeFeed.Transport.Threads

/-!
# The pipeline

What the two threads and the rings between them are for: a gateway that offers messages to a bounded
queue, an engine that takes them up one by one and offers its responses to another, and the gateway
that takes the responses. In `Pipeline` each of these is one step, and an offer to a full queue is
lost; the source ignores what `push` returns, on both sides.

`Threads` refines it: whatever the order of the threads' steps, those of the rings included, what
they come to is what the pipeline comes to by steps in some order (`threads_refine`). Nothing is
assumed about the rings having room, so this is also the account of an overload
(`overload_account`): the engine does what one thread would have done with the messages that found
room, each once and in order, and the gateway gets, in order, the responses that found room.
-/

namespace TradeFeed

open Lib

variable {cap k C : ℕ}

/-! ### The pipeline -/

/-- Two bounded queues around an engine. -/
structure Pipeline (cap : ℕ) where
  /-- The messages. -/
  inbound : Fifo InboundMessage
  /-- The responses. -/
  outbound : Fifo OutboundMessage
  /-- The messages that were not offered yet. -/
  unread : List InboundMessage
  /-- The engine. -/
  engine : MatchingEngine cap
  /-- What the engine is in the middle of. -/
  task : Task

/-- A step of the pipeline. -/
inductive PipelineStep where
  /-- The gateway offers the next message. -/
  | offer
  /-- The gateway takes the next response. -/
  | collect
  /-- The engine takes a message, processes it, or offers a response. -/
  | engine (tsc : Timestamp)

namespace Pipeline

/-- Nothing has happened yet, and these messages will come. -/
def new (cap : ℕ) (msgs : List InboundMessage) : Pipeline cap :=
  ⟨.start [], .start [], msgs, .new cap, .polling⟩

/-- The gateway offers the next message. -/
def offer (C : ℕ) (p : Pipeline cap) : Pipeline cap :=
  match p.unread with
  | [] => p
  | msg :: unread => { p with inbound := p.inbound.step C (.push msg), unread := unread }

/-- The engine's next step. -/
def runEngine (C : ℕ) (p : Pipeline cap) (tsc : Timestamp) : Pipeline cap :=
  match p.task with
  | .polling =>
    match p.inbound.held with
    | [] => p
    | msg :: _ => { p with inbound := p.inbound.step C .pop, task := .processing msg }
  | .processing msg =>
    match p.engine.process tsc msg with
    | some (engine, out) => { p with engine := engine, task := .emitting out }
    | none => p
  | .emitting [] => { p with task := .polling }
  | .emitting (out :: outs) =>
    { p with outbound := p.outbound.step C (.push out), task := .emitting outs }

/-- A step. -/
def step (C : ℕ) (p : Pipeline cap) : PipelineStep → Pipeline cap
  | .offer => p.offer C
  | .collect => { p with outbound := p.outbound.step C .pop }
  | .engine tsc => p.runEngine C tsc

/-- Any steps, in any order. -/
abbrev run (C : ℕ) (p : Pipeline cap) (as : List PipelineStep) : Pipeline cap :=
  Machine.run (step C) p as

end Pipeline

/-! ### Rings, call by call -/

namespace RingState

variable {T : Type*} {s : RingState T k} {items : List T}

theorem undecided_of_idle (h : s.producer.pushing = none) (items : List T) :
    s.undecided items = items := by
  unfold undecided
  cases hpc : s.producer with
  | reloaded x head n => simp [hpc, Producer.pushing] at h
  | _ => rfl

theorem undecided_nil (s : RingState T k) : s.undecided [] = [] := by
  unfold undecided
  cases s.producer with
  | reloaded x head n => exact ite_self _
  | _ => rfl

/-- **A push in one step**: a step of the thread that pushes is nothing, or the offer of the next
item that is not decided. -/
theorem Inv.pushEach_atomic (hk : k < 64) (h : s.Inv) (hpushing : s.Pushing items) :
    ((s.pushEach items).1.fifo = s.fifo ∧ (s.pushEach items).1.undecided (s.pushEach items).2 =
      s.undecided items) ∨
      ∃ item, s.undecided items = item :: (s.pushEach items).1.undecided (s.pushEach items).2 ∧
        (s.pushEach items).1.fifo = s.fifo.step (2 ^ k) (.push item) := by
  cases items with
  | nil => exact .inl ⟨rfl, rfl⟩
  | cons item items =>
    have hp := h.producer
    unfold ProducerOk at hp
    unfold Pushing at hpushing
    have hstay : (∀ x head, s.producer ≠ .publish x head) → (s.produce item).fifo = s.fifo :=
      fun hpc => fifo_produce hpc item
    unfold RingState.pushEach undecided
    cases hpc : s.producer with
    | idle =>
      refine .inl ⟨hstay (by simp [hpc]), ?_⟩
      simp only [RingState.produce, hpc]
    | loaded x head =>
      refine .inl ⟨hstay (by simp [hpc]), ?_⟩
      simp only [RingState.produce, hpc]
      split_ifs <;> rfl
    | reload x head =>
      by_cases hfull : s.held = 2 ^ k
      · -- the ring is full, and the call will find it so
        have hroom : ¬ s.fifo.held.length < 2 ^ k := by
          rw [fifo_held, hfull]
          exact Nat.lt_irrefl _
        refine .inr ⟨item, ?_, (hstay (by simp [hpc])).trans (Fifo.step_push_full hroom item).symm⟩
        simp only [RingState.produce, hpc, if_pos hfull]
        rfl
      · refine .inl ⟨hstay (by simp [hpc]), ?_⟩
        simp only [RingState.produce, hpc, if_neg hfull]
    | reloaded x head n =>
      refine .inl ⟨hstay (by simp [hpc]), ?_⟩
      rw [hpc] at hp
      obtain ⟨rfl, hn⟩ := hp
      have hroom := h.room
      have hiff : s.ring.head - s.ring.cachedTail ≥ capacity k ↔ n = 2 ^ k :=
        (h.full_iff hk).trans (by omega)
      simp only [RingState.produce, hpc, hiff]
      split_ifs <;> rfl
    | copy x head =>
      refine .inl ⟨hstay (by simp [hpc]), ?_⟩
      simp only [RingState.produce, hpc]
    | publish x head =>
      obtain rfl : item = x := by simpa [hpc, Producer.pushing] using hpushing
      refine .inr ⟨item, ?_, h.fifo_publish hpc item⟩
      simp only [RingState.produce, hpc]

/-- **A pop in one step**: a step of the thread that pops is nothing, or the pop of the oldest
item. -/
theorem Inv.consume_atomic (h : s.Inv) :
    (s.consumer.popping = none ∧ s.consume.fifo = s.fifo) ∨
      ∃ x rest, s.consumer.popping = some x ∧ s.fifo.held = x :: rest ∧
        s.consume.fifo = s.fifo.step (2 ^ k) .pop := by
  obtain ⟨hpops, hpushes, -⟩ := s.consume_spec
  cases hpopping : s.consumer.popping with
  | none =>
    rw [hpopping, Option.toList_none, List.append_nil] at hpops
    exact .inl ⟨rfl, fifo_congr hpushes hpops⟩
  | some x =>
    right
    have hc := h.consumer
    unfold ConsumerOk at hc
    cases hpc : s.consumer with
    | publish y tail =>
      obtain rfl : y = x := by simpa [hpc, Consumer.popping] using hpopping
      rw [hpc] at hc
      obtain ⟨hlt, hget⟩ := List.getElem?_eq_some_iff.mp hc.2.2
      have hheld : s.fifo.held = y :: s.pushes.drop (s.pops.length + 1) := by
        rw [fifo, List.drop_eq_getElem_cons hlt, hget]
      rw [hpopping, Option.toList_some] at hpops
      refine ⟨y, _, rfl, hheld, ?_⟩
      rw [Fifo.step_pop hheld, fifo, hpushes, hpops, List.length_append]
      rfl
    | _ => simp [hpc, Consumer.popping] at hpopping

theorem consume_undecided (s : RingState T k) (items : List T) :
    s.consume.undecided items = s.undecided items := by
  rw [undecided, (s.consume_spec).2.2, undecided]

theorem Pushing.consume (h : s.Pushing items) : s.consume.Pushing items :=
  fun item hitem => h item ((s.consume_spec).2.2 ▸ hitem)

theorem Inv.pushEach (hk : k < 64) (h : s.Inv) (items : List T) : (s.pushEach items).1.Inv := by
  cases items with
  | nil => exact h
  | cons item items => exact h.produce hk item

end RingState

/-! ### The threads, call by call -/

/-- The task, less the response whose push is decided. -/
def Task.decided (task : Task) (outbound : RingState OutboundMessage k) : Task :=
  match task with
  | .emitting out => .emitting (outbound.undecided out)
  | task => task

namespace Threads

variable {t : Threads cap k}

/-- What the threads have come to, a call that has taken effect being over. -/
def view (t : Threads cap k) : Pipeline cap where
  inbound := t.inbound.fifo
  outbound := t.outbound.fifo
  unread := t.inbound.undecided t.unread
  engine := t.engine
  task := t.task.decided t.outbound

/-- Both rings are in order, and what is being pushed is the first of what is left. -/
structure Ready (t : Threads cap k) : Prop where
  /-- The inbound ring. -/
  inbound : t.inbound.Inv
  /-- The outbound ring. -/
  outbound : t.outbound.Inv
  /-- The gateway's push. -/
  reading : t.inbound.Pushing t.unread
  /-- The engine's push. -/
  emitting : t.outbound.Pushing t.task.left

theorem new_ready (cap : ℕ) (inBuffer : Fin (2 ^ k) → InboundMessage)
    (outBuffer : Fin (2 ^ k) → OutboundMessage) (msgs : List InboundMessage) :
    (new cap inBuffer outBuffer msgs).Ready :=
  ⟨RingState.new_inv _, RingState.new_inv _, nofun, nofun⟩

/-- Nothing is pushed where nothing is left. -/
theorem Ready.idle (h : t.Ready) (hleft : t.task.left = []) :
    t.outbound.producer.pushing = none := by
  cases hpushing : t.outbound.producer.pushing with
  | none => rfl
  | some item =>
    have hhead := h.emitting item hpushing
    rw [hleft] at hhead
    cases hhead

/-- The engine's step that asks for a message. -/
theorem Ready.poll (h : t.Ready) (htask : t.task = .polling) (tsc : Timestamp) :
    (t.runEngine tsc).Ready ∧
      ((t.runEngine tsc).view = t.view ∨
        (t.runEngine tsc).view = t.view.step (2 ^ k) (.engine tsc)) := by
  have hleft : ∀ r : RingState OutboundMessage k, t.task.decided r = .polling :=
    fun r => by rw [htask]; rfl
  have hemitting := h.emitting
  rw [htask] at hemitting
  unfold runEngine
  rw [htask]
  simp only [view, RingState.consume_undecided, hleft]
  rcases h.inbound.consume_atomic with ⟨hnone, hstay⟩ | ⟨msg, rest, hsome, hheld, hpop⟩
  · rw [hnone]
    exact ⟨⟨h.inbound.consume, h.outbound, h.reading.consume, hemitting⟩, .inl (by rw [hstay]; rfl)⟩
  · rw [hsome]
    refine ⟨⟨h.inbound.consume, h.outbound, h.reading.consume, hemitting⟩, .inr ?_⟩
    simp only [Pipeline.step, Pipeline.runEngine, hheld, hpop]
    rfl

/-- The engine's step that processes a message. -/
theorem Ready.process (h : t.Ready) {msg : InboundMessage} (htask : t.task = .processing msg)
    (tsc : Timestamp) :
    (t.runEngine tsc).Ready ∧
      ((t.runEngine tsc).view = t.view ∨
        (t.runEngine tsc).view = t.view.step (2 ^ k) (.engine tsc)) := by
  have hidle := h.idle (by rw [htask]; rfl)
  have hview : t.view.task = .processing msg := by simp only [view, htask]; rfl
  unfold runEngine
  rw [htask]
  cases hproc : t.engine.process tsc msg with
  | none =>
    simp only [hproc]
    exact ⟨h, .inl trivial⟩
  | some r =>
    obtain ⟨engine, out⟩ := r
    simp only [hproc]
    have hpushing : t.outbound.Pushing out := fun item hitem => by
      rw [hidle] at hitem
      cases hitem
    refine ⟨⟨h.inbound, h.outbound, h.reading, hpushing⟩, .inr ?_⟩
    have hproc' : t.view.engine.process tsc msg = some (engine, out) := hproc
    simp only [Pipeline.step, Pipeline.runEngine, hview, hproc']
    simp only [view, Task.decided, RingState.undecided_of_idle hidle]

/-- The engine's step that pushes responses. -/
theorem Ready.emit (hk : k < 64) (h : t.Ready) {out : List OutboundMessage}
    (htask : t.task = .emitting out) (tsc : Timestamp) :
    (t.runEngine tsc).Ready ∧
      ((t.runEngine tsc).view = t.view ∨
        (t.runEngine tsc).view = t.view.step (2 ^ k) (.engine tsc)) := by
  have hview : t.view.task = .emitting (t.outbound.undecided out) := by simp only [view, htask]; rfl
  have hemitting : t.outbound.Pushing out := by
    have hemitting := h.emitting
    rwa [htask] at hemitting
  unfold runEngine
  rw [htask]
  cases out with
  | nil =>
    rw [RingState.undecided_nil] at hview
    refine ⟨⟨h.inbound, h.outbound, h.reading, hemitting⟩, .inr ?_⟩
    simp only [Pipeline.step, Pipeline.runEngine, hview]
    rfl
  | cons item rest =>
    refine ⟨⟨h.inbound, h.outbound.pushEach hk _, h.reading, hemitting.pushEach⟩, ?_⟩
    rcases h.outbound.pushEach_atomic hk hemitting with ⟨hstay, hsame⟩ | ⟨x, hleft, hpush⟩
    · left
      simp only [view, Task.decided, hstay, hsame, htask]
    · right
      rw [hleft] at hview
      simp only [Pipeline.step, Pipeline.runEngine, hview]
      simp only [view, Task.decided, hpush]

/-- **A step** of the threads is nothing to the pipeline, or a step of it. -/
theorem Ready.step (hk : k < 64) (h : t.Ready) (a : ThreadStep) :
    (t.step a).Ready ∧
      ((t.step a).view = t.view ∨ ∃ a', (t.step a).view = t.view.step (2 ^ k) a') := by
  cases a with
  | readClient =>
    refine ⟨⟨h.inbound.pushEach hk _, h.outbound, h.reading.pushEach, h.emitting⟩, ?_⟩
    rcases h.inbound.pushEach_atomic hk h.reading with ⟨hstay, hsame⟩ | ⟨msg, hleft, hpush⟩
    · left
      simp only [Threads.step, readClient, view, hstay, hsame]
    · refine .inr ⟨.offer, ?_⟩
      have hunread : t.view.unread = msg :: _ := hleft
      simp only [Pipeline.step, Pipeline.offer, hunread]
      simp only [Threads.step, readClient, view, hpush]
  | drainOutbound =>
    refine ⟨⟨h.inbound, h.outbound.consume, h.reading, h.emitting.consume⟩, ?_⟩
    have htask : t.task.decided t.outbound.consume = t.task.decided t.outbound := by
      cases htask : t.task with
      | emitting out => exact congrArg Task.emitting (t.outbound.consume_undecided out)
      | _ => rfl
    simp only [Threads.step, drainOutbound, view, htask]
    rcases h.outbound.consume_atomic with ⟨-, hstay⟩ | ⟨x, rest, -, -, hpop⟩
    · exact .inl (by rw [hstay])
    · exact .inr ⟨.collect, by rw [hpop]; rfl⟩
  | engine tsc =>
    have hengine : (t.runEngine tsc).Ready ∧
        ((t.runEngine tsc).view = t.view ∨
          (t.runEngine tsc).view = t.view.step (2 ^ k) (.engine tsc)) := by
      cases htask : t.task with
      | polling => exact h.poll htask tsc
      | processing msg => exact h.process htask tsc
      | emitting out => exact h.emit hk htask tsc
    exact ⟨hengine.1, hengine.2.imp_right fun hstep => ⟨_, hstep⟩⟩

/-- **A run** of the threads is one of the pipeline. -/
theorem Ready.run (hk : k < 64) (h : t.Ready) (steps : List ThreadStep) :
    (t.run steps).Ready ∧ ∃ as, (t.run steps).view = t.view.run (2 ^ k) as :=
  ⟨Machine.invariant (I := Ready) (fun _ a h => (Ready.step hk h a).1) h steps,
    Machine.simulation (fun _ a h => (Ready.step hk h a).1)
    (fun _ a h => (Ready.step hk h a).2) h steps⟩

end Threads

/-! ### What the pipeline does -/

/-- Some items were offered to a queue, these are left, and those that found room went through
it. -/
structure Passed {T : Type*} (C : ℕ) (items left : List T) (q : Fifo T) : Prop where
  /-- The offers were of the first items, and those that found less than `C` items held were
  taken. -/
  offered : ∃ ops, Fifo.offered ops ++ left = items ∧ q = Fifo.run C (.start []) ops ∧
    q.pushed = Fifo.taken (Fifo.offered ops) (Fifo.rooms C 0 ops)
  /-- They are given in order. -/
  order : q.popped ++ q.held = q.pushed

namespace Passed

variable {T : Type*} {items left : List T} {q : Fifo T}

theorem of_run (ops : List (FifoOp T)) (h : Fifo.offered ops ++ left = items) :
    Passed C items left (Fifo.run C (.start []) ops) :=
  ⟨⟨ops, h, rfl, Fifo.run_pushed (.start []) ops⟩, Fifo.run_order C [] ops⟩

/-- What is offered next. -/
theorem push {x : T} (h : Passed C items (x :: left) q) :
    Passed C items left (q.step C (.push x)) := by
  obtain ⟨ops, hoffered, rfl, -⟩ := h.offered
  rw [← Fifo.run_snoc]
  exact of_run _ (by rw [Fifo.offered_append, List.append_assoc]; exact hoffered)

theorem pop (h : Passed C items left q) : Passed C items left (q.step C .pop) := by
  obtain ⟨ops, hoffered, rfl, -⟩ := h.offered
  rw [← Fifo.run_snoc]
  exact of_run _
    (by rw [Fifo.offered_append]; exact (congrArg (· ++ left) (List.append_nil _)).trans hoffered)

/-- More items come behind those. -/
theorem more (h : Passed C items left q) (new : List T) :
    Passed C (items ++ new) (left ++ new) q := by
  obtain ⟨ops, hoffered, rfl, -⟩ := h.offered
  exact of_run _ (by rw [← List.append_assoc, hoffered])

end Passed

/-- The messages and the responses have passed the queues, and in between the engine has done what
it does on one thread. -/
structure Pipeline.Account (C : ℕ) (msgs : List InboundMessage) (p : Pipeline cap) : Prop where
  /-- The messages. -/
  read : Passed C msgs p.unread p.inbound
  /-- The engine, and the responses. -/
  done : ∃ (done : List (Timestamp × InboundMessage)) (outs : List (List OutboundMessage))
    (Q : Queues cap),
    (MatchingEngine.new cap).run done = some (p.engine, outs) ∧ TradeFeed.Inv p.engine.book Q ∧
      done.map Prod.snd ++ p.task.taken = p.inbound.popped ∧
        Passed C outs.flatten p.task.left p.outbound

namespace Pipeline

variable {msgs : List InboundMessage} {p : Pipeline cap}

theorem new_account (C cap : ℕ) (msgs : List InboundMessage) : (new cap msgs).Account C msgs where
  read := .of_run [] rfl
  done := ⟨[], [], fun _ _ => [], rfl, TradeFeed.new_inv cap, rfl, .of_run [] rfl⟩

theorem popped_push (q : Fifo InboundMessage) (msg : InboundMessage) :
    (q.step C (.push msg)).popped = q.popped := by
  by_cases h : q.held.length < C
  · rw [Fifo.step_push h]
  · rw [Fifo.step_push_full h]

/-- The engine's steps. -/
theorem Account.runEngine (hcap : cap < 2 ^ 32) (h : p.Account C msgs) (tsc : Timestamp) :
    (p.runEngine C tsc).Account C msgs := by
  obtain ⟨done, outs, Q, hrun, hinv, htaken, hleft⟩ := h.done
  unfold Pipeline.runEngine
  cases htask : p.task with
  | polling =>
    rw [htask] at htaken hleft
    cases hheld : p.inbound.held with
    | nil => exact ⟨h.read, done, outs, Q, hrun, hinv, by rwa [htask], by rwa [htask]⟩
    | cons msg rest =>
      refine ⟨h.read.pop, done, outs, Q, hrun, hinv, ?_, hleft⟩
      rw [Fifo.step_pop hheld, ← htaken]
      exact congrArg (· ++ [msg]) (List.append_nil _).symm
  | processing msg =>
    rw [htask] at htaken hleft
    obtain ⟨e, Q', out, hproc, hp⟩ := process_spec hinv hcap tsc msg
    simp only [hproc]
    refine ⟨h.read, done ++ [(tsc, msg)], outs ++ [out], Q', run_trans hrun (run_single hproc),
      hp.inv hinv, ?_, ?_⟩
    · rw [List.map_append]
      exact (List.append_nil _).trans htaken
    · rw [List.flatten_append, List.flatten_singleton]
      exact hleft.more out
  | emitting out =>
    rw [htask] at htaken hleft
    cases out with
    | nil => exact ⟨h.read, done, outs, Q, hrun, hinv, htaken, hleft⟩
    | cons out rest => exact ⟨h.read, done, outs, Q, hrun, hinv, htaken, hleft.push⟩

/-- **A step.** -/
theorem Account.step (hcap : cap < 2 ^ 32) (h : p.Account C msgs) (a : PipelineStep) :
    (p.step C a).Account C msgs := by
  cases a with
  | offer =>
    show (p.offer C).Account C msgs
    unfold offer
    cases hunread : p.unread with
    | nil => exact h
    | cons msg rest =>
      have hread := h.read
      rw [hunread] at hread
      obtain ⟨done, outs, Q, hrun, hinv, htaken, hleft⟩ := h.done
      exact ⟨hread.push, done, outs, Q, hrun, hinv,
        htaken.trans (popped_push p.inbound msg).symm, hleft⟩
  | collect =>
    obtain ⟨done, outs, Q, hrun, hinv, htaken, hleft⟩ := h.done
    exact ⟨h.read, done, outs, Q, hrun, hinv, htaken, hleft.pop⟩
  | engine tsc => exact h.runEngine hcap tsc

/-- **A run.** -/
theorem Account.run (hcap : cap < 2 ^ 32) (h : p.Account C msgs) (as : List PipelineStep) :
    (p.run C as).Account C msgs :=
  Machine.invariant (I := fun p : Pipeline cap => p.Account C msgs)
    (fun _ a h => h.step hcap a) h as

end Pipeline

/-! ### The threads -/

theorem Threads.view_new (cap : ℕ) (inBuffer : Fin (2 ^ k) → InboundMessage)
    (outBuffer : Fin (2 ^ k) → OutboundMessage) (msgs : List InboundMessage) :
    (Threads.new cap inBuffer outBuffer msgs).view = Pipeline.new cap msgs :=
  rfl

/-- **The threads refine the pipeline**: whatever the order of their steps, those of the rings
included, they come to what the pipeline comes to by some steps. -/
theorem threads_refine (hk : k < 64) (inBuffer : Fin (2 ^ k) → InboundMessage)
    (outBuffer : Fin (2 ^ k) → OutboundMessage) (msgs : List InboundMessage)
    (steps : List ThreadStep) :
    ∃ as, ((Threads.new cap inBuffer outBuffer msgs).run steps).view = (Pipeline.new cap msgs).run
      (2 ^ k) as :=
  ((Threads.new_ready cap inBuffer outBuffer msgs).run hk steps).2

/-- With rings of one slot: the gateway pushes a message, and the next finds the ring full; the
engine answers the first, and its answer to the third finds the other ring full. -/
def overload : List ThreadStep :=
  List.replicate 8 .readClient ++ List.replicate 12 (.engine 31) ++ List.replicate 6 .readClient ++
    List.replicate 14 (.engine 32) ++ List.replicate 6 .drainOutbound

theorem threads_refine_overload :
    ∃ as, ((Threads.new (k := 0) 4 (fun _ => cancelNone) (fun _ => .zero) [cancelNone, cancelNone,
      cancelNone]).run overload).view = (Pipeline.new 4 [cancelNone, cancelNone, cancelNone]).run
      (2 ^ 0) as :=
  threads_refine (by decide) _ _ _ _

/-- **An overload's account**: whatever the order of the threads' steps, and whether or not the
rings have room, the messages are offered in order, those that find the inbound ring below its
capacity go through it in order, and the engine does with them what it does on one thread; its
responses are offered in order, and those that find the outbound ring below its capacity go through
it, in order, to the gateway. A push that failed found its ring full. -/
theorem overload_account (hk : k < 64) (hcap : cap < 2 ^ 32)
    (inBuffer : Fin (2 ^ k) → InboundMessage) (outBuffer : Fin (2 ^ k) → OutboundMessage)
    (msgs : List InboundMessage) (steps : List ThreadStep) :
    let t := (Threads.new cap inBuffer outBuffer msgs).run steps
    ∃ (done : List (Timestamp × InboundMessage)) (outs : List (List OutboundMessage)),
      Passed (2 ^ k) msgs (t.inbound.undecided t.unread) t.inbound.fifo ∧
      done.map Prod.snd ++ t.task.taken = t.inbound.pops ∧
      (MatchingEngine.new cap).run done = some (t.engine, outs) ∧
      Passed (2 ^ k) outs.flatten (t.outbound.undecided t.task.left) t.outbound.fifo ∧
      (∀ n, .pushFailed n ∈ t.inbound.returns → n = 2 ^ k) ∧
        ∀ n, .pushFailed n ∈ t.outbound.returns → n = 2 ^ k := by
  intro t
  obtain ⟨hready, as, has⟩ := (Threads.new_ready cap inBuffer outBuffer msgs).run hk steps
  have h : t.view.Account (2 ^ k) msgs := by
    show ((Threads.new cap inBuffer outBuffer msgs).run steps).view.Account _ _
    rw [has, Threads.view_new]
    exact (Pipeline.new_account (2 ^ k) cap msgs).run hcap as
  obtain ⟨done, outs, -, hrun, -, htaken, hleft⟩ := h.done
  have htask : t.view.task.taken = t.task.taken ∧
      t.view.task.left = t.outbound.undecided t.task.left := by
    show (t.task.decided t.outbound).taken = _ ∧ (t.task.decided t.outbound).left = _
    cases t.task with
    | emitting out => exact ⟨rfl, rfl⟩
    | _ => exact ⟨rfl, (RingState.undecided_nil _).symm⟩
  rw [htask.1] at htaken
  rw [htask.2] at hleft
  exact ⟨done, outs, h.read, htaken, hrun, hleft, hready.inbound.full, hready.outbound.full⟩

/-- One push fails on each side. -/
theorem overload_account_full :
    let t := (Threads.new (k := 0) 4 (fun _ => cancelNone) (fun _ => .zero) [cancelNone, cancelNone,
      cancelNone]).run overload
    (¬ t.inbound.NoneFailed ∧ ¬ t.outbound.NoneFailed ∧ t.inbound.pops.length = 2 ∧
      t.outbound.pops.length = 1) ∧
    ∃ (done : List (Timestamp × InboundMessage)) (outs : List (List OutboundMessage)),
      Passed (2 ^ 0) [cancelNone, cancelNone, cancelNone] (t.inbound.undecided t.unread)
        t.inbound.fifo ∧
      done.map Prod.snd ++ t.task.taken = t.inbound.pops ∧
      (MatchingEngine.new 4).run done = some (t.engine, outs) ∧
      Passed (2 ^ 0) outs.flatten (t.outbound.undecided t.task.left) t.outbound.fifo ∧
      (∀ n, .pushFailed n ∈ t.inbound.returns → n = 2 ^ 0) ∧
        ∀ n, .pushFailed n ∈ t.outbound.returns → n = 2 ^ 0 :=
  ⟨by decide +kernel, overload_account (by decide) (by decide) _ _ _ _⟩

end TradeFeed
