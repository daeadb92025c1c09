import Mathlib.Data.Prod.Lex
import TradeFeed.Engine.ReportCount
import TradeFeed.Lib.LeadsTo
import TradeFeed.Transport.Exchange

/-!
# Every message is answered

Once the clients send no more, the threads come to rest with nothing left behind, if only each goes
on taking steps: first the gateway has offered what it has read, then the engine has taken up what
found room and offered its responses, and then the gateway has sent those. No call of `push` or
`pop` waits for the other thread, and a `pop` that comes too early is made again; so each part has a
rank that its own steps make smaller and those of the others leave alone.

This is where wrapping would show: after 2⁶⁴ pushes a ring that is not empty looks empty for good.
As there are no more than three reports a message, fewer than 2⁶⁴ / 3 messages are few enough for
both rings.
-/

namespace TradeFeed

open Lib

variable {cap k : ℕ}

/-! ### What is left of a call -/

/-- How many steps of `push` are left at most. -/
def Producer.rank {T : Type*} : Producer T → ℕ
  | .idle => 6
  | .loaded _ _ => 5
  | .reload _ _ => 4
  | .reloaded _ _ _ => 3
  | .copy _ _ => 2
  | .publish _ _ => 1

namespace RingState

variable {T : Type*} {s : RingState T k}

/-- How many steps it takes to push these items, at most. -/
def pushRank (s : RingState T k) (items : List T) : ℕ := 6 * items.length + s.producer.rank

/-- How many steps it takes to pop an item, at most, when the ring holds one: a call that has seen
an empty ring fails first. -/
def popRank (s : RingState T k) : ℕ :=
  match s.consumer with
  | .idle => 6
  | .loaded _ => 5
  | .reload _ => 4
  | .reloaded tail _ => if s.ring.cachedHead ≤ tail then 7 else 3
  | .copy _ => 2
  | .publish _ _ => 1

theorem popRank_le (s : RingState T k) : s.popRank ≤ 7 := by
  unfold popRank
  cases s.consumer with
  | reloaded tail n =>
    simp only
    split_ifs <;> decide
  | _ => simp

theorem popRank_pos (s : RingState T k) : 0 < s.popRank := by
  unfold popRank
  cases s.consumer with
  | reloaded tail n =>
    simp only
    split_ifs <;> decide
  | _ => simp

/-- Every step of the thread that pushes is one step less. -/
theorem pushEach_rank (s : RingState T k) (item : T) (items : List T) :
    (s.pushEach (item :: items)).1.pushRank (s.pushEach (item :: items)).2 <
      s.pushRank (item :: items) := by
  unfold pushEach pushRank produce
  cases hpc : s.producer with
  | idle => simp [Producer.rank]
  | loaded x head =>
    simp only
    split_ifs <;> simp [Producer.rank]
  | reload x head => simp [Producer.rank]
  | reloaded x head n =>
    simp only
    split_ifs
    · simp [Producer.rank]
      omega
    · simp [Producer.rank]
  | copy x head => simp [Producer.rank]
  | publish x head =>
    simp [Producer.rank]
    omega

/-- The other thread's steps do not count. -/
theorem consume_pushRank (s : RingState T k) (items : List T) :
    s.consume.pushRank items = s.pushRank items := by
  rw [pushRank, (s.consume_spec).2.2, pushRank]

/-- Where an item is popped, one less is held. -/
theorem Inv.held_popping (h : s.Inv) {x : T} (hx : s.consumer.popping = some x) :
    s.consume.held + 1 = s.held := by
  rcases h.consume_atomic with ⟨hnone, -⟩ | ⟨y, rest, -, hheld, hpop⟩
  · rw [hnone] at hx
    cases hx
  · rw [← fifo_held, ← fifo_held, hpop, Fifo.step_pop hheld, hheld]
    rfl

/-- An empty ring gives nothing. -/
theorem Inv.popping_none (h : s.Inv) (hheld : s.held = 0) : s.consumer.popping = none := by
  cases hx : s.consumer.popping with
  | none => rfl
  | some x =>
    have := h.held_popping hx
    omega

theorem Inv.held_waiting (h : s.Inv) (hx : s.consumer.popping = none) :
    s.consume.held = s.held := by
  rcases h.consume_atomic with ⟨-, hstay⟩ | ⟨y, rest, hsome, -⟩
  · rw [← fifo_held, ← fifo_held, hstay]
  · rw [hsome] at hx
    cases hx

/-- **A pop goes on**: where an item is held, each step of the thread that pops is one step less
until it has it. -/
theorem Inv.consume_rank (h : s.Inv) (hn : s.pushes.length < 2 ^ 64) (hheld : s.held ≠ 0)
    (hx : s.consumer.popping = none) : s.consume.popRank < s.popRank := by
  have hc := h.consumer
  unfold ConsumerOk at hc
  unfold RingState.consume popRank
  cases hpc : s.consumer with
  | idle => exact Nat.lt_succ_self 5
  | loaded tail =>
    simp only
    split_ifs <;> simp
  | reload tail =>
    rw [hpc] at hc
    obtain rfl : tail = s.ring.tail := hc
    -- `head_` is loaded anew, and shows the item
    have hlt : ¬ s.ring.head ≤ s.ring.tail := by
      rw [UInt64.le_iff_toNat_le, h.tail, h.head, UInt64.toNat_ofNat', Nat.mod_eq_of_lt hn]
      have hpos : s.pushes.length - s.pops.length ≠ 0 := hheld
      omega
    simp only [if_neg hlt]
    decide
  | reloaded tail n =>
    simp only
    split_ifs <;> simp
  | copy tail => exact Nat.lt_succ_self 1
  | publish x tail =>
    rw [hpc] at hx
    cases hx

end RingState

/-! ### What the threads have done so far -/

theorem Passed.length_pushed_le {T : Type*} {C : ℕ} {items left : List T} {q : Fifo T}
    (h : Passed C items left q) :
    q.pushed.length ≤ items.length := by
  obtain ⟨ops, hoffered, -, hpushed⟩ := h.offered
  rw [hpushed, ← hoffered, List.length_append]
  exact (Fifo.length_taken_le _ _).trans (Nat.le_add_right _ _)

namespace Threads

variable {msgs : List InboundMessage} {t : Threads cap k}

/-- The rings are in order, and what went through them is accounted for, whether or not pushes have
failed. -/
structure Live (msgs : List InboundMessage) (t : Threads cap k) : Prop where
  /-- The rings. -/
  ready : t.Ready
  /-- The account. -/
  account : t.view.Account (2 ^ k) msgs

theorem Live.step (hk : k < 64) (hcap : cap < 2 ^ 32) (h : t.Live msgs) (a : ThreadStep) :
    (t.step a).Live msgs := by
  obtain ⟨hready, hview⟩ := h.ready.step hk a
  refine ⟨hready, ?_⟩
  rcases hview with he | ⟨a', he⟩
  · rw [he]
    exact h.account
  · rw [he]
    exact h.account.step hcap a'

/-- **The rings' indices do not wrap** while there are no more than so many messages. -/
theorem Live.few (hcap : cap < 2 ^ 32) (h : t.Live msgs) (hfew : 3 * msgs.length < 2 ^ 64) :
    t.inbound.pushes.length < 2 ^ 64 ∧ t.outbound.pushes.length < 2 ^ 64 := by
  obtain ⟨done, outs, Q, hrun, -, htaken, hleft⟩ := h.account.done
  have hread : t.inbound.pushes.length ≤ msgs.length := h.account.read.length_pushed_le
  have hsent : t.outbound.pushes.length ≤ outs.flatten.length := hleft.length_pushed_le
  have hreports := run_reports_le hcap hrun
  have hpops : t.inbound.pops.length ≤ t.inbound.pushes.length := h.ready.inbound.order
  have hdone := congrArg List.length htaken
  rw [List.length_append, List.length_map] at hdone
  have hpopped : t.view.inbound.popped.length = t.inbound.pops.length := rfl
  omega

/-! ### The gateway offers what it has read -/

/-- Everything that was read is offered. -/
def Offered (msgs : List InboundMessage) (t : Threads cap k) : Prop := t.Live msgs ∧ t.unread = []

/-- A step of one of the threads, or of none. -/
def Moves (t : Threads cap k) (a : Option ThreadStep) (t' : Threads cap k) : Prop :=
  t' = match a with
    | some a => t.step a
    | none => t

/-- The engine's steps leave what the gateway has to push alone. -/
theorem runEngine_reading (t : Threads cap k) (tsc : Timestamp) :
    (t.runEngine tsc).unread = t.unread ∧
      ∀ items, (t.runEngine tsc).inbound.pushRank items = t.inbound.pushRank items := by
  unfold runEngine
  cases t.task with
  | polling => exact ⟨rfl, t.inbound.consume_pushRank⟩
  | processing msg =>
    simp only
    cases t.engine.process tsc msg <;> exact ⟨rfl, fun _ => rfl⟩
  | emitting out => cases out <;> exact ⟨rfl, fun _ => rfl⟩

/-- With nothing to push, the gateway's pushes do nothing. -/
theorem readClient_eq (h : t.unread = []) : t.readClient = t := by
  obtain ⟨inbound, outbound, unread, engine, task⟩ := t
  obtain rfl : unread = [] := h
  rfl

theorem Offered.step (hk : k < 64) (hcap : cap < 2 ^ 32) (h : t.Offered msgs) (a : ThreadStep) :
    (t.step a).Offered msgs := by
  refine ⟨h.1.step hk hcap a, ?_⟩
  cases a with
  | readClient => exact (congrArg Threads.unread (readClient_eq h.2)).trans h.2
  | drainOutbound => exact h.2
  | engine tsc => exact (t.runEngine_reading tsc).1.trans h.2

/-- The steps that are not the gateway's pushes leave those alone, which do one step less. -/
theorem Live.offers (hk : k < 64) (hcap : cap < 2 ^ 32) (h : t.Live msgs) (a : ThreadStep) :
    (t.step a).Offered msgs ∨ (t.step a).Live msgs ∧ (t.step a).inbound.pushRank (t.step a).unread ≤
      t.inbound.pushRank t.unread ∧
      (a = .readClient → (t.step a).inbound.pushRank (t.step a).unread <
        t.inbound.pushRank t.unread) := by
  have hlive := h.step hk hcap a
  cases a with
  | readClient =>
    cases hunread : t.unread with
    | nil => exact .inl ⟨hlive, (congrArg Threads.unread (readClient_eq hunread)).trans hunread⟩
    | cons msg rest =>
      have hlt := t.inbound.pushEach_rank msg rest
      have hstep : (t.step .readClient).inbound.pushRank (t.step .readClient).unread =
          (t.inbound.pushEach (msg :: rest)).1.pushRank (t.inbound.pushEach (msg :: rest)).2 := by
        rw [← hunread]
        rfl
      rw [hstep]
      exact .inr ⟨hlive, hlt.le, fun _ => hlt⟩
  | drainOutbound => exact .inr ⟨hlive, le_rfl, nofun⟩
  | engine tsc =>
    obtain ⟨hunread, hrank⟩ := t.runEngine_reading tsc
    refine .inr ⟨hlive, ?_, nofun⟩
    show (t.runEngine tsc).inbound.pushRank (t.runEngine tsc).unread ≤ _
    rw [hunread, hrank]

/-! ### The engine answers what it is offered -/

/-- What was offered is processed, and the responses are offered. -/
def Processed (msgs : List InboundMessage) (t : Threads cap k) : Prop :=
  t.Offered msgs ∧ t.inbound.held = 0 ∧ t.task = .polling

/-- How many steps of its task the engine has left, at most. -/
def taskRank (t : Threads cap k) : ℕ :=
  match t.task with
  | .polling => t.inbound.popRank
  | .processing _ => 0
  | .emitting out => 8 + t.outbound.pushRank out

/-- What the engine has left to do: the messages, and the steps of its task. -/
def engineRank (t : Threads cap k) : ℕ ×ₗ ℕ :=
  toLex (t.inbound.held + t.task.taken.length, t.taskRank)

/-- The engine's thread polls an empty ring. -/
theorem Processed.runEngine (h : t.Processed msgs) (tsc : Timestamp) :
    (t.runEngine tsc).inbound.held = 0 ∧ (t.runEngine tsc).task = .polling ∧
      (t.runEngine tsc).outbound = t.outbound := by
  obtain ⟨⟨hlive, -⟩, hheld, htask⟩ := h
  have hnone := hlive.ready.inbound.popping_none hheld
  unfold Threads.runEngine
  rw [htask]
  simp only [hnone]
  exact ⟨(hlive.ready.inbound.held_waiting hnone).trans hheld, trivial, trivial⟩

theorem Processed.step (hk : k < 64) (hcap : cap < 2 ^ 32) (h : t.Processed msgs) (a : ThreadStep) :
    (t.step a).Processed msgs := by
  refine ⟨h.1.step hk hcap a, ?_⟩
  cases a with
  | readClient =>
    show t.readClient.inbound.held = 0 ∧ t.readClient.task = .polling
    rw [readClient_eq h.1.2]
    exact h.2
  | drainOutbound => exact h.2
  | engine tsc =>
    obtain ⟨hheld, htask, -⟩ := h.runEngine tsc
    exact ⟨hheld, htask⟩

/-- **The engine goes on**: each of its steps is one less, until it has nothing to do. -/
theorem Offered.runEngine (hcap : cap < 2 ^ 32) (hfew : 3 * msgs.length < 2 ^ 64)
    (h : t.Offered msgs) (hbusy : ¬ t.Processed msgs) (tsc : Timestamp) :
    (t.runEngine tsc).engineRank < t.engineRank := by
  have hin := h.1.ready.inbound
  have hemitting := h.1.ready.emitting
  rw [engineRank, engineRank, Prod.Lex.toLex_lt_toLex]
  unfold Threads.runEngine
  cases htask : t.task with
  | polling =>
    have hheld : t.inbound.held ≠ 0 := fun h0 => hbusy ⟨h, h0, htask⟩
    cases hpopping : t.inbound.consumer.popping with
    | none =>
      refine .inr ⟨congrArg (· + 0) (hin.held_waiting hpopping), ?_⟩
      simp only [taskRank, htask]
      exact hin.consume_rank (h.1.few hcap hfew).1 hheld hpopping
    | some msg =>
      refine .inr ⟨hin.held_popping hpopping, ?_⟩
      simp only [taskRank, htask]
      exact t.inbound.popRank_pos
  | processing msg =>
    obtain ⟨done, outs, Q, -, hinv, -, -⟩ := h.1.account.done
    obtain ⟨e, Q', out, hproc, -⟩ := process_spec (e := t.engine) hinv hcap tsc msg
    simp only [hproc]
    exact .inl (Nat.lt_succ_self _)
  | emitting out =>
    cases out with
    | nil =>
      refine .inr ⟨rfl, ?_⟩
      simp only [taskRank, htask]
      have := t.inbound.popRank_le
      omega
    | cons out rest =>
      refine .inr ⟨rfl, ?_⟩
      simp only [taskRank, htask]
      exact Nat.add_lt_add_left (t.outbound.pushEach_rank out rest) 8

/-- The gateway's pops do not count. -/
theorem drainOutbound_engineRank (t : Threads cap k) :
    t.drainOutbound.engineRank = t.engineRank := by
  have hrank : t.drainOutbound.taskRank = t.taskRank := by
    unfold taskRank
    cases htask : t.task with
    | emitting out => simp [drainOutbound, htask, RingState.consume_pushRank]
    | _ => simp [drainOutbound, htask]
  rw [engineRank, hrank]
  rfl

/-- The steps that are not the engine's leave those alone, which do one step less. -/
theorem Offered.answers (hk : k < 64) (hcap : cap < 2 ^ 32) (hfew : 3 * msgs.length < 2 ^ 64)
    (h : t.Offered msgs) (a : ThreadStep) :
    (t.step a).Processed msgs ∨ (t.step a).Offered msgs ∧ (t.step a).engineRank ≤ t.engineRank ∧
      ((∃ tsc, a = .engine tsc) → (t.step a).engineRank < t.engineRank) := by
  by_cases hdone : t.Processed msgs
  · exact .inl (hdone.step hk hcap a)
  · have hoffered := h.step hk hcap a
    cases a with
    | readClient =>
      have hsame : (t.step .readClient).engineRank = t.engineRank :=
        congrArg engineRank (readClient_eq h.2)
      exact .inr ⟨hoffered, hsame.le, nofun⟩
    | drainOutbound => exact .inr ⟨hoffered, t.drainOutbound_engineRank.le, nofun⟩
    | engine tsc =>
      have hlt := h.runEngine hcap hfew hdone tsc
      exact .inr ⟨hoffered, hlt.le, fun _ => hlt⟩

/-! ### The gateway sends the responses -/

/-- Nothing is left anywhere. -/
def Settled (msgs : List InboundMessage) (t : Threads cap k) : Prop :=
  t.Processed msgs ∧ t.outbound.held = 0

/-- What the gateway has left to send. -/
def drainRank (t : Threads cap k) : ℕ ×ₗ ℕ := toLex (t.outbound.held, t.outbound.popRank)

/-- **The gateway goes on**: each of its steps that pop is one less, until the ring is empty. -/
theorem Processed.drainOutbound (hcap : cap < 2 ^ 32) (hfew : 3 * msgs.length < 2 ^ 64)
    (h : t.Processed msgs) (hheld : t.outbound.held ≠ 0) :
    t.drainOutbound.drainRank < t.drainRank := by
  have hout := h.1.1.ready.outbound
  rw [drainRank, drainRank, Prod.Lex.toLex_lt_toLex]
  cases hpopping : t.outbound.consumer.popping with
  | none => exact .inr ⟨hout.held_waiting hpopping,
    hout.consume_rank (h.1.1.few hcap hfew).2 hheld hpopping⟩
  | some out => exact .inl (Nat.lt_of_succ_le (hout.held_popping hpopping).le)

/-- The other steps do nothing to the outbound ring. -/
theorem Processed.outbound_step (h : t.Processed msgs) {a : ThreadStep} (ha : a ≠ .drainOutbound) :
    (t.step a).outbound = t.outbound := by
  cases a with
  | readClient => rfl
  | drainOutbound => exact absurd rfl ha
  | engine tsc => exact (h.runEngine tsc).2.2

theorem Settled.step (hk : k < 64) (hcap : cap < 2 ^ 32) (h : t.Settled msgs) (a : ThreadStep) :
    (t.step a).Settled msgs := by
  refine ⟨h.1.step hk hcap a, ?_⟩
  by_cases ha : a = .drainOutbound
  · subst ha
    have hout := h.1.1.1.ready.outbound
    exact (hout.held_waiting (hout.popping_none h.2)).trans h.2
  · rw [h.1.outbound_step ha]
    exact h.2

theorem Processed.sends (hk : k < 64) (hcap : cap < 2 ^ 32) (hfew : 3 * msgs.length < 2 ^ 64)
    (h : t.Processed msgs) (a : ThreadStep) :
    (t.step a).Settled msgs ∨ (t.step a).Processed msgs ∧ (t.step a).drainRank ≤ t.drainRank ∧
      (a = .drainOutbound → (t.step a).drainRank < t.drainRank) := by
  by_cases hheld : t.outbound.held = 0
  · exact .inl (Settled.step hk hcap ⟨h, hheld⟩ a)
  · have hstep := h.step hk hcap a
    by_cases ha : a = .drainOutbound
    · subst ha
      have hlt := h.drainOutbound hcap hfew hheld
      exact .inr ⟨hstep, hlt.le, fun _ => hlt⟩
    · refine .inr ⟨hstep, ?_, fun e => absurd e ha⟩
      rw [drainRank, h.outbound_step ha, drainRank]

/-! ### The threads come to rest -/

section Endless

variable {α : Type*} [Preorder α] [WellFoundedLT α] {ρ : Endless (@Moves cap k)}

/-- What steps of a fair kind lead to, each making the rank smaller. -/
theorem leadsTo {P Q : Threads cap k → Prop} {κ : ThreadStep → Prop} {μ : Threads cap k → α}
    (hfair : ρ.Fair fun a => ∃ b, a = some b ∧ κ b)
    (hstep : ∀ t a, P t → Q (t.step a) ∨ P (t.step a) ∧ μ (t.step a) ≤ μ t ∧
      (κ a → μ (t.step a) < μ t)) :
    ρ.LeadsTo P Q := by
  refine Endless.leadsTo_of_rank (μ := μ) hfair ?_ ?_
  · rintro t (_ | a) _ rfl h
    · exact .inr ⟨h, le_rfl⟩
    · exact (hstep t a h).imp_right fun ⟨hp, hle, _⟩ => ⟨hp, hle⟩
  · rintro t _ _ rfl h ⟨a, rfl, ha⟩
    exact (hstep t a h).imp_right fun ⟨hp, _, hlt⟩ => ⟨hp, hlt ha⟩

/-- **The threads come to rest**: the gateway's pushes, the engine and the gateway's pops each do
their part. -/
theorem settles (hk : k < 64) (hcap : cap < 2 ^ 32) (hfew : 3 * msgs.length < 2 ^ 64)
    (h : (ρ.state 0).Live msgs) (hpush : ρ.Fair fun a => ∃ b, a = some b ∧ b = .readClient)
    (hengine : ρ.Fair fun a => ∃ b, a = some b ∧ ∃ tsc, b = .engine tsc)
    (hdrain : ρ.Fair fun a => ∃ b, a = some b ∧ b = .drainOutbound) :
    ∃ n, ∀ m, n ≤ m → (ρ.state m).Settled msgs := by
  have hoffered : ρ.LeadsTo (Live msgs) (Offered msgs) := 
    leadsTo (μ := fun t => t.inbound.pushRank t.unread) hpush fun t a h => h.offers hk hcap a
  have hprocessed : ρ.LeadsTo (Offered msgs) (Processed msgs) :=
    leadsTo hengine fun t a h => h.answers hk hcap hfew a
  have hsettled : ρ.LeadsTo (Processed msgs) (Settled msgs) :=
    leadsTo hdrain fun t a h => h.sends hk hcap hfew a
  refine ((hoffered.trans hprocessed).trans hsettled).always ?_ h
  rintro t (_ | a) _ rfl ht
  · exact ht
  · exact ht.step hk hcap a

end Endless

end Threads

/-! ### The exchange comes to rest -/

/-- What is decided is decided, whatever comes behind it. -/
theorem RingState.undecided_append {T : Type*} {s : RingState T k} {items : List T}
    (h : s.Pushing items) (new : List T) :
    s.undecided (items ++ new) = s.undecided items ++ new := by
  cases items with
  | nil =>
    have hidle : s.producer.pushing = none := by
      cases hx : s.producer.pushing with
      | none => rfl
      | some x => cases h x hx
    rw [undecided_of_idle hidle, undecided_of_idle hidle]
  | cons item items =>
    unfold undecided
    cases s.producer with
    | reloaded x head n =>
      simp only
      split_ifs <;> rfl
    | _ => rfl

theorem Threads.Live.feed {t : Threads cap k} {msgs : List InboundMessage} (h : t.Live msgs)
    (new : List InboundMessage) :
    (t.feed new).Live (msgs ++ new) where
  ready := ⟨h.ready.inbound, h.ready.outbound, h.ready.reading.more new, h.ready.emitting⟩
  account := by
    refine ⟨?_, h.account.done⟩
    show Passed _ _ (t.inbound.undecided (t.unread ++ new)) t.inbound.fifo
    rw [RingState.undecided_append h.ready.reading]
    exact h.account.read.more new

/-- What a step does to the threads. -/
def ExchangeStep.thread : ExchangeStep → Option ThreadStep
  | .push => some .readClient
  | .drain _ => some .drainOutbound
  | .engine tsc => some (.engine tsc)
  | _ => none

namespace Exchange

variable {x x' : Exchange cap k} {a : ExchangeStep}

/-- What a step does to the threads: a step of theirs, or more messages come. -/
theorem step_threads (h : NetInv x.net) (hstep : x.step a = some x') :
    (∃ b, a.thread = some b ∧ x'.messages = x.messages ∧ x'.threads = x.threads.step b) ∨
      a.thread = none ∧
        ∃ new, x'.messages = x.messages ++ new ∧ x'.threads = x.threads.feed new := by
  cases a with
  | accept fd =>
    obtain rfl := Option.some.inj hstep
    refine .inr ⟨rfl, [], ?_, ?_⟩
    · exact (congrArg (List.map Prod.snd) (accept_frame x.net fd).1).trans (List.append_nil _).symm
    · rw [Threads.feed, List.append_nil]
  | readable fd rs =>
    obtain ⟨n, hread, hn⟩ := Option.bind_eq_some_iff.mp hstep
    obtain rfl := Option.some.inj hn
    obtain ⟨⟨new, hpushed⟩, -⟩ := read_frame h hread
    refine .inr ⟨rfl, new.map Prod.snd, ?_, ?_⟩
    · show n.pushed.map Prod.snd = _
      rw [← hpushed, List.map_append]
      rfl
    · show x.threads.feed ((n.pushed.drop x.net.pushed.length).map Prod.snd) = _
      rw [← hpushed, List.drop_left]
  | push =>
    obtain rfl := Option.some.inj hstep
    exact .inl ⟨_, rfl, rfl, rfl⟩
  | drain answer =>
    obtain rfl := Option.some.inj hstep
    refine .inl ⟨_, rfl, ?_, rfl⟩
    unfold drain messages
    cases x.threads.outbound.consumer.popping <;> rfl
  | engine tsc =>
    obtain rfl := Option.some.inj hstep
    exact .inl ⟨_, rfl, rfl, rfl⟩

/-- **A step** keeps the account. -/
theorem live_step (hk : k < 64) (hcap : cap < 2 ^ 32) (h : NetInv x.net)
    (hlive : x.threads.Live x.messages) (hstep : x.step a = some x') :
    x'.threads.Live x'.messages := by
  rcases step_threads h hstep with ⟨b, -, hmsgs, hthreads⟩ | ⟨-, new, hmsgs, hthreads⟩
  · rw [hmsgs, hthreads]
    exact hlive.step hk hcap b
  · rw [hmsgs, hthreads]
    exact hlive.feed new

/-- Where no messages come, the threads alone move. -/
theorem moves (h : NetInv x.net) (hstep : x.step a = some x') (hquiet : x'.messages = x.messages) :
    x.threads.Moves a.thread x'.threads := by
  rcases step_threads h hstep with ⟨b, ha, -, hthreads⟩ | ⟨ha, new, hmsgs, hthreads⟩
  · unfold Threads.Moves
    rw [ha]
    exact hthreads
  · obtain rfl : new = [] :=
      List.append_cancel_left (hmsgs.symm.trans (hquiet.trans (List.append_nil _).symm))
    unfold Threads.Moves
    rw [ha, hthreads, Threads.feed, List.append_nil]

/-- A state that can be reached. -/
structure Reached (inBuffer : Fin (2 ^ k) → InboundMessage)
    (outBuffer : Fin (2 ^ k) → OutboundMessage) (x : Exchange cap k) : Prop where
  /-- What the exchange comes to. -/
  inv : x.Inv inBuffer outBuffer
  /-- The threads' account. -/
  live : x.threads.Live x.messages

variable {inBuffer : Fin (2 ^ k) → InboundMessage} {outBuffer : Fin (2 ^ k) → OutboundMessage}

theorem Reached.step (hk : k < 64) (hcap : cap < 2 ^ 32) (h : x.Reached inBuffer outBuffer)
    (a : ExchangeStep) :
    ∃ x', x.step a = some x' ∧ x'.Reached inBuffer outBuffer := by
  obtain ⟨x', hstep, h'⟩ := h.inv.step hcap a
  exact ⟨x', hstep, h', live_step hk hcap h.inv.net h.live hstep⟩

theorem reached_run (hk : k < 64) (hcap : cap < 2 ^ 32) (inBuffer : Fin (2 ^ k) → InboundMessage)
    (outBuffer : Fin (2 ^ k) → OutboundMessage) (steps : List ExchangeStep) :
    ∃ x, (new cap inBuffer outBuffer).run steps = some x ∧ x.Reached inBuffer outBuffer :=
  Machine.tryRun_invariant (fun _ a (_ : a ∈ steps) h => Reached.step hk hcap h a)
    ⟨new_inv cap inBuffer outBuffer, Threads.new_ready cap inBuffer outBuffer [],
      Pipeline.new_account (2 ^ k) cap []⟩

/-- The threads' part of an endless run in which no messages come. -/
def threadsRun (ρ : Endless fun (x : Exchange cap k) a x' => x.step a = some x')
    (hinv : ∀ n, NetInv (ρ.state n).net)
    (hquiet : ∀ n, (ρ.state (n + 1)).messages = (ρ.state n).messages) :
    Endless (@Threads.Moves cap k) where
  state n := (ρ.state n).threads
  action n := (ρ.action n).thread
  step n := moves (hinv n) (ρ.step n) (hquiet n)

/-- What the threads have come to when nothing is left anywhere. -/
theorem Reached.settled (hk : k < 64) (h : x.Reached inBuffer outBuffer)
    (hsettled : x.threads.Settled x.messages) :
    x.threads.unread = [] ∧ x.threads.Drained ∧
      (∃ done outs, (MatchingEngine.new cap).run done = some (x.threads.engine, outs) ∧
        done.map Prod.snd = x.threads.inbound.pushes ∧ x.net.popped = x.threads.outbound.pushes) ∧
      (x.threads.NoneFailed →
        ∃ done outs, (MatchingEngine.new cap).run done = some (x.threads.engine, outs) ∧
        done.map Prod.snd = x.messages ∧ x.net.popped = outs.flatten) := by
  obtain ⟨⟨⟨hlive, hunread⟩, hin, htask⟩, hout⟩ := hsettled
  have hdrained : x.threads.Drained := ⟨hin, hout, htask⟩
  obtain ⟨as, has⟩ := h.inv.inbound
  obtain ⟨bs, hbs⟩ := h.inv.outbound
  have hpops : x.threads.inbound.pops <+: x.threads.inbound.pushes :=
    has ▸ RingState.pops_prefix hk inBuffer as
  have hpops' : x.threads.outbound.pops <+: x.threads.outbound.pushes :=
    hbs ▸ RingState.pops_prefix hk outBuffer bs
  refine ⟨hunread, hdrained, ?_, fun hok => ?_⟩
  · obtain ⟨done, outs, Q, hrun, -, htaken, -⟩ := hlive.account.done
    have hnone : x.threads.view.task.taken = [] := by
      show (x.threads.task.decided x.threads.outbound).taken = []
      rw [htask]
      rfl
    rw [hnone, List.append_nil] at htaken
    exact ⟨done, outs, hrun, htaken.trans (Threads.pops_eq hpops hin),
      h.inv.popped.trans (Threads.pops_eq hpops' hout)⟩
  · obtain ⟨done, outs, hrun, -, -, hall⟩ := h.inv.serial hk hok
    exact ⟨done, outs, hrun, hall hdrained hunread⟩

end Exchange

open Exchange in
/-- **Every message is answered**: from every state of every run of the exchange in which three
times the number of messages is below 2⁶⁴, once no more messages come, if the gateway goes on
pushing what it has read and popping reports, and the engine goes on, in any order, then from some
time on everything that found room in the inbound ring has been processed as on one thread, and
every report that found room in the outbound ring has been handed to `send`; all messages and all
their reports, if no push has failed. -/
theorem messages_answered (hk : k < 64) (hcap : cap < 2 ^ 32)
    (inBuffer : Fin (2 ^ k) → InboundMessage) (outBuffer : Fin (2 ^ k) → OutboundMessage)
    {steps : List ExchangeStep} {x : Exchange cap k}
    (hrun : (Exchange.new cap inBuffer outBuffer).run steps = some x)
    (hfew : 3 * x.messages.length < 2 ^ 64)
    (ρ : Endless fun (x : Exchange cap k) a x' => x.step a = some x') (h0 : ρ.state 0 = x)
    (hquiet : ∀ n, (ρ.state n).messages = x.messages) (hpush : ρ.Fair fun a => a = .push)
    (hengine : ρ.Fair fun a => ∃ tsc, a = .engine tsc)
    (hdrain : ρ.Fair fun a => ∃ answer, a = .drain answer) :
    ∃ n, ∀ m, n ≤ m → (ρ.state m).threads.unread = [] ∧ (ρ.state m).threads.Drained ∧
      (∃ done outs, (MatchingEngine.new cap).run done = some ((ρ.state m).threads.engine, outs) ∧
        done.map Prod.snd = (ρ.state m).threads.inbound.pushes ∧
        (ρ.state m).net.popped = (ρ.state m).threads.outbound.pushes) ∧
      ((ρ.state m).threads.NoneFailed → ∃ done outs,
        (MatchingEngine.new cap).run done = some ((ρ.state m).threads.engine, outs) ∧
        done.map Prod.snd = x.messages ∧ (ρ.state m).net.popped = outs.flatten) := by
  obtain ⟨x', hrun', hx⟩ := reached_run hk hcap inBuffer outBuffer steps
  obtain rfl : x' = x := Option.some.inj (hrun'.symm.trans hrun)
  -- every state of the endless run can be reached
  have hreached : ∀ n, (ρ.state n).Reached inBuffer outBuffer := fun n => by
    refine Endless.keeps (P := fun x : Exchange cap k => x.Reached inBuffer outBuffer)
      (fun s a s' hstep h => ?_) (by rw [h0]; exact hx)
      (Nat.zero_le n)
    obtain ⟨s₁, hstep', h'⟩ := Reached.step hk hcap h a
    obtain rfl : s₁ = s' := Option.some.inj (hstep'.symm.trans hstep)
    exact h'
  have hlive : (ρ.state 0).threads.Live x'.messages := by
    have hlive := (hreached 0).live
    rwa [hquiet] at hlive
  obtain ⟨n, hn⟩ := Threads.settles hk hcap hfew
    (ρ := threadsRun ρ (fun n => (hreached n).inv.net) fun n =>
      (hquiet (n + 1)).trans (hquiet n).symm) hlive
    (fun n => by
      obtain ⟨m, hnm, hm⟩ := hpush n
      exact ⟨m, hnm, .readClient, congrArg ExchangeStep.thread hm, rfl⟩)
    (fun n => by
      obtain ⟨m, hnm, tsc, hm⟩ := hengine n
      exact ⟨m, hnm, .engine tsc, congrArg ExchangeStep.thread hm, tsc, rfl⟩)
    fun n => by
      obtain ⟨m, hnm, answer, hm⟩ := hdrain n
      exact ⟨m, hnm, .drainOutbound, congrArg ExchangeStep.thread hm, rfl⟩
  refine ⟨n, fun m hnm => ?_⟩
  have hsettled := (hreached m).settled hk ((hquiet m).symm ▸ hn m hnm)
  rwa [hquiet m] at hsettled

/-- From here on the threads take turns. -/
def Exchange.turn (n : ℕ) : ExchangeStep :=
  match n % 3 with
  | 0 => .push
  | 1 => .engine 0
  | _ => .drain fun _ => .took wireMsgSize

/-- The states that follow. -/
def Exchange.turns (x : Exchange cap k) : ℕ → Exchange cap k
  | 0 => x
  | n + 1 => ((x.turns n).step (turn n)).getD (x.turns n)

theorem Exchange.turn_step (x : Exchange cap k) (n : ℕ) :
    ∃ x', x.step (turn n) = some x' ∧ x'.messages = x.messages := by
  unfold turn
  split
  · exact ⟨_, rfl, rfl⟩
  · exact ⟨_, rfl, rfl⟩
  · refine ⟨_, rfl, ?_⟩
    unfold drain messages
    cases x.threads.outbound.consumer.popping <;> rfl

theorem Exchange.turns_step (x : Exchange cap k) (n : ℕ) :
    (x.turns n).step (turn n) = some (x.turns (n + 1)) ∧
      (x.turns (n + 1)).messages = (x.turns n).messages := by
  obtain ⟨x', hstep, hmsgs⟩ := turn_step (x.turns n) n
  have hnext : x.turns (n + 1) = x' := by
    rw [turns, hstep]
    rfl
  rw [hnext]
  exact ⟨hstep, hmsgs⟩

/-- A client arrives, and sends a message; then the threads take turns. -/
theorem messages_answered_turns :
    ∃ x, (Exchange.new (k := 18) maxOrders (fun _ => cancelNone) fun _ => .zero).run
        [.accept 5, .readable 5 [(.bytes (List.replicate 32 1), 1)]] = some x ∧
      ∃ n, ∀ m, n ≤ m → (x.turns m).threads.unread = [] ∧ (x.turns m).threads.Drained ∧
        (∃ done outs, (MatchingEngine.new maxOrders).run done = some ((x.turns m).threads.engine,
          outs) ∧ done.map Prod.snd = (x.turns m).threads.inbound.pushes ∧
          (x.turns m).net.popped = (x.turns m).threads.outbound.pushes) ∧
        ((x.turns m).threads.NoneFailed → ∃ done outs,
          (MatchingEngine.new maxOrders).run done = some ((x.turns m).threads.engine, outs) ∧
          done.map Prod.snd = x.messages ∧ (x.turns m).net.popped = outs.flatten) := by
  obtain ⟨x, hrun, -⟩ :=
    Exchange.reached_run (k := 18) (by decide) (show maxOrders < 2 ^ 32 by decide)
      (fun _ => cancelNone) (fun _ => .zero)
      [.accept 5, .readable 5 [(.bytes (List.replicate 32 1), 1)]]
  have hlen : ((Exchange.new (k := 18) maxOrders (fun _ => cancelNone) fun _ => .zero).run
        [.accept 5, .readable 5 [(.bytes (List.replicate 32 1), 1)]]).map
      (fun x => x.messages.length) = some 1 := by
    rfl
  rw [hrun] at hlen
  have hlen : x.messages.length = 1 := Option.some.inj hlen
  have hquiet : ∀ n, (x.turns n).messages = x.messages := fun n => by
    induction n with
    | zero => rfl
    | succ n ih => exact (x.turns_step n).2.trans ih
  refine ⟨x, hrun,
    messages_answered (by decide) (by decide) (fun _ => cancelNone) (fun _ => .zero) hrun
      (by rw [hlen]; decide) ⟨x.turns, Exchange.turn, fun n => (x.turns_step n).1⟩ rfl hquiet
      (fun n => ⟨3 * n, by omega, ?_⟩) (fun n => ⟨3 * n + 1, by omega, 0, ?_⟩) fun n =>
        ⟨3 * n + 2, by omega, fun _ => .took wireMsgSize, ?_⟩⟩
  · simp [Exchange.turn]
  · simp [Exchange.turn, Nat.add_mod]
  · simp [Exchange.turn, Nat.add_mod]

end TradeFeed
