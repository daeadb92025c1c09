import TradeFeed.Lib.BoundedFifo
import TradeFeed.Transport.RingInvariant

/-!
# The ring is a bounded queue

`RingState.fifo` is the ring as a queue: it pushes when the producer publishes, pops when
the consumer does, and stands still at all other steps (`Inv.fifo_step`). So every run of
the ring is one of a bounded queue (`run_fifo`), whose order and bound are those of any
such queue; `spsc_fifo` has them along with what makes them so.
-/

namespace TradeFeed

open Lib

namespace RingState

variable {T : Type*} {k : ℕ}

/-- The ring as a bounded queue. -/
def fifo (s : RingState T k) : Fifo T := ⟨s.pushes.drop s.pops.length, s.pushes, s.pops⟩

theorem fifo_congr {s s' : RingState T k} (hpushes : s'.pushes = s.pushes)
    (hpops : s'.pops = s.pops) :
    s'.fifo = s.fifo := by
  rw [fifo, hpushes, hpops]
  rfl

theorem fifo_held (s : RingState T k) : s.fifo.held.length = s.held := by
  rw [fifo, List.length_drop]
  rfl

/-- The producer pushes when it publishes. -/
theorem Inv.fifo_publish {s : RingState T k} (h : s.Inv) {x : T} {head : UInt64}
    (hpc : s.producer = .publish x head) (item : T) :
    (s.produce item).fifo = Fifo.step (2 ^ k) s.fifo (.push x) := by
  have hp := h.producer
  rw [ProducerOk, hpc] at hp
  obtain ⟨-, hlt, -⟩ := hp
  have hroom : s.fifo.held.length < 2 ^ k := by
    rw [fifo, List.length_drop]
    exact Nat.sub_lt_left_of_lt_add h.order (hlt.trans_le (Nat.add_le_add_right h.cachedTail _))
  have hpushes : Return.pushes (s.returns ++ [.pushed x]) = s.pushes ++ [x] :=
    Return.pushes_pushed _ _
  have hpops : Return.pops (s.returns ++ [.pushed x]) = s.pops := Return.pops_pushed _ _
  rw [Fifo.step_push hroom, RingState.produce, hpc]
  show Fifo.mk (List.drop (Return.pops (s.returns ++ [.pushed x])).length
    (Return.pushes (s.returns ++ [.pushed x])))
    (Return.pushes (s.returns ++ [.pushed x])) (Return.pops (s.returns ++ [.pushed x])) = _
  rw [hpushes, hpops, List.drop_append_of_le_length h.order]
  rfl

/-- At its other steps nothing happens. -/
theorem fifo_produce {s : RingState T k} (hpc : ∀ x head, s.producer ≠ .publish x head) (item : T) :
    (s.produce item).fifo = s.fifo := by
  unfold RingState.produce
  cases hp : s.producer with
  | idle => rfl
  | loaded x head =>
    simp only
    split_ifs <;> rfl
  | reload x head => rfl
  | reloaded x head n =>
    simp only
    split_ifs
    · exact fifo_congr (Return.pushes_pushFailed _ _) (Return.pops_pushFailed _ _)
    · rfl
  | copy x head => rfl
  | publish x head => exact absurd hp (hpc x head)

/-- The consumer pops when it publishes. -/
theorem Inv.fifo_consume {s : RingState T k} (h : s.Inv) :
    s.consume.fifo = s.fifo ∨ s.consume.fifo = Fifo.step (2 ^ k) s.fifo .pop := by
  have hc := h.consumer
  unfold ConsumerOk at hc
  unfold RingState.consume
  cases hpc : s.consumer with
  | idle => exact Or.inl rfl
  | loaded tail =>
    simp only
    split_ifs <;> exact Or.inl rfl
  | reload tail => exact Or.inl rfl
  | reloaded tail n =>
    simp only
    split_ifs
    · exact Or.inl (fifo_congr (Return.pushes_popFailed _ _) (Return.pops_popFailed _ _))
    · exact Or.inl rfl
  | copy tail => exact Or.inl rfl
  | publish x tail =>
    rw [hpc] at hc
    obtain ⟨hlt, hget⟩ := List.getElem?_eq_some_iff.mp hc.2.2
    have hheld : s.fifo.held = x :: s.pushes.drop (s.pops.length + 1) := by
      rw [fifo, List.drop_eq_getElem_cons hlt, hget]
    apply Or.inr
    rw [Fifo.step_pop hheld]
    simp [fifo, pushes, pops]

/-- **The ring steps as a bounded queue does**, or that queue stands still. -/
theorem Inv.fifo_step {s : RingState T k} (h : s.Inv) (a : RingStep T) :
    (s.step a).fifo = s.fifo ∨ ∃ op, (s.step a).fifo = Fifo.step (2 ^ k) s.fifo op := by
  cases a with
  | produce item =>
    by_cases hpc : ∃ x head, s.producer = .publish x head
    · obtain ⟨x, head, hpc⟩ := hpc
      exact Or.inr ⟨.push x, h.fifo_publish hpc item⟩
    · exact Or.inl (fifo_produce (fun x head he => hpc ⟨x, head, he⟩) item)
  | consume => exact h.fifo_consume.imp_right fun hpop => ⟨.pop, hpop⟩

/-- **Every run of the ring is a run of a bounded queue.** -/
theorem run_fifo (hk : k < 64) (buffer : Fin (2 ^ k) → T) (steps : List (RingStep T)) :
    ∃ ops, ((new buffer).run steps).fifo = Fifo.run (2 ^ k) (Fifo.start []) ops :=
  Machine.simulation (fun _ a h => Inv.step hk h a) (fun _ a h => Inv.fifo_step h a)
    (new_inv buffer) steps

/-- What is popped is what was pushed first. -/
theorem pops_prefix (hk : k < 64) (buffer : Fin (2 ^ k) → T) (steps : List (RingStep T)) :
    ((new buffer).run steps).pops <+: ((new buffer).run steps).pushes := by
  obtain ⟨ops, hops⟩ := run_fifo hk buffer steps
  have horder := Fifo.run_order (2 ^ k) [] ops
  rw [← hops] at horder
  exact ⟨_, horder⟩

end RingState

/-! ### The account of every run -/

open RingState in
/-- What is true of the ring at any moment of a run. -/
structure FifoRing {T : Type*} {k : ℕ} (s : RingState T k) : Prop where
  /-- It steps as a bounded queue does. -/
  linear : ∃ ops, s.fifo = Fifo.run (2 ^ k) (Fifo.start []) ops
  /-- The items popped are those pushed first, in order. -/
  order : s.pops <+: s.pushes
  /-- The slot that is about to be written holds no item that was not popped. -/
  write : ∀ item head, s.producer = .copy item head →
    ∀ j, s.pops.length ≤ j → j < s.pushes.length →
      maskSlot head ≠ (maskSlot (UInt64.ofNat j) : Fin (2 ^ k))
  /-- The slot that is about to be read holds the next item to pop. -/
  read : ∀ tail, s.consumer = .copy tail →
    s.pushes[s.pops.length]? = some (s.ring.buffer (maskSlot tail))
  /-- No slot is written and read at once. -/
  apart : ∀ item head tail, s.producer = .copy item head → s.consumer = .copy tail →
    maskSlot head ≠ (maskSlot tail : Fin (2 ^ k))
  /-- The ring holds no more than it can. -/
  bounded : s.held ≤ 2 ^ k
  /-- `push` failed only when the ring was full. -/
  full : ∀ n, .pushFailed n ∈ s.returns → n = 2 ^ k
  /-- `pop` failed only when the ring was empty. -/
  empty : ∀ n, .popFailed n ∈ s.returns → n = 0

/-- **The ring is a bounded queue**, for every interleaving of the steps of its two threads, as long
as fewer than 2⁶⁴ items are pushed. -/
theorem spsc_fifo {T : Type*} {k : ℕ} (hk : k < 64) (buffer : Fin (2 ^ k) → T)
    {steps : List (RingStep T)} (hn : ((RingState.new buffer).run steps).pushes.length < 2 ^ 64) :
    FifoRing ((RingState.new buffer).run steps) := by
  set s := (RingState.new buffer).run steps with hs
  have h : s.Inv := (RingState.new_inv buffer).run hk steps
  have hwrite : ∀ item head, s.producer = .copy item head →
      ∀ j, s.pops.length ≤ j → j < s.pushes.length →
        maskSlot head ≠ (maskSlot (UInt64.ofNat j) : Fin (2 ^ k)) := by
    intro item head hpc j hj hlt
    have hp := h.producer
    rw [RingState.ProducerOk, hpc] at hp
    have hcached := h.cachedTail
    rw [hp.1, h.head]
    exact (RingState.maskSlot_ne hk hlt (by omega)).symm
  refine ⟨RingState.run_fifo hk buffer steps, RingState.pops_prefix hk buffer steps, hwrite, ?_, ?_,
    ?_, h.full, ?_⟩
  · intro tail hpc
    have hc := h.consumer
    rw [RingState.ConsumerOk, hpc] at hc
    rw [hc.1]
    exact h.readSlot hc.2
  · intro item head tail hpc hpc'
    have hc := h.consumer
    rw [RingState.ConsumerOk, hpc'] at hc
    rw [hc.1, h.tail_eq]
    exact hwrite item head hpc _ le_rfl (Nat.lt_of_lt_of_le hc.2 h.cachedHead)
  · rw [RingState.held]
    exact Nat.sub_le_iff_le_add'.mpr (h.room.trans (Nat.add_le_add_right h.cachedTail _))
  · intro n hmem
    exact (h.empty n hmem).resolve_right (Nat.not_le.mpr hn)

/-- The producer pushes two items to a ring of two slots, then the consumer pops one. -/
def twoItems : List (RingStep Char) :=
  List.replicate 4 (.produce 'a') ++ List.replicate 4 (.produce 'b') ++ List.replicate 6 .consume

theorem spsc_fifo_two :
    let s := (RingState.new fun _ : Fin (2 ^ 1) => 'x').run twoItems
    FifoRing s ∧ s.pushes = ['a', 'b'] ∧ s.pops = ['a'] :=
  ⟨spsc_fifo (by decide) _ (by decide), by decide, by decide⟩

end TradeFeed
