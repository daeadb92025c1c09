import TradeFeed.Transport.RingFifo

/-!
# Pushing one by one

A thread that has some items to push calls `push` for one after the other (`RingState.pushEach`).
When no call fails, the items go into the ring in order (`pushEach_spec`); whether or not calls
fail, the two threads do what they would do if each call were one step (`pushEach_linear`): a call
that fails takes effect when it loads `tail_` anew, and finds the ring full, and one that does not
when it publishes its index.
-/

namespace TradeFeed

open Lib

variable {T : Type*} {k : ℕ}

/-- The item that is being pushed. -/
def Producer.pushing : Producer T → Option T
  | .idle => none
  | .loaded item _ => some item
  | .reload item _ => some item
  | .reloaded item _ _ => some item
  | .copy item _ => some item
  | .publish item _ => some item

/-- The item that the next step pops. -/
def Consumer.popping : Consumer T → Option T
  | .publish item _ => some item
  | _ => none

namespace RingState

/-- A step of the thread that pushes some items one by one, and the items that are left: the
first is, until its call returns. -/
def pushEach (s : RingState T k) : List T → RingState T k × List T
  | [] => (s, [])
  | item :: items =>
    let s' := s.produce item
    (s', match s'.producer with
      | .idle => items
      | _ => item :: items)

/-- What is being pushed is the first of these items. -/
def Pushing (s : RingState T k) (items : List T) : Prop :=
  ∀ item, s.producer.pushing = some item → items.head? = some item

/-- No call of `push` has failed. -/
def NoneFailed (s : RingState T k) : Prop := ∀ n, .pushFailed n ∉ s.returns

instance (s : RingState T k) : Decidable s.NoneFailed :=
  decidable_of_iff ((s.returns.all fun | .pushFailed _ => false | _ => true) = true) <| by
    rw [List.all_eq_true]
    constructor
    · exact fun h n hn => nomatch h _ hn
    · intro h r hr
      cases r with
      | pushFailed n => exact absurd hr (h n)
      | _ => rfl

/-- What was returned stays so. -/
theorem produce_returns (s : RingState T k) (item : T) :
    s.returns <+: (s.produce item).returns := by
  unfold produce
  cases s.producer with
  | idle => exact List.prefix_rfl
  | loaded x head =>
    simp only
    split_ifs <;> exact List.prefix_rfl
  | reload x head => exact List.prefix_rfl
  | reloaded x head n =>
    simp only
    split_ifs
    · exact List.prefix_append _ _
    · exact List.prefix_rfl
  | copy x head => exact List.prefix_rfl
  | publish x head => exact List.prefix_append _ _

theorem consume_returns (s : RingState T k) : s.returns <+: s.consume.returns := by
  unfold consume
  cases s.consumer with
  | idle => exact List.prefix_rfl
  | loaded tail =>
    simp only
    split_ifs <;> exact List.prefix_rfl
  | reload tail => exact List.prefix_rfl
  | reloaded tail n =>
    simp only
    split_ifs
    · exact List.prefix_append _ _
    · exact List.prefix_rfl
  | copy tail => exact List.prefix_rfl
  | publish x tail => exact List.prefix_append _ _

theorem NoneFailed.earlier {s s' : RingState T k} (h : s'.NoneFailed)
    (hle : s.returns <+: s'.returns) :
    s.NoneFailed :=
  fun n hn => h n (hle.subset hn)

/-- What is being pushed stays the first of the items that are left. -/
theorem Pushing.pushEach {s : RingState T k} {items : List T} (h : s.Pushing items) :
    (s.pushEach items).1.Pushing (s.pushEach items).2 := by
  cases items with
  | nil => exact h
  | cons item items =>
    unfold Pushing at h
    unfold RingState.pushEach produce
    cases hpc : s.producer with
    | idle => exact fun x hx => hx
    | loaded x head =>
      obtain rfl : item = x := by simpa [hpc, Producer.pushing] using h
      simp only
      split_ifs <;> exact fun x hx => hx
    | reload x head =>
      obtain rfl : item = x := by simpa [hpc, Producer.pushing] using h
      exact fun x hx => hx
    | reloaded x head n =>
      obtain rfl : item = x := by simpa [hpc, Producer.pushing] using h
      simp only
      split_ifs
      · exact nofun
      · exact fun x hx => hx
    | copy x head =>
      obtain rfl : item = x := by simpa [hpc, Producer.pushing] using h
      exact fun x hx => hx
    | publish x head => exact nofun

/-- A push that does not fail takes the first item off. -/
theorem pushEach_spec {s : RingState T k} {items : List T} (h : s.Pushing items)
    (hok : (s.pushEach items).1.NoneFailed) :
    (s.pushEach items).1.pushes ++ (s.pushEach items).2 = s.pushes ++ items ∧
      (s.pushEach items).1.pops = s.pops := by
  cases items with
  | nil => exact ⟨rfl, rfl⟩
  | cons item items =>
    unfold Pushing at h
    unfold pushEach produce at *
    cases hpc : s.producer with
    | idle => exact ⟨rfl, rfl⟩
    | loaded x head =>
      simp only
      split_ifs <;> exact ⟨rfl, rfl⟩
    | reload x head => exact ⟨rfl, rfl⟩
    | reloaded x head n =>
      simp only [hpc] at hok ⊢
      split_ifs at hok ⊢
      · exact absurd (List.mem_append_right _ (List.mem_singleton_self _)) (hok n)
      · exact ⟨rfl, rfl⟩
    | copy x head => exact ⟨rfl, rfl⟩
    | publish x head =>
      obtain rfl : item = x := by simpa [hpc, Producer.pushing] using h
      refine ⟨?_, Return.pops_pushed _ _⟩
      show Return.pushes (s.returns ++ [.pushed item]) ++ items = s.pushes ++ item :: items
      rw [Return.pushes_pushed, List.append_assoc]
      rfl

/-- A step of `pop` takes the item that it pops. -/
theorem consume_spec (s : RingState T k) :
    s.consume.pops = s.pops ++ s.consumer.popping.toList ∧ s.consume.pushes = s.pushes ∧
      s.consume.producer = s.producer := by
  unfold consume
  cases s.consumer with
  | idle => exact ⟨(List.append_nil _).symm, rfl, rfl⟩
  | loaded tail =>
    simp only
    split_ifs <;> exact ⟨(List.append_nil _).symm, rfl, rfl⟩
  | reload tail => exact ⟨(List.append_nil _).symm, rfl, rfl⟩
  | reloaded tail n =>
    simp only
    split_ifs
    · exact ⟨(Return.pops_popFailed _ _).trans (List.append_nil _).symm,
        Return.pushes_popFailed _ _, rfl⟩
    · exact ⟨(List.append_nil _).symm, rfl, rfl⟩
  | copy tail => exact ⟨(List.append_nil _).symm, rfl, rfl⟩
  | publish x tail => exact ⟨Return.pops_popped _ _, Return.pushes_popped _ _, rfl⟩

/-! ### Calls as single steps -/

/-- The items whose push is not decided: not the first, when its call has found the ring full. -/
def undecided (s : RingState T k) (items : List T) : List T :=
  match s.producer with
  | .reloaded _ _ n => if n = 2 ^ k then items.tail else items
  | _ => items

/-- When the producer decides, it pushes, or is refused by a full ring. -/
theorem Inv.pushEach_linear (hk : k < 64) {s : RingState T k} {items : List T} (h : s.Inv)
    (hpushing : s.Pushing items) :
    ∃ ops, (s.pushEach items).1.fifo = Fifo.run (2 ^ k) s.fifo ops ∧
      Fifo.offered ops ++ (s.pushEach items).1.undecided (s.pushEach items).2 =
        s.undecided items := by
  cases items with
  | nil => exact ⟨[], rfl, rfl⟩
  | cons item items =>
    have hp := h.producer
    unfold ProducerOk at hp
    unfold Pushing at hpushing
    have hstay : (∀ x head, s.producer ≠ .publish x head) → (s.produce item).fifo = s.fifo :=
      fun hpc => fifo_produce hpc item
    have hnext := (h.produce hk item).full
    unfold RingState.pushEach undecided
    cases hpc : s.producer with
    | idle =>
      refine ⟨[], hstay (by simp [hpc]), ?_⟩
      simp only [RingState.produce, hpc]
      rfl
    | loaded x head =>
      refine ⟨[], hstay (by simp [hpc]), ?_⟩
      simp only [RingState.produce, hpc]
      split_ifs <;> rfl
    | reload x head =>
      by_cases hfull : s.held = 2 ^ k
      · -- the ring is full: it will refuse
        refine ⟨[.push item], ?_, ?_⟩
        · rw [hstay (by simp [hpc])]
          have hroom : ¬ s.fifo.held.length < 2 ^ k := by
            rw [fifo_held, hfull]
            exact Nat.lt_irrefl _
          exact (Fifo.step_push_full hroom item).symm
        · simp only [RingState.produce, hpc, if_pos hfull]
          rfl
      · refine ⟨[], hstay (by simp [hpc]), ?_⟩
        simp only [RingState.produce, hpc, if_neg hfull]
        rfl
    | reloaded x head n =>
      refine ⟨[], hstay (by simp [hpc]), ?_⟩
      rw [hpc] at hp
      obtain ⟨rfl, hn⟩ := hp
      simp only [RingState.produce, hpc] at hnext ⊢
      split_ifs at hnext ⊢ with hfull hn' hn'
      · rfl
      · exact absurd (hnext n (List.mem_append_right _ (List.mem_singleton_self _))) hn'
      · exact absurd ((h.full_iff hk).mpr (by omega)) hfull
      · rfl
    | copy x head =>
      refine ⟨[], hstay (by simp [hpc]), ?_⟩
      simp only [RingState.produce, hpc]
      rfl
    | publish x head =>
      obtain rfl : item = x := by simpa [hpc, Producer.pushing] using hpushing
      refine ⟨[.push item], h.fifo_publish hpc item, ?_⟩
      simp only [RingState.produce, hpc]
      rfl

/-- A step of the thread that pushes some items, or of the one that pops. -/
inductive Thread where
  /-- The one that pushes. -/
  | pusher
  /-- The one that pops. -/
  | popper

/-- A step of one of them. -/
def pushStep (s : RingState T k × List T) : Thread → RingState T k × List T
  | .pusher => s.1.pushEach s.2
  | .popper => (s.1.consume, s.2)

/-- What is known of the two threads. -/
structure PushInv (s : RingState T k × List T) : Prop where
  /-- The ring is in order. -/
  inv : s.1.Inv
  /-- What is being pushed is the first of the items that are left. -/
  pushing : s.1.Pushing s.2

/-- **A step** of a ring is at most one step of a queue. -/
theorem PushInv.step (hk : k < 64) {s : RingState T k × List T} (h : PushInv s) (a : Thread) :
    PushInv (pushStep s a) ∧ ∃ ops, (pushStep s a).1.fifo = Fifo.run (2 ^ k) s.1.fifo ops ∧
      Fifo.offered ops ++ (pushStep s a).1.undecided (pushStep s a).2 = s.1.undecided s.2 := by
  obtain ⟨s, items⟩ := s
  cases a with
  | pusher =>
    refine ⟨⟨?_, h.pushing.pushEach⟩, h.inv.pushEach_linear hk h.pushing⟩
    cases items with
    | nil => exact h.inv
    | cons item items => exact h.inv.produce hk item
  | popper =>
    have hproducer : s.consume.producer = s.producer := (s.consume_spec).2.2
    refine ⟨⟨h.inv.consume, fun item hitem => h.pushing item (hproducer ▸ hitem)⟩, ?_⟩
    have hundecided : s.consume.undecided items = s.undecided items := by
      rw [undecided, hproducer, undecided]
    rcases h.inv.fifo_consume with hstay | hpop
    · exact ⟨[], hstay, hundecided⟩
    · exact ⟨[.pop], hpop, hundecided⟩

/-- **A run** of a ring is a run of a queue. -/
theorem PushInv.run (hk : k < 64) {s : RingState T k × List T} (h : PushInv s) (as : List Thread) :
    PushInv (Machine.run pushStep s as) ∧
      ∃ ops, (Machine.run pushStep s as).1.fifo = Fifo.run (2 ^ k) s.1.fifo ops ∧
      Fifo.offered ops ++ (Machine.run pushStep s as).1.undecided (Machine.run pushStep s as).2 =
        s.1.undecided s.2 := by
  induction as generalizing s with
  | nil => exact ⟨h, [], rfl, rfl⟩
  | cons a as ih =>
    obtain ⟨h', ops, hfifo, hoffered⟩ := h.step hk a
    obtain ⟨h'', ops', hfifo', hoffered'⟩ := ih h'
    refine ⟨h'', ops ++ ops', ?_, ?_⟩
    · rw [Machine.run_cons, hfifo', hfifo]
      exact (Machine.run_append _ _ ops ops').symm
    · rw [Machine.run_cons, Fifo.offered_append, List.append_assoc, hoffered', hoffered]

/-- **Calls as single steps**: whatever the order of the steps of a thread that pushes some items
one by one and of a thread that pops, the ring comes to what a bounded queue comes to by pushes of
these items and pops, each in one step and in some order. -/
theorem pushEach_linear (hk : k < 64) {s : RingState T k} (h : s.Inv) (hidle : s.producer = .idle)
    {items : List T} (as : List Thread) (hall : (Machine.run pushStep (s, items) as).2 = []) :
    ∃ ops, (Machine.run pushStep (s, items) as).1.fifo = Fifo.run (2 ^ k) s.fifo ops ∧
      Fifo.offered ops = items := by
  have hpushing : s.Pushing items := fun item hitem => by simp [hidle, Producer.pushing] at hitem
  obtain ⟨h', ops, hfifo, hoffered⟩ := PushInv.run (s := (s, items)) hk ⟨h, hpushing⟩ as
  refine ⟨ops, hfifo, ?_⟩
  have hnone : ∀ s' : RingState T k, s'.undecided [] = [] := by
    intro s'
    unfold undecided
    cases s'.producer with
    | reloaded x head n => exact ite_self _
    | _ => rfl
  have hsome : s.undecided items = items := by rw [undecided, hidle]
  rw [hall, hnone, List.append_nil] at hoffered
  exact hoffered.trans hsome

end RingState

end TradeFeed
