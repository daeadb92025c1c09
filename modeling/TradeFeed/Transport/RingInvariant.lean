import Mathlib.Data.List.Infix
import TradeFeed.Transport.SpscRing

/-!
# The invariant of the ring

How the indices, the copies the threads keep of them, the slots and what each thread is in
the middle of go with the items pushed and popped (`RingState.Inv`): the copies lag behind,
by no more than the ring holds. Every step of either thread keeps it (`Inv.step`).

The indices are 64 bits wide. `push` subtracts them, so that they may wrap; `pop` compares
them, so that after 2⁶⁴ pushes it says that the ring is empty when it is not. What it pops is right
even then.
-/

namespace TradeFeed

open Lib

namespace RingState

variable {T : Type*} {k : ℕ}

/-! ### The invariant -/

/-- What the producer knows, when `pushed` items were pushed. -/
def ProducerOk (s : RingState T k) : Prop :=
  match s.producer with
  | .idle => True
  | .loaded _ head => head = s.ring.head
  | .reload _ head => head = s.ring.head
  | .reloaded _ head held => head = s.ring.head ∧ held + s.ring.cachedTail.toNat = s.pushes.length
  | .copy _ head => head = s.ring.head ∧ s.pushes.length < s.ring.cachedTail.toNat + 2 ^ k
  | .publish item head => head = s.ring.head ∧ s.pushes.length < s.ring.cachedTail.toNat + 2 ^ k ∧
    s.ring.buffer (maskSlot head) = item

/-- What the consumer knows. -/
def ConsumerOk (s : RingState T k) : Prop :=
  match s.consumer with
  | .idle => True
  | .loaded tail => tail = s.ring.tail
  | .reload tail => tail = s.ring.tail
  | .reloaded tail held => tail = s.ring.tail ∧ s.ring.cachedHead = UInt64.ofNat
    (s.pops.length + held) ∧
    s.pops.length + held ≤ s.pushes.length
  | .copy tail => tail = s.ring.tail ∧ s.pops.length < s.ring.cachedHead.toNat
  | .publish item tail => tail = s.ring.tail ∧ s.pops.length < s.ring.cachedHead.toNat ∧
    s.pushes[s.pops.length]? = some item

/-- How the ring's state goes with what was pushed and popped. -/
structure Inv (s : RingState T k) : Prop where
  /-- `head_` counts the items pushed, and wraps. -/
  head : s.ring.head = UInt64.ofNat s.pushes.length
  /-- `tail_` counts the items popped, and does not. -/
  tail : s.ring.tail.toNat = s.pops.length
  /-- What is popped was pushed. -/
  order : s.pops.length ≤ s.pushes.length
  /-- The producer's copy of `tail_` is an old one. -/
  cachedTail : s.ring.cachedTail.toNat ≤ s.pops.length
  /-- No more is pushed than there is room for by it. -/
  room : s.pushes.length ≤ s.ring.cachedTail.toNat + 2 ^ k
  /-- The consumer's copy of `head_` is an old one. -/
  cachedHead : s.ring.cachedHead.toNat ≤ s.pushes.length
  /-- The items pushed and not popped are in their slots. -/
  slots : ∀ j item, s.pops.length ≤ j → s.pushes[j]? = some item →
    s.ring.buffer (maskSlot (UInt64.ofNat j)) = item
  /-- The producer's step is in order. -/
  producer : s.ProducerOk
  /-- The consumer's step is in order. -/
  consumer : s.ConsumerOk
  /-- `push` failed because the ring was full. -/
  full : ∀ n, .pushFailed n ∈ s.returns → n = 2 ^ k
  /-- `pop` failed because the ring was empty, while the indices did not wrap. -/
  empty : ∀ n, .popFailed n ∈ s.returns → n = 0 ∨ 2 ^ 64 ≤ s.pushes.length

/-! ### Indices -/

/-- The slot of the item number `j`. -/
theorem maskSlot_val (j : ℕ) (hk : k < 64) :
    (maskSlot (UInt64.ofNat j) : Fin (2 ^ k)).val = j % 2 ^ k := by
  show (UInt64.ofNat j).toNat &&& (2 ^ k - 1) = j % 2 ^ k
  rw [Nat.and_two_pow_sub_one_eq_mod, UInt64.toNat_ofNat',
    Nat.mod_mod_of_dvd j (Nat.pow_dvd_pow 2 (Nat.le_of_lt hk))]

/-- Fewer than `2 ^ k` items in a row have slots of their own. -/
theorem maskSlot_ne (hk : k < 64) {i j : ℕ} (hij : i < j) (hj : j < i + 2 ^ k) :
    (maskSlot (UInt64.ofNat i) : Fin (2 ^ k)) ≠ maskSlot (UInt64.ofNat j) := by
  intro he
  have he := congrArg Fin.val he
  rw [maskSlot_val i hk, maskSlot_val j hk] at he
  have hdvd := (Nat.modEq_iff_dvd' (Nat.le_of_lt hij)).mp he
  have := Nat.le_of_dvd (by omega) hdvd
  omega

/-- `push` compares correctly, although the indices wrap. -/
theorem full_iff (hk : k < 64) {n : ℕ} {cached : UInt64} (hle : cached.toNat ≤ n)
    (hn : n ≤ cached.toNat + 2 ^ k) :
    UInt64.ofNat n - cached ≥ capacity k ↔ cached.toNat + 2 ^ k ≤ n := by
  have hpow : 2 ^ k ≤ 2 ^ 63 := Nat.pow_le_pow_right Nat.two_pos (by omega)
  have hlt := cached.toNat_lt
  have hcap : (capacity k).toNat = 2 ^ k := by
    rw [capacity, UInt64.toNat_ofNat', Nat.mod_eq_of_lt (by omega)]
  rw [ge_iff_le, UInt64.le_iff_toNat_le, hcap, UInt64.toNat_sub, UInt64.toNat_ofNat']
  omega

/-! ### What does not change -/

/-- What the consumer knows stays true when more is pushed. -/
theorem ConsumerOk.frame {s s' : RingState T k} (h : s.ConsumerOk) (hc : s'.consumer = s.consumer)
    (htail : s'.ring.tail = s.ring.tail) (hcached : s'.ring.cachedHead = s.ring.cachedHead)
    (hpops : s'.pops = s.pops) (hpushes : s.pushes <+: s'.pushes) :
    s'.ConsumerOk := by
  unfold ConsumerOk at *
  rw [hc, htail, hcached, hpops]
  cases hpc : s.consumer with
  | idle => trivial
  | loaded tail => simpa only [hpc] using h
  | reload tail => simpa only [hpc] using h
  | reloaded tail n =>
    simp only [hpc] at h
    exact ⟨h.1, h.2.1, h.2.2.trans hpushes.length_le⟩
  | copy tail => simpa only [hpc] using h
  | publish item tail =>
    simp only [hpc] at h
    obtain ⟨more, hmore⟩ := hpushes
    refine ⟨h.1, h.2.1, ?_⟩
    rw [← hmore, List.getElem?_append_left (List.getElem?_eq_some_iff.mp h.2.2).1]
    exact h.2.2

/-- What the producer knows stays true when more is popped. -/
theorem ProducerOk.frame {s s' : RingState T k} (h : s.ProducerOk) (hp : s'.producer = s.producer)
    (hhead : s'.ring.head = s.ring.head) (hcached : s'.ring.cachedTail = s.ring.cachedTail)
    (hbuffer : s'.ring.buffer = s.ring.buffer) (hpushes : s'.pushes = s.pushes) :
    s'.ProducerOk := by
  unfold ProducerOk at *
  rw [hp, hhead, hcached, hbuffer, hpushes]
  exact h

/-- A call that fails moves nothing. -/
theorem Inv.unmoved {s s' : RingState T k} (h : s.Inv) (hring : s'.ring = s.ring)
    (hpushes : s'.pushes = s.pushes) (hpops : s'.pops = s.pops) (hp : s'.ProducerOk)
    (hc : s'.ConsumerOk) (hfull : ∀ n, .pushFailed n ∈ s'.returns → n = 2 ^ k)
    (hempty : ∀ n, .popFailed n ∈ s'.returns → n = 0 ∨ 2 ^ 64 ≤ s.pushes.length) : s'.Inv where
  head := by rw [hring, hpushes]; exact h.head
  tail := by rw [hring, hpops]; exact h.tail
  order := by rw [hpushes, hpops]; exact h.order
  cachedTail := by rw [hring, hpops]; exact h.cachedTail
  room := by rw [hring, hpushes]; exact h.room
  cachedHead := by rw [hring, hpushes]; exact h.cachedHead
  slots := by rw [hring, hpushes, hpops]; exact h.slots
  producer := hp
  consumer := hc
  full := hfull
  empty := by rw [hpushes]; exact hempty

/-! ### The producer's steps -/

section Produce

variable {s : RingState T k}

/-- The comparison of `push`, with the copy of `tail_` that it has. -/
theorem Inv.full_iff (h : s.Inv) (hk : k < 64) :
    s.ring.head - s.ring.cachedTail ≥ capacity k ↔ s.ring.cachedTail.toNat + 2 ^ k ≤
      s.pushes.length := by
  rw [h.head]
  exact RingState.full_iff hk (h.cachedTail.trans h.order) h.room

/-- It loads `tail_` anew. -/
theorem Inv.reloadTail (h : s.Inv) (x : T) :
    ({ s with
      ring := { s.ring with cachedTail := s.ring.tail }
      producer := .reloaded x s.ring.head s.held } : RingState T k).Inv where
  head := h.head
  tail := h.tail
  order := h.order
  cachedTail := h.tail.le
  room := h.room.trans (Nat.add_le_add_right (h.cachedTail.trans h.tail.ge) _)
  cachedHead := h.cachedHead
  slots := h.slots
  producer := by
    refine ⟨rfl, ?_⟩
    show s.pushes.length - s.pops.length + s.ring.tail.toNat = s.pushes.length
    rw [h.tail]
    exact Nat.sub_add_cancel h.order
  consumer := h.consumer
  full := h.full
  empty := h.empty

/-- It gives up: the ring was full. -/
theorem Inv.pushFailed (h : s.Inv) (hk : k < 64) {n : ℕ}
    (hn : n + s.ring.cachedTail.toNat = s.pushes.length)
    (hfull : s.ring.head - s.ring.cachedTail ≥ capacity k) :
    ({ s with producer := .idle, returns := s.returns ++ [.pushFailed n] } :
      RingState T k).Inv := by
  have hle := (h.full_iff hk).mp hfull
  have hroom := h.room
  have hpushes : Return.pushes (s.returns ++ [.pushFailed n]) = s.pushes :=
    Return.pushes_pushFailed _ _
  refine h.unmoved rfl hpushes (Return.pops_pushFailed _ _) trivial
    (h.consumer.frame rfl rfl rfl (Return.pops_pushFailed _ _) ⟨[],
      (List.append_nil _).trans hpushes.symm⟩) ?_ ?_
  · intro m hm
    rcases List.mem_append.mp hm with hm | hm
    · exact h.full m hm
    · obtain rfl : m = n := by simpa using hm
      omega
  · intro m hm
    exact h.empty m (by simpa using hm)

/-- It writes the slot, which no item waits in. -/
theorem Inv.copySlot (h : s.Inv) (hk : k < 64) (x : T)
    (hroom : s.pushes.length < s.ring.cachedTail.toNat + 2 ^ k) :
    ({ s with
      ring := { s.ring with buffer := Function.update s.ring.buffer (maskSlot s.ring.head) x }
      producer := .publish x s.ring.head } : RingState T k).Inv where
  head := h.head
  tail := h.tail
  order := h.order
  cachedTail := h.cachedTail
  room := h.room
  cachedHead := h.cachedHead
  slots j item hj hitem := by
    have hlt : j < s.pushes.length := (List.getElem?_eq_some_iff.mp hitem).1
    have hne : (maskSlot (UInt64.ofNat j) : Fin (2 ^ k)) ≠ maskSlot s.ring.head := by
      have hj : s.pops.length ≤ j := hj
      have hcached := h.cachedTail
      rw [h.head]
      exact maskSlot_ne hk hlt (by omega)
    exact (Function.update_of_ne hne _ _).trans (h.slots j item hj hitem)
  producer := ⟨rfl, hroom, Function.update_self ..⟩
  consumer := h.consumer
  full := h.full
  empty := h.empty

/-- It publishes the item. -/
theorem Inv.pushed (h : s.Inv) {x : T} (hroom : s.pushes.length < s.ring.cachedTail.toNat + 2 ^ k)
    (hx : s.ring.buffer (maskSlot s.ring.head) = x) :
    ({ s with
      ring := { s.ring with head := s.ring.head + 1 }
      producer := .idle
      returns := s.returns ++ [.pushed x] } : RingState T k).Inv := by
  set s' : RingState T k := { s with
    ring := { s.ring with head := s.ring.head + 1 }
    producer := .idle
    returns := s.returns ++ [.pushed x] }
  have hpushes : s'.pushes = s.pushes ++ [x] := Return.pushes_pushed _ _
  have hpops : s'.pops = s.pops := Return.pops_pushed _ _
  have hlen : s'.pushes.length = s.pushes.length + 1 := by
    rw [hpushes, List.length_append, List.length_singleton]
  refine ⟨?_, ?_, ?_, ?_, ?_, ?_, ?_, trivial, ?_, ?_, ?_⟩
  · show s.ring.head + 1 = _
    rw [hlen, UInt64.ofNat_add, ← h.head]
    rfl
  · rw [hpops]
    exact h.tail
  · rw [hpops, hlen]
    exact Nat.le_succ_of_le h.order
  · rw [hpops]
    exact h.cachedTail
  · rw [hlen]
    exact hroom
  · rw [hlen]
    exact Nat.le_succ_of_le h.cachedHead
  · intro j item hj hitem
    rw [hpops] at hj
    rw [hpushes] at hitem
    rcases Nat.lt_trichotomy j s.pushes.length with hlt | rfl | hgt
    · rw [List.getElem?_append_left hlt] at hitem
      exact h.slots j item hj hitem
    · rw [List.getElem?_concat_length, Option.some.injEq] at hitem
      rw [← h.head, ← hitem]
      exact hx
    · rw [List.getElem?_eq_none (by rw [List.length_append]; exact hgt)] at hitem
      cases hitem
  · exact h.consumer.frame rfl rfl rfl hpops (hpushes ▸ List.prefix_append _ _)
  · exact fun n hn => h.full n (by simpa [s'] using hn)
  · intro n hn
    rw [hlen]
    rcases h.empty n (by simpa [s'] using hn) with h0 | hle
    · exact Or.inl h0
    · exact Or.inr (Nat.le_succ_of_le hle)

/-- **The producer's steps** keep the invariant. -/
theorem Inv.produce (hk : k < 64) (h : s.Inv) (item : T) : (s.produce item).Inv := by
  have hp := h.producer
  unfold ProducerOk at hp
  unfold RingState.produce
  cases hpc : s.producer with
  | idle => exact { h with producer := rfl }
  | loaded x head =>
    rw [hpc] at hp
    obtain rfl : head = s.ring.head := hp
    simp only
    split_ifs with hfull
    · exact { h with producer := rfl }
    · exact { h with producer := ⟨rfl, Nat.not_le.mp (mt (h.full_iff hk).mpr hfull)⟩ }
  | reload x head =>
    rw [hpc] at hp
    obtain rfl : head = s.ring.head := hp
    exact h.reloadTail x
  | reloaded x head n =>
    rw [hpc] at hp
    obtain ⟨rfl, hn⟩ := hp
    simp only
    split_ifs with hfull
    · exact h.pushFailed hk hn hfull
    · exact { h with producer := ⟨rfl, Nat.not_le.mp (mt (h.full_iff hk).mpr hfull)⟩ }
  | copy x head =>
    rw [hpc] at hp
    obtain ⟨rfl, hroom⟩ := hp
    exact h.copySlot hk x hroom
  | publish x head =>
    rw [hpc] at hp
    obtain ⟨rfl, hroom, hx⟩ := hp
    exact h.pushed hroom hx

end Produce

/-! ### The consumer's steps -/

section Consume

variable {s : RingState T k}

theorem Inv.tail_eq (h : s.Inv) : s.ring.tail = UInt64.ofNat s.pops.length := by
  rw [← h.tail, UInt64.ofNat_toNat]

/-- There is an item when the copy of `head_` says so. -/
theorem Inv.lt_cachedHead (h : s.Inv) (hlt : ¬ s.ring.cachedHead ≤ s.ring.tail) :
    s.pops.length < s.ring.cachedHead.toNat := by
  rw [UInt64.le_iff_toNat_le, h.tail] at hlt
  exact Nat.not_le.mp hlt

/-- It loads `head_` anew. -/
theorem Inv.reloadHead (h : s.Inv) :
    ({ s with
      ring := { s.ring with cachedHead := s.ring.head }
      consumer := .reloaded s.ring.tail s.held } : RingState T k).Inv where
  head := h.head
  tail := h.tail
  order := h.order
  cachedTail := h.cachedTail
  room := h.room
  cachedHead := by
    show s.ring.head.toNat ≤ s.pushes.length
    rw [h.head, UInt64.toNat_ofNat']
    exact Nat.mod_le _ _
  slots := h.slots
  producer := h.producer
  consumer := by
    have hheld : s.pops.length + s.held = s.pushes.length := Nat.add_sub_cancel' h.order
    refine ⟨rfl, ?_, hheld.le⟩
    show s.ring.head = UInt64.ofNat (s.pops.length + s.held)
    rw [hheld, h.head]
  full := h.full
  empty := h.empty

/-- It gives up: the ring was empty, unless the indices have wrapped. -/
theorem Inv.popFailed (h : s.Inv) {n : ℕ}
    (hcached : s.ring.cachedHead = UInt64.ofNat (s.pops.length + n))
    (hle : s.pops.length + n ≤ s.pushes.length) (hempty : s.ring.cachedHead ≤ s.ring.tail) :
    ({ s with consumer := .idle, returns := s.returns ++ [.popFailed n] } : RingState T k).Inv := by
  have hpushes : Return.pushes (s.returns ++ [.popFailed n]) = s.pushes :=
    Return.pushes_popFailed _ _
  refine h.unmoved rfl hpushes (Return.pops_popFailed _ _)
    (h.producer.frame rfl rfl rfl rfl hpushes) trivial ?_ ?_
  · intro m hm
    exact h.full m (by simpa using hm)
  · intro m hm
    rcases List.mem_append.mp hm with hm | hm
    · exact h.empty m hm
    · obtain rfl : m = n := by simpa using hm
      rw [hcached, UInt64.le_iff_toNat_le, h.tail, UInt64.toNat_ofNat'] at hempty
      omega

/-- It reads the slot of the next item. -/
theorem Inv.readSlot (h : s.Inv) (hlt : s.pops.length < s.ring.cachedHead.toNat) :
    s.pushes[s.pops.length]? = some (s.ring.buffer (maskSlot s.ring.tail)) := by
  have hmem := List.getElem?_eq_getElem (l := s.pushes) (Nat.lt_of_lt_of_le hlt h.cachedHead)
  rw [hmem, h.tail_eq, h.slots _ _ le_rfl hmem]

/-- It gives the slot back. -/
theorem Inv.popped (h : s.Inv) {x : T} (hlt : s.pops.length < s.ring.cachedHead.toNat) :
    ({ s with
      ring := { s.ring with tail := s.ring.tail + 1 }
      consumer := .idle
      returns := s.returns ++ [.popped x] } : RingState T k).Inv := by
  set s' : RingState T k := { s with
    ring := { s.ring with tail := s.ring.tail + 1 }
    consumer := .idle
    returns := s.returns ++ [.popped x] }
  have hpushes : s'.pushes = s.pushes := Return.pushes_popped _ _
  have hpops : s'.pops = s.pops ++ [x] := Return.pops_popped _ _
  have hlen : s'.pops.length = s.pops.length + 1 := by
    rw [hpops, List.length_append, List.length_singleton]
  have hcached := h.cachedHead
  refine ⟨?_, ?_, ?_, ?_, ?_, ?_, ?_, ?_, trivial, ?_, ?_⟩
  · rw [hpushes]
    exact h.head
  · -- the consumer's index does not wrap: there is an item beyond it
    have hmax := s.ring.cachedHead.toNat_lt
    show (s.ring.tail + 1).toNat = _
    rw [hlen, UInt64.toNat_add, UInt64.toNat_one, h.tail]
    omega
  · rw [hlen, hpushes]
    omega
  · rw [hlen]
    exact Nat.le_succ_of_le h.cachedTail
  · rw [hpushes]
    exact h.room
  · rw [hpushes]
    exact hcached
  · intro j item hj hitem
    rw [hlen] at hj
    rw [hpushes] at hitem
    exact h.slots j item (Nat.le_of_succ_le hj) hitem
  · exact h.producer.frame rfl rfl rfl rfl hpushes
  · exact fun n hn => h.full n (by simpa [s'] using hn)
  · intro n hn
    rw [hpushes]
    exact h.empty n (by simpa [s'] using hn)

/-- **The consumer's steps** keep the invariant. -/
theorem Inv.consume (h : s.Inv) : s.consume.Inv := by
  have hc := h.consumer
  unfold ConsumerOk at hc
  unfold RingState.consume
  cases hpc : s.consumer with
  | idle => exact { h with consumer := rfl }
  | loaded tail =>
    rw [hpc] at hc
    obtain rfl : tail = s.ring.tail := hc
    simp only
    split_ifs with hempty
    · exact { h with consumer := rfl }
    · exact { h with consumer := ⟨rfl, h.lt_cachedHead hempty⟩ }
  | reload tail =>
    rw [hpc] at hc
    obtain rfl : tail = s.ring.tail := hc
    exact h.reloadHead
  | reloaded tail n =>
    rw [hpc] at hc
    obtain ⟨rfl, hcached, hle⟩ := hc
    simp only
    split_ifs with hempty
    · exact h.popFailed hcached hle hempty
    · exact { h with consumer := ⟨rfl, h.lt_cachedHead hempty⟩ }
  | copy tail =>
    rw [hpc] at hc
    obtain ⟨rfl, hlt⟩ := hc
    exact { h with consumer := ⟨rfl, hlt, h.readSlot hlt⟩ }
  | publish x tail =>
    rw [hpc] at hc
    obtain ⟨rfl, hlt, -⟩ := hc
    exact h.popped hlt

end Consume

/-! ### Runs -/

/-- An empty ring is in order. -/
theorem new_inv (buffer : Fin (2 ^ k) → T) : (new buffer).Inv where
  head := rfl
  tail := rfl
  order := le_rfl
  cachedTail := le_rfl
  room := Nat.zero_le _
  cachedHead := le_rfl
  slots j item _ hitem := by simp [pushes, new, Return.pushes] at hitem
  producer := trivial
  consumer := trivial
  full n hn := by simp [new] at hn
  empty n hn := by simp [new] at hn

/-- **A step.** -/
theorem Inv.step (hk : k < 64) {s : RingState T k} (h : s.Inv) (a : RingStep T) :
    (s.step a).Inv := by
  cases a with
  | produce item => exact h.produce hk item
  | consume => exact h.consume

/-- **A run.** -/
theorem Inv.run (hk : k < 64) {s : RingState T k} (h : s.Inv) (steps : List (RingStep T)) :
    (s.run steps).Inv :=
  Machine.invariant (fun _ a h => h.step hk a) h steps

end RingState

end TradeFeed
