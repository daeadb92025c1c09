import Mathlib.Data.UInt
import Mathlib.Logic.Function.Basic
import TradeFeed.Lib.Machine

/-!
# The ring between two threads

`SPSCRing` (`spsc_ring.h`): one thread pushes, another pops, without locks. A call is the
atomic steps it makes: it loads its own index, compares it with the copy it keeps of the
other one, loads that one anew if the copy says that the ring is full (or empty), copies
the slot, and publishes its index. The steps of the two threads come in any order
(`RingState.run`); each thread has what it is in the middle of as its state.

That a copy of an index is loaded anew comes with the number of items held at that moment,
which no step looks at: it is there to say when calls fail.
-/

namespace TradeFeed

open Lib

/-- `SPSCRing<T, Capacity>`, its capacity being `2 ^ k`. -/
structure SPSCRing (T : Type*) (k : ℕ) where
  /-- `head_`. -/
  head : UInt64
  /-- `tail_`. -/
  tail : UInt64
  /-- `cached_tail_`, the producer's. -/
  cachedTail : UInt64
  /-- `cached_head_`, the consumer's. -/
  cachedHead : UInt64
  /-- `buffer_`. -/
  buffer : Fin (2 ^ k) → T

/-- `Capacity`, a `size_t`. -/
def capacity (k : ℕ) : UInt64 := UInt64.ofNat (2 ^ k)

/-- `index & MASK`. -/
def maskSlot {k : ℕ} (index : UInt64) : Fin (2 ^ k) :=
  ⟨index.toNat &&& (2 ^ k - 1),
    Nat.lt_of_le_of_lt Nat.and_le_right (Nat.sub_lt (Nat.two_pow_pos k) Nat.one_pos)⟩

/-- What the producer is in the middle of. -/
inductive Producer (T : Type*) where
  /-- It is not in a call. -/
  | idle
  /-- It has loaded `head_`. -/
  | loaded (item : T) (head : UInt64)
  /-- The ring looked full. -/
  | reload (item : T) (head : UInt64)
  /-- It has loaded `tail_` anew; that many items were held then. -/
  | reloaded (item : T) (head : UInt64) (held : ℕ)
  /-- There is room. -/
  | copy (item : T) (head : UInt64)
  /-- The item is in its slot. -/
  | publish (item : T) (head : UInt64)

/-- What the consumer is in the middle of. -/
inductive Consumer (T : Type*) where
  /-- It is not in a call. -/
  | idle
  /-- It has loaded `tail_`. -/
  | loaded (tail : UInt64)
  /-- The ring looked empty. -/
  | reload (tail : UInt64)
  /-- It has loaded `head_` anew; that many items were held then. -/
  | reloaded (tail : UInt64) (held : ℕ)
  /-- There is an item. -/
  | copy (tail : UInt64)
  /-- The item is read. -/
  | publish (item : T) (tail : UInt64)

/-- What a call returned. -/
inductive Return (T : Type*) where
  /-- `push` returned true. -/
  | pushed (item : T)
  /-- `push` returned false; that many items were held when it loaded `tail_` anew. -/
  | pushFailed (held : ℕ)
  /-- `pop` returned true. -/
  | popped (item : T)
  /-- `pop` returned false; that many items were held when it loaded `head_` anew. -/
  | popFailed (held : ℕ)

namespace Return

variable {T : Type*}

/-- The items pushed, by what was returned. -/
def pushes (rs : List (Return T)) : List T :=
  rs.filterMap fun
    | pushed item => some item
    | _ => none

/-- The items popped, by what was returned. -/
def pops (rs : List (Return T)) : List T :=
  rs.filterMap fun
    | popped item => some item
    | _ => none

@[simp] theorem pushes_pushed (rs : List (Return T)) (item : T) :
    pushes (rs ++ [pushed item]) = pushes rs ++ [item] := by simp [pushes]

@[simp] theorem pushes_pushFailed (rs : List (Return T)) (n : ℕ) :
    pushes (rs ++ [pushFailed n]) = pushes rs := by
  simp [pushes]

@[simp] theorem pushes_popped (rs : List (Return T)) (item : T) :
    pushes (rs ++ [popped item]) = pushes rs := by
  simp [pushes]

@[simp] theorem pushes_popFailed (rs : List (Return T)) (n : ℕ) :
    pushes (rs ++ [popFailed n]) = pushes rs := by
  simp [pushes]

@[simp] theorem pops_pushed (rs : List (Return T)) (item : T) :
    pops (rs ++ [pushed item]) = pops rs := by
  simp [pops]

@[simp] theorem pops_pushFailed (rs : List (Return T)) (n : ℕ) :
    pops (rs ++ [pushFailed n]) = pops rs := by
  simp [pops]

@[simp] theorem pops_popped (rs : List (Return T)) (item : T) :
    pops (rs ++ [popped item]) = pops rs ++ [item] := by simp [pops]

@[simp] theorem pops_popFailed (rs : List (Return T)) (n : ℕ) :
    pops (rs ++ [popFailed n]) = pops rs := by
  simp [pops]

end Return

/-- The ring, its two threads, and what their calls have returned. -/
structure RingState (T : Type*) (k : ℕ) where
  /-- The ring. -/
  ring : SPSCRing T k
  /-- The producer. -/
  producer : Producer T
  /-- The consumer. -/
  consumer : Consumer T
  /-- What was returned, in order. -/
  returns : List (Return T)

/-- A step of the one thread or of the other. -/
inductive RingStep (T : Type*) where
  /-- The producer's: if it is not in a call, it begins to push the item. -/
  | produce (item : T)
  /-- The consumer's. -/
  | consume

namespace RingState

variable {T : Type*} {k : ℕ}

/-- The items pushed. -/
def pushes (s : RingState T k) : List T := Return.pushes s.returns

/-- The items popped. -/
def pops (s : RingState T k) : List T := Return.pops s.returns

/-- How many items the ring holds. -/
def held (s : RingState T k) : ℕ := s.pushes.length - s.pops.length

/-- An empty ring, whatever its buffer holds. -/
def new (buffer : Fin (2 ^ k) → T) : RingState T k := ⟨⟨0, 0, 0, 0, buffer⟩, .idle, .idle, []⟩

/-- `push(item)`, step by step. -/
def produce (s : RingState T k) (item : T) : RingState T k :=
  match s.producer with
  | .idle => { s with producer := .loaded item s.ring.head }
  | .loaded item head =>
    if head - s.ring.cachedTail ≥ capacity k then { s with producer := .reload item head }
    else { s with producer := .copy item head }
  | .reload item head =>
    { s with ring := { s.ring with cachedTail := s.ring.tail }, producer :=
      .reloaded item head s.held }
  | .reloaded item head held =>
    if head - s.ring.cachedTail ≥ capacity k then
      { s with producer := .idle, returns := s.returns ++ [.pushFailed held] }
    else { s with producer := .copy item head }
  | .copy item head =>
    { s with
      ring := { s.ring with buffer := Function.update s.ring.buffer (maskSlot head) item }
      producer := .publish item head }
  | .publish item head =>
    { s with
      ring := { s.ring with head := head + 1 }
      producer := .idle
      returns := s.returns ++ [.pushed item] }

/-- `pop(item)`, step by step. -/
def consume (s : RingState T k) : RingState T k :=
  match s.consumer with
  | .idle => { s with consumer := .loaded s.ring.tail }
  | .loaded tail =>
    if s.ring.cachedHead ≤ tail then { s with consumer := .reload tail }
      else { s with consumer := .copy tail }
  | .reload tail =>
    { s with ring := { s.ring with cachedHead := s.ring.head }, consumer := .reloaded tail s.held }
  | .reloaded tail held =>
    if s.ring.cachedHead ≤ tail then
      { s with consumer := .idle, returns := s.returns ++ [.popFailed held] }
    else { s with consumer := .copy tail }
  | .copy tail => { s with consumer := .publish (s.ring.buffer (maskSlot tail)) tail }
  | .publish item tail =>
    { s with
      ring := { s.ring with tail := tail + 1 }
      consumer := .idle
      returns := s.returns ++ [.popped item] }

/-- A step of either. -/
def step (s : RingState T k) : RingStep T → RingState T k
  | .produce item => s.produce item
  | .consume => s.consume

/-- Any steps, in any order. -/
abbrev run (s : RingState T k) (steps : List (RingStep T)) : RingState T k :=
  Machine.run step s steps

end RingState

end TradeFeed
