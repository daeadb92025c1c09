import Mathlib.Algebra.BigOperators.Group.List.Basic
import TradeFeed.Core.Types
import TradeFeed.Lib.LinkedList

/-!
# The order pool and the price levels

`OrderPool` (`order_pool.h`) hands out orders of its arena and takes them back;
`PriceLevel` (`price_level.h`) is the queue of the orders at one price, an
intrusive doubly linked list with a running total and a count. The functions of a
level write to the orders it links, so they take the arena and return it.

`LevelOk m l q` says that level `l` is the queue `q` in arena `m`. `push`, `remove`
and a fill followed by `adjust_qty` keep it (`push_ok`, `remove_ok`, `adjust_ok`),
and write nothing but links and, for a fill, the filled quantity.
-/

namespace TradeFeed

open Lib

variable {cap : ℕ}

/-! ### The pool -/

/-- `class OrderPool`. -/
structure OrderPool (cap : ℕ) where
  /-- The orders. -/
  arena : Arena cap
  /-- The free orders; the back of the vector comes first. -/
  freeList : List (Fin cap)

namespace OrderPool

/-- The loop of the constructor, which pushes the last order first: the orders from
`cap - n` on. -/
def freeFrom (cap : ℕ) : ℕ → List (Fin cap)
  | 0 => []
  | n + 1 => (index cap (cap - (n + 1))).toList ++ freeFrom cap n

/-- `OrderPool(capacity)`. -/
def new (cap : ℕ) : OrderPool cap := ⟨fun _ => Order.zero, freeFrom cap cap⟩

/-- `available()`. -/
def available (pool : OrderPool cap) : ℕ := pool.freeList.length

/-- `capacity()`. -/
def capacity (_ : OrderPool cap) : ℕ := cap

/-- `allocate()`; undefined when nothing is free. -/
def allocate (pool : OrderPool cap) : Option (Fin cap × OrderPool cap) :=
  match pool.freeList with
  | [] => none
  | o :: rest => some (o, { pool with freeList := rest })

/-- `deallocate(o)`. -/
def deallocate (pool : OrderPool cap) (o : Fin cap) : OrderPool cap where
  arena := pool.arena.modify o fun x => { x with prev := none, next := none, filledQty := 0 }
  freeList := o :: pool.freeList

theorem freeFrom_eq {n : ℕ} (h : n ≤ cap) :
    (freeFrom cap n).map Fin.val = List.range' (cap - n) n := by
  induction n with
  | zero => rfl
  | succ n ih =>
    have hlt : cap - (n + 1) < cap := by omega
    rw [freeFrom, index_of_lt hlt, Option.toList_some, List.map_append, ih (by omega),
      List.range'_succ]
    rw [show cap - (n + 1) + 1 = cap - n by omega]
    rfl

/-- Every order is free at first, and none is free twice. -/
theorem freeFrom_cap (cap : ℕ) : freeFrom cap cap = List.finRange cap := by
  have h : (freeFrom cap cap).map Fin.val = (List.finRange cap).map Fin.val := by
    rw [freeFrom_eq le_rfl, List.map_coe_finRange_eq_range, Nat.sub_self, List.range_eq_range']
  exact List.map_injective_iff.mpr Fin.val_injective h

end OrderPool

/-! ### The levels -/

/-- `class PriceLevel`. -/
structure PriceLevel (cap : ℕ) where
  /-- The first order. -/
  head : Option (Fin cap)
  /-- The last order. -/
  tail : Option (Fin cap)
  /-- The running total of what remains of the orders. -/
  totalQty : Quantity
  /-- How many orders. -/
  count : UInt32

namespace PriceLevel

/-- A level without orders. -/
def new : PriceLevel cap := ⟨none, none, 0, 0⟩

/-- `push(o)`. -/
def push (m : Arena cap) (l : PriceLevel cap) (o : Fin cap) : Arena cap × PriceLevel cap :=
  let m := m.modify o fun x => { x with prev := l.tail, next := none }
  let (m, head) :=
    match l.tail with
    | some t => (m.modify t fun x => { x with next := some o }, l.head)
    | none => (m, some o)
  (m, { head := head, tail := some o, totalQty := l.totalQty + (m o).remaining, count :=
    l.count + 1 })

/-- `remove(o)`. -/
def remove (m : Arena cap) (l : PriceLevel cap) (o : Fin cap) : Arena cap × PriceLevel cap :=
  let (m, head) :=
    match (m o).prev with
    | some p => (m.modify p fun x => { x with next := (m o).next }, l.head)
    | none => (m, (m o).next)
  let (m, tail) :=
    match (m o).next with
    | some n => (m.modify n fun x => { x with prev := (m o).prev }, l.tail)
    | none => (m, (m o).prev)
  (m.modify o fun x => { x with prev := none, next := none },
    { head := head, tail := tail, totalQty := l.totalQty - (m o).remaining, count := l.count - 1 })

/-- `front()`. -/
def front (l : PriceLevel cap) : Option (Fin cap) := l.head

/-- `empty()`. -/
def empty (l : PriceLevel cap) : Bool := l.count == 0

/-- `adjust_qty(delta)`: the signed amount is converted to unsigned and added. -/
def adjustQty (l : PriceLevel cap) (delta : Int32) : PriceLevel cap :=
  { l with totalQty := l.totalQty + delta.toUInt32 }

end PriceLevel

/-- What remains of the orders of a queue, as a natural number. -/
def queueQty (m : Arena cap) (q : List (Fin cap)) : ℕ := (q.map fun p => (m p).remaining.toNat).sum

theorem queueQty_congr {m m' : Arena cap} {q : List (Fin cap)}
    (h : ∀ p ∈ q, (m' p).bare = (m p).bare) :
    queueQty m' q = queueQty m q := by
  unfold queueQty
  congr 1
  apply List.map_congr_left
  intro p hp
  rw [← Order.bare_remaining, h p hp, Order.bare_remaining]

/-- Level `l` is the queue `q` in arena `m`: its links are the queue's, its count is
the queue's length, and its total is what remains of the queue's orders, modulo
2³². -/
structure LevelOk (m : Arena cap) (l : PriceLevel cap) (q : List (Fin cap)) : Prop where
  /-- The links. -/
  linked : Linked (fun p => (m p).next) (fun p => (m p).prev) l.head l.tail q
  /-- No order is linked twice. -/
  nodup : q.Nodup
  /-- The count. -/
  count : l.count.toNat = q.length
  /-- The total. -/
  total : l.totalQty.toNat = queueQty m q % 2 ^ 32

namespace LevelOk

variable {m m' : Arena cap} {l : PriceLevel cap} {q : List (Fin cap)} {o : Fin cap}

theorem new (m : Arena cap) : LevelOk m PriceLevel.new [] :=
  ⟨Linked.nil _ _, List.nodup_nil, rfl, rfl⟩

/-- Only the queue's own orders matter. -/
theorem congr (h : LevelOk m l q) (hm : ∀ p ∈ q, m' p = m p) : LevelOk m' l q where
  linked := h.linked.congr (fun p hp => by rw [hm p hp]) fun p hp => by rw [hm p hp]
  nodup := h.nodup
  count := h.count
  total := by rw [h.total, queueQty_congr fun p hp => congrArg Order.bare (hm p hp)]

/-- **A queue of orders determines its level**, and the links between them. -/
theorem unique {l' : PriceLevel cap} (h : LevelOk m l q) (h' : LevelOk m' l' q)
    (hm : ∀ p ∈ q, (m' p).bare = (m p).bare) : l' = l ∧ ∀ p ∈ q, m' p = m p := by
  constructor
  · have hcount : l'.count = l.count := UInt32.toNat_inj.mp (h'.count.trans h.count.symm)
    have htotal : l'.totalQty = l.totalQty :=
      UInt32.toNat_inj.mp (by rw [h'.total, h.total, queueQty_congr hm])
    have hhead : l'.head = l.head := h'.linked.head_eq.trans h.linked.head_eq.symm
    have htail : l'.tail = l.tail := h'.linked.tail_eq.trans h.linked.tail_eq.symm
    cases l
    cases l'
    cases hcount
    cases htotal
    cases hhead
    cases htail
    rfl
  · intro p hp
    obtain ⟨l₁, l₂, hq⟩ := List.append_of_mem hp
    obtain ⟨hprev, hnext⟩ := h.linked.node l₁ p l₂ hq
    obtain ⟨hprev', hnext'⟩ := h'.linked.node l₁ p l₂ hq
    exact Order.eq_of_bare (hm p hp) (hprev'.trans hprev.symm) (hnext'.trans hnext.symm)

theorem empty_iff (h : LevelOk m l q) : l.empty = true ↔ q = [] := by
  rw [PriceLevel.empty, beq_iff_eq, ← UInt32.toNat_inj, h.count]
  simp

theorem front_eq (h : LevelOk m l q) : l.front = q.head? := h.linked.head_eq

theorem tail_eq (h : LevelOk m l q) : l.tail = q.getLast? := h.linked.tail_eq

/-- What `push` writes. -/
theorem push_apply (h : LevelOk m l q) (ho : o ∉ q) (p : Fin cap) :
    (PriceLevel.push m l o).1 p =
      { m p with
        prev := if p = o then q.getLast? else (m p).prev
        next := if p = o then none else if q.getLast? = some p then some o else (m p).next } := by
  have htail := h.tail_eq
  unfold PriceLevel.push
  cases hl : q.getLast? with
  | none =>
    rw [hl] at htail
    by_cases hp : p = o <;> simp [htail, hp]
  | some t =>
    rw [hl] at htail
    have hto : t ≠ o := fun e => ho (e ▸ List.mem_of_getLast? hl)
    by_cases hp : p = o
    · subst hp
      simp [htail, hto.symm]
    · by_cases hpt : p = t
      · subst hpt; simp [htail, hp]
      · simp [htail, hp, hpt, Ne.symm hpt]

/-- **`push`** puts the order at the end of the queue. -/
theorem push_ok (h : LevelOk m l q) (ho : o ∉ q) (hlen : q.length + 1 < 2 ^ 32) :
    LevelOk (PriceLevel.push m l o).1 (PriceLevel.push m l o).2 (q ++ [o]) := by
  have hm := fun p => push_apply h ho p
  have hbare : ∀ p, ((PriceLevel.push m l o).1 p).bare = (m p).bare := fun p => by rw [hm p]; rfl
  have hnd : (q ++ [o]).Nodup := List.nodup_append.mpr ⟨h.nodup, by simp, by
    rintro a ha b hb rfl; exact ho (by simpa using (List.mem_singleton.mp hb) ▸ ha)⟩
  have hhead : (PriceLevel.push m l o).2.head = (q ++ [o]).head? := by
    have htail := h.tail_eq
    unfold PriceLevel.push
    cases hl : q.getLast? with
    | none =>
      rw [hl] at htail
      rw [List.getLast?_eq_none_iff] at hl
      simp [htail, hl]
    | some t =>
      rw [hl] at htail
      have hq : q ≠ [] := fun e => by simp [e] at hl
      simp [htail, h.linked.head_eq, List.head?_append_of_ne_nil _ hq]
  have htail : (PriceLevel.push m l o).2.tail = some o := by
    unfold PriceLevel.push; cases l.tail <;> rfl
  have htot : (PriceLevel.push m l o).2.totalQty = l.totalQty + (m o).remaining := by
    have hr : ((PriceLevel.push m l o).1 o).remaining = (m o).remaining := by
      rw [← Order.bare_remaining, hbare, Order.bare_remaining]
    rw [← hr]
    unfold PriceLevel.push; cases l.tail <;> rfl
  have hcount : (PriceLevel.push m l o).2.count = l.count + 1 := by
    unfold PriceLevel.push; cases l.tail <;> rfl
  constructor
  · rw [hhead, htail]
    refine h.linked.push hnd (fun c hc => ?_) (by simp [hm]) (fun c hc => ?_) (by simp [hm])
    · have hco : c ≠ o := fun e => ho (e ▸ hc)
      simp only [hm, hco, if_false]
    · have hco : c ≠ o := fun e => ho (e ▸ hc)
      simp only [hm, hco, if_false]
  · exact hnd
  · rw [hcount, UInt32.toNat_add, h.count]
    simp
    omega
  · have hq : queueQty (PriceLevel.push m l o).1 (q ++ [o]) = queueQty m q +
        (m o).remaining.toNat := by
      rw [queueQty_congr fun p _ => hbare p]
      simp [queueQty]
    rw [htot, UInt32.toNat_add, h.total, hq]
    omega

/-- The neighbours of a linked order are other orders, and differ. -/
theorem neighbours_ne {l₁ l₂ : List (Fin cap)} (h : LevelOk m l (l₁ ++ o :: l₂)) :
    (∀ a, l₁.getLast? = some a → a ≠ o ∧ l₂.head? ≠ some a) ∧ ∀ b, l₂.head? = some b → b ≠ o := by
  obtain ⟨-, hnd₂, hd⟩ := List.nodup_append.mp h.nodup
  refine ⟨fun a ha => ?_, ?_⟩
  · have hmem := List.mem_of_getLast? ha
    exact ⟨hd a hmem o (by simp), fun e => hd a hmem a (by simp [List.mem_of_head? e]) rfl⟩
  · rintro b hb rfl
    exact (List.nodup_cons.mp hnd₂).1 (List.mem_of_head? hb)

/-- What `remove` writes to the orders. -/
theorem remove_apply {l₁ l₂ : List (Fin cap)} (h : LevelOk m l (l₁ ++ o :: l₂)) (p : Fin cap) :
    (PriceLevel.remove m l o).1 p =
      { m p with
        prev := if p = o then none else if l₂.head? = some p then l₁.getLast? else (m p).prev
        next := if p = o then none else if l₁.getLast? = some p then l₂.head?
          else (m p).next } := by
  obtain ⟨hprev, hnext⟩ := h.linked.node l₁ o l₂ rfl
  obtain ⟨h₁, h₂⟩ := h.neighbours_ne
  unfold PriceLevel.remove
  cases hl₁ : l₁.getLast? with
  | none =>
    rw [hl₁] at hprev
    cases hl₂ : l₂.head? with
    | none =>
      rw [hl₂] at hnext
      by_cases hp : p = o <;> simp [hprev, hnext, hp]
    | some b =>
      rw [hl₂] at hnext
      have hb := h₂ b hl₂
      by_cases hp : p = o
      · subst hp; simp [hprev, hnext, hb.symm]
      · by_cases hpb : p = b
        · subst hpb; simp [hprev, hnext, hp]
        · simp [hprev, hnext, hp, hpb, Ne.symm hpb]
  | some a =>
    rw [hl₁] at hprev
    obtain ⟨ha, hab⟩ := h₁ a hl₁
    cases hl₂ : l₂.head? with
    | none =>
      rw [hl₂] at hnext
      by_cases hp : p = o
      · subst hp; simp [hprev, hnext, ha.symm]
      · by_cases hpa : p = a
        · subst hpa; simp [hprev, hnext, hp, ha.symm]
        · simp [hprev, hnext, hp, hpa, Ne.symm hpa, ha.symm]
    | some b =>
      rw [hl₂] at hnext
      have hb := h₂ b hl₂
      have hne : b ≠ a := fun e => hab (by rw [hl₂, e])
      by_cases hp : p = o
      · subst hp; simp [hprev, hnext, ha.symm, hb.symm]
      · by_cases hpa : p = a
        · subst hpa; simp [hprev, hnext, hp, ha.symm, hne, hne.symm]
        · by_cases hpb : p = b
          · subst hpb; simp [hprev, hnext, hp, ha.symm, hne, hne.symm]
          · simp [hprev, hnext, hp, hpa, hpb, Ne.symm hpa, Ne.symm hpb, ha.symm]

/-- What `remove` writes to the level. -/
theorem remove_level {l₁ l₂ : List (Fin cap)} (h : LevelOk m l (l₁ ++ o :: l₂)) :
    (PriceLevel.remove m l o).2 =
      { head := (l₁ ++ l₂).head?, tail := (l₁ ++ l₂).getLast?,
        totalQty := l.totalQty - (m o).remaining, count := l.count - 1 } := by
  obtain ⟨hprev, hnext⟩ := h.linked.node l₁ o l₂ rfl
  obtain ⟨h₁, h₂⟩ := h.neighbours_ne
  have hhead : l.head = l₁.head?.or (some o) := by rw [h.linked.head_eq, List.head?_append]; rfl
  have htail : l.tail = l₂.getLast?.or (some o) := by
    rw [h.linked.tail_eq, List.getLast?_append, List.getLast?_cons]
    cases l₂.getLast? <;> rfl
  unfold PriceLevel.remove
  rw [List.head?_append, List.getLast?_append]
  rcases l₁.eq_nil_or_concat with rfl | ⟨l₁, a, rfl⟩
  · simp only [List.getLast?_nil] at hprev
    cases l₂ with
    | nil =>
      simp only [List.head?_nil] at hnext
      simp [hprev, hnext]
    | cons b l₂ =>
      simp only [List.head?_cons] at hnext
      have hb : b ≠ o := h₂ b rfl
      simp [hprev, hnext, htail, hb.symm, List.getLast?_cons]
  · rw [List.concat_eq_append] at *
    simp only [List.getLast?_concat] at hprev
    have ha : a ≠ o := (h₁ a (by simp)).1
    cases l₂ with
    | nil =>
      simp only [List.head?_nil] at hnext
      simp [hprev, hnext, hhead, ha.symm, List.head?_append]
    | cons b l₂ =>
      simp only [List.head?_cons] at hnext
      have hb : b ≠ o := h₂ b rfl
      simp [hprev, hnext, hhead, htail, ha.symm, hb.symm, List.getLast?_cons, List.head?_append]

/-- **`remove`** takes the order out of the queue, wherever it stands. -/
theorem remove_ok {l₁ l₂ : List (Fin cap)} (h : LevelOk m l (l₁ ++ o :: l₂)) :
    LevelOk (PriceLevel.remove m l o).1 (PriceLevel.remove m l o).2 (l₁ ++ l₂) := by
  have hm := fun p => remove_apply h p
  have hbare : ∀ p, ((PriceLevel.remove m l o).1 p).bare = (m p).bare := fun p => by rw [hm p]; rfl
  obtain ⟨hnd₁, hnd₂, hd⟩ := List.nodup_append.mp h.nodup
  have hne : ∀ c ∈ l₁ ++ l₂, c ≠ o := by
    rintro c hc rfl
    rcases List.mem_append.mp hc with hc | hc
    · exact hd c hc c (by simp) rfl
    · exact (List.nodup_cons.mp hnd₂).1 hc
  rw [remove_level h]
  constructor
  · refine h.linked.remove h.nodup (fun c hc => ?_) fun c hc => ?_
    · simp only [hm, hne c hc, if_false]
    · simp only [hm, hne c hc, if_false]
  · exact List.nodup_append.mpr
      ⟨hnd₁, (List.nodup_cons.mp hnd₂).2, fun a ha b hb => hd a ha b (by simp [hb])⟩
  · have hc := h.count
    simp only [List.length_append, List.length_cons] at hc ⊢
    have := l.count.toNat_lt
    rw [UInt32.toNat_sub, hc, show (1 : UInt32).toNat = 1 from rfl]
    omega
  · have hq : queueQty m (l₁ ++ o :: l₂) =
        queueQty (PriceLevel.remove m l o).1 (l₁ ++ l₂) + (m o).remaining.toNat := by
      rw [queueQty_congr fun p _ => hbare p]
      simp only [queueQty, List.map_append, List.map_cons, List.sum_append, List.sum_cons]
      omega
    have hr := (m o).remaining.toNat_lt
    rw [UInt32.toNat_sub, h.total, hq]
    omega

/-- Filling an order of the queue and taking the quantity off the total. -/
theorem adjust_ok (h : LevelOk m l q) (ho : o ∈ q) {k : Quantity} (hk : k ≤ (m o).remaining) :
    LevelOk (m.modify o fun x => x.fill k) (l.adjustQty (-k.toInt32)) q := by
  obtain ⟨l₁, l₂, rfl⟩ := List.append_of_mem ho
  have hlinks : ∀ p, ((m.modify o fun x => x.fill k) p).next = (m p).next ∧
      ((m.modify o fun x => x.fill k) p).prev = (m p).prev := by
    intro p
    by_cases hp : p = o
    · subst hp; simp [Order.fill]
    · simp [hp]
  have hne : ∀ p ∈ l₁ ++ l₂, p ≠ o := by
    obtain ⟨-, hnd₂, hd⟩ := List.nodup_append.mp h.nodup
    rintro c hc rfl
    rcases List.mem_append.mp hc with hc | hc
    · exact hd c hc c (by simp) rfl
    · exact (List.nodup_cons.mp hnd₂).1 hc
  have hq : queueQty m (l₁ ++ o :: l₂) =
      queueQty (m.modify o fun x => x.fill k) (l₁ ++ o :: l₂) + k.toNat := by
    have hr := Order.fill_remaining hk
    rw [UInt32.le_iff_toNat_le] at hk
    have h₁ : l₁.map (fun p => ((m.modify o fun x => x.fill k) p).remaining.toNat) =
        l₁.map fun p => (m p).remaining.toNat :=
      List.map_congr_left fun p hp => by rw [Arena.modify_of_ne _ (hne p (by simp [hp]))]
    have h₂ : l₂.map (fun p => ((m.modify o fun x => x.fill k) p).remaining.toNat) =
        l₂.map fun p => (m p).remaining.toNat :=
      List.map_congr_left fun p hp => by rw [Arena.modify_of_ne _ (hne p (by simp [hp]))]
    simp only [queueQty, List.map_append, List.map_cons, List.sum_append, List.sum_cons, h₁, h₂,
      Arena.modify_self, hr]
    omega
  constructor
  · exact h.linked.congr (fun p _ => (hlinks p).1) fun p _ => (hlinks p).2
  · exact h.nodup
  · exact h.count
  · have hd : (-k.toInt32).toUInt32 = -k := by simp
    have hk' := k.toNat_lt
    rw [PriceLevel.adjustQty, hd, ← UInt32.sub_eq_add_neg, UInt32.toNat_sub, h.total, hq]
    omega

end LevelOk

end TradeFeed
