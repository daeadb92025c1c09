import TradeFeed.Core.OrderBook

/-!
# Two books side by side

What it takes for two books to match alike. `Alike` collects what a relation between books
has to say for the matching loops of the one to follow those of the other round by round,
perhaps on the other side and at other levels; `Alike.matchWhile` is the run of the loops.

A `Relabel` changes what orders are called, so to speak: prices, sides, types and timestamps,
and nothing that the pool, the links, the table or the quantities depend on. The primitives
of the book commute with it, and so does trading, where the price of the resting order
stays.
-/

namespace TradeFeed

open Lib.Machine (rel_bind rel_map_iff)

variable {cap : ℕ}

/-! ### The loops -/

/-- The order `a` is matched in the first book against side `s` and in the second against side
`s'`, where level `τ i` stands for level `i`. The relation `R` between the books is kept by a
round of the inner loop and by a round of the outer loop, and decides what the loops decide. -/
structure Alike (R : OrderBook cap → OrderBook cap → Prop) (a : Fin cap) (s s' : BookSide)
    (side side' : Side) (accept accept' : Price → Bool) (τ : Fin priceLevels → Fin priceLevels) :
    Prop where
  /-- The order in hand is filled in both or in neither. -/
  filled : ∀ {b b'}, R b b' → (b'.order a).isFilled = (b.order a).isFilled
  /-- The best price is accepted in both or in neither. -/
  accept : ∀ {b b'}, R b b' → accept' (b'.best s') = accept (b.best s)
  /-- The best levels correspond. -/
  level : ∀ {b b'}, R b b' → levelOf (b'.best s') = (levelOf (b.best s)).map τ
  /-- A level is empty in both or in neither. -/
  empty : ∀ {b b'}, R b b' → ∀ i, (b'.levels s' (τ i)).empty = (b.levels s i).empty
  /-- A level has the same first order in both. -/
  front : ∀ {b b'}, R b b' → ∀ i, (b'.levels s' (τ i)).front = (b.levels s i).front
  /-- A trade with it keeps them related. -/
  round : ∀ {b b'} i p, R b b' → (b.levels s i).front = some p → (b.levels s i).empty = false →
    (b.order a).isFilled = false →
    R ((b.tradeWith s i a p side).retire s i p)
    ((b'.tradeWith s' (τ i) a p side').retire s' (τ i) p)
  /-- The search for the next best price keeps them related. -/
  scan : ∀ {b b'} i, R b b' → (b.levels s i).empty = true →
    Option.Rel R ((b.clearBit s i).scanBest s) ((b'.clearBit s' (τ i)).scanBest s')

namespace Alike

variable {R : OrderBook cap → OrderBook cap → Prop} {a : Fin cap} {s s' : BookSide}
  {side side' : Side}
  {accept accept' : Price → Bool} {τ : Fin priceLevels → Fin priceLevels} {b b' : OrderBook cap}

theorem drainLevel (h : Alike R a s s' side side' accept accept' τ) (i : Fin priceLevels) (fuel : ℕ)
    (hb : R b b') :
    Option.Rel R (b.drainLevel s i a side fuel) (b'.drainLevel s' (τ i) a side' fuel) := by
  induction fuel generalizing b b' with
  | zero => exact .none
  | succ fuel ih =>
    unfold OrderBook.drainLevel
    rw [h.empty hb, h.filled hb, h.front hb]
    split_ifs with hc
    · rw [Bool.and_eq_true, Bool.not_eq_true', Bool.not_eq_true'] at hc
      cases hf : (b.levels s i).front with
      | none => exact .none
      | some p => exact ih (h.round i p hb hf hc.1 hc.2)
    · exact .some hb

/-- **The loops side by side**: both end or neither does, and they end in related books. -/
theorem matchWhile (h : Alike R a s s' side side' accept accept' τ) (fuel : ℕ) (hb : R b b') :
    Option.Rel R (b.matchWhile s side accept a fuel) (b'.matchWhile s' side' accept' a fuel) := by
  induction fuel generalizing b b' with
  | zero => exact .none
  | succ fuel ih =>
    unfold OrderBook.matchWhile
    rw [h.filled hb, h.accept hb, h.level hb]
    split_ifs
    · cases levelOf (b.best s) with
      | none => exact .none
      | some i =>
        simp only [Option.map_some, Option.bind_eq_bind, Option.bind_some]
        refine rel_bind (h.drainLevel i (cap + 1) hb) fun b₁ b₁' hb₁ => ?_
        rw [h.empty hb₁]
        by_cases he : (b₁.levels s i).empty = true
        · rw [if_pos he, if_pos he]
          exact rel_bind (h.scan i hb₁ he) fun _ _ hb₂ => ih hb₂
        · rw [if_neg he, if_neg he]
          exact ih hb₁
    · exact .some hb

end Alike

/-! ### Relabelings -/

/-- What to call each order: its price, side, type and timestamp. -/
structure Relabel (cap : ℕ) where
  /-- The new price. -/
  price : Fin cap → Price → Price
  /-- The new side. -/
  side : Fin cap → Side → Side
  /-- The new type. -/
  type : Fin cap → OrderType → OrderType
  /-- The new timestamp. -/
  timestamp : Fin cap → Timestamp → Timestamp

/-- The order at a pointer, relabeled. -/
def Relabel.order (r : Relabel cap) (p : Fin cap) (o : Order cap) : Order cap :=
  { o with price := r.price p o.price, side := r.side p o.side, type := r.type p o.type
           timestamp := r.timestamp p o.timestamp }

@[simp] theorem Relabel.clientId_order (r : Relabel cap) (p : Fin cap) (o : Order cap) :
    (r.order p o).clientId = o.clientId := rfl

/-- The labels `r'` for one order, and `r` for the others. -/
def Relabel.set (r : Relabel cap) (o : Fin cap) (r' : Relabel cap) : Relabel cap where
  price p := if p = o then r'.price p else r.price p
  side p := if p = o then r'.side p else r.side p
  type p := if p = o then r'.type p else r.type p
  timestamp p := if p = o then r'.timestamp p else r.timestamp p

@[simp] theorem Relabel.set_self (r r' : Relabel cap) (o : Fin cap) :
    (r.set o r').order o = r'.order o := by
  funext w
  simp [set, order]

theorem Relabel.set_of_ne (r r' : Relabel cap) {o p : Fin cap} (h : p ≠ o) :
    (r.set o r').order p = r.order p := by
  funext w
  simp [set, order, h]

/-- The orders of an arena, relabeled. -/
def Arena.relabel (m : Arena cap) (r : Relabel cap) : Arena cap := fun p => r.order p (m p)

/-- A change of an order that does not look at its labels. -/
theorem Arena.relabel_modify (m : Arena cap) (r : Relabel cap) (p : Fin cap)
    (f : Order cap → Order cap) (h : ∀ o, r.order p (f o) = f (r.order p o)) :
    (m.relabel r).modify p f = (m.modify p f).relabel r := by
  funext q
  rw [Arena.relabel, Arena.modify_apply, Arena.modify_apply]
  split_ifs with hq
  · subst hq
    exact (h _).symm
  · rfl

namespace PriceLevel

theorem push_relabel (m : Arena cap) (r : Relabel cap) (l : PriceLevel cap) (o : Fin cap) :
    push (m.relabel r) l o = ((push m l o).1.relabel r, (push m l o).2) := by
  unfold push
  simp only [Arena.relabel_modify m r o (fun x => { x with prev := l.tail, next := none })
    fun _ => rfl]
  cases ht : l.tail with
  | none => rfl
  | some t =>
    simp only [Arena.relabel_modify (m.modify o fun x => { x with prev := some t, next := none }) r
      t (fun x => { x with next := some o }) fun _ => rfl]
    rfl

theorem remove_relabel (m : Arena cap) (r : Relabel cap) (l : PriceLevel cap) (o : Fin cap) :
    remove (m.relabel r) l o = ((remove m l o).1.relabel r, (remove m l o).2) := by
  have hunlink : ∀ m : Arena cap,
    ((m.relabel r).modify o fun x => { x with prev := none, next := none }) =
      (m.modify o fun x => { x with prev := none, next := none }).relabel r := fun m =>
    Arena.relabel_modify m r o _ fun _ => rfl
  have hnext : ∀ (m : Arena cap) p q, ((m.relabel r).modify p fun x => { x with next := q }) =
      (m.modify p fun x => { x with next := q }).relabel r :=
        fun m p q => Arena.relabel_modify m r p _ fun _ => rfl
  have hprev : ∀ (m : Arena cap) p q, ((m.relabel r).modify p fun x => { x with prev := q }) =
      (m.modify p fun x => { x with prev := q }).relabel r :=
        fun m p q => Arena.relabel_modify m r p _ fun _ => rfl
  have hread : ∀ m : Arena cap, (m.relabel r o).prev = (m o).prev ∧
    (m.relabel r o).next = (m o).next ∧
      (m.relabel r o).remaining = (m o).remaining := fun _ => ⟨rfl, rfl, rfl⟩
  unfold remove
  rw [(hread m).1]
  cases (m o).prev with
  | none =>
    simp only [(hread _).1, (hread _).2.1]
    cases (m o).next with
    | none => simp only [hunlink, hread]
    | some n => simp only [hprev, hunlink, hread]
  | some p =>
    simp only [(hread _).1, (hread _).2.1, hnext]
    cases ((m.modify p fun x => { x with next := (m o).next }) o).next with
    | none => simp only [hunlink, hread]
    | some n => simp only [hprev, hunlink, hread]

end PriceLevel

namespace OrderBook

/-- A book with its orders relabeled. -/
def relabel (b : OrderBook cap) (r : Relabel cap) : OrderBook cap :=
  b.setArena (b.pool.arena.relabel r)

variable (b : OrderBook cap) (r : Relabel cap) (s : BookSide) (i : Fin priceLevels) (a o : Fin cap)

@[simp] theorem order_relabel : (b.relabel r).order o = r.order o (b.order o) := rfl

@[simp] theorem levels_relabel : (b.relabel r).levels = b.levels := rfl

@[simp] theorem best_relabel : (b.relabel r).best = b.best := rfl

@[simp] theorem bits_relabel : (b.relabel r).bits = b.bits := rfl

@[simp] theorem isFilled_relabel : ((b.relabel r).order o).isFilled = (b.order o).isFilled := rfl

theorem writeOrder_relabel (f : Order cap → Order cap)
    (h : ∀ x, r.order o (f x) = f (r.order o x)) :
    (b.relabel r).writeOrder o f = (b.writeOrder o f).relabel r := by
  show b.setArena ((b.pool.arena.relabel r).modify o f) =
    b.setArena ((b.pool.arena.modify o f).relabel r)
  rw [Arena.relabel_modify _ _ _ _ h]

theorem release_relabel :
    ((b.relabel r).unreg o).deallocate o = ((b.unreg o).deallocate o).relabel r := by
  unfold deallocate OrderPool.deallocate unreg relabel setArena
  simp only
  rw [Arena.relabel_modify]
  · rfl
  · exact fun _ => rfl

theorem pushLevel_relabel : (b.relabel r).pushLevel s i o = (b.pushLevel s i o).relabel r := by
  unfold pushLevel
  rw [show (b.relabel r).pool.arena = b.pool.arena.relabel r from rfl, levels_relabel,
    PriceLevel.push_relabel]
  rfl

theorem removeLevel_relabel :
    (b.relabel r).removeLevel s i o = (b.removeLevel s i o).relabel r := by
  unfold removeLevel
  rw [show (b.relabel r).pool.arena = b.pool.arena.relabel r from rfl, levels_relabel,
    PriceLevel.remove_relabel]
  rfl

theorem scanBest_relabel : (b.relabel r).scanBest s = (b.scanBest s).map fun b => b.relabel r := by
  cases s with
  | bids =>
    show (b.relabel r).scanBestBid = (b.scanBestBid).map _
    unfold scanBestBid
    rw [bits_relabel]
    cases (b.bits .bids).highest <;> rfl
  | asks =>
    show (b.relabel r).scanBestAsk = (b.scanBestAsk).map _
    unfold scanBestAsk
    rw [bits_relabel]
    cases (b.bits .asks).lowest <;> rfl

theorem clearBit_scanBest_relabel :
    ((b.relabel r).clearBit s i).scanBest s = ((b.clearBit s i).scanBest s).map fun b =>
      b.relabel r :=
  scanBest_relabel (b.clearBit s i) r s

/-- The first half of a trade: both orders are filled. -/
def fillBoth (q : Quantity) : OrderBook cap :=
  (b.writeOrder a fun x => x.fill q).writeOrder o fun x => x.fill q

/-- The second half: the level's total goes down, and the fill is recorded. -/
def recorded (side : Side) (q : Quantity) : OrderBook cap :=
  { b.setLevel s i ((b.levels s i).adjustQty (-q.toInt32)) with
    fills := b.fills ++ [mkFill side (b.order a) (b.order o) q]
    matchCount := b.matchCount + 1 }

theorem tradeWith_eq (side : Side) : b.tradeWith s i a o side =
    (b.fillBoth a o (min (b.order a).remaining (b.order o).remaining)).recorded s i a o side
      (min (b.order a).remaining (b.order o).remaining) := rfl

/-- Filling an order does not change its price. -/
theorem price_fillBoth (p : Fin cap) (q : Quantity) :
    ((b.fillBoth a o q).order p).price = (b.order p).price := by
  show (((b.pool.arena.modify a fun x => x.fill q).modify o fun x => x.fill q) p).price = _
  rw [Arena.modify_apply, Arena.modify_apply]
  split_ifs <;> rfl

/-- The record of a trade shows the price of the resting order and no other label. -/
theorem mkFill_relabel {p : Fin cap} {x y : Order cap} (side : Side) (q : Quantity)
    (hp : r.price p y.price = y.price) :
    mkFill side (r.order a x) (r.order p y) q = mkFill side x y q := by
  have hprice : (r.order p y).price = y.price := hp
  unfold mkFill
  rw [hprice]
  rfl

theorem recorded_relabel (side : Side) (q : Quantity)
    (hp : r.price o (b.order o).price = (b.order o).price) :
    (b.relabel r).recorded s i a o side q = (b.recorded s i a o side q).relabel r := by
  unfold recorded
  rw [order_relabel, order_relabel, mkFill_relabel r a side q hp]
  rfl

theorem fillBoth_relabel (q : Quantity) :
    (b.relabel r).fillBoth a o q = (b.fillBoth a o q).relabel r := by
  have hfill : ∀ (b : OrderBook cap) p, ((b.relabel r).writeOrder p fun x => x.fill q) =
      (b.writeOrder p fun x => x.fill q).relabel r :=
        fun b p => writeOrder_relabel b r p _ fun _ => rfl
  rw [fillBoth, hfill, hfill]
  rfl

theorem tradeWith_relabel (side : Side) (hp : r.price o (b.order o).price = (b.order o).price) :
    (b.relabel r).tradeWith s i a o side = (b.tradeWith s i a o side).relabel r := by
  rw [tradeWith_eq, fillBoth_relabel, recorded_relabel, tradeWith_eq]
  · rfl
  · rw [price_fillBoth]
    exact hp

theorem retire_relabel : (b.relabel r).retire s i o = (b.retire s i o).relabel r := by
  unfold retire
  rw [isFilled_relabel, removeLevel_relabel]
  split_ifs
  · exact release_relabel _ r o
  · rfl

/-- An order written into its slot is relabeled with the rest of the book. -/
theorem held_relabel {m : Arena cap} (rest : List (Fin cap)) (new : Order cap)
    (hm : ∀ p, p ≠ o → m p = r.order p (b.order p)) :
    (b.setArena m).held o rest (r.order o new) = (b.held o rest new).relabel r := by
  have harena : m.modify o (fun _ => r.order o new) =
      (b.pool.arena.modify o fun _ => new).relabel r := by
    funext p
    rw [Arena.relabel, Arena.modify_apply, Arena.modify_apply]
    split_ifs with hp
    · rw [hp]
    · exact hm p hp
  have hid : ((m.modify o fun _ => r.order o new) o).id =
      ((b.pool.arena.modify o fun _ => new) o).id := by
    rw [Arena.modify_self, Arena.modify_self]
    rfl
  unfold held reg writeOrder
  show OrderBook.mk _
    (Function.update b.orderTable (slot ((m.modify o fun _ => r.order o new) o).id) (some o))
    ⟨m.modify o fun _ => r.order o new, rest⟩ _ _ _ _ _ = OrderBook.mk _ _ ⟨_, rest⟩ _ _ _ _ _
  rw [hid, harena]
  rfl

theorem rest_relabel (price : Price) :
    (b.relabel r).rest s price o = (b.rest s price o).map fun b => b.relabel r := by
  unfold rest
  cases levelOf price with
  | none => rfl
  | some i =>
    have hbit :
        (if ((b.relabel r).levels s i).empty then (b.relabel r).setBit s i else b.relabel r) =
          (if (b.levels s i).empty then b.setBit s i else b).relabel r := by
      rw [levels_relabel, apply_ite fun b : OrderBook cap => b.relabel r]
      rfl
    simp only [Option.bind_eq_bind, Option.bind_some, Option.pure_def, Option.map_some]
    rw [hbit, pushLevel_relabel, apply_ite fun b : OrderBook cap => b.relabel r]
    rfl

end OrderBook

end TradeFeed
