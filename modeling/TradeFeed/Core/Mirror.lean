import TradeFeed.Core.Runs
import TradeFeed.Core.Simulation

/-!
# Buyers and sellers are mirror images

The mirror exchanges the sides and turns the prices round: `mirror p` is
`MIN_PRICE + MAX_PRICE - p`, which also exchanges the two prices that stand for an empty side. Every
operation of the book has two branches, one for each side, with comparisons the other way round and
bitset scans from the other end; that they are mirror images is one lemma for each function of the
book, and then a run of mirrored calls on the one book is, step by step, the mirror image of the run
on the other (`mirror_run`).

The mirror image of a book is known but for its bitsets, whose summary words are not turned round
word by word, and for the orders of the pool that are free, which hold what their last users left:
`b.mirror r w` is `b` turned round, with labels `r` and bitsets `w`, and `Reflected` says which
labels and bitsets may stand there.
-/

namespace TradeFeed

open Function (update)
open Lib.Machine (rel_bind rel_map rel_some rel_and)
open OrderBook (badPrice incoming)

variable {cap : ℕ}

/-! ### Prices and sides -/

/-- The price at the same distance from the other end of the range. -/
def mirror (p : Price) : Price := minPrice + maxPrice - p

/-- The other side. -/
def Side.swap (s : Side) : Side := if s = .buy then .sell else .buy

/-- A fill with buyer and seller exchanged. -/
def Fill.mirror (f : Fill) : Fill :=
  ⟨f.askId, f.bidId, f.askClient, f.bidClient, TradeFeed.mirror f.price, f.quantity⟩

/-- The mirror image of a call. -/
def Call.mirror : Call → Call
  | .addOrder id client side type price qty ts => .addOrder id client side.swap type
    (TradeFeed.mirror price) qty ts
  | .cancelOrder id => .cancelOrder id
  | .modifyOrder id newPrice newQty ts => .modifyOrder id (TradeFeed.mirror newPrice) newQty ts
  | .clearFills => .clearFills

theorem mirror_mirror (p : Price) : mirror (mirror p) = p := by
  unfold mirror
  generalize minPrice + maxPrice = a
  simp only [UInt32.sub_eq_add_neg, UInt32.neg_add, UInt32.neg_neg]
  rw [← UInt32.add_assoc, UInt32.add_right_neg, UInt32.zero_add]

theorem mirror_injective : Function.Injective mirror :=
  fun p q h => by rw [← mirror_mirror p, h, mirror_mirror]

theorem mirror_noPrice (s : BookSide) : mirror s.noPrice = s.opposite.noPrice := by
  unfold mirror
  cases s <;> rfl

/-- Up to `MAX_PRICE + 1` nothing wraps. -/
theorem mirror_toNat {p : Price} (h : p ≤ maxPrice + 1) : (mirror p).toNat = 1000001 - p.toNat := by
  unfold mirror
  exact UInt32.toNat_sub_of_le _ _ h

theorem mirror_le {p q : Price} (hp : p ≤ maxPrice + 1) (hq : q ≤ maxPrice + 1) :
    mirror p ≤ mirror q ↔ q ≤ p := by
  have hp' : p.toNat ≤ 1000001 := UInt32.le_iff_toNat_le.mp hp
  have hq' : q.toNat ≤ 1000001 := UInt32.le_iff_toNat_le.mp hq
  rw [UInt32.le_iff_toNat_le, UInt32.le_iff_toNat_le, mirror_toNat hp, mirror_toNat hq]
  omega

theorem mirror_lt {p q : Price} (hp : p ≤ maxPrice + 1) (hq : q ≤ maxPrice + 1) :
    mirror p < mirror q ↔ q < p := by
  rw [← UInt32.not_le, mirror_le hq hp, UInt32.not_le]

theorem priceAt_le (i : Fin priceLevels) : priceAt i ≤ maxPrice + 1 := by
  have hlt : i.val < 1000000 := i.isLt
  rw [UInt32.le_iff_toNat_le, priceAt_toNat]
  show i.val + 1 ≤ 1000001
  omega

theorem priceAt_rev (i : Fin priceLevels) : priceAt i.rev = mirror (priceAt i) := by
  have hlt : i.val < 1000000 := i.isLt
  have hn : priceLevels = 1000000 := priceLevels_eq
  apply UInt32.toNat_inj.mp
  rw [mirror_toNat (priceAt_le i), priceAt_toNat, priceAt_toNat, Fin.val_rev]
  omega

/-- The level of a mirrored price. -/
theorem levelOf_mirror (p : Price) : levelOf (mirror p) = (levelOf p).map Fin.rev := by
  cases h : levelOf p with
  | some i =>
    rw [levelOf_eq_some.mp h, ← priceAt_rev, levelOf_priceAt]
    rfl
  | none =>
    cases h' : levelOf (mirror p) with
    | none => rfl
    | some j =>
      have hp : p = priceAt j.rev := by rw [priceAt_rev, ← levelOf_eq_some.mp h', mirror_mirror]
      rw [levelOf_eq_some.mpr hp] at h
      cases h

theorem BookSide.opposite_opposite (s : BookSide) : s.opposite.opposite = s := by cases s <;> rfl

theorem swap_book (side : Side) : side.swap.book = side.book.opposite := by
  by_cases h : side = .buy
  · rw [h]
    rfl
  · simp [Side.swap, Side.book, h, BookSide.opposite]

theorem swap_eq_buy (side : Side) : side.swap = .buy ↔ side ≠ .buy := by
  by_cases h : side = .buy
  · simp [Side.swap, h]
    decide
  · simp [Side.swap, h]

/-- The labels of the orders in the mirror. -/
def mirrored : Relabel cap := ⟨fun _ => mirror, fun _ => Side.swap, fun _ t => t, fun _ t => t⟩

/-! ### Turning a book round -/

namespace OrderBook

/-- A book turned round: the levels of the other side from the other end, the orders relabeled,
the best prices and the fills changed, and the bitsets replaced. -/
def turn (r : Relabel cap) (μ : Price → Price) (φ : Fill → Fill) (b : OrderBook cap)
    (w : BookSide → PriceBitset) : OrderBook cap where
  levels s i := b.levels s.opposite i.rev
  orderTable := b.orderTable
  pool := { b.pool with arena := b.pool.arena.relabel r }
  bits := w
  best s := μ (b.best s.opposite)
  matchCount := b.matchCount
  fills := b.fills.map φ
  scanCalls := b.scanCalls

section Turn

variable (r : Relabel cap) (μ : Price → Price) (φ : Fill → Fill) (b : OrderBook cap)
  (w : BookSide → PriceBitset)
  (s : BookSide) (i : Fin priceLevels) (a o : Fin cap)

@[simp] theorem order_turn : (turn r μ φ b w).order o = r.order o (b.order o) := rfl

@[simp] theorem isFilled_turn : ((turn r μ φ b w).order o).isFilled = (b.order o).isFilled := rfl

@[simp] theorem freeList_turn : (turn r μ φ b w).pool.freeList = b.pool.freeList := rfl

@[simp] theorem lookup_turn (id : OrderId) : (turn r μ φ b w).lookup id = b.lookup id := rfl

@[simp] theorem levels_turn : (turn r μ φ b w).levels s.opposite i.rev = b.levels s i := by
  show b.levels s.opposite.opposite i.rev.rev = _
  rw [s.opposite_opposite, Fin.rev_rev]

@[simp] theorem best_turn : (turn r μ φ b w).best s.opposite = μ (b.best s) := by
  show μ (b.best s.opposite.opposite) = _
  rw [s.opposite_opposite]

/-- A place turned round is another exactly when that one turned round is it. -/
theorem place_turn (s s' : BookSide) (i i' : Fin priceLevels) :
    (s'.opposite = s ∧ i'.rev = i) ↔ s' = s.opposite ∧ i' = i.rev := by
  constructor
  · rintro ⟨rfl, rfl⟩
    exact ⟨s'.opposite_opposite.symm, i'.rev_rev.symm⟩
  · rintro ⟨rfl, rfl⟩
    exact ⟨s.opposite_opposite, i.rev_rev⟩

theorem setLevel_turn (l : PriceLevel cap) :
    (turn r μ φ b w).setLevel s.opposite i.rev l = turn r μ φ (b.setLevel s i l) w := by
  have hl : ((turn r μ φ b w).setLevel s.opposite i.rev l).levels =
      (turn r μ φ (b.setLevel s i l) w).levels := by
    funext s' i'
    show _ = (b.setLevel s i l).levels s'.opposite i'.rev
    rw [setLevel_levels, setLevel_levels]
    simp only [place_turn]
    rfl
  exact congrArg (fun f => ({ turn r μ φ b w with levels := f } : OrderBook cap)) hl

theorem setArena_turn (m : Arena cap) :
    (turn r μ φ b w).setArena (m.relabel r) = turn r μ φ (b.setArena m) w := rfl

theorem pushLevel_turn :
    (turn r μ φ b w).pushLevel s.opposite i.rev o = turn r μ φ (b.pushLevel s i o) w := by
  unfold pushLevel
  rw [levels_turn, show (turn r μ φ b w).pool.arena = b.pool.arena.relabel r from rfl,
    PriceLevel.push_relabel, setArena_turn, setLevel_turn]

theorem removeLevel_turn :
    (turn r μ φ b w).removeLevel s.opposite i.rev o = turn r μ φ (b.removeLevel s i o) w := by
  unfold removeLevel
  rw [levels_turn, show (turn r μ φ b w).pool.arena = b.pool.arena.relabel r from rfl,
    PriceLevel.remove_relabel, setArena_turn, setLevel_turn]

theorem release_turn :
    ((turn r μ φ b w).unreg o).deallocate o = turn r μ φ ((b.unreg o).deallocate o) w :=
  congrArg (fun b' : OrderBook cap =>
    { turn r μ φ b w with orderTable := b'.orderTable, pool := b'.pool })
    (release_relabel b r o)

/-- An order written into its slot, with the labels `r'`. -/
theorem held_turn (r' : Relabel cap) (rest : List (Fin cap)) (new : Order cap) :
    (turn r μ φ b w).held o rest (r'.order o new) =
      turn (r.set o r') μ φ (b.held o rest new) w := by
  have hnew : r'.order o new = (r.set o r').order o new := by rw [Relabel.set_self]
  have hm : ∀ p, p ≠ o →
      b.pool.arena.relabel r p = (r.set o r').order p (b.order p) := fun p hp => by
    rw [Relabel.set_of_ne r r' hp]
    rfl
  rw [hnew]
  exact congrArg (fun b' : OrderBook cap =>
    { turn r μ φ b w with orderTable := b'.orderTable, pool := b'.pool })
    (held_relabel b (r.set o r') o rest new hm)

theorem setBest_turn (p : Price) :
    (turn r μ φ b w).setBest s.opposite (μ p) = turn r μ φ (b.setBest s p) w := by
  have hb : ((turn r μ φ b w).setBest s.opposite (μ p)).best =
      (turn r μ φ (b.setBest s p) w).best := by
    funext s'
    show update (turn r μ φ b w).best s.opposite (μ p) s' = μ (update b.best s p s'.opposite)
    cases s <;> cases s' <;> rfl
  exact congrArg (fun f => ({ turn r μ φ b w with best := f } : OrderBook cap)) hb

theorem setBit_turn : (turn r μ φ b w).setBit s.opposite i.rev =
    turn r μ φ (b.setBit s i) (update w s.opposite ((w s.opposite).set i.rev)) := rfl

theorem clearBit_turn : (turn r μ φ b w).clearBit s.opposite i.rev =
    turn r μ φ (b.clearBit s i) (update w s.opposite ((w s.opposite).clear i.rev)) := rfl

theorem fillBoth_turn (q : Quantity) :
    (turn r μ φ b w).fillBoth a o q = turn r μ φ (b.fillBoth a o q) w :=
  congrArg (fun b' : OrderBook cap =>
    { turn r μ φ b w with orderTable := b'.orderTable, pool := b'.pool })
    (fillBoth_relabel b r a o q)

/-- A trade turned round, when its record is. -/
theorem tradeWith_turn {side side' : Side} (hfill : ∀ (x y : Order cap) q,
    mkFill side' (r.order a x) (r.order o y) q = φ (mkFill side x y q)) :
    (turn r μ φ b w).tradeWith s.opposite i.rev a o side' =
      turn r μ φ (b.tradeWith s i a o side) w := by
  have hrecord : ∀ (b : OrderBook cap) q,
      (turn r μ φ b w).recorded s.opposite i.rev a o side' q =
        turn r μ φ (b.recorded s i a o side q) w := by
    intro b q
    unfold recorded
    rw [levels_turn, setLevel_turn, order_turn, order_turn, hfill,
      show (turn r μ φ b w).fills = b.fills.map φ from rfl, ← List.map_singleton, ← List.map_append]
    rfl
  rw [tradeWith_eq, fillBoth_turn, hrecord, tradeWith_eq]
  rfl

theorem retire_turn :
    (turn r μ φ b w).retire s.opposite i.rev o = turn r μ φ (b.retire s i o) w := by
  unfold retire
  rw [isFilled_turn, removeLevel_turn]
  split_ifs
  · exact release_turn r μ φ _ w o
  · rfl

theorem queue_turn : (turn r μ φ b w).queue s.opposite i.rev = b.queue s i := by
  unfold queue
  rw [levels_turn]
  rfl

end Turn

/-- The mirror image of a book, with labels `r` and bitsets `w`. -/
abbrev mirror (b : OrderBook cap) (r : Relabel cap) (w : BookSide → PriceBitset) : OrderBook cap :=
  turn r TradeFeed.mirror Fill.mirror b w

end OrderBook

/-! ### The mirror image -/

/-- Book `b` has a mirror image with labels `r` and bitsets `w`. -/
structure Reflected (b : OrderBook cap) (r : Relabel cap) (w : BookSide → PriceBitset) : Prop where
  /-- The tiers of the book's bitsets agree. -/
  tiers : ∀ s, (b.bits s).Tiers
  /-- So do those of the others. -/
  tiers' : ∀ s, (w s).Tiers
  /-- They stand for the levels turned round. -/
  occupied : ∀ s (i : Fin priceLevels), i.rev.val ∈ (w s.opposite).occupied ↔
    i.val ∈ (b.bits s).occupied
  /-- The best prices are in the range, or stand for an empty side. -/
  range : ∀ s, b.best s ≤ maxPrice + 1
  /-- The labels of the orders in use are mirrored; those of free orders are overwritten before they
  are read. -/
  labels : ∀ p, p ∉ b.pool.freeList → r.order p = mirrored.order p

/-- The second book is the mirror image of the first. -/
def Mirrored (b b' : OrderBook cap) : Prop := ∃ r w, Reflected b r w ∧ b' = b.mirror r w

section Reflected

variable {b b₁ : OrderBook cap} {r : Relabel cap} {w : BookSide → PriceBitset}

theorem Reflected.image (h : Reflected b r w) : Mirrored b (b.mirror r w) := ⟨r, w, h, rfl⟩

theorem Reflected.congr (h : Reflected b r w) (hbits : b₁.bits = b.bits) (hbest : b₁.best = b.best)
    (hfree : ∀ p, p ∉ b₁.pool.freeList → p ∉ b.pool.freeList) : Reflected b₁ r w :=
  ⟨hbits ▸ h.tiers, h.tiers', hbits ▸ h.occupied, hbest ▸ h.range,
    fun p hp => h.labels p (hfree p hp)⟩

/-- A bit is changed on the one side, and its mirror image on the other. -/
theorem Reflected.update (h : Reflected b r w) (s : BookSide) {x x' : PriceBitset} (hx : x.Tiers)
    (hx' : x'.Tiers) (ho : ∀ i : Fin priceLevels, i.rev.val ∈ x'.occupied ↔ i.val ∈ x.occupied) :
    Reflected { b with bits := update b.bits s x } r (update w s.opposite x') := by
  refine ⟨fun s' => ?_, fun s' => ?_, fun s' i => ?_, h.range, h.labels⟩
  · by_cases hs : s' = s
    · subst hs
      simpa using hx
    · simpa [hs] using h.tiers s'
  · by_cases hs : s' = s.opposite
    · subst hs
      simpa using hx'
    · simpa [hs] using h.tiers' s'
  · by_cases hs : s' = s
    · subst hs
      simpa using ho i
    · have hne : s'.opposite ≠ s.opposite :=
        fun e => hs (by rw [← s'.opposite_opposite, e, s.opposite_opposite])
      simpa [hs, hne] using h.occupied s' i

theorem Reflected.clearBit (h : Reflected b r w) (s : BookSide) (i : Fin priceLevels) :
    Reflected (b.clearBit s i) r (Function.update w s.opposite ((w s.opposite).clear i.rev)) := by
  apply h.update s (PriceBitset.clear_tiers (h.tiers s) i)
    (PriceBitset.clear_tiers (h.tiers' _) i.rev)
  intro j
  rw [PriceBitset.clear_occupied, PriceBitset.clear_occupied, Set.mem_sdiff, Set.mem_sdiff,
    h.occupied s j, Set.mem_singleton_iff, Set.mem_singleton_iff, Fin.val_inj, Fin.val_inj,
    Fin.rev_inj]

theorem Reflected.setBit (h : Reflected b r w) (s : BookSide) (i : Fin priceLevels) :
    Reflected (b.setBit s i) r (Function.update w s.opposite ((w s.opposite).set i.rev)) := by
  apply h.update s (PriceBitset.set_tiers (h.tiers s) i) (PriceBitset.set_tiers (h.tiers' _) i.rev)
  intro j
  rw [PriceBitset.set_occupied, PriceBitset.set_occupied, Set.mem_insert_iff, Set.mem_insert_iff,
    h.occupied s j, Fin.val_inj, Fin.val_inj, Fin.rev_inj]

/-- **The scans are mirror images**: where the one finds its highest level, the other finds the
lowest of its own, turned round. -/
theorem highest_lowest {x x' : PriceBitset} (hx : x.Tiers) (hx' : x'.Tiers)
    (ho : ∀ i : Fin priceLevels, i.rev.val ∈ x'.occupied ↔ i.val ∈ x.occupied) :
    (x.highest = some none ∧ x'.lowest = some none) ∨
      ∃ i : Fin priceLevels, x.highest = some (some i.val) ∧ x'.lowest = some (some i.rev.val) := by
  have hn : priceLevels = 1000000 := priceLevels_eq
  rcases PriceBitset.highest_spec hx with ⟨hscan, hempty⟩ | ⟨k, hscan, hk, hmax⟩
  · rcases PriceBitset.lowest_spec hx' with ⟨hscan', -⟩ | ⟨k', -, hk', -⟩
    · exact Or.inl ⟨hscan, hscan'⟩
    · have hmem := (ho (Fin.rev ⟨k', PriceBitset.lt_of_mem_occupied hk'⟩)).mp (by rwa [Fin.rev_rev])
      rw [hempty] at hmem
      exact absurd hmem (Set.notMem_empty _)
  · have hlt : k < priceLevels := PriceBitset.lt_of_mem_occupied hk
    have hrev := (ho ⟨k, hlt⟩).mpr hk
    rcases PriceBitset.lowest_spec hx' with ⟨-, hempty⟩ | ⟨k', hscan', hk', hmin⟩
    · rw [hempty] at hrev
      exact absurd hrev (Set.notMem_empty _)
    · -- the two levels are at the same distance from the ends
      have hlt' : k' < priceLevels := PriceBitset.lt_of_mem_occupied hk'
      have hle := hmin hrev
      have hmem := (ho (Fin.rev ⟨k', hlt'⟩)).mp (by rwa [Fin.rev_rev])
      have hge := hmax hmem
      rw [Fin.val_rev] at hle hge
      have hk : k' = (Fin.rev ⟨k, hlt⟩).val := by
        rw [Fin.val_rev]
        simp only at hle hge ⊢
        omega
      exact Or.inr ⟨⟨k, hlt⟩, hscan, hk ▸ hscan'⟩

/-- A new best price, and its mirror image on the other side. -/
theorem Reflected.setBest (h : Reflected b r w) (s : BookSide) {p : Price} (hp : p ≤ maxPrice + 1) :
    Reflected (b.setBest s p) r w := by
  refine ⟨h.tiers, h.tiers', h.occupied, fun s' => ?_, h.labels⟩
  by_cases hs : s' = s
  · subst hs
    simpa [OrderBook.setBest] using hp
  · simpa [OrderBook.setBest, hs] using h.range s'

/-- `scan_best_bid` and `scan_best_ask` are mirror images. -/
theorem Reflected.scanBest (h : Reflected b r w) (s : BookSide) :
    Option.Rel Mirrored (b.scanBest s) ((b.mirror r w).scanBest s.opposite) := by
  have hbest : ∀ p, p ≤ maxPrice + 1 →
    Mirrored ({ b with scanCalls := b.scanCalls + 1 }.setBest s p)
      ({ b.mirror r w with scanCalls := b.scanCalls + 1 }.setBest s.opposite (mirror p)) :=
        fun p hp => by
    have h₁ : Reflected { b with scanCalls := b.scanCalls + 1 } r w :=
      h.congr rfl rfl fun _ hp => hp
    exact ⟨r, w, h₁.setBest s hp,
      OrderBook.setBest_turn r mirror Fill.mirror { b with scanCalls := b.scanCalls + 1 } w s p⟩
  have hnone : Mirrored ({ b with scanCalls := b.scanCalls + 1 }.setBest s s.noPrice)
      ({ b.mirror r w with scanCalls := b.scanCalls + 1 }.setBest s.opposite
        s.opposite.noPrice) := by
    rw [← mirror_noPrice]
    exact hbest _ (by cases s <;> decide)
  have hsome : ∀ i, Mirrored ({ b with scanCalls := b.scanCalls + 1 }.setBest s (priceAt i))
      ({ b.mirror r w with scanCalls := b.scanCalls + 1 }.setBest s.opposite (priceAt i.rev)) :=
        fun i => by
    rw [priceAt_rev]
    exact hbest _ (priceAt_le i)
  have hbits : (b.mirror r w).bits = w := rfl
  cases s with
  | bids =>
    show Option.Rel Mirrored b.scanBestBid (b.mirror r w).scanBestAsk
    unfold OrderBook.scanBestBid OrderBook.scanBestAsk
    rw [hbits]
    rcases highest_lowest (h.tiers .bids) (h.tiers' .asks) (h.occupied .bids) with ⟨h₁,
      h₂⟩ | ⟨i, h₁, h₂⟩
    · rw [h₁, h₂]
      exact .some hnone
    · rw [h₁, h₂]
      exact .some (hsome i)
  | asks =>
    show Option.Rel Mirrored b.scanBestAsk (b.mirror r w).scanBestBid
    unfold OrderBook.scanBestBid OrderBook.scanBestAsk
    rw [hbits]
    have ho : ∀ i : Fin priceLevels, i.rev.val ∈ (b.bits .asks).occupied ↔
        i.val ∈ (w .bids).occupied := fun i => by
      have hi := h.occupied .asks i.rev
      rw [Fin.rev_rev] at hi
      exact hi.symm
    rcases highest_lowest (h.tiers' .bids) (h.tiers .asks) ho with ⟨h₁, h₂⟩ | ⟨i, h₁, h₂⟩
    · rw [h₁, h₂]
      exact .some hnone
    · rw [h₁, h₂]
      have hi := hsome i.rev
      rw [Fin.rev_rev] at hi
      exact .some hi

end Reflected

/-! ### Matching -/

section Matching

variable {b b' : OrderBook cap} {s : BookSide}

/-- The record of a trade in the mirror. -/
theorem mkFill_mirror {side side' : Side} (hs : side' = .buy ↔ side ≠ .buy) (a o : Fin cap)
    (x y : Order cap) (q : Quantity) :
    OrderBook.mkFill side' (mirrored.order a x) (mirrored.order o y) q =
      (OrderBook.mkFill side x y q).mirror := by
  by_cases h : side = .buy
  · rw [OrderBook.mkFill, OrderBook.mkFill, if_pos h, if_neg fun e => hs.mp e h]
    rfl
  · rw [OrderBook.mkFill, OrderBook.mkFill, if_neg h, if_pos (hs.mpr h)]
    rfl

/-- Freeing the filled order grows the pool, and leaves bitsets and best prices alone. -/
theorem Reflected.retire {r : Relabel cap} {w : BookSide → PriceBitset} (h : Reflected b r w)
    (i : Fin priceLevels) (p : Fin cap) :
    Reflected (b.retire s i p) r w := by
  unfold OrderBook.retire
  split_ifs
  · exact h.congr rfl rfl fun p hp hm => hp (List.mem_cons_of_mem _ hm)
  · exact h.congr rfl rfl fun p hp => hp

/-- **Matching in the mirror**: round by round it is matching. -/
theorem alike_mirror (a : Fin cap) (s : BookSide) {side side' : Side}
    (hs : side' = .buy ↔ side ≠ .buy) {accept accept' : Price → Bool}
    (ha : ∀ p, p ≤ maxPrice + 1 → accept' (mirror p) = accept p) :
    Alike (fun b b' => Matching a b ∧ Mirrored b b') a s s.opposite side side' accept accept'
      Fin.rev where
  filled := by
    rintro b b' ⟨-, r, w, -, rfl⟩
    exact OrderBook.isFilled_turn ..
  accept := by
    rintro b b' ⟨-, r, w, h, rfl⟩
    rw [OrderBook.best_turn]
    exact ha _ (h.range s)
  level := by
    rintro b b' ⟨-, r, w, -, rfl⟩
    rw [OrderBook.best_turn, levelOf_mirror]
  empty := by
    rintro b b' ⟨-, r, w, -, rfl⟩ i
    rw [OrderBook.levels_turn]
  front := by
    rintro b b' ⟨-, r, w, -, rfl⟩ i
    rw [OrderBook.levels_turn]
  round := by
    rintro b b' i p ⟨hm, r, w, h, rfl⟩ hp - -
    -- the two orders that trade are in use, so that their labels are mirrored
    obtain ⟨hfree, hfree'⟩ := hm.not_free hp
    have hfill : ∀ (x y : Order cap) q,
        OrderBook.mkFill side' (r.order a x) (r.order p y) q =
          (OrderBook.mkFill side x y q).mirror := fun x y q => by
      rw [h.labels a hfree', h.labels p hfree]
      exact mkFill_mirror hs a p x y q
    refine ⟨hm.round hp side, r, w, ?_, ?_⟩
    · have htrade : Reflected (b.tradeWith s i a p side) r w := h.congr rfl rfl fun _ hp => hp
      exact htrade.retire i p
    · rw [OrderBook.tradeWith_turn r mirror Fill.mirror b w s i a p hfill, OrderBook.retire_turn]
  scan := by
    rintro b b' i ⟨hm, r, w, h, rfl⟩ -
    rw [OrderBook.clearBit_turn]
    exact rel_and ((h.clearBit s i).scanBest s) fun b₁ hs => hm.scan hs

/-- The prices that an order accepts, in the mirror. -/
theorem accepts_mirror (side : Side) {type : OrderType} {price best : Price}
    (hb : best ≤ maxPrice + 1) (hp : type = .market ∨ price ≤ maxPrice + 1) :
    accepts side.swap type (mirror price) (mirror best) = accepts side type price best := by
  have hb' : best.toNat ≤ 1000001 := UInt32.le_iff_toNat_le.mp hb
  have hinvalid : mirror best ≠ invalidPrice ↔ best ≤ maxPrice := by
    rw [Ne, ← UInt32.toNat_inj, mirror_toNat hb, UInt32.le_iff_toNat_le]
    show ¬ 1000001 - best.toNat = 0 ↔ best.toNat ≤ 1000000
    omega
  have hmax : mirror best ≤ maxPrice ↔ best ≠ invalidPrice := by
    rw [Ne, ← UInt32.toNat_inj, UInt32.le_iff_toNat_le, mirror_toNat hb]
    show 1000001 - best.toNat ≤ 1000000 ↔ ¬ best.toNat = 0
    omega
  have hle : type = .market ∨ (mirror price ≤ mirror best ↔ best ≤ price) :=
    hp.imp id fun h => mirror_le h hb
  have hge : type = .market ∨ (mirror best ≤ mirror price ↔ price ≤ best) :=
    hp.imp id fun h => mirror_le hb h
  by_cases h : side = .buy
  · have hswap : side.swap ≠ .buy := fun e => (swap_eq_buy side).mp e h
    rw [accepts, accepts, if_neg hswap, if_pos h]
    rcases hle with hm | hle
    · simp only [hm, decide_true, Bool.true_or, hinvalid]
    · simp only [ge_iff_le, hle, hinvalid]
  · have hswap : side.swap = .buy := (swap_eq_buy side).mpr h
    rw [accepts, accepts, if_pos hswap, if_neg h]
    rcases hge with hm | hge
    · simp only [hm, decide_true, Bool.true_or, hmax]
    · simp only [ge_iff_le, hge, hmax]

/-- A price that improves on the best one does so in the mirror. -/
theorem improves_mirror (s : BookSide) {price best : Price} (hp : price ≤ maxPrice + 1)
    (hb : best ≤ maxPrice + 1) :
    OrderBook.improves s.opposite (mirror price) (mirror best) =
      OrderBook.improves s price best := by
  have hlt : mirror price < mirror best ↔ best < price := mirror_lt hp hb
  have hgt : mirror best < mirror price ↔ price < best := mirror_lt hb hp
  cases s
  · simp only [OrderBook.improves, BookSide.opposite, gt_iff_lt, hlt]
  · simp only [OrderBook.improves, BookSide.opposite, gt_iff_lt, hgt]

end Matching

/-! ### The operations -/

/-- The second outcome is the mirror image of the first, and the answers are the same. -/
def MirroredOutcome {α : Type} (x x' : OrderBook cap × α) : Prop := Mirrored x.1 x'.1 ∧ x'.2 = x.2

section Operations

variable {b b' : OrderBook cap} {r : Relabel cap} {w : BookSide → PriceBitset} {Q : Queues cap}
  {o : Fin cap}

/-- Linking what is left of an order. -/
theorem Reflected.rest (h : Reflected b r w) (s : BookSide) {price : Price}
    (hp : price ≤ maxPrice + 1) (o : Fin cap) :
    Option.Rel Mirrored (b.rest s price o) ((b.mirror r w).rest s.opposite (mirror price) o) := by
  unfold OrderBook.rest
  rw [levelOf_mirror]
  cases levelOf price with
  | none => exact .none
  | some i =>
    simp only [Option.map_some, Option.bind_eq_bind, Option.bind_some, Option.pure_def,
      OrderBook.levels_turn]
    refine .some ?_
    -- the bit is set, on an empty level
    have hbit : ∃ w₁, Reflected (if (b.levels s i).empty then b.setBit s i else b) r w₁ ∧
        (if (b.levels s i).empty then (b.mirror r w).setBit s.opposite i.rev else b.mirror r w) =
          (if (b.levels s i).empty then b.setBit s i else b).mirror r w₁ := by
      split_ifs
      · exact ⟨_, h.setBit s i, OrderBook.setBit_turn ..⟩
      · exact ⟨w, h, rfl⟩
    obtain ⟨w₁, h₁, he⟩ := hbit
    rw [he, OrderBook.pushLevel_turn, OrderBook.best_turn]
    set b₁ := (if (b.levels s i).empty then b.setBit s i else b).pushLevel s i o
    have h₂ : Reflected b₁ r w₁ := h₁.congr rfl rfl fun _ hp => hp
    rw [improves_mirror s hp (h₂.range s)]
    split_ifs
    · rw [OrderBook.setBest_turn]
      exact (h₂.setBest s hp).image
    · exact h₂.image

/-- A price is refused in the mirror when it is refused. -/
theorem badPrice_mirror (type : OrderType) (price : Price) :
    badPrice type (mirror price) = badPrice type price := by
  by_cases ht : type = .limit
  · have hlevel : ∀ p, badPrice .limit p = false ↔ ∃ i, levelOf p = some i := fun p => by
      rw [badPrice_limit]
      constructor
      · rintro ⟨hmin, hmax⟩
        obtain ⟨i, rfl⟩ := exists_level hmin hmax
        exact ⟨i, levelOf_priceAt i⟩
      · rintro ⟨i, hi⟩
        have hlt : i.val < 1000000 := i.isLt
        rw [levelOf_eq_some.mp hi, UInt32.le_iff_toNat_le, UInt32.le_iff_toNat_le, priceAt_toNat]
        show 1 ≤ i.val + 1 ∧ i.val + 1 ≤ 1000000
        omega
    have hiff : badPrice .limit (mirror price) = false ↔ badPrice .limit price = false := by
      rw [hlevel, hlevel, levelOf_mirror]
      cases levelOf price <;> simp
    rw [ht]
    revert hiff
    cases badPrice .limit (mirror price) <;> cases badPrice .limit price <;> simp
  · simp [badPrice, ht]

/-- Freeing an order. -/
theorem Reflected.release (h : Reflected b r w) (o : Fin cap) :
    Mirrored ((b.unreg o).deallocate o) (((b.mirror r w).unreg o).deallocate o) :=
  ⟨r, w, h.congr rfl rfl fun _ hp hm => hp (List.mem_cons_of_mem _ hm), OrderBook.release_turn ..⟩

/-- The end of `add_order`. -/
theorem Reflected.settle (h : Reflected b r w) (side : Side) {type : OrderType} {price : Price}
    (hbad : badPrice type price = false) (o : Fin cap) :
    Option.Rel MirroredOutcome (b.settle side type price o)
      ((b.mirror r w).settle side.swap type (mirror price) o) := by
  unfold OrderBook.settle
  rw [OrderBook.isFilled_turn, swap_book]
  split_ifs with hc
  · rw [Bool.and_eq_true, decide_eq_true_eq] at hc
    rw [hc.2, badPrice_limit] at hbad
    have hp : price ≤ maxPrice + 1 := UInt32.le_trans hbad.2 (by decide)
    exact rel_map (h.rest side.book hp o) fun _ _ hm => ⟨hm, rfl⟩
  · exact .some ⟨h.release o, rfl⟩

/-- `match_limit` and `match_market`. -/
theorem Reflected.matched (h : Reflected b r w) (hm : Matching o b) {side : Side} {type : OrderType}
    {price : Price} (hs : (b.order o).side = side) (hp : (b.order o).price = price)
    (hprice : type = .market ∨ price ≤ maxPrice + 1) :
    Option.Rel (fun b b' => Matching o b ∧ Mirrored b b') (if type = .market then b.matchMarket o
      else b.matchLimit o)
      (if type = .market then (b.mirror r w).matchMarket o else (b.mirror r w).matchLimit o) := by
  have hfree : o ∉ b.pool.freeList := by
    obtain ⟨Q, hc, -, -⟩ := hm
    exact hc.not_free_of_held (by simp)
  have hlabel : (b.mirror r w).order o = mirrored.order o (b.order o) := by
    rw [OrderBook.order_turn, h.labels o hfree]
  have hs' : ((b.mirror r w).order o).side = side.swap := by
    rw [hlabel, ← hs]
    rfl
  have hp' : ((b.mirror r w).order o).price = mirror price := by
    rw [hlabel, ← hp]
    rfl
  have hside : (if side.swap = .buy then Side.buy else .sell) = .buy ↔
      (if side = .buy then Side.buy else .sell) ≠ .buy := by
    have hne : Side.sell ≠ .buy := by decide
    by_cases hb : side = .buy
    · have hswap : side.swap ≠ .buy := fun e => (swap_eq_buy side).mp e hb
      rw [if_neg hswap, if_pos hb]
      simp [hne]
    · have hswap : side.swap = .buy := (swap_eq_buy side).mpr hb
      rw [if_pos hswap, if_neg hb]
      simp [hne]
  rw [match_eq b hs hp type, match_eq (b.mirror r w) hs' hp' type, swap_book]
  exact (alike_mirror o side.book.opposite hside fun best hb =>
    accepts_mirror side hb hprice).matchWhile (cap + 1)
    ⟨hm, h.image⟩

/-- An order written into its slot gets mirrored labels, whatever was there. -/
theorem Reflected.held {rest : List (Fin cap)} (h : Reflected b r w)
    (hf : b.pool.freeList = o :: rest) (new : Order cap) :
    Reflected (b.held o rest new) (r.set o mirrored) w := by
  refine ⟨h.tiers, h.tiers', h.occupied, h.range, fun p hp => ?_⟩
  by_cases hpo : p = o
  · rw [hpo, Relabel.set_self]
  · rw [Relabel.set_of_ne r mirrored hpo]
    apply h.labels
    rw [hf, List.mem_cons, not_or]
    exact ⟨hpo, hp⟩

/-- **`add_order` in the mirror.** -/
theorem Reflected.addOrder (h : Reflected b r w) (hi : Inv b Q) (id : OrderId) (client : ClientId)
    (side : Side) {type : OrderType} (ht : type = .limit ∨ type = .market) (price : Price)
    (qty : Quantity) (ts : Timestamp) :
    Option.Rel MirroredOutcome (b.addOrder id client side type price qty ts)
      ((b.mirror r w).addOrder id client side.swap type (mirror price) qty ts) := by
  by_cases hr : b.pool.available = 0 ∨ badPrice type price = true
  · have hr' : (b.mirror r w).pool.available = 0 ∨ badPrice type (mirror price) = true := by
      rw [badPrice_mirror, OrderPool.available, OrderBook.freeList_turn]
      exact hr
    rw [OrderBook.addOrder_refused _ _ _ _ _ _ _ _ hr,
      OrderBook.addOrder_refused (b.mirror r w) _ _ _ _ _ _ _ hr']
    exact .some ⟨h.image, rfl⟩
  rw [not_or, Bool.not_eq_true] at hr
  obtain ⟨o, rest, hf⟩ := List.exists_cons_of_ne_nil fun he => hr.1 (List.length_eq_zero_iff.mpr he)
  have hf' : (b.mirror r w).pool.freeList = o :: rest := (OrderBook.freeList_turn ..).trans hf
  have hprice : type = .market ∨ price ≤ maxPrice + 1 := by
    apply ht.symm.imp_right
    intro hl
    have hbad := hr.2
    rw [hl, badPrice_limit] at hbad
    exact UInt32.le_trans hbad.2 (by decide)
  set new : Order cap := incoming id client side type price qty ts with hnew
  have hheld : (b.mirror r w).held o rest
    (incoming id client side.swap type (mirror price) qty ts) =
      (b.held o rest new).mirror (r.set o mirrored) w :=
    OrderBook.held_turn r mirror Fill.mirror b w o mirrored rest new
  rw [OrderBook.addOrder_eq hf id client side qty ts hr.2,
    OrderBook.addOrder_eq hf' id client side.swap qty ts (by rw [badPrice_mirror]; exact hr.2),
    hheld]
  have horder : (b.held o rest new).order o = new := by rw [Core.order_held, if_pos rfl]
  have hmatching : Matching o (b.held o rest new) := ⟨Q, hi.held hf rfl⟩
  apply rel_bind ((h.held hf new).matched hmatching (congrArg _ horder) (congrArg _ horder) hprice)
  rintro b₁ b₁' ⟨-, r₁, w₁, h₁, rfl⟩
  exact h₁.settle side hr.2 o

/-- An order that is found by its id has mirrored labels. -/
theorem Reflected.found (h : Reflected b r w) (hi : Inv b Q) {id : OrderId}
    (hl : b.lookup id = some o) :
    (b.mirror r w).order o = mirrored.order o (b.order o) := by
  obtain ⟨⟨s, i, ho⟩, -⟩ := mem_of_lookup hi.core hl
  rw [OrderBook.order_turn, h.labels o (hi.core.not_free_of_queued ho)]

/-- It is on the other side. -/
theorem Reflected.side_found (h : Reflected b r w) (hi : Inv b Q) {id : OrderId}
    (hl : b.lookup id = some o) :
    ((b.mirror r w).order o).side = (b.order o).side.swap := by
  rw [h.found hi hl]
  rfl

/-- **`cancel_order` in the mirror.** -/
theorem Reflected.cancelOrder (h : Reflected b r w) (hi : Inv b Q) (id : OrderId) :
    Option.Rel MirroredOutcome (b.cancelOrder id) ((b.mirror r w).cancelOrder id) := by
  unfold OrderBook.cancelOrder
  rw [OrderBook.lookup_turn]
  cases hl : b.lookup id with
  | none => exact .some ⟨h.image, rfl⟩
  | some o =>
    have hp : ((b.mirror r w).order o).price = mirror (b.order o).price := by
      rw [h.found hi hl]
      rfl
    simp only [hp, h.side_found hi hl, swap_book, levelOf_mirror]
    cases levelOf (b.order o).price with
    | none => exact .none
    | some i =>
      set s := (b.order o).side.book
      simp only [Option.map_some, Option.bind_eq_bind, Option.bind_some, OrderBook.removeLevel_turn,
        OrderBook.levels_turn]
      have h₁ : Reflected (b.removeLevel s i o) r w := h.congr rfl rfl fun _ hp => hp
      have h₂ := h₁.clearBit s i
      simp only [OrderBook.clearBit_turn, OrderBook.best_turn, mirror_injective.eq_iff]
      split_ifs
      · -- the level was the best one, and the next is searched
        apply rel_bind (h₂.scanBest s)
        rintro b₁ b₁' ⟨r₁, w₁, hw₁, rfl⟩
        exact .some ⟨hw₁.release o, rfl⟩
      · exact .some ⟨h₂.release o, rfl⟩
      · exact .some ⟨h₁.release o, rfl⟩

/-- **`modify_order` in the mirror.** -/
theorem Reflected.modifyOrder (h : Reflected b r w) (hi : Inv b Q) (id : OrderId) (price : Price)
    (qty : Quantity) (ts : Timestamp) :
    Option.Rel MirroredOutcome (b.modifyOrder id price qty ts)
      ((b.mirror r w).modifyOrder id (mirror price) qty ts) := by
  unfold OrderBook.modifyOrder
  rw [OrderBook.lookup_turn]
  cases hl : b.lookup id with
  | none => exact .some ⟨h.image, rfl⟩
  | some o =>
    have hc : ((b.mirror r w).order o).clientId = (b.order o).clientId :=
      Relabel.clientId_order r o (b.order o)
    obtain ⟨b₁, hrun, hleft⟩ := cancelOrder_found hi hl
    have hrel := h.cancelOrder hi id
    rw [hrun] at hrel
    obtain ⟨⟨b₁', a⟩, hrun', ⟨r₁, w₁, h₁, hb⟩, -⟩ := rel_some hrel
    obtain rfl : b₁' = b₁.mirror r₁ w₁ := hb
    simp only [h.side_found hi hl, hc, hrun, hrun', Option.bind_eq_bind, Option.bind_some]
    exact h₁.addOrder hleft.inv id (b.order o).clientId (b.order o).side (Or.inl rfl) price qty ts

end Operations

/-! ### Runs -/

/-- The orders that a call adds are limit or market orders. -/
def Call.Known : Call → Prop
  | .addOrder _ _ _ type _ _ _ => type = .limit ∨ type = .market
  | _ => True

/-- **A step**: a call and its mirror image are answered alike, and lead to mirror images. -/
theorem Reflected.call {b : OrderBook cap} {Q : Queues cap} {r : Relabel cap}
    {w : BookSide → PriceBitset} (h : Reflected b r w) (hi : Inv b Q) {c : Call} (hc : c.Known) :
    Option.Rel MirroredOutcome (b.call c) ((b.mirror r w).call c.mirror) := by
  cases c with
  | addOrder id client side type price qty ts =>
    exact rel_map (h.addOrder hi id client side hc price qty ts) fun _ _ hr =>
      ⟨hr.1, congrArg some hr.2⟩
  | cancelOrder id => exact rel_map (h.cancelOrder hi id) fun _ _ hr => ⟨hr.1, congrArg some hr.2⟩
  | modifyOrder id price qty ts =>
    exact rel_map (h.modifyOrder hi id price qty ts) fun _ _ hr => ⟨hr.1, congrArg some hr.2⟩
  | clearFills => exact .some ⟨⟨r, w, h.congr rfl rfl fun _ hp => hp, rfl⟩, rfl⟩

/-- **A run** and the run of the mirrored calls. -/
theorem run_mirrored {b b' : OrderBook cap} {Q : Queues cap} (h : Mirrored b b') (hi : Inv b Q)
    (hcap : cap < 2 ^ 32) {cs : List Call} (hcs : ∀ c ∈ cs, c.Known) :
    Option.Rel MirroredOutcome (b.run cs) (b'.run (cs.map Call.mirror)) := by
  induction cs generalizing b b' Q with
  | nil => exact .some ⟨h, rfl⟩
  | cons c cs ih =>
    obtain ⟨r, w, h, rfl⟩ := h
    have hrel := h.call hi (hcs c (by simp))
    obtain ⟨b₁, a, Q₁, hcall, hi₁⟩ := call_inv hi hcap c
    rw [hcall] at hrel
    obtain ⟨⟨b₁', a'⟩, hcall', hb, rfl⟩ := rel_some hrel
    rw [List.map_cons]
    unfold OrderBook.run
    simp only [hcall, hcall', Option.bind_eq_bind, Option.bind_some]
    refine rel_bind (ih hb hi₁ fun c hc => hcs c (by simp [hc])) ?_
    rintro ⟨b₂, rs⟩ ⟨b₂', rs'⟩ ⟨hb₂, rfl⟩
    exact .some ⟨hb₂, rfl⟩

namespace OrderBook

/-- A fresh book turned round is a fresh book. -/
theorem new_turn {r : Relabel cap} (hr : ∀ p o, r.order p o = o) (μ : Price → Price)
    (φ : Fill → Fill) (hμ : ∀ s : BookSide, μ s.opposite.noPrice = s.noPrice) :
    turn r μ φ (OrderBook.new cap) (OrderBook.new cap).bits = OrderBook.new cap := by
  have hbest : (fun s : BookSide => μ ((OrderBook.new cap).best s.opposite)) =
    (OrderBook.new cap).best := funext hμ
  have harena : (OrderBook.new cap).pool.arena.relabel r = (OrderBook.new cap).pool.arena :=
    funext fun p => hr p _
  unfold turn
  rw [hbest, harena]
  rfl

end OrderBook

/-- A fresh book is its own mirror image. -/
theorem new_mirrored (cap : ℕ) : Mirrored (OrderBook.new cap) (OrderBook.new cap) := by
  refine ⟨⟨fun _ p => p, fun _ s => s, fun _ t => t, fun _ t => t⟩, (OrderBook.new cap).bits, ?_,
    (OrderBook.new_turn (fun _ _ => rfl) mirror Fill.mirror fun s => ?_).symm⟩
  · refine ⟨fun _ => PriceBitset.new_tiers,
      fun _ => PriceBitset.new_tiers, fun s i => ?_, fun s => ?_, fun p hp => ?_⟩
    · simp [OrderBook.new, PriceBitset.new_occupied]
    · cases s
      · exact UInt32.le_iff_toNat_le.mpr (Nat.zero_le _)
      · exact UInt32.le_refl _
    · have hfree : (OrderBook.new cap).pool.freeList = List.finRange cap :=
        OrderPool.freeFrom_cap cap
      exact absurd (hfree ▸ List.mem_finRange p) hp
  · rw [mirror_noPrice, s.opposite_opposite]

/-- What it means to be the mirror image of a book, in terms of what the two show. -/
structure MirrorImage (b b' : OrderBook cap) : Prop where
  /-- The fills have the two sides exchanged, and mirrored prices. -/
  fills : b'.fills = b.fills.map Fill.mirror
  /-- The queue at a price of one side is the other's at the mirrored price of the other side. -/
  queues : ∀ s i j, priceAt j = mirror (priceAt i) → b'.queue s.opposite j = b.queue s i
  /-- The orders that rest have the sides exchanged, mirrored prices, and all else alike. -/
  orders : ∀ s i, ∀ p ∈ b.queue s i,
    b'.order p = { b.order p with price := mirror (b.order p).price, side := (b.order p).side.swap }
  /-- The best bid is the mirrored best ask. -/
  bid : b'.bestBid = mirror b.bestAsk
  /-- The best ask is the mirrored best bid. -/
  ask : b'.bestAsk = mirror b.bestBid

theorem Mirrored.image {b b' : OrderBook cap} {Q : Queues cap} (h : Mirrored b b') (hi : Inv b Q) :
    MirrorImage b b' := by
  obtain ⟨r, w, h, rfl⟩ := h
  obtain rfl := hi.queue_eq
  refine ⟨rfl, fun s i j hij => ?_, fun s i p hp => ?_, rfl, rfl⟩
  · rw [← priceAt_rev] at hij
    rw [priceAt_injective hij]
    exact OrderBook.queue_turn ..
  · rw [OrderBook.order_turn, h.labels p (hi.core.not_free_of_queued hp)]
    rfl

/-- **Buyers and sellers are mirror images**: at every step of a run that adds limit and
market orders only, the mirrored calls have given the same answers on another book, and that
book is the mirror image of the first. The calls `cs` are those up to that step. -/
theorem mirror_run (hcap : cap < 2 ^ 32) (cs : List Call) (hcs : ∀ c ∈ cs, c.Known) :
    ∃ b b' rs, (OrderBook.new cap).run cs = some (b, rs) ∧
      (OrderBook.new cap).run (cs.map Call.mirror) = some (b', rs) ∧ MirrorImage b b' := by
  obtain ⟨b, rs, Q, hrun, hi⟩ := run_inv (new_inv cap) hcap cs
  have hrel := run_mirrored (new_mirrored cap) (new_inv cap) hcap hcs
  rw [hrun] at hrel
  obtain ⟨⟨b', rs'⟩, hrun', hb, rfl⟩ := rel_some hrel
  exact ⟨b, b', rs', hrun, hrun', hb.image hi⟩

/-- A seller rests, is bought in part at the top of the range, and is modified. -/
theorem mirror_run_three :
    ∃ b b' rs,
      (OrderBook.new 2).run [.addOrder 1 7 .sell .limit 1000000 5 0,
        .addOrder 2 8 .buy .market 0 3 1, .modifyOrder 1 1 4 2] = some (b, rs) ∧
      (OrderBook.new 2).run
        ([.addOrder 1 7 .sell .limit 1000000 5 0, .addOrder 2 8 .buy .market 0 3 1,
        .modifyOrder 1 1 4 2].map Call.mirror) = some (b', rs) ∧ MirrorImage b b' :=
  mirror_run (by decide) _ (by simp [Call.Known])

end TradeFeed
