import Mathlib.Data.Set.Insert
import Mathlib.Order.Bounds.Basic
import TradeFeed.Core.Types
import TradeFeed.Lib.Machine

/-!
# The three-tier bitset

`PriceBitset` (`price_bitset.h`): one bit for each price level, one bit for each word of those, and
one bit for each word of those again, so that the highest and the lowest occupied level are found by
counting zeros three times.

The set of levels a bitset stands for is `occupied`. The tiers agree when each summary bit is set
exactly for the nonzero words below it (`Tiers`); `set` and `clear` keep them so and insert and
remove one level (`set_occupied`, `clear_occupied`), and then `highest` and `lowest` find the
greatest and the least level, with every word index in range and no zero count of a zero word
(`highest_spec`, `lowest_spec`). Over any calls the bitset is the finite set that they make
(`bitset_refines`).
-/

namespace TradeFeed

/-- A 64-bit word. -/
abbrev Word := BitVec 64

/-! ### Words -/

/-- `__builtin_clzll`: the number of zeros above the highest one; undefined at 0. -/
def clz (w : Word) : Option ℕ := (List.range 64).find? fun k => w.getLsbD (63 - k)

/-- `__builtin_ctzll`: the number of zeros below the lowest one; undefined at 0. -/
def ctz (w : Word) : Option ℕ := (List.range 64).find? fun k => w.getLsbD k

/-- `top_bit`. -/
def topBit (w : Word) : Option ℕ := (clz w).map fun k => 63 - k

theorem exists_bit_of_ne_zero {w : Word} (h : w ≠ 0) : ∃ k, k < 64 ∧ w.getLsbD k = true := by
  by_contra hn
  push Not at hn
  refine h (BitVec.eq_of_getLsbD_eq fun k hk => ?_)
  simpa using hn k hk

/-- A nonzero word has a top bit, the greatest of its bits. -/
theorem topBit_spec {w : Word} (h : w ≠ 0) :
    ∃ t, topBit w = some t ∧ t < 64 ∧ IsGreatest {k | w.getLsbD k = true} t := by
  cases hc : clz w with
  | none =>
    obtain ⟨k, hk, hb⟩ := exists_bit_of_ne_zero h
    have := (List.find?_range_eq_none.mp hc) (63 - k) (by omega)
    rw [show 63 - (63 - k) = k by omega, hb] at this
    simp at this
  | some c =>
    obtain ⟨hb, hc', hmin⟩ := List.find?_range_eq_some.mp hc
    rw [List.mem_range] at hc'
    refine ⟨63 - c, by simp [topBit, hc], by omega, hb, fun k hk => ?_⟩
    rw [Set.mem_ofPred_eq] at hk
    have hk64 : k < 64 := BitVec.lt_of_getLsbD hk
    by_contra hlt
    have := hmin (63 - k) (by omega)
    rw [show 63 - (63 - k) = k by omega, hk] at this
    simp at this

/-- A nonzero word has a lowest bit. -/
theorem ctz_spec {w : Word} (h : w ≠ 0) :
    ∃ t, ctz w = some t ∧ t < 64 ∧ IsLeast {k | w.getLsbD k = true} t := by
  cases hc : ctz w with
  | none =>
    obtain ⟨k, hk, hb⟩ := exists_bit_of_ne_zero h
    have := (List.find?_range_eq_none.mp hc) k hk
    rw [hb] at this
    simp at this
  | some c =>
    obtain ⟨hb, hc', hmin⟩ := List.find?_range_eq_some.mp hc
    rw [List.mem_range] at hc'
    refine ⟨c, rfl, hc', hb, fun k hk => ?_⟩
    rw [Set.mem_ofPred_eq] at hk
    by_contra hlt
    have := hmin k (by omega)
    rw [hk] at this
    simp at this

/-! ### Tiers -/

section Tier

variable {n : ℕ}

/-- The bits that are set in an array of words. -/
def bits (ws : Fin n → Word) : Set ℕ :=
  {k | ∃ h : k / 64 < n, (ws ⟨k / 64, h⟩).getLsbD (k % 64) = true}

/-- The words that are not zero. -/
def words (ws : Fin n → Word) : Set ℕ := {w | ∃ h : w < n, ws ⟨w, h⟩ ≠ 0}

theorem mem_bits {ws : Fin n → Word} {w : Fin n} {t : ℕ} (ht : t < 64) :
    64 * w.val + t ∈ bits ws ↔ (ws w).getLsbD t = true := by
  have h₁ : (64 * w.val + t) / 64 = w := by omega
  have h₂ : (64 * w.val + t) % 64 = t := by omega
  simp [bits, h₁, h₂]

/-- The bits of an array say what its words are. -/
theorem bits_injective : Function.Injective (bits (n := n)) := fun ws ws' h => by
  funext w
  refine BitVec.eq_of_getLsbD_eq fun k hk => Bool.eq_iff_iff.mpr ?_
  rw [← mem_bits hk, ← mem_bits hk, h]

/-- Setting a bit: `ws[w] |= 1ULL << k`. -/
def orBit (ws : Fin n → Word) (w : Fin n) (k : ℕ) : Fin n → Word :=
  Function.update ws w (ws w ||| 1#64 <<< k)

/-- Clearing a bit: `ws[w] &= ~(1ULL << k)`. -/
def andNotBit (ws : Fin n → Word) (w : Fin n) (k : ℕ) : Fin n → Word :=
  Function.update ws w (ws w &&& ~~~(1#64 <<< k))

theorem getLsbD_one_shiftLeft {k j : ℕ} (hj : j < 64) :
    (1#64 <<< k).getLsbD j = decide (j = k) := by
  rw [BitVec.getLsbD_shiftLeft, BitVec.getLsbD_one]
  by_cases h : j = k
  · simp [h]; omega
  · have : ¬ (j - k = 0 ∧ ¬ j < k) := by omega
    simp only [hj, decide_true, Bool.true_and, h, decide_false]
    by_cases h' : j < k <;> simp [h'] ; omega

theorem bits_orBit (ws : Fin n → Word) (w : Fin n) {k : ℕ} (hk : k < 64) :
    bits (orBit ws w k) = insert (64 * w.val + k) (bits ws) := by
  ext j
  have hj : j = 64 * (j / 64) + j % 64 := by omega
  have hm : j % 64 < 64 := Nat.mod_lt _ (by omega)
  simp only [bits, orBit, Set.mem_ofPred_eq, Set.mem_insert_iff]
  by_cases hw : j / 64 = w.val
  · have hlt : j / 64 < n := hw ▸ w.isLt
    have hf : (⟨j / 64, hlt⟩ : Fin n) = w := Fin.ext hw
    have he : j = 64 * w.val + k ↔ j % 64 = k := by omega
    simp only [hlt, exists_true_left, hf, Function.update_self, BitVec.getLsbD_or,
      getLsbD_one_shiftLeft hm, Bool.or_eq_true, decide_eq_true_eq, he]
    exact or_comm
  · have hne : j ≠ 64 * w.val + k := by omega
    simp only [hne, false_or]
    apply exists_congr
    intro hlt
    rw [Function.update_of_ne (fun hf => hw (congrArg Fin.val hf))]

theorem bits_andNotBit (ws : Fin n → Word) (w : Fin n) {k : ℕ} (hk : k < 64) :
    bits (andNotBit ws w k) = bits ws \ {64 * w.val + k} := by
  ext j
  have hj : j = 64 * (j / 64) + j % 64 := by omega
  have hm : j % 64 < 64 := Nat.mod_lt _ (by omega)
  simp only [bits, andNotBit, Set.mem_ofPred_eq, Set.mem_sdiff, Set.mem_singleton_iff]
  by_cases hw : j / 64 = w.val
  · have hlt : j / 64 < n := hw ▸ w.isLt
    have hf : (⟨j / 64, hlt⟩ : Fin n) = w := Fin.ext hw
    have he : j = 64 * w.val + k ↔ j % 64 = k := by omega
    simp only [hlt, exists_true_left, hf, Function.update_self, BitVec.getLsbD_and,
      BitVec.getLsbD_not, getLsbD_one_shiftLeft hm, hm, decide_true, Bool.true_and,
      Bool.and_eq_true, Bool.not_eq_true', decide_eq_false_iff_not, he]
  · have hne : j ≠ 64 * w.val + k := by omega
    simp only [hne, not_false_eq_true, and_true]
    apply exists_congr
    intro hlt
    rw [Function.update_of_ne (fun hf => hw (congrArg Fin.val hf))]

theorem words_orBit (ws : Fin n → Word) (w : Fin n) {k : ℕ} (hk : k < 64) :
    words (orBit ws w k) = insert w.val (words ws) := by
  ext j
  simp only [words, orBit, Set.mem_ofPred_eq, Set.mem_insert_iff]
  by_cases hw : j = w.val
  · subst hw
    simp only [w.isLt, exists_true_left, Fin.eta, Function.update_self, true_or, iff_true]
    intro h0
    have := congrArg (fun v : Word => v.getLsbD k) h0
    simp [getLsbD_one_shiftLeft hk] at this
  · simp only [hw, false_or]
    apply exists_congr
    intro hlt
    rw [Function.update_of_ne (fun hf => hw (congrArg Fin.val hf))]

/-- Clearing a bit and leaving something in the word leaves the same words. -/
theorem words_andNotBit_of_ne {ws : Fin n → Word} {w : Fin n} {k : ℕ} (h : andNotBit ws w k w ≠ 0) :
    words (andNotBit ws w k) = words ws := by
  ext j
  simp only [words, Set.mem_ofPred_eq]
  apply exists_congr
  intro hlt
  by_cases hw : (⟨j, hlt⟩ : Fin n) = w
  · rw [hw]
    refine ⟨fun _ h0 => h ?_, fun _ => h⟩
    simp [andNotBit, h0]
  · rw [andNotBit, Function.update_of_ne hw]

/-- Clearing the last bit of a word takes the word away. -/
theorem words_andNotBit_of_eq {ws : Fin n → Word} {w : Fin n} {k : ℕ} (h : andNotBit ws w k w = 0) :
    words (andNotBit ws w k) = words ws \ {w.val} := by
  ext j
  simp only [words, Set.mem_ofPred_eq, Set.mem_sdiff, Set.mem_singleton_iff]
  by_cases hw : j = w.val
  · subst hw
    simp [h]
  · simp only [hw, not_false_eq_true, and_true]
    apply exists_congr
    intro hlt
    rw [andNotBit, Function.update_of_ne (fun hf => hw (congrArg Fin.val hf))]

/-- The greatest nonzero word and its top bit make the greatest bit. -/
theorem isGreatest_bits {ws : Fin n → Word} {w : Fin n} {t : ℕ} (hw : IsGreatest (words ws) w.val)
    (ht : t < 64) (hg : IsGreatest {k | (ws w).getLsbD k = true} t) :
    IsGreatest (bits ws) (64 * w.val + t) := by
  refine ⟨(mem_bits ht).mpr hg.1, fun j ⟨hlt, hb⟩ => ?_⟩
  have hne : ws ⟨j / 64, hlt⟩ ≠ 0 := fun h0 => by simp [h0] at hb
  have hle : j / 64 ≤ w.val := hw.2 ⟨hlt, hne⟩
  rcases Nat.lt_or_eq_of_le hle with h | h
  · omega
  · have hf : (⟨j / 64, hlt⟩ : Fin n) = w := Fin.ext h
    have : j % 64 ≤ t := hg.2 (by rw [hf] at hb; exact hb)
    omega

/-- The least nonzero word and its lowest bit make the least bit. -/
theorem isLeast_bits {ws : Fin n → Word} {w : Fin n} {t : ℕ} (hw : IsLeast (words ws) w.val)
    (ht : t < 64) (hg : IsLeast {k | (ws w).getLsbD k = true} t) :
    IsLeast (bits ws) (64 * w.val + t) := by
  refine ⟨(mem_bits ht).mpr hg.1, fun j ⟨hlt, hb⟩ => ?_⟩
  have hne : ws ⟨j / 64, hlt⟩ ≠ 0 := fun h0 => by simp [h0] at hb
  have hle : w.val ≤ j / 64 := hw.2 ⟨hlt, hne⟩
  rcases Nat.lt_or_eq_of_le hle with h | h
  · omega
  · have hf : (⟨j / 64, hlt⟩ : Fin n) = w := Fin.ext h.symm
    have : t ≤ j % 64 := hg.2 (by rw [hf] at hb; exact hb)
    omega

end Tier

/-! ### The bitset -/

/-- `L0_WORDS`. -/
def l0Words : ℕ := (priceLevels + 63) / 64

/-- `L1_WORDS`. -/
def l1Words : ℕ := (l0Words + 63) / 64

/-- `L2_WORDS`. -/
def l2Words : ℕ := (l1Words + 63) / 64

/-- `class PriceBitset`. -/
structure PriceBitset where
  /-- One bit for each price level. -/
  l0 : Fin l0Words → Word
  /-- One bit for each word of `l0`. -/
  l1 : Fin l1Words → Word
  /-- One bit for each word of `l1`. -/
  l2 : Fin l2Words → Word

namespace PriceBitset

/-- All words are zero. -/
def new : PriceBitset := ⟨fun _ => 0, fun _ => 0, fun _ => 0⟩

theorem shiftRight_six (i : ℕ) : i >>> 6 = i / 64 := Nat.shiftRight_eq_div_pow i 6

theorem shiftLeft_six (i : ℕ) : i <<< 6 = 64 * i := by rw [Nat.shiftLeft_eq]; omega

theorem and_63 (i : ℕ) : i &&& 63 = i % 64 := Nat.and_two_pow_sub_one_eq_mod i 6

/-- Enough words for a tier: `(n + 63) / 64`. -/
theorem shiftRight_six_lt {i n : ℕ} (h : i < n) : i >>> 6 < (n + 63) / 64 := by
  rw [shiftRight_six]; omega

/-- The word of a level: `i >> 6`. -/
def word0 (i : Fin priceLevels) : Fin l0Words :=
  ⟨i.val >>> 6, shiftRight_six_lt i.isLt⟩

/-- The word of a word of `l0`: `w0 >> 6`. -/
def word1 (w : Fin l0Words) : Fin l1Words :=
  ⟨w.val >>> 6, shiftRight_six_lt w.isLt⟩

/-- The word of a word of `l1`: `w1 >> 6`. -/
def word2 (w : Fin l1Words) : Fin l2Words :=
  ⟨w.val >>> 6, shiftRight_six_lt w.isLt⟩

/-- `set(i)`. -/
def set (s : PriceBitset) (i : Fin priceLevels) : PriceBitset :=
  let w0 := word0 i
  let w1 := word1 w0
  { l0 := orBit s.l0 w0 (i.val &&& 63)
    l1 := orBit s.l1 w1 (w0.val &&& 63)
    l2 := orBit s.l2 (word2 w1) (w1.val &&& 63) }

/-- `clear(i)`: the summaries are cleared only when the word below is empty. -/
def clear (s : PriceBitset) (i : Fin priceLevels) : PriceBitset :=
  let w0 := word0 i
  let s := { s with l0 := andNotBit s.l0 w0 (i.val &&& 63) }
  if s.l0 w0 ≠ 0 then s
  else
    let w1 := word1 w0
    let s := { s with l1 := andNotBit s.l1 w1 (w0.val &&& 63) }
    if s.l1 w1 ≠ 0 then s
    else { s with l2 := andNotBit s.l2 (word2 w1) (w1.val &&& 63) }

/-- `test(i)`. -/
def test (s : PriceBitset) (i : Fin priceLevels) : Bool := (s.l0 (word0 i)).getLsbD (i.val &&& 63)

/-- A word of the top tier is not zero. -/
def occupiedWord (s : PriceBitset) (w : ℕ) : Bool :=
  if h : w < l2Words then s.l2 ⟨w, h⟩ != 0 else false

/-- The loop `for (w2 = n; w2-- > 0; )`, left at the first word that is not zero. -/
def lastWord (s : PriceBitset) : ℕ → Option ℕ
  | 0 => none
  | n + 1 => if s.occupiedWord n then some n else lastWord s n

/-- `highest()`: `none` where an access or a zero count is undefined, `some none` for
`NONE`. -/
def highest (s : PriceBitset) : Option (Option ℕ) :=
  match s.lastWord l2Words with
  | none => some none
  | some w2 => do
    let w2 ← index l2Words w2
    let w1 ← index l1Words ((w2.val <<< 6) + (← topBit (s.l2 w2)))
    let w0 ← index l0Words ((w1.val <<< 6) + (← topBit (s.l1 w1)))
    return some ((w0.val <<< 6) + (← topBit (s.l0 w0)))

/-- `lowest()`. -/
def lowest (s : PriceBitset) : Option (Option ℕ) :=
  match (List.range l2Words).find? s.occupiedWord with
  | none => some none
  | some w2 => do
    let w2 ← index l2Words w2
    let w1 ← index l1Words ((w2.val <<< 6) + (← ctz (s.l2 w2)))
    let w0 ← index l0Words ((w1.val <<< 6) + (← ctz (s.l1 w1)))
    return some ((w0.val <<< 6) + (← ctz (s.l0 w0)))

/-! ### The set it stands for -/

/-- The levels whose bit is set. -/
def occupied (s : PriceBitset) : Set ℕ := bits s.l0

/-- The tiers agree: a summary bit is set exactly for the nonzero words below. -/
structure Tiers (s : PriceBitset) : Prop where
  /-- `l1` over `l0`. -/
  one : bits s.l1 = words s.l0
  /-- `l2` over `l1`. -/
  two : bits s.l2 = words s.l1

/-- The set a bitset stands for determines it. -/
theorem Tiers.ext {s s' : PriceBitset} (h : s.Tiers) (h' : s'.Tiers)
    (ho : s.occupied = s'.occupied) :
    s = s' := by
  have h₀ : s.l0 = s'.l0 := bits_injective ho
  have h₁ : s.l1 = s'.l1 := bits_injective (by rw [h.one, h'.one, h₀])
  have h₂ : s.l2 = s'.l2 := bits_injective (by rw [h.two, h'.two, h₁])
  cases s
  cases s'
  cases h₀
  cases h₁
  cases h₂
  rfl

theorem test_iff (s : PriceBitset) (i : Fin priceLevels) :
    s.test i = true ↔ i.val ∈ s.occupied := by
  have h : i.val = 64 * (word0 i).val + (i.val &&& 63) := by
    simp only [word0, shiftRight_six, and_63]; omega
  rw [test, occupied]
  conv_rhs => rw [h]
  rw [mem_bits (by rw [and_63]; exact Nat.mod_lt _ (by omega))]

theorem bits_zero (n : ℕ) : bits (fun _ : Fin n => (0 : Word)) = ∅ := by
  ext k; simp [bits]

theorem words_zero (n : ℕ) : words (fun _ : Fin n => (0 : Word)) = ∅ := by
  ext k; simp [words]

theorem new_tiers : Tiers new :=
  ⟨(bits_zero _).trans (words_zero _).symm, (bits_zero _).trans (words_zero _).symm⟩

theorem new_occupied : new.occupied = ∅ := bits_zero _

/-- The words hold no bit beyond the last level's. -/
theorem lt_of_mem_occupied {s : PriceBitset} {k : ℕ} (h : k ∈ s.occupied) : k < priceLevels := by
  obtain ⟨hlt, -⟩ := h
  have : l0Words = 15625 := rfl
  rw [priceLevels_eq]
  omega

/-- Where a level's bit is: its word and the place in the word make the level. -/
theorem place (i : ℕ) : 64 * (i >>> 6) + (i &&& 63) = i := by
  rw [shiftRight_six, and_63]; omega

theorem and_63_lt (i : ℕ) : i &&& 63 < 64 := by
  rw [and_63]; exact Nat.mod_lt _ (by omega)

theorem set_occupied (s : PriceBitset) (i : Fin priceLevels) :
    (s.set i).occupied = insert i.val s.occupied := by
  simp only [occupied, set, bits_orBit _ _ (and_63_lt _)]
  rw [word0, place]

theorem set_tiers {s : PriceBitset} (h : s.Tiers) (i : Fin priceLevels) : (s.set i).Tiers where
  one := by
    simp only [set, bits_orBit _ _ (and_63_lt _), words_orBit _ _ (and_63_lt _), h.one]
    rw [word1, place]
  two := by
    simp only [set, bits_orBit _ _ (and_63_lt _), words_orBit _ _ (and_63_lt _), h.two]
    rw [word2, place]

theorem clear_occupied (s : PriceBitset) (i : Fin priceLevels) :
    (s.clear i).occupied = s.occupied \ {i.val} := by
  have h : bits (andNotBit s.l0 (word0 i) (i.val &&& 63)) = bits s.l0 \ {i.val} := by
    rw [bits_andNotBit _ _ (and_63_lt _), word0, place]
  simp only [occupied, clear]
  split_ifs <;> exact h

theorem clear_tiers {s : PriceBitset} (h : s.Tiers) (i : Fin priceLevels) : (s.clear i).Tiers := by
  have h₁ : bits (andNotBit s.l1 (word1 (word0 i)) ((word0 i).val &&& 63)) =
      bits s.l1 \ {(word0 i).val} := by
    rw [bits_andNotBit _ _ (and_63_lt _), word1, place]
  have h₂ : bits (andNotBit s.l2 (word2 (word1 (word0 i))) ((word1 (word0 i)).val &&& 63)) =
      bits s.l2 \ {(word1 (word0 i)).val} := by
    rw [bits_andNotBit _ _ (and_63_lt _), word2, place]
  simp only [clear]
  split_ifs with h0 h1
  · -- the level's word keeps a bit: the summaries stay
    exact ⟨by simpa [words_andNotBit_of_ne h0] using h.one, h.two⟩
  · -- the word is empty, its summary word is not
    rw [ne_eq, not_not] at h0
    exact ⟨by simp only [h₁, words_andNotBit_of_eq h0, h.one], by simpa [words_andNotBit_of_ne h1]
      using h.two⟩
  · rw [ne_eq, not_not] at h0 h1
    exact ⟨by simp only [h₁, words_andNotBit_of_eq h0, h.one],
      by simp only [h₂, words_andNotBit_of_eq h1, h.two]⟩

/-! ### The highest and the lowest level -/

theorem occupiedWord_iff (s : PriceBitset) (w : ℕ) : s.occupiedWord w = true ↔ w ∈ words s.l2 := by
  unfold occupiedWord words
  by_cases h : w < l2Words <;> simp [h]

theorem lastWord_eq_none {s : PriceBitset} {n : ℕ} :
    s.lastWord n = none ↔ ∀ w < n, w ∉ words s.l2 := by
  induction n with
  | zero => simp [lastWord]
  | succ n ih =>
    rw [lastWord]
    by_cases h : s.occupiedWord n = true
    · simp only [h, if_true, reduceCtorEq, false_iff, not_forall]
      exact ⟨n, by omega, fun hn => hn ((s.occupiedWord_iff n).mp h)⟩
    · rw [if_neg h, ih]
      rw [occupiedWord_iff] at h
      refine ⟨fun hall w hw => ?_, fun hall w hw => hall w (by omega)⟩
      rcases Nat.lt_succ_iff_lt_or_eq.mp hw with hw | rfl
      · exact hall w hw
      · exact h

theorem lastWord_eq_some {s : PriceBitset} {n w : ℕ} (h : s.lastWord n = some w) :
    w ∈ words s.l2 ∧ ∀ v ∈ words s.l2, v < n → v ≤ w := by
  induction n with
  | zero => simp [lastWord] at h
  | succ n ih =>
    rw [lastWord] at h
    by_cases hn : s.occupiedWord n = true
    · obtain rfl : n = w := by simpa [hn] using h
      exact ⟨(s.occupiedWord_iff n).mp hn, fun v _ hv => by omega⟩
    · rw [if_neg hn] at h
      obtain ⟨h₁, h₂⟩ := ih h
      refine ⟨h₁, fun v hv hlt => h₂ v hv ?_⟩
      rcases Nat.lt_succ_iff_lt_or_eq.mp hlt with hlt | rfl
      · exact hlt
      · exact absurd ((s.occupiedWord_iff v).mpr hv) hn

/-- No word of the top tier is set exactly when no level is. -/
theorem words_l2_empty_iff {s : PriceBitset} (h : s.Tiers) : words s.l2 = ∅ ↔ s.occupied = ∅ := by
  have empty : ∀ {n : ℕ} (ws : Fin n → Word), words ws = ∅ ↔ bits ws = ∅ := by
    intro n ws
    simp only [Set.eq_empty_iff_forall_notMem]
    constructor
    · rintro hw j ⟨hlt, hb⟩
      exact hw (j / 64) ⟨hlt, fun h0 => by simp [h0] at hb⟩
    · rintro hb j ⟨hlt, hne⟩
      obtain ⟨k, hk, hbit⟩ := exists_bit_of_ne_zero hne
      exact hb (64 * j + k) ((mem_bits (w := ⟨j, hlt⟩) hk).mpr hbit)
  rw [empty, h.two, empty, h.one, empty, occupied]

/-- **`highest`** finds the greatest level that is set. -/
theorem highest_spec {s : PriceBitset} (h : s.Tiers) :
    (s.highest = some none ∧ s.occupied = ∅) ∨
      ∃ i, s.highest = some (some i) ∧ IsGreatest s.occupied i := by
  cases hw : s.lastWord l2Words with
  | none =>
    refine Or.inl ⟨by simp [highest, hw], (words_l2_empty_iff h).mp ?_⟩
    rw [Set.eq_empty_iff_forall_notMem]
    exact fun w hmem => lastWord_eq_none.mp hw w hmem.1 hmem
  | some w2 =>
    obtain ⟨⟨hlt₂, hne₂⟩, hmax⟩ := lastWord_eq_some hw
    have hg₂ : IsGreatest (words s.l2) w2 := ⟨⟨hlt₂, hne₂⟩, fun v hv => hmax v hv hv.1⟩
    obtain ⟨t₂, ht₂, hl₂, hb₂⟩ := topBit_spec hne₂
    have hg₁ := isGreatest_bits (w := ⟨w2, hlt₂⟩) hg₂ hl₂ hb₂
    rw [h.two] at hg₁
    obtain ⟨hlt₁, hne₁⟩ := hg₁.1
    obtain ⟨t₁, ht₁, hl₁, hb₁⟩ := topBit_spec hne₁
    have hg₀ := isGreatest_bits (w := ⟨_, hlt₁⟩) hg₁ hl₁ hb₁
    rw [h.one] at hg₀
    obtain ⟨hlt₀, hne₀⟩ := hg₀.1
    obtain ⟨t₀, ht₀, hl₀, hb₀⟩ := topBit_spec hne₀
    refine Or.inr ⟨_, ?_, isGreatest_bits (w := ⟨_, hlt₀⟩) hg₀ hl₀ hb₀⟩
    simp [highest, hw, hlt₂, ht₂, shiftLeft_six, hlt₁, ht₁, hlt₀, ht₀]

/-- **`lowest`** finds the least level that is set. -/
theorem lowest_spec {s : PriceBitset} (h : s.Tiers) :
    (s.lowest = some none ∧ s.occupied = ∅) ∨
      ∃ i, s.lowest = some (some i) ∧ IsLeast s.occupied i := by
  cases hw : (List.range l2Words).find? s.occupiedWord with
  | none =>
    refine Or.inl ⟨by simp [lowest, hw], (words_l2_empty_iff h).mp ?_⟩
    rw [Set.eq_empty_iff_forall_notMem]
    intro w hmem
    have := List.find?_range_eq_none.mp hw w hmem.1
    rw [(s.occupiedWord_iff w).mpr hmem] at this
    simp at this
  | some w2 =>
    obtain ⟨hocc, -, hmin⟩ := List.find?_range_eq_some.mp hw
    obtain ⟨hlt₂, hne₂⟩ := (s.occupiedWord_iff w2).mp hocc
    have hg₂ : IsLeast (words s.l2) w2 := by
      refine ⟨⟨hlt₂, hne₂⟩, fun v hv => ?_⟩
      by_contra hlt
      have := hmin v (by omega)
      rw [(s.occupiedWord_iff v).mpr hv] at this
      simp at this
    obtain ⟨t₂, ht₂, hl₂, hb₂⟩ := ctz_spec hne₂
    have hg₁ := isLeast_bits (w := ⟨w2, hlt₂⟩) hg₂ hl₂ hb₂
    rw [h.two] at hg₁
    obtain ⟨hlt₁, hne₁⟩ := hg₁.1
    obtain ⟨t₁, ht₁, hl₁, hb₁⟩ := ctz_spec hne₁
    have hg₀ := isLeast_bits (w := ⟨_, hlt₁⟩) hg₁ hl₁ hb₁
    rw [h.one] at hg₀
    obtain ⟨hlt₀, hne₀⟩ := hg₀.1
    obtain ⟨t₀, ht₀, hl₀, hb₀⟩ := ctz_spec hne₀
    refine Or.inr ⟨_, ?_, isLeast_bits (w := ⟨_, hlt₀⟩) hg₀ hl₀ hb₀⟩
    simp [lowest, hw, hlt₂, ht₂, shiftLeft_six, hlt₁, ht₁, hlt₀, ht₀]

/-! ### Runs -/

/-- A call that changes a bitset. -/
inductive BitOp where
  /-- `set(i)`. -/
  | set (i : Fin priceLevels)
  /-- `clear(i)`. -/
  | clear (i : Fin priceLevels)
  deriving DecidableEq

/-- The level that a call is about. -/
def BitOp.level : BitOp → Fin priceLevels
  | .set i => i
  | .clear i => i

/-- Make a call. -/
def apply (s : PriceBitset) : BitOp → PriceBitset
  | .set i => s.set i
  | .clear i => s.clear i

/-- Make calls. -/
abbrev run (s : PriceBitset) (ops : List BitOp) : PriceBitset := Lib.Machine.run apply s ops

/-- The last of some calls that is about a level. -/
def lastOn (i : Fin priceLevels) (ops : List BitOp) : Option BitOp :=
  (ops.filter fun op => op.level = i).getLast?

theorem run_tiers {s : PriceBitset} (h : s.Tiers) (ops : List BitOp) : (s.run ops).Tiers := by
  refine Lib.Machine.invariant (fun s op h => ?_) h ops
  cases op with
  | set i => exact set_tiers h i
  | clear i => exact clear_tiers h i

theorem test_set (s : PriceBitset) (i j : Fin priceLevels) :
    (s.set i).test j = true ↔ j = i ∨ s.test j = true := by
  rw [test_iff, set_occupied, Set.mem_insert_iff, test_iff, Fin.ext_iff]

theorem test_clear (s : PriceBitset) (i j : Fin priceLevels) :
    (s.clear i).test j = true ↔ s.test j = true ∧ j ≠ i := by
  rw [test_iff, clear_occupied, Set.mem_sdiff, Set.mem_singleton_iff, test_iff, Ne, Fin.ext_iff]

/-- A level's bit is what the last call about the level made it. -/
theorem test_run (ops : List BitOp) (i : Fin priceLevels) :
    (new.run ops).test i = true ↔ lastOn i ops = some (.set i) := by
  induction ops using List.reverseRecOn with
  | nil =>
    rw [test_iff]
    simp [lastOn, new_occupied]
  | append_singleton ops op ih =>
    rw [run, Lib.Machine.run_append, Lib.Machine.run_cons, Lib.Machine.run_nil]
    have hlast : op.level = i → lastOn i (ops ++ [op]) = some op := fun hi => by simp [lastOn, hi]
    have hskip : op.level ≠ i → lastOn i (ops ++ [op]) = lastOn i ops :=
      fun hi => by simp [lastOn, hi]
    by_cases hi : op.level = i
    · rw [hlast hi]
      cases op with
      | set j =>
        obtain rfl : j = i := hi
        simp [apply, test_set]
      | clear j =>
        obtain rfl : j = i := hi
        simp [apply, test_clear]
    · rw [hskip hi, ← ih]
      cases op with
      | set j =>
        have hne : i ≠ j := fun h => hi h.symm
        simp [apply, test_set, hne]
      | clear j =>
        have hne : i ≠ j := fun h => hi h.symm
        simp [apply, test_clear, hne]

/-- What a query finds: nothing if no level tests true, else the extreme one. -/
def Finds (s : PriceBitset) (found : Option (Option ℕ)) (Extreme : Set ℕ → ℕ → Prop) : Prop :=
  (found = some none ↔ ∀ i, s.test i = false) ∧
    ((∃ i, s.test i = true) →
      ∃ m : Fin priceLevels, found = some (some m.val) ∧
      Extreme {i | ∃ j, s.test j = true ∧ j.val = i} m)

theorem occupied_eq (s : PriceBitset) : s.occupied = {i | ∃ j, s.test j = true ∧ j.val = i} := by
  ext i
  constructor
  · exact fun hi => ⟨⟨i, lt_of_mem_occupied hi⟩, (test_iff s _).mpr hi, rfl⟩
  · rintro ⟨j, hj, rfl⟩
    exact (test_iff s j).mp hj

/-- An answer that is right about the set is right about the tests. -/
theorem finds_of_spec {s : PriceBitset} {found : Option (Option ℕ)} {Extreme : Set ℕ → ℕ → Prop}
    (hmem : ∀ {S : Set ℕ} {m : ℕ}, Extreme S m → m ∈ S)
    (h : (found = some none ∧ s.occupied = ∅) ∨ ∃ i, found = some (some i) ∧ Extreme s.occupied i) :
    s.Finds found Extreme := by
  have hempty : s.occupied = ∅ ↔ ∀ i, s.test i = false := by
    rw [Set.eq_empty_iff_forall_notMem]
    constructor
    · intro h i
      exact Bool.eq_false_iff.mpr fun ht => h i ((test_iff s i).mp ht)
    · intro h i hi
      have ht := (test_iff s ⟨i, lt_of_mem_occupied hi⟩).mpr hi
      rw [h] at ht
      cases ht
  rcases h with ⟨hf, hs⟩ | ⟨m, hf, hm⟩
  · refine ⟨⟨fun _ => hempty.mp hs, fun _ => hf⟩, ?_⟩
    rintro ⟨i, hi⟩
    rw [hempty.mp hs i] at hi
    cases hi
  · have hmo := hmem hm
    refine ⟨⟨fun h => ?_, fun h => ?_⟩,
      fun _ => ⟨⟨m, lt_of_mem_occupied hmo⟩, hf, s.occupied_eq ▸ hm⟩⟩
    · rw [hf] at h
      cases h
    · rw [hempty.mpr h] at hmo
      exact absurd hmo (Set.notMem_empty m)

/-- **The bitset is a finite set**: after any calls the tiers agree, a level is in it exactly if the
last call about it was a `set`, and `highest` and `lowest` find the greatest and the least level, or
nothing when there is none. -/
theorem bitset_refines (ops : List BitOp) :
    let s := new.run ops
    s.Tiers ∧ (∀ i, s.test i = true ↔ lastOn i ops = some (.set i)) ∧ s.Finds s.highest IsGreatest ∧
      s.Finds s.lowest IsLeast := by
  have h := run_tiers new_tiers ops
  exact ⟨h, test_run ops, finds_of_spec (fun hm => hm.1) (highest_spec h),
    finds_of_spec (fun hm => hm.1) (lowest_spec h)⟩

end PriceBitset

end TradeFeed
