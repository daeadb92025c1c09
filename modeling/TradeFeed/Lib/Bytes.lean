import Mathlib.Data.List.Flatten
import Mathlib.Data.Nat.Digits.Defs
import Mathlib.Data.UInt

/-!
# Bytes

* Numbers in bytes: `ofLE` reads the bytes of a number, lowest first, and `toLE k` writes `k` of
  them; on numbers that fit and on lists of that length they are inverse. `ofBE` and `toBE` have the
  highest first.
* Streams in frames: `frames n` cuts a list into its complete pieces of length `n`.
  `Cut n l fs rest` says that `l` is the pieces `fs` and an incomplete piece `rest`; what more items
  do to a cut depends on `rest` alone (`Cut.more`, `Cut.full`).
* Searches: `search pat` finds the first place of a pattern. Once it is found, what follows does not
  matter (`search_append`). `after pat` is what follows the first place, and `splitFirst pat` gives
  what is before it too (`splitFirst_eq_some_iff`).
-/

namespace TradeFeed.Lib.Bytes

/-! ### Numbers -/

/-- The number that bytes stand for, lowest byte first. -/
def ofLE (bs : List UInt8) : ℕ := Nat.ofDigits 256 (bs.map UInt8.toNat)

/-- The lowest `k` bytes of a number, lowest byte first. -/
def toLE : ℕ → ℕ → List UInt8
  | 0, _ => []
  | k + 1, n => UInt8.ofNat n :: toLE k (n / 256)

@[simp] theorem ofLE_nil : ofLE [] = 0 := rfl

@[simp] theorem ofLE_cons (b : UInt8) (bs : List UInt8) :
    ofLE (b :: bs) = b.toNat + 256 * ofLE bs :=
  rfl

@[simp] theorem length_toLE (k n : ℕ) : (toLE k n).length = k := by
  induction k generalizing n with
  | zero => rfl
  | succ k ih => rw [toLE, List.length_cons, ih]

theorem ofLE_lt (bs : List UInt8) : ofLE bs < 256 ^ bs.length := by
  induction bs with
  | nil => simp
  | cons b bs ih =>
    have hb : b.toNat < 256 := b.toNat_lt
    rw [ofLE_cons, List.length_cons, pow_succ]
    omega

/-- What is written is read back, up to the bytes that were left out. -/
theorem ofLE_toLE (k n : ℕ) : ofLE (toLE k n) = n % 256 ^ k := by
  induction k generalizing n with
  | zero => rw [toLE, ofLE_nil, pow_zero, Nat.mod_one]
  | succ k ih =>
    have hbyte : (UInt8.ofNat n).toNat = n % 256 := UInt8.toNat_ofNat'
    rw [toLE, ofLE_cons, ih, hbyte, pow_succ', Nat.mod_mul]

/-- What is read is written back. -/
theorem toLE_ofLE (bs : List UInt8) : toLE bs.length (ofLE bs) = bs := by
  induction bs with
  | nil => rfl
  | cons b bs ih =>
    have hb : b.toNat < 256 := b.toNat_lt
    have hdiv : (b.toNat + 256 * ofLE bs) / 256 = ofLE bs := by omega
    have hlow : UInt8.ofNat (b.toNat + 256 * ofLE bs) = b := by
      apply UInt8.toNat_inj.mp
      rw [UInt8.toNat_ofNat']
      omega
    rw [List.length_cons, ofLE_cons, toLE, hlow, hdiv, ih]

/-- The number that bytes stand for, highest byte first. -/
def ofBE (bs : List UInt8) : ℕ := ofLE bs.reverse

/-- The lowest `k` bytes of a number, highest byte first. -/
def toBE (k n : ℕ) : List UInt8 := (toLE k n).reverse

@[simp] theorem ofBE_nil : ofBE [] = 0 := rfl

@[simp] theorem length_toBE (k n : ℕ) : (toBE k n).length = k := by
  rw [toBE, List.length_reverse, length_toLE]

theorem ofBE_cons (b : UInt8) (bs : List UInt8) :
    ofBE (b :: bs) = b.toNat * 256 ^ bs.length + ofBE bs := by
  unfold ofBE ofLE
  rw [List.reverse_cons, List.map_append, Nat.ofDigits_append, List.length_map, List.length_reverse,
    List.map_singleton, Nat.ofDigits_singleton, Nat.add_comm, Nat.mul_comm]

theorem ofBE_toBE (k n : ℕ) : ofBE (toBE k n) = n % 256 ^ k := by
  rw [ofBE, toBE, List.reverse_reverse, ofLE_toLE]

/-! ### Frames -/

section Frames

variable {α : Type*} {n : ℕ} {l bs rest : List α} {fs : List (List α)}

/-- The complete pieces of length `n`, in order. -/
def frames (n : ℕ) (l : List α) : List (List α) :=
  (List.range (l.length / n)).map fun k => (l.drop (k * n)).take n

/-- A list cut into pieces of length `n` and an incomplete one. -/
structure Cut (n : ℕ) (l : List α) (fs : List (List α)) (rest : List α) : Prop where
  /-- Together they are the list. -/
  flatten : fs.flatten ++ rest = l
  /-- The pieces are complete. -/
  length : ∀ f ∈ fs, f.length = n
  /-- The rest is not. -/
  short : rest.length < n

theorem Cut.nil (hn : 0 < n) : Cut n ([] : List α) [] [] := ⟨rfl, by simp, hn⟩

/-- Items that do not complete a piece. -/
theorem Cut.more (h : Cut n l fs rest) (hlt : rest.length + bs.length < n) :
    Cut n (l ++ bs) fs (rest ++ bs) where
  flatten := by rw [← List.append_assoc, h.flatten]
  length := h.length
  short := by rwa [List.length_append]

/-- Items that complete a piece. -/
theorem Cut.full (h : Cut n l fs rest) (heq : rest.length + bs.length = n) :
    Cut n (l ++ bs) (fs ++ [rest ++ bs]) [] where
  flatten := by
    rw [List.flatten_append, List.flatten_singleton, List.append_nil,
      ← List.append_assoc, h.flatten]
  length f hf := by
    rw [List.mem_append, List.mem_singleton] at hf
    rcases hf with hf | rfl
    · exact h.length f hf
    · rw [List.length_append, heq]
  short := Nat.lt_of_le_of_lt (Nat.zero_le _) h.short

/-- The first piece is cut off first. -/
theorem frames_append {f : List α} (hn : 0 < n) (hf : f.length = n) (l : List α) :
    frames n (f ++ l) = f :: frames n l := by
  have hcount : (f ++ l).length / n = l.length / n + 1 := by
    rw [List.length_append, hf, Nat.add_comm, Nat.add_div_right _ hn]
  have hpiece : ∀ k, ((f ++ l).drop ((k + 1) * n)).take n = (l.drop (k * n)).take n := fun k => by
    rw [Nat.succ_mul, Nat.add_comm, ← hf, List.drop_length_add_append]
  have hfirst : ((f ++ l).drop (0 * n)).take n = f := by
    rw [Nat.zero_mul, List.drop_zero, ← hf, List.take_left]
  unfold frames
  rw [hcount, List.range_succ_eq_map, List.map_cons, hfirst, List.map_map]
  simp only [Function.comp_def, hpiece]

/-- **There is only one cut**, and `frames` makes it. -/
theorem Cut.frames_eq (h : Cut n l fs rest) : frames n l = fs := by
  obtain ⟨hl, hlen, hrest⟩ := h
  have hn : 0 < n := Nat.lt_of_le_of_lt (Nat.zero_le _) hrest
  subst hl
  induction fs with
  | nil =>
    rw [frames, List.flatten_nil, List.nil_append, Nat.div_eq_of_lt hrest]
    rfl
  | cons f fs ih =>
    rw [List.flatten_cons, List.append_assoc, frames_append hn (hlen f (by simp)),
      ih fun f' hf' => hlen f' (by simp [hf'])]

/-- What pieces of length `n` are put together from is found again. -/
theorem frames_flatMap {β : Type*} (hn : 0 < n) {f : β → List α} {ws : List β}
    (hf : ∀ w ∈ ws, (f w).length = n) :
    frames n (ws.flatMap f) = ws.map f := by
  have hcut : Cut n (ws.flatMap f) (ws.map f) [] := by
    refine ⟨by rw [List.append_nil, List.flatMap], fun g hg => ?_, hn⟩
    obtain ⟨w, hw, rfl⟩ := List.mem_map.mp hg
    exact hf w hw
  exact hcut.frames_eq

/-- The complete pieces of a first part are the first ones. -/
theorem frames_initial {l' : List α} (h : l' <+: l) : frames n l' <+: frames n l := by
  obtain ⟨t, rfl⟩ := h
  have hle : l'.length / n ≤ (l' ++ t).length / n := Nat.div_le_div_right (by simp)
  have hpiece : ∀ k < l'.length / n,
      ((l' ++ t).drop (k * n)).take n = (l'.drop (k * n)).take n := by
    intro k hk
    have hfit : (k + 1) * n ≤ l'.length :=
      (Nat.mul_le_mul_right n hk).trans (Nat.div_mul_le_self _ _)
    rw [Nat.succ_mul] at hfit
    rw [List.drop_append_of_le_length (by omega),
      List.take_append_of_le_length (by rw [List.length_drop]; omega)]
  obtain ⟨m, hm⟩ := Nat.exists_eq_add_of_le hle
  unfold frames
  rw [hm, List.range_add, List.map_append,
    List.map_congr_left fun k hk => (hpiece k (List.mem_range.mp hk)).symm]
  exact List.prefix_append _ _

example : frames 2 [1, 2, 3, 4, 5] = [[1, 2], [3, 4]] := rfl

/-- A stream that only one source adds to. -/
theorem flatMap_single {ι : Type*} {is : List ι} (hnd : is.Nodup) {i : ι} (hi : i ∈ is)
    {f : ι → List α} (h : ∀ j ∈ is, j ≠ i → f j = []) :
    is.flatMap f = f i := by
  obtain ⟨l₁, l₂, rfl⟩ := List.append_of_mem hi
  rw [List.nodup_middle, List.nodup_cons, List.mem_append, not_or] at hnd
  have hnil : ∀ l : List ι, (∀ j ∈ l, j ∈ l₁ ++ i :: l₂ ∧ j ≠ i) → l.flatMap f = [] := fun l hl =>
    List.flatMap_eq_nil_iff.mpr fun j hj => h j (hl j hj).1 (hl j hj).2
  rw [List.flatMap_append, List.flatMap_cons, hnil l₁, hnil l₂, List.nil_append, List.append_nil]
  · exact fun j hj => ⟨by simp [hj], by rintro rfl; exact hnd.1.2 hj⟩
  · exact fun j hj => ⟨by simp [hj], by rintro rfl; exact hnd.1.1 hj⟩

end Frames

/-! ### Searches -/

section Search

variable {α : Type*} [DecidableEq α] {pat l m p : List α} {i : ℕ}

/-- The first place at which a pattern stands in a list. -/
def search (pat : List α) : List α → Option ℕ
  | [] => if pat = [] then some 0 else none
  | a :: l => if pat <+: a :: l then some 0 else (search pat l).map (· + 1)

/-- **The first place**: the pattern stands there, and at no place before. -/
theorem search_eq_some_iff :
    search pat l = some i ↔ i ≤ l.length ∧ pat <+: l.drop i ∧ ∀ j < i, ¬ pat <+: l.drop j := by
  induction l generalizing i with
  | nil =>
    unfold search
    by_cases hpat : pat = []
    · subst hpat
      cases i <;> simp
    · simp [hpat]
  | cons a l ih =>
    unfold search
    by_cases hpre : pat <+: a :: l
    · rw [if_pos hpre]
      constructor
      · intro h
        obtain rfl : 0 = i := Option.some.inj h
        exact ⟨Nat.zero_le _, hpre, fun j hj => absurd hj (Nat.not_lt_zero j)⟩
      · rintro ⟨-, -, hnone⟩
        cases i with
        | zero => rfl
        | succ i => exact absurd hpre (hnone 0 (Nat.succ_pos i))
    · rw [if_neg hpre]
      cases i with
      | zero =>
        constructor
        · intro h
          obtain ⟨k, -, hk⟩ := Option.map_eq_some_iff.mp h
          cases hk
        · exact fun h => absurd h.2.1 hpre
      | succ i =>
        have hmap : (search pat l).map (· + 1) = some (i + 1) ↔ search pat l = some i := by
          rw [Option.map_eq_some_iff]
          exact ⟨fun ⟨k, hk, he⟩ => Nat.succ.inj he ▸ hk, fun h => ⟨i, h, rfl⟩⟩
        rw [hmap, ih, List.length_cons, List.drop_succ_cons, Nat.add_le_add_iff_right]
        refine and_congr_right fun _ =>
          and_congr_right fun _ => ⟨fun h j hj => ?_, fun h j hj => h (j + 1) (by omega)⟩
        cases j with
        | zero => exact hpre
        | succ j => exact h j (by omega)

/-- The pattern ends within the list. -/
theorem search_le (h : search pat l = some i) : i + pat.length ≤ l.length := by
  obtain ⟨hi, hpre, -⟩ := search_eq_some_iff.mp h
  have hle := hpre.length_le
  rw [List.length_drop] at hle
  omega

/-- What follows does not matter. -/
theorem search_append (h : search pat l = some i) (m : List α) : search pat (l ++ m) = some i := by
  have hle := search_le h
  obtain ⟨hi, hpre, hnone⟩ := search_eq_some_iff.mp h
  refine search_eq_some_iff.mpr ⟨?_, ?_, fun j hj hj' => hnone j hj ?_⟩
  · rw [List.length_append]
    omega
  · rw [List.drop_append_of_le_length hi]
    exact hpre.trans (List.prefix_append _ _)
  · rw [List.drop_append_of_le_length (by omega)] at hj'
    apply List.prefix_of_prefix_length_le hj' (List.prefix_append _ _)
    rw [List.length_drop]
    omega

/-- The first place of an item. -/
theorem search_singleton {a : α} (h : a ∉ m) (l : List α) :
    search [a] (m ++ a :: l) = some m.length := by
  induction m with
  | nil => rw [List.nil_append, search, if_pos (by simp), List.length_nil]
  | cons b m ih =>
    obtain ⟨hb, hm⟩ := not_or.mp (List.mem_cons.not.mp h)
    rw [List.cons_append, search, if_neg fun hpre => hb (List.cons_prefix_cons.mp hpre).1, ih hm]
    rfl

/-- What follows the first place of a pattern. -/
def after (pat l : List α) : Option (List α) := (search pat l).map fun i => l.drop (i + pat.length)

theorem after_nil (h : pat ≠ []) :
    after pat [] = none := by rw [after, search, if_neg h, Option.map_none]

theorem after_cons (a : α) (l : List α) :
    after pat (a :: l) =
      if pat <+: a :: l then some ((a :: l).drop pat.length) else after pat l := by
  unfold after
  rw [search]
  split_ifs with h
  · rw [Option.map_some, Nat.zero_add]
  · rw [Option.map_map]
    refine congrArg (fun f => (search pat l).map f) (funext fun i => ?_)
    rw [Function.comp_apply, Nat.add_right_comm, List.drop_succ_cons]

/-- Items that are not the first one of the pattern are passed over. -/
theorem after_append {a : α} (h : a ∉ m) (l : List α) :
    after (a :: pat) (m ++ l) = after (a :: pat) l := by
  induction m with
  | nil => rfl
  | cons b m ih =>
    obtain ⟨hb, hm⟩ := not_or.mp (List.mem_cons.not.mp h)
    rw [List.cons_append, after_cons,
      if_neg fun hpre => hb (List.cons_prefix_cons.mp hpre).1, ih hm]

end Search

/-! ### Splitting -/

section Split

variable {α : Type*} [DecidableEq α] {pat l m rest : List α}

/-- What is before the first place of a pattern, and what is behind it. -/
def splitFirst (pat l : List α) : Option (List α × List α) :=
  (search pat l).map fun i => (l.take i, l.drop (i + pat.length))

/-- No place of the pattern begins in `m` where the pattern follows it. -/
def Free {α : Type*} (pat m : List α) : Prop := ∀ j < m.length, ¬ pat <+: (m ++ pat).drop j

instance (pat m : List α) : Decidable (Free pat m) :=
  inferInstanceAs (Decidable (∀ j < m.length, ¬ _))

/-- **The parts** are what is free of the pattern before it, and the rest. -/
theorem splitFirst_eq_some_iff :
    splitFirst pat l = some (m, rest) ↔ l = m ++ pat ++ rest ∧ Free pat m := by
  constructor
  · intro h
    obtain ⟨i, hi, he⟩ := Option.map_eq_some_iff.mp h
    obtain ⟨rfl, rfl⟩ := Prod.mk.inj he
    obtain ⟨hle, ⟨t, ht⟩, hnone⟩ := search_eq_some_iff.mp hi
    have hrest : t = l.drop (i + pat.length) := by
      rw [← List.drop_drop, ← ht, List.drop_left]
    have hl : l = l.take i ++ pat ++ l.drop (i + pat.length) := by
      rw [List.append_assoc, ← hrest, ht, List.take_append_drop]
    refine ⟨hl, fun j hj hpre => ?_⟩
    rw [List.length_take_of_le hle] at hj
    refine hnone j hj ?_
    have hlong : j ≤ (l.take i ++ pat).length := by
      rw [List.length_append, List.length_take_of_le hle]
      omega
    rw [hl, List.drop_append_of_le_length hlong]
    exact hpre.trans (List.prefix_append _ _)
  · rintro ⟨rfl, hfree⟩
    have hi : search pat (m ++ pat) = some m.length := by
      refine search_eq_some_iff.mpr ⟨?_, ?_, hfree⟩
      · rw [List.length_append]
        exact Nat.le_add_right _ _
      · rw [List.drop_left]
    rw [splitFirst, search_append hi, Option.map_some, List.append_assoc, List.take_left,
      ← List.drop_drop, List.drop_left, List.drop_left]

end Split

section Free

variable {α : Type*} {m : List α} {a b : α}

/-- A pattern of one item. -/
theorem free_singleton_iff : Free [a] m ↔ a ∉ m := by
  constructor
  · intro h ha
    obtain ⟨x, y, rfl⟩ := List.append_of_mem ha
    refine h x.length ?_ ?_
    · simp
    · rw [List.append_assoc, List.drop_left]
      exact ⟨y ++ [a], rfl⟩
  · intro h j hj hpre
    rw [List.drop_append_of_le_length hj.le, List.drop_eq_getElem_cons hj] at hpre
    obtain rfl := (List.cons_prefix_cons.mp hpre).1
    exact h (List.getElem_mem hj)

/-- A pattern of two different items. -/
theorem free_pair_iff (hab : a ≠ b) : Free [a, b] m ↔ ¬ [a, b] <:+: m := by
  constructor
  · rintro h ⟨x, y, rfl⟩
    refine h x.length ?_ ?_
    · simp
    · rw [List.append_assoc, List.append_assoc, List.drop_left]
      exact ⟨y ++ [a, b], rfl⟩
  · intro h j hj hpre
    rw [List.drop_append_of_le_length hj.le, List.drop_eq_getElem_cons hj] at hpre
    obtain ⟨ha, hpre⟩ := List.cons_prefix_cons.mp hpre
    cases hdrop : m.drop (j + 1) with
    | nil =>
      -- the second item would be the first one
      rw [hdrop] at hpre
      exact hab (List.cons_prefix_cons.mp hpre).1.symm
    | cons c t =>
      rw [hdrop] at hpre
      obtain rfl := (List.cons_prefix_cons.mp hpre).1
      refine h ⟨m.take j, t, ?_⟩
      rw [ha, List.append_assoc]
      show m.take j ++ (m[j] :: b :: t) = m
      rw [← hdrop, ← List.drop_eq_getElem_cons hj, List.take_append_drop]

/-- Two items in a row stand in the middle, if the first is not before it and the second not behind
it. -/
theorem infix_middle {u v : List α} (hu : a ∉ u) (hv : b ∉ v) :
    [a, b] <:+: u ++ m ++ v ↔ [a, b] <:+: m := by
  have hboth : ∀ l₁ l₂ : List α, l₁ ≠ [] → l₂ ≠ [] → [a, b] = l₁ ++ l₂ → l₁ = [a] ∧ l₂ = [b] := by
    intro l₁ l₂ h₁ h₂ he
    obtain ⟨c, t, rfl⟩ := List.exists_cons_of_ne_nil h₁
    obtain ⟨rfl, ht⟩ := List.cons.inj he
    cases t with
    | nil => exact ⟨rfl, ht.symm⟩
    | cons d t =>
      have hnil : t ++ l₂ = [] := (List.cons.inj ht).2.symm
      exact absurd (List.append_eq_nil_iff.mp hnil).2 h₂
  constructor
  · intro h
    rcases List.infix_append_iff_ne_nil.mp h with h | h | ⟨l₁, l₂, h₁, h₂, he, hs, hp⟩
    · rcases List.infix_append_iff_ne_nil.mp h with h | h | ⟨l₁, l₂, h₁, h₂, he, hs, hp⟩
      · exact absurd (h.subset (by simp)) hu
      · exact h
      · obtain ⟨rfl, rfl⟩ := hboth l₁ l₂ h₁ h₂ he
        exact absurd (hs.subset (by simp)) hu
    · exact absurd (h.subset (by simp)) hv
    · obtain ⟨rfl, rfl⟩ := hboth l₁ l₂ h₁ h₂ he
      exact absurd (hp.subset (by simp)) hv
  · rintro ⟨x, y, rfl⟩
    exact ⟨u ++ x, y ++ v, by simp⟩

end Free

end TradeFeed.Lib.Bytes
