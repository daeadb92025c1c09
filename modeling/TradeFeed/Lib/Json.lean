import Mathlib.Algebra.Order.Field.Rat
import Mathlib.Data.Nat.Notation
import Mathlib.Data.UInt
import Mathlib.Tactic.Ring

/-!
# JSON texts

Values are trees (`Value`), whose strings and numbers keep the form in which they are
written; a tree that exists is well formed. A value is a sequence of tokens
(`Value.tokens`). Its compact text is their bytes one after the other (`Value.text`), and
`Spaced` says that a text is those bytes with any blanks between them.

`Value.induct` is the induction on trees that the proofs use.
-/

namespace TradeFeed.Lib.Json

/-- Every byte has a property, which is decided byte by byte. -/
def Each (p : UInt8 → Prop) (l : List UInt8) : Prop := ∀ b ∈ l, p b

instance (p : UInt8 → Prop) [DecidablePred p] (l : List UInt8) : Decidable (Each p l) :=
  List.decidableBAll p l

theorem Each.of_mem {p : UInt8 → Prop} {l : List UInt8} (h : Each p l) : ∀ b ∈ l, p b := h

@[simp] theorem each_nil (p : UInt8 → Prop) : Each p [] := fun _ h => absurd h List.not_mem_nil

/-! ### Strings -/

/-- A byte that stands for itself in a string: not a control character, a quote or a backslash. -/
def IsPlain (b : UInt8) : Prop := 32 ≤ b ∧ b ≠ 34 ∧ b ≠ 92

instance (b : UInt8) : Decidable (IsPlain b) := inferInstanceAs (Decidable (_ ∧ _))

/-- The characters behind a backslash: a quote, a backslash, a slash, and `b`, `f`, `n`, `r`,
`t`. -/
def escapes : List UInt8 := [34, 92, 47, 98, 102, 110, 114, 116]

/-- A hexadecimal digit. -/
def IsHex (b : UInt8) : Prop := (48 ≤ b ∧ b ≤ 57) ∨ (65 ≤ b ∧ b ≤ 70) ∨ (97 ≤ b ∧ b ≤ 102)

instance (b : UInt8) : Decidable (IsHex b) := inferInstanceAs (Decidable (_ ∨ _))

/-- What can stand in a string. -/
inductive StrChar where
  /-- A byte for itself. -/
  | plain (b : UInt8) (h : IsPlain b)
  /-- A backslash and a character. -/
  | escape (b : UInt8) (h : b ∈ escapes)
  /-- A backslash, `u` and four hexadecimal digits. -/
  | unicode (a b c d : UInt8) (ha : IsHex a) (hb : IsHex b) (hc : IsHex c) (hd : IsHex d)

/-- How it is written. -/
def StrChar.text : StrChar → List UInt8
  | .plain b _ => [b]
  | .escape b _ => [92, b]
  | .unicode a b c d _ _ _ _ => [92, 117, a, b, c, d]

/-- A string. -/
abbrev Str := List StrChar

/-- How it is written, between its quotes. -/
def Str.text (s : Str) : List UInt8 := s.flatMap StrChar.text

/-- The number that a hexadecimal digit stands for. -/
def hexValue (b : UInt8) : ℕ :=
  if b ≤ 57 then b.toNat - 48 else if b ≤ 70 then b.toNat - 55 else b.toNat - 87

/-- The code that is meant: an escape may stand for a control character, and `u` gives a code in
four digits. -/
def StrChar.code : StrChar → ℕ
  | .plain b _ => b.toNat
  | .escape b _ =>
    if b = 98 then 8 else if b = 102 then 12 else if b = 110 then 10 else
    if b = 114 then 13 else if b = 116 then 9 else b.toNat
  | .unicode a b c d _ _ _ _ => ((hexValue a * 16 + hexValue b) * 16 + hexValue c) * 16 + hexValue d

/-- The string is a given one, however it is written. -/
def Str.Spells (s : Str) (l : List UInt8) : Prop := s.map StrChar.code = l.map UInt8.toNat

instance (s : Str) (l : List UInt8) : Decidable (s.Spells l) := inferInstanceAs (Decidable (_ = _))

@[simp] theorem Str.text_nil : Str.text [] = [] := rfl

@[simp] theorem Str.text_cons (c : StrChar) (s : Str) : Str.text (c :: s) = c.text ++ Str.text s :=
  rfl

/-- The string of bytes that all stand for themselves. -/
def plainStr (l : List UInt8) (h : Each IsPlain l) : Str := l.pmap StrChar.plain h.of_mem

theorem text_plainStr (l : List UInt8) (h : Each IsPlain l) : (plainStr l h).text = l := by
  have hall : ∀ h : ∀ b ∈ l, IsPlain b, Str.text (l.pmap StrChar.plain h) = l := by
    clear h
    intro h
    induction l with
    | nil => rfl
    | cons b l ih => rw [List.pmap_cons, Str.text_cons, ih, StrChar.text, List.singleton_append]
  exact hall h.of_mem

theorem spells_plainStr (l : List UInt8) (h : Each IsPlain l) : (plainStr l h).Spells l := by
  rw [Str.Spells, plainStr, List.map_pmap]
  exact List.pmap_eq_map h.of_mem

theorem StrChar.length_text (c : StrChar) : 1 ≤ c.text.length := by
  cases c <;> simp [StrChar.text]

/-- What is spelled is no longer than how it is written. -/
theorem Str.Spells.length_le {s : Str} {l : List UInt8} (h : s.Spells l) :
    l.length ≤ s.text.length := by
  induction s generalizing l with
  | nil =>
    obtain rfl : l = [] := List.map_eq_nil_iff.mp h.symm
    exact le_rfl
  | cons c s ih =>
    obtain ⟨b, l, rfl⟩ : ∃ b l', l = b :: l' := by
      cases l with
      | nil => cases h
      | cons b l => exact ⟨b, l, rfl⟩
    have hs := ih (List.cons.inj h).2
    have hc := c.length_text
    rw [List.length_cons, Str.text_cons, List.length_append]
    omega

/-- It is as long only where every byte stands for itself. -/
theorem Str.Spells.plain {s : Str} {l : List UInt8} (h : s.Spells l)
    (hlen : s.text.length ≤ l.length) :
    Each IsPlain l := by
  induction s generalizing l with
  | nil =>
    obtain rfl : l = [] := List.map_eq_nil_iff.mp h.symm
    exact each_nil _
  | cons c s ih =>
    obtain ⟨b, l, rfl⟩ : ∃ b l', l = b :: l' := by
      cases l with
      | nil => cases h
      | cons b l => exact ⟨b, l, rfl⟩
    obtain ⟨hcode, hs⟩ := List.cons.inj h
    have hle := length_le (s := s) hs
    rw [List.length_cons, Str.text_cons, List.length_append] at hlen
    cases c with
    | plain b' hb' =>
      obtain rfl : b' = b := UInt8.toNat_inj.mp hcode
      exact List.forall_mem_cons.mpr ⟨hb',
        ih hs (by simp only [StrChar.text, List.length_singleton] at hlen; omega)⟩
    | escape b' hb' =>
      simp only [StrChar.text, List.length_cons, List.length_nil] at hlen
      omega
    | unicode a b c d =>
      simp only [StrChar.text, List.length_cons, List.length_nil] at hlen
      omega

/-! ### Numbers -/

/-- The number that decimal digits stand for. -/
def ofDecimal (ds : List (Fin 10)) : ℕ := ds.foldl (fun n d => n * 10 + d.val) 0

/-- A decimal digit as it is written. -/
def digit (d : Fin 10) : UInt8 := UInt8.ofNat (48 + d.val)

/-- The last `k` decimal digits of a number. -/
def toDecimal : ℕ → ℕ → List (Fin 10)
  | 0, _ => []
  | k + 1, n => toDecimal k (n / 10) ++ [⟨n % 10, Nat.mod_lt _ (by decide)⟩]

/-- So many decimal digits of a number, as they are written. -/
def decimal (k n : ℕ) : List UInt8 := (toDecimal k n).map digit

theorem foldl_ofDecimal (ds : List (Fin 10)) (n : ℕ) :
    ds.foldl (fun n d => n * 10 + d.val) n = n * 10 ^ ds.length + ofDecimal ds := by
  unfold ofDecimal
  induction ds generalizing n with
  | nil => simp
  | cons d ds ih =>
    rw [List.foldl_cons, List.foldl_cons, ih, ih (0 * 10 + d.val), List.length_cons, pow_succ]
    ring

theorem ofDecimal_append (ds ds' : List (Fin 10)) :
    ofDecimal (ds ++ ds') = ofDecimal ds * 10 ^ ds'.length + ofDecimal ds' := by
  rw [ofDecimal, List.foldl_append, foldl_ofDecimal, ← ofDecimal]

theorem ofDecimal_lt (ds : List (Fin 10)) : ofDecimal ds < 10 ^ ds.length := by
  induction ds using List.reverseRecOn with
  | nil => exact one_pos
  | append_singleton ds d ih =>
    have hd := d.isLt
    have hone : ofDecimal [d] = d.val := by simp [ofDecimal]
    rw [ofDecimal_append, hone, List.length_append, List.length_singleton, pow_succ]
    omega

/-- The first digits are the quotient. -/
theorem ofDecimal_take (ds : List (Fin 10)) (k : ℕ) :
    ofDecimal (ds.take k) = ofDecimal ds / 10 ^ (ds.length - k) := by
  have hsplit : ofDecimal ds = ofDecimal (ds.take k) * 10 ^ (ds.drop k).length +
      ofDecimal (ds.drop k) := by
    rw [← ofDecimal_append, List.take_append_drop]
  have hlt := ofDecimal_lt (ds.drop k)
  rw [List.length_drop] at hsplit hlt
  rw [hsplit, Nat.mul_comm, Nat.mul_add_div (pow_pos (by decide) _), Nat.div_eq_of_lt hlt,
    Nat.add_zero]

@[simp] theorem length_toDecimal (k n : ℕ) : (toDecimal k n).length = k := by
  induction k generalizing n with
  | zero => rfl
  | succ k ih => rw [toDecimal, List.length_append, ih, List.length_singleton]

@[simp] theorem length_decimal (k n : ℕ) :
    (decimal k n).length = k := by rw [decimal, List.length_map, length_toDecimal]

theorem ofDecimal_toDecimal (k n : ℕ) : ofDecimal (toDecimal k n) = n % 10 ^ k := by
  induction k generalizing n with
  | zero => simp [toDecimal, ofDecimal, Nat.mod_one]
  | succ k ih =>
    rw [toDecimal, ofDecimal_append, ih, List.length_singleton, pow_one, pow_succ', Nat.mod_mul]
    simp only [ofDecimal, List.foldl_cons, List.foldl_nil]
    omega

/-- An exponent: `E` or `e`, perhaps a sign (true for minus), and digits. -/
structure Exponent where
  /-- Whether the letter is a capital. -/
  capital : Bool
  /-- The sign. -/
  sign : Option Bool
  /-- The digits. -/
  digits : List (Fin 10)
  /-- There is one at least. -/
  digits_ne : digits ≠ []

/-- A number. -/
structure Number where
  /-- Whether it has a minus sign. -/
  negative : Bool
  /-- The digits before the point. -/
  whole : List (Fin 10)
  /-- The digits behind the point; without them there is no point. -/
  fraction : List (Fin 10)
  /-- The exponent. -/
  exponent : Option Exponent
  /-- There is a digit before the point. -/
  whole_ne : whole ≠ []
  /-- It is not an idle zero. -/
  no_idle_zero : ∀ d ds, whole = d :: ds → ds ≠ [] → d.val ≠ 0

/-- How an exponent is written. -/
def Exponent.text (e : Exponent) : List UInt8 :=
  (if e.capital then 69 else 101) ::
    ((match e.sign with
      | some true => [45]
      | some false => [43]
      | none => []) ++ e.digits.map digit)

/-- The power of ten. -/
def Exponent.value (e : Exponent) : ℤ :=
  if e.sign = some true then -(ofDecimal e.digits) else ofDecimal e.digits

/-- How a number is written. -/
def Number.text (n : Number) : List UInt8 :=
  (if n.negative then [45] else []) ++ n.whole.map digit ++
    (if n.fraction = [] then [] else 46 :: n.fraction.map digit) ++
    (n.exponent.map Exponent.text).getD []

/-- The number that is meant. -/
def Number.value (n : Number) : ℚ :=
  (if n.negative then -1 else 1) *
    (ofDecimal n.whole + ofDecimal n.fraction / 10 ^ n.fraction.length) *
    10 ^ (n.exponent.map Exponent.value).getD 0

/-- A byte that can stand in a number: a sign, a point, a letter of an exponent or a digit. -/
def IsNumberByte (c : UInt8) : Prop := c ∈ ([43, 45, 46, 69, 101] : List UInt8) ∨ (48 ≤ c ∧ c ≤ 57)

instance (c : UInt8) : Decidable (IsNumberByte c) := inferInstanceAs (Decidable (_ ∨ _))

theorem isNumberByte_digit (d : Fin 10) : IsNumberByte (digit d) := by
  right
  revert d
  decide

theorem Exponent.mem_text {e : Exponent} {c : UInt8} (h : c ∈ e.text) : IsNumberByte c := by
  rcases List.mem_cons.mp h with rfl | h
  · left
    cases e.capital <;> decide
  · rcases List.mem_append.mp h with h | h
    · left
      revert h
      cases e.sign with
      | none => simp
      | some b => cases b <;> simp +contextual
    · obtain ⟨d, -, rfl⟩ := List.mem_map.mp h
      exact isNumberByte_digit d

theorem Number.mem_text {n : Number} {c : UInt8} (h : c ∈ n.text) : IsNumberByte c := by
  have hdigits : ∀ ds : List (Fin 10), c ∈ ds.map digit → IsNumberByte c := fun ds hc => by
    obtain ⟨d, -, rfl⟩ := List.mem_map.mp hc
    exact isNumberByte_digit d
  simp only [Number.text, List.mem_append] at h
  rcases h with ((h | h) | h) | h
  · left
    revert h
    cases n.negative <;> simp +contextual
  · exact hdigits _ h
  · split_ifs at h
    · simp at h
    · rcases List.mem_cons.mp h with rfl | h
      · exact Or.inl (by decide)
      · exact hdigits _ h
  · cases he : n.exponent with
    | none => simp [he] at h
    | some e =>
      rw [he] at h
      exact Exponent.mem_text h

theorem Number.text_ne (n : Number) : n.text ≠ [] := by
  obtain ⟨d, ds, hwhole⟩ := List.exists_cons_of_ne_nil n.whole_ne
  simp [Number.text, hwhole]

/-! ### Reading a number -/

theorem sub_zero_lt {n : ℕ} (h : 48 ≤ n ∧ n ≤ 57) : n - 48 < 10 := by omega

/-- The digits at the beginning of a text, and what follows them. -/
def spanDigits : List UInt8 → List (Fin 10) × List UInt8
  | [] => ([], [])
  | c :: l =>
    if h : 48 ≤ c.toNat ∧ c.toNat ≤ 57 then (⟨c.toNat - 48, sub_zero_lt h⟩ :: (spanDigits l).1,
      (spanDigits l).2)
    else ([], c :: l)

/-- The power of ten at the beginning of a text: an exponent, or 0. -/
def readExponent (l : List UInt8) : ℤ :=
  if l.head? = some 69 ∨ l.head? = some 101 then
    if (l.drop 1).head? = some 45 then -(ofDecimal (spanDigits (l.drop 2)).1)
    else if (l.drop 1).head? = some 43 then ofDecimal (spanDigits (l.drop 2)).1
    else ofDecimal (spanDigits (l.drop 1)).1
  else 0

/-- The digits behind a point at the beginning of a text, and what follows. -/
def readFraction (l : List UInt8) : List (Fin 10) × List UInt8 :=
  if l.head? = some 46 then spanDigits (l.drop 1) else ([], l)

/-- The number at the beginning of a text, or 0. -/
def readNumber (l : List UInt8) : ℚ :=
  let whole := spanDigits (if l.head? = some 45 then l.drop 1 else l)
  let fraction := readFraction whole.2
  (if l.head? = some 45 then -1 else 1) *
  (ofDecimal whole.1 + ofDecimal fraction.1 / 10 ^ fraction.1.length) *
    10 ^ readExponent fraction.2

section Reading

variable {rest : List UInt8}

/-- No byte of a number follows. -/
def NumberEnds (rest : List UInt8) : Prop := ∀ c, rest.head? = some c → ¬ IsNumberByte c

theorem spanDigits_stop (h : ∀ c, rest.head? = some c → ¬ (48 ≤ c.toNat ∧ c.toNat ≤ 57)) :
    spanDigits rest = ([], rest) := by
  cases rest with
  | nil => rfl
  | cons c l => rw [spanDigits, dif_neg (h c rfl)]

/-- Digits are read back. -/
theorem spanDigits_digits (ds : List (Fin 10))
    (h : ∀ c, rest.head? = some c → ¬ (48 ≤ c.toNat ∧ c.toNat ≤ 57)) :
    spanDigits (ds.map digit ++ rest) = (ds, rest) := by
  induction ds with
  | nil => exact spanDigits_stop h
  | cons d ds ih =>
    have hd : (digit d).toNat = 48 + d.val := by
      rw [digit, UInt8.toNat_ofNat']
      omega
    rw [List.map_cons, List.cons_append, spanDigits, dif_pos (by omega), ih]
    simp [hd]

theorem NumberEnds.not_digit (h : NumberEnds rest) :
    ∀ c, rest.head? = some c → ¬ (48 ≤ c.toNat ∧ c.toNat ≤ 57) :=
  fun c hc hd => h c hc (Or.inr hd)

/-- The first byte of some digits. -/
theorem head?_digits {ds : List (Fin 10)} (h : ds ≠ []) (l : List UInt8) :
    ∃ d : Fin 10, (ds.map digit ++ l).head? = some (digit d) := by
  obtain ⟨d, ds, rfl⟩ := List.exists_cons_of_ne_nil h
  exact ⟨d, rfl⟩

theorem digit_ne (d : Fin 10) {c : UInt8} (h : ¬ (48 ≤ c ∧ c ≤ 57)) : digit d ≠ c := by
  rintro rfl
  revert d
  decide

/-- An exponent is read back. -/
theorem readExponent_text (e : Option Exponent) (h : NumberEnds rest) :
    readExponent ((e.map Exponent.text).getD [] ++ rest) = (e.map Exponent.value).getD 0 := by
  cases e with
  | none =>
    apply if_neg
    rintro (h' | h') <;> exact h _ h' (by decide)
  | some e =>
    obtain ⟨d, hd⟩ := head?_digits e.digits_ne rest
    have hletter : (if e.capital then (69 : UInt8) else 101) = 69 ∨
        (if e.capital then (69 : UInt8) else 101) = 101 := by
      cases e.capital <;> simp
    have hspan := spanDigits_digits e.digits h.not_digit
    simp only [Option.map_some, Option.getD_some, Exponent.text, Exponent.value, List.cons_append,
      readExponent, List.head?_cons, Option.some.injEq, if_pos hletter, List.drop_succ_cons,
      List.drop_zero]
    cases e.sign with
    | none => simp [hd, digit_ne d, hspan]
    | some b => cases b <;> simp [hspan]

/-- A fraction is read back. -/
theorem readFraction_text (ds : List (Fin 10))
    (h : ∀ c, rest.head? = some c → c ≠ 46 ∧ ¬ (48 ≤ c.toNat ∧ c.toNat ≤ 57)) :
    readFraction ((if ds = [] then [] else 46 :: ds.map digit) ++ rest) = (ds, rest) := by
  split_ifs with hds
  · rw [List.nil_append, readFraction, if_neg fun hc => (h 46 hc).1 rfl, hds]
  · rw [List.cons_append, readFraction, if_pos (by rfl), List.drop_succ_cons, List.drop_zero,
      spanDigits_digits ds fun c hc => (h c hc).2]

/-- **A number is read back**, whatever follows that no number goes on with. -/
theorem readNumber_text (n : Number) (h : NumberEnds rest) :
    readNumber (n.text ++ rest) = n.value := by
  -- what the digits before the point are followed by, and those behind it
  have hexp : ∀ c, ((n.exponent.map Exponent.text).getD [] ++ rest).head? = some c →
      c ≠ 46 ∧ ¬ (48 ≤ c.toNat ∧ c.toNat ≤ 57) := by
    intro c hc
    cases he : n.exponent with
    | none =>
      rw [he] at hc
      exact ⟨fun h46 => h c hc (h46 ▸ by decide), h.not_digit c hc⟩
    | some e =>
      rw [he] at hc
      obtain rfl : (if e.capital then 69 else 101) = c := Option.some.inj hc
      cases e.capital <;> decide
  have hfrac : ∀ c,
      ((if n.fraction = [] then [] else 46 :: n.fraction.map digit) ++
      ((n.exponent.map Exponent.text).getD [] ++ rest)).head? = some c →
      ¬ (48 ≤ c.toNat ∧ c.toNat ≤ 57) := by
    intro c hc
    split_ifs at hc
    · exact (hexp c hc).2
    · obtain rfl := Option.some.inj hc
      decide
  have hwhole := spanDigits_digits n.whole hfrac
  obtain ⟨d, hd⟩ := head?_digits n.whole_ne
    ((if n.fraction = [] then [] else 46 :: n.fraction.map digit) ++
      ((n.exponent.map Exponent.text).getD [] ++ rest))
  have htext : n.text ++ rest = (if n.negative then [45] else []) ++
      (n.whole.map digit ++ ((if n.fraction = [] then [] else 46 :: n.fraction.map digit) ++
      ((n.exponent.map Exponent.text).getD [] ++ rest))) := by
    simp only [Number.text, List.append_assoc]
  have hneg : (n.text ++ rest).head? = some 45 ↔ n.negative = true := by
    rw [htext]
    cases n.negative with
    | false => simpa [hd] using digit_ne d (by decide)
    | true => simp
  have hspan : spanDigits (if (n.text ++ rest).head? = some 45 then (n.text ++ rest).drop 1
    else n.text ++ rest) =
      (n.whole, (if n.fraction = [] then [] else 46 :: n.fraction.map digit) ++
        ((n.exponent.map Exponent.text).getD [] ++ rest)) := by
    rw [← hwhole, if_congr hneg rfl rfl, htext]
    cases n.negative <;> rfl
  rw [readNumber, hspan]
  simp only [readFraction_text n.fraction hexp, readExponent_text n.exponent h, hneg, Number.value]

/-- A text that does not begin with a number is read as 0. -/
theorem readNumber_eq_zero {l : List UInt8}
    (h : ∀ c, l.head? = some c → c ≠ 45 ∧ c ≠ 46 ∧ ¬ (48 ≤ c.toNat ∧ c.toNat ≤ 57)) :
    readNumber l = 0 := by
  have hminus : ¬ l.head? = some 45 := fun hc => (h 45 hc).1 rfl
  have hpoint : ¬ l.head? = some 46 := fun hc => (h 46 hc).2.1 rfl
  have hspan := spanDigits_stop fun c hc => (h c hc).2.2
  simp [readNumber, readFraction, hminus, hpoint, hspan, ofDecimal]

end Reading

/-! ### Values -/

/-- A value that is a word. -/
inductive Literal where
  /-- `null`. -/
  | null
  /-- `true`. -/
  | yes
  /-- `false`. -/
  | no

/-- How it is written. -/
def Literal.text : Literal → List UInt8
  | .null => [110, 117, 108, 108]
  | .yes => [116, 114, 117, 101]
  | .no => [102, 97, 108, 115, 101]

/-- A value. -/
inductive Value where
  /-- A word. -/
  | literal (l : Literal)
  /-- A number. -/
  | number (n : Number)
  /-- A string. -/
  | string (s : Str)
  /-- An array. -/
  | array (items : List Value)
  /-- An object. -/
  | object (members : List (Str × Value))

/-- **Induction** on values. -/
@[elab_as_elim]
theorem Value.induct {P : Value → Prop} (literal : ∀ l, P (.literal l))
    (number : ∀ n, P (.number n)) (string : ∀ s, P (.string s))
    (array : ∀ items : List Value, (∀ v ∈ items, P v) → P (.array items))
    (object : ∀ members : List (Str × Value), (∀ m ∈ members, P m.2) → P (.object members))
    (v : Value) :
    P v :=
  @Value.rec P (fun items => ∀ v ∈ items, P v) (fun ms => ∀ m ∈ ms, P m.2) (fun m => P m.2)
    literal number string array object (by simp)
    (fun v vs hv hvs => by simpa using ⟨hv, hvs⟩) (by simp)
    (fun m ms hm hms => List.forall_mem_cons.mpr ⟨hm, hms⟩) (fun _ _ hv => hv) v

/-- A token. -/
inductive Token where
  /-- An opening brace. -/
  | lbrace
  /-- A closing brace. -/
  | rbrace
  /-- An opening bracket. -/
  | lbracket
  /-- A closing bracket. -/
  | rbracket
  /-- A colon. -/
  | colon
  /-- A comma. -/
  | comma
  /-- A word. -/
  | literal (l : Literal)
  /-- A number. -/
  | number (n : Number)
  /-- A string. -/
  | string (s : Str)

/-- How a token is written. -/
def Token.text : Token → List UInt8
  | .lbrace => [123]
  | .rbrace => [125]
  | .lbracket => [91]
  | .rbracket => [93]
  | .colon => [58]
  | .comma => [44]
  | .literal l => l.text
  | .number n => n.text
  | .string s => 34 :: (s.text ++ [34])

mutual

/-- The tokens of a value. -/
def Value.tokens : Value → List Token
  | .literal l => [.literal l]
  | .number n => [.number n]
  | .string s => [.string s]
  | .array items => .lbracket :: (itemsTokens true items ++ [.rbracket])
  | .object members => .lbrace :: (membersTokens true members ++ [.rbrace])

/-- Those of items, with a comma before all of them but the first of an array. -/
def itemsTokens (first : Bool) : List Value → List Token
  | [] => []
  | v :: vs => (if first then [] else [.comma]) ++ v.tokens ++ itemsTokens false vs

/-- Those of members, with a comma before all of them but the first of an object. -/
def membersTokens (first : Bool) : List (Str × Value) → List Token
  | [] => []
  | (k, v) :: ms => (if first then [] else [.comma]) ++ .string k :: .colon :: v.tokens ++
    membersTokens false ms

end

/-- The compact text of some tokens. -/
def tokensText (ts : List Token) : List UInt8 := ts.flatMap Token.text

/-- The compact text of a value. -/
def Value.text (v : Value) : List UInt8 := tokensText v.tokens

theorem tokensText_append (ts ts' : List Token) :
    tokensText (ts ++ ts') = tokensText ts ++ tokensText ts' :=
  List.flatMap_append

theorem Value.text_array (items : List Value) :
    (Value.array items).text = 91 :: (tokensText (itemsTokens true items) ++ [93]) := by
  rw [Value.text, Value.tokens, tokensText, List.flatMap_cons, ← tokensText, tokensText_append]
  rfl

theorem Value.text_object (members : List (Str × Value)) :
    (Value.object members).text = 123 :: (tokensText (membersTokens true members) ++ [125]) := by
  rw [Value.text, Value.tokens, tokensText, List.flatMap_cons, ← tokensText, tokensText_append]
  rfl

theorem Value.text_literal (l : Literal) : (Value.literal l).text = l.text := List.append_nil _

theorem Value.text_number (n : Number) : (Value.number n).text = n.text := List.append_nil _

theorem Value.text_string (s : Str) : (Value.string s).text = 34 :: (s.text ++ [34]) :=
  List.append_nil _

/-- The comma before items and members, but for the first one. -/
def comma (first : Bool) : List UInt8 := if first then [] else [44]

theorem tokensText_comma (first : Bool) :
    tokensText (if first then [] else [.comma]) = comma first := by
  cases first <;> rfl

theorem itemsText_cons (first : Bool) (v : Value) (vs : List Value) :
    tokensText (itemsTokens first (v :: vs)) = comma first ++
      (v.text ++ tokensText (itemsTokens false vs)) := by
  rw [itemsTokens, tokensText_append, tokensText_append, List.append_assoc,
    tokensText_comma, Value.text]

theorem membersText_cons (first : Bool) (k : Str) (v : Value) (ms : List (Str × Value)) :
    tokensText (membersTokens first ((k, v) :: ms)) =
      comma first ++ ((Token.string k).text ++ 58 ::
        (v.text ++ tokensText (membersTokens false ms))) := by
  rw [membersTokens, tokensText_append, tokensText_append, tokensText_comma, Value.text,
    List.append_assoc, tokensText, List.flatMap_cons, List.flatMap_cons, ← tokensText,
    List.append_assoc]
  rfl

/-- The number that a value is, or 0. -/
def Value.numeral : Value → ℚ
  | .number n => n.value
  | _ => 0

/-- **The number of a value is read** from its text: 0 if it is none. -/
theorem readNumber_value (v : Value) {rest : List UInt8} (h : NumberEnds rest) :
    readNumber (v.text ++ rest) = v.numeral := by
  have hzero : ∀ (c : UInt8) l, (c ≠ 45 ∧ c ≠ 46 ∧ ¬ (48 ≤ c.toNat ∧ c.toNat ≤ 57)) →
      readNumber (c :: l) = 0 := fun c l hc =>
    readNumber_eq_zero fun c' hc' => by
      obtain rfl := Option.some.inj hc'
      exact hc
  cases v with
  | literal l =>
    rw [Value.text_literal]
    cases l <;> exact hzero _ _ (by decide)
  | number n => rw [Value.text_number, readNumber_text n h, Value.numeral]
  | string s =>
    rw [Value.text_string]
    exact hzero _ _ (by decide)
  | array items =>
    rw [Value.text_array]
    exact hzero _ _ (by decide)
  | object ms =>
    rw [Value.text_object]
    exact hzero _ _ (by decide)

/-! ### Members -/

mutual

/-- The members of a value and of the values in it, in the order in which they are written. -/
def Value.members : Value → List (Str × Value)
  | .literal _ | .number _ | .string _ => []
  | .array items => itemsMembers items
  | .object ms => membersMembers ms

/-- Those of items. -/
def itemsMembers : List Value → List (Str × Value)
  | [] => []
  | v :: vs => v.members ++ itemsMembers vs

/-- Members, each with those of its value. -/
def membersMembers : List (Str × Value) → List (Str × Value)
  | [] => []
  | (k, v) :: ms => (k, v) :: (v.members ++ membersMembers ms)

end

/-- What can stand behind a value in a compact text. -/
def Ends (rest : List UInt8) : Prop := ∀ c, rest.head? = some c → c = 44 ∨ c = 93 ∨ c = 125

theorem Ends.numberEnds {rest : List UInt8} (h : Ends rest) : NumberEnds rest := fun c hc => by
  rcases h c hc with rfl | rfl | rfl <;> decide

theorem ends_nil : Ends [] := fun _ h => nomatch h

theorem ends_cons {c : UInt8} (h : c = 44 ∨ c = 93 ∨ c = 125) (rest : List UInt8) :
    Ends (c :: rest) := fun _ hc => by
  obtain rfl := Option.some.inj hc
  exact h

theorem ends_items (vs : List Value) {rest : List UInt8} (h : Ends rest) :
    Ends (tokensText (itemsTokens false vs) ++ rest) := by
  cases vs with
  | nil => exact h
  | cons v vs =>
    rw [itemsText_cons]
    exact ends_cons (Or.inl rfl) _

theorem ends_members (ms : List (Str × Value)) {rest : List UInt8} (h : Ends rest) :
    Ends (tokensText (membersTokens false ms) ++ rest) := by
  cases ms with
  | nil => exact h
  | cons m ms =>
    obtain ⟨k, v⟩ := m
    rw [membersText_cons]
    exact ends_cons (Or.inl rfl) _

/-! ### Texts with blanks -/

/-- Spaces, tabs and the ends of lines. -/
def Blank (w : List UInt8) : Prop := Each (fun b => b = 32 ∨ b = 9 ∨ b = 10 ∨ b = 13) w

instance (w : List UInt8) : Decidable (Blank w) := inferInstanceAs (Decidable (Each _ w))

/-- The text is made of the pieces, with any blanks before, between and behind them. -/
inductive Spaced : List (List UInt8) → List UInt8 → Prop
  /-- No pieces. -/
  | nil {w : List UInt8} (hw : Blank w) : Spaced [] w
  /-- A piece, and the others. -/
  | cons {w piece text : List UInt8} {pieces : List (List UInt8)} (hw : Blank w)
    (h : Spaced pieces text) :
    Spaced (piece :: pieces) (w ++ piece ++ text)

/-- A text without blanks. -/
theorem Spaced.flatten (pieces : List (List UInt8)) : Spaced pieces pieces.flatten := by
  induction pieces with
  | nil => exact .nil (by simp [Blank])
  | cons piece pieces ih => exact .cons (w := []) (by simp [Blank]) ih

/-- The text of the pieces `a` and `b` is one of `a` and one of `b`. -/
theorem Spaced.split {a b : List (List UInt8)} {text : List UInt8} (h : Spaced (a ++ b) text) :
    ∃ s t, text = s ++ t ∧ Spaced a s ∧ Spaced b t := by
  induction a generalizing text with
  | nil => exact ⟨[], text, rfl, .nil (by simp [Blank]), h⟩
  | cons piece a ih =>
    cases h with
    | cons hw h =>
      obtain ⟨s, t, rfl, hs, ht⟩ := ih h
      exact ⟨_, t, by simp, .cons hw hs, ht⟩

/-- Blanks make a text longer. -/
theorem Spaced.length_le {pieces : List (List UInt8)} {text : List UInt8} (h : Spaced pieces text) :
    pieces.flatten.length ≤ text.length := by
  induction h with
  | nil hw => exact Nat.zero_le _
  | cons hw h ih =>
    simp only [List.flatten_cons, List.length_append]
    omega

/-- The texts of an object, from its opening brace to its closing one. -/
def IsObject (text : List UInt8) : Prop :=
  ∃ (members : List (Str × Value)) (inner : List UInt8),
    Spaced ((membersTokens true members).map Token.text) inner ∧ text = 123 :: (inner ++ [125])

/-- The compact text of an object is one of them. -/
theorem isObject_text (members : List (Str × Value)) : IsObject (Value.object members).text := by
  refine ⟨members, _, Spaced.flatten _, ?_⟩
  simp [Value.text, tokensText, Value.tokens, List.flatMap, Token.text]

end TradeFeed.Lib.Json
