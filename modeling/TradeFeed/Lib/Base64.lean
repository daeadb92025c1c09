import Mathlib.Data.List.FinRange
import Mathlib.Data.UInt

/-!
# Bytes in 64 letters

Three bytes are written as four letters, of six bits each; what is left at the end is filled up with
zero bits, and with a padding character for each letter that is missing. `decode` is strict: it
takes padding only at the end, and only where the bits filled in are zero. It reads back what
`encode` writes (`decode_encode`), for any alphabet.
-/

namespace TradeFeed.Lib.Base64

/-- 64 letters, and a padding character that is none of them. -/
structure Alphabet where
  /-- The letters. -/
  letter : Fin 64 → UInt8
  /-- The padding. -/
  pad : UInt8
  /-- The letters are told apart. -/
  injective : Function.Injective letter
  /-- The padding is told from them. -/
  letter_ne : ∀ i, letter i ≠ pad

namespace Alphabet

variable (A : Alphabet)

/-- The letter of the six lowest bits. -/
def write (n : ℕ) : UInt8 := A.letter (Fin.ofNat 64 n)

/-- The bits of a letter. -/
def read (c : UInt8) : Option (Fin 64) := (List.finRange 64).find? fun i => A.letter i = c

theorem read_write {n : ℕ} (h : n < 64) : A.read (A.write n) = some ⟨n, h⟩ := by
  have hn : Fin.ofNat 64 n = ⟨n, h⟩ := Fin.ext (Nat.mod_eq_of_lt h)
  rw [read, write, hn]
  cases hfind : (List.finRange 64).find? fun i => A.letter i = A.letter ⟨n, h⟩ with
  | none => simpa using List.find?_eq_none.mp hfind ⟨n, h⟩ (List.mem_finRange _)
  | some i => exact congrArg some (A.injective (by simpa using List.find?_some hfind))

theorem write_ne (n : ℕ) : A.write n ≠ A.pad := A.letter_ne _

/-- Bytes as letters. -/
def encode : List UInt8 → List UInt8
  | [] => []
  | [a] => [A.write (a.toNat / 4), A.write (a.toNat % 4 * 16), A.pad, A.pad]
  | [a, b] => [A.write (a.toNat / 4), A.write (a.toNat % 4 * 16 + b.toNat / 16),
    A.write (b.toNat % 16 * 4), A.pad]
  | a :: b :: c :: bs =>
    [A.write (a.toNat / 4), A.write (a.toNat % 4 * 16 + b.toNat / 16),
      A.write (b.toNat % 16 * 4 + c.toNat / 64), A.write (c.toNat % 64)] ++ encode bs

/-- The byte that begins with a letter and ends in the next one. -/
def first (w x : Fin 64) : UInt8 := UInt8.ofNat (w * 4 + x / 16)

/-- The second byte. -/
def second (x y : Fin 64) : UInt8 := UInt8.ofNat (x % 16 * 16 + y / 4)

/-- The third byte. -/
def third (y z : Fin 64) : UInt8 := UInt8.ofNat (y % 4 * 64 + z)

theorem first_eq {w x : Fin 64} {a : UInt8} (hw : w.val = a.toNat / 4)
    (hx : x.val / 16 = a.toNat % 4) :
    first w x = a := by
  rw [first, hw, hx, show a.toNat / 4 * 4 + a.toNat % 4 = a.toNat by omega, UInt8.ofNat_toNat]

theorem second_eq {x y : Fin 64} {b : UInt8} (hx : x.val % 16 = b.toNat / 16)
    (hy : y.val / 4 = b.toNat % 16) :
    second x y = b := by
  rw [second, hx, hy, show b.toNat / 16 * 16 + b.toNat % 16 = b.toNat by omega, UInt8.ofNat_toNat]

theorem third_eq {y z : Fin 64} {c : UInt8} (hy : y.val % 4 = c.toNat / 64)
    (hz : z.val = c.toNat % 64) :
    third y z = c := by
  rw [third, hy, hz, show c.toNat / 64 * 64 + c.toNat % 64 = c.toNat by omega, UInt8.ofNat_toNat]

/-- Letters as bytes. -/
def decode : List UInt8 → Option (List UInt8)
  | [] => some []
  | w :: x :: y :: z :: rest => do
    let w ← A.read w
    let x ← A.read x
    if y = A.pad then
      if z = A.pad ∧ rest = [] ∧ x.val % 16 = 0 then return [first w x] else none
    else
      let y ← A.read y
      if z = A.pad then
        if rest = [] ∧ y.val % 4 = 0 then return [first w x, second x y] else none
      else
        let z ← A.read z
        let bs ← decode rest
        return first w x :: second x y :: third y z :: bs
  | _ => none

/-- **The bytes are read back.** -/
theorem decode_encode (bs : List UInt8) : A.decode (A.encode bs) = some bs := by
  induction bs using encode.induct with
  | case1 => rfl
  | case2 a =>
    have ha := a.toNat_lt
    have hw : a.toNat / 4 < 64 := by omega
    have hx : a.toNat % 4 * 16 < 64 := by omega
    have h₁ : first ⟨_, hw⟩ ⟨_, hx⟩ = a := first_eq rfl (Nat.mul_div_cancel _ (by decide))
    rw [encode, decode, A.read_write hw, A.read_write hx]
    simp [h₁]
  | case3 a b =>
    have ha := a.toNat_lt
    have hb := b.toNat_lt
    have hw : a.toNat / 4 < 64 := by omega
    have hx : a.toNat % 4 * 16 + b.toNat / 16 < 64 := by omega
    have hy : b.toNat % 16 * 4 < 64 := by omega
    have h₁ : first ⟨_, hw⟩ ⟨_, hx⟩ = a := first_eq rfl (by dsimp only; omega)
    have h₂ : second ⟨_, hx⟩ ⟨_, hy⟩ = b :=
      second_eq (by dsimp only; omega) (Nat.mul_div_cancel _ (by decide))
    rw [encode, decode, A.read_write hw, A.read_write hx, A.read_write hy]
    simp [A.write_ne, h₁, h₂]
  | case4 a b c bs ih =>
    have ha := a.toNat_lt
    have hb := b.toNat_lt
    have hc := c.toNat_lt
    have hw : a.toNat / 4 < 64 := by omega
    have hx : a.toNat % 4 * 16 + b.toNat / 16 < 64 := by omega
    have hy : b.toNat % 16 * 4 + c.toNat / 64 < 64 := by omega
    have hz : c.toNat % 64 < 64 := by omega
    have h₁ : first ⟨_, hw⟩ ⟨_, hx⟩ = a := first_eq rfl (by dsimp only; omega)
    have h₂ : second ⟨_, hx⟩ ⟨_, hy⟩ = b := second_eq (by dsimp only; omega) (by dsimp only; omega)
    have h₃ : third ⟨_, hy⟩ ⟨_, hz⟩ = c := third_eq (by dsimp only; omega) rfl
    rw [encode, List.cons_append, List.cons_append, List.cons_append, List.cons_append, decode,
      A.read_write hw, A.read_write hx, A.read_write hy, A.read_write hz, List.nil_append, ih]
    simp [A.write_ne, h₁, h₂, h₃]

/-- What is written are letters and padding. -/
theorem mem_encode {bs : List UInt8} {c : UInt8} (h : c ∈ A.encode bs) :
    c = A.pad ∨ ∃ i, c = A.letter i := by
  have hw : ∀ n, A.write n = A.pad ∨ ∃ i, A.write n = A.letter i := fun n => .inr ⟨_, rfl⟩
  induction bs using encode.induct with
  | case1 => exact absurd h List.not_mem_nil
  | case2 a =>
    simp only [encode, List.mem_cons, List.not_mem_nil, or_false] at h
    rcases h with rfl | rfl | rfl | rfl
    · exact hw _
    · exact hw _
    · exact .inl rfl
    · exact .inl rfl
  | case3 a b =>
    simp only [encode, List.mem_cons, List.not_mem_nil, or_false] at h
    rcases h with rfl | rfl | rfl | rfl
    · exact hw _
    · exact hw _
    · exact hw _
    · exact .inl rfl
  | case4 a b c' bs ih =>
    simp only [encode, List.mem_append, List.mem_cons, List.not_mem_nil, or_false] at h
    rcases h with (rfl | rfl | rfl | rfl) | h
    · exact hw _
    · exact hw _
    · exact hw _
    · exact hw _
    · exact ih h

end Alphabet

end TradeFeed.Lib.Base64
