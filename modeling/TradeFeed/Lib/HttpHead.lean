import TradeFeed.Lib.Bytes

/-!
# Heads of HTTP requests

A head is a request line, of a method, a target and a version with a space between them, and lines
with the fields, each of a name, a colon and a space, and a value; every line ends in CR LF, and an
empty one ends the head.

`Head.read` reads a head from the beginning of a text. Nothing is escaped in a head, so a part that
has a separator in it is read as something else: the heads that are read back are exactly the well
formed ones (`Head.read_eq_some_iff`).
-/

namespace TradeFeed.Lib.Http

open Bytes

/-- CR LF. -/
def crlf : List UInt8 := [13, 10]

/-- A colon and a space. -/
def colon : List UInt8 := [58, 32]

/-- A field: a name and a value. -/
abbrev Field := List UInt8 × List UInt8

/-- The head of a request. -/
structure Head where
  /-- The method. -/
  method : List UInt8
  /-- The target. -/
  target : List UInt8
  /-- The version. -/
  version : List UInt8
  /-- The fields. -/
  fields : List Field
  deriving DecidableEq

/-- The line of a field. -/
def Field.line (f : Field) : List UInt8 := f.1 ++ colon ++ f.2

/-- The lines of fields, and the empty line. -/
def fieldsText (fs : List Field) : List UInt8 := fs.flatMap (fun f => Field.line f ++ crlf) ++ crlf

/-- The request line. -/
def Head.line (h : Head) : List UInt8 := h.method ++ [32] ++ (h.target ++ [32] ++ h.version)

/-- How a head is written. -/
def Head.text (h : Head) : List UInt8 := h.line ++ crlf ++ fieldsText h.fields

/-- A field that does not end early: neither its name nor its line. -/
def Field.WellFormed (f : Field) : Prop := Free colon f.1 ∧ ¬ crlf <:+: Field.line f

/-- A head no part of which ends early. -/
structure Head.WellFormed (h : Head) : Prop where
  /-- The method. -/
  method : 32 ∉ h.method
  /-- The target. -/
  target : 32 ∉ h.target
  /-- The line. -/
  line : ¬ crlf <:+: h.line
  /-- The fields. -/
  fields : ∀ f ∈ h.fields, Field.WellFormed f

/-- The fields at the beginning of a text, up to the empty line, if there are fewer than `n`, and
what is behind them. -/
def readFields : ℕ → List UInt8 → Option (List Field × List UInt8)
  | 0, _ => none
  | n + 1, bs => do
    let (line, bs) ← splitFirst crlf bs
    if line = [] then return ([], bs)
    else
      let f ← splitFirst colon line
      let (fs, bs) ← readFields n bs
      return (f :: fs, bs)

/-- The head at the beginning of a text, and what is behind it. -/
def Head.read (bs : List UInt8) : Option (Head × List UInt8) := do
  let (line, rest) ← splitFirst crlf bs
  let (method, line) ← splitFirst [32] line
  let (target, version) ← splitFirst [32] line
  let (fields, rest) ← readFields (rest.length + 1) rest
  return (⟨method, target, version, fields⟩, rest)

section Read

variable {bs rest : List UInt8} {fs : List Field} {n : ℕ}

theorem free_crlf_iff {m : List UInt8} : Free crlf m ↔ ¬ crlf <:+: m := free_pair_iff (by decide)

theorem fieldsText_cons (f : Field) (fs : List Field) :
    fieldsText (f :: fs) = Field.line f ++ crlf ++ fieldsText fs := by
  rw [fieldsText, List.flatMap_cons, List.append_assoc, ← fieldsText]

theorem Field.line_ne (f : Field) : Field.line f ≠ [] := by
  simp [Field.line, colon]

/-- Fields that are read are well formed, and are written as they were. -/
theorem readFields_sound (h : readFields n bs = some (fs, rest)) :
    bs = fieldsText fs ++ rest ∧ ∀ f ∈ fs, Field.WellFormed f := by
  induction n generalizing bs fs with
  | zero => cases h
  | succ n ih =>
    simp only [readFields, Option.bind_eq_bind, Option.bind_eq_some_iff, Prod.exists] at h
    obtain ⟨line, bs', hline, h⟩ := h
    obtain ⟨rfl, hfree⟩ := splitFirst_eq_some_iff.mp hline
    split_ifs at h with hnil
    · obtain ⟨rfl, rfl⟩ := Prod.mk.inj (Option.some.inj h)
      subst hnil
      exact ⟨rfl, nofun⟩
    · simp only [Option.bind_eq_some_iff, Prod.exists] at h
      obtain ⟨name, value, hf, fs', rest', hfs, h⟩ := h
      obtain ⟨rfl, hname⟩ := splitFirst_eq_some_iff.mp hf
      obtain ⟨rfl, rfl⟩ := Prod.mk.inj (Option.some.inj h)
      obtain ⟨rfl, hall⟩ := ih hfs
      refine ⟨?_, List.forall_mem_cons.mpr ⟨⟨hname, free_crlf_iff.mp hfree⟩, hall⟩⟩
      rw [fieldsText_cons, Field.line]
      simp only [List.append_assoc]

/-- Well-formed fields are read back. -/
theorem readFields_text (hn : fs.length < n) (hfs : ∀ f ∈ fs, Field.WellFormed f)
    (rest : List UInt8) :
    readFields n (fieldsText fs ++ rest) = some (fs, rest) := by
  induction fs generalizing n with
  | nil =>
    obtain ⟨n, rfl⟩ := Nat.exists_eq_succ_of_ne_zero (Nat.ne_of_gt hn)
    have hline : splitFirst crlf (crlf ++ rest) = some ([], rest) :=
      splitFirst_eq_some_iff.mpr ⟨rfl, fun j hj => absurd hj (Nat.not_lt_zero j)⟩
    show readFields (n + 1) (crlf ++ rest) = _
    simp [readFields, hline]
  | cons f fs ih =>
    obtain ⟨n, rfl⟩ := Nat.exists_eq_succ_of_ne_zero (Nat.ne_of_gt (Nat.zero_lt_of_lt hn))
    obtain ⟨hf, hfs⟩ := List.forall_mem_cons.mp hfs
    have hline : splitFirst crlf (fieldsText (f :: fs) ++ rest) = some (Field.line f,
        fieldsText fs ++ rest) :=
      splitFirst_eq_some_iff.mpr ⟨by rw [fieldsText_cons, List.append_assoc],
        free_crlf_iff.mpr hf.2⟩
    have hname : splitFirst colon (Field.line f) = some f := splitFirst_eq_some_iff.mpr ⟨rfl, hf.1⟩
    simp only [readFields, hline, Option.bind_eq_bind, Option.bind_some, if_neg (Field.line_ne f),
      hname, ih (Nat.lt_of_succ_lt_succ hn) hfs]
    rfl

theorem length_fieldsText (fs : List Field) : fs.length ≤ (fieldsText fs).length := by
  induction fs with
  | nil => exact Nat.zero_le _
  | cons f fs ih =>
    rw [fieldsText_cons, List.length_append, List.length_append, List.length_cons]
    have : crlf.length = 2 := rfl
    omega

/-- **A head is read back exactly when it is well formed.** -/
theorem Head.read_eq_some_iff {h : Head} :
    Head.read bs = some (h, rest) ↔ bs = h.text ++ rest ∧ h.WellFormed := by
  constructor
  · intro hread
    simp only [Head.read, Option.bind_eq_bind, Option.bind_eq_some_iff, Prod.exists] at hread
    obtain ⟨line, bs', hline, method, line', hmethod, target, version, htarget, fields, rest',
      hfields, hread⟩ := hread
    obtain ⟨rfl, hclear⟩ := splitFirst_eq_some_iff.mp hline
    obtain ⟨rfl, hspace⟩ := splitFirst_eq_some_iff.mp hmethod
    obtain ⟨rfl, hspace'⟩ := splitFirst_eq_some_iff.mp htarget
    obtain ⟨rfl, rfl⟩ := Prod.mk.inj (Option.some.inj hread)
    obtain ⟨rfl, hall⟩ := readFields_sound hfields
    refine ⟨?_, free_singleton_iff.mp hspace, free_singleton_iff.mp hspace',
      free_crlf_iff.mp hclear, hall⟩
    simp only [Head.text, Head.line, List.append_assoc]
  · rintro ⟨rfl, hmethod, htarget, hline, hfields⟩
    have hsplit : splitFirst crlf (h.text ++ rest) = some (h.line, fieldsText h.fields ++ rest) :=
      splitFirst_eq_some_iff.mpr ⟨by rw [Head.text]; simp only [List.append_assoc],
        free_crlf_iff.mpr hline⟩
    have hsplit' : splitFirst [32] h.line = some (h.method, h.target ++ [32] ++ h.version) :=
      splitFirst_eq_some_iff.mpr ⟨rfl, free_singleton_iff.mpr hmethod⟩
    have hsplit'' : splitFirst [32] (h.target ++ [32] ++ h.version) = some (h.target, h.version) :=
      splitFirst_eq_some_iff.mpr ⟨rfl, free_singleton_iff.mpr htarget⟩
    have hlen := length_fieldsText h.fields
    have hfields' := readFields_text (n := (fieldsText h.fields ++ rest).length + 1)
      (by rw [List.length_append]; omega) hfields rest
    simp only [Head.read, hsplit, hsplit', hsplit'', hfields', Option.bind_eq_bind,
      Option.bind_some]
    rfl

end Read

end TradeFeed.Lib.Http
