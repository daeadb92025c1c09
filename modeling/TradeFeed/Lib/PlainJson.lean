import TradeFeed.Lib.Json

/-!
# JSON texts that are written without escapes

A program that needs no library for its JSON puts each string between quotes as it is. `Datum` is
what a text is about, with strings as bytes, `Value.Denotes` says that a value is about it, however
its strings are spelled, and `Datum.naive` is the text that such a program writes.

It is a text of the datum exactly when no string has a byte that needs an escape
(`means_naive_iff`): an escape is longer than what it stands for, and so is a blank than nothing, so
that a text as short as the naive one spells every string as it is.
-/

namespace TradeFeed.Lib.Json

/-- What a text is about: strings, and arrays and objects. -/
inductive Datum where
  /-- A string. -/
  | string (l : List UInt8)
  /-- An array. -/
  | array (items : List Datum)
  /-- An object. -/
  | object (members : List (List UInt8 × Datum))

/-- **Induction** on data. -/
@[elab_as_elim]
theorem Datum.induct {P : Datum → Prop} (string : ∀ l, P (.string l))
    (array : ∀ items : List Datum, (∀ d ∈ items, P d) → P (.array items))
    (object : ∀ members : List (List UInt8 × Datum), (∀ m ∈ members, P m.2) → P (.object members))
    (d : Datum) :
    P d :=
  @Datum.rec P (fun items => ∀ d ∈ items, P d) (fun ms => ∀ m ∈ ms, P m.2) (fun m => P m.2)
    string array object (by simp) (fun _ _ hd hds => List.forall_mem_cons.mpr ⟨hd, hds⟩) (by simp)
    (fun _ _ hm hms => List.forall_mem_cons.mpr ⟨hm, hms⟩) (fun _ _ hd => hd) d

mutual

/-- The value is about it. -/
def Value.Denotes : Value → Datum → Prop
  | .string s, .string l => s.Spells l
  | .array vs, .array ds => ItemsDenote vs ds
  | .object ms, .object es => MembersDenote ms es
  | _, _ => False

/-- The items are about those, one to one. -/
def ItemsDenote : List Value → List Datum → Prop
  | [], [] => True
  | v :: vs, d :: ds => v.Denotes d ∧ ItemsDenote vs ds
  | _, _ => False

/-- The members are about those, one to one, each with its name. -/
def MembersDenote : List (Str × Value) → List (List UInt8 × Datum) → Prop
  | [], [] => True
  | (k, v) :: ms, (l, d) :: es => k.Spells l ∧ v.Denotes d ∧ MembersDenote ms es
  | _, _ => False

end

/-- The text is one of the datum: one of a value about it, with any blanks. -/
def Datum.Means (d : Datum) (text : List UInt8) : Prop :=
  ∃ v : Value, v.Denotes d ∧ Spaced (v.tokens.map Token.text) text

/-- A string between quotes, as it is. -/
def quoted (l : List UInt8) : List UInt8 := 34 :: (l ++ [34])

mutual

/-- The text with no blanks and no escapes. -/
def Datum.naive : Datum → List UInt8
  | .string l => quoted l
  | .array ds => 91 :: (itemsNaive true ds ++ [93])
  | .object es => 123 :: (membersNaive true es ++ [125])

/-- That of items. -/
def itemsNaive (first : Bool) : List Datum → List UInt8
  | [] => []
  | d :: ds => comma first ++ (d.naive ++ itemsNaive false ds)

/-- That of members. -/
def membersNaive (first : Bool) : List (List UInt8 × Datum) → List UInt8
  | [] => []
  | (l, d) :: es => comma first ++ (quoted l ++ 58 :: (d.naive ++ membersNaive false es))

end

mutual

/-- The strings in it, the names with them. -/
def Datum.strings : Datum → List (List UInt8)
  | .string l => [l]
  | .array ds => itemsStrings ds
  | .object es => membersStrings es

/-- Those of items. -/
def itemsStrings : List Datum → List (List UInt8)
  | [] => []
  | d :: ds => d.strings ++ itemsStrings ds

/-- Those of members. -/
def membersStrings : List (List UInt8 × Datum) → List (List UInt8)
  | [] => []
  | (l, d) :: es => l :: (d.strings ++ membersStrings es)

end

/-- No string has a byte that needs an escape. -/
def Datum.Plain (d : Datum) : Prop := ∀ l ∈ d.strings, Each IsPlain l

/-! ### Escapes make a text longer -/

/-- A text is no shorter than a naive one, and as short only if these strings need no escapes. -/
structure Escaping (text naive : List UInt8) (strings : List (List UInt8)) : Prop where
  /-- It is no shorter. -/
  length_le : naive.length ≤ text.length
  /-- When it is as short, no string needs an escape. -/
  plain : text.length ≤ naive.length → ∀ l ∈ strings, Each IsPlain l

theorem Escaping.refl (text : List UInt8) : Escaping text text [] := ⟨le_rfl, fun _ => nofun⟩

theorem Escaping.append {t t' n n' : List UInt8} {ss ss' : List (List UInt8)} (h : Escaping t n ss)
    (h' : Escaping t' n' ss') :
    Escaping (t ++ t') (n ++ n') (ss ++ ss') := by
  have hle := h.length_le
  have hle' := h'.length_le
  constructor
  · simp only [List.length_append]
    omega
  · intro hlen
    simp only [List.length_append] at hlen
    exact List.forall_mem_append.mpr ⟨h.plain (by omega), h'.plain (by omega)⟩

theorem Escaping.cons (c : UInt8) {t n : List UInt8} {ss : List (List UInt8)}
    (h : Escaping t n ss) :
    Escaping (c :: t) (c :: n) ss := (Escaping.refl [c]).append h

theorem Escaping.snoc (c : UInt8) {t n : List UInt8} {ss : List (List UInt8)}
    (h : Escaping t n ss) :
    Escaping (t ++ [c]) (n ++ [c]) ss := by
  have happ := h.append (.refl [c])
  rwa [List.append_nil] at happ

/-- A string that is spelled. -/
theorem Str.Spells.escaping {s : Str} {l : List UInt8} (h : s.Spells l) :
    Escaping (Token.string s).text (quoted l) [l] := by
  have htext : Escaping s.text l [l] :=
    ⟨h.length_le, fun hlen => List.forall_mem_singleton.mpr (h.plain hlen)⟩
  exact (htext.snoc 34).cons 34

theorem itemsDenote_escaping {vs : List Value}
    (ih : ∀ v ∈ vs, ∀ d : Datum, v.Denotes d → Escaping v.text d.naive d.strings) {ds : List Datum}
    (h : ItemsDenote vs ds) (first : Bool) :
    Escaping (tokensText (itemsTokens first vs)) (itemsNaive first ds) (itemsStrings ds) := by
  induction vs generalizing ds first with
  | nil =>
    cases ds with
    | nil => exact .refl []
    | cons d ds => exact h.elim
  | cons v vs ihvs =>
    cases ds with
    | nil => exact h.elim
    | cons d ds =>
      obtain ⟨hv, hvs⟩ := h
      obtain ⟨ihv, ihrest⟩ := List.forall_mem_cons.mp ih
      rw [itemsText_cons, itemsNaive, itemsStrings]
      exact (Escaping.refl (comma first)).append ((ihv d hv).append (ihvs ihrest hvs false))

theorem membersDenote_escaping {ms : List (Str × Value)}
    (ih : ∀ m ∈ ms, ∀ d : Datum, m.2.Denotes d → Escaping m.2.text d.naive d.strings)
    {es : List (List UInt8 × Datum)} (h : MembersDenote ms es) (first : Bool) :
    Escaping (tokensText (membersTokens first ms)) (membersNaive first es) (membersStrings es) := by
  induction ms generalizing es first with
  | nil =>
    cases es with
    | nil => exact .refl []
    | cons e es => exact h.elim
  | cons m ms ihms =>
    obtain ⟨k, v⟩ := m
    cases es with
    | nil => exact h.elim
    | cons e es =>
      obtain ⟨l, d⟩ := e
      obtain ⟨hk, hv, hms⟩ := h
      obtain ⟨ihv, ihrest⟩ := List.forall_mem_cons.mp ih
      rw [membersText_cons, membersNaive, membersStrings]
      have hvalue := (ihv d hv).append (ihms ihrest hms false)
      exact (Escaping.refl (comma first)).append (hk.escaping.append (hvalue.cons 58))

/-- **The text of a value** is no shorter than the naive one of what it is about. -/
theorem Value.Denotes.escaping {v : Value} {d : Datum} (h : v.Denotes d) :
    Escaping v.text d.naive d.strings := by
  induction v using Value.induct generalizing d with
  | literal l => cases d <;> exact h.elim
  | number n => cases d <;> exact h.elim
  | string s =>
    cases d with
    | string l =>
      rw [Value.text_string]
      exact Str.Spells.escaping h
    | array | object => exact h.elim
  | array vs ih =>
    cases d with
    | array ds =>
      rw [Value.text_array]
      exact ((itemsDenote_escaping (fun v hv d => ih v hv) h true).snoc 93).cons 91
    | string | object => exact h.elim
  | object ms ih =>
    cases d with
    | object es =>
      rw [Value.text_object]
      exact ((membersDenote_escaping (fun m hm d => ih m hm) h true).snoc 125).cons 123
    | string | array => exact h.elim

/-! ### Strings that need none -/

theorem quoted_plainStr (l : List UInt8) (h : Each IsPlain l) :
    (Token.string (plainStr l h)).text = quoted l := by
  rw [Token.text, text_plainStr, quoted]

theorem exists_items {ds : List Datum}
    (ih : ∀ d ∈ ds, d.Plain → ∃ v : Value, v.Denotes d ∧ v.text = d.naive)
    (h : ∀ l ∈ itemsStrings ds, Each IsPlain l) :
    ∃ vs, ItemsDenote vs ds ∧ ∀ first, tokensText (itemsTokens first vs) = itemsNaive first ds := by
  induction ds with
  | nil => exact ⟨[], trivial, fun _ => rfl⟩
  | cons d ds ihds =>
    obtain ⟨ihd, ihrest⟩ := List.forall_mem_cons.mp ih
    obtain ⟨hd, hds⟩ := List.forall_mem_append.mp h
    obtain ⟨v, hv, htext⟩ := ihd hd
    obtain ⟨vs, hvs, hrest⟩ := ihds ihrest hds
    refine ⟨v :: vs, ⟨hv, hvs⟩, fun first => ?_⟩
    rw [itemsText_cons, itemsNaive, htext, hrest]

theorem exists_members {es : List (List UInt8 × Datum)}
    (ih : ∀ e ∈ es, e.2.Plain → ∃ v : Value, v.Denotes e.2 ∧ v.text = e.2.naive)
    (h : ∀ l ∈ membersStrings es, Each IsPlain l) :
    ∃ ms, MembersDenote ms es ∧
      ∀ first, tokensText (membersTokens first ms) = membersNaive first es := by
  induction es with
  | nil => exact ⟨[], trivial, fun _ => rfl⟩
  | cons e es ihes =>
    obtain ⟨l, d⟩ := e
    obtain ⟨ihd, ihrest⟩ := List.forall_mem_cons.mp ih
    obtain ⟨hl, hstrings⟩ := List.forall_mem_cons.mp h
    obtain ⟨hd, hes⟩ := List.forall_mem_append.mp hstrings
    obtain ⟨v, hv, htext⟩ := ihd hd
    obtain ⟨ms, hms, hrest⟩ := ihes ihrest hes
    refine ⟨(plainStr l hl, v) :: ms, ⟨spells_plainStr l hl, hv, hms⟩, fun first => ?_⟩
    rw [membersText_cons, membersNaive, quoted_plainStr, htext, hrest]

/-- When no string needs an escape, the naive text is that of a value. -/
theorem Datum.Plain.exists_value {d : Datum} (h : d.Plain) :
    ∃ v : Value, v.Denotes d ∧ v.text = d.naive := by
  induction d using Datum.induct with
  | string l =>
    have hl : Each IsPlain l := h l (List.mem_singleton_self l)
    refine ⟨.string (plainStr l hl), spells_plainStr l hl, ?_⟩
    rw [Value.text_string, text_plainStr, Datum.naive, quoted]
  | array ds ih =>
    obtain ⟨vs, hvs, htext⟩ := exists_items ih h
    refine ⟨.array vs, hvs, ?_⟩
    rw [Value.text_array, Datum.naive, htext]
  | object es ih =>
    obtain ⟨ms, hms, htext⟩ := exists_members ih h
    refine ⟨.object ms, hms, ?_⟩
    rw [Value.text_object, Datum.naive, htext]

/-- **The naive text** is a text of the datum exactly when no string in it needs an escape. -/
theorem Datum.means_naive_iff (d : Datum) : d.Means d.naive ↔ d.Plain := by
  constructor
  · rintro ⟨v, hv, hspaced⟩
    exact hv.escaping.plain hspaced.length_le
  · intro h
    obtain ⟨v, hv, htext⟩ := h.exists_value
    refine ⟨v, hv, ?_⟩
    rw [← htext]
    exact Spaced.flatten _

end TradeFeed.Lib.Json
