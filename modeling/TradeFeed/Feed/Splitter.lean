import TradeFeed.Feed.Normalizer
import TradeFeed.Lib.Json

/-!
# Splitting a frame into its objects

`for_each_object` knows no grammar: it counts braces, outside of strings. `objects_split`
says what comes of it.

* On an array of JSON objects, `fn` is called on exactly these. The texts that the splitter
  reads over are `Inert`: blanks, words, numbers and strings at any depth, and within an
  object every value, by induction on the value.
* On any bytes, the views lie one behind the other, begin and end with braces, and are
  balanced outside of strings. What has been read of an object is `Open`, and a step keeps
  it so (`Scanned.step`).
-/

namespace TradeFeed.Feed

open Lib.Json

/-! ### Frames of objects -/

section Objects

variable {s : Splitter} {d : ℤ} {t u : List UInt8}

/-- The splitter reads over the text at the depths from `d` on: nothing changes but the place. -/
def Inert (d : ℤ) (t : List UInt8) : Prop :=
  ∀ (s : Splitter) (i : ℕ) (rest : List UInt8), s.inStr = false → s.esc = false → d ≤ s.depth →
    splitFrom s i (t ++ rest) = splitFrom s (i + t.length) rest

theorem Inert.nil (d : ℤ) : Inert d [] := fun _ _ _ _ _ _ => rfl

theorem Inert.append (h : Inert d t) (h' : Inert d u) :
    Inert d (t ++ u) := fun s i rest hq he hd => by
  rw [List.append_assoc, h s i _ hq he hd, h' s _ rest hq he hd, List.length_append, Nat.add_assoc]

/-- A byte that changes nothing outside of a string. -/
def IsOrdinary (c : UInt8) : Prop := c ≠ 92 ∧ c ≠ 34 ∧ c ≠ 123 ∧ c ≠ 125

instance (c : UInt8) : Decidable (IsOrdinary c) := inferInstanceAs (Decidable (_ ∧ _))

/-- Bytes that are no braces, quotes or backslashes are read over. -/
theorem inert_of_ordinary (h : Each IsOrdinary t) (d : ℤ) : Inert d t := by
  induction t with
  | nil => exact Inert.nil d
  | cons c t ih =>
    intro s i rest hq he hd
    obtain ⟨h₁, h₂, h₃, h₄⟩ := h c (by simp)
    have hstep : s.step i c = (s, none) := by simp [Splitter.step, hq, he, h₁, h₂, h₃, h₄]
    rw [List.cons_append, splitFrom, hstep, List.length_cons, Nat.add_comm t.length,
      ← Nat.add_assoc]
    exact ih (fun c hc => h c (by simp [hc])) s (i + 1) rest hq he hd

theorem inert_blank (h : Blank t) (d : ℤ) : Inert d t := by
  refine inert_of_ordinary (fun c hc => ?_) d
  rcases h c hc with rfl | rfl | rfl | rfl <;> decide

/-- What stands in a string is read over there. -/
theorem splitFrom_chars (cs : Str) (s : Splitter) (i : ℕ) (rest : List UInt8) (hq : s.inStr = true)
    (he : s.esc = false) :
    splitFrom s i (Str.text cs ++ rest) = splitFrom s (i + (Str.text cs).length) rest := by
  -- a byte that is no quote and no backslash, and one that is escaped
  have hplain : ∀ c : UInt8, c ≠ 92 → c ≠ 34 →
      ∀ j l, splitFrom s j (c :: l) = splitFrom s (j + 1) l := fun c h₁ h₂ j l => by
    simp [splitFrom, Splitter.step, hq, he, h₁, h₂]
  have hescaped : ∀ c j l, splitFrom s j (92 :: c :: l) = splitFrom s (j + 2) l := fun c j l => by
    have hs : ({ s with esc := false } : Splitter) = s := by
      cases s
      simp_all
    simp [splitFrom, Splitter.step, he, hs]
  have hhex : ∀ c : UInt8, IsHex c → c ≠ 92 ∧ c ≠ 34 := by
    rintro c h
    constructor <;> rintro rfl <;> revert h <;> decide
  induction cs generalizing i with
  | nil => rfl
  | cons c cs ih =>
    rw [Str.text_cons, List.append_assoc, List.length_append, ← Nat.add_assoc]
    cases c with
    | plain b h => exact (hplain b h.2.2 h.2.1 i _).trans (ih (i + 1))
    | escape b h => exact (hescaped b i _).trans (ih (i + 2))
    | unicode a b c d ha hb hc hd =>
      calc splitFrom s i (92 :: 117 :: a :: b :: c :: d :: (Str.text cs ++ rest))
        _ = splitFrom s (i + 2) (a :: b :: c :: d :: (Str.text cs ++ rest)) := hescaped _ _ _
        _ = splitFrom s (i + 6) (Str.text cs ++ rest) := by
          rw [hplain a (hhex a ha).1 (hhex a ha).2, hplain b (hhex b hb).1 (hhex b hb).2,
            hplain c (hhex c hc).1 (hhex c hc).2, hplain d (hhex d hd).1 (hhex d hd).2]
        _ = splitFrom s (i + 6 + (Str.text cs).length) rest := ih (i + 6)

/-- A string is read over. -/
theorem inert_string (cs : Str) (d : ℤ) : Inert d (Token.string cs).text := by
  intro s i rest hq he _
  have hopen : s.step i 34 = ({ s with inStr := true }, none) := by simp [Splitter.step, hq, he]
  have hclose : ∀ j, ({ s with inStr := true } : Splitter).step j 34 = (s, none) := fun j => by
    cases s
    simp_all [Splitter.step]
  have hlen : i + (Token.string cs).text.length = i + 1 + (Str.text cs).length + 1 := by
    simp [Token.text]
    omega
  calc splitFrom s i ((Token.string cs).text ++ rest)
    _ = splitFrom { s with inStr := true } (i + 1) (Str.text cs ++ (34 :: rest)) := by
      simp [Token.text, splitFrom, hopen]
    _ = splitFrom { s with inStr := true } (i + 1 + (Str.text cs).length) (34 :: rest) :=
      splitFrom_chars cs _ _ _ rfl he
    _ = splitFrom s (i + (Token.string cs).text.length) rest := by
      rw [splitFrom, hclose, hlen]
      rfl

/-- A number is read over. -/
theorem inert_number (n : Number) (d : ℤ) : Inert d n.text := by
  refine inert_of_ordinary (fun c hc => ?_) d
  have hb := Number.mem_text hc
  constructor
  · rintro rfl
    exact absurd hb (by decide)
  · refine ⟨?_, ?_, ?_⟩ <;> rintro rfl <;> exact absurd hb (by decide)

theorem inert_literal (l : Literal) (d : ℤ) : Inert d l.text := by
  refine inert_of_ordinary ?_ d
  cases l <;> decide

/-- The texts of some tokens are read over within an object. -/
def AllInert (ts : List Token) : Prop := ∀ t, Spaced (ts.map Token.text) t → Inert 1 t

theorem AllInert.nil : AllInert [] := by
  intro t h
  cases h with
  | nil hw => exact inert_blank hw 1

theorem AllInert.append {a b : List Token} (ha : AllInert a) (hb : AllInert b) :
    AllInert (a ++ b) := by
  intro t h
  rw [List.map_append] at h
  obtain ⟨u, v, rfl, hu, hv⟩ := h.split
  exact (ha u hu).append (hb v hv)

theorem AllInert.cons {x : Token} {ts : List Token} (hx : Inert 1 x.text) (h : AllInert ts) :
    AllInert (x :: ts) := by
  intro t ht
  cases ht with
  | cons hw ht => exact ((inert_blank hw 1).append hx).append (h _ ht)

/-- A comma between items, or none before the first. -/
theorem allInert_comma (first : Bool) : AllInert (if first then [] else [.comma]) := by
  cases first with
  | true => exact AllInert.nil
  | false => exact AllInert.nil.cons (inert_of_ordinary (by decide) 1)

/-- Braces about a text that is read over: the depth goes up, and down again. -/
theorem inert_braces {w : List UInt8} (h : Inert 1 t) (hw : Blank w) :
    Inert 1 (123 :: (t ++ 125 :: w)) := by
  intro s i rest hq he hd
  have hne : s.depth ≠ 0 := by omega
  have hopen : s.step i 123 = ({ s with depth := s.depth + 1 }, none) := by
    simp [Splitter.step, hq, he, hne]
  have hclose : ∀ j, ({ s with depth := s.depth + 1 } : Splitter).step j 125 = (s, none) :=
      fun j => by
    cases s
    simp_all [Splitter.step]
  have hlen : i + (123 :: (t ++ 125 :: w)).length = i + 1 + t.length + 1 + w.length := by
    simp
    omega
  calc splitFrom s i (123 :: (t ++ 125 :: w) ++ rest)
    _ = splitFrom { s with depth := s.depth + 1 } (i + 1) (t ++ (125 :: (w ++ rest))) := by
      simp [splitFrom, hopen]
    _ = splitFrom { s with depth := s.depth + 1 } (i + 1 + t.length) (125 :: (w ++ rest)) :=
      h _ _ _ hq he (by show 1 ≤ s.depth + 1; omega)
    _ = splitFrom s (i + 1 + t.length + 1) (w ++ rest) := by
      rw [splitFrom, hclose]
      rfl
    _ = splitFrom s (i + (123 :: (t ++ 125 :: w)).length) rest := by
      rw [inert_blank hw 1 s _ rest hq he hd, hlen]

/-- Members are read over when their values are. -/
theorem allInert_members {ms : List (Str × Value)} (h : ∀ m ∈ ms, AllInert m.2.tokens)
    (first : Bool) :
    AllInert (membersTokens first ms) := by
  induction ms generalizing first with
  | nil => exact AllInert.nil
  | cons m ms ih =>
    obtain ⟨k, v⟩ := m
    have hms := ih (fun m hm => h m (by simp [hm])) false
    have hkey : AllInert (.string k :: .colon :: v.tokens) :=
      ((h (k, v) (by simp)).cons (inert_of_ordinary (by decide) 1)).cons (inert_string k 1)
    rw [membersTokens]
    simpa using ((allInert_comma first).append hkey).append hms

/-- **A value is read over** within an object. -/
theorem allInert_value (v : Value) : AllInert v.tokens := by
  induction v using Value.induct with
  | literal l => exact AllInert.nil.cons (inert_literal l 1)
  | number n => exact AllInert.nil.cons (inert_number n 1)
  | string s => exact AllInert.nil.cons (inert_string s 1)
  | array items ih =>
    have hitems : ∀ first, AllInert (itemsTokens first items) := by
      induction items with
      | nil => exact fun _ => AllInert.nil
      | cons v vs ihs =>
        intro first
        have hvs := ihs (fun w hw => ih w (by simp [hw])) false
        exact ((allInert_comma first).append (ih v (by simp))).append hvs
    rw [Value.tokens]
    refine AllInert.cons (inert_of_ordinary (by decide) 1) ((hitems true).append ?_)
    exact AllInert.nil.cons (inert_of_ordinary (by decide) 1)
  | object members ih =>
    intro t ht
    rw [Value.tokens] at ht
    cases ht with
    | cons hw ht =>
      rw [List.map_append] at ht
      obtain ⟨u, v, rfl, hu, hv⟩ := ht.split
      cases hv with
      | cons hw' hv =>
        cases hv with
        | nil hw'' =>
          have hbody := (allInert_members ih true u hu).append (inert_blank hw' 1)
          simpa [Token.text] using (inert_blank hw 1).append (inert_braces hbody hw'')

/-- At depth 0, `fn` is called on an object and the splitter goes on behind it. -/
theorem splitFrom_object {o : List UInt8} (ho : IsObject o) (s : Splitter) (i : ℕ)
    (rest : List UInt8) (hq : s.inStr = false) (he : s.esc = false) (hd : s.depth = 0) :
    splitFrom s i (o ++ rest) =
      ⟨i, o.length⟩ :: splitFrom { s with start := i } (i + o.length) rest := by
  obtain ⟨members, inner, hinner, rfl⟩ := ho
  have hbody : Inert 1 inner := allInert_members (fun m _ => allInert_value m.2) true inner hinner
  have hopen : s.step i 123 = ({ s with depth := 1, start := i }, none) := by
    simp [Splitter.step, hq, he, hd]
  have hclose : ({ s with depth := 1, start := i } : Splitter).step (i + 1 + inner.length) 125 =
      ({ s with start := i }, some ⟨i, inner.length + 2⟩) := by
    have hlen : i + 1 + inner.length - i + 1 = inner.length + 2 := by omega
    cases s
    simp_all [Splitter.step]
  have hlen : i + (123 :: (inner ++ [125])).length = i + 1 + inner.length + 1 := by
    simp
    omega
  calc splitFrom s i (123 :: (inner ++ [125]) ++ rest)
    _ = splitFrom { s with depth := 1, start := i } (i + 1) (inner ++ (125 :: rest)) := by
      simp [splitFrom, hopen]
    _ = splitFrom { s with depth := 1, start := i } (i + 1 + inner.length) (125 :: rest) :=
      hbody _ _ _ hq he le_rfl
    _ = ⟨i, inner.length + 2⟩ ::
        splitFrom { s with start := i } (i + 1 + inner.length + 1) rest := by
      rw [splitFrom, hclose]
      rfl
    _ = ⟨i, (123 :: (inner ++ [125])).length⟩ ::
        splitFrom { s with start := i } (i + (123 :: (inner ++ [125])).length) rest := by
      rw [hlen]
      simp

/-- The pieces of an array of objects: brackets, and commas between the objects. -/
def bracketed (os : List (List UInt8)) : List (List UInt8) :=
  [91] :: (os.intersperse [44] ++ [[93]])

theorem View.of_append (pre o rest : List UInt8) :
    (⟨pre.length, o.length⟩ : View).of (pre ++ o ++ rest) = o := by
  simp [View.of]

/-- The text from the next object on: the view of it comes first. -/
theorem splitFrom_next {o : List UInt8} (ho : IsObject o) {w text pre frame : List UInt8}
    (hw : Blank w) (hf : frame = pre ++ (w ++ o ++ text)) {s : Splitter} (hq : s.inStr = false)
    (he : s.esc = false) (hd : s.depth = 0) :
    (splitFrom s pre.length (w ++ o ++ text)).map (fun v => v.of frame) =
      o :: (splitFrom { s with start := (pre ++ w).length } (pre ++ w ++ o).length text).map
        fun v => v.of frame := by
  have hview : (⟨(pre ++ w).length, o.length⟩ : View).of frame = o := by
    rw [hf, show pre ++ (w ++ o ++ text) = pre ++ w ++ o ++ text by simp]
    exact View.of_append _ _ _
  rw [List.append_assoc, inert_blank hw 0 s _ _ hq he hd.ge, ← List.length_append,
    splitFrom_object ho s _ _ hq he hd, List.map_cons, hview, ← List.length_append]

/-- Behind the opening bracket, the splitter finds the objects. -/
theorem splitFrom_array {os : List (List UInt8)} (hos : ∀ o ∈ os, IsObject o)
    {text pre frame : List UInt8} (ht : Spaced (os.intersperse [44] ++ [[93]]) text)
    (hf : frame = pre ++ text) {s : Splitter} (hq : s.inStr = false) (he : s.esc = false)
    (hd : s.depth = 0) :
    (splitFrom s pre.length text).map (fun v => v.of frame) = os := by
  -- a blank, a bracket or a comma
  have hpiece : ∀ {w piece : List UInt8}, Blank w → (piece = [93] ∨ piece = [44]) →
      Inert 0 (w ++ piece) := by
    rintro w piece hw (rfl | rfl)
    · exact (inert_blank hw 0).append (inert_of_ordinary (by decide) 0)
    · exact (inert_blank hw 0).append (inert_of_ordinary (by decide) 0)
  have hend : ∀ {text : List UInt8} {s : Splitter} (i : ℕ), Spaced [[93]] text → s.inStr = false →
    s.esc = false →
      s.depth = 0 → splitFrom s i text = [] := fun i ht hq he hd => by
    cases ht with
    | cons hw ht =>
      cases ht with
      | nil hw' =>
        have := ((hpiece hw (Or.inl rfl)).append (inert_blank hw' 0)) _ i [] hq he hd.ge
        rwa [List.append_nil] at this
  induction os generalizing text pre s with
  | nil => rw [hend _ ht hq he hd, List.map_nil]
  | cons o os ih =>
    have ho := hos o (by simp)
    have hos' : ∀ o ∈ os, IsObject o := fun o ho => hos o (by simp [ho])
    cases os with
    | nil =>
      cases ht with
      | @cons w _ _ _ hw ht =>
        rw [splitFrom_next ho hw hf hq he hd,
          hend (s := { s with start := (pre ++ w).length }) _ ht hq he hd, List.map_nil]
    | cons o' os =>
      cases ht with
      | @cons w _ _ _ hw ht =>
        cases ht with
        | @cons w' _ text' _ hw' ht =>
          have hcomma := hpiece hw' (Or.inr rfl) { s with start := (pre ++ w).length }
            (pre ++ w ++ o).length text' hq he hd.ge
          rw [splitFrom_next ho hw hf hq he hd, hcomma, ← List.length_append]
          exact congrArg _
            (ih (s := { s with start := (pre ++ w).length }) hos' ht (by rw [hf]; simp) hq he hd)

/-- **The objects of an array** are found. -/
theorem forEachObject_array {os : List (List UInt8)} (hos : ∀ o ∈ os, IsObject o)
    {frame : List UInt8} (hf : Spaced (bracketed os) frame) :
    forEachObject frame = os := by
  cases hf with
  | @cons w _ text _ hw ht =>
    have hopen : Inert 0 (w ++ [91]) := (inert_blank hw 0).append (inert_of_ordinary (by decide) 0)
    rw [forEachObject, objectViews, hopen .new 0 text rfl rfl le_rfl, Nat.zero_add]
    exact splitFrom_array hos ht rfl rfl rfl rfl

end Objects

/-! ### Any bytes -/

/-- What is left of a text without the contents of strings and what stands behind backslashes.
The flags say whether it begins in a string, and behind a backslash. -/
def outside : Bool → Bool → List UInt8 → List UInt8
  | _, _, [] => []
  | q, true, _ :: l => outside q false l
  | q, false, c :: l =>
    if c = 92 then outside q true l
    else if c = 34 then outside (!q) false l
    else if q then outside q false l
    else c :: outside q false l

/-- How many more braces are opened than closed. -/
def nesting (l : List UInt8) : ℤ := l.count 123 - l.count 125

/-- Every brace that is closed was opened, and every one that is opened is closed. -/
structure Balanced (l : List UInt8) : Prop where
  /-- All are closed in the end. -/
  closed : nesting l = 0
  /-- None is closed before it is opened. -/
  opened : ∀ p, p <+: l → 0 ≤ nesting p

/-- A view on an object, as far as braces tell. -/
structure ObjectView (frame : List UInt8) (v : View) : Prop where
  /-- It lies in the frame. -/
  within : v.pos + v.len ≤ frame.length
  /-- It begins with an opening brace. -/
  head : (v.of frame).head? = some 123
  /-- It ends with a closing one. -/
  last : (v.of frame).getLast? = some 125
  /-- Outside of strings its braces are balanced. -/
  balanced : Balanced (outside false false (v.of frame))

/-- The variables after the bytes of a text. -/
def Splitter.read (s : Splitter) (i : ℕ) : List UInt8 → Splitter
  | [] => s
  | c :: cs => Splitter.read (s.step i c).1 (i + 1) cs

section AnyBytes

variable {s s' : Splitter} {cur pre : List UInt8} {c : UInt8} {e : List UInt8} {i : ℕ}

@[simp] theorem outside_nil (q e : Bool) : outside q e [] = [] := by cases e <;> rfl

@[simp] theorem nesting_nil : nesting [] = 0 := rfl

theorem nesting_append (l l' : List UInt8) : nesting (l ++ l') = nesting l + nesting l' := by
  simp only [nesting, List.count_append]
  omega

/-- What a step does: the byte stands in a string, behind a backslash or for itself, or it is a
brace that counts. `e` is what is left of it outside of strings. -/
inductive Stepped (s : Splitter) (i : ℕ) (c : UInt8) : Splitter → Option View → List UInt8 → Prop
  /-- The depth stays. -/
  | quiet {s' : Splitter} {e : List UInt8} (hd : s'.depth = s.depth) (hs : s'.start = s.start)
    (he : nesting e = 0) :
    Stepped s i c s' none e
  /-- An opening brace. -/
  | opened (hc : c = 123) (hq : s.inStr = false) (he : s.esc = false) :
    Stepped s i c
      { s with depth := s.depth + 1, start := if s.depth = 0 then i else s.start } none [123]
  /-- A closing brace. -/
  | closed (hc : c = 125) :
    Stepped s i c { s with depth := s.depth - 1 }
      (if s.depth - 1 = 0 then some ⟨s.start, i - s.start + 1⟩ else none) [125]

/-- **A step.** -/
theorem step_stepped (s : Splitter) (i : ℕ) (c : UInt8) :
    ∃ e, Stepped s i c (s.step i c).1 (s.step i c).2 e ∧ (e = [] ∨ e = [c]) ∧
      ∀ l, outside s.inStr s.esc (c :: l) = e ++
        outside (s.step i c).1.inStr (s.step i c).1.esc l := by
  obtain ⟨depth, inStr, esc, start⟩ := s
  unfold Splitter.step
  cases esc with
  | true => exact ⟨[], .quiet rfl rfl rfl, Or.inl rfl, fun _ => rfl⟩
  | false =>
    by_cases h92 : c = 92
    · exact ⟨[], by simpa [h92] using .quiet rfl rfl rfl, Or.inl rfl,
        fun l => by simp [h92, outside]⟩
    by_cases h34 : c = 34
    · exact ⟨[], by simpa [h34] using .quiet rfl rfl rfl, Or.inl rfl,
        fun l => by simp [h34, outside]⟩
    cases inStr with
    | true => exact ⟨[], by simpa [h92, h34] using .quiet rfl rfl rfl, Or.inl rfl,
      fun l => by simp [h92, h34, outside]⟩
    | false =>
      refine ⟨[c], ?_, Or.inr rfl, fun l => by
        by_cases h123 : c = 123 <;> by_cases h125 : c = 125 <;>
          simp [h92, h34, h123, h125, outside]⟩
      by_cases h123 : c = 123
      · subst h123
        simpa using .opened rfl rfl rfl
      by_cases h125 : c = 125
      · subst h125
        simpa using .closed rfl
      simpa [h92, h34, h123, h125] using .quiet rfl rfl (by simp [nesting, h123, h125])

/-- The bytes `cur` begin an object that is still open. -/
structure Open (cur : List UInt8) (s : Splitter) : Prop where
  /-- They begin with its brace. -/
  head : cur.head? = some 123
  /-- The flags say what the next byte is. -/
  flags : ∀ l, outside false false (cur ++ l) = outside false false cur ++ outside s.inStr s.esc l
  /-- The depth says how many braces are open. -/
  depth : nesting (outside false false cur) = s.depth
  /-- There never were less than none. -/
  prefixes : ∀ p, p <+: outside false false cur → 0 ≤ nesting p

/-- One byte more. -/
theorem Open.more (h : Open cur s)
    (hout : ∀ l, outside s.inStr s.esc (c :: l) = e ++ outside s'.inStr s'.esc l)
    (he : e = [] ∨ e = [c]) (hn : s'.depth = s.depth + nesting e) (hd : 0 ≤ s'.depth) :
    Open (cur ++ [c]) s' := by
  have hcur : outside false false (cur ++ [c]) = outside false false cur ++ e := by
    rw [h.flags, hout, outside_nil, List.append_nil]
  have hnest : nesting (outside false false (cur ++ [c])) = s'.depth := by
    rw [hcur, nesting_append, h.depth, hn]
  constructor
  · rw [List.head?_append, h.head, Option.some_or]
  · intro l
    rw [hcur, List.append_assoc, List.append_assoc, ← hout, ← h.flags]
    rfl
  · exact hnest
  · intro p hp
    rcases he with rfl | rfl
    · rw [hcur, List.append_nil] at hp
      exact h.prefixes p hp
    · rw [hcur, List.prefix_concat_iff] at hp
      rcases hp with rfl | hp
      · rw [← hcur, hnest]
        exact hd
      · exact h.prefixes p hp

/-- What the variables say of the bytes read so far. -/
structure Scanned (pre : List UInt8) (s : Splitter) : Prop where
  /-- The depth is not beyond their number. -/
  depth : |s.depth| ≤ pre.length
  /-- An object that is open is the bytes from `start` on. -/
  opened : 0 < s.depth → s.start ≤ pre.length ∧ Open (pre.drop s.start) s

theorem Scanned.nil : Scanned [] .new := ⟨le_rfl, fun h => absurd h (lt_irrefl _)⟩

/-- **A step** keeps them right. -/
theorem Scanned.step (h : Scanned pre s) (c : UInt8) :
    Scanned (pre ++ [c]) (s.step pre.length c).1 := by
  obtain ⟨e, hst, he, hout⟩ := step_stepped s pre.length c
  revert hst hout
  generalize (s.step pre.length c).1 = s'
  generalize (s.step pre.length c).2 = v
  intro hst hout
  have hlen : ((pre ++ [c]).length : ℤ) = pre.length + 1 := by simp
  -- an object that was open stays so, with one byte more
  have hmore : 0 < s.depth → s'.start = s.start → s'.depth = s.depth + nesting e → 0 ≤ s'.depth →
      s'.start ≤ (pre ++ [c]).length ∧ Open ((pre ++ [c]).drop s'.start) s' :=
        fun hpos hs hn hd => by
    obtain ⟨hstart, ho⟩ := h.opened hpos
    rw [hs, List.drop_append_of_le_length hstart]
    exact ⟨by simp; omega, ho.more hout he hn hd⟩
  have hdepth := abs_le.mp h.depth
  cases hst with
  | quiet hd hs hn =>
    refine ⟨by rw [hd, hlen]; exact h.depth.trans (by omega), fun hpos => ?_⟩
    exact hmore (hd ▸ hpos) hs (by rw [hd, hn, add_zero]) hpos.le
  | opened hc hq hesc =>
    refine ⟨abs_le.mpr (by rw [hlen]; simp only; omega), fun hpos => ?_⟩
    rcases eq_or_ne s.depth 0 with h0 | h0
    · -- the brace opens an object
      have hdrop : (pre ++ [c]).drop pre.length = [123] := by rw [List.drop_left, hc]
      simp only [h0, if_true, hdrop]
      refine ⟨by simp, ⟨rfl, fun l => ?_, by simp [outside, nesting], fun p hp => ?_⟩⟩
      · simp [outside, hq, hesc]
      · rcases List.prefix_cons_iff.mp hp with rfl | ⟨t, rfl, ht⟩
        · exact le_rfl
        · rw [List.prefix_nil.mp ht]
          decide
    · have hpos' : 0 < s.depth := by
        simp only at hpos
        omega
      exact hmore hpos' (if_neg h0) (by rfl) hpos.le
  | closed hc =>
    refine ⟨abs_le.mpr (by rw [hlen]; simp only; omega), fun hpos => ?_⟩
    have hpos' : 0 < s.depth := by
      simp only at hpos
      omega
    exact hmore hpos' rfl (by rfl) hpos.le

/-- **A view**: it is the open object and the byte that closes it. -/
theorem Scanned.view (h : Scanned pre s) {c : UInt8} {v : View}
    (hv : (s.step pre.length c).2 = some v) (cs : List UInt8) :
    0 < s.depth ∧ v.pos = s.start ∧ v.pos + v.len = pre.length + 1 ∧
      (s.step pre.length c).1.depth = 0 ∧
      ObjectView (pre ++ c :: cs) v := by
  obtain ⟨e, hst, he, hout⟩ := step_stepped s pre.length c
  rw [hv] at hst
  revert hst hout
  generalize (s.step pre.length c).1 = s'
  intro hst hout
  generalize hw : some v = w at hst
  cases hst with
  | quiet => cases hw
  | opened => cases hw
  | closed hc =>
    split_ifs at hw with h0
    obtain rfl := Option.some.inj hw
    have hpos : 0 < s.depth := by omega
    obtain ⟨hstart, ho⟩ := h.opened hpos
    have hlen : s.start + (pre.length - s.start + 1) = pre.length + 1 := by omega
    have hof : (⟨s.start, pre.length - s.start + 1⟩ : View).of (pre ++ c :: cs) =
        pre.drop s.start ++ [c] := by
      rw [View.of, List.drop_append_of_le_length hstart, List.take_append]
      simp
    have hmore := ho.more hout he (by rfl) h0.ge
    refine ⟨hpos, rfl, hlen, h0, ⟨?_, ?_, ?_, ?_⟩⟩
    · rw [hlen]
      simp
    · rw [hof]
      exact hmore.head
    · rw [hof, List.getLast?_append, hc]
      rfl
    · rw [hof]
      exact ⟨hmore.depth.trans h0, hmore.prefixes⟩

/-- Where the next view can begin: at the object that is open, or at the next byte. -/
def Splitter.floor (s : Splitter) (i : ℕ) : ℕ := if 0 < s.depth then s.start else i

theorem Scanned.floor_le (h : Scanned pre s) (c : UInt8) :
    s.floor pre.length ≤ (s.step pre.length c).1.floor (pre.length + 1) := by
  have hstart : 0 < s.depth → s.start ≤ pre.length := fun hpos => (h.opened hpos).1
  obtain ⟨e, hst, -⟩ := step_stepped s pre.length c
  revert hst
  generalize (s.step pre.length c).1 = s'
  generalize (s.step pre.length c).2 = v
  intro hst
  unfold Splitter.floor
  cases hst with
  | quiet hd hs => rw [hd, hs]; split_ifs <;> omega
  | opened => simp only; split_ifs <;> omega
  | closed => simp only; split_ifs <;> omega

/-- **The loop**: the views lie one behind the other, each on an object. -/
theorem Scanned.views {cs frame : List UInt8} (h : Scanned pre s) (hf : frame = pre ++ cs) :
    (∀ v ∈ splitFrom s pre.length cs, ObjectView frame v ∧ s.floor pre.length ≤ v.pos) ∧
      (splitFrom s pre.length cs).Pairwise fun v w => v.pos + v.len ≤ w.pos := by
  induction cs generalizing pre s with
  | nil => exact ⟨by simp [splitFrom], List.Pairwise.nil⟩
  | cons c cs ih =>
    obtain ⟨hobj, hpair⟩ := ih (h.step c) (by rw [hf, List.append_assoc]; rfl)
    have hlen : (pre ++ [c]).length = pre.length + 1 := by simp
    rw [hlen] at hobj hpair
    have hfloor := h.floor_le c
    have hrest : ∀ v ∈ splitFrom (s.step pre.length c).1 (pre.length + 1) cs,
        ObjectView frame v ∧ s.floor pre.length ≤ v.pos :=
          fun v hv => ⟨(hobj v hv).1, hfloor.trans (hobj v hv).2⟩
    rw [splitFrom]
    cases hv : (s.step pre.length c).2 with
    | none => exact ⟨hrest, hpair⟩
    | some v =>
      obtain ⟨hpos, hstart, hend, hd, hview⟩ := h.view hv cs
      refine ⟨List.forall_mem_cons.mpr ⟨⟨hf ▸ hview, ?_⟩, hrest⟩,
        List.pairwise_cons.mpr ⟨fun w hw => ?_, hpair⟩⟩
      · rw [Splitter.floor, if_pos hpos, hstart]
      · have := (hobj w hw).2
        rwa [Splitter.floor, hd, if_neg (lt_irrefl _), ← hend] at this

theorem Scanned.read {cs : List UInt8} (h : Scanned pre s) :
    Scanned (pre ++ cs) (s.read pre.length cs) := by
  induction cs generalizing pre s with
  | nil => rwa [List.append_nil]
  | cons c cs ih =>
    have := ih (h.step c)
    rwa [List.append_assoc, List.length_append] at this

end AnyBytes

/-- **The splitter finds exactly the objects** of an array of JSON objects. On any frame whatever,
the views that `fn` is called on lie one behind the other, and each begins with a brace, ends with
one and is balanced outside of strings. The depth stays in the range of an `int`. -/
theorem objects_split {frame : List UInt8} (hlen : frame.length < 2 ^ 31) :
    (∀ os : List (List UInt8), (∀ o ∈ os, IsObject o) → Spaced (bracketed os) frame →
      forEachObject frame = os) ∧
      (∀ v ∈ objectViews frame, ObjectView frame v) ∧
      ((objectViews frame).Pairwise fun v w => v.pos + v.len ≤ w.pos) ∧
      ∀ pre, pre <+: frame → -2 ^ 31 ≤ (Splitter.new.read 0 pre).depth ∧
        (Splitter.new.read 0 pre).depth < 2 ^ 31 := by
  obtain ⟨hobj, hpair⟩ := Scanned.nil.views (List.nil_append frame).symm
  refine ⟨fun os hos hf => forEachObject_array hos hf,
    fun v hv => (hobj v hv).1, hpair, fun pre hpre => ?_⟩
  have hread : Scanned pre (Splitter.new.read 0 pre) := Scanned.nil.read
  have hdepth := abs_le.mp hread.depth
  have hle := hpre.length_le
  constructor <;> omega

/-- Two objects, with a brace in a string of the first and a blank before the second. -/
theorem objects_split_two :
    forEachObject (ascii "[\x7b\"S\":\"A\x7dB\"\x7d, \x7b\x7d]") =
      [ascii "\x7b\"S\":\"A\x7dB\"\x7d", ascii "\x7b\x7d"] := by
  have hfirst : IsObject (ascii "\x7b\"S\":\"A\x7dB\"\x7d") :=
    isObject_text [([.plain 83 (by decide)],
      .string [.plain 65 (by decide), .plain 125 (by decide), .plain 66 (by decide)])]
  have hos : ∀ o ∈ [ascii "\x7b\"S\":\"A\x7dB\"\x7d", ascii "\x7b\x7d"], IsObject o :=
    List.forall_mem_cons.mpr ⟨hfirst, List.forall_mem_singleton.mpr (isObject_text [])⟩
  have hnil : Blank [] := by decide
  have hspace : Blank [32] := by decide
  have hframe : Spaced (bracketed [ascii "\x7b\"S\":\"A\x7dB\"\x7d", ascii "\x7b\x7d"])
      (ascii "[\x7b\"S\":\"A\x7dB\"\x7d, \x7b\x7d]") :=
    .cons hnil (.cons hnil (.cons hnil (.cons hspace (.cons hnil (.nil hnil)))))
  exact (objects_split (by decide)).1 _ hos hframe

end TradeFeed.Feed
