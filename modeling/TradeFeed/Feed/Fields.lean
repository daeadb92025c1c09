import Mathlib.Data.List.TakeWhile
import TradeFeed.Feed.Normalizer
import TradeFeed.Lib.Json

/-!
# Finding a member by its key

`field` looks for the bytes of a quoted key and a colon in the text of an object.
`field_text` says what it finds in the compact text of any value: the first member at any
depth, in the order of the text, whose key is written as the one asked for or ends in an
escaped quote and that (`Named`).

The proof goes along the text, byte by byte in a string (`after_chars`) and value by value
(`found_text`, by induction on values).

In a flat object (`FlatMembers`) every key is another one, and no value has members of its own.
There the member that is found is the one with the key, wherever it stands.
-/

namespace TradeFeed.Feed

open Lib.Bytes Lib.Json

/-- A key that `field` is asked for: some letters, not too many. -/
structure IsKey (key : List UInt8) : Prop where
  /-- There is one. -/
  ne : key ≠ []
  /-- They are letters. -/
  letters : Each (fun c => (65 ≤ c ∧ c ≤ 90) ∨ (97 ≤ c ∧ c ≤ 122)) key
  /-- They fit in the buffer for the pattern. -/
  short : key.length + 3 < 24

instance (key : List UInt8) : Decidable (IsKey key) :=
  decidable_of_iff (key ≠ [] ∧ Each (fun c => (65 ≤ c ∧ c ≤ 90) ∨ (97 ≤ c ∧ c ≤ 122)) key ∧
    key.length + 3 < 24)
    ⟨fun h => ⟨h.1, h.2.1, h.2.2⟩, fun h => ⟨h.ne, h.letters, h.short⟩⟩

/-- What `field` looks for. -/
def needle (key : List UInt8) : List UInt8 := 34 :: (key ++ [34, 58])

/-- The key of a member is taken for `key`: with its opening quote, it ends in a quote and `key`. -/
def Named (key : List UInt8) (k : Str) : Prop := 34 :: key <:+ 34 :: k.text

instance (key : List UInt8) (k : Str) : Decidable (Named key k) :=
  inferInstanceAs (Decidable (_ <:+ _))

/-- The first member that is taken for the one with the key. -/
def firstMember (key : List UInt8) (ms : List (Str × Value)) : Option (Str × Value) :=
  ms.find? fun m => decide (Named key m.1)

section Keys

variable {key rest t : List UInt8}

theorem IsKey.not_mem (h : IsKey key) {c : UInt8}
    (hc : ¬ ((65 ≤ c ∧ c ≤ 90) ∨ (97 ≤ c ∧ c ≤ 122))) :
    c ∉ key :=
  fun hmem => hc (h.letters c hmem)

theorem field_eq (h : IsKey key) (obj : List UInt8) : field obj key = after (needle key) obj := by
  rw [field, if_neg (by have := h.short; omega), after, Option.map_eq_bind]
  rfl

theorem needle_length (key : List UInt8) : (needle key).length = key.length + 3 := by simp [needle]

/-- Bytes that are no quotes are passed over. -/
theorem after_plain (h : (34 : UInt8) ∉ t) (rest : List UInt8) :
    after (needle key) (t ++ rest) = after (needle key) rest :=
  after_append h rest

/-! ### Strings -/

/-- The pattern behind its first quote: it is the end of a string, and a colon follows. -/
theorem prefix_chars (h34 : (34 : UInt8) ∉ key) (h92 : (92 : UInt8) ∉ key) (r : Str)
    (rest : List UInt8) :
    key ++ [34, 58] <+: r.text ++ 34 :: rest ↔ r.text = key ∧ rest.head? = some 58 := by
  -- no key begins with a backslash, and the pattern does not either
  have hback : ∀ k : List UInt8, 92 ∉ k →
      ∀ l l', k ++ [34, 58] <+: 92 :: l ↔ 92 :: l' = k ∧ rest.head? = some 58 :=
    fun k hk l l' => by
      refine iff_of_false (fun hpre => ?_) fun heq => hk (by simp [← heq.1])
      cases k with
      | nil => exact absurd (List.cons_prefix_cons.mp hpre).1 (by decide)
      | cons a k => exact hk (by simp [(List.cons_prefix_cons.mp hpre).1])
  induction r generalizing key with
  | nil =>
    cases key with
    | nil => cases rest <;> simp [List.cons_prefix_cons, eq_comm]
    | cons a key =>
      refine iff_of_false (fun hpre => h34 ?_) fun heq => nomatch heq.1
      simp [(List.cons_prefix_cons.mp hpre).1]
  | cons c r ih =>
    cases c with
    | plain b hb =>
      cases key with
      | nil => simp [StrChar.text, List.cons_prefix_cons, hb.2.1.symm]
      | cons a key =>
        have hkey := @ih key (by simp_all) (by simp_all)
        simp [StrChar.text, List.cons_prefix_cons, hkey, eq_comm, and_assoc]
    | escape b hb => exact hback key h92 _ _
    | unicode a b c d ha hb hc hd => exact hback key h92 _ _

/-- A search for the key goes on over some bytes: it ends behind them if they end in a quote and
the key and a colon follows, and goes on with what follows if not. -/
def GoesOn (key t rest : List UInt8) (res : Option (List UInt8)) : Prop :=
  res = if 34 :: key <:+ t ∧ rest.head? = some 58 then some (rest.drop 1)
    else after (needle key) rest

/-- A quote, and what is left of a string behind it. -/
theorem GoesOn.quote (h : IsKey key) {r : Str}
    (hgo : GoesOn key r.text rest (after (needle key) (r.text ++ 34 :: rest))) :
    GoesOn key (34 :: r.text) rest (after (needle key) (34 :: (r.text ++ 34 :: rest))) := by
  have hpre : needle key <+: 34 :: (Str.text r ++ 34 :: rest) ↔ r.text = key ∧
      rest.head? = some 58 := by
    rw [needle, List.cons_prefix_cons, prefix_chars (h.not_mem (by decide)) (h.not_mem (by decide))]
    exact and_iff_right rfl
  have hsuf : 34 :: key <:+ 34 :: r.text ↔ r.text = key ∨ 34 :: key <:+ r.text := by
    simp [List.suffix_cons_iff, eq_comm]
  rw [GoesOn, after_cons, hgo]
  by_cases hhit : r.text = key ∧ rest.head? = some 58
  · -- what is left of the string is the key
    have hdrop : (34 :: (key ++ 34 :: rest)).drop (key.length + 3) = rest.drop 1 := by
      rw [List.drop_succ_cons, List.drop_append, List.drop_eq_nil_of_le (by omega), List.nil_append,
        Nat.add_sub_cancel_left, List.drop_succ_cons]
    rw [if_pos (hpre.mpr hhit), if_pos ⟨hsuf.mpr (Or.inl hhit.1), hhit.2⟩, hhit.1,
      needle_length, hdrop]
  · have hlater : (34 :: key <:+ 34 :: r.text ∧ rest.head? = some 58) ↔ 34 :: key <:+ r.text ∧
        rest.head? = some 58 := by
      rw [hsuf]
      exact ⟨fun hh => ⟨hh.1.resolve_left fun heq => hhit ⟨heq, hh.2⟩, hh.2⟩,
        fun hh => ⟨Or.inr hh.1, hh.2⟩⟩
    rw [if_neg (mt hpre.mp hhit)]
    simp only [hlater]

/-- Bytes that are no quotes do not matter. -/
theorem GoesOn.plain {u l : List UInt8} (h34 : (34 : UInt8) ∉ u)
    (hgo : GoesOn key t rest (after (needle key) l)) :
    GoesOn key (u ++ t) rest (after (needle key) (u ++ l)) := by
  have hsuf : 34 :: key <:+ u ++ t ↔ 34 :: key <:+ t := by
    induction u with
    | nil => rfl
    | cons b u ih =>
      obtain ⟨hb, hu⟩ := not_or.mp (List.mem_cons.not.mp h34)
      rw [List.cons_append, List.suffix_cons_iff, ih hu]
      exact or_iff_right fun heq => hb (List.cons.inj heq).1
  rw [GoesOn, after_plain h34, hgo]
  simp only [hsuf]

/-- **Within a string**, the pattern begins at an escaped quote, or not at all. -/
theorem goesOn_chars (h : IsKey key) (r : Str) (hrest : ∀ c, rest.head? = some c → c ∉ key) :
    GoesOn key r.text rest (after (needle key) (r.text ++ 34 :: rest)) := by
  induction r with
  | nil =>
    -- the quote that ends the string: what follows is not the key
    rw [GoesOn, Str.text_nil, List.nil_append, after_cons, if_neg, if_neg (by simp)]
    intro hpre
    obtain ⟨a, key, rfl⟩ := List.exists_cons_of_ne_nil h.ne
    cases rest with
    | nil => simp [needle] at hpre
    | cons c rest =>
      simp only [needle, List.cons_append, List.cons_prefix_cons] at hpre
      exact hrest c rfl (by simp [hpre.2.1])
  | cons c r ih =>
    rw [Str.text_cons, List.append_assoc]
    cases c with
    | plain b hb => exact ih.plain (by simpa [StrChar.text] using hb.2.1.symm)
    | escape b hb =>
      rcases eq_or_ne b 34 with rfl | hne
      · exact (ih.quote h).plain (u := [92]) (by decide)
      · exact ih.plain (by simpa [StrChar.text] using hne.symm)
    | unicode a b c d ha hb hc hd =>
      have hhex : ∀ x : UInt8, IsHex x → 34 ≠ x := by
        rintro x hx rfl
        revert hx
        decide
      exact ih.plain (by simp [StrChar.text, hhex a ha, hhex b hb, hhex c hc, hhex d hd])

/-- **A string**: the pattern ends behind it if it is taken for the key, and a colon follows. -/
theorem after_string (h : IsKey key) (r : Str) (hrest : ∀ c, rest.head? = some c → c ∉ key) :
    after (needle key) ((Token.string r).text ++ rest) =
      if Named key r ∧ rest.head? = some 58 then some (rest.drop 1)
        else after (needle key) rest := by
  have htext : (Token.string r).text ++ rest = 34 :: (Str.text r ++ 34 :: rest) := by
    simp [Token.text]
  rw [htext]
  exact (goesOn_chars h r hrest).quote h

/-! ### Values -/

/-- What a search over a value finds that `rest` follows: the first member, or what is found in
`rest`. -/
inductive Found (key : List UInt8) (ms : List (Str × Value)) (rest : List UInt8) :
    Option (List UInt8) → Prop
  /-- A member, and what follows its value. -/
  | hit {m : Str × Value} {r : List UInt8} (h : firstMember key ms = some m) (hr : Ends r) :
    Found key ms rest (some (m.2.text ++ r))
  /-- None. -/
  | miss (h : firstMember key ms = none) : Found key ms rest (after (needle key) rest)

theorem Found.of_eq {ms : List (Str × Value)} {rest' : List UInt8} {res : Option (List UInt8)}
    (h : Found key ms rest res) (heq : after (needle key) rest = after (needle key) rest') :
    Found key ms rest' res := by
  cases h with
  | hit h hr => exact .hit h hr
  | miss h => exact heq ▸ .miss h

/-- A value, and what follows it. -/
theorem Found.append {ms ms' : List (Str × Value)} {rest' : List UInt8} {res : Option (List UInt8)}
    (h : Found key ms rest res) (h' : Found key ms' rest' (after (needle key) rest)) :
    Found key (ms ++ ms') rest' res := by
  have hfirst : firstMember key (ms ++ ms') = (firstMember key ms).or (firstMember key ms') :=
    List.find?_append
  cases h with
  | hit h hr => exact .hit (by rw [hfirst, h, Option.some_or]) hr
  | miss h =>
    generalize after (needle key) rest = res at h'
    cases h' with
    | hit h' hr => exact .hit (by rw [hfirst, h, Option.none_or, h']) hr
    | miss h' => exact .miss (by rw [hfirst, h, Option.none_or, h'])

theorem not_mem_of_ends (h : IsKey key) (hr : Ends rest) :
    ∀ c, rest.head? = some c → c ∉ key := fun c hc =>
  h.not_mem (by rcases hr c hc with rfl | rfl | rfl <;> decide)

/-- A single byte that is no quote. -/
theorem after_byte {c : UInt8} (h : 34 ≠ c) (l : List UInt8) :
    after (needle key) (c :: l) = after (needle key) l :=
  after_plain (t := [c]) (List.mem_singleton.not.mpr h) l

theorem after_comma (first : Bool) (l : List UInt8) :
    after (needle key) (comma first ++ l) = after (needle key) l :=
  after_plain (by cases first <;> decide) l

theorem found_items (items : List Value) (first : Bool) {rest : List UInt8} (hr : Ends rest)
    (ih : ∀ v ∈ items,
      ∀ rest, Ends rest → Found key v.members rest (after (needle key) (v.text ++ rest))) :
    Found key (itemsMembers items) rest
      (after (needle key) (tokensText (itemsTokens first items) ++ rest)) := by
  induction items generalizing first with
  | nil => exact .miss rfl
  | cons v vs ihs =>
    obtain ⟨hv, hvs⟩ := List.forall_mem_cons.mp ih
    rw [itemsText_cons, List.append_assoc, after_comma, List.append_assoc, itemsMembers]
    exact (hv _ (ends_items vs hr)).append (ihs false hvs)

theorem found_members (h : IsKey key) (ms : List (Str × Value)) (first : Bool) {rest : List UInt8}
    (hr : Ends rest)
    (ih : ∀ m ∈ ms,
      ∀ rest, Ends rest → Found key m.2.members rest (after (needle key) (m.2.text ++ rest))) :
    Found key (membersMembers ms) rest
      (after (needle key) (tokensText (membersTokens first ms) ++ rest)) := by
  induction ms generalizing first with
  | nil => exact .miss rfl
  | cons m ms ihs =>
    obtain ⟨k, v⟩ := m
    obtain ⟨hv, hms⟩ := List.forall_mem_cons.mp ih
    have hends := ends_members ms hr
    have hcolon : ∀ c, (58 :: (v.text ++ (tokensText (membersTokens false ms) ++ rest))).head? =
        some c → c ∉ key := by
      intro c hc
      obtain rfl := Option.some.inj hc
      exact h.not_mem (by decide)
    rw [membersText_cons, List.append_assoc, after_comma, List.append_assoc, List.cons_append,
      List.append_assoc, after_string h k hcolon, membersMembers]
    by_cases hk : Named key k
    · rw [if_pos ⟨hk, rfl⟩]
      exact .hit (List.find?_cons_of_pos (decide_eq_true hk)) hends
    · have hfirst :
        ∀ l, firstMember key ((k, v) :: l) = firstMember key l :=
        fun l => List.find?_cons_of_neg (by simpa using hk)
      rw [if_neg fun hh => hk hh.1, after_byte (by decide)]
      have hrest := (hv _ hends).append (ihs false hms)
      generalize after (needle key) (v.text ++ (tokensText (membersTokens false ms) ++ rest)) =
        res at hrest
      cases hrest with
      | hit hm hr => exact .hit ((hfirst _).trans hm) hr
      | miss hm => exact .miss ((hfirst _).trans hm)

/-- **A value**: the search finds its first member that is taken for the one with the key. -/
theorem found_text (h : IsKey key) (v : Value) {rest : List UInt8} (hr : Ends rest) :
    Found key v.members rest (after (needle key) (v.text ++ rest)) := by
  have hnone : ∀ {t rest : List UInt8}, 34 ∉ t →
      Found key [] rest (after (needle key) (t ++ rest)) := fun ht => by
    rw [after_plain ht]
    exact .miss rfl
  induction v using Value.induct generalizing rest with
  | literal l => exact hnone (by cases l <;> decide)
  | number n =>
    apply hnone
    intro hmem
    have := Number.mem_text (n := n)
      (by simpa [Value.text, Value.tokens, tokensText, Token.text] using hmem)
    revert this
    decide
  | string s =>
    have hs := after_string h s (not_mem_of_ends h hr)
    rw [if_neg fun hh => by
          rcases hr 58 hh.2 with hh | hh | hh <;> exact absurd hh (by decide)] at hs
    have htext : (Value.string s).text = (Token.string s).text := Value.text_string s
    rw [htext, hs]
    exact .miss rfl
  | array items ih =>
    have hend : Ends (93 :: rest) := ends_cons (Or.inr (Or.inl rfl)) rest
    have hitems := found_items items true hend fun v hv rest hr => ih v hv hr
    rw [Value.text_array, List.cons_append, List.append_assoc, after_byte (by decide),
      Value.members]
    exact hitems.of_eq (after_byte (by decide) rest)
  | object ms ih =>
    have hend : Ends (125 :: rest) := ends_cons (Or.inr (Or.inr rfl)) rest
    have hmembers := found_members h ms true hend fun m hm rest hr => ih m hm hr
    rw [Value.text_object, List.cons_append, List.append_assoc, after_byte (by decide),
      Value.members]
    exact hmembers.of_eq (after_byte (by decide) rest)

/-- **What `field` finds** in the text of a value. -/
theorem field_text (h : IsKey key) (v : Value) :
    match firstMember key v.members with
    | some m => ∃ r, Ends r ∧ field v.text key = some (m.2.text ++ r)
    | none => field v.text key = none := by
  have hfound := found_text h v ends_nil
  rw [List.append_nil, ← field_eq h] at hfound
  generalize field v.text key = res at *
  cases hfound with
  | hit hm hr =>
    rw [hm]
    exact ⟨_, hr, rfl⟩
  | miss hm =>
    rw [hm]
    exact after_nil (by simp [needle])

end Keys

/-! ### Strings and numbers of members -/

/-- What `field_str` returns for a value: a string up to its first quote, even if that is
escaped. -/
def quoted : Value → Option (List UInt8)
  | .string s => some (s.text.takeWhile (· ≠ 34))
  | _ => none

/-- `strtod` reads the numbers of JSON, whatever can stand behind them. -/
def ReadsNumbers (strtod : List UInt8 → ℚ) : Prop :=
  ∀ (n : Number) (rest : List UInt8), Ends rest → strtod (n.text ++ rest) = n.value

/-- `strtod` reads the numbers of JSON, and other values as 0. -/
def ReadsValues (strtod : List UInt8 → ℚ) : Prop :=
  ∀ (v : Value) (rest : List UInt8), Ends rest → strtod (v.text ++ rest) = v.numeral

/-- The reader of numbers does. -/
theorem readsValues_readNumber : ReadsValues readNumber :=
  fun v _ h => readNumber_value v h.numberEnds

theorem ReadsValues.numbers {strtod : List UInt8 → ℚ} (h : ReadsValues strtod) :
    ReadsNumbers strtod := fun n rest hr => by
  have := h (.number n) rest hr
  rwa [Value.text_number] at this

section Members

variable {key : List UInt8}

/-- Only a string begins with a quote. -/
theorem head?_text_ne {v : Value} (h : quoted v = none) (r : List UInt8) :
    (v.text ++ r).head? ≠ some 34 := by
  have hcons : ∀ (c : UInt8) l, c ≠ 34 → ((c :: l) ++ r).head? ≠ some 34 :=
    fun c l hc hhead => hc (Option.some.inj hhead)
  cases v with
  | literal l =>
    rw [Value.text_literal]
    cases l <;> exact hcons _ _ (by decide)
  | number n =>
    rw [Value.text_number]
    obtain ⟨c, l, hn⟩ := List.exists_cons_of_ne_nil n.text_ne
    have hbyte : IsNumberByte c := Number.mem_text (n := n) (by simp [hn])
    rw [hn]
    apply hcons c l
    rintro rfl
    revert hbyte
    decide
  | string s => cases h
  | array items =>
    rw [Value.text_array]
    exact hcons _ _ (by decide)
  | object ms =>
    rw [Value.text_object]
    exact hcons _ _ (by decide)

/-- A string up to its first quote. -/
theorem takeWhile_quote (t r : List UInt8) :
    ∃ l, t ++ 34 :: r = t.takeWhile (· ≠ 34) ++ 34 :: l := by
  induction t with
  | nil => exact ⟨r, rfl⟩
  | cons c t ih =>
    rcases eq_or_ne c 34 with rfl | hc
    · exact ⟨t ++ 34 :: r, by simp⟩
    · obtain ⟨l, hl⟩ := ih
      exact ⟨l, by rw [List.cons_append, hl, List.takeWhile_cons_of_pos (by simpa using hc),
        List.cons_append]⟩

/-- **What `field_str` finds.** -/
theorem fieldStr_text (h : IsKey key) (v : Value) :
    fieldStr v.text key = (firstMember key v.members).bind fun m => quoted m.2 := by
  have hfield := field_text h v
  cases hm : firstMember key v.members with
  | none =>
    rw [hm] at hfield
    rw [fieldStr, hfield]
    rfl
  | some m =>
    rw [hm] at hfield
    obtain ⟨r, -, hr⟩ := hfield
    rw [fieldStr, hr, Option.bind_some]
    cases hq : quoted m.2 with
    | none => exact if_pos (head?_text_ne hq r)
    | some t =>
      obtain ⟨s, hs, rfl⟩ : ∃ s, m.2 = .string s ∧ s.text.takeWhile (· ≠ 34) = t := by
        cases hv : m.2 <;> rw [hv] at hq
        case string s => exact ⟨s, rfl, Option.some.inj hq⟩
        all_goals cases hq
      obtain ⟨l, hl⟩ := takeWhile_quote s.text r
      have hrest : ((34 :: (s.text ++ [34])) ++ r).drop 1 = s.text.takeWhile (· ≠ 34) ++
          34 :: l := by
        rw [← hl]
        simp
      have hnot : (34 : UInt8) ∉ s.text.takeWhile (· ≠ 34) :=
        fun hmem => by simpa using List.mem_takeWhile_imp hmem
      rw [hs, Value.text_string, Option.bind_eq_bind, Option.bind_some, if_neg (by simp)]
      simp only [hrest, search_singleton hnot, Option.bind_eq_bind, Option.bind_some,
        List.take_left, pure]

end Members

/-! ### Flat objects -/

/-- A string without escapes. -/
def Unescaped (s : Str) : Prop := ∀ c ∈ s, ∃ b h, c = StrChar.plain b h

/-- A number, a string without escapes, or an array of these. -/
inductive Flat : Value → Prop
  /-- A number. -/
  | number (n : Number) : Flat (.number n)
  /-- A string. -/
  | string {s : Str} (h : Unescaped s) : Flat (.string s)
  /-- An array. -/
  | array {items : List Value} (h : ∀ v ∈ items, Flat v) : Flat (.array items)

/-- The members of a flat object. -/
structure FlatMembers (ms : List (Str × Value)) : Prop where
  /-- No key has escapes. -/
  keys : ∀ m ∈ ms, Unescaped m.1
  /-- No two have the same key. -/
  distinct : (ms.map fun m => m.1.text).Nodup
  /-- The values are flat. -/
  values : ∀ m ∈ ms, Flat m.2

/-- There is a member with a string. -/
def HasText (ms : List (Str × Value)) (key text : List UInt8) : Prop :=
  ∃ m ∈ ms, m.1.text = key ∧ ∃ s, m.2 = .string s ∧ s.text = text

/-- There is a member with a number. -/
def HasNumber (ms : List (Str × Value)) (key : List UInt8) (x : ℚ) : Prop :=
  ∃ m ∈ ms, m.1.text = key ∧ ∃ n, m.2 = .number n ∧ n.value = x

section Flat

variable {key text : List UInt8} {ms : List (Str × Value)} {strtod : List UInt8 → ℚ} {x : ℚ}

theorem unescaped_plainStr (l : List UInt8) (h : Each IsPlain l) :
    Unescaped (plainStr l h) := fun c hc => by
  obtain ⟨b, hb, rfl⟩ := List.mem_pmap.mp hc
  exact ⟨b, h b hb, rfl⟩

theorem Unescaped.not_mem {s : Str} (h : Unescaped s) : (34 : UInt8) ∉ s.text := by
  intro hmem
  obtain ⟨c, hc, h34⟩ := List.mem_flatMap.mp hmem
  obtain ⟨b, hb, rfl⟩ := h c hc
  exact hb.2.1 (List.mem_singleton.mp h34).symm

theorem Unescaped.quoted {s : Str} (h : Unescaped s) : quoted (.string s) = some s.text := by
  refine congrArg some (List.takeWhile_eq_self_iff.mpr fun b hb => ?_)
  simpa using fun heq : b = 34 => h.not_mem (heq ▸ hb)

/-- A key without escapes is only taken for itself. -/
theorem Unescaped.named {k : Str} (h : Unescaped k) : Named key k ↔ k.text = key := by
  rw [Named, List.suffix_cons_iff]
  constructor
  · rintro (heq | hsuf)
    · exact (List.cons.inj heq).2.symm
    · exact absurd (hsuf.subset (by simp)) h.not_mem
  · rintro rfl
    exact Or.inl rfl

/-- A flat value has no members. -/
theorem Flat.members {v : Value} (h : Flat v) : v.members = [] := by
  have hitems : ∀ items : List Value, (∀ v ∈ items, v.members = []) → itemsMembers items = [] := by
    intro items
    induction items with
    | nil => exact fun _ => rfl
    | cons v vs ih =>
      intro hvs
      obtain ⟨hv, hvs⟩ := List.forall_mem_cons.mp hvs
      rw [itemsMembers, hv, ih hvs, List.nil_append]
  induction h with
  | number | string => rw [Value.members]
  | array _ ih => exact hitems _ ih

/-- The members of a flat object are its own. -/
theorem FlatMembers.members (h : FlatMembers ms) : (Value.object ms).members = ms := by
  have hown : ∀ ms : List (Str × Value), (∀ m ∈ ms, Flat m.2) → membersMembers ms = ms := by
    intro ms
    induction ms with
    | nil => exact fun _ => rfl
    | cons m ms ih =>
      intro hms
      obtain ⟨hm, hms⟩ := List.forall_mem_cons.mp hms
      rw [membersMembers, hm.members, ih hms, List.nil_append]
  exact hown ms h.values

/-- **A member is found** by its key, wherever it stands. -/
theorem FlatMembers.first (h : FlatMembers ms) {m : Str × Value} (hm : m ∈ ms)
    (hkey : m.1.text = key) :
    firstMember key (Value.object ms).members = some m := by
  rw [h.members]
  obtain ⟨keys, distinct, -⟩ := h
  induction ms with
  | nil => cases hm
  | cons m' ms ih =>
    obtain ⟨hk', hkeys⟩ := List.forall_mem_cons.mp keys
    rw [List.map_cons, List.nodup_cons] at distinct
    rcases List.mem_cons.mp hm with rfl | hm
    · exact List.find?_cons_of_pos (decide_eq_true (hk'.named.mpr hkey))
    · have hne : ¬ Named key m'.1 := fun hn =>
        distinct.1 (List.mem_map.mpr ⟨m, hm, hkey.trans (hk'.named.mp hn).symm⟩)
      exact (List.find?_cons_of_neg (by simpa using hne)).trans (ih hm hkeys distinct.2)

/-- **A string of a flat object** is found. -/
theorem FlatMembers.fieldStr (h : FlatMembers ms) (hkey : IsKey key) (ht : HasText ms key text) :
    fieldStr (Value.object ms).text key = some text := by
  obtain ⟨m, hm, hk, s, hs, rfl⟩ := ht
  have hflat := h.values m hm
  rw [fieldStr_text hkey, h.first hm hk, Option.bind_some]
  rw [hs] at hflat ⊢
  cases hflat with
  | string h => exact h.quoted

theorem FlatMembers.first_none (h : FlatMembers ms) (hno : ∀ m ∈ ms, m.1.text ≠ key) :
    firstMember key (Value.object ms).members = none := by
  rw [h.members]
  exact List.find?_eq_none.mpr fun m hm hn =>
    hno m hm ((h.keys m hm).named.mp (of_decide_eq_true hn))

/-- Where no member has the key, no string is found. -/
theorem FlatMembers.fieldStr_none (h : FlatMembers ms) (hkey : IsKey key)
    (hno : ∀ m ∈ ms, m.1.text ≠ key) :
    Feed.fieldStr (Value.object ms).text key = none := by
  rw [fieldStr_text hkey, h.first_none hno, Option.bind_none]

/-- And no number. -/
theorem FlatMembers.fieldNum_none (h : FlatMembers ms) (hkey : IsKey key)
    (hno : ∀ m ∈ ms, m.1.text ≠ key) :
    Feed.fieldNum strtod (Value.object ms).text key = none := by
  have hfield := field_text hkey (.object ms)
  rw [h.first_none hno] at hfield
  rw [Feed.fieldNum, hfield, Option.map_none]

/-- **A number of a flat object** is found. -/
theorem FlatMembers.fieldNum (h : FlatMembers ms) (hs : ReadsNumbers strtod) (hkey : IsKey key)
    (hx : HasNumber ms key x) :
    fieldNum strtod (Value.object ms).text key = some x := by
  obtain ⟨m, hm, hk, n, hn, rfl⟩ := hx
  have hfield := field_text hkey (.object ms)
  rw [h.first hm hk] at hfield
  obtain ⟨r, hends, hr⟩ := hfield
  rw [Feed.fieldNum, hr, Option.map_some, hn, Value.text_number, hs n r hends]

end Flat

/-- A string as a member. -/
def textMember (key text : List UInt8) (hk : Each IsPlain key) (ht : Each IsPlain text) :
    Str × Value :=
  (plainStr key hk, .string (plainStr text ht))

theorem hasText_of_mem {ms : List (Str × Value)} {key text : List UInt8} (hk : Each IsPlain key)
    (ht : Each IsPlain text) (h : textMember key text hk ht ∈ ms) :
    HasText ms key text :=
  ⟨_, h, text_plainStr key hk, _, rfl, text_plainStr text ht⟩

theorem hasNumber_of_mem {ms : List (Str × Value)} {key : List UInt8} {n : Number} {x : ℚ}
    (hk : Each IsPlain key) (h : (plainStr key hk, .number n) ∈ ms) (hx : n.value = x) :
    HasNumber ms key x :=
  ⟨_, h, text_plainStr key hk, n, rfl, hx⟩

end TradeFeed.Feed
