import Mathlib.Tactic.Linarith
import TradeFeed.Feed.Fields

/-!
# Dollars and cents

`to_cents` rounds to the nearest cent by adding half a cent and cutting off the fraction. It
compares with `MAX_PRICE` before the fraction is cut off, and so refuses the amounts that
round to `MAX_PRICE` from above, $10,000.00 itself among them: the amounts of the `Gap`.

`cents_exact` says that these are all the amounts on which it is not what it is meant to be,
and when `normalize` drops a message for that. The prices of a message are those that are found in
its text (`Priced`); in a flat object they are those of its members (`HasPrices`).
-/

namespace TradeFeed.Feed

open Lib.Bytes Lib.Json

/-- An amount to the nearest cent. -/
def rounded (dollars : ℚ) : ℤ := ⌊100 * dollars + 1 / 2⌋

/-- To the nearest cent, the amount is a price that the order book accepts. -/
def InRange (dollars : ℚ) : Prop :=
  (minPrice.toNat : ℤ) ≤ rounded dollars ∧ rounded dollars ≤ maxPrice.toNat

instance (dollars : ℚ) : Decidable (InRange dollars) := inferInstanceAs (Decidable (_ ∧ _))

/-- `to_cents` gives the rounded amount, or 0 if it is out of range. -/
def CentsExact (dollars : ℚ) : Prop :=
  ((toCents dollars).toNat : ℤ) = if InRange dollars then rounded dollars else 0

/-- The amount rounds to `MAX_PRICE`, but is above it when half a cent is added. -/
def Gap (dollars : ℚ) : Prop := 9999.995 < dollars ∧ dollars < 10000.005

/-! ### Amounts -/

section Amounts

variable {d : ℚ}

theorem castU32_toNat {x : ℚ} (h : 0 ≤ x) (hlt : ⌊x⌋ < 2 ^ 32) : ((castU32 x).toNat : ℤ) = ⌊x⌋ := by
  have h0 : 0 ≤ ⌊x⌋ := Int.floor_nonneg.mpr h
  rw [castU32, if_pos h, UInt32.ofInt, UInt32.toNat_ofNat']
  omega

/-- What `to_cents` does. -/
theorem toCents_toNat (d : ℚ) :
    ((toCents d).toNat : ℤ) = if 0 < d ∧ 100 * d + 1 / 2 ≤ 1000000 then rounded d else 0 := by
  have hcents : d * 100 + 1 / 2 = 100 * d + 1 / 2 := by ring
  have hmax : (maxPrice.toNat : ℚ) = 1000000 := by
    rw [show maxPrice.toNat = 1000000 from rfl]
    norm_num
  rw [toCents, hcents, hmax]
  by_cases hpos : 0 < d
  · rw [if_neg (not_le.mpr hpos)]
    by_cases hle : 100 * d + 1 / 2 ≤ 1000000
    · have hfloor : ⌊100 * d + 1 / 2⌋ ≤ 1000000 := Int.floor_le_iff.mpr (by push_cast; linarith)
      rw [if_neg (not_lt.mpr hle), if_pos ⟨hpos, hle⟩,
        castU32_toNat (by linarith) (by omega), rounded]
    · rw [if_pos (not_le.mp hle), if_neg fun h => hle h.2]
      rfl
  · rw [if_pos (not_lt.mp hpos), if_neg fun h => hpos h.1]
    rfl

theorem inRange_iff (d : ℚ) : InRange d ↔ 1 ≤ 100 * d + 1 / 2 ∧ 100 * d + 1 / 2 < 1000001 := by
  rw [InRange, rounded, show (minPrice.toNat : ℤ) = 1 from rfl,
    show (maxPrice.toNat : ℤ) = 1000000 from rfl, Int.le_floor, ← Int.lt_add_one_iff, Int.floor_lt]
  norm_num

theorem gap_iff (d : ℚ) : Gap d ↔ 1000000 < 100 * d + 1 / 2 ∧ 100 * d + 1 / 2 < 1000001 := by
  constructor
  · rintro ⟨h₁, h₂⟩
    constructor <;> norm_num at h₁ h₂ ⊢ <;> linarith
  · rintro ⟨h₁, h₂⟩
    constructor <;> norm_num at h₁ h₂ ⊢ <;> linarith

theorem Gap.inRange (h : Gap d) : InRange d := by
  obtain ⟨h₁, h₂⟩ := (gap_iff d).mp h
  exact (inRange_iff d).mpr ⟨by linarith, h₂⟩

/-- An amount is refused exactly when it is out of range, or in the gap. -/
theorem toCents_eq_zero_iff (d : ℚ) : toCents d = 0 ↔ ¬ InRange d ∨ Gap d := by
  have hzero : toCents d = 0 ↔ ((toCents d).toNat : ℤ) = 0 := by
    rw [← UInt32.toNat_inj, Int.natCast_eq_zero]
    rfl
  rw [hzero, toCents_toNat, inRange_iff, gap_iff]
  split_ifs with h
  · obtain ⟨hpos, hle⟩ := h
    have hfloor : rounded d = 0 ↔ 100 * d + 1 / 2 < 1 := by
      rw [rounded, Int.floor_eq_zero_iff, Set.mem_Ico]
      exact and_iff_right (by linarith)
    rw [hfloor]
    constructor
    · exact fun hlt => Or.inl fun hin => absurd hin.1 (not_le.mpr hlt)
    · rintro (hout | hgap)
      · exact not_le.mp fun h1 => hout ⟨h1, by linarith⟩
      · exact absurd hgap.1 (not_lt.mpr hle)
  · apply iff_of_true rfl
    by_cases hlt : 100 * d + 1 / 2 < 1000001
    · by_cases hpos : 0 < d
      · exact Or.inr ⟨not_le.mp fun hle => h ⟨hpos, hle⟩, hlt⟩
      · exact Or.inl fun hin => by linarith [hin.1]
    · exact Or.inl fun hin => hlt hin.2

/-- **`to_cents` is exact** but in the gap. -/
theorem centsExact_iff (d : ℚ) : CentsExact d ↔ ¬ Gap d := by
  rw [CentsExact]
  split_ifs with hin
  · obtain ⟨h1, h2⟩ := (inRange_iff d).mp hin
    have hpos : 0 < d := by linarith
    rw [toCents_toNat, gap_iff]
    by_cases hle : 100 * d + 1 / 2 ≤ 1000000
    · rw [if_pos ⟨hpos, hle⟩]
      exact iff_of_true rfl fun h => absurd h.1 (not_lt.mpr hle)
    · rw [if_neg fun h => hle h.2]
      -- it rounds to a price that is not 0
      refine iff_of_false (fun h0 => ?_) (not_not.mpr ⟨not_le.mp hle, h2⟩)
      have := hin.1
      rw [← h0] at this
      exact absurd this (by decide)
  · have hnot : ¬ Gap d := fun h => hin h.inRange
    rw [(toCents_eq_zero_iff d).mpr (Or.inl hin)]
    exact iff_of_true rfl hnot

end Amounts

/-! ### Messages -/

/-- The prices of a quote or trade whose type, symbol and prices `normalize` finds. -/
inductive Priced (strtod : List UInt8 → ℚ) (obj : List UInt8) : List ℚ → Prop
  /-- Those of a quote. -/
  | quote {rest sym : List UInt8} {bp ap : ℚ}
    (ht : fieldStr obj (ascii "T") = some (quoteType :: rest))
    (hs : fieldStr obj (ascii "S") = some sym) (hb : fieldNum strtod obj (ascii "bp") = some bp)
    (ha : fieldNum strtod obj (ascii "ap") = some ap) : Priced strtod obj [bp, ap]
  /-- That of a trade. -/
  | trade {rest sym : List UInt8} {p : ℚ} (ht : fieldStr obj (ascii "T") = some (tradeType :: rest))
    (hs : fieldStr obj (ascii "S") = some sym) (hp : fieldNum strtod obj (ascii "p") = some p) :
    Priced strtod obj [p]

/-- The prices that the members of a quote or trade give. -/
inductive HasPrices (ms : List (Str × Value)) : List ℚ → Prop
  /-- Those of a quote. -/
  | quote {sym : List UInt8} {bp ap : ℚ} (ht : HasText ms (ascii "T") (ascii "q"))
    (hs : HasText ms (ascii "S") sym) (hb : HasNumber ms (ascii "bp") bp)
    (ha : HasNumber ms (ascii "ap") ap) : HasPrices ms [bp, ap]
  /-- That of a trade. -/
  | trade {sym : List UInt8} {p : ℚ} (ht : HasText ms (ascii "T") (ascii "t"))
    (hs : HasText ms (ascii "S") sym) (hp : HasNumber ms (ascii "p") p) : HasPrices ms [p]

section Messages

variable {strtod : List UInt8 → ℚ} {obj : List UInt8} {prices : List ℚ}

/-- Of such a message, `normalize` only checks the prices. -/
theorem Priced.normalize_iff (h : Priced strtod obj prices) (out : CaptureRecord) :
    (normalize strtod obj out).1 = true ↔ ∀ p ∈ prices, toCents p ≠ 0 := by
  have hne : tradeType ≠ quoteType := by decide
  cases h with
  | quote ht hs hb ha => simp [normalize, ht, hs, normalizeQuote, hb, ha]
  | trade ht hs hp => simp [normalize, ht, hs, normalizeTrade, hp, hne]

/-- In the text of a flat object, `normalize` finds the prices that its members give. -/
theorem HasPrices.priced {ms : List (Str × Value)} (h : HasPrices ms prices)
    (hflat : FlatMembers ms) (hs : ReadsNumbers strtod) :
    Priced strtod (Value.object ms).text prices := by
  cases h with
  | quote ht hsym hb ha =>
    exact .quote (hflat.fieldStr (by decide) ht) (hflat.fieldStr (by decide) hsym)
      (hflat.fieldNum hs (by decide) hb) (hflat.fieldNum hs (by decide) ha)
  | trade ht hsym hp =>
    exact .trade (hflat.fieldStr (by decide) ht) (hflat.fieldStr (by decide) hsym)
      (hflat.fieldNum hs (by decide) hp)

/-- It accepts no other. -/
theorem priced_of_normalize {out : CaptureRecord} (h : (normalize strtod obj out).1 = true) :
    ∃ prices, Priced strtod obj prices := by
  have hne : tradeType ≠ quoteType := by decide
  rcases ht : fieldStr obj (ascii "T") with - | (- | ⟨kind, rest⟩)
  · simp [normalize, ht] at h
  · simp [normalize, ht] at h
  rcases hs : fieldStr obj (ascii "S") with - | sym
  · simp [normalize, ht, hs] at h
  by_cases hq : kind = quoteType
  · subst hq
    rcases hb : fieldNum strtod obj (ascii "bp") with - | bp
    · simp [normalize, ht, hs, normalizeQuote, hb] at h
    rcases ha : fieldNum strtod obj (ascii "ap") with - | ap
    · simp [normalize, ht, hs, normalizeQuote, hb, ha] at h
    exact ⟨_, .quote ht hs hb ha⟩
  by_cases htr : kind = tradeType
  · subst htr
    rcases hp : fieldNum strtod obj (ascii "p") with - | p
    · simp [normalize, ht, hs, normalizeTrade, hp, hne] at h
    exact ⟨_, .trade ht hs hp⟩
  · simp [normalize, ht, hq, htr] at h

/-- **A message is accepted** exactly when its type, symbol and prices are found and no price is
refused. -/
theorem normalize_iff (out : CaptureRecord) :
    (normalize strtod obj out).1 = true ↔
      ∃ prices, Priced strtod obj prices ∧ ∀ p ∈ prices, toCents p ≠ 0 := by
  constructor
  · intro h
    obtain ⟨prices, hp⟩ := priced_of_normalize h
    exact ⟨prices, hp, (hp.normalize_iff out).mp h⟩
  · rintro ⟨prices, hp, h⟩
    exact (hp.normalize_iff out).mpr h

/-- It is dropped only where some price is out of range exactly when one is, or none is in the
gap. -/
theorem Priced.dropped_iff (h : Priced strtod obj prices) (out : CaptureRecord) :
    ((normalize strtod obj out).1 = false → ∃ p ∈ prices, ¬ InRange p) ↔
      (∃ p ∈ prices, ¬ InRange p) ∨ ∀ p ∈ prices, ¬ Gap p := by
  have hfalse : (normalize strtod obj out).1 = false ↔ ∃ p ∈ prices, ¬ InRange p ∨ Gap p := by
    rw [← Bool.not_eq_true, h.normalize_iff]
    simp only [ne_eq, toCents_eq_zero_iff, not_forall, not_not, exists_prop]
  rw [hfalse]
  constructor
  · intro himp
    by_cases hout : ∃ p ∈ prices, ¬ InRange p
    · exact Or.inl hout
    · exact Or.inr fun p hp hgap => hout (himp ⟨p, hp, Or.inr hgap⟩)
  · rintro (hout | hnone) ⟨p, hp, hin | hgap⟩
    · exact hout
    · exact hout
    · exact ⟨p, hp, hin⟩
    · exact absurd hgap (hnone p hp)

end Messages

/-- **The conversion covers the price range but for the gap**: `to_cents` is exact outside of it,
and `normalize` drops a message for a price that is in range exactly when one of its prices is in
the gap, all of them being in range. The prices are those that are found in the text, whatever it
is; in the text of a flat object they are the ones that its members give. -/
theorem cents_exact (d : ℚ) (strtod : List UInt8 → ℚ) (obj : List UInt8) (out : CaptureRecord)
    (prices : List ℚ) :
    (CentsExact d ↔ ¬ Gap d) ∧
      (Priced strtod obj prices →
        (((normalize strtod obj out).1 = false → ∃ p ∈ prices, ¬ InRange p) ↔
          (∃ p ∈ prices, ¬ InRange p) ∨ ∀ p ∈ prices, ¬ Gap p)) ∧
      ∀ ms, FlatMembers ms → HasPrices ms prices → ReadsNumbers strtod →
        (((normalize strtod (Value.object ms).text out).1 = false → ∃ p ∈ prices, ¬ InRange p) ↔
          (∃ p ∈ prices, ¬ InRange p) ∨ ∀ p ∈ prices, ¬ Gap p) :=
  ⟨centsExact_iff d, fun h => h.dropped_iff out,
    fun _ hflat hprices hs => (hprices.priced hflat hs).dropped_iff out⟩

/-- The price $162.92. -/
def applePrice : Number :=
  ⟨false, toDecimal 3 162, toDecimal 2 92, none, by decide, fun d ds h _ => by
    obtain rfl := (List.cons.inj h).1
    decide⟩

theorem applePrice_value : applePrice.value = 162.92 := by
  norm_num [Number.value, applePrice, ofDecimal_toDecimal]

theorem plain_type : Each IsPlain (ascii "T") := by decide
theorem plain_symbol : Each IsPlain (ascii "S") := by decide
theorem plain_price : Each IsPlain (ascii "p") := by decide
theorem plain_trade : Each IsPlain (ascii "t") := by decide
theorem plain_apple : Each IsPlain (ascii "AAPL") := by decide

/-- The members of a trade at that price. -/
def tradeMembers : List (Str × Value) :=
  [textMember (ascii "T") (ascii "t") plain_type plain_trade,
    textMember (ascii "S") (ascii "AAPL") plain_symbol plain_apple,
    (plainStr (ascii "p") plain_price, .number applePrice)]

theorem tradeMembers_flat : FlatMembers tradeMembers where
  keys := by simp [tradeMembers, textMember, unescaped_plainStr]
  distinct := by decide
  values := by
    simp only [tradeMembers, textMember, List.forall_mem_cons, List.not_mem_nil, false_imp_iff,
      implies_true, and_true]
    exact ⟨.string (unescaped_plainStr _ _), .string (unescaped_plainStr _ _), .number _⟩

/-- Its price is exact, and is no reason to drop it. -/
theorem cents_exact_trade :
    CentsExact 162.92 ∧ (Value.object tradeMembers).text =
      ascii "\x7b\"T\":\"t\",\"S\":\"AAPL\",\"p\":162.92\x7d" ∧
      ((normalize readNumber (Value.object tradeMembers).text .zero).1 = false →
        ∃ p ∈ [(162.92 : ℚ)], ¬ InRange p) := by
  have hgap : ¬ Gap 162.92 := fun h => absurd h.1 (by norm_num)
  have hprices : HasPrices tradeMembers [162.92] :=
    .trade (hasText_of_mem plain_type plain_trade (by simp [tradeMembers]))
      (hasText_of_mem plain_symbol plain_apple (by simp [tradeMembers]))
      (hasNumber_of_mem plain_price (by simp [tradeMembers]) applePrice_value)
  obtain ⟨hcents, -, hdrop⟩ := cents_exact 162.92 readNumber [] .zero [162.92]
  exact ⟨hcents.mpr hgap, by decide,
    (hdrop _ tradeMembers_flat hprices readsValues_readNumber.numbers).mpr
      (Or.inr (List.forall_mem_singleton.mpr hgap))⟩

/-- A reading that is always the same. -/
theorem fieldNum_const {obj key : List UInt8} (x : ℚ) (h : (field obj key).isSome = true) :
    fieldNum (fun _ => x) obj key = some x := by
  obtain ⟨v, hv⟩ := Option.isSome_iff_exists.mp h
  rw [fieldNum, hv, Option.map_some]

/-- A trade at $10,000.00, the highest price. -/
def topTradeText : List UInt8 := ascii "\x7b\"T\":\"t\",\"S\":\"AAPL\",\"p\":10000.00,\"s\":3\x7d"

/-- **The highest price is refused**, and the trade dropped. -/
theorem top_price_refused :
    ¬ CentsExact 10000 ∧ InRange 10000 ∧ rounded 10000 = maxPrice.toNat ∧
      (normalize (fun _ => 10000) topTradeText .zero).1 = false := by
  have hgap : Gap 10000 := by constructor <;> norm_num
  have hround : rounded 10000 = maxPrice.toNat := by
    rw [rounded, Int.floor_eq_iff, show maxPrice.toNat = 1000000 from rfl]
    norm_num
  have ht : fieldStr topTradeText (ascii "T") = some [tradeType] := by decide
  have hs : fieldStr topTradeText (ascii "S") = some (ascii "AAPL") := by decide
  have hpriced : Priced (fun _ => 10000) topTradeText [10000] :=
    .trade ht hs (fieldNum_const _ (by decide))
  refine ⟨fun h => (centsExact_iff _).mp h hgap, hgap.inRange, hround, ?_⟩
  rw [← Bool.not_eq_true, hpriced.normalize_iff]
  exact fun h => h 10000 (by simp) ((toCents_eq_zero_iff _).mpr (Or.inr hgap))

end TradeFeed.Feed
