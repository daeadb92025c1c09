import Mathlib.Data.Rat.Floor
import TradeFeed.Core.Types
import TradeFeed.Feed.AlpacaWs

/-!
# The normaliser

`feed_normalizer.h`: the functions that cut a frame of JSON into objects, find a value in
the text of an object by a search for its key, and fill a record from it. Views are lists
of bytes; `fn` of `for_each_object` is called on the views that are listed.

Floating-point numbers are rationals and their arithmetic is exact. `strtod` is an
argument; it reads the bytes from the value to the end of the view. (The source's reads on
behind the view if nothing stops it, but a view that `for_each_object` makes ends in a
brace, which does.) A conversion to an integer type truncates, modulo its range.
-/

namespace TradeFeed

open Lib.Bytes

/-- `static_cast<uint32_t>(x)` of a `double`. -/
def castU32 (x : ℚ) : UInt32 := UInt32.ofInt (if 0 ≤ x then ⌊x⌋ else ⌈x⌉)

/-- `struct CaptureRecord`. -/
@[ext]
structure CaptureRecord where
  /-- The type of tick: `TickType::Quote` or `TickType::Trade`. -/
  type : UInt8
  /-- The symbol. -/
  symbol : Fin 7 → UInt8
  /-- The bid, or the price of a trade. -/
  p1 : UInt32
  /-- The size of the bid, or of a trade. -/
  s1 : UInt32
  /-- The offer, or 0 for a trade. -/
  p2 : UInt32
  /-- The size of the offer, or 0 for a trade. -/
  s2 : UInt32
  /-- When the venue reported it. -/
  venueNs : UInt64
  deriving DecidableEq

/-- `CaptureRecord{}`. -/
def CaptureRecord.zero : CaptureRecord := ⟨0, fun _ => 0, 0, 0, 0, 0, 0⟩

/-- `TickType::Quote`, `'q'`. -/
def quoteType : UInt8 := 113

/-- `TickType::Trade`, `'t'`. -/
def tradeType : UInt8 := 116

namespace Feed

/-- `to_cents(dollars)`. -/
def toCents (dollars : ℚ) : Price :=
  if dollars ≤ 0 then invalidPrice
  else
    let cents := dollars * 100 + 1 / 2
    if cents > (maxPrice.toNat : ℚ) then 0 else castU32 cents

/-! ### Fields -/

/-- `field(obj, key)`. -/
def field (obj key : List UInt8) : Option (List UInt8) :=
  if key.length + 3 ≥ 24 then none
  else do
    let needle := 34 :: (key ++ [34, 58])
    let i ← search needle obj
    return obj.drop (i + needle.length)

/-- `field_num(obj, key)`. -/
def fieldNum (strtod : List UInt8 → ℚ) (obj key : List UInt8) : Option ℚ :=
  (field obj key).map strtod

/-- `field_str(obj, key)`. -/
def fieldStr (obj key : List UInt8) : Option (List UInt8) := do
  let v ← field obj key
  if v.head? ≠ some 34 then none
  else
    let rest := v.drop 1
    let i ← search [34] rest
    return rest.take i

/-! ### Time stamps -/

/-- `days_from_civil(y, m, d)`. -/
def daysFromCivil (y : Int32) (m d : UInt32) : Int64 :=
  let y := if m ≤ 2 then y - 1 else y
  let era := ((if y ≥ 0 then y else y - 399) / 400).toInt64
  let yoe := (y.toInt64 - era * 400).toUInt64.toUInt32
  let doy := (153 * (m + if m > 2 then (-3 : Int32).toUInt32 else 9) + 2) / 5 + d - 1
  let doe := yoe * 365 + yoe / 4 - yoe / 100 + doy
  era * 146097 + doe.toUInt64.toInt64 - 719468

/-- The byte is a decimal digit. -/
def isDigit (c : UInt8) : Bool := 48 ≤ c && c ≤ 57

/-- `c - '0'`, of a digit. -/
def digitValue (c : UInt8) : Int64 := (c - 48).toUInt64.toInt64

/-- The loop of `num`, over the bytes that it may read. -/
def numLoop (v : Int64) : List UInt8 → Int64
  | [] => v
  | c :: cs => if isDigit c then numLoop (v * 10 + digitValue c) cs else v

/-- `num(off, len)`. -/
def num (s : List UInt8) (off len : ℕ) : Int64 := numLoop 0 ((s.drop off).take len)

/-- The first loop over the fraction: the number read, and how many digits. -/
def fractionLoop (nanos : Int64) (digits : ℕ) : List UInt8 → Int64 × ℕ
  | [] => (nanos, digits)
  | c :: cs =>
    if isDigit c && decide (digits < 9) then
      fractionLoop (nanos * 10 + digitValue c) (digits + 1) cs
    else (nanos, digits)

/-- The second one: so many more digits 0. -/
def padLoop (nanos : Int64) : ℕ → Int64
  | 0 => nanos
  | n + 1 => padLoop (nanos * 10) n

/-- `parse_rfc3339_ns(s)`. -/
def parseRfc3339Ns (s : List UInt8) : UInt64 :=
  if s.length < 20 then 0
  else
    let days := daysFromCivil (num s 0 4).toInt32 (num s 5 2).toUInt64.toUInt32
      (num s 8 2).toUInt64.toUInt32
    let secs := days * 86400 + num s 11 2 * 3600 + num s 14 2 * 60 + num s 17 2
    let nanos :=
      if s.length > 20 && s[19]? = some 46 then
        let (nanos, digits) := fractionLoop 0 0 (s.drop 20)
        padLoop nanos (9 - digits)
      else 0
    secs.toUInt64 * 1000000000 + nanos.toUInt64

/-! ### Records -/

/-- The symbol, padded with zeros. -/
def symbolOf (sym : List UInt8) : Fin 7 → UInt8 := fun i => sym.getD i 0

/-- A size, or 0 if it is missing. -/
def sizeOf (s : Option ℚ) : UInt32 := (s.map castU32).getD 0

/-- The end of `normalize` for a quote. -/
def normalizeQuote (strtod : List UInt8 → ℚ) (obj : List UInt8) (out : CaptureRecord) :
    Bool × CaptureRecord :=
  match fieldNum strtod obj (ascii "bp"), fieldNum strtod obj (ascii "ap") with
  | some bp, some ap =>
    let out := { out with
      p1 := toCents bp, s1 := sizeOf (fieldNum strtod obj (ascii "bs"))
      p2 := toCents ap, s2 := sizeOf (fieldNum strtod obj (ascii "as")) }
    (!(out.p1 = 0 || out.p2 = 0), out)
  | _, _ => (false, out)

/-- The end of `normalize` for a trade. -/
def normalizeTrade (strtod : List UInt8 → ℚ) (obj : List UInt8) (out : CaptureRecord) :
    Bool × CaptureRecord :=
  match fieldNum strtod obj (ascii "p") with
  | some p =>
    let out := { out with p1 := toCents p, s1 := sizeOf (fieldNum strtod obj (ascii "s")) }
    (!(out.p1 = 0), out)
  | none => (false, out)

/-- `normalize(obj, out)`: what it returns, and the record. -/
def normalize (strtod : List UInt8 → ℚ) (obj : List UInt8) (out : CaptureRecord) :
    Bool × CaptureRecord :=
  match fieldStr obj (ascii "T") with
  | none | some [] => (false, out)
  | some (kind :: _) =>
    if kind ≠ quoteType ∧ kind ≠ tradeType then (false, out)
    else
      match fieldStr obj (ascii "S") with
      | none => (false, out)
      | some sym =>
        let out := { CaptureRecord.zero with type := kind, symbol := symbolOf sym }
        let out := match fieldStr obj (ascii "t") with
          | some ts => { out with venueNs := parseRfc3339Ns ts }
          | none => out
        if kind = quoteType then normalizeQuote strtod obj out else normalizeTrade strtod obj out

/-! ### Splitting a frame -/

/-- The variables of `for_each_object`. An `int` is enough for the depth: it changes by one
at most with each byte. -/
structure Splitter where
  /-- How many braces are open. -/
  depth : ℤ
  /-- Whether a string is. -/
  inStr : Bool
  /-- Whether the next byte is escaped. -/
  esc : Bool
  /-- Where the last object of depth 0 began. -/
  start : ℕ

/-- What they are at first. -/
def Splitter.new : Splitter := ⟨0, false, false, 0⟩

/-- A part of a frame. -/
structure View where
  /-- Where it begins. -/
  pos : ℕ
  /-- How long it is. -/
  len : ℕ
  deriving DecidableEq

/-- `frame.substr(pos, len)`. -/
def View.of (v : View) (frame : List UInt8) : List UInt8 := (frame.drop v.pos).take v.len

/-- The body of the loop, for the byte `c` at `i`: the variables after it, and the view that
`fn` is called on. -/
def Splitter.step (s : Splitter) (i : ℕ) (c : UInt8) : Splitter × Option View :=
  if s.esc then ({ s with esc := false }, none)
  else if c = 92 then ({ s with esc := true }, none)
  else if c = 34 then ({ s with inStr := !s.inStr }, none)
  else if s.inStr then (s, none)
  else if c = 123 then
    ({ s with depth := s.depth + 1, start := if s.depth = 0 then i else s.start }, none)
  else if c = 125 then
    ({ s with depth := s.depth - 1 },
      if s.depth - 1 = 0 then some ⟨s.start, i - s.start + 1⟩ else none)
  else (s, none)

/-- The loop, from `i` on: the views that `fn` is called on. -/
def splitFrom (s : Splitter) (i : ℕ) : List UInt8 → List View
  | [] => []
  | c :: cs => (s.step i c).2.toList ++ splitFrom (s.step i c).1 (i + 1) cs

/-- The views of `for_each_object(frame, fn)`. -/
def objectViews (frame : List UInt8) : List View := splitFrom .new 0 frame

/-- `for_each_object(frame, fn)`: what `fn` is called on. -/
def forEachObject (frame : List UInt8) : List (List UInt8) :=
  (objectViews frame).map fun v => v.of frame

end Feed

end TradeFeed
