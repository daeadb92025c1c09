import TradeFeed.Engine.Steps
import TradeFeed.Feed.Messages
import TradeFeed.Feed.RecordLimit

/-!
# The sizes of orders

What `emit_orders` makes of a record that `normalize` accepted. A quote's sizes are round
lots of 100 shares, and are multiplied in 32 bits: an order has the right quantity exactly
when its size is below 2³² / 100. From there on the product wraps around, for some sizes
to 0 (`orders_sized_iff`). In a flat object the sizes are those of its members (`HasSizes`).
The prices of the orders are always ones that the book accepts, and a trade's order always
has the right quantity.
-/

namespace TradeFeed.Feed

open Lib.Bytes Lib.Json

variable {strtod : List UInt8 → ℚ} {send : ℕ → ℕ} {obj : List UInt8} {r : CaptureRecord}

/-! ### What is sent -/

/-- The orders that `emit_orders(fd, r, client)` sends, as the exchange finds them: each 32 of
the bytes are one. -/
def sentOrders (send : ℕ → ℕ) (e : Sender) (r : CaptureRecord) (client : ClientId) :
    List WireMessage :=
  (frames wireMsgSize ((emitOrders send e r client).1.written.drop e.written.length)).map .ofBytes

/-- The loop sends a part of the message from its beginning, and says whether it is all of it. -/
theorem sendLoop_part (send : ℕ → ℕ) {fuel : ℕ} {data : List UInt8} (hfuel : data.length ≤ fuel)
    (e : Sender) :
    ∃ k calls, sendLoop send fuel e data =
      ({ e with written := e.written ++ data.take k, calls := calls },
        decide (data.length ≤ k)) := by
  induction fuel generalizing e data with
  | zero =>
    obtain rfl := List.eq_nil_of_length_eq_zero (Nat.le_zero.mp hfuel)
    exact ⟨0, e.calls, by simp [sendLoop]⟩
  | succ fuel ih =>
    by_cases hnil : data = []
    · subst hnil
      exact ⟨0, e.calls, by simp [sendLoop]⟩
    have hpos := List.length_pos_of_ne_nil hnil
    by_cases hn : min (send e.calls) data.length = 0
    · refine ⟨0, e.calls + 1, ?_⟩
      have hlen : ¬ data.length ≤ 0 := by omega
      simp [sendLoop, hnil, hn, hlen]
    · have hrest : (data.drop (min (send e.calls) data.length)).length ≤ fuel := by
        rw [List.length_drop]
        omega
      obtain ⟨k, calls, h⟩ := ih hrest
        { e with written := e.written ++ data.take (min (send e.calls) data.length), calls :=
          e.calls + 1 }
      refine ⟨min (send e.calls) data.length + k, calls, ?_⟩
      have hall : (data.drop (min (send e.calls) data.length)).length ≤ k ↔
          data.length ≤ min (send e.calls) data.length + k := by
        rw [List.length_drop]
        omega
      simp only [sendLoop, if_neg hnil, if_neg hn]
      rw [h, List.append_assoc, List.take_add, decide_eq_decide.mpr hall]

theorem sendWire_part (send : ℕ → ℕ) (e : Sender) (w : WireMessage) :
    ∃ k calls, sendWire send e w =
      ({ e with written := e.written ++ w.bytes.take k, calls := calls },
        decide (w.bytes.length ≤ k)) :=
  sendLoop_part send w.length_bytes.le e

/-- Whatever the calls of `send` do, what is sent is a first part of the record's orders. -/
theorem emitOrders_part (send : ℕ → ℕ) (e : Sender) (r : CaptureRecord) (client : ClientId) :
    ∃ k, (emitOrders send e r client).1.written =
      e.written ++ ((ordersFor client e.buy r).flatMap WireMessage.bytes).take k := by
  unfold emitOrders ordersFor nextBuy
  by_cases hquote : r.type = quoteType
  · simp only [if_pos hquote]
    obtain ⟨k, calls, hbid⟩ := sendWire_part send e (orderWire r client .buy r.p1 (roundLots r.s1))
    by_cases hk : (orderWire r client .buy r.p1 (roundLots r.s1)).bytes.length ≤ k
    · -- the bid is sent whole, and so much of the offer
      obtain ⟨k', calls', hoffer⟩ := sendWire_part send
        { e with
          written := e.written ++ (orderWire r client .buy r.p1 (roundLots r.s1)).bytes.take k,
          calls := calls }
        (orderWire r client .sell r.p2 (roundLots r.s2))
      refine ⟨(orderWire r client .buy r.p1 (roundLots r.s1)).bytes.length + k', ?_⟩
      rw [hbid, decide_eq_true hk]
      simp only
      rw [hoffer]
      rw [List.take_of_length_le hk, List.flatMap_cons, List.flatMap_cons, List.flatMap_nil,
        List.append_nil, List.take_length_add_append]
      cases decide (_ ≤ k') <;> exact List.append_assoc ..
    · refine ⟨k, ?_⟩
      rw [hbid, decide_eq_false hk, List.flatMap_cons,
        List.take_append_of_le_length (not_le.mp hk).le]
  · simp only [if_neg hquote]
    obtain ⟨k, calls, h⟩ := sendWire_part send { e with buy := !e.buy }
      (orderWire r client (if !e.buy then .buy else .sell) r.p1 (tradeQuantity r.s1))
    refine ⟨k, ?_⟩
    rw [h, List.flatMap_cons, List.flatMap_nil, List.append_nil]
    cases decide (_ ≤ k) <;> rfl

/-- Read back, the bytes of messages are the messages. -/
theorem frames_messages (ws : List WireMessage) :
    (frames wireMsgSize (ws.flatMap WireMessage.bytes)).map .ofBytes = ws := by
  have hread : (WireMessage.ofBytes ∘ WireMessage.bytes) = id := funext WireMessage.ofBytes_bytes
  rw [frames_flatMap (n := wireMsgSize) (Nat.succ_pos 31) fun w _ => w.length_bytes, List.map_map,
    hread, List.map_id]

/-- The orders that are sent are the record's, up to some place. -/
theorem sentOrders_initial (send : ℕ → ℕ) (e : Sender) (r : CaptureRecord) (client : ClientId) :
    sentOrders send e r client <+: ordersFor client e.buy r := by
  obtain ⟨k, hpart⟩ := emitOrders_part send e r client
  rw [sentOrders, hpart, List.drop_left]
  have hpre := (frames_initial (n := wireMsgSize)
    (List.take_prefix k ((ordersFor client e.buy r).flatMap WireMessage.bytes))).map
    WireMessage.ofBytes
  rwa [frames_messages] at hpre

/-- Where no call fails they all are. -/
theorem sentOrders_all (hsend : ∀ k, 0 < send k) (e : Sender) (r : CaptureRecord)
    (client : ClientId) :
    sentOrders send e r client = ordersFor client e.buy r := by
  obtain ⟨calls, hall⟩ := emitOrders_spec hsend e r client
  rw [sentOrders, hall, List.drop_left, frames_messages]

/-! ### The orders of a record -/

/-- The engine can take an order for so many shares: the price is in range, so that it is not
rejected for that, and it is not empty. -/
structure OrderSound (w : WireMessage) (shares : ℕ) : Prop where
  /-- It is a new order. -/
  type : w.type = MessageType.newOrder.byte
  /-- Its price is in range. -/
  price : minPrice ≤ w.price ∧ w.price ≤ maxPrice
  /-- It is not empty. -/
  positive : 0 < w.quantity.toNat
  /-- Its quantity is right. -/
  quantity : w.quantity.toNat = shares
  /-- The engine, in whatever state, rejects it only when its pool is empty. -/
  taken : ∀ {cap : ℕ} (e e' : MatchingEngine cap) (tsc tsc' : Timestamp)
    (out : List OutboundMessage),
    e.process tsc (w.inbound tsc') = some (e', out) → (∃ m ∈ out, m.type = .orderRejected) →
      e.book.pool.available = 0

/-- The record has prices that the book accepts. -/
structure PricesOk (r : CaptureRecord) : Prop where
  /-- The first one. -/
  p1 : minPrice ≤ r.p1 ∧ r.p1 ≤ maxPrice
  /-- The second one, of a quote. -/
  p2 : r.type = quoteType → minPrice ≤ r.p2 ∧ r.p2 ≤ maxPrice

theorem orderSound_iff {client : ClientId} {side : Side} {price : Price} {quantity : Quantity}
    {shares : ℕ} (hp : minPrice ≤ price ∧ price ≤ maxPrice) :
    OrderSound (orderWire r client side price quantity) shares ↔ 0 < quantity.toNat ∧
      quantity.toNat = shares := by
  refine ⟨fun h => ⟨h.positive, h.quantity⟩,
    fun h => ⟨rfl, hp, h.1, h.2, fun e e' tsc tsc' out hrun hrej => ?_⟩⟩
  rcases refused_of_rejected rfl hrun hrej with hav | hbad
  · exact hav
  · have hbad : OrderBook.badPrice .limit price = true := hbad
    simp [OrderBook.badPrice, UInt32.not_lt.mpr hp.1, UInt32.not_lt.mpr hp.2] at hbad

/-- Round lots as shares; a size of 0 counts as one lot. -/
def lotShares (n : UInt32) : ℕ := if n = 0 then 100 else 100 * n.toNat

/-- A trade's size as shares; 0 counts as one share. -/
def tradeShares (n : UInt32) : ℕ := if n = 0 then 1 else n.toNat

/-- Round lots are multiplied exactly when the product fits in 32 bits. -/
theorem roundLots_toNat (n : UInt32) :
    (0 < (roundLots n).toNat ∧ (roundLots n).toNat = lotShares n) ↔ 100 * n.toNat < 2 ^ 32 := by
  unfold roundLots lotShares
  by_cases h0 : n = 0
  · subst h0
    decide
  · have hpos : n.toNat ≠ 0 := fun h => h0 (UInt32.toNat_inj.mp h)
    rw [if_neg h0, if_neg h0, UInt32.toNat_mul, show (100 : UInt32).toNat = 100 from rfl]
    omega

theorem tradeQuantity_toNat (n : UInt32) :
    0 < (tradeQuantity n).toNat ∧ (tradeQuantity n).toNat = tradeShares n := by
  unfold tradeQuantity tradeShares
  by_cases h0 : n = 0
  · subst h0
    decide
  · have hpos : n.toNat ≠ 0 := fun h => h0 (UInt32.toNat_inj.mp h)
    rw [if_neg h0, if_neg h0]
    omega

/-- **The orders of a quote** are sound exactly when both sizes fit. -/
theorem quote_sound_iff (hp : PricesOk r) (hquote : r.type = quoteType) (client : ClientId)
    (buy : Bool) :
    (∀ w ∈ ordersFor client buy r, OrderSound w (if (⟨w.side⟩ : Side) = .buy then lotShares r.s1
      else lotShares r.s2)) ↔
      100 * r.s1.toNat < 2 ^ 32 ∧ 100 * r.s2.toNat < 2 ^ 32 := by
  have hbid : (⟨(orderWire r client .buy r.p1 (roundLots r.s1)).side⟩ : Side) = .buy := rfl
  have hoffer : (⟨(orderWire r client .sell r.p2 (roundLots r.s2)).side⟩ : Side) ≠ .buy :=
    fun h => absurd (congrArg Side.byte h) (by decide : Side.sell.byte ≠ Side.buy.byte)
  rw [ordersFor, if_pos hquote, List.forall_mem_cons, List.forall_mem_singleton, if_pos hbid,
    if_neg hoffer, orderSound_iff hp.p1, orderSound_iff (hp.p2 hquote), roundLots_toNat,
    roundLots_toNat]

/-- **The order of a trade** always is. -/
theorem trade_sound (hp : PricesOk r) (htrade : r.type ≠ quoteType) (client : ClientId)
    (buy : Bool) :
    ∀ w ∈ ordersFor client buy r, OrderSound w (tradeShares r.s1) := by
  rw [ordersFor, if_neg htrade, List.forall_mem_singleton, orderSound_iff hp.p1]
  exact tradeQuantity_toNat r.s1

/-! ### Accepted messages -/

/-- The size that the message gives: a number that fits in 32 bits, or 0 if there is none. -/
def SizeIs (strtod : List UInt8 → ℚ) (obj key : List UInt8) (n : UInt32) : Prop :=
  (fieldNum strtod obj key).getD 0 = n.toNat

/-- The sizes of a message, and how many shares the order of a side is for. -/
inductive Sized (strtod : List UInt8 → ℚ) (obj : List UInt8) : List UInt32 → (Side → ℕ) → Prop
  /-- Those of a quote. -/
  | quote {rest : List UInt8} {bs as : UInt32}
    (ht : fieldStr obj (ascii "T") = some (quoteType :: rest))
    (hbs : SizeIs strtod obj (ascii "bs") bs) (has : SizeIs strtod obj (ascii "as") as) :
    Sized strtod obj [bs, as] fun side => if side = .buy then lotShares bs else lotShares as
  /-- That of a trade. -/
  | trade {rest : List UInt8} {n : UInt32}
    (ht : fieldStr obj (ascii "T") = some (tradeType :: rest))
    (hs : SizeIs strtod obj (ascii "s") n) :
    Sized strtod obj [n] fun _ => tradeShares n

/-- The members give a size: as a number, or 0 if there is none. -/
def HasSize (ms : List (Str × Value)) (key : List UInt8) (n : UInt32) : Prop :=
  HasNumber ms key n.toNat ∨ n = 0 ∧ ∀ m ∈ ms, m.1.text ≠ key

/-- The sizes that the members of a message give, and how many shares the order of a side is for. -/
inductive HasSizes (ms : List (Str × Value)) : List UInt32 → (Side → ℕ) → Prop
  /-- Those of a quote. -/
  | quote {bs as : UInt32} (ht : HasText ms (ascii "T") (ascii "q"))
    (hbs : HasSize ms (ascii "bs") bs) (has : HasSize ms (ascii "as") as) :
    HasSizes ms [bs, as] fun side => if side = .buy then lotShares bs else lotShares as
  /-- That of a trade. -/
  | trade {n : UInt32} (ht : HasText ms (ascii "T") (ascii "t")) (hs : HasSize ms (ascii "s") n) :
    HasSizes ms [n] fun _ => tradeShares n

theorem HasSize.sizeIs {ms : List (Str × Value)} {key : List UInt8} {n : UInt32}
    (h : HasSize ms key n) (hflat : FlatMembers ms) (hs : ReadsNumbers strtod) (hkey : IsKey key) :
    SizeIs strtod (Value.object ms).text key n := by
  rcases h with hnum | ⟨rfl, hno⟩
  · rw [SizeIs, hflat.fieldNum hs hkey hnum, Option.getD_some]
  · rw [SizeIs, hflat.fieldNum_none hkey hno, Option.getD_none]
    rfl

/-- In the text of a flat object they are found. -/
theorem HasSizes.sized {ms : List (Str × Value)} {sizes : List UInt32} {due : Side → ℕ}
    (h : HasSizes ms sizes due) (hflat : FlatMembers ms) (hs : ReadsNumbers strtod) :
    Sized strtod (Value.object ms).text sizes due := by
  cases h with
  | quote ht hbs has =>
    exact .quote (hflat.fieldStr (by decide) ht) (hbs.sizeIs hflat hs (by decide))
      (has.sizeIs hflat hs (by decide))
  | trade ht hn => exact .trade (hflat.fieldStr (by decide) ht) (hn.sizeIs hflat hs (by decide))

theorem SizeIs.sizeOf {key : List UInt8} {n : UInt32} (h : SizeIs strtod obj key n) :
    sizeOf (fieldNum strtod obj key) = n := by
  unfold SizeIs at h
  cases hx : fieldNum strtod obj key with
  | none =>
    rw [hx, Option.getD_none] at h
    exact (UInt32.toNat_inj.mp (by exact_mod_cast h : (0 : UInt32).toNat = n.toNat) :)
  | some x =>
    rw [hx, Option.getD_some] at h
    rw [Feed.sizeOf, Option.map_some, Option.getD_some, h, castU32_size]

/-- A price that is not refused is one that the book accepts. -/
theorem toCents_range {d : ℚ} (h : toCents d ≠ 0) :
    minPrice ≤ toCents d ∧ toCents d ≤ maxPrice := by
  have hpos : (toCents d).toNat ≠ 0 := fun h0 => h (UInt32.toNat_inj.mp h0)
  have hcents := toCents_toNat d
  rw [UInt32.le_iff_toNat_le, UInt32.le_iff_toNat_le, show minPrice.toNat = 1 from rfl,
    show maxPrice.toNat = 1000000 from rfl]
  split_ifs at hcents with hd
  · have hfloor : rounded d ≤ 1000000 := Int.floor_le_iff.mpr (by push_cast; linarith [hd.2])
    omega
  · omega

/-- The record before the prices are read: that of its type, with the symbol and the moment. -/
def tickHead (obj sym : List UInt8) (kind : UInt8) : CaptureRecord :=
  { CaptureRecord.zero with type := kind, symbol := symbolOf sym, venueNs :=
    ((fieldStr obj (ascii "t")).map parseRfc3339Ns).getD 0 }

section Records

variable {out : CaptureRecord} {rest sym : List UInt8}

theorem normalize_quote (ht : fieldStr obj (ascii "T") = some (quoteType :: rest))
    (hs : fieldStr obj (ascii "S") = some sym) :
    normalize strtod obj out = normalizeQuote strtod obj (tickHead obj sym quoteType) := by
  cases htime : fieldStr obj (ascii "t") <;>
    simp [normalize, ht, hs, htime, tickHead, CaptureRecord.zero]

theorem normalize_trade (ht : fieldStr obj (ascii "T") = some (tradeType :: rest))
    (hs : fieldStr obj (ascii "S") = some sym) :
    normalize strtod obj out = normalizeTrade strtod obj (tickHead obj sym tradeType) := by
  have hne : tradeType ≠ quoteType := by decide
  cases htime : fieldStr obj (ascii "t") <;>
    simp [normalize, ht, hs, htime, hne, tickHead, CaptureRecord.zero]

/-- The record of a quote that is accepted. -/
theorem record_quote (h : normalize strtod obj out = (true, r))
    (ht : fieldStr obj (ascii "T") = some (quoteType :: rest)) :
    r.type = quoteType ∧ PricesOk r ∧ r.s1 = sizeOf (fieldNum strtod obj (ascii "bs")) ∧
      r.s2 = sizeOf (fieldNum strtod obj (ascii "as")) := by
  obtain ⟨prices, hpriced, hprices⟩ := (normalize_iff out).mp (congrArg Prod.fst h)
  cases hpriced with
  | quote _ hs hb ha =>
    have hp1 := toCents_range (hprices _ (List.mem_cons_self ..))
    have hp2 := toCents_range (hprices _ (List.mem_cons_of_mem _ (List.mem_singleton_self _)))
    rw [normalize_quote ht hs, normalizeQuote, hb, ha] at h
    obtain rfl := congrArg Prod.snd h
    exact ⟨rfl, ⟨hp1, fun _ => hp2⟩, rfl, rfl⟩
  | trade htrade =>
    exact absurd (List.cons.inj (Option.some.inj (ht.symm.trans htrade))).1 (by decide)

/-- That of a trade. -/
theorem record_trade (h : normalize strtod obj out = (true, r))
    (ht : fieldStr obj (ascii "T") = some (tradeType :: rest)) :
    r.type = tradeType ∧ PricesOk r ∧ r.s1 = sizeOf (fieldNum strtod obj (ascii "s")) := by
  have hne : tradeType ≠ quoteType := by decide
  obtain ⟨prices, hpriced, hprices⟩ := (normalize_iff out).mp (congrArg Prod.fst h)
  cases hpriced with
  | quote hquote =>
    exact absurd (List.cons.inj (Option.some.inj (hquote.symm.trans ht))).1 (by decide)
  | trade _ hs hp =>
    have hp1 := toCents_range (hprices _ (List.mem_singleton_self _))
    rw [normalize_trade ht hs, normalizeTrade, hp] at h
    obtain rfl := congrArg Prod.snd h
    exact ⟨rfl, ⟨hp1, fun hquote => absurd hquote hne⟩, rfl⟩

end Records

/-- The orders that are sent for a record have the right prices and quantities, whatever the calls
of `send` do. -/
def OrdersSized (r : CaptureRecord) (due : Side → ℕ) : Prop :=
  ∀ send e client, ∀ w ∈ sentOrders send e r client, OrderSound w (due ⟨w.side⟩)

/-- The sizes that are found in an accepted text decide it. -/
theorem Sized.orders_iff {out : CaptureRecord} {sizes : List UInt32} {due : Side → ℕ}
    (hs : Sized strtod obj sizes due) (h : normalize strtod obj out = (true, r)) :
    OrdersSized r due ↔
      ∀ rest, fieldStr obj (ascii "T") = some (quoteType :: rest) →
        ∀ n ∈ sizes, 100 * n.toNat < 2 ^ 32 := by
  -- of the orders that are sent, to those of the record
  have hsent : OrdersSized r due ↔
      ∀ client buy, ∀ w ∈ ordersFor client buy r, OrderSound w (due ⟨w.side⟩) := by
    constructor
    · intro hall client buy
      have hones := hall (fun _ => 1) { Sender.new true with buy := buy } client
      rwa [sentOrders_all fun _ => Nat.one_pos] at hones
    · intro hall send e client w hw
      exact hall client e.buy w ((sentOrders_initial send e r client).subset hw)
  rw [hsent]
  cases hs with
  | @quote rest bs as ht hbs has =>
    obtain ⟨htype, hprices, h1, h2⟩ := record_quote h ht
    rw [hbs.sizeOf] at h1
    rw [has.sizeOf] at h2
    subst h1 h2
    have hsizes : (∀ n ∈ [r.s1, r.s2], 100 * n.toNat < 2 ^ 32) ↔ 100 * r.s1.toNat < 2 ^ 32 ∧
        100 * r.s2.toNat < 2 ^ 32 := by
      rw [List.forall_mem_cons, List.forall_mem_singleton]
    rw [hsizes]
    exact ⟨fun hall _ _ => (quote_sound_iff hprices htype 0 true).mp (hall 0 true),
      fun hfit client buy => (quote_sound_iff hprices htype client buy).mpr (hfit rest ht)⟩
  | trade ht hn =>
    obtain ⟨htype, hprices, h1⟩ := record_trade h ht
    rw [hn.sizeOf] at h1
    subst h1
    have hne : r.type ≠ quoteType := fun hq => absurd (htype.symm.trans hq) (by decide)
    refine ⟨fun _ rest hquote => ?_, fun _ client buy => trade_sound hprices hne client buy⟩
    exact absurd (List.cons.inj (Option.some.inj (hquote.symm.trans ht))).1 (by decide)

/-- **The orders of an accepted message have the right size** if it is a trade, and otherwise
exactly when 100 times each of its sizes fits in 32 bits. The sizes are those that are found in the
text, whatever it is; in the text of a flat object they are the ones that its members give. -/
theorem orders_sized_iff {out : CaptureRecord} {sizes : List UInt32} {due : Side → ℕ}
    (h : normalize strtod obj out = (true, r)) :
    (Sized strtod obj sizes due →
      (OrdersSized r due ↔ ∀ rest, fieldStr obj (ascii "T") = some (quoteType :: rest) →
        ∀ n ∈ sizes, 100 * n.toNat < 2 ^ 32)) ∧
    ∀ ms, obj = (Value.object ms).text → FlatMembers ms → HasSizes ms sizes due →
      ReadsNumbers strtod →
      (OrdersSized r due ↔
        (HasText ms (ascii "T") (ascii "q") → ∀ n ∈ sizes, 100 * n.toNat < 2 ^ 32)) := by
  refine ⟨fun hs => hs.orders_iff h, ?_⟩
  rintro ms rfl hflat hsizes hs
  rw [(hsizes.sized hflat hs).orders_iff h]
  constructor
  · exact fun hfit ht => hfit [] (hflat.fieldStr (by decide) ht)
  · intro hfit rest hquote
    cases hsizes with
    | quote ht => exact hfit ht
    | trade ht =>
      have htrade := hflat.fieldStr (by decide) ht
      exact absurd (List.cons.inj (Option.some.inj (hquote.symm.trans htrade))).1 (by decide)

/-! ### Two quotes -/

/-- The size 2. -/
def twoNumber : Number :=
  ⟨false, toDecimal 1 2, [], none, by decide, fun d ds h hne => absurd (List.cons.inj h).2.symm hne⟩

/-- The size 2³⁰. -/
def hugeNumber : Number :=
  ⟨false, toDecimal 10 1073741824, [], none, by decide, fun d ds h _ => by
    obtain rfl := (List.cons.inj h).1
    decide⟩

/-- The record of a quote at $1.00, with a bid for so many lots. -/
def lotsRecord (n : UInt32) : CaptureRecord := ⟨quoteType, symbolOf (ascii "A"), 100, n, 100, 1, 0⟩

theorem lots_flat (n : Number) : FlatMembers (lotsMembers n) where
  keys := by simp [lotsMembers, textMember, unescaped_plainStr]
  distinct := by
    have hkeys : (lotsMembers n).map (fun m => m.1.text) = [ascii "T", ascii "S", ascii "bp",
        ascii "bs", ascii "ap", ascii "as"] := by
      simp [lotsMembers, textMember, text_plainStr]
    rw [hkeys]
    decide
  values := by
    simp only [lotsMembers, textMember, List.forall_mem_cons, List.not_mem_nil, false_imp_iff,
      implies_true, and_true]
    exact ⟨.string (unescaped_plainStr _ _), .string (unescaped_plainStr _ _), .number _, .number _,
      .number _, .number _⟩

/-- Its sizes. -/
theorem lots_sizes {n : Number} {k : UInt32} (hn : n.value = k.toNat) :
    HasSizes (lotsMembers n) [k, 1] fun side => if side = .buy then lotShares k
      else lotShares 1 := by
  refine .quote (hasText_of_mem (by decide) (by decide) (by simp [lotsMembers])) (.inl ?_) (.inl ?_)
  · exact hasNumber_of_mem (by decide) (by simp [lotsMembers]) hn
  · exact hasNumber_of_mem (by decide) (by simp [lotsMembers])
      (oneNumber_value.trans Nat.cast_one.symm)

/-- The quote is accepted. -/
theorem lots_accepted {n : Number} {k : UInt32} (hn : n.value = k.toNat) :
    normalize readNumber (Value.object (lotsMembers n)).text .zero = (true, lotsRecord k) := by
  have hflat := lots_flat n
  have hsym : HasText (lotsMembers n) (ascii "S") (ascii "A") :=
    hasText_of_mem (by decide) (by decide) (by simp [lotsMembers])
  have hs := hflat.fieldStr (by decide) hsym
  have htime : fieldStr (Value.object (lotsMembers n)).text (ascii "t") = none :=
      hflat.fieldStr_none (by decide) (by
    simp only [lotsMembers, textMember, text_plainStr, List.forall_mem_cons, List.not_mem_nil,
      false_imp_iff, implies_true, and_true]
    decide)
  have hprice : ∀ (key : List UInt8) (hk : Each IsPlain key) (_ : IsKey key),
    (plainStr key hk, .number oneNumber) ∈ lotsMembers n →
      fieldNum readNumber (Value.object (lotsMembers n)).text key = some 1 :=
    fun key hk hkey hm =>
      hflat.fieldNum readsValues_readNumber.numbers hkey (hasNumber_of_mem hk hm oneNumber_value)
  have hb := hprice (ascii "bp") (by decide) (by decide) (by simp [lotsMembers])
  have ha := hprice (ascii "ap") (by decide) (by decide) (by simp [lotsMembers])
  have hdollar : toCents 1 = 100 := by
    have hcents := toCents_cents ⟨100, 1, by decide⟩
    norm_num at hcents
    exact hcents
  cases (lots_sizes hn).sized hflat readsValues_readNumber.numbers with
  | quote ht hbs has =>
    rw [normalize_quote ht hs, normalizeQuote, hb, ha, hbs.sizeOf, has.sizeOf, tickHead, htime]
    simp only [hdollar]
    rfl

/-- A bid for 2 lots and an offer of one. -/
theorem orders_sized_iff_lots :
    normalize readNumber (Value.object (lotsMembers twoNumber)).text .zero = (true, lotsRecord 2) ∧
      ∀ w ∈ sentOrders (fun _ => 32) (.new true) (lotsRecord 2) 1,
        OrderSound w (if (⟨w.side⟩ : Side) = .buy then 200 else 100) := by
  have htwo : twoNumber.value = (2 : UInt32).toNat := by
    norm_num [Number.value, twoNumber, ofDecimal_toDecimal, show ofDecimal [] = 0 from rfl]
    rfl
  have hacc := lots_accepted htwo
  have hfit : ∀ n ∈ [(2 : UInt32), 1], 100 * n.toNat < 2 ^ 32 :=
    List.forall_mem_cons.mpr ⟨by decide, List.forall_mem_singleton.mpr (by decide)⟩
  have hsized := ((orders_sized_iff hacc).2 _ rfl (lots_flat _) (lots_sizes htwo)
    readsValues_readNumber.numbers).mpr
    fun _ => hfit
  exact ⟨hacc, hsized (fun _ => 32) (.new true) 1⟩

/-- **2³⁰ lots become an empty order.** -/
theorem lots_wrap :
    (Value.object (lotsMembers hugeNumber)).text =
        ascii "\x7b\"T\":\"q\",\"S\":\"A\",\"bp\":1,\"bs\":1073741824,\"ap\":1,\"as\":1\x7d" ∧
      normalize readNumber (Value.object (lotsMembers hugeNumber)).text .zero =
        (true, lotsRecord 1073741824) ∧
      Sized readNumber (Value.object (lotsMembers hugeNumber)).text [1073741824, 1]
        (fun side => if side = .buy then lotShares 1073741824 else lotShares 1) ∧
      ∃ w ∈ sentOrders (fun _ => 32) (.new true) (lotsRecord 1073741824) 1,
        w.type = MessageType.newOrder.byte ∧ w.side = Side.buy.byte ∧ w.quantity = 0 ∧
          ∀ shares, ¬ OrderSound w shares := by
  have hhuge : hugeNumber.value = (1073741824 : UInt32).toNat := by
    norm_num [Number.value, hugeNumber, ofDecimal_toDecimal, show ofDecimal [] = 0 from rfl]
    rfl
  have hsized := (lots_sizes hhuge).sized (lots_flat _) readsValues_readNumber.numbers
  refine ⟨by decide, lots_accepted hhuge, hsized, ?_⟩
  rw [sentOrders_all fun _ => by decide]
  exact ⟨_, List.mem_cons_self .., rfl, rfl, by decide,
    fun shares h => absurd h.positive (by decide)⟩

end TradeFeed.Feed
