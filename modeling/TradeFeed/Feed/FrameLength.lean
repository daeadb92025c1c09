import TradeFeed.Feed.SendFrame

/-!
# The length in a header

Any header that the client reads, with any length and either mask bit, whatever the calls of
`SSL_read` give and wherever they fail. `received` are the bytes that the client will have
when they fail, and a wait for bytes succeeds exactly when there are enough of them
(`readExact_iff`).

The size of a header and the length after it are added modulo 2^64. `frames_whole` says
that a frame is taken whole, or not at all, exactly when the sum does not wrap around or
not even the bytes of the wrapped sum arrive.
-/

namespace TradeFeed

open Lib.Bytes

namespace AlpacaWebSocket

variable {tls : Tls} {ws ws₁ ws₂ : AlpacaWebSocket}

/-! ### What arrives -/

/-- The bytes that the calls of `SSL_read` in `read_exact` give from the `k`-th on, until one
fails. -/
def arriving (tls : Tls) (k : ℕ) (stream : List UInt8) : List UInt8 :=
  let bs := stream.take (min (tls.reads k) 16384)
  if bs = [] then [] else bs ++ arriving tls (k + 1) (stream.drop bs.length)
termination_by stream.length
decreasing_by
  rename_i h
  have hbs : 0 < (stream.take (min (tls.reads k) 16384)).length := List.length_pos_of_ne_nil h
  have hle := (List.take_prefix (min (tls.reads k) 16384) stream).length_le
  rw [List.length_drop]
  omega

/-- The bytes in `rx_` once no more arrive. -/
def received (tls : Tls) (ws : AlpacaWebSocket) : List UInt8 :=
  ws.rx ++ arriving tls ws.readCalls ws.stream

/-- The client has read on, and the bytes it got are in `rx_`. -/
structure Got (tls : Tls) (ws ws₁ : AlpacaWebSocket) : Prop where
  /-- They come from the server. -/
  bytes : ∃ got, ws.stream = got ++ ws₁.stream ∧ ws₁.rx = ws.rx ++ got
  /-- What is to come is what is left. -/
  received : ws₁.received tls = ws.received tls

theorem Got.rfl : Got tls ws ws := ⟨⟨[], Eq.refl _, (List.append_nil _).symm⟩, Eq.refl _⟩

theorem Got.trans (h₁ : Got tls ws ws₁) (h₂ : Got tls ws₁ ws₂) : Got tls ws ws₂ := by
  obtain ⟨⟨got, hs, hr⟩, hrec⟩ := h₁
  obtain ⟨⟨got', hs', hr'⟩, hrec'⟩ := h₂
  exact ⟨⟨got ++ got', by rw [hs, hs', List.append_assoc], by rw [hr', hr, List.append_assoc]⟩,
    hrec'.trans hrec⟩

/-- What is in `rx_` stays at its place. -/
theorem Got.rx_prefix (h : Got tls ws ws₁) : ws₁.rx <+: ws.received tls := by
  rw [← h.received]
  exact List.prefix_append _ _

theorem got_grown (h : (ws.sslRead tls 16384).2 ≠ []) : Got tls ws (ws.grown tls 16384) where
  bytes := ⟨(ws.sslRead tls 16384).2, (sslRead_append tls ws 16384).symm, Eq.refl _⟩
  received := by
    have hnext : arriving tls ws.readCalls ws.stream = (ws.sslRead tls 16384).2 ++
        arriving tls (ws.grown tls 16384).readCalls (ws.grown tls 16384).stream := by
      rw [arriving]
      exact if_neg h
    rw [received, received, hnext, ← List.append_assoc]
    rfl

theorem length_grown_lt (h : (ws.sslRead tls 16384).2 ≠ []) :
    (ws.grown tls 16384).stream.length < ws.stream.length := by
  have hlen := congrArg List.length (sslRead_append tls ws 16384)
  have hpos := List.length_pos_of_ne_nil h
  rw [List.length_append] at hlen
  show (ws.sslRead tls 16384).1.stream.length < _
  omega

/-- **A wait for bytes** succeeds exactly when that many arrive. -/
theorem readExact_iff (tls : Tls) (ws : AlpacaWebSocket) (n : UInt64) :
    ∃ ws₁ ok, ws.readExact tls n = (ws₁, ok) ∧ (ok = true ↔ n.toNat ≤ (ws.received tls).length) ∧
      (ok = true → n.toNat ≤ ws₁.rx.length ∧ Got tls ws ws₁) := by
  have hloop : ∀ fuel (ws : AlpacaWebSocket), ws.stream.length < fuel →
      ∃ ws₁ ok, readUntil tls 16384 "SSL_read" (fun rx => decide (n.toNat ≤ rx.length)) fuel
        ws = (ws₁, ok) ∧
        (ok = true ↔ n.toNat ≤ (ws.received tls).length) ∧
        (ok = true → n.toNat ≤ ws₁.rx.length ∧ Got tls ws ws₁) := by
    intro fuel
    induction fuel with
    | zero => exact fun ws h => absurd h (Nat.not_lt_zero _)
    | succ fuel ih =>
      intro ws hfuel
      rw [readUntil_succ]
      by_cases hrx : n.toNat ≤ ws.rx.length
      · have hle : n.toNat ≤ (ws.received tls).length :=
          hrx.trans (List.prefix_append _ _).length_le
        exact ⟨ws, true, by rw [if_pos (decide_eq_true hrx)], iff_of_true (Eq.refl _) hle,
          fun _ => ⟨hrx, .rfl⟩⟩
      rw [if_neg (by simpa using hrx)]
      by_cases hbs : (ws.sslRead tls 16384).2 = []
      · -- the call fails, and nothing more arrives
        have hend : arriving tls ws.readCalls ws.stream = [] := by
          rw [arriving]
          exact if_pos hbs
        have hrec : ws.received tls = ws.rx := by rw [received, hend, List.append_nil]
        exact ⟨_, false, by rw [if_pos hbs], by simp [hrec, hrx], fun h => absurd h (by decide)⟩
      · have hgot := got_grown hbs
        obtain ⟨ws₁, ok, h₁, hiff, hok⟩ :=
          ih (ws.grown tls 16384) (by have := length_grown_lt hbs; omega)
        rw [hgot.received] at hiff
        exact ⟨ws₁, ok, by rw [if_neg hbs, h₁], hiff, fun h => ⟨(hok h).1, hgot.trans (hok h).2⟩⟩
  exact hloop _ ws (Nat.lt_succ_self _)

/-! ### Headers -/

/-- The size of a header without the mask. -/
def extendedSize (bs : List UInt8) : ℕ :=
  if bs.getD 1 0 &&& 0x7F = 126 then 4 else if bs.getD 1 0 &&& 0x7F = 127 then 10 else 2

/-- The size of a header. -/
def headerSize (bs : List UInt8) : ℕ := extendedSize bs + if bs.getD 1 0 &&& 0x80 ≠ 0 then 4 else 0

/-- The length in a header. -/
def frameLength (bs : List UInt8) : ℕ :=
  if bs.getD 1 0 &&& 0x7F = 126 then ofBE ((bs.drop 2).take 2)
  else if bs.getD 1 0 &&& 0x7F = 127 then ofBE ((bs.drop 2).take 8)
  else (bs.getD 1 0 &&& 0x7F).toNat

/-- The header arrives, up to the length. -/
def HeaderArrives (tls : Tls) (ws : AlpacaWebSocket) : Prop :=
  extendedSize (ws.received tls) ≤ (ws.received tls).length

/-- A frame was taken whole: its header and its length have arrived, the payload is as long as the
header says, and nothing else was removed. -/
structure TakenWhole (tls : Tls) (ws ws₁ : AlpacaWebSocket) (payload : List UInt8) : Prop where
  /-- The payload. -/
  length : payload.length = frameLength (ws.received tls)
  /-- What has arrived, and what is left of it. -/
  removed : ∃ got, ws.stream = got ++ ws₁.stream ∧
    headerSize (ws.received tls) + frameLength (ws.received tls) ≤ (ws.rx ++ got).length ∧
    ws₁.rx = (ws.rx ++ got).drop (headerSize (ws.received tls) + frameLength (ws.received tls))

/-- The next frame is taken whole, or false is returned. -/
def TakesWhole (tls : Tls) (ws : AlpacaWebSocket) : Prop :=
  match ws.takeFrame tls with
  | (ws₁, .frame _ payload) => TakenWhole tls ws ws₁ payload
  | (_, .failed) => True
  | (_, .threw) => False

/-- A pass of `read_frame` returns the payload of a frame that was taken whole, or goes on behind
one, or returns false. -/
def PassesWhole (tls : Tls) (ws : AlpacaWebSocket) : Prop :=
  match ws.readPass tls with
  | (ws₁, some (.message payload)) => TakenWhole tls ws ws₁ payload
  | (ws₁, none) => ∃ payload, TakenWhole tls ws ws₁ payload
  | (_, some .failed) => True
  | (_, some .threw) => False

/-- The sum of header and length does not wrap around, or not even the bytes of the wrapped sum
arrive. -/
def Fits (tls : Tls) (ws : AlpacaWebSocket) : Prop :=
  headerSize (ws.received tls) + frameLength (ws.received tls) < 2 ^ 64 ∨
    (ws.received tls).length < headerSize (ws.received tls) + frameLength (ws.received tls) - 2 ^ 64

theorem extendedSize_mem (bs : List UInt8) : 2 ≤ extendedSize bs ∧ extendedSize bs ≤ 10 := by
  unfold extendedSize
  split_ifs <;> decide

theorem headerSize_mem (bs : List UInt8) :
    extendedSize bs ≤ headerSize bs ∧ headerSize bs ≤ 14 := by
  have := extendedSize_mem bs
  unfold headerSize
  split_ifs <;> omega

theorem frameLength_lt (bs : List UInt8) : frameLength bs < 2 ^ 64 := by
  have hbytes : ∀ k ≤ 8, ofBE ((bs.drop 2).take k) < 2 ^ 64 := fun k hk => by
    have hlt := ofLE_lt ((bs.drop 2).take k).reverse
    have hlen : ((bs.drop 2).take k).reverse.length ≤ 8 := by
      rw [List.length_reverse, List.length_take]
      omega
    exact hlt.trans_le (Nat.pow_le_pow_right (n := 256) (by decide) hlen)
  unfold frameLength
  split_ifs
  · exact hbytes 2 (by decide)
  · exact hbytes 8 (by decide)
  · exact (bs.getD 1 0 &&& 0x7F).toNat_lt.trans (by decide)

/-! ### Taking a frame of any length -/

theorem Got.getD (h : Got tls ws ws₁) {i : ℕ} (hi : i < ws₁.rx.length) (d : UInt8) :
    ws₁.rx.getD i d = (ws.received tls).getD i d := by
  obtain ⟨rest, hrest⟩ := h.rx_prefix
  rw [← hrest, List.getD_append _ _ _ _ hi]

theorem Got.slice (h : Got tls ws ws₁) {i k : ℕ} (hi : i + k ≤ ws₁.rx.length) :
    (ws₁.rx.drop i).take k = ((ws.received tls).drop i).take k := by
  obtain ⟨rest, hrest⟩ := h.rx_prefix
  have hk : k ≤ (ws₁.rx.drop i).length := by
    rw [List.length_drop]
    omega
  rw [← hrest, List.drop_append_of_le_length (by omega), List.take_append_of_le_length hk]

/-- **The length** is read with all of its bits, and so is the size of the header up to it, exactly
when the header arrives. -/
theorem readLength_received (tls : Tls) (hrx : 2 ≤ ws.rx.length) :
    ∃ ws₁ res, ws.readLength tls ((ws.received tls).getD 1 0) = (ws₁, res) ∧
      (res = none ↔ ¬ HeaderArrives tls ws) ∧
      ∀ len hdr, res = some (len, hdr) → len.toNat = frameLength (ws.received tls) ∧
        hdr.toNat = extendedSize (ws.received tls) ∧ Got tls ws ws₁ := by
  unfold readLength frameLength HeaderArrives extendedSize
  generalize (ws.received tls).getD 1 0 &&& 0x7F = b
  have h126 : b.toUInt64 = 126 ↔ b = 126 := @UInt8.toUInt64_inj b 126
  have h127 : b.toUInt64 = 127 ↔ b = 127 := @UInt8.toUInt64_inj b 127
  simp only [h126, h127]
  by_cases hmedium : b = 126
  · simp only [if_pos hmedium]
    obtain ⟨ws₁, ok, h₁, hiff, hok⟩ := readExact_iff tls ws 4
    change ok = true ↔ 4 ≤ _ at hiff
    rw [h₁]
    cases ok with
    | false => exact ⟨ws₁, none, rfl, by simpa using hiff, fun _ _ h => absurd h (by simp)⟩
    | true =>
      obtain ⟨hfour, hgot⟩ := hok rfl
      change 4 ≤ _ at hfour
      refine ⟨ws₁, some (_, 4), rfl, by simpa using hiff, fun len hdr h => ?_⟩
      obtain ⟨rfl, rfl⟩ := Prod.mk.inj (Option.some.inj h)
      refine ⟨?_, rfl, hgot⟩
      rw [lengthOf_two _ hfour, hgot.slice hfour, toNat_lengthOf (by simp)]
  by_cases hlong : b = 127
  · simp only [if_neg hmedium, if_pos hlong]
    obtain ⟨ws₁, ok, h₁, hiff, hok⟩ := readExact_iff tls ws 10
    change ok = true ↔ 10 ≤ _ at hiff
    rw [h₁]
    cases ok with
    | false => exact ⟨ws₁, none, rfl, by simpa using hiff, fun _ _ h => absurd h (by simp)⟩
    | true =>
      obtain ⟨hten, hgot⟩ := hok rfl
      change 10 ≤ _ at hten
      refine ⟨ws₁, some (_, 10), rfl, by simpa using hiff, fun len hdr h => ?_⟩
      obtain ⟨rfl, rfl⟩ := Prod.mk.inj (Option.some.inj h)
      refine ⟨?_, rfl, hgot⟩
      rw [hgot.slice (i := 2) (k := 8) hten, toNat_lengthOf (by simp)]
  · simp only [if_neg hmedium, if_neg hlong]
    have htwo : 2 ≤ (ws.received tls).length := hrx.trans (List.prefix_append _ _).length_le
    refine ⟨ws, some (b.toUInt64, 2), rfl, by simp [htwo], fun len hdr h => ?_⟩
    obtain ⟨rfl, rfl⟩ := Prod.mk.inj (Option.some.inj h)
    exact ⟨UInt8.toNat_toUInt64 b, rfl, .rfl⟩

/-- How many bytes are waited for and removed. -/
def frameSize (bs : List UInt8) : ℕ := (headerSize bs + frameLength bs) % 2 ^ 64

/-- What taking a frame comes to, by what arrives. -/
inductive Took (tls : Tls) (ws : AlpacaWebSocket) : AlpacaWebSocket × Wire → Prop
  /-- Too few bytes arrive. -/
  | short {ws₁ : AlpacaWebSocket} (h : (ws.received tls).length < frameSize (ws.received tls)) :
    Took tls ws (ws₁, .failed)
  /-- Enough have arrived, but no whole header. -/
  | narrow {ws₁ : AlpacaWebSocket} (h : frameSize (ws.received tls) ≤ ws₁.rx.length)
    (hgot : Got tls ws ws₁) (hn : ws₁.rx.length < headerSize (ws.received tls)) :
    Took tls ws (ws₁, .threw)
  /-- Enough have arrived, and the header. -/
  | frame {ws₁ : AlpacaWebSocket} (h : frameSize (ws.received tls) ≤ ws₁.rx.length)
    (hgot : Got tls ws ws₁) (hn : headerSize (ws.received tls) ≤ ws₁.rx.length) :
    Took tls ws ({ ws₁ with rx := ws₁.rx.drop (frameSize (ws.received tls)) },
      .frame ((ws.received tls).getD 0 0 &&& 0x0F)
        ((ws₁.rx.drop (headerSize (ws.received tls))).take (frameLength (ws.received tls))))

/-- **Taking a frame**, of any header that arrives. -/
theorem takeFrame_took (h : HeaderArrives tls ws) : Took tls ws (ws.takeFrame tls) := by
  have htwo := extendedSize_mem (ws.received tls)
  have hhead := headerSize_mem (ws.received tls)
  have hlt := frameLength_lt (ws.received tls)
  obtain ⟨ws₁, ok, h₁, hiff, hok⟩ := readExact_iff tls ws 2
  obtain rfl : ok = true := hiff.mpr (htwo.1.trans h)
  obtain ⟨hrx₁, hgot₁⟩ := hok rfl
  change 2 ≤ _ at hrx₁
  have hb0 := hgot₁.getD (i := 0) (by omega) 0
  have hb1 := hgot₁.getD (i := 1) (by omega) 0
  have h' : HeaderArrives tls ws₁ := by rwa [HeaderArrives, hgot₁.received]
  obtain ⟨ws₂, res, h₂, hnone, hsome⟩ := readLength_received tls hrx₁
  obtain ⟨⟨len, hdr⟩, rfl⟩ := Option.ne_none_iff_exists'.mp fun hres => hnone.mp hres h'
  obtain ⟨hlen, hhdr, hgot₂⟩ := hsome len hdr rfl
  rw [hgot₁.received] at h₂ hlen hhdr
  have hsize : (if (ws.received tls).getD 1 0 &&& 0x80 ≠ 0 then hdr + 4 else hdr).toNat =
      headerSize (ws.received tls) := by
    unfold headerSize
    split_ifs
    · rw [UInt64.toNat_add, hhdr, show (4 : UInt64).toNat = 4 from rfl]
      omega
    · exact hhdr
  have hsum : ((if (ws.received tls).getD 1 0 &&& 0x80 ≠ 0 then hdr + 4 else hdr) + len).toNat =
      frameSize (ws.received tls) := by
    rw [UInt64.toNat_add, hsize, hlen]
    rfl
  obtain ⟨ws₃, ok, h₃, hiff₃, hok₃⟩ :=
    readExact_iff tls ws₂ ((if (ws.received tls).getD 1 0 &&& 0x80 ≠ 0 then hdr + 4 else hdr) + len)
  have hgot₁₂ := hgot₁.trans hgot₂
  rw [hsum, hgot₁₂.received] at hiff₃
  rw [hsum] at hok₃
  unfold takeFrame
  simp only [h₁, hb0, hb1, h₂, h₃, hsum, hsize, hlen]
  cases ok with
  | false => exact .short (not_le.mp fun hle => Bool.false_ne_true (hiff₃.mpr hle))
  | true =>
    obtain ⟨hrx₃, hgot₃⟩ := hok₃ rfl
    simp only [Bool.not_true, Bool.false_eq_true, if_false]
    split_ifs with hnarrow
    · exact .narrow hrx₃ (hgot₁₂.trans hgot₃) hnarrow
    · exact .frame hrx₃ (hgot₁₂.trans hgot₃) (not_lt.mp hnarrow)

/-- What was removed of the bytes that have arrived is what had to be, exactly when header and
length fit. -/
theorem takenWhole_iff (h : frameSize (ws.received tls) ≤ ws₁.rx.length) (hgot : Got tls ws ws₁)
    (hn : headerSize (ws.received tls) ≤ ws₁.rx.length)
    (hrx : ws₂.rx = ws₁.rx.drop (frameSize (ws.received tls))) (hstream : ws₂.stream = ws₁.stream)
    (payload : List UInt8) :
    TakenWhole tls ws ws₂ payload ↔ payload.length = frameLength (ws.received tls) ∧
      Fits tls ws := by
  have hhead := headerSize_mem (ws.received tls)
  have hlt := frameLength_lt (ws.received tls)
  have hle := hgot.rx_prefix.length_le
  have hsize : frameSize (ws.received tls) =
      (headerSize (ws.received tls) + frameLength (ws.received tls)) % 2 ^ 64 := rfl
  obtain ⟨got, hs, hr⟩ := hgot.bytes
  unfold Fits
  constructor
  · rintro ⟨hlength, got', hs', hroom, hremoved⟩
    obtain rfl : got = got' :=
      List.append_cancel_right (hs.symm.trans (hs'.trans (by rw [hstream])))
    -- as many bytes are left as should be
    have hleft := congrArg List.length (hrx.symm.trans hremoved)
    rw [← hr, List.length_drop, List.length_drop] at hleft
    rw [← hr] at hroom
    exact ⟨hlength, by omega⟩
  · rintro ⟨hlength, hfits⟩
    have hwhole : frameSize (ws.received tls) = headerSize (ws.received tls) +
      frameLength (ws.received tls) := by omega
    refine ⟨hlength, got, hs.trans (by rw [hstream]), ?_, ?_⟩
    · rw [← hr, ← hwhole]
      exact h
    · rw [← hr, ← hwhole, hrx]

/-- **A frame is taken whole** exactly when its header and length fit. -/
theorem takesWhole_iff (h : HeaderArrives tls ws) : TakesWhole tls ws ↔ Fits tls ws := by
  have hhead := headerSize_mem (ws.received tls)
  have hlt := frameLength_lt (ws.received tls)
  have htook := takeFrame_took h
  have hsize : frameSize (ws.received tls) =
      (headerSize (ws.received tls) + frameLength (ws.received tls)) % 2 ^ 64 := rfl
  unfold TakesWhole
  generalize ws.takeFrame tls = res at htook
  cases htook with
  | short hshort =>
    apply iff_of_true trivial
    unfold Fits
    omega
  | narrow hroom hgot hn =>
    have hle := hgot.rx_prefix.length_le
    apply iff_of_false id
    unfold Fits
    omega
  | frame hroom hgot hn =>
    have hle := hgot.rx_prefix.length_le
    refine (takenWhole_iff hroom hgot hn ?_ ?_ _).trans (and_iff_right_of_imp fun hfits => ?_)
    · rfl
    · rfl
    unfold Fits at hfits
    rw [List.length_take, List.length_drop]
    omega

/-! ### Passes -/

theorem writeLoop_unread (tls : Tls) (fuel : ℕ) (ws : AlpacaWebSocket) (data : List UInt8) :
    (writeLoop tls fuel ws data).1.rx = ws.rx ∧ (writeLoop tls fuel ws data).1.stream =
      ws.stream := by
  induction fuel generalizing ws data with
  | zero => exact ⟨rfl, rfl⟩
  | succ fuel ih =>
    rw [writeLoop_succ]
    split_ifs
    · exact ⟨rfl, rfl⟩
    · exact ⟨rfl, rfl⟩
    · exact ih (ws.advanced tls data) _

theorem sendFrame_unread (tls : Tls) (ws : AlpacaWebSocket) (opcode : UInt8)
    (payload : List UInt8) :
    (ws.sendFrame tls opcode payload).1.rx = ws.rx ∧ (ws.sendFrame tls opcode payload).1.stream =
      ws.stream := by
  unfold sendFrame
  cases tls.masks ws.maskCalls with
  | none => exact ⟨rfl, rfl⟩
  | some mask => exact writeLoop_unread tls _ { ws with maskCalls := ws.maskCalls + 1 } _

/-- What the switch comes to. It leaves alone what was received. -/
inductive Dispatched (ws : AlpacaWebSocket) (opcode : UInt8) (payload : List UInt8) :
    AlpacaWebSocket × Option Read → Prop
  /-- The payload is returned. -/
  | message : Dispatched ws opcode payload (ws, some (.message payload))
  /-- The loop goes on. -/
  | on {ws₁ : AlpacaWebSocket} (hrx : ws₁.rx = ws.rx) (hs : ws₁.stream = ws.stream) :
    Dispatched ws opcode payload (ws₁, none)
  /-- The server has closed, or its ping can not be answered. -/
  | failed {ws₁ : AlpacaWebSocket} (h : opcode = opPing ∨ opcode = opClose) :
    Dispatched ws opcode payload (ws₁, some .failed)

theorem dispatch_dispatched (tls : Tls) (ws : AlpacaWebSocket) (opcode : UInt8)
    (payload : List UInt8) :
    Dispatched ws opcode payload (ws.dispatch tls opcode payload) := by
  unfold dispatch
  split_ifs with h₁ h₂ h₃ h₄
  · exact .message
  · obtain ⟨hrx, hs⟩ := sendFrame_unread tls ws opPong payload
    generalize ws.sendFrame tls opPong payload = res at hrx hs
    obtain ⟨ws₁, ok⟩ := res
    cases ok with
    | false => exact .failed (Or.inl h₂)
    | true => exact .on hrx hs
  · exact .on rfl rfl
  · exact .failed (Or.inr h₄)
  · exact .on rfl rfl

theorem TakenWhole.of_eq {payload : List UInt8} (h : TakenWhole tls ws ws₁ payload)
    (hrx : ws₂.rx = ws₁.rx) (hs : ws₂.stream = ws₁.stream) :
    TakenWhole tls ws ws₂ payload := by
  obtain ⟨hlength, got, hstream, hroom, hremoved⟩ := h
  exact ⟨hlength, got, hs ▸ hstream, hroom, hrx.trans hremoved⟩

/-- **A pass** that takes a whole frame, or none, passes whole. -/
theorem passesWhole_of_takesWhole (h : TakesWhole tls ws) : PassesWhole tls ws := by
  unfold PassesWhole readPass
  unfold TakesWhole at h
  generalize ws.takeFrame tls = res at h ⊢
  obtain ⟨ws₁, w⟩ := res
  cases w with
  | failed => exact trivial
  | threw => exact h
  | frame opcode payload =>
    have hd := dispatch_dispatched tls ws₁ opcode payload
    simp only
    generalize ws₁.dispatch tls opcode payload = r at hd ⊢
    cases hd with
    | message => exact h
    | on hrx hs => exact ⟨payload, h.of_eq hrx hs⟩
    | failed => exact trivial

/-- And it does so only then, unless the frame ends the loop. -/
theorem fits_of_passesWhole (h : HeaderArrives tls ws) (hpass : PassesWhole tls ws)
    (hop : (ws.received tls).getD 0 0 &&& 0x0F ≠ opPing ∧
      (ws.received tls).getD 0 0 &&& 0x0F ≠ opClose) :
    Fits tls ws := by
  have htook := takeFrame_took h
  have hiff := takesWhole_iff h
  unfold TakesWhole at hiff
  unfold PassesWhole readPass at hpass
  generalize ws.takeFrame tls = res at htook hiff hpass
  cases htook with
  | short => exact hiff.mp trivial
  | narrow => exact absurd hpass id
  | @frame ws₁ hroom hgot hn =>
    generalize hws : ({ ws₁ with rx := ws₁.rx.drop (frameSize (ws.received tls)) } :
      AlpacaWebSocket) = ws₂ at hpass
    have hrx : ws₂.rx = ws₁.rx.drop (frameSize (ws.received tls)) := by rw [← hws]
    have hs : ws₂.stream = ws₁.stream := by rw [← hws]
    have hd := dispatch_dispatched tls ws₂ ((ws.received tls).getD 0 0 &&& 0x0F)
      ((ws₁.rx.drop (headerSize (ws.received tls))).take (frameLength (ws.received tls)))
    simp only at hpass
    generalize dispatch _ _ _ _ = r at hd hpass
    cases hd with
    | message => exact ((takenWhole_iff hroom hgot hn hrx hs _).mp hpass).2
    | on hrx' hs' =>
      obtain ⟨payload, hpass⟩ := hpass
      exact ((takenWhole_iff hroom hgot hn (hrx'.trans hrx) (hs'.trans hs) payload).mp hpass).2
    | failed hend => exact absurd hend (not_or.mpr hop)

/-- Without a header, false is returned. -/
theorem takeFrame_headerless (h : ¬ HeaderArrives tls ws) :
    ∃ ws₁, ws.takeFrame tls = (ws₁, .failed) := by
  obtain ⟨ws₁, ok, h₁, -, hok⟩ := readExact_iff tls ws 2
  unfold takeFrame
  simp only [h₁]
  cases ok with
  | false => exact ⟨ws₁, rfl⟩
  | true =>
    obtain ⟨hrx₁, hgot₁⟩ := hok rfl
    change 2 ≤ _ at hrx₁
    have hb1 := hgot₁.getD (i := 1) (by omega) 0
    have h' : ¬ HeaderArrives tls ws₁ := by rwa [HeaderArrives, hgot₁.received]
    obtain ⟨ws₂, res, h₂, hnone, -⟩ := readLength_received tls hrx₁
    obtain rfl : res = none := hnone.mpr h'
    rw [hgot₁.received] at h₂
    simp only [Bool.not_true, Bool.false_eq_true, if_false, hb1, h₂]
    exact ⟨ws₂, rfl⟩

/-- A pass goes on from one state to another. -/
def Passed (tls : Tls) (ws ws₁ : AlpacaWebSocket) : Prop := ws.readPass tls = (ws₁, none)

/-- **A run** of the loop in which all headers fit: it does not throw, and a payload that it returns
is that of a frame that was taken whole, behind the frames that it passed over. -/
theorem frameLoop_whole {fuel : ℕ} {r : Read}
    (hfits : ∀ ws', Relation.ReflTransGen (Passed tls) ws ws' → HeaderArrives tls ws' →
      Fits tls ws') (h : frameLoop tls fuel ws = some (ws₁, r)) :
    r ≠ .threw ∧ ∀ payload, r = .message payload →
      ∃ ws', Relation.ReflTransGen (Passed tls) ws ws' ∧ TakenWhole tls ws' ws₁ payload := by
  induction fuel generalizing ws with
  | zero => cases h
  | succ fuel ih =>
    have hpass : PassesWhole tls ws := by
      apply passesWhole_of_takesWhole
      by_cases hh : HeaderArrives tls ws
      · exact (takesWhole_iff hh).mpr (hfits ws .refl hh)
      · obtain ⟨ws₂, h₂⟩ := takeFrame_headerless hh
        rw [TakesWhole, h₂]
        exact trivial
    unfold PassesWhole at hpass
    unfold frameLoop at h
    rcases hp : ws.readPass tls with ⟨ws₂, - | r'⟩
    · rw [hp] at h
      obtain ⟨hthrew, hmessage⟩ := @ih ws₂ (fun ws' hrun => hfits ws' (.head hp hrun)) h
      refine ⟨hthrew, fun payload hr => ?_⟩
      obtain ⟨ws', hrun, htaken⟩ := hmessage payload hr
      exact ⟨ws', .head hp hrun, htaken⟩
    · rw [hp] at h hpass
      obtain ⟨rfl, rfl⟩ := Prod.mk.inj (Option.some.inj h)
      cases r' with
      | message p =>
        refine ⟨by simp, fun payload hr => ?_⟩
        obtain rfl := Read.message.inj hr
        exact ⟨ws, .refl, hpass⟩
      | failed => exact ⟨by simp, by simp⟩
      | threw => exact absurd hpass id

/-- **A received length cuts no frame short, but by wrapping around.** Whatever its header is, and
whatever the connection gives, the next frame is taken whole, or false is returned, if and only if
the sum of header and length fits; then a pass of `read_frame` returns or passes over whole frames,
and, unless the frame is a ping or closes the connection, only then. Where all headers of a call
fit, it does not throw, and what it returns is the payload of a whole frame. -/
theorem frames_whole (tls : Tls) (ws : AlpacaWebSocket) :
    (HeaderArrives tls ws →
      (TakesWhole tls ws ↔ Fits tls ws) ∧ (Fits tls ws → PassesWhole tls ws) ∧
      ((ws.received tls).getD 0 0 &&& 0x0F ≠ opPing →
        (ws.received tls).getD 0 0 &&& 0x0F ≠ opClose → PassesWhole tls ws → Fits tls ws)) ∧
      ((∀ ws', Relation.ReflTransGen (Passed tls) ws ws' → HeaderArrives tls ws' → Fits tls ws') →
        ∀ ws₁ r, ws.readFrame tls = some (ws₁, r) → r ≠ .threw ∧
          ∀ payload, r = .message payload →
            ∃ ws', Relation.ReflTransGen (Passed tls) ws ws' ∧ TakenWhole tls ws' ws₁ payload) :=
  ⟨fun h => ⟨takesWhole_iff h,
    fun hfits => passesWhole_of_takesWhole ((takesWhole_iff h).mpr hfits),
    fun hping hclose hpass => fits_of_passesWhole h hpass ⟨hping, hclose⟩⟩,
    fun hfits _ _ h => frameLoop_whole hfits h⟩

/-- A connection that gives what the server sent at once. -/
def promptTls : Tls := ⟨fun _ => 16384, fun _ => 16384, fun _ => none, none⟩

/-- A client that is sent a short text. -/
def greeted : AlpacaWebSocket := .connected (0x81 :: 2 :: ascii "hi")

theorem received_promptTls {stream : List UInt8} (h : stream.length ≤ 16384) :
    (connected stream).received promptTls = stream := by
  have hall : stream.take (min (promptTls.reads 0) 16384) = stream := List.take_of_length_le h
  have hnil : ∀ k, arriving promptTls k [] = [] := fun k => by rw [arriving, List.take_nil]; rfl
  rw [received, connected, List.nil_append, arriving, hall, List.drop_length, hnil, List.append_nil]
  split_ifs with hs
  · exact hs.symm
  · rfl

/-- The text is taken whole. -/
theorem frames_whole_greeted : TakesWhole promptTls greeted ∧ PassesWhole promptTls greeted := by
  have hrec : greeted.received promptTls = 0x81 :: 2 :: ascii "hi" := received_promptTls (by decide)
  have harrives : HeaderArrives promptTls greeted := by
    rw [HeaderArrives, hrec]
    decide
  have hfits : Fits promptTls greeted := by
    rw [Fits, hrec]
    exact Or.inl (by decide)
  have h := (frames_whole promptTls greeted).1 harrives
  exact ⟨h.1.mpr hfits, h.2.1 hfits⟩

/-- A client that is sent a header of length 2^64 - 10, and two bytes. -/
def misled : AlpacaWebSocket :=
  .connected ([0x81, 127, 255, 255, 255, 255, 255, 255, 255, 246] ++ ascii "hi")

/-- **A frame is cut short**: two bytes are returned for it, and nothing is removed. -/
theorem frame_cut_short :
    headerSize misled.stream = 10 ∧ frameLength misled.stream = 2 ^ 64 - 10 ∧
      (misled.readFrame promptTls).map (fun p => (p.1.rx, p.2)) =
        some (misled.stream, .message (ascii "hi")) ∧
      HeaderArrives promptTls misled ∧ ¬ TakesWhole promptTls misled := by
  have hrec : misled.received promptTls = misled.stream := received_promptTls (by decide)
  have harrives : HeaderArrives promptTls misled := by
    rw [HeaderArrives, hrec]
    decide
  refine ⟨by decide, by decide, by decide, harrives, (takesWhole_iff harrives).not.mpr ?_⟩
  rw [Fits, hrec]
  decide

end AlpacaWebSocket

end TradeFeed
