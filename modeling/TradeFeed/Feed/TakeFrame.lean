import Mathlib.Data.List.GetD
import Mathlib.Tactic.Ring
import TradeFeed.Feed.AlpacaWs

/-!
# Taking a frame

The frames of a server, and what the client makes of one. `ServerFrame` is a frame without
a mask, in any of the three forms of the length that have room for it. However the calls of
`SSL_read` cut the server's bytes, a frame that stands next in them is taken out whole, and
what is behind it stays (`takeFrame_spec`): the client's buffer and the bytes still to be
read are, together, what was not consumed.
-/

namespace TradeFeed

open Lib.Bytes

/-- A form of the length in a frame's header. -/
inductive LengthForm where
  /-- Seven bits. -/
  | short
  /-- Two bytes more. -/
  | medium
  /-- Eight bytes more. -/
  | long
  deriving DecidableEq

namespace LengthForm

/-- The lengths that have the form are below this. -/
def bound : LengthForm → ℕ
  | .short => 126
  | .medium => 2 ^ 16
  | .long => 2 ^ 63

/-- The second byte of the header. -/
def second (form : LengthForm) (len : ℕ) : UInt8 :=
  match form with
  | .short => UInt8.ofNat len
  | .medium => 126
  | .long => 127

/-- The bytes of the header behind the second. -/
def extended (form : LengthForm) (len : ℕ) : List UInt8 :=
  match form with
  | .short => []
  | .medium => toBE 2 len
  | .long => toBE 8 len

/-- The size of the header. -/
def header : LengthForm → ℕ
  | .short => 2
  | .medium => 4
  | .long => 10

theorem length_extended (form : LengthForm) (len : ℕ) :
    (form.extended len).length + 2 = form.header := by
  cases form <;> simp [extended, header]

theorem two_le_header (form : LengthForm) : 2 ≤ form.header := by cases form <;> decide

theorem header_le (form : LengthForm) : form.header ≤ 10 := by cases form <;> decide

theorem bound_le (form : LengthForm) : form.bound ≤ 2 ^ 63 := by cases form <;> decide

/-- The server's frames have no mask. -/
theorem second_mask {form : LengthForm} {len : ℕ} (h : len < form.bound) :
    form.second len &&& 0x80 = 0 := by
  have hshort : ∀ len < 126, UInt8.ofNat len &&& 0x80 = 0 := by decide
  cases form with
  | short => exact hshort len h
  | medium => exact show (126 : UInt8) &&& 0x80 = 0 by decide
  | long => exact show (127 : UInt8) &&& 0x80 = 0 by decide

end LengthForm

/-- An opcode. -/
abbrev Opcode := Fin 16

namespace Opcode

/-- A fragment that is not the first. -/
def continuation : Opcode := 0

/-- Text. -/
def text : Opcode := 1

/-- Binary data. -/
def binary : Opcode := 2

/-- A ping. -/
def ping : Opcode := 9

/-- A pong. -/
def pong : Opcode := 10

end Opcode

/-- A frame of a server. -/
structure ServerFrame where
  /-- The FIN bit. -/
  fin : Bool
  /-- The opcode. -/
  opcode : Opcode
  /-- The form of the length. -/
  form : LengthForm
  /-- The payload. -/
  payload : List UInt8
  /-- The form has room for its length. -/
  fits : payload.length < form.bound

namespace ServerFrame

/-- The first byte. -/
def firstByte (fin : Bool) (opcode : Opcode) : UInt8 :=
  UInt8.ofNat (if fin then 128 + opcode.val else opcode.val)

/-- The header. -/
def headerBytes (f : ServerFrame) : List UInt8 :=
  firstByte f.fin f.opcode :: f.form.second f.payload.length :: f.form.extended f.payload.length

/-- The bytes of a frame. -/
def bytes (f : ServerFrame) : List UInt8 := f.headerBytes ++ f.payload

theorem length_headerBytes (f : ServerFrame) : f.headerBytes.length = f.form.header :=
  f.form.length_extended _

theorem length_bytes (f : ServerFrame) : f.bytes.length = f.form.header + f.payload.length := by
  rw [bytes, List.length_append, length_headerBytes]

/-- The client reads the opcode whatever the FIN bit is. -/
theorem opcode_firstByte (fin : Bool) (opcode : Opcode) :
    firstByte fin opcode &&& 0x0F = UInt8.ofNat opcode.val := by
  revert fin opcode
  decide

end ServerFrame

/-! ### Lengths -/

/-- A byte is added behind a length. -/
theorem toNat_lengthStep {acc : UInt64} (h : acc.toNat < 2 ^ 56) (b : UInt8) :
    ((acc <<< 8) ||| b.toUInt64).toNat = acc.toNat * 256 + b.toNat := by
  have hb : b.toNat < 2 ^ 8 := b.toNat_lt
  have hshift : (acc <<< 8).toNat = acc.toNat <<< 8 := by
    rw [UInt64.toNat_shiftLeft]
    show acc.toNat <<< 8 % 2 ^ 64 = _
    apply Nat.mod_eq_of_lt
    rw [Nat.shiftLeft_eq]
    omega
  rw [UInt64.toNat_or, hshift, UInt8.toNat_toUInt64, ← Nat.shiftLeft_add_eq_or_of_lt hb,
    Nat.shiftLeft_eq]

/-- Bytes are added behind a length, as long as there is room for them. -/
theorem toNat_lengthFold {bs : List UInt8} {acc : UInt64} (hlen : bs.length ≤ 8)
    (hacc : acc.toNat < 256 ^ (8 - bs.length)) :
    (bs.foldl (fun (len : UInt64) (b : UInt8) => (len <<< 8) ||| b.toUInt64) acc).toNat =
      acc.toNat * 256 ^ bs.length + ofBE bs := by
  induction bs generalizing acc with
  | nil => simp
  | cons b bs ih =>
    rw [List.length_cons] at hlen hacc
    have hb : b.toNat < 256 := b.toNat_lt
    have hpow : 256 ^ (8 - bs.length) = 256 * 256 ^ (8 - (bs.length + 1)) := by
      rw [← pow_succ', show 8 - bs.length = 8 - (bs.length + 1) + 1 by omega]
    have hsmall : acc.toNat < 2 ^ 56 :=
      Nat.lt_of_lt_of_le hacc
        (Nat.pow_le_pow_right (n := 256) (by decide) (by omega : 8 - (bs.length + 1) ≤ 7))
    have hstep := toNat_lengthStep hsmall b
    rw [List.foldl_cons, ih (by omega) (by rw [hstep, hpow]; omega), hstep, ofBE_cons,
      List.length_cons]
    ring

/-- **A length** of up to eight bytes is read as it was written. -/
theorem toNat_lengthOf {bs : List UInt8} (h : bs.length ≤ 8) :
    (AlpacaWebSocket.lengthOf bs).toNat = ofBE bs := by
  have h0 := @toNat_lengthFold bs 0 h (Nat.pow_pos (by decide))
  rwa [UInt64.toNat_zero, Nat.zero_mul, Nat.zero_add] at h0

/-! ### Reading on -/

/-- Every call of `SSL_read` gives a byte, while there is one. -/
def Tls.Delivers (tls : Tls) : Prop := ∀ k, 0 < tls.reads k

namespace AlpacaWebSocket

variable {tls : Tls} {ws : AlpacaWebSocket}

/-- The bytes of the server that were not consumed: those in `rx_`, and those to come. -/
def pending (ws : AlpacaWebSocket) : List UInt8 := ws.rx ++ ws.stream

/-- The client has read on: it consumed nothing and wrote nothing. -/
structure ReadOn (ws ws₁ : AlpacaWebSocket) : Prop where
  /-- The same bytes are to be consumed. -/
  pending : ws₁.pending = ws.pending
  /-- The same bytes were written. -/
  written : ws₁.written = ws.written

theorem ReadOn.rfl : ReadOn ws ws := ⟨Eq.refl _, Eq.refl _⟩

theorem ReadOn.trans {ws₁ ws₂ : AlpacaWebSocket} (h₁ : ReadOn ws ws₁) (h₂ : ReadOn ws₁ ws₂) :
    ReadOn ws ws₂ :=
  ⟨h₂.pending.trans h₁.pending, h₂.written.trans h₁.written⟩

theorem sslRead_append (tls : Tls) (ws : AlpacaWebSocket) (size : ℕ) :
    (ws.sslRead tls size).2 ++ (ws.sslRead tls size).1.stream = ws.stream :=
  List.prefix_iff_eq_append.mp (List.take_prefix _ _)

/-- Where calls deliver, only the end of the stream gives no bytes. -/
theorem sslRead_eq_nil (hd : tls.Delivers) {size : ℕ} (hsize : 0 < size) :
    (ws.sslRead tls size).2 = [] ↔ ws.stream = [] := by
  have hpos : min (tls.reads ws.readCalls) size ≠ 0 := by
    have := hd ws.readCalls
    omega
  rw [sslRead, List.take_eq_nil_iff, or_iff_right hpos]

section ReadUntil

variable {size fuel : ℕ} {what : String} {wanted : List UInt8 → Bool}

/-- The state after a pass of a reading loop that got bytes. -/
def grown (tls : Tls) (ws : AlpacaWebSocket) (size : ℕ) : AlpacaWebSocket :=
  { (ws.sslRead tls size).1 with rx := ws.rx ++ (ws.sslRead tls size).2 }

theorem readOn_grown (tls : Tls) (ws : AlpacaWebSocket) (size : ℕ) :
    ReadOn ws (ws.grown tls size) where
  pending := by
    rw [pending, grown, List.append_assoc]
    exact congrArg (ws.rx ++ ·) (sslRead_append tls ws size)
  written := Eq.refl _

theorem length_grown (hd : tls.Delivers) (hsize : 0 < size) (hstream : ws.stream ≠ []) :
    (ws.grown tls size).stream.length < ws.stream.length := by
  have hlen := congrArg List.length (sslRead_append tls ws size)
  have hpos := List.length_pos_of_ne_nil fun h => hstream ((sslRead_eq_nil hd hsize).mp h)
  rw [List.length_append] at hlen
  show (ws.sslRead tls size).1.stream.length < _
  omega

theorem readUntil_succ (tls : Tls) (ws : AlpacaWebSocket) (size fuel : ℕ) (what : String)
    (wanted : List UInt8 → Bool) :
    readUntil tls size what wanted (fuel + 1) ws =
      if wanted ws.rx then (ws, true)
      else if (ws.sslRead tls size).2 = [] then ((ws.sslRead tls size).1.fail what, false)
      else readUntil tls size what wanted fuel (ws.grown tls size) := Eq.refl _

/-- **A reading loop succeeds** once the server's bytes have what is wanted, however the calls
cut them. -/
theorem readUntil_spec (hd : tls.Delivers) (hsize : 0 < size) (hfuel : ws.stream.length < fuel)
    (hw : wanted ws.pending = true) :
    ∃ ws₁, readUntil tls size what wanted fuel ws = (ws₁, true) ∧ wanted ws₁.rx = true ∧
      ReadOn ws ws₁ := by
  induction fuel generalizing ws with
  | zero => exact absurd hfuel (Nat.not_lt_zero _)
  | succ fuel ih =>
    rw [readUntil_succ]
    by_cases hrx : wanted ws.rx = true
    · exact ⟨ws, by rw [if_pos hrx], hrx, .rfl⟩
    · have hstream : ws.stream ≠ [] := by
        intro hnil
        rw [pending, hnil, List.append_nil] at hw
        exact hrx hw
      have hbs := mt (sslRead_eq_nil hd hsize).mp hstream
      have hlen := length_grown hd hsize hstream
      have hon := readOn_grown tls ws size
      obtain ⟨ws₁, h₁, hw₁, hon₁⟩ := @ih (ws.grown tls size) (by omega) (by rw [hon.pending, hw])
      exact ⟨ws₁, by rw [if_neg hrx, if_neg hbs, h₁], hw₁, hon.trans hon₁⟩

/-- **It fails** at the end of a stream that never has it. -/
theorem readUntil_short (hd : tls.Delivers) (hsize : 0 < size) (hfuel : ws.stream.length < fuel)
    (hw : ∀ p, p <+: ws.pending → wanted p = false) :
    ∃ ws₁, readUntil tls size what wanted fuel ws = (ws₁, false) ∧ ReadOn ws ws₁ := by
  induction fuel generalizing ws with
  | zero => exact absurd hfuel (Nat.not_lt_zero _)
  | succ fuel ih =>
    have hrx : ¬ wanted ws.rx = true := by
      rw [hw ws.rx (List.prefix_append _ _)]
      exact Bool.false_ne_true
    have hon := readOn_grown tls ws size
    rw [readUntil_succ, if_neg hrx]
    by_cases hstream : ws.stream = []
    · have hbs := (sslRead_eq_nil hd hsize).mpr hstream
      have happ := sslRead_append tls ws size
      rw [hbs, List.nil_append] at happ
      exact ⟨(ws.sslRead tls size).1.fail what, by rw [if_pos hbs],
        congrArg (ws.rx ++ ·) happ, Eq.refl _⟩
    · have hbs := mt (sslRead_eq_nil hd hsize).mp hstream
      have hlen := length_grown hd hsize hstream
      obtain ⟨ws₁, h₁, hon₁⟩ := @ih (ws.grown tls size) (by omega) (by rw [hon.pending]; exact hw)
      exact ⟨ws₁, by rw [if_neg hbs, h₁], hon.trans hon₁⟩

end ReadUntil

theorem readExact_spec (hd : tls.Delivers) {n : UInt64} (hn : n.toNat ≤ ws.pending.length) :
    ∃ ws₁, ws.readExact tls n = (ws₁, true) ∧ n.toNat ≤ ws₁.rx.length ∧ ReadOn ws ws₁ := by
  have hspec : ∃ ws₁, ws.readExact tls n = (ws₁, true) ∧ decide (n.toNat ≤ ws₁.rx.length) = true ∧
      ReadOn ws ws₁ :=
    readUntil_spec hd (by decide) (Nat.lt_succ_self _) (decide_eq_true hn)
  obtain ⟨ws₁, h₁, hrx, hon⟩ := hspec
  exact ⟨ws₁, h₁, of_decide_eq_true hrx, hon⟩

theorem readExact_short (hd : tls.Delivers) {n : UInt64} (hn : ws.pending.length < n.toNat) :
    ∃ ws₁, ws.readExact tls n = (ws₁, false) ∧ ReadOn ws ws₁ := by
  refine readUntil_short hd (by decide) (Nat.lt_succ_self _) fun p hp => ?_
  have hle := hp.length_le
  rw [decide_eq_false_iff_not]
  omega

/-! ### Looking into the buffer -/

theorem rx_getD {i : ℕ} (h : i < ws.rx.length) (d : UInt8) : ws.rx.getD i d = ws.pending.getD i d :=
  (List.getD_append _ _ _ _ h).symm

theorem rx_slice {i k : ℕ} (h : i + k ≤ ws.rx.length) :
    (ws.rx.drop i).take k = (ws.pending.drop i).take k := by
  have hk : k ≤ (ws.rx.drop i).length := by
    rw [List.length_drop]
    omega
  rw [pending, List.drop_append_of_le_length (by omega), List.take_append_of_le_length hk]

theorem rx_drop {i : ℕ} (h : i ≤ ws.rx.length) : ws.rx.drop i ++ ws.stream = ws.pending.drop i :=
  (List.drop_append_of_le_length h).symm

/-- The two bytes of a length are read as the eight are. -/
theorem lengthOf_two (bs : List UInt8) (h : 4 ≤ bs.length) :
    ((bs.getD 2 0).toUInt64 <<< 8) ||| (bs.getD 3 0).toUInt64 = lengthOf ((bs.drop 2).take 2) := by
  match bs with
  | _ :: _ :: c :: d :: _ =>
    show (c.toUInt64 <<< 8) ||| d.toUInt64 = ((((0 : UInt64) <<< 8) ||| c.toUInt64) <<< 8)
      ||| d.toUInt64
    rw [show (0 : UInt64) <<< 8 = 0 from rfl, UInt64.zero_or]

/-! ### A frame -/

variable {f : ServerFrame} {after : List UInt8}

theorem pending_extended (h : ws.pending = f.bytes ++ after) :
    (ws.pending.drop 2).take (f.form.header - 2) = f.form.extended f.payload.length := by
  have hlen := f.form.length_extended f.payload.length
  rw [h, ← hlen, Nat.add_sub_cancel, ServerFrame.bytes, List.append_assoc]
  exact List.take_left

theorem readLength_short {b1 : UInt8} (h : (b1 &&& 0x7F).toUInt64.toNat < 126) :
    ws.readLength tls b1 = (ws, some ((b1 &&& 0x7F).toUInt64, 2)) := by
  have hne : ∀ n : UInt64, 126 ≤ n.toNat → (b1 &&& 0x7F).toUInt64 ≠ n := fun n hn he => by
    rw [he] at h
    omega
  unfold readLength
  rw [if_neg (hne 126 (by decide)), if_neg (hne 127 (by decide))]

theorem readLength_medium {ws₁ : AlpacaWebSocket} (h : ws.readExact tls 4 = (ws₁, true)) :
    ws.readLength tls 126 =
      (ws₁, some (((ws₁.rx.getD 2 0).toUInt64 <<< 8) ||| (ws₁.rx.getD 3 0).toUInt64, 4)) := by
  unfold readLength
  rw [if_pos (by decide), h]
  rfl

theorem readLength_long {ws₁ : AlpacaWebSocket} (h : ws.readExact tls 10 = (ws₁, true)) :
    ws.readLength tls 127 = (ws₁, some (lengthOf ((ws₁.rx.drop 2).take 8), 10)) := by
  unfold readLength
  rw [if_neg (by decide), if_pos (by decide), h]
  rfl

/-- **The length** is read in each of its forms, and so is the size of the header. -/
theorem readLength_spec (hd : tls.Delivers) (h : ws.pending = f.bytes ++ after) :
    ∃ ws₁ len, ws.readLength tls (f.form.second f.payload.length) =
      (ws₁, some (len, UInt64.ofNat f.form.header)) ∧
      len.toNat = f.payload.length ∧ ReadOn ws ws₁ := by
  have hfits := f.fits
  have hext := pending_extended h
  have hlen : ws.pending.length = f.form.header + f.payload.length + after.length := by
    rw [h, List.length_append, f.length_bytes]
  cases hform : f.form with
  | short =>
    rw [hform] at hfits
    have hsmall : ∀ len < 126, (UInt8.ofNat len &&& 0x7F).toUInt64.toNat = len := by decide
    have hval := hsmall _ hfits
    exact ⟨ws, _, readLength_short (by rw [LengthForm.second, hval]; exact hfits), hval, .rfl⟩
  | medium =>
    rw [hform] at hfits hext hlen
    change (ws.pending.drop 2).take 2 = _ at hext
    obtain ⟨ws₁, h₁, hrx₁, hon₁⟩ :=
      readExact_spec (n := 4) hd (by rw [hlen]; show 4 ≤ 4 + _ + _; omega)
    refine ⟨ws₁, _, readLength_medium h₁, ?_, hon₁⟩
    rw [lengthOf_two _ hrx₁, rx_slice hrx₁, hon₁.pending, hext,
      toNat_lengthOf (by simp [LengthForm.extended]), LengthForm.extended, ofBE_toBE]
    exact Nat.mod_eq_of_lt hfits
  | long =>
    rw [hform] at hfits hext hlen
    change (ws.pending.drop 2).take 8 = _ at hext
    obtain ⟨ws₁, h₁, hrx₁, hon₁⟩ :=
      readExact_spec (n := 10) hd (by rw [hlen]; show 10 ≤ 10 + _ + _; omega)
    refine ⟨ws₁, _, readLength_long h₁, ?_, hon₁⟩
    rw [rx_slice hrx₁, hon₁.pending, hext, toNat_lengthOf (by simp [LengthForm.extended]),
      LengthForm.extended, ofBE_toBE]
    exact Nat.mod_eq_of_lt (Nat.lt_trans hfits (by decide))

/-- **A frame** that stands next is taken out. -/
theorem takeFrame_spec (hd : tls.Delivers) (h : ws.pending = f.bytes ++ after) :
    ∃ ws₁, ws.takeFrame tls = (ws₁, .frame (UInt8.ofNat f.opcode.val) f.payload) ∧
      ws₁.pending = after ∧ ws₁.written = ws.written := by
  have hlen : ws.pending.length = f.form.header + f.payload.length + after.length := by
    rw [h, List.length_append, f.length_bytes]
  have htwo := f.form.two_le_header
  obtain ⟨ws₁, h₁, hrx₁, hon₁⟩ := readExact_spec (n := 2) hd (by rw [hlen]; show 2 ≤ _; omega)
  have hpend₁ := hon₁.pending.trans h
  have hb0 : ws₁.rx.getD 0 0 = ServerFrame.firstByte f.fin f.opcode := by
    rw [rx_getD (by change 2 ≤ _ at hrx₁; omega), hpend₁]
    rfl
  have hb1 : ws₁.rx.getD 1 0 = f.form.second f.payload.length := by
    rw [rx_getD (by change 2 ≤ _ at hrx₁; omega), hpend₁]
    rfl
  obtain ⟨ws₂, len, h₂, hlen₂, hon₂⟩ := readLength_spec hd hpend₁
  have hpend₂ := hon₂.pending.trans hpend₁
  have hle := f.form.header_le
  have hbound := Nat.lt_of_lt_of_le f.fits f.form.bound_le
  have hhdr : (UInt64.ofNat f.form.header).toNat = f.form.header := by
    rw [UInt64.toNat_ofNat']
    omega
  have hsum : (UInt64.ofNat f.form.header + len).toNat = f.form.header + f.payload.length := by
    rw [UInt64.toNat_add, hhdr, hlen₂]
    omega
  have hroom : (UInt64.ofNat f.form.header + len).toNat ≤ ws₂.pending.length := by
    rw [hsum, hpend₂, List.length_append, f.length_bytes]
    omega
  obtain ⟨ws₃, h₃, hrx₃, hon₃⟩ := readExact_spec hd hroom
  have hpend₃ := hon₃.pending.trans hpend₂
  rw [hsum] at hrx₃
  have hmask : ¬ f.form.second f.payload.length &&& 0x80 ≠ 0 :=
    not_not_intro (LengthForm.second_mask f.fits)
  have hnarrow : ¬ ws₃.rx.length < f.form.header := by omega
  have hpayload : (ws₃.rx.drop f.form.header).take f.payload.length = f.payload := by
    rw [rx_slice hrx₃, hpend₃, ServerFrame.bytes, List.append_assoc, ← f.length_headerBytes,
      List.drop_left, List.take_left]
  refine ⟨{ ws₃ with rx := ws₃.rx.drop (f.form.header + f.payload.length) }, ?_, ?_, ?_⟩
  · unfold takeFrame
    simp only [h₁, hb0, hb1, h₂, if_neg hmask, h₃, hsum, hhdr, hlen₂, if_neg hnarrow, hpayload,
      ServerFrame.opcode_firstByte]
    rfl
  · show ws₃.rx.drop _ ++ ws₃.stream = after
    rw [rx_drop hrx₃, hpend₃, ← f.length_bytes, List.drop_left]
  · exact ((hon₁.trans hon₂).trans hon₃).written

/-- At the end of the stream there is none. -/
theorem takeFrame_end (hd : tls.Delivers) (h : ws.pending = []) :
    ∃ ws₁, ws.takeFrame tls = (ws₁, .failed) ∧ ws₁.pending = [] ∧ ws₁.written = ws.written := by
  obtain ⟨ws₁, h₁, hon₁⟩ := readExact_short (n := 2) hd (by rw [h]; decide)
  refine ⟨ws₁, ?_, hon₁.pending.trans h, hon₁.written⟩
  unfold takeFrame
  simp only [h₁]
  rfl

end AlpacaWebSocket

end TradeFeed
