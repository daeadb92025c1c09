import TradeFeed.Feed.SendFrame

/-!
# What a server decodes

A decoder of the frames of RFC 6455, as a server has it: FIN, the reserved bits, the opcode,
the mask bit, the length in one of its three forms, the masking key, and the payload, of
which byte `i` is unmasked by byte `i mod 4` of the key. It knows nothing of the client.

`sent_frames_decode` says that what `send_frame` hands to `write_all` is one frame to it,
with nothing behind, and that `write_all` sends these bytes, once each and in order.
-/

namespace TradeFeed

open Lib.Bytes

/-! ### The decoder -/

/-- A frame as it is decoded. -/
structure ClientFrame where
  /-- The FIN bit. -/
  fin : Bool
  /-- The reserved bits, at their places. -/
  reserved : UInt8
  /-- The opcode. -/
  opcode : UInt8
  /-- The mask bit. -/
  masked : Bool
  /-- The form of the length. -/
  form : LengthForm
  /-- The payload, unmasked. -/
  payload : List UInt8
  deriving DecidableEq

/-- So many bytes, and what is behind them. -/
def takeBytes (n : ℕ) (bs : List UInt8) : Option (List UInt8 × List UInt8) :=
  if n ≤ bs.length then some (bs.take n, bs.drop n) else none

/-- The form of the length that the second byte of a frame has. -/
def formOf (b1 : UInt8) : LengthForm :=
  if b1 &&& 0x7F = 126 then .medium else if b1 &&& 0x7F = 127 then .long else .short

/-- How many bytes more the length has. -/
def LengthForm.extra : LengthForm → ℕ
  | .short => 0
  | .medium => 2
  | .long => 8

/-- The length, of the second byte and of those bytes, the highest first. -/
def lengthIn (form : LengthForm) (b1 : UInt8) (bs : List UInt8) : ℕ :=
  match form with
  | .short => (b1 &&& 0x7F).toNat
  | .medium | .long => ofBE bs

/-- Byte `i` is unmasked by byte `i mod 4` of the key. -/
def unmask (key bs : List UInt8) : List UInt8 := bs.mapIdx fun i b => b ^^^ key.getD (i % 4) 0

/-- The first frame of some bytes, and what is behind it. -/
def decodeFrame : List UInt8 → Option (ClientFrame × List UInt8)
  | b0 :: b1 :: bs => do
    let masked := decide (b1 &&& 0x80 ≠ 0)
    let length ← takeBytes (formOf b1).extra bs
    let key ← takeBytes (if masked then 4 else 0) length.2
    let payload ← takeBytes (lengthIn (formOf b1) b1 length.1) key.2
    let frame := ⟨decide (b0 &&& 0x80 ≠ 0), b0 &&& 0x70, b0 &&& 0x0F, masked, formOf b1,
      if masked then unmask key.1 payload.1 else payload.1⟩
    return (frame, payload.2)
  | _ => none

/-! ### Frames that are sent -/

theorem takeBytes_append {n : ℕ} {l : List UInt8} (h : l.length = n) (rest : List UInt8) :
    takeBytes n (l ++ rest) = some (l, rest) := by
  rw [takeBytes, if_pos (by rw [List.length_append]; omega), List.take_left' h, List.drop_left' h]

/-- The second byte of a frame with a mask has the mask bit, and the form and the length are in
it. -/
theorem second_masked {form : LengthForm} {len : ℕ} (h : len < form.bound) :
    (0x80 ||| form.second len) &&& 0x80 ≠ 0 ∧ formOf (0x80 ||| form.second len) = form ∧
      lengthIn form (0x80 ||| form.second len) (form.extended len) = len := by
  have hshort : ∀ len < 126, ((0x80 : UInt8) ||| UInt8.ofNat len) &&& 0x80 ≠ 0 ∧
    formOf (0x80 ||| UInt8.ofNat len) = .short ∧
      (((0x80 : UInt8) ||| UInt8.ofNat len) &&& 0x7F).toNat = len := by decide
  cases form with
  | short => exact hshort len h
  | medium =>
    refine ⟨show ((0x80 : UInt8) ||| 126) &&& 0x80 ≠ 0 by decide,
      show formOf (0x80 ||| 126) = .medium by decide, ?_⟩
    rw [lengthIn, LengthForm.extended, ofBE_toBE]
    exact Nat.mod_eq_of_lt h
  | long =>
    refine ⟨show ((0x80 : UInt8) ||| 127) &&& 0x80 ≠ 0 by decide,
      show formOf (0x80 ||| 127) = .long by decide, ?_⟩
    rw [lengthIn, LengthForm.extended, ofBE_toBE]
    exact Nat.mod_eq_of_lt (h.trans (by decide))

/-- The first byte of a frame that is sent. -/
theorem first_sent {opcode : UInt8} (h : opcode < 16) :
    (0x80 ||| opcode) &&& 0x80 ≠ 0 ∧ (0x80 ||| opcode) &&& 0x70 = 0 ∧
      (0x80 ||| opcode) &&& 0x0F = opcode := by
  have hall : ∀ n < 16, ((0x80 : UInt8) ||| UInt8.ofNat n) &&& 0x80 ≠ 0 ∧
    ((0x80 : UInt8) ||| UInt8.ofNat n) &&& 0x70 = 0 ∧
      ((0x80 : UInt8) ||| UInt8.ofNat n) &&& 0x0F = UInt8.ofNat n := by decide
  have hop := hall opcode.toNat (UInt8.lt_iff_toNat_lt.mp h)
  rwa [UInt8.ofNat_toNat] at hop

/-- Masking and unmasking is nothing. -/
theorem unmask_masked (mask : Mask) (bs : List UInt8) :
    unmask (List.ofFn mask) (bs.mapIdx fun i b => b ^^^ mask (Fin.ofNat 4 i)) = bs := by
  have hkey : (fun (i : ℕ) (b : UInt8) => b ^^^ (List.ofFn mask).getD (i % 4) 0) =
      fun i b => b ^^^ mask ⟨i % 4, Nat.mod_lt i (Nat.succ_pos 3)⟩ := by
    funext i b
    rw [List.getD_eq_getElem _ _ (by simpa using Nat.mod_lt i (Nat.succ_pos 3)), List.getElem_ofFn]
  rw [unmask, hkey]
  exact mapIdx_mask mask bs

namespace AlpacaWebSocket

/-- **A frame that is built** is decoded as it was meant, whatever is behind it. -/
theorem decodeFrame_frameOf {opcode : UInt8} (hop : opcode < 16) {payload : List UInt8}
    (h : payload.length < 2 ^ 63) (mask : Mask) (rest : List UInt8) :
    decodeFrame (frameOf opcode payload mask ++ rest) =
      some (⟨true, 0, opcode, true, .shortest payload.length, payload⟩, rest) := by
  have hfits := LengthForm.lt_bound_shortest h
  obtain ⟨hmask, hform, hlen⟩ := second_masked hfits
  obtain ⟨hfin, hreserved, hopcode⟩ := first_sent hop
  have hext := (LengthForm.shortest payload.length).length_extended payload.length
  have hextra : ((LengthForm.shortest payload.length).extended payload.length).length =
      (LengthForm.shortest payload.length).extra := by
    generalize LengthForm.shortest payload.length = form at hext ⊢
    cases form <;> simpa [LengthForm.header, LengthForm.extra] using hext
  rw [frameOf, maskedLength_eq, List.cons_append, List.cons_append, List.cons_append,
    List.cons_append, List.cons_append, List.cons_append, decodeFrame]
  simp only [decide_eq_true hmask, hform, hlen, decide_eq_true hfin, hreserved, hopcode, if_true,
    List.append_assoc, takeBytes_append hextra, takeBytes_append (List.length_ofFn (f := mask)),
    Option.bind_eq_bind, Option.bind_some]
  rw [takeBytes_append List.length_mapIdx]
  simp only [Option.bind_some, unmask_masked]
  rfl

/-- No form that has room for the length has a smaller header. -/
theorem shortest_le {len : ℕ} {form : LengthForm} (h : len < form.bound) :
    (LengthForm.shortest len).header ≤ form.header := by
  unfold LengthForm.shortest
  cases form with
  | short => exact (congrArg LengthForm.header (if_pos h)).le
  | medium =>
    split_ifs with h₁ h₂
    · decide
    · exact le_rfl
    · exact absurd (Nat.le_of_lt_succ h) h₂
  | long => split_ifs <;> decide

/-- The frame of a payload below 2 GiB, less the largest header, is below 2 GiB. -/
theorem length_frameOf_lt {opcode : UInt8} {payload : List UInt8} (h : payload.length < 2 ^ 31 - 14)
    (mask : Mask) :
    (frameOf opcode payload mask).length < 2 ^ 31 := by
  have hext := (LengthForm.shortest payload.length).length_extended payload.length
  have hle := (LengthForm.shortest payload.length).header_le
  rw [frameOf, maskedLength_eq]
  simp only [List.length_append, List.length_cons, List.length_ofFn, List.length_mapIdx]
  omega

/-- **What is sent decodes back**: `send_frame` hands one frame to `write_all`, which a server
decodes to the opcode and the payload, with FIN and the mask bit, the length being in its shortest
form, and with nothing behind it; and `write_all` sends its bytes once each, in order, whatever
numbers of bytes the calls of `SSL_write` take. -/
theorem sent_frames_decode {opcode : UInt8} (hop : opcode < 16) {payload : List UInt8}
    (h : payload.length < 2 ^ 31 - 14) (mask : Mask) :
    (∃ form, decodeFrame (frameOf opcode payload mask) =
      some (⟨true, 0, opcode, true, form, payload⟩, []) ∧
      ∀ other : LengthForm, payload.length < other.bound → form.header ≤ other.header) ∧
      ∀ (tls : Tls) (ws : AlpacaWebSocket), tls.masks ws.maskCalls = some mask →
        ws.sendFrame tls opcode payload =
            writeAll tls { ws with maskCalls := ws.maskCalls + 1 } (frameOf opcode payload mask) ∧
          ((∀ k, 0 < tls.writes k) → ∃ ws₁, ws.sendFrame tls opcode payload = (ws₁, true) ∧
            ws₁.written = ws.written ++ frameOf opcode payload mask) := by
  refine ⟨⟨.shortest payload.length, ?_, fun other hother => shortest_le hother⟩,
    fun tls ws hmask => ?_⟩
  · have hdecode := decodeFrame_frameOf hop (h.trans (by decide)) mask []
    rwa [List.append_nil] at hdecode
  · have hsend : ws.sendFrame tls opcode payload =
        writeAll tls { ws with maskCalls := ws.maskCalls + 1 } (frameOf opcode payload mask) := by
      rw [sendFrame, hmask]
    refine ⟨hsend, fun hw => ?_⟩
    obtain ⟨ws₁, h₁, hsent⟩ :=
      (sends_of_small hw (length_frameOf_lt h mask)).spec { ws with maskCalls := ws.maskCalls + 1 }
    exact ⟨ws₁, hsend.trans h₁, hsent.written⟩

/-- A connection that gives and takes a byte at a time. -/
def drippingTls : Tls :=
  ⟨fun _ => 1, fun _ => 1, fun _ => some fun i => UInt8.ofNat (i.val + 1), none⟩

/-- A text that is sent over it. -/
theorem sent_frames_decode_text :
    ∃ ws₁, (connected []).sendFrame drippingTls opText (ascii "hi") = (ws₁, true) ∧
      (decodeFrame ws₁.written).map (fun d => (d.1.opcode, d.1.payload, d.2)) =
        some (opText, ascii "hi", []) := by
  obtain ⟨⟨form, hdecode, -⟩, hsend⟩ :=
    @sent_frames_decode opText (by decide) (ascii "hi") (by decide) fun i => UInt8.ofNat (i.val + 1)
  obtain ⟨ws₁, h₁, hwritten⟩ := (hsend drippingTls (connected []) rfl).2 fun _ => Nat.one_pos
  exact ⟨ws₁, h₁, by
      rw [hwritten, show (connected []).written = [] from rfl, List.nil_append, hdecode]; rfl⟩

end AlpacaWebSocket

end TradeFeed
