import TradeFeed.Feed.TakeFrame

/-!
# Sending a frame

What `write_all` and `send_frame` put on the wire, when they succeed. `write_all` loses and
repeats no byte, however the calls of `SSL_write` cut its data (`writeAll_spec`), and it
leaves alone what the server sent. A frame of `send_frame` is one that a server can read
(`IsClientFrame`): its length is in the shortest form, and unmasking gives the payload.
-/

namespace TradeFeed

open Lib.Bytes

/-- A frame of a client, as its server reads it: the FIN bit and the opcode, the mask bit and
the length, the mask, and bytes that unmask to the payload. -/
def IsClientFrame (opcode : UInt8) (payload bs : List UInt8) : Prop :=
  ∃ (form : LengthForm) (mask : Mask) (masked : List UInt8), payload.length < form.bound ∧
    masked.mapIdx (fun i b => b ^^^ mask ⟨i % 4, Nat.mod_lt i (Nat.succ_pos 3)⟩) = payload ∧
    bs = (0x80 ||| opcode) :: (0x80 ||| form.second payload.length) ::
      form.extended payload.length ++
      List.ofFn mask ++ masked

/-! ### The bytes of a frame -/

theorem ofNat_and_low (n : ℕ) : UInt8.ofNat (n &&& 0xFF) = UInt8.ofNat n := by
  apply UInt8.toNat_inj.mp
  rw [UInt8.toNat_ofNat', UInt8.toNat_ofNat', show (0xFF : ℕ) = 2 ^ 8 - 1 from rfl,
    Nat.and_two_pow_sub_one_eq_mod]
  exact Nat.mod_mod n _

/-- The form of a length that is sent. -/
def LengthForm.shortest (len : ℕ) : LengthForm :=
  if len < 126 then .short else if len ≤ 0xFFFF then .medium else .long

theorem LengthForm.lt_bound_shortest {len : ℕ} (h : len < 2 ^ 63) : len < (shortest len).bound := by
  unfold shortest
  split_ifs with h₁ h₂
  · exact h₁
  · exact Nat.lt_succ_of_le h₂
  · exact h

/-- The length is sent in its shortest form, with the mask bit. -/
theorem AlpacaWebSocket.maskedLength_eq (len : ℕ) :
    maskedLength len = (0x80 ||| (LengthForm.shortest len).second len) ::
      (LengthForm.shortest len).extended len := by
  unfold maskedLength LengthForm.shortest
  split_ifs with h₁ h₂
  · exact congrArg (List.cons · []) (UInt8.ofNat_or _ _)
  · simp only [ofNat_and_low]
    simp [LengthForm.second, LengthForm.extended, toBE, toLE, Nat.shiftRight_eq_div_pow]
  · simp only [ofNat_and_low]
    simp [LengthForm.second, LengthForm.extended, toBE, toLE, Nat.shiftRight_eq_div_pow,
      Nat.div_div_eq_div_mul]

/-- Masking twice is nothing. -/
theorem mapIdx_mask (mask : Mask) (bs : List UInt8) :
    (bs.mapIdx fun i b => b ^^^ mask (Fin.ofNat 4 i)).mapIdx
      (fun i b => b ^^^ mask ⟨i % 4, Nat.mod_lt i (Nat.succ_pos 3)⟩) = bs := by
  rw [List.mapIdx_mapIdx, List.mapIdx_eq_iff]
  intro i
  cases bs[i]? with
  | none => rfl
  | some b =>
    show some b = some (b ^^^ mask (Fin.ofNat 4 i) ^^^ mask (Fin.ofNat 4 i))
    rw [UInt8.xor_assoc, UInt8.xor_self, UInt8.xor_zero]

/-- **The frame that is built** is one that the server can read. -/
theorem AlpacaWebSocket.isClientFrame_frameOf (opcode : UInt8) {payload : List UInt8}
    (h : payload.length < 2 ^ 63) (mask : Mask) :
    IsClientFrame opcode payload (frameOf opcode payload mask) := by
  refine ⟨.shortest payload.length, mask, payload.mapIdx fun i b => b ^^^ mask (Fin.ofNat 4 i),
    LengthForm.lt_bound_shortest h, mapIdx_mask mask payload, ?_⟩
  rw [frameOf, maskedLength_eq]

/-! ### Writing -/

namespace AlpacaWebSocket

variable {tls : Tls} {ws : AlpacaWebSocket} {data : List UInt8}

/-- The client has sent bytes: what the server sent is left alone. -/
structure Sent (ws ws₁ : AlpacaWebSocket) (data : List UInt8) : Prop where
  /-- The same bytes are to be consumed. -/
  pending : ws₁.pending = ws.pending
  /-- The bytes were written behind those before. -/
  written : ws₁.written = ws.written ++ data

/-- How many bytes a call of `SSL_write` takes. -/
def taken (tls : Tls) (ws : AlpacaWebSocket) (data : List UInt8) : ℕ :=
  if data.length % 2 ^ 32 < 2 ^ 31 then min (tls.writes ws.writeCalls) (data.length % 2 ^ 32) else 0

/-- The state after a call. -/
def advanced (tls : Tls) (ws : AlpacaWebSocket) (data : List UInt8) : AlpacaWebSocket :=
  { ws with
    written := ws.written ++ data.take (ws.taken tls data)
    writeCalls := ws.writeCalls + 1 }

theorem writeLoop_succ (tls : Tls) (ws : AlpacaWebSocket) (data : List UInt8) (fuel : ℕ) :
    writeLoop tls (fuel + 1) ws data =
      if data = [] then (ws, true)
      else if ws.taken tls data = 0 then
        ({ ws with writeCalls := ws.writeCalls + 1 }.fail "SSL_write", false)
      else writeLoop tls fuel (ws.advanced tls data) (data.drop (ws.taken tls data)) := rfl

/-- **A write that succeeds** has sent every byte once, in order, however the calls cut them. -/
theorem writeLoop_spec {fuel : ℕ} (hfuel : data.length ≤ fuel)
    (h : (writeLoop tls fuel ws data).2 = true) :
    Sent ws (writeLoop tls fuel ws data).1 data := by
  induction fuel generalizing ws data with
  | zero =>
    rw [List.eq_nil_of_length_eq_zero (Nat.le_zero.mp hfuel)]
    exact ⟨rfl, (List.append_nil _).symm⟩
  | succ fuel ih =>
    rw [writeLoop_succ] at h ⊢
    by_cases hnil : data = []
    · rw [if_pos hnil, hnil]
      exact ⟨rfl, (List.append_nil _).symm⟩
    · rw [if_neg hnil] at h ⊢
      by_cases hn : ws.taken tls data = 0
      · rw [if_pos hn] at h
        cases h
      · rw [if_neg hn] at h ⊢
        obtain ⟨hpend, hwritten⟩ := ih (by rw [List.length_drop]; omega) h
        refine ⟨hpend, hwritten.trans ?_⟩
        rw [advanced, List.append_assoc, List.take_append_drop]

/-- Data up to 2 GiB goes out where every call takes a byte. -/
theorem writeLoop_of_small (hw : ∀ k, 0 < tls.writes k) {fuel : ℕ} (hlen : data.length < 2 ^ 31) :
    (writeLoop tls fuel ws data).2 = true := by
  induction fuel generalizing ws data with
  | zero => rfl
  | succ fuel ih =>
    rw [writeLoop_succ]
    by_cases hnil : data = []
    · rw [if_pos hnil]
    · have hpos := List.length_pos_of_ne_nil hnil
      have hcall := hw ws.writeCalls
      have hn : ws.taken tls data ≠ 0 := by
        rw [taken, Nat.mod_eq_of_lt (by omega), if_pos hlen]
        omega
      rw [if_neg hnil, if_neg hn]
      exact ih (by rw [List.length_drop]; omega)

/-- Writing these bytes succeeds. -/
def Sends (tls : Tls) (data : List UInt8) : Prop := ∀ ws, (writeAll tls ws data).2 = true

theorem Sends.spec (h : Sends tls data) (ws : AlpacaWebSocket) :
    ∃ ws₁, ws.writeAll tls data = (ws₁, true) ∧ Sent ws ws₁ data :=
  ⟨(ws.writeAll tls data).1, Prod.ext rfl (h ws), writeLoop_spec (Nat.le_refl _) (h ws)⟩

theorem sends_of_small (hw : ∀ k, 0 < tls.writes k) (hlen : data.length < 2 ^ 31) :
    Sends tls data :=
  fun _ => writeLoop_of_small hw hlen

/-- **A frame that is sent** is one that the server can read. -/
theorem sendFrame_spec (ws : AlpacaWebSocket) {opcode : UInt8} {payload : List UInt8}
    (hmask : ∀ k, tls.masks k ≠ none) (hsend : ∀ mask, Sends tls (frameOf opcode payload mask))
    (hlen : payload.length < 2 ^ 63) :
    ∃ ws₁ bs, ws.sendFrame tls opcode payload = (ws₁, true) ∧ Sent ws ws₁ bs ∧
      IsClientFrame opcode payload bs := by
  obtain ⟨mask, hm⟩ := Option.ne_none_iff_exists'.mp (hmask ws.maskCalls)
  obtain ⟨ws₁, h₁, hsent⟩ := (hsend mask).spec { ws with maskCalls := ws.maskCalls + 1 }
  refine ⟨ws₁, frameOf opcode payload mask, ?_, ⟨hsent.pending, hsent.written⟩,
    isClientFrame_frameOf opcode hlen mask⟩
  unfold sendFrame
  rw [hm]
  exact h₁

end AlpacaWebSocket

end TradeFeed
