import TradeFeed.Feed.AlpacaWs
import TradeFeed.Lib.Base64
import TradeFeed.Lib.HttpHead

/-!
# What the server reads of the upgrade

`http_upgrade` puts the host and the path into its request as they are, and a nonce in base 64. The
path comes from the command line (`--feed`). A server that reads the head of a request
(`Http.Head.read`) reads the one that is meant, with the nonce in it and nothing lost behind it,
exactly when the path has no space and neither has the end of a line (`read_request_iff`).
-/

namespace TradeFeed

open Lib Lib.Bytes Lib.Http

/-! ### Base 64 -/

theorem base64Table_injective :
    Function.Injective fun i : Fin 64 => base64Table i := by decide +kernel

theorem base64Table_ne : ∀ i : Fin 64, base64Table i ≠ 61 := by decide +kernel

/-- The alphabet of `base64`. -/
def base64Alphabet : Base64.Alphabet :=
  ⟨fun i => base64Table i, 61, base64Table_injective, base64Table_ne⟩

/-- The shifts and masks of `base64` are quotients and remainders. -/
theorem base64_bits (a b c : ℕ) (hb : b < 2 ^ 8) (hc : c < 2 ^ 8) :
    let v := (a <<< 16) ||| (b <<< 8) ||| c
    (v >>> 18) &&& 0x3F = a / 4 % 64 ∧ (v >>> 12) &&& 0x3F = (a % 4 * 16 + b / 16) % 64 ∧
      (v >>> 6) &&& 0x3F = (b % 16 * 4 + c / 64) % 64 ∧ v &&& 0x3F = c % 64 := by
  intro v
  have hlow : b <<< 8 ||| c = b * 256 + c := by
    rw [← Nat.shiftLeft_add_eq_or_of_lt hc, Nat.shiftLeft_eq]
  have hv : v = a * 65536 + (b * 256 + c) := by
    show (a <<< 16) ||| (b <<< 8) ||| c = _
    rw [Nat.or_assoc, hlow, ← Nat.shiftLeft_add_eq_or_of_lt (by omega), Nat.shiftLeft_eq]
  have hmask : ∀ n : ℕ, n &&& 0x3F = n % 64 := fun n => Nat.and_two_pow_sub_one_eq_mod n 6
  simp only [hmask, Nat.shiftRight_eq_div_pow, hv]
  omega

theorem base64_eq (bs : List UInt8) : base64 bs = base64Alphabet.encode bs := by
  have hw : ∀ n m : ℕ, n = m % 64 → base64Table n = base64Alphabet.write m := by
    rintro n m rfl
    rfl
  induction bs using base64.induct with
  | case1 => rfl
  | case2 a =>
    obtain ⟨h₁, h₂, -⟩ := base64_bits a.toNat 0 0 (by decide) (by decide)
    simp only [Nat.zero_shiftLeft, Nat.or_zero] at h₁ h₂
    rw [base64, Base64.Alphabet.encode, hw _ _ h₁, hw _ _ h₂]
    rfl
  | case3 a b =>
    obtain ⟨h₁, h₂, h₃, -⟩ := base64_bits a.toNat b.toNat 0 b.toNat_lt (by decide)
    simp only [Nat.or_zero] at h₁ h₂ h₃
    rw [base64, Base64.Alphabet.encode, hw _ _ h₁, hw _ _ h₂, hw _ _ h₃]
    rfl
  | case4 a b c bs ih =>
    obtain ⟨h₁, h₂, h₃, h₄⟩ := base64_bits a.toNat b.toNat c.toNat b.toNat_lt c.toNat_lt
    rw [base64, Base64.Alphabet.encode, hw _ _ h₁, hw _ _ h₂, hw _ _ h₃,
      hw _ _ (h₄.trans (Nat.mod_mod _ _).symm), ih]

/-- No letter ends a line. -/
theorem base64_clear (bs : List UInt8) : 13 ∉ base64 bs := by
  intro h
  rw [base64_eq] at h
  have hletter : ∀ i : Fin 64, 13 ≠ base64Table i := by decide +kernel
  rcases base64Alphabet.mem_encode h with he | ⟨i, hi⟩
  · exact absurd he (by decide)
  · exact hletter i hi

/-! ### The head -/

namespace AlpacaWebSocket

/-- The head that is meant. -/
def upgradeHead (host path key : List UInt8) : Head where
  method := ascii "GET"
  target := path
  version := ascii "HTTP/1.1"
  fields := [(ascii "Host", host), (ascii "Upgrade", ascii "websocket"),
    (ascii "Connection", ascii "Upgrade"), (ascii "Sec-WebSocket-Key", key),
    (ascii "Sec-WebSocket-Version", ascii "13")]

/-- It is what `http_upgrade` writes. -/
theorem request_eq (host path nonce : List UInt8) :
    request host path nonce = (upgradeHead host path (base64 nonce)).text := by
  have hget : ascii "GET " = ascii "GET" ++ [32] := rfl
  have hversion : ascii " HTTP/1.1\r\n" = [32] ++ ascii "HTTP/1.1" ++ crlf := rfl
  have hhost : ascii "Host: " = ascii "Host" ++ colon := rfl
  have hend : ascii "\r\n" = crlf := rfl
  have hupgrade : ascii "Upgrade: websocket\r\n" = ascii "Upgrade" ++ colon ++
    ascii "websocket" ++ crlf := rfl
  have hconnection : ascii "Connection: Upgrade\r\n" = ascii "Connection" ++ colon ++
    ascii "Upgrade" ++ crlf := rfl
  have hkey : ascii "Sec-WebSocket-Key: " = ascii "Sec-WebSocket-Key" ++ colon := rfl
  have hlast : ascii "Sec-WebSocket-Version: 13\r\n\r\n" = ascii "Sec-WebSocket-Version" ++ colon ++
    ascii "13" ++ crlf ++ crlf := rfl
  simp only [request, hget, hversion, hhost, hend, hupgrade, hconnection, hkey, hlast, Head.text,
    Head.line, upgradeHead, fieldsText, Field.line, List.flatMap_cons, List.flatMap_nil,
    List.append_assoc, List.nil_append]

/-- A field is well formed when its name is and its value does not end the line. -/
theorem field_wellFormed_iff {name value : List UInt8} (hname : Free colon name) (hcr : 13 ∉ name) :
    Field.WellFormed (name, value) ↔ ¬ crlf <:+: value := by
  have hline : crlf <:+: Field.line (name, value) ↔ crlf <:+: value := by
    have hprefix : (13 : UInt8) ∉ name ++ colon := by
      rw [List.mem_append, not_or]
      exact ⟨hcr, by decide⟩
    have hmid := infix_middle (m := value) (v := []) hprefix (List.not_mem_nil (a := (10 : UInt8)))
    rwa [List.append_nil] at hmid
  rw [Field.WellFormed, hline]
  exact and_iff_right hname

theorem clear_of_not_mem {l : List UInt8} (h : 13 ∉ l) : ¬ crlf <:+: l :=
  fun hin => h (hin.subset (by decide))

theorem upgradeHead_line (host path key : List UInt8) :
    crlf <:+: (upgradeHead host path key).line ↔ crlf <:+: path := by
  have hmid := infix_middle (m := path) (u := ascii "GET" ++ [32]) (v := [32] ++ ascii "HTTP/1.1")
    (show (13 : UInt8) ∉ _ by decide) (show (10 : UInt8) ∉ _ by decide)
  rw [Head.line]
  simp only [List.append_assoc] at hmid ⊢
  exact hmid

/-- What is put into the head does not end early. -/
def Clear (host path : List UInt8) : Prop := 32 ∉ path ∧ ¬ crlf <:+: path ∧ ¬ crlf <:+: host

theorem clear_of_wellFormed {host path key : List UInt8}
    (h : (upgradeHead host path key).WellFormed) :
    Clear host path :=
  ⟨h.target, fun hpath => h.line ((upgradeHead_line host path key).mpr hpath),
    (field_wellFormed_iff (by decide) (by decide)).mp (h.fields _ (List.mem_cons_self ..))⟩

theorem Clear.wellFormed {host path key : List UInt8} (h : Clear host path) (hkey : 13 ∉ key) :
    (upgradeHead host path key).WellFormed := by
  obtain ⟨htarget, hpath, hhost⟩ := h
  refine ⟨show 32 ∉ ascii "GET" by decide, htarget,
    fun hin => hpath ((upgradeHead_line host path key).mp hin), fun f hf => ?_⟩
  simp only [upgradeHead, List.mem_cons, List.not_mem_nil, or_false] at hf
  rcases hf with rfl | rfl | rfl | rfl | rfl
  · exact (field_wellFormed_iff (by decide) (by decide)).mpr hhost
  · exact (field_wellFormed_iff (by decide) (by decide)).mpr (clear_of_not_mem (by decide))
  · exact (field_wellFormed_iff (by decide) (by decide)).mpr (clear_of_not_mem (by decide))
  · exact (field_wellFormed_iff (by decide) (by decide)).mpr (clear_of_not_mem hkey)
  · exact (field_wellFormed_iff (by decide) (by decide)).mpr (clear_of_not_mem (by decide))

/-- **What the server reads of the upgrade**: it reads the head that is meant, with a key that
decodes to the nonce, and finds behind it what was sent behind the request, exactly when nothing in
it ends early. -/
theorem read_request_iff (host path nonce rest : List UInt8) :
    (∃ key, base64Alphabet.decode key = some nonce ∧ Head.read (request host path nonce ++ rest) =
      some (upgradeHead host path key, rest)) ↔ Clear host path := by
  constructor
  · rintro ⟨key, -, hread⟩
    exact clear_of_wellFormed (Head.read_eq_some_iff.mp hread).2
  · intro h
    refine ⟨base64 nonce, by rw [base64_eq, base64Alphabet.decode_encode],
      Head.read_eq_some_iff.mpr ⟨?_, ?_⟩⟩
    · rw [request_eq]
    · exact h.wellFormed (base64_clear nonce)

end AlpacaWebSocket

end TradeFeed
