import TradeFeed.Feed.SendFrame

/-!
# Receiving

What the client makes of a server's stream: the upgrade's response, and any complete text,
binary, ping and pong frames behind it. The calls of `SSL_read` may cut the stream anywhere.
The invariant is `AlpacaWebSocket.pending`: `rx_` and what is still to be read are together
the bytes of the frames to come. One pass takes the next frame (`readPass_skipped`,
`readPass_data`), one call the skipped frames before a message and the message
(`readFrame_message`), and so many calls return so many messages (`receive_chunked`).
-/

namespace TradeFeed

open Lib.Bytes

namespace ServerFrame

/-- A text or a binary frame. -/
def Data (f : ServerFrame) : Prop := f.opcode = .text ∨ f.opcode = .binary

/-- A ping. -/
def Ping (f : ServerFrame) : Prop := f.opcode = .ping

/-- A pong. -/
def Pong (f : ServerFrame) : Prop := f.opcode = .pong

/-- A continuation frame. -/
def Continuation (f : ServerFrame) : Prop := f.opcode = .continuation

/-- A frame that a call of `read_frame` goes on behind. -/
def Skipped (f : ServerFrame) : Prop := f.Ping ∨ f.Pong ∨ f.Continuation

instance (f : ServerFrame) : Decidable f.Data := inferInstanceAs (Decidable (_ ∨ _))

instance (f : ServerFrame) : Decidable f.Ping := inferInstanceAs (Decidable (_ = _))

instance (f : ServerFrame) : Decidable f.Pong := inferInstanceAs (Decidable (_ = _))

instance (f : ServerFrame) : Decidable f.Continuation := inferInstanceAs (Decidable (_ = _))

theorem Skipped.not_data {f : ServerFrame} (h : f.Skipped) : ¬ f.Data := by
  rcases h with h | h | h <;> rintro (hd | hd) <;> rw [h] at hd <;> revert hd <;> decide

theorem Data.not_ping {f : ServerFrame} (h : f.Data) : ¬ f.Ping := by
  intro hp
  rcases h with hd | hd <;> rw [hp] at hd <;> revert hd <;> decide

theorem Pong.not_ping {f : ServerFrame} (h : f.Pong) : ¬ f.Ping := by
  rw [Ping, h]
  decide

theorem Continuation.not_ping {f : ServerFrame} (h : f.Continuation) : ¬ f.Ping := by
  rw [Ping, h]
  decide

/-- The payloads of the text and binary frames. -/
def messages (fs : List ServerFrame) : List (List UInt8) := (fs.filter fun f => f.Data).map payload

/-- The payloads of the pings. -/
def pings (fs : List ServerFrame) : List (List UInt8) := (fs.filter fun f => f.Ping).map payload

/-- The bytes of frames. -/
def bytesOf (fs : List ServerFrame) : List UInt8 := fs.flatMap bytes

theorem messages_append (fs gs : List ServerFrame) :
    messages (fs ++ gs) = messages fs ++ messages gs := by
  rw [messages, List.filter_append, List.map_append]
  rfl

theorem pings_append (fs gs : List ServerFrame) : pings (fs ++ gs) = pings fs ++ pings gs := by
  rw [pings, List.filter_append, List.map_append]
  rfl

theorem bytesOf_append (fs gs : List ServerFrame) : bytesOf (fs ++ gs) = bytesOf fs ++ bytesOf gs :=
  List.flatMap_append

theorem bytesOf_cons (f : ServerFrame) (fs : List ServerFrame) :
    bytesOf (f :: fs) = f.bytes ++ bytesOf fs :=
  List.flatMap_cons

theorem messages_skipped {cs : List ServerFrame} (h : ∀ f ∈ cs, f.Skipped) : messages cs = [] := by
  rw [messages, List.filter_eq_nil_iff.mpr, List.map_nil]
  exact fun f hf => by rw [decide_eq_true_iff]; exact (h f hf).not_data

theorem messages_data {d : ServerFrame} (h : d.Data) : messages [d] = [d.payload] := by
  rw [messages, List.filter_singleton, decide_eq_true h]
  rfl

theorem pings_single {f : ServerFrame} (h : ¬ f.Ping) : pings [f] = [] := by
  rw [pings, List.filter_singleton, decide_eq_false h]
  rfl

theorem length_le_bytesOf (fs : List ServerFrame) : fs.length ≤ (bytesOf fs).length := by
  induction fs with
  | nil => exact Nat.le_refl _
  | cons f fs ih =>
    have h := f.form.two_le_header
    rw [bytesOf_cons, List.length_append, List.length_cons, f.length_bytes]
    omega

end ServerFrame

/-! ### Pongs -/

/-- The bytes are a pong for each of the payloads, in order. -/
inductive Pongs : List (List UInt8) → List UInt8 → Prop where
  /-- None. -/
  | nil : Pongs [] []
  /-- One, and those behind it. -/
  | cons {p bs : List UInt8} {ps : List (List UInt8)} {out : List UInt8} :
    IsClientFrame opPong p bs → Pongs ps out → Pongs (p :: ps) (bs ++ out)

theorem Pongs.append {ps qs : List (List UInt8)} {out more : List UInt8} (h : Pongs ps out)
    (h' : Pongs qs more) :
    Pongs (ps ++ qs) (out ++ more) := by
  induction h with
  | nil => exact h'
  | cons hp _ ih =>
    rw [List.append_assoc]
    exact .cons hp ih

theorem Pongs.single {p bs : List UInt8} (h : IsClientFrame opPong p bs) : Pongs [p] bs := by
  have hp := Pongs.cons h .nil
  rwa [List.append_nil] at hp

/-- Masks are drawn, and sending a pong for each of the payloads succeeds. -/
structure Tls.Answers (tls : Tls) (ps : List (List UInt8)) : Prop where
  /-- `RAND_bytes` gives masks. -/
  masks : ∀ k, tls.masks k ≠ none
  /-- The pongs are sent. -/
  sends : ∀ p ∈ ps, ∀ mask, AlpacaWebSocket.Sends tls (AlpacaWebSocket.frameOf opPong p mask)

theorem Tls.Answers.mono {tls : Tls} {ps qs : List (List UInt8)} (h : tls.Answers ps)
    (hle : ∀ p ∈ qs, p ∈ ps) :
    tls.Answers qs := ⟨h.masks, fun p hp => h.sends p (hle p hp)⟩

namespace AlpacaWebSocket

open ServerFrame

variable {tls : Tls} {ws : AlpacaWebSocket} {f d : ServerFrame} {cs fs : List ServerFrame}
  {after : List UInt8}

/-! ### A pass -/

/-- A pass over a frame that stands next. -/
theorem readPass_frame (hd : tls.Delivers) (h : ws.pending = f.bytes ++ after) :
    ∃ ws₁ : AlpacaWebSocket,
      ws.readPass tls = ws₁.dispatch tls (UInt8.ofNat f.opcode.val) f.payload ∧
      ws₁.pending = after ∧ ws₁.written = ws.written := by
  obtain ⟨ws₁, h₁, hpend, hwritten⟩ := takeFrame_spec hd h
  refine ⟨ws₁, ?_, hpend, hwritten⟩
  unfold readPass
  rw [h₁]

/-- **A message** is returned, whether it has the FIN bit or not. -/
theorem readPass_data (hd : tls.Delivers) (hf : f.Data) (h : ws.pending = f.bytes ++ after) :
    ∃ ws₁, ws.readPass tls = (ws₁, some (.message f.payload)) ∧ ws₁.pending = after ∧
      ws₁.written = ws.written := by
  obtain ⟨ws₁, h₁, hpend, hwritten⟩ := readPass_frame hd h
  refine ⟨ws₁, h₁.trans ?_, hpend, hwritten⟩
  rcases hf with hop | hop <;> rw [hop] <;> rfl

theorem dispatch_ping {ws₁ : AlpacaWebSocket} {payload : List UInt8}
    (h : ws.sendFrame tls opPong payload = (ws₁, true)) :
    ws.dispatch tls opPing payload = (ws₁, none) := by
  unfold dispatch
  rw [if_neg (by decide), if_pos rfl, h]
  rfl

/-- **A ping** is answered; pongs and continuation frames surface nothing. -/
theorem readPass_skipped (hd : tls.Delivers) (ha : tls.Answers (pings [f])) (hf : f.Skipped)
    (h : ws.pending = f.bytes ++ after) :
    ∃ ws₁ out, ws.readPass tls = (ws₁, none) ∧ ws₁.pending = after ∧
      ws₁.written = ws.written ++ out ∧
      Pongs (pings [f]) out := by
  obtain ⟨ws₁, h₁, hpend, hwritten⟩ := readPass_frame hd h
  rcases hf with hping | hpong | hcont
  · have hpings : pings [f] = [f.payload] := by
      rw [pings, List.filter_singleton, decide_eq_true hping]
      rfl
    rw [hpings] at ha ⊢
    have hlen : f.payload.length < 2 ^ 63 := Nat.lt_of_lt_of_le f.fits f.form.bound_le
    obtain ⟨ws₂, bs, h₂, hsent, hframe⟩ :=
      sendFrame_spec ws₁ ha.masks (ha.sends _ (List.mem_singleton_self _)) hlen
    refine ⟨ws₂, bs, h₁.trans ?_, hsent.pending.trans hpend, by rw [hsent.written, hwritten],
      .single hframe⟩
    rw [hping]
    exact dispatch_ping h₂
  · rw [pings_single hpong.not_ping]
    refine ⟨ws₁, [], h₁.trans ?_, hpend, by rw [hwritten, List.append_nil], .nil⟩
    rw [hpong]
    rfl
  · rw [pings_single hcont.not_ping]
    refine ⟨ws₁, [], h₁.trans ?_, hpend, by rw [hwritten, List.append_nil], .nil⟩
    rw [hcont]
    rfl

/-- At the end of the stream the connection has failed. -/
theorem readPass_end (hd : tls.Delivers) (h : ws.pending = []) :
    ∃ ws₁, ws.readPass tls = (ws₁, some .failed) ∧ ws₁.pending = [] ∧ ws₁.written = ws.written := by
  obtain ⟨ws₁, h₁, hpend, hwritten⟩ := takeFrame_end hd h
  refine ⟨ws₁, ?_, hpend, hwritten⟩
  unfold readPass
  rw [h₁]

/-! ### A call -/

theorem frameLoop_some {fuel : ℕ} {ws₁ : AlpacaWebSocket} {r : Read}
    (h : ws.readPass tls = (ws₁, some r)) :
    frameLoop tls (fuel + 1) ws = some (ws₁, r) := by
  rw [frameLoop, h]

/-- The loop goes on behind skipped frames, and answers the pings. -/
theorem frameLoop_skipped (hd : tls.Delivers) (ha : tls.Answers (pings cs))
    (hcs : ∀ f ∈ cs, f.Skipped) (h : ws.pending = bytesOf cs ++ after) :
    ∃ ws₁ out, (∀ fuel, frameLoop tls (cs.length + fuel) ws = frameLoop tls fuel ws₁) ∧
      ws₁.pending = after ∧ ws₁.written = ws.written ++ out ∧ Pongs (pings cs) out := by
  induction cs generalizing ws with
  | nil => exact ⟨ws, [],
    fun fuel => by rw [List.length_nil, Nat.zero_add], h, (List.append_nil _).symm, .nil⟩
  | cons c cs ih =>
    have hsplit : pings (c :: cs) = pings [c] ++ pings cs := pings_append [c] cs
    rw [bytesOf_cons, List.append_assoc] at h
    obtain ⟨ws₁, out, h₁, hpend₁, hwritten₁, hpongs₁⟩ := readPass_skipped hd
      (ha.mono fun p hp => by rw [hsplit]; exact List.mem_append_left _ hp)
        (hcs c List.mem_cons_self) h
    obtain ⟨ws₂, more, h₂, hpend₂, hwritten₂, hpongs₂⟩ := ih
      (ha.mono fun p hp => by rw [hsplit]; exact List.mem_append_right _ hp)
      (fun f hf => hcs f (List.mem_cons_of_mem _ hf)) hpend₁
    refine ⟨ws₂, out ++ more,
      fun fuel => ?_, hpend₂, by rw [hwritten₂, hwritten₁, List.append_assoc], ?_⟩
    · rw [List.length_cons, Nat.add_right_comm, frameLoop, h₁]
      exact h₂ fuel
    · rw [hsplit]
      exact hpongs₁.append hpongs₂

/-- The fuel of a call is enough for skipped frames and a pass more. -/
theorem readFrame_skipped (hd : tls.Delivers) (ha : tls.Answers (pings cs))
    (hcs : ∀ f ∈ cs, f.Skipped) (h : ws.pending = bytesOf cs ++ after) :
    ∃ ws₁ out k, ws.readFrame tls = frameLoop tls (k + 1) ws₁ ∧ ws₁.pending = after ∧
      ws₁.written = ws.written ++ out ∧ Pongs (pings cs) out := by
  obtain ⟨ws₁, out, h₁, hpend, hwritten, hpongs⟩ := frameLoop_skipped hd ha hcs h
  have hle := length_le_bytesOf cs
  have hlen : ws.rx.length + ws.stream.length = (bytesOf cs).length + after.length := by
    rw [← List.length_append, ← List.length_append, ← h, pending]
  refine ⟨ws₁, out, ws.rx.length + ws.stream.length - cs.length, ?_, hpend, hwritten, hpongs⟩
  rw [readFrame, ← h₁]
  congr 1
  omega

/-- **A call** answers the pings before a message, and returns the message. -/
theorem readFrame_message (hd : tls.Delivers) (ha : tls.Answers (pings cs))
    (hcs : ∀ f ∈ cs, f.Skipped) (hdata : d.Data) (h : ws.pending = bytesOf (cs ++ [d]) ++ after) :
    ∃ ws₁ out, ws.readFrame tls = some (ws₁, .message d.payload) ∧ ws₁.pending = after ∧
      ws₁.written = ws.written ++ out ∧ Pongs (pings cs) out := by
  rw [bytesOf_append, List.append_assoc] at h
  obtain ⟨ws₁, out, k, h₁, hpend₁, hwritten₁, hpongs⟩ := readFrame_skipped hd ha hcs h
  rw [bytesOf_cons, List.append_assoc] at hpend₁
  obtain ⟨ws₂, h₂, hpend₂, hwritten₂⟩ := readPass_data hd hdata hpend₁
  exact ⟨ws₂, out, by rw [h₁, frameLoop_some h₂], hpend₂, by rw [hwritten₂, hwritten₁], hpongs⟩

/-- **The last call** answers the pings behind the messages, and fails. -/
theorem readFrame_end (hd : tls.Delivers) (ha : tls.Answers (pings cs)) (hcs : ∀ f ∈ cs, f.Skipped)
    (h : ws.pending = bytesOf cs) :
    ∃ ws₁ out, ws.readFrame tls = some (ws₁, .failed) ∧ ws₁.pending = [] ∧
      ws₁.written = ws.written ++ out ∧
      Pongs (pings cs) out := by
  obtain ⟨ws₁, out, k, h₁, hpend₁, hwritten₁, hpongs⟩ :=
    readFrame_skipped hd ha hcs (by rw [h, List.append_nil])
  obtain ⟨ws₂, h₂, hpend₂, hwritten₂⟩ := readPass_end hd hpend₁
  exact ⟨ws₂, out, by rw [h₁, frameLoop_some h₂], hpend₂, by rw [hwritten₂, hwritten₁], hpongs⟩

/-! ### Calls -/

theorem readFrames_cons {n : ℕ} {r : Read} {rs : List Read} {ws₁ ws₂ : AlpacaWebSocket}
    (h : ws.readFrame tls = some (ws₁, r)) (h' : readFrames tls n ws₁ = some (ws₂, rs)) :
    readFrames tls (n + 1) ws = some (ws₂, r :: rs) := by
  simp [readFrames, h, h']

theorem readFrames_snoc {n : ℕ} {r : Read} {rs : List Read} {ws₁ ws₂ : AlpacaWebSocket}
    (h : readFrames tls n ws = some (ws₁, rs)) (h' : ws₁.readFrame tls = some (ws₂, r)) :
    readFrames tls (n + 1) ws = some (ws₂, rs ++ [r]) := by
  induction n generalizing ws rs with
  | zero =>
    obtain ⟨rfl, rfl⟩ := Prod.mk.inj (Option.some.inj h)
    exact readFrames_cons h' rfl
  | succ n ih =>
    obtain ⟨⟨ws', r'⟩, hfirst, h⟩ := Option.bind_eq_some_iff.mp h
    obtain ⟨⟨ws'', rs'⟩, hrest, h⟩ := Option.bind_eq_some_iff.mp h
    obtain ⟨rfl, rfl⟩ := Prod.mk.inj (Option.some.inj h)
    exact readFrames_cons hfirst (ih hrest)

/-- Frames that end with a message, or none: skipped frames and a message, again and again. -/
inductive Ended : List ServerFrame → Prop where
  /-- None. -/
  | nil : Ended []
  /-- The first message, and those behind it. -/
  | block {cs fs : List ServerFrame} {d : ServerFrame} :
    (∀ f ∈ cs, f.Skipped) → d.Data → Ended fs → Ended (cs ++ d :: fs)

theorem ended_append {init : List ServerFrame} (hd : d.Data)
    (hinit : ∀ f ∈ init, f.Data ∨ f.Skipped) (hcs : ∀ f ∈ cs, f.Skipped) :
    Ended (cs ++ (init ++ [d])) := by
  induction init generalizing cs with
  | nil => exact .block hcs hd .nil
  | cons e init ih =>
    have hrest : ∀ f ∈ init, f.Data ∨ f.Skipped := fun f hf => hinit f (List.mem_cons_of_mem _ hf)
    rcases hinit e List.mem_cons_self with he | he
    · exact .block hcs he (@ih [] hrest (by simp))
    · rw [List.cons_append, List.append_cons]
      apply ih hrest
      intro f hf
      rcases List.mem_append.mp hf with hf | hf
      · exact hcs f hf
      · rw [List.mem_singleton.mp hf]
        exact he

/-- **So many calls** return so many messages, and the pings before them are answered. -/
theorem readFrames_messages (hd : tls.Delivers) (he : Ended fs) (ha : tls.Answers (pings fs))
    (h : ws.pending = bytesOf fs ++ after) :
    ∃ ws₁ out, readFrames tls (messages fs).length ws = some (ws₁, (messages fs).map .message) ∧
      ws₁.pending = after ∧ ws₁.written = ws.written ++ out ∧ Pongs (pings fs) out := by
  induction he generalizing ws with
  | nil => exact ⟨ws, [], rfl, h, (List.append_nil _).symm, .nil⟩
  | @block cs fs d hcs hdata he ih =>
    have hsplit : cs ++ d :: fs = (cs ++ [d]) ++ fs := by
      rw [List.append_assoc, List.singleton_append]
    have hmsgs : messages (cs ++ d :: fs) = d.payload :: messages fs := by
      rw [hsplit, messages_append, messages_append, messages_skipped hcs, messages_data hdata]
      rfl
    have hpings : pings (cs ++ d :: fs) = pings cs ++ pings fs := by
      rw [hsplit, pings_append, pings_append, pings_single hdata.not_ping, List.append_nil]
    rw [hsplit, bytesOf_append, List.append_assoc] at h
    rw [hpings] at ha
    obtain ⟨ws₁, out, h₁, hpend₁, hwritten₁, hpongs₁⟩ := readFrame_message hd
      (ha.mono fun p hp => List.mem_append_left _ hp) hcs hdata h
    obtain ⟨ws₂, more, h₂, hpend₂, hwritten₂, hpongs₂⟩ :=
      ih (ha.mono fun p hp => List.mem_append_right _ hp) hpend₁
    refine ⟨ws₂, out ++ more, ?_, hpend₂, by rw [hwritten₂, hwritten₁, List.append_assoc], ?_⟩
    · rw [hmsgs]
      exact readFrames_cons h₁ h₂
    · rw [hpings]
      exact hpongs₁.append hpongs₂

theorem ended_of_getLast (hfs : ∀ f ∈ fs, f.Data ∨ f.Skipped) (hlast : ∀ d ∈ fs.getLast?, d.Data) :
    Ended fs := by
  rcases List.eq_nil_or_concat fs with rfl | ⟨init, d, rfl⟩
  · exact .nil
  · rw [List.concat_eq_append] at hfs hlast ⊢
    have hdata : d.Data := hlast d List.getLast?_concat
    show Ended ([] ++ (init ++ [d]))
    exact ended_append hdata (fun f hf => hfs f (List.mem_append_left _ hf)) (by simp)

/-- The frames behind the last message. -/
theorem exists_ended (hfs : ∀ f ∈ fs, f.Data ∨ f.Skipped) :
    ∃ pre cs, fs = pre ++ cs ∧ Ended pre ∧ ∀ f ∈ cs, f.Skipped := by
  induction fs with
  | nil => exact ⟨[], [], rfl, .nil, by simp⟩
  | cons f fs ih =>
    obtain ⟨pre, cs, rfl, hpre, hcs⟩ := ih fun g hg => hfs g (List.mem_cons_of_mem _ hg)
    rcases hfs f List.mem_cons_self with hf | hf
    · exact ⟨[] ++ f :: pre, cs, rfl, .block (by simp) hf hpre, hcs⟩
    · cases hpre with
      | nil => exact ⟨[], f :: cs, rfl, .nil, by simpa [hf] using hcs⟩
      | @block cs' fs' d hcs' hd hfs' =>
        exact ⟨f :: cs' ++ d :: fs', cs, rfl, .block (by simpa [hf] using hcs') hd hfs', hcs⟩

/-! ### The upgrade -/

variable {header host path nonce : List UInt8}

/-- **The header** is read to its end, and what came behind it is kept. -/
theorem readHeader_spec (hd : tls.Delivers)
    (hheader : search headerEnd header = some (header.length - 4))
    (h : ws.pending = header ++ after) :
    ∃ ws₁ rest, ws.readHeader tls = (ws₁, true) ∧ ws₁.rx = header ++ rest ∧
      rest ++ ws₁.stream = after ∧
      ws₁.written = ws.written := by
  have hspec : ∃ ws₁, ws.readHeader tls = (ws₁, true) ∧ (search headerEnd ws₁.rx).isSome = true ∧
      ReadOn ws ws₁ :=
    readUntil_spec hd (by decide) (Nat.lt_succ_self _) (by rw [h, search_append hheader]; rfl)
  obtain ⟨ws₁, h₁, hwanted, hon⟩ := hspec
  have hpend : ws₁.rx ++ ws₁.stream = header ++ after := hon.pending.trans h
  obtain ⟨i, hi⟩ := Option.isSome_iff_exists.mp hwanted
  have hplace : header.length - 4 = i := by
    have hwhole := search_append hi ws₁.stream
    rw [hpend, search_append hheader] at hwhole
    exact Option.some.inj hwhole
  have hend : i + 4 ≤ ws₁.rx.length := search_le hi
  have hstart : header.length - 4 + 4 ≤ header.length := search_le hheader
  have hpre : ws₁.rx <+: header ++ after := ⟨ws₁.stream, hpend⟩
  obtain ⟨rest, hrest⟩ :=
    List.prefix_of_prefix_length_le (List.prefix_append header after) hpre (by omega)
  refine ⟨ws₁, rest, h₁, hrest.symm, ?_, hon.written⟩
  rw [← hrest, List.append_assoc] at hpend
  exact List.append_cancel_left hpend

theorem httpUpgrade_spec (hd : tls.Delivers) (hnonce : tls.nonce = some nonce)
    (hsend : Sends tls (request host path nonce))
    (hheader : search headerEnd header = some (header.length - 4))
    (hstatus : header.take 12 = ascii "HTTP/1.1 101") (h : ws.pending = header ++ after) :
    ∃ ws₁, ws.httpUpgrade tls host path = (ws₁, true) ∧ ws₁.pending = after ∧
      ws₁.written = ws.written ++ request host path nonce := by
  obtain ⟨ws₁, h₁, hsent⟩ := hsend.spec ws
  obtain ⟨ws₂, rest, h₂, hrx, hrest, hwritten⟩ := readHeader_spec hd hheader (hsent.pending.trans h)
  have hstart : header.length - 4 + 4 ≤ header.length := search_le hheader
  have htwelve : 12 ≤ header.length := by
    have hlen := congrArg List.length hstatus
    rw [List.length_take, show (ascii "HTTP/1.1 101").length = 12 from rfl] at hlen
    omega
  have hline : ¬ (header ++ rest).take 12 ≠ ascii "HTTP/1.1 101" := by
    rw [List.take_append_of_le_length htwelve]
    exact not_not_intro hstatus
  have hdrop : (header ++ rest).drop ((search headerEnd (header ++ rest)).getD 0 + 4) = rest := by
    rw [search_append hheader, Option.getD_some,
      show header.length - 4 + 4 = header.length by omega, List.drop_left]
  refine ⟨{ ws₂ with rx := rest }, ?_, hrest, by rw [← hsent.written, ← hwritten]⟩
  unfold httpUpgrade
  simp only [hnonce, h₁, h₂, hrx, if_neg hline, hdrop]
  rfl

/-! ### The stream -/

/-- **The client's receiving does not depend on how the stream is cut.** Behind the upgrade the
calls of `read_frame` return the payloads of the text and binary frames in order, and nothing
else before the stream ends. When a message is returned, the pings before it are answered, and
`rx_` holds what was received of the frames behind it. -/
theorem receive_chunked (hd : tls.Delivers) (hnonce : tls.nonce = some nonce)
    (hrequest : Sends tls (request host path nonce)) (ha : tls.Answers (pings fs))
    (hheader : search headerEnd header = some (header.length - 4))
    (hstatus : header.take 12 = ascii "HTTP/1.1 101")
    (hfs : ∀ f ∈ fs, f.fin = true ∧ (f.Data ∨ f.Ping ∨ f.Pong))
    (h : ws.pending = header ++ bytesOf fs) :
    ∃ ws₁, ws.httpUpgrade tls host path = (ws₁, true) ∧ ws₁.pending = bytesOf fs ∧
      (∀ pre post, fs = pre ++ post → (∀ d ∈ pre.getLast?, d.Data) →
        ∃ ws₂ out, readFrames tls (messages pre).length ws₁ =
        some (ws₂, (messages pre).map .message) ∧ ws₂.pending = bytesOf post ∧
        ws₂.written = ws₁.written ++ out ∧ Pongs (pings pre) out) ∧
      ∃ ws₂ out, readFrames tls ((messages fs).length + 1) ws₁ =
        some (ws₂, (messages fs).map .message ++ [.failed]) ∧
        ws₂.pending = [] ∧ ws₂.written = ws₁.written ++ out ∧ Pongs (pings fs) out := by
  have hkind : ∀ f ∈ fs, f.Data ∨ f.Skipped :=
    fun f hf => (hfs f hf).2.imp_right (Or.imp_right Or.inl)
  obtain ⟨ws₁, h₁, hpend₁, -⟩ := httpUpgrade_spec hd hnonce hrequest hheader hstatus h
  refine ⟨ws₁, h₁, hpend₁, ?_, ?_⟩
  · rintro pre post rfl hlast
    rw [pings_append] at ha
    refine readFrames_messages hd
      (ended_of_getLast (fun f hf => hkind f (List.mem_append_left _ hf)) hlast)
      (ha.mono fun p hp => List.mem_append_left _ hp) ?_
    rw [hpend₁, bytesOf_append]
  · obtain ⟨pre, cs, rfl, hpre, hcs⟩ := exists_ended hkind
    rw [pings_append] at ha
    rw [bytesOf_append] at hpend₁
    obtain ⟨ws₂, out, h₂, hpend₂, hwritten₂, hpongs₂⟩ := readFrames_messages hd hpre
      (ha.mono fun p hp => List.mem_append_left _ hp) hpend₁
    obtain ⟨ws₃, more, h₃, hpend₃, hwritten₃, hpongs₃⟩ := readFrame_end hd
      (ha.mono fun p hp => List.mem_append_right _ hp) hcs hpend₂
    refine ⟨ws₃, out ++ more, ?_, hpend₃, by rw [hwritten₃, hwritten₂, List.append_assoc], ?_⟩
    · rw [messages_append, messages_skipped hcs, List.append_nil]
      exact readFrames_snoc h₂ h₃
    · rw [pings_append]
      exact hpongs₂.append hpongs₃

/-- OpenSSL that gives three bytes and takes five at a time. -/
def slowTls : Tls where
  reads _ := 3
  writes _ := 5
  masks k := some fun i => UInt8.ofNat (k + i)
  nonce := some (List.replicate 16 7)

theorem slowTls_delivers : slowTls.Delivers := fun _ => Nat.succ_pos 2

theorem slowTls_sends {data : List UInt8} (h : data.length < 2 ^ 31) : Sends slowTls data :=
  sends_of_small (fun _ => Nat.succ_pos 4) h

theorem slowTls_answers {ps : List (List UInt8)} (h : ∀ p ∈ ps, p.length < 2 ^ 16) :
    slowTls.Answers ps where
  masks _ := Option.some_ne_none _
  sends p hp mask := by
    have hlen := h p hp
    apply slowTls_sends
    simp only [frameOf, maskedLength_eq, List.length_append, List.length_cons, List.length_ofFn,
      List.length_mapIdx]
    have hext := (LengthForm.shortest p.length).length_extended p.length
    have hle := (LengthForm.shortest p.length).header_le
    omega

/-- A ping, a text, a pong and a binary frame. -/
def tickFrames : List ServerFrame :=
  [⟨true, .ping, .short, ascii "p", by decide⟩, ⟨true, .text, .medium, ascii "tick", by decide⟩,
    ⟨true, .pong, .long, [], by decide⟩, ⟨true, .binary, .short, [0], by decide⟩]

theorem receive_chunked_two :
    ∃ ws₁ ws₂ out,
      httpUpgrade slowTls (connected (ascii "HTTP/1.1 101 OK\r\n\r\n" ++ bytesOf tickFrames))
        (ascii "host") (ascii "/path") = (ws₁, true) ∧
      readFrames slowTls 3 ws₁ = some (ws₂, [.message (ascii "tick"), .message [0], .failed]) ∧
      ws₂.written = ws₁.written ++ out ∧ Pongs [ascii "p"] out := by
  obtain ⟨ws₁, h₁, -, -, ws₂, out, h₂, -, hwritten, hpongs⟩ :=
    @receive_chunked slowTls (connected _) tickFrames (ascii "HTTP/1.1 101 OK\r\n\r\n")
      (ascii "host") (ascii "/path") (List.replicate 16 7) slowTls_delivers rfl
    (slowTls_sends (by decide +kernel)) (slowTls_answers (by decide)) rfl rfl (by decide) rfl
  exact ⟨ws₁, ws₂, out, h₁, h₂, hwritten, hpongs⟩

end AlpacaWebSocket

end TradeFeed
