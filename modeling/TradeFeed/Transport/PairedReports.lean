import TradeFeed.Engine.Protocol
import TradeFeed.Transport.PushEach

/-!
# Both reports of a match, or neither

`MatchingEngine::emit_fills` pushes a report to the buyer and one to the seller, and looks at
neither result. Whether both get into the outbound ring depends on how many messages it holds and on
when the gateway pops: `Clear` says when both do or neither does, and `reports_paired` that the
gateway gets both reports of each match or neither just then. A ring with room for two more messages
when an answer to a crossing order is pushed, and a gateway that does not pop in time, make a match
known to the buyer alone (`report_unpaired`).

Pushes and pops are steps of a bounded queue, in any order; the ring does no more than that
(`RingState.pushEach_linear`).
-/

namespace TradeFeed

open Lib

variable {cap C : ℕ}

/-- The reports of the match with a number. -/
def executions (number : UInt64) (stream : List OutboundMessage) : List OutboundMessage :=
  stream.filter fun m => m.type = .orderExecuted ∧ m.matchNumber = number

/-- The reports of every match come in pairs, to the buyer and to the seller, with the same number,
price and quantity. -/
def Paired (stream : List OutboundMessage) : Prop :=
  ∀ number, ∃ fs : List (Fill × Timestamp),
    executions number stream =
      fs.flatMap fun f => [executedBid f.1 number f.2, executedAsk f.1 number f.2]

/-- Two reports of one match. -/
def Sides (first second : OutboundMessage) : Prop :=
  first.type = .orderExecuted ∧ second.type = .orderExecuted ∧
    first.matchNumber = second.matchNumber

/-- There is room for two messages, or for neither: `n` are held when the first is pushed, and `p`
are popped before the second is. -/
def Fits (C n p : ℕ) : Prop := n + 2 ≤ C ∨ n + 1 = C ∧ 0 < p ∨ n = C ∧ p = 0

/-- There is room for both reports of each match, or for neither, when `n` messages are held
at first. -/
def Clear (C n : ℕ) (ops : List (FifoOp OutboundMessage)) : Prop :=
  ∀ before p first second after,
    ops = before ++ .push first :: (List.replicate p .pop ++ .push second :: after) →
    Sides first second → Fits C (Fifo.occupancy C n before) p

/-! ### Streams -/

@[simp] theorem executions_append (number : UInt64) (l l' : List OutboundMessage) :
    executions number (l ++ l') = executions number l ++ executions number l' :=
      List.filter_append ..

theorem executions_of_ne {number : UInt64} {l : List OutboundMessage}
    (h : ∀ m ∈ l, m.type = .orderExecuted → m.matchNumber ≠ number) : executions number l = [] := by
  apply List.filter_eq_nil_iff.mpr
  intro m hm hex
  obtain ⟨ht, hn⟩ := of_decide_eq_true hex
  exact h m hm ht hn

/-- Both reports of a fill. -/
theorem executions_pair (f : Fill) (number : UInt64) (tsc : Timestamp) :
    executions number [executedBid f number tsc, executedAsk f number tsc] =
      [executedBid f number tsc, executedAsk f number tsc] := by
  simp [executions, executedBid, executedAsk, executed]

/-- And of no other. -/
theorem executions_other {f : Fill} {number m : UInt64} {tsc : Timestamp} (hm : number ≠ m) :
    executions m [executedBid f number tsc, executedAsk f number tsc] = [] := by
  apply executions_of_ne
  intro x hx _
  have hx : x = executedBid f number tsc ∨ x = executedAsk f number tsc := by simpa using hx
  rcases hx with rfl | rfl <;> exact hm

theorem Paired.append {l l' : List OutboundMessage} (h : Paired l) (h' : Paired l') :
    Paired (l ++ l') := by
  intro number
  obtain ⟨fs, hfs⟩ := h number
  obtain ⟨fs', hfs'⟩ := h' number
  exact ⟨fs ++ fs', by rw [executions_append, hfs, hfs', List.flatMap_append]⟩

/-- What is no report needs no pair. -/
theorem paired_of_ne {l : List OutboundMessage} (h : ∀ m ∈ l, m.type ≠ .orderExecuted) : Paired l :=
  fun _ => ⟨[], executions_of_ne fun m hm ht => absurd ht (h m hm)⟩

theorem paired_pair (f : Fill) (number : UInt64) (tsc : Timestamp) :
    Paired [executedBid f number tsc, executedAsk f number tsc] := by
  intro m
  by_cases hm : m = number
  · subst hm
    exact ⟨[(f, tsc)], executions_pair f m tsc⟩
  · exact ⟨[], executions_other (Ne.symm hm)⟩

/-- One report alone has no pair. -/
theorem not_paired_single {m : OutboundMessage} (ht : m.type = .orderExecuted)
    {l : List OutboundMessage} (hl : executions m.matchNumber l = []) :
    ¬ Paired (m :: l) := by
  intro h
  obtain ⟨fs, hfs⟩ := h m.matchNumber
  have hone : executions m.matchNumber (m :: l) = [m] := by
    show List.filter _ _ = _
    rw [List.filter_cons_of_pos (by simp [ht])]
    exact congrArg (m :: ·) hl
  have hlen := congrArg List.length (hone.symm.trans hfs)
  rw [List.length_flatMap] at hlen
  simp at hlen
  omega

/-- What is behind answers and other matches' reports is paired alone. -/
theorem Paired.of_append {l l' : List OutboundMessage} (h : Paired (l ++ l'))
    (hl : ∀ number, executions number l = [] ∨ executions number l' = []) : Paired l' := by
  intro number
  rcases hl number with hl | hl'
  · obtain ⟨fs, hfs⟩ := h number
    exact ⟨fs, by rwa [executions_append, hl] at hfs⟩
  · exact ⟨[], hl'⟩

/-- Of the two reports of a match that is not reported again, both are there or neither. -/
theorem Paired.both {f : Fill} {number : UInt64} {tsc : Timestamp} {first second : Bool}
    {l : List OutboundMessage}
    (h : Paired ((if first then [executedBid f number tsc] else []) ++
      ((if second then [executedAsk f number tsc] else []) ++ l))) (hl : executions number l = []) :
    first = second ∧ Paired l := by
  cases first with
  | true =>
    cases second with
    | true =>
      refine ⟨rfl, h.of_append (l := [executedBid f number tsc, executedAsk f number tsc])
        fun m => ?_⟩
      by_cases hm : m = number
      · exact Or.inr (hm ▸ hl)
      · exact Or.inl (executions_other (Ne.symm hm))
    | false => exact absurd h (not_paired_single rfl hl)
  | false =>
    cases second with
    | true => exact absurd h (not_paired_single rfl hl)
    | false => exact ⟨rfl, h⟩

/-! ### Room for both -/

/-- How many messages are held after an offer. -/
def offer (C n : ℕ) : ℕ := if n < C then n + 1 else n

theorem offer_le {n : ℕ} (h : n ≤ C) : offer C n ≤ C := by
  unfold offer
  split <;> omega

/-- The room that the two reports of a match find. -/
theorem rooms_pair (C n a p : ℕ) (first second : OutboundMessage)
    (ops : List (FifoOp OutboundMessage)) :
    Fifo.rooms C n (List.replicate a .pop ++ .push first ::
      (List.replicate p .pop ++ .push second :: ops)) =
      decide (n - a < C) :: decide (offer C (n - a) - p < C) ::
        Fifo.rooms C (offer C (offer C (n - a) - p)) ops := by
  rw [Fifo.rooms_pops]
  show decide (n - a < C) :: Fifo.rooms C (offer C (n - a))
    (List.replicate p .pop ++ .push second :: ops) = _
  rw [Fifo.rooms_pops]
  rfl

theorem fits_iff (hC : 0 < C) {n : ℕ} (hn : n ≤ C) (p : ℕ) :
    Fits C n p ↔ (n < C ↔ offer C n - p < C) := by
  unfold Fits offer
  split <;> omega

theorem clear_pop {n : ℕ} {ops : List (FifoOp OutboundMessage)} :
    Clear C n (.pop :: ops) ↔ Clear C (n - 1) ops := by
  constructor
  · intro h before p first second after hops
    exact h (.pop :: before) p first second after (congrArg (FifoOp.pop :: ·) hops)
  · intro h before p first second after hops
    cases before with
    | nil => cases (List.cons.inj hops).1
    | cons op before =>
      obtain ⟨rfl, htail⟩ := List.cons.inj hops
      exact h before p first second after htail

theorem clear_pops {n : ℕ} (p : ℕ) {ops : List (FifoOp OutboundMessage)} :
    Clear C n (List.replicate p .pop ++ ops) ↔ Clear C (n - p) ops := by
  induction p generalizing n with
  | zero => exact Iff.rfl
  | succ p ih =>
    rw [List.replicate_succ, List.cons_append, clear_pop, ih, Nat.sub_sub, Nat.add_comm 1]

theorem clear_push {n : ℕ} {x : OutboundMessage} {ops : List (FifoOp OutboundMessage)} :
    Clear C n (.push x :: ops) ↔
      (∀ p second after, ops = List.replicate p .pop ++ .push second :: after → Sides x second →
      Fits C n p) ∧ Clear C (offer C n) ops := by
  constructor
  · intro h
    refine ⟨fun p second after hops hs => ?_, fun before p first second after hops hs => ?_⟩
    · exact h [] p x second after (congrArg (FifoOp.push x :: ·) hops) hs
    · exact h (.push x :: before) p first second after (congrArg (FifoOp.push x :: ·) hops) hs
  · rintro ⟨hfirst, h⟩ before p first second after hops hs
    cases before with
    | nil =>
      obtain ⟨hx, htail⟩ := List.cons.inj hops
      obtain rfl := FifoOp.push.inj hx
      exact hfirst p second after htail hs
    | cons op before =>
      obtain ⟨rfl, htail⟩ := List.cons.inj hops
      exact h before p first second after htail hs

/-- An answer is half of nothing. -/
theorem clear_answer {n : ℕ} {x : OutboundMessage} (hx : x.type ≠ .orderExecuted)
    {ops : List (FifoOp OutboundMessage)} :
    Clear C n (.push x :: ops) ↔ Clear C (offer C n) ops := by
  rw [clear_push]
  exact and_iff_right fun _ _ _ _ hs => absurd hs.1 hx

/-- The reports of a match, when what is pushed next is no report of it. -/
theorem clear_pair {n p : ℕ} {first second : OutboundMessage} {ops : List (FifoOp OutboundMessage)}
    (hs : Sides first second)
    (hnext : ∀ third, (Fifo.offered ops).head? = some third → ¬ Sides second third) :
    Clear C n (.push first :: (List.replicate p .pop ++ .push second :: ops)) ↔
      Fits C n p ∧ Clear C (offer C (offer C n - p)) ops := by
  rw [clear_push, clear_pops, clear_push]
  constructor
  · rintro ⟨hfits, -, h⟩
    exact ⟨hfits p second ops rfl hs, h⟩
  · rintro ⟨hfits, h⟩
    refine ⟨fun p' second' after hops _ => ?_, fun p' third after hops hs' => ?_, h⟩
    · obtain ⟨rfl, -, -⟩ := Fifo.pops_inj hops
      exact hfits
    · rw [hops, Fifo.offered_pops] at hnext
      exact absurd hs' (hnext third rfl)

/-! ### What the engine pushes -/

/-- Answers, and the two reports of matches. -/
inductive Emitted : List OutboundMessage → Prop
  /-- Nothing. -/
  | nil : Emitted []
  /-- An answer. -/
  | answer {m : OutboundMessage} {l : List OutboundMessage} (hm : m.type ≠ .orderExecuted)
    (h : Emitted l) : Emitted (m :: l)
  /-- A match. -/
  | fill (f : Fill) (number : UInt64) (tsc : Timestamp) {l : List OutboundMessage} (h : Emitted l) :
    Emitted (executedBid f number tsc :: executedAsk f number tsc :: l)

theorem Emitted.append {l l' : List OutboundMessage} (h : Emitted l) (h' : Emitted l') :
    Emitted (l ++ l') := by
  induction h with
  | nil => exact h'
  | answer hm _ ih => exact .answer hm ih
  | fill f number tsc _ ih => exact .fill f number tsc ih

theorem emitted_reports (tsc : Timestamp) (fs : List Fill) (number : UInt64) :
    Emitted (reports tsc fs number) := by
  induction fs generalizing number with
  | nil => exact .nil
  | cons f fs ih => exact .fill f number tsc (ih (number + 1))

/-- **When there is room**, the reports that get into the ring are paired. -/
theorem Emitted.paired (hC : 0 < C) {l : List OutboundMessage} (h : Emitted l) {n : ℕ} (hn : n ≤ C)
    {ops : List (FifoOp OutboundMessage)} (hoffered : Fifo.offered ops = l)
    (hclear : Clear C n ops) :
    Paired (Fifo.taken l (Fifo.rooms C n ops)) := by
  induction h generalizing n ops with
  | nil => exact paired_of_ne nofun
  | @answer m l hm _ ih =>
    obtain ⟨a, ops', rfl, hrest⟩ := Fifo.exists_pops hoffered
    rw [clear_pops, clear_answer hm] at hclear
    rw [Fifo.rooms_pops, Fifo.rooms, Fifo.taken_cons]
    refine Paired.append (paired_of_ne fun x hx => ?_)
      (ih (offer_le ((Nat.sub_le _ a).trans hn)) hrest hclear)
    split at hx
    · exact List.mem_singleton.mp hx ▸ hm
    · exact absurd hx List.not_mem_nil
  | @fill f number tsc l _ ih =>
    obtain ⟨a, ops₁, rfl, hoffered₁⟩ := Fifo.exists_pops hoffered
    obtain ⟨p, ops₂, rfl, hoffered₂⟩ := Fifo.exists_pops hoffered₁
    have hle : n - a ≤ C := (Nat.sub_le _ _).trans hn
    rw [clear_pops, clear_push, clear_pops, clear_push] at hclear
    have hfits := (fits_iff hC hle p).mp (hclear.1 p _ ops₂ rfl ⟨rfl, rfl, rfl⟩)
    have hrest := ih (offer_le ((Nat.sub_le _ p).trans (offer_le hle))) hoffered₂ hclear.2.2
    rw [rooms_pair, Fifo.taken_cons, Fifo.taken_cons]
    by_cases hroom : n - a < C
    · rw [decide_eq_true hroom, decide_eq_true (hfits.mp hroom)]
      exact (paired_pair f number tsc).append hrest
    · rw [decide_eq_false hroom, decide_eq_false (mt hfits.mpr hroom)]
      exact hrest

/-- What gets into the ring has no more reports than what is pushed. -/
theorem executions_taken {number : UInt64} {l : List OutboundMessage} (h : executions number l = [])
    (room : List Bool) :
    executions number (Fifo.taken l room) = [] := by
  apply List.filter_eq_nil_iff.mpr
  intro m hm
  exact List.filter_eq_nil_iff.mp h m (Fifo.taken_subset l room hm)

/-- **Only when there is room** are they paired, if no number is used twice. -/
theorem Emitted.clear (hC : 0 < C) {l : List OutboundMessage} (h : Emitted l)
    (honce : ∀ number, (executions number l).length ≤ 2) {n : ℕ} (hn : n ≤ C)
    {ops : List (FifoOp OutboundMessage)} (hoffered : Fifo.offered ops = l)
    (hp : Paired (Fifo.taken l (Fifo.rooms C n ops))) :
    Clear C n ops := by
  induction h generalizing n ops with
  | nil =>
    intro before p first second after hops
    rw [hops, Fifo.offered_append] at hoffered
    exact absurd (List.append_eq_nil_iff.mp hoffered).2 (List.cons_ne_nil _ _)
  | @answer m l hm _ ih =>
    obtain ⟨a, ops', rfl, hrest⟩ := Fifo.exists_pops hoffered
    have hskip : ∀ number, executions number [m] = [] :=
      fun number => executions_of_ne fun x hx ht => absurd (List.mem_singleton.mp hx ▸ ht) hm
    rw [Fifo.rooms_pops, Fifo.rooms, Fifo.taken_cons] at hp
    rw [clear_pops, clear_answer hm]
    refine ih (fun number => ?_) (offer_le ((Nat.sub_le _ a).trans hn)) hrest
      (hp.of_append fun number => Or.inl ?_)
    · have hle := honce number
      rwa [show m :: l = [m] ++ l from rfl, executions_append, hskip] at hle
    · split
      · exact hskip number
      · rfl
  | @fill f number tsc l hl ih =>
    obtain ⟨a, ops₁, rfl, hoffered₁⟩ := Fifo.exists_pops hoffered
    obtain ⟨p, ops₂, rfl, hoffered₂⟩ := Fifo.exists_pops hoffered₁
    have hle : n - a ≤ C := (Nat.sub_le _ _).trans hn
    have hsplit : ∀ m, executions m (executedBid f number tsc :: executedAsk f number tsc :: l) =
        executions m [executedBid f number tsc, executedAsk f number tsc] ++ executions m l :=
      fun m => executions_append m [executedBid f number tsc, executedAsk f number tsc] l
    -- the number is not used again
    have hnone : executions number l = [] := by
      have h2 := honce number
      rw [hsplit, executions_pair, List.length_append] at h2
      exact List.length_eq_zero_iff.mp (Nat.le_zero.mp (Nat.le_of_add_le_add_left h2))
    have honce' : ∀ m, (executions m l).length ≤ 2 := by
      intro m
      have h2 := honce m
      rw [hsplit, List.length_append] at h2
      exact (Nat.le_add_left _ _).trans h2
    have hnext : ∀ third, (Fifo.offered ops₂).head? = some third →
        ¬ Sides (executedAsk f number tsc) third := by
      intro third hthird hs
      rw [hoffered₂] at hthird
      have hmem : third ∈ executions number l :=
        List.mem_filter.mpr ⟨List.mem_of_head? hthird, decide_eq_true ⟨hs.2.1, hs.2.2.symm⟩⟩
      rw [hnone] at hmem
      exact List.not_mem_nil hmem
    rw [rooms_pair, Fifo.taken_cons, Fifo.taken_cons] at hp
    obtain ⟨hroom, hrest⟩ := hp.both (executions_taken hnone _)
    have hs : Sides (executedBid f number tsc) (executedAsk f number tsc) := ⟨rfl, rfl, rfl⟩
    rw [clear_pops, clear_pair hs hnext, fits_iff hC hle]
    exact ⟨decide_eq_decide.mp hroom,
      ih honce' (offer_le ((Nat.sub_le _ p).trans (offer_le hle))) hoffered₂ hrest⟩

/-- An answer and the reports of some fills. -/
theorem emitted_answer {m : OutboundMessage} (hm : m.type ≠ .orderExecuted) (tsc : Timestamp)
    (fs : List Fill) (number : UInt64) :
    Emitted (m :: reports tsc fs number) ∧
      matchNumbers (m :: reports tsc fs number) = twice number fs.length := by
  refine ⟨.answer hm (emitted_reports tsc fs number), ?_⟩
  rw [reports_eq, ← matchNumbers_numbered tsc]
  simp [matchNumbers, hm]

/-- What one call of `process` pushes: no more matches than there are orders. -/
theorem Processed.emitted {e e' : MatchingEngine cap} {Q Q' : Queues cap} {tsc : Timestamp}
    {msg : InboundMessage} {out : List OutboundMessage} (h : Inv e.book Q)
    (hp : Processed e Q tsc msg e' Q' out) :
    Emitted out ∧ ∃ number count, matchNumbers out = twice number count ∧ count ≤ cap := by
  have hne : MessageType.orderAccepted ≠ .orderExecuted ∧ MessageType.orderCanceled ≠
    .orderExecuted ∧
      MessageType.orderRejected ≠ .orderExecuted := by decide
  have hone : ∀ m : OutboundMessage, m.type ≠ .orderExecuted →
      Emitted [m] ∧ ∃ number count, matchNumbers [m] = twice number count ∧ count ≤ cap := by
    intro m hm
    obtain ⟨hemitted, hnums⟩ := emitted_answer hm 0 [] 0
    exact ⟨hemitted, 0, 0, hnums, Nat.zero_le _⟩
  cases hp with
  | unknown => exact ⟨.nil, 0, 0, rfl, Nat.zero_le _⟩
  | refused => exact hone _ hne.2.2
  | @added hn hr b Q' o ha =>
    obtain ⟨hemitted, hnums⟩ :=
      emitted_answer (m := emitAccept msg.clientId e.nextId tsc) hne.1 tsc b.fills e.matchNumber
    refine ⟨hemitted, _, _, hnums, ?_⟩
    have hcore : Core e.book.clearFills Q [] := (clearFills_inv h).core
    rw [ha.fills]
    simpa [OrderBook.clearFills] using trading_length_le hcore (newOrderOf e msg)
  | notCanceled => exact hone _ hne.2.2
  | canceled => exact hone _ hne.2.1
  | notModified => exact hone _ hne.2.2
  | lost => exact hone _ hne.2.2
  | @modified hm o hl hb b₁ b Q' o' ha ha' =>
    obtain ⟨hemitted, hnums⟩ :=
      emitted_answer (m := emitAccept msg.clientId msg.orderId tsc) hne.1 tsc b.fills e.matchNumber
    refine ⟨hemitted, _, _, hnums, ?_⟩
    rw [ha'.fills, ha.fills]
    simpa [OrderBook.clearFills]
      using trading_length_le ha.inv.core (modifiedOf (e.book.order o) msg)

/-- There are as many reports of a match as its number is among the numbers. -/
theorem executions_length (number : UInt64) (l : List OutboundMessage) :
    (executions number l).length = (matchNumbers l).count number := by
  induction l with
  | nil => rfl
  | cons m l ih =>
    by_cases ht : m.type = .orderExecuted
    · by_cases hn : m.matchNumber = number
      · simpa [executions, matchNumbers, ht, hn] using ih
      · simpa [executions, matchNumbers, ht, hn] using ih
    · simpa [executions, matchNumbers, ht] using ih

/-- Up to 2⁶⁴ matches have different numbers. -/
theorem count_twice_le (number m : UInt64) {count : ℕ} (h : count ≤ 2 ^ 64) :
    (twice number count).count m ≤ 2 := by
  have htwo : ∀ l : List ℕ,
    (l.flatMap fun k => [number + UInt64.ofNat k, number + UInt64.ofNat k]).count m =
      2 * (l.map fun k => number + UInt64.ofNat k).count m := by
    intro l
    induction l with
    | nil => rfl
    | cons k l ih =>
      rw [List.flatMap_cons, List.count_append, ih, List.map_cons, List.count_cons, List.count_cons,
        List.count_cons]
      simp only [List.count_nil]
      omega
  have hnodup : ((List.range count).map fun k => number + UInt64.ofNat k).Nodup := by
    apply (List.nodup_map_iff_inj_on List.nodup_range).mpr
    intro j hj k hk he
    have hj := List.mem_range.mp hj
    have hk := List.mem_range.mp hk
    have he := congrArg UInt64.toNat (UInt64.add_right_inj number |>.mp he)
    rw [UInt64.toNat_ofNat', UInt64.toNat_ofNat'] at he
    omega
  rw [twice, htwo]
  exact Nat.mul_le_mul_left 2 (List.nodup_iff_count_le_one.mp hnodup m)

/-- The engine pushes answers and the reports of matches. -/
theorem run_emitted {e e' : MatchingEngine cap} {Q : Queues cap} (h : Inv e.book Q)
    (hcap : cap < 2 ^ 32) {msgs : List (Timestamp × InboundMessage)}
    {outs : List (List OutboundMessage)} (hrun : e.run msgs = some (e', outs)) :
    Emitted outs.flatten := by
  induction msgs generalizing e Q outs with
  | nil =>
    obtain ⟨-, rfl⟩ : e = e' ∧ [] = outs := by simpa [MatchingEngine.run] using hrun
    exact .nil
  | cons m msgs ih =>
    obtain ⟨tsc, msg⟩ := m
    obtain ⟨e₁, out, outs₁, hproc, hrest, rfl⟩ := run_cons.mp hrun
    obtain ⟨e₂, Q₂, out₂, hproc₂, hp⟩ := process_spec h hcap tsc msg
    obtain ⟨rfl, rfl⟩ : e₁ = e₂ ∧ out = out₂ := by simpa using hproc.symm.trans hproc₂
    exact (hp.emitted h).1.append (ih (hp.inv h) hrest)

/-- **Both reports of each match, or neither**: in every reachable state of the engine, whatever the
outbound ring holds, and in whatever order the gateway pops while the engine pushes, the gateway
gets the reports of the matches that a message makes in pairs just when there is room for both
reports of each of them, or for neither. Over a whole run it gets pairs when there always is. -/
theorem reports_paired (hcap : cap < 2 ^ 32) (msgs : List (Timestamp × InboundMessage))
    (tsc : Timestamp) (msg : InboundMessage) :
    ∃ e outs e' out, (MatchingEngine.new cap).run msgs = some (e, outs) ∧
      e.process tsc msg = some (e', out) ∧
      (∀ q ops, q.length ≤ ringSize → Fifo.offered ops = out →
        (Paired (Fifo.drained ringSize q ops) ↔ Clear ringSize q.length ops)) ∧
      ∀ ops, Fifo.offered ops = outs.flatten → Clear ringSize 0 ops →
        Paired (Fifo.drained ringSize [] ops) := by
  have hpos : 0 < ringSize := by decide
  obtain ⟨e, Q, outs, -, hrun, hinv, -⟩ :=
    run_answered (e := MatchingEngine.new cap) (new_inv cap) hcap rfl msgs
  obtain ⟨e', Q', out, hproc, hp⟩ := process_spec hinv hcap tsc msg
  obtain ⟨hemitted, number, count, hnums, hcount⟩ := hp.emitted hinv
  refine ⟨e, outs, e', out, hrun, hproc, fun q ops hq hops => ?_, fun ops hops hclear => ?_⟩
  · have honce : ∀ m, (executions m out).length ≤ 2 := by
      intro m
      rw [executions_length, hnums]
      exact count_twice_le number m (by omega)
    rw [Fifo.drained_eq, hops]
    exact ⟨hemitted.clear hpos honce hq hops, hemitted.paired hpos hq hops⟩
  · rw [Fifo.drained_eq, hops]
    exact (run_emitted (e := MatchingEngine.new cap) (new_inv cap) hcap hrun).paired hpos
      (Nat.zero_le _) hops hclear

/-- A seller, and a buyer who takes what is offered. -/
theorem reports_paired_trade :
    ∃ e outs e' out, (MatchingEngine.new maxOrders).run [(0, sellOne)] = some (e, outs) ∧
      e.process 0 buyOne = some (e', out) ∧
      (∀ q ops, q.length ≤ ringSize → Fifo.offered ops = out →
        (Paired (Fifo.drained ringSize q ops) ↔ Clear ringSize q.length ops)) ∧
      ∀ ops, Fifo.offered ops = outs.flatten → Clear ringSize 0 ops →
        Paired (Fifo.drained ringSize [] ops) :=
  reports_paired (by decide) _ _ _

/-! ### Where a report is lost -/

/-- Pushes alone are offers. -/
theorem offered_pushes {α : Type*} (xs : List α) : Fifo.offered (xs.map FifoOp.push) = xs := by
  induction xs with
  | nil => rfl
  | cons x xs ih => exact congrArg (x :: ·) ih

/-- Three messages pushed where there is room for two. -/
theorem drained_three {q : List OutboundMessage} (hq : q.length + 2 = C) (x y z : OutboundMessage) :
    Fifo.drained C q ([x, y, z].map FifoOp.push) = [x, y] := by
  rw [Fifo.drained_eq, offered_pushes]
  have h₁ : q.length < C := by omega
  have h₂ : q.length + 1 < C := by omega
  have h₃ : ¬ q.length + 1 + 1 < C := by omega
  simp [Fifo.rooms, h₁, h₂, h₃]

/-- So many refused orders, and a share offered. -/
def fillRing : List (Timestamp × InboundMessage) :=
  List.replicate (ringSize - 3) (0, refusedOrder) ++ [(0, sellOne)]

/-- They leave room for two messages in the ring, when the gateway pops nothing. -/
theorem run_fillRing :
    ∃ e Q outs o new, (MatchingEngine.new maxOrders).run fillRing = some (e, outs) ∧
      outs.flatten.length + 2 = ringSize ∧
      Inv e.book Q ∧ Q.resting .bids = [] ∧ (∀ j, j ≠ level100 → Q .asks j = []) ∧
      e.book.entries (Q .asks level100) = [(o, new)] ∧ new.price = 100 ∧ new.remaining = 1 := by
  have hrefused := run_refused (MatchingEngine.new maxOrders) (ringSize - 3) rfl
  set e₁ : MatchingEngine maxOrders :=
    { MatchingEngine.new maxOrders with
      nextId := (MatchingEngine.new maxOrders).nextId + UInt64.ofNat (ringSize - 3) }
  obtain ⟨e, Q, o, hsell, h, -, -, hbids, hsingle, hasks⟩ :=
    process_sellOne (e := e₁) (new_inv maxOrders) (by decide) (by decide)
  refine ⟨e, Q, _, o, _, run_trans hrefused (run_single hsell), ?_, h, hbids, hsingle, hasks, rfl,
    incoming_remaining ..⟩
  have hlen : ∀ l : List ℕ,
    (l.map fun k =>
    [emitReject 9 ((MatchingEngine.new maxOrders).nextId + UInt64.ofNat k) 1 0]).flatten.length =
      l.length := by
    intro l
    induction l with
    | nil => rfl
    | cons k l ih =>
      rw [List.map_cons, List.flatten_cons, List.length_append, ih, List.length_cons, Nat.add_comm]
      rfl
  rw [List.flatten_append, List.length_append, hlen, List.length_range]
  decide

/-- **The buyer alone hears of a match**: the ring has room for two messages when an order comes
that trades, the gateway pops none before all are pushed, and the seller's report is lost. -/
theorem report_unpaired :
    ∃ e outs e' out ops, (MatchingEngine.new maxOrders).run fillRing = some (e, outs) ∧
      e.process 0 buyOne = some (e', out) ∧ outs.flatten.length ≤ ringSize ∧
        Fifo.offered ops = out ∧
      ¬ Paired (Fifo.drained ringSize outs.flatten ops) := by
  obtain ⟨e, Q, outs, o, new, hrun, hlen, h, hbids, hsingle, hasks, hp, hrem⟩ := run_fillRing
  obtain ⟨b, Q', o', hbuy, -, -, hone⟩ :=
    process_buyOne h (by decide) (by decide) hbids hsingle hasks hp hrem
  obtain ⟨f, hf⟩ := List.length_eq_one_iff.mp hone
  refine ⟨e, outs, _, _, _, hrun, hbuy, hlen ▸ Nat.le_add_right _ 2, offered_pushes _, ?_⟩
  rw [hf, reports_cons, reports_nil, drained_three hlen]
  intro hpaired
  have hhead : ∀ number, executions number [emitAccept 2 e.nextId 0] = [] := by
    have hne : MessageType.orderAccepted ≠ .orderExecuted := by decide
    intro number
    refine executions_of_ne fun x hx ht => absurd ht ?_
    rw [List.mem_singleton.mp hx]
    exact hne
  have hbid : Paired [executedBid f e.matchNumber 0] :=
    Paired.of_append (l := [emitAccept 2 e.nextId 0]) hpaired fun number => Or.inl (hhead number)
  exact not_paired_single rfl rfl hbid

end TradeFeed
