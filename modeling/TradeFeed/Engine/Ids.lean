import TradeFeed.Core.Accounts
import TradeFeed.Engine.Steps

/-!
# The ids that the engine gives

The engine gives the ids 1, 2, 3 and so on, one to each message of type NewOrder, whether or not the
order is accepted. `Given` says which ids orders rest under after so many of them; `given_run` that
every run keeps it while the ids fit in 64 bits: no two orders that rest have the same id.

With it `shares_conserved` says what `add_order` conserves in the books that the engine reaches, as
long as no two orders that rest have the same id. After 2⁶⁴ messages of type NewOrder an id is given
again, and may be given to a second order that rests: `id_given_again` is a run in which a fill then
names two orders, and takes its shares off one of them only.
-/

namespace TradeFeed

open Lib
open OrderBook (badPrice incoming)

variable {cap : ℕ}

/-- How many of some messages are of type NewOrder. -/
def newOrders (msgs : List (Timestamp × InboundMessage)) : ℕ :=
  msgs.countP fun m => m.2.type = .newOrder

theorem newOrders_cons (tsc : Timestamp) (msg : InboundMessage)
    (msgs : List (Timestamp × InboundMessage)) :
    newOrders ((tsc, msg) :: msgs) = newOrders msgs + if msg.type = .newOrder then 1 else 0 := by
  simp [newOrders, List.countP_cons]

/-- The ids after `n` messages of type NewOrder. -/
structure Given (e : MatchingEngine cap) (Q : Queues cap) (n : ℕ) : Prop where
  /-- The next one. -/
  next : e.nextId = UInt64.ofNat (n + 1)
  /-- Every order that rests has one of those given. -/
  given : ∀ s i, ∀ p ∈ Q s i, ∃ k < n, (e.book.order p).id = UInt64.ofNat (k + 1)
  /-- No two have the same. -/
  distinct : DistinctIds e.book Q

/-- An order that comes in and is not refused has an id that no order that rests has. -/
def IdFree (e : MatchingEngine cap) (msg : InboundMessage) : Prop :=
  msg.type = .newOrder → ¬ Refused e msg → FreshId e.book e.book.queue e.nextId

/-- Every step of a run meets this condition. -/
def AllIdsFree (e : MatchingEngine cap) : List (Timestamp × InboundMessage) → Prop
  | [] => True
  | (tsc, msg) :: msgs => IdFree e msg ∧ ∀ e' out, e.process tsc msg = some (e', out) →
    AllIdsFree e' msgs

section Given

variable {e e' : MatchingEngine cap} {Q Q' : Queues cap} {n : ℕ} {tsc : Timestamp}
  {msg : InboundMessage}
  {out : List OutboundMessage}

theorem new_given (cap : ℕ) : Given (MatchingEngine.new cap) (fun _ _ => []) 0 where
  next := rfl
  given _ _ _ hp := absurd hp List.not_mem_nil
  distinct _ _ _ hp := absurd hp List.not_mem_nil

/-- The next id is not the id of an order that rests. -/
theorem Given.freshId (h : Given e Q n) (hn : n < 2 ^ 64) : FreshId e.book Q e.nextId := by
  intro s i p hp he
  obtain ⟨k, hk, hid⟩ := h.given s i p hp
  rw [hid, h.next, ← UInt64.toNat_inj, UInt64.toNat_ofNat', UInt64.toNat_ofNat'] at he
  omega

/-- Clearing the fills changes no id. -/
theorem Given.cleared (h : Given e Q n) : Given { e with book := e.book.clearFills } Q n :=
  ⟨h.next, h.given, h.distinct⟩

/-- An id is used up. -/
theorem Given.skip (h : Given e Q n) :
    Given { e with book := e.book.clearFills, nextId := e.nextId + 1 } Q (n + 1) where
  next := by
    show e.nextId + 1 = UInt64.ofNat (n + 1 + 1)
    rw [h.next, UInt64.ofNat_add (n + 1) 1]
    rfl
  given s i p hp := by
    obtain ⟨k, hk, hid⟩ := h.given s i p hp
    exact ⟨k, by omega, hid⟩
  distinct := h.distinct

/-- An order leaves. -/
theorem Given.left {b : OrderBook cap} {o : Fin cap} (h : Given e Q n) (ha : Left e.book b Q o) :
    Given { e with book := b } (Q.without o) n where
  next := h.next
  given s i p hp := by
    obtain ⟨hp, hne⟩ := Queues.mem_without.mp hp
    obtain ⟨k, hk, hid⟩ := h.given s i p hp
    exact ⟨k, hk, (Core.id_of_bare (ha.others p hne)).trans hid⟩
  distinct := ha.distinct h.distinct

/-- A new order comes in under an id given before that no order rests under. -/
theorem Given.joined {b : OrderBook cap} {o : Fin cap} {new : Order cap} {k : ℕ} (h : Given e Q n)
    (hinv : Inv e.book Q) (ha : Accepted e.book b Q Q' o new) (hf : FreshId e.book Q new.id)
    (hk : k < n) (hid : new.id = UInt64.ofNat (k + 1)) (m : UInt64) :
    Given ⟨b, e.nextId, m⟩ Q' n where
  next := h.next
  given s i p hp := by
    rcases ha.mem_id hinv hp with ⟨hp, hid'⟩ | ⟨-, hid'⟩
    · obtain ⟨j, hj, hidj⟩ := h.given s i p hp
      exact ⟨j, hj, hid'.trans hidj⟩
    · exact ⟨k, hk, hid'.trans hid⟩
  distinct := ha.distinct hinv h.distinct hf

/-- **A step.** -/
theorem Processed.given (hinv : Inv e.book Q) (h : Given e Q n)
    (hn : msg.type = .newOrder → n < 2 ^ 64) (hp : Processed e Q tsc msg e' Q' out) :
    Given e' Q' (n + if msg.type = .newOrder then 1 else 0) := by
  have hcn : MessageType.cancelOrder ≠ .newOrder := by decide
  have hmn : MessageType.modifyOrder ≠ .newOrder := by decide
  cases hp with
  | unknown hnn => simpa [hnn] using h
  | refused hnn => simpa [hnn] using h.skip
  | added hnn _ ha =>
    rw [if_pos hnn]
    exact h.skip.joined (clearFills_inv hinv) ha (h.freshId (hn hnn)) (Nat.lt_succ_self n) h.next _
  | notCanceled hc => simpa [hc, hcn] using h
  | canceled hc _ ha =>
    rw [if_neg (hc ▸ hcn)]
    exact h.left ha
  | notModified hm => simpa [hm, hmn] using h.cleared
  | lost hm _ _ ha =>
    rw [if_neg (hm ▸ hmn)]
    exact h.cleared.left ha
  | @modified hm o hl _ b₁ b Q' o' ha ha' =>
    rw [if_neg (hm ▸ hmn)]
    obtain ⟨⟨s, i, ho⟩, hid⟩ := mem_of_lookup hinv.core hl
    obtain ⟨k, hk, hid'⟩ := h.given s i o ho
    exact (h.cleared.left ha).joined ha.inv ha'
      (ha.freshId (clearFills_inv hinv).core h.distinct hl) hk (hid.symm.trans hid') _

/-- **A run.** -/
theorem given_run (hinv : Inv e.book Q) (hcap : cap < 2 ^ 32) (h : Given e Q n)
    (msgs : List (Timestamp × InboundMessage)) (hn : n + newOrders msgs ≤ 2 ^ 64) :
    ∃ e' Q' outs, e.run msgs = some (e', outs) ∧ Inv e'.book Q' ∧
      Given e' Q' (n + newOrders msgs) := by
  induction msgs generalizing e Q n with
  | nil => exact ⟨e, Q, [], rfl, hinv, h⟩
  | cons m msgs ih =>
    obtain ⟨tsc, msg⟩ := m
    rw [newOrders_cons] at hn ⊢
    obtain ⟨e₁, Q₁, out, hrun₁, hp⟩ := process_spec hinv hcap tsc msg
    have h₁ := hp.given hinv h (fun ht => by rw [if_pos ht] at hn; omega)
    obtain ⟨e', Q', outs, hrun, hinv', h'⟩ := ih (hp.inv hinv) h₁ (by omega)
    refine ⟨e', Q', out :: outs, run_cons.mpr ⟨e₁, out, outs, hrun₁, hrun, rfl⟩, hinv', ?_⟩
    rwa [Nat.add_comm (newOrders msgs), ← Nat.add_assoc]

/-- **The first 2⁶⁴ messages of type NewOrder** find their ids free. -/
theorem allIdsFree_of_few (hinv : Inv e.book Q) (hcap : cap < 2 ^ 32) (h : Given e Q n)
    {msgs : List (Timestamp × InboundMessage)} (hn : n + newOrders msgs ≤ 2 ^ 64) :
    AllIdsFree e msgs := by
  induction msgs generalizing e Q n with
  | nil => trivial
  | cons m msgs ih =>
    obtain ⟨tsc, msg⟩ := m
    rw [newOrders_cons] at hn
    have hlt : msg.type = .newOrder → n < 2 ^ 64 := fun hnn => by
      rw [if_pos hnn] at hn
      omega
    refine ⟨fun hnn _ => ?_, fun e₁ out hrun => ?_⟩
    · rw [hinv.queue_eq]
      exact h.freshId (hlt hnn)
    · obtain ⟨e₁', Q₁, out', hrun₁, hp⟩ := process_spec hinv hcap tsc msg
      obtain ⟨rfl, rfl⟩ : e₁ = e₁' ∧ out = out' := by simpa using hrun.symm.trans hrun₁
      exact ih (hp.inv hinv) (hp.given hinv h hlt) (by omega)

/-- **A step** under a free id keeps the ids distinct. -/
theorem Processed.distinct (hinv : Inv e.book Q) (hd : DistinctIds e.book Q) (hf : IdFree e msg)
    (hp : Processed e Q tsc msg e' Q' out) : DistinctIds e'.book Q' := by
  rw [IdFree, hinv.queue_eq] at hf
  cases hp with
  | unknown => exact hd
  | refused => exact hd
  | added hnn hr ha => exact ha.distinct (clearFills_inv hinv) hd (hf hnn hr)
  | notCanceled => exact hd
  | canceled _ _ ha => exact ha.distinct hd
  | notModified => exact hd
  | lost _ _ _ ha => exact ha.distinct hd
  | modified _ hl _ ha ha' =>
    exact ha'.distinct ha.inv (ha.distinct hd) (ha.freshId (clearFills_inv hinv).core hd hl)

end Given

/-! ### Conservation of shares -/

/-- **Shares are conserved** by every order that a reachable book accepts under a fresh id, as long
as no id was given twice, or no two orders that rest have the same. -/
theorem shares_conserved (hcap : cap < 2 ^ 32) {msgs : List (Timestamp × InboundMessage)}
    {e : MatchingEngine cap} {outs : List (List OutboundMessage)}
    (hrun : (MatchingEngine.new cap).run msgs = some (e, outs))
    (hids : newOrders msgs ≤ 2 ^ 64 ∨ DistinctIds e.book e.book.queue) {id : OrderId}
    {client : ClientId} {side : Side} {type : OrderType} {price : Price} {qty : Quantity}
    {ts : Timestamp} {b' : OrderBook cap}
    (hfresh : ∀ s i, ∀ p ∈ e.book.queue s i, (e.book.order p).id ≠ id)
    (hadd : e.book.addOrder id client side type price qty ts = some (b', true)) :
    ∃ fs left o, Conserved e.book b' id side type price qty fs left o := by
  obtain ⟨e', Q, outs', hrun', hinv⟩ :=
    inv_run (e := MatchingEngine.new cap) (new_inv cap) hcap msgs
  obtain rfl : e = e' := congrArg Prod.fst (Option.some.inj (hrun.symm.trans hrun'))
  have hdistinct : DistinctIds e.book Q := by
    rcases hids with hn | hd
    · obtain ⟨e', Q', outs', hrun', hinv', hgiven⟩ :=
        given_run (e := MatchingEngine.new cap) (new_inv cap) hcap (new_given cap) msgs (by omega)
      obtain rfl : e = e' := congrArg Prod.fst (Option.some.inj (hrun.symm.trans hrun'))
      rw [← hinv.queue_eq, hinv'.queue_eq]
      exact hgiven.distinct
    · rwa [hinv.queue_eq] at hd
  rw [hinv.queue_eq] at hfresh
  exact addOrder_conserves hinv hcap hdistinct hfresh hadd

/-- A share is offered, and bought by order 7. -/
theorem shares_conserved_sale :
    ∃ (e : MatchingEngine maxOrders) (outs : List (List OutboundMessage))
      (b' : OrderBook maxOrders),
      (MatchingEngine.new maxOrders).run [(0, sellOne)] = some (e, outs) ∧
      e.book.addOrder 7 2 .buy .limit 100 1 0 = some (b', true) ∧
      ∃ fs left o, Conserved e.book b' 7 .buy .limit 100 1 fs left o := by
  have hcap : maxOrders < 2 ^ 32 := by decide
  obtain ⟨e, Q, o, hrun, hinv, -, -, hbids, hsingle, hasks⟩ :=
    process_sellOne (e := MatchingEngine.new maxOrders) (new_inv maxOrders) hcap (by decide)
  have hav := available_of_sellOne hinv.core (by decide) hbids hsingle hasks
  have hroom : Room Q := room_of_cap hinv.core (fun he => hav (List.length_eq_zero_iff.mpr he)) hcap
  obtain ⟨b', -, -, hadd, -⟩ := addOrder_accepted hinv hroom 7 2 .buy .limit 100 1 0 hav (by decide)
  refine ⟨e, _, b', run_single hrun, hadd,
    shares_conserved hcap (run_single hrun) (.inl (by decide)) ?_ hadd⟩
  intro s i p hp
  rw [hinv.queue_eq] at hp
  obtain ⟨q, hq, hbare, hnil⟩ := OrderBook.entries_eq_cons.mp hasks
  have hp := mem_level100 hbids hsingle hp
  rw [hq, OrderBook.entries_eq_nil.mp hnil, List.mem_singleton] at hp
  rw [hp, show (e.book.order o).id = (1 : OrderId) from congrArg Order.id hbare]
  decide

/-- **An id is given again** after 2⁶⁴ messages of type NewOrder, here while the order it was given
to first rests: the fill of a share names both orders, and the second keeps its two shares. -/
theorem id_given_again :
    ∃ (e : MatchingEngine maxOrders) (outs : List (List OutboundMessage))
      (b' : OrderBook maxOrders),
      (MatchingEngine.new maxOrders).run (twoSellers (2 ^ 64 - 1)) = some (e, outs) ∧
      (∀ s i, ∀ p ∈ e.book.queue s i, (e.book.order p).id ≠ 7) ∧
      e.book.addOrder 7 2 .buy .limit 100 1 0 = some (b', true) ∧
      ¬ ∃ fs left o, Conserved e.book b' 7 .buy .limit 100 1 fs left o := by
  have hcap : maxOrders < 2 ^ 32 := by decide
  obtain ⟨e, Q, o, o', hrun, hinv, hbids, hsingle, hasks⟩ :=
    run_twoSellers hcap (by decide) (2 ^ 64 - 1)
  rw [show 2 + UInt64.ofNat (2 ^ 64 - 1) = 1 from rfl] at hasks
  obtain ⟨q, hq, hbare, htail⟩ := OrderBook.entries_eq_cons.mp hasks
  obtain ⟨q', rfl, hbare', hnil⟩ := OrderBook.entries_eq_cons.mp htail
  rw [OrderBook.entries_eq_nil.mp hnil] at hq
  have hid : (e.book.order o).id = 1 := congrArg Order.id hbare
  have hid' : (e.book.order o').id = 1 := congrArg Order.id hbare'
  have hav : e.book.pool.available ≠ 0 := available_ne_zero hinv.core (by
    rw [hbids, Queues.resting_of_single hsingle, hq]
    show 2 < maxOrders
    decide)
  have hroom : Room Q := room_of_cap hinv.core (fun he => hav (List.length_eq_zero_iff.mpr he)) hcap
  obtain ⟨b', Q', new, hadd, ha⟩ :=
    addOrder_accepted hinv hroom 7 2 .buy .limit 100 1 0 hav (by decide)
  have hfresh : ∀ s i, ∀ p ∈ e.book.queue s i, (e.book.order p).id ≠ 7 := by
    intro s i p hp
    rw [hinv.queue_eq] at hp
    have hp := mem_level100 hbids hsingle hp
    rw [hq, List.mem_pair] at hp
    rcases hp with rfl | rfl
    · rw [hid]
      decide
    · rw [hid']
      decide
  refine ⟨e, _, b', hrun, hfresh, hadd, ?_⟩
  have htr : trading e.book Q (incoming 7 2 .buy .limit 100 1 0) =
      ⟨[((o, incoming 1 1 .sell .limit 100 1 0), 1)], 0,
        [(o', incoming 1 1 .sell .limit 100 2 0)]⟩ :=
    trading_share rfl (by decide : accepts .buy .limit 100 100 = true) rfl
      (by rw [Queues.resting_of_single hsingle, hasks]) rfl (incoming_remaining ..)
  rintro ⟨fs, left, o₂, hc⟩
  -- the one fill names id 1 for a share
  have hnamed : named fs 1 = 1 := by
    have hfs := List.append_cancel_left (hc.fills.symm.trans ha.fills)
    rw [hfs, htr]
    rfl
  -- the second seller keeps its place
  have hmem : o' ∈ e.book.queue .asks level100 := by
    rw [hinv.queue_eq, hq]
    simp
  have hrem : (e.book.order o').remaining.toNat = 2 := by
    show (e.book.order o').bare.remaining.toNat = 2
    rw [hbare', incoming_remaining]
    rfl
  have hmem' : o' ∈ b'.queue .asks level100 := by
    rw [hc.queue, List.mem_append, List.mem_filter]
    exact Or.inl ⟨hmem, by rw [hid', hnamed, hrem]; decide⟩
  -- and its two shares
  have hrem' : (b'.order o').remaining.toNat = 2 := by
    have hswept : b'.entries (Q'.resting .asks) = [(o', incoming 1 1 .sell .limit 100 2 0)] :=
      ha.swept.trans (by rw [htr])
    obtain ⟨-, -, hbare₂, -⟩ := OrderBook.entries_eq_cons.mp hswept
    show (b'.order o').bare.remaining.toNat = 2
    rw [hbare₂, incoming_remaining]
    rfl
  have := (hc.stays _ _ o' hmem hmem').1
  rw [hid', hnamed, hrem, hrem'] at this
  omega

end TradeFeed
