import TradeFeed.Transport.Connections

/-!
# Open connections are served

The other direction of `Wired`: not only is a client's descriptor open, but an open descriptor is a
client's (`Served`). `accept_client` gives every connection that it keeps a slot, and the slot is
freed together with the descriptor. So what the kernel reports of a connection reaches its slot, and
what is sent to all slots reaches every connection.

With both directions descriptors are neither leaked nor closed twice, and the limit of 64
connections is exact (`descriptors_accounted`).
-/

namespace TradeFeed

variable {n n' : Net} {fd : ℤ} {c : ℕ}

/-- An open descriptor is that of a client. -/
def Served (n : Net) : Prop :=
  ∀ fd c, n.conns fd = some c →
    0 ≤ fd ∧ ∃ i, (n.gateway.clients i).active = true ∧ (n.gateway.clients i).fd = fd

theorem new_served : Served Net.new := fun _ _ hc => nomatch hc

/-- A client's slot is found by its descriptor. -/
theorem Wired.slotForFd (h : Wired n) {i : Fin maxClients}
    (hi : (n.gateway.clients i).active = true) (hfd : (n.gateway.clients i).fd = fd) :
    n.gateway.slotForFd fd = some i := by
  cases hslot : n.gateway.slotForFd fd with
  | none =>
    have hnone := List.find?_eq_none.mp hslot i (List.mem_finRange i)
    simp [hi, hfd] at hnone
  | some j =>
    have hfound := List.find?_some hslot
    rw [Bool.and_eq_true, decide_eq_true_eq] at hfound
    rw [h.slots j i hfound.1 hi (hfound.2.trans hfd.symm)]

/-- A descriptor that is not open has no slot. -/
theorem Wired.slotForFd_none (h : Wired n) (hclosed : n.conns fd = none) :
    n.gateway.slotForFd fd = none := by
  cases hslot : n.gateway.slotForFd fd with
  | none => rfl
  | some i =>
    have hfound := List.find?_some hslot
    rw [Bool.and_eq_true, decide_eq_true_eq] at hfound
    exact absurd hfound.2 (h.fd_ne hclosed hfound.1)

/-- `accept` does not return a negative descriptor that is kept. -/
theorem accept_nonneg (h : n.accept fd ≠ n) : 0 ≤ fd := by
  by_contra hneg
  refine h ?_
  unfold Net.accept Gateway.acceptClient
  simp only [if_pos (not_le.mp hneg), Bool.false_eq_true, if_false, ite_self]

/-- A client arrives. -/
theorem Served.accept (h : Served n) : Served (n.accept fd) := by
  rcases accept_cases n fd with he | ⟨slot, hfree, hopen, he⟩
  · rwa [he]
  have hfd : 0 ≤ fd := accept_nonneg fun hsame => by
    have haccepted := congrArg Net.accepted (he.symm.trans hsame)
    exact Nat.succ_ne_self _ haccepted
  intro fd' c hc
  rw [he] at hc ⊢
  by_cases hne : fd' = fd
  · subst hne
    exact ⟨hfd, slot, by simp [Gateway.setSlot_self]⟩
  · simp only [Function.update_of_ne hne] at hc
    obtain ⟨hnonneg, i, hi, hfdi⟩ := h fd' c hc
    have his : i ≠ slot := by
      rintro rfl
      rw [hfree] at hi
      cases hi
    exact ⟨hnonneg, i, by simp only [Gateway.setSlot_of_ne _ his]; exact ⟨hi, hfdi⟩⟩

/-- A client is read. -/
theorem Served.after (h : Served n) {slot : Fin maxClients} {r : Reading}
    (hfd : (n.gateway.clients slot).fd = fd) (hactive : (n.gateway.clients slot).active = true)
    (hframed : Framed (n.gateway.clients slot) r.client r.received r.pushed) :
    Served (n.after fd slot c r) := by
  intro fd' c' hc'
  obtain ⟨hnonneg, i, hi, hfdi⟩ := h fd' c' (conns_after hc')
  refine ⟨hnonneg, i, ?_⟩
  by_cases his : i = slot
  · subst his
    have hopen : r.disconnect = false := by
      by_contra hd
      rw [Bool.not_eq_false] at hd
      simp only [Net.after, hd, if_true] at hc'
      rw [← hfdi, hfd, Function.update_self] at hc'
      cases hc'
    have hclient : (n.after fd i c r).gateway.clients i = r.client := by
      show (n.gateway.setSlot i (if r.disconnect then { r.client with fd := -1, active := false }
        else r.client)).clients i = _
      rw [Gateway.setSlot_self, hopen]
      rfl
    rw [hclient]
    exact ⟨hframed.active.trans hactive, hframed.fd.trans hfdi⟩
  · rw [clients_after his]
    exact ⟨hi, hfdi⟩

/-- What `drain_outbound` leaves alone. -/
theorem drain_frame (n : Net) (outs : List (OutboundMessage × (Fin maxClients → SendResult))) :
    (n.drain outs).conns = n.conns ∧ (n.drain outs).gateway = n.gateway ∧
      (n.drain outs).received = n.received := by
  induction outs generalizing n with
  | nil => exact ⟨rfl, rfl, rfl⟩
  | cons out outs ih => exact ih (n.sendOne out.1 out.2)

theorem Served.drain (h : Served n)
    (outs : List (OutboundMessage × (Fin maxClients → SendResult))) :
    Served (n.drain outs) := by
  obtain ⟨hconns, hgateway, -⟩ := drain_frame n outs
  unfold Served
  rwa [hconns, hgateway]

/-- **A step.** -/
theorem Served.step (h : Served n) (hn : NetInv n) {e : NetEvent} (hstep : n.step e = some n') :
    Served n' := by
  cases e with
  | accept fd =>
    obtain rfl : n.accept fd = n' := Option.some.inj hstep
    exact h.accept
  | readable fd rs =>
    rcases read_cases hn.wired hn.reads fd rs with he | ⟨slot, c, r, hactive, hfd, hc,
      he, hframed, -⟩
    · obtain rfl : n = n' := Option.some.inj (he.symm.trans hstep)
      exact h
    · obtain rfl : n.after fd slot c r = n' := Option.some.inj (he.symm.trans hstep)
      exact h.after hfd hactive hframed
  | drain outs =>
    obtain rfl : n.drain outs = n' := Option.some.inj hstep
    exact h.drain outs

/-! ### Descriptors -/

section Descriptors

theorem mem_closes {g : Gateway} :
    fd ∈ g.closes ↔ ∃ i, (g.clients i).active = true ∧ (g.clients i).fd = fd := by
  simp [Gateway.closes, List.mem_filterMap]

/-- The clients' descriptors are those that are open. -/
theorem Wired.mem_closes (h : Wired n) (hs : Served n) :
    fd ∈ n.gateway.closes ↔ ∃ c, n.conns fd = some c := by
  rw [TradeFeed.mem_closes]
  constructor
  · rintro ⟨i, hi, rfl⟩
    exact h.opened i hi
  · rintro ⟨c, hc⟩
    exact (hs fd c hc).2

/-- Each is that of one slot. -/
theorem Wired.closes_nodup (h : Wired n) : n.gateway.closes.Nodup := by
  refine List.Nodup.filterMap (fun i j fd hi hj => ?_) (List.nodup_finRange maxClients)
  rw [Option.mem_def, Option.ite_none_right_eq_some, Option.some.injEq] at hi hj
  exact h.slots i j hi.1 hj.1 (hi.2.trans hj.2.symm)

theorem length_closes (g : Gateway) :
    g.closes.length = ((List.finRange maxClients).filter fun i => (g.clients i).active).length := by
  have hfilter : g.closes = ((List.finRange maxClients).filter fun i => (g.clients i).active).map
      fun i => (g.clients i).fd := by
    rw [Gateway.closes, ← List.filterMap_eq_filter, List.map_filterMap]
    refine List.filterMap_congr fun i _ => ?_
    by_cases hi : (g.clients i).active = true <;> simp [hi, Option.guard]
  rw [hfilter, List.length_map]

/-- There is a free slot unless all are taken. -/
theorem findSlot_isSome_iff (g : Gateway) : g.findSlot.isSome ↔ g.closes.length < maxClients := by
  have hall : ((List.finRange maxClients).filter fun i => (g.clients i).active).length <
    (List.finRange maxClients).length ↔
      ∃ i ∈ List.finRange maxClients, ¬ (g.clients i).active = true :=
        List.length_filter_lt_length_iff_exists
  rw [List.length_finRange, ← length_closes] at hall
  rw [Gateway.findSlot, List.find?_isSome, hall]
  simp

/-- With all slots taken, a connection is closed again, and nothing is changed. -/
theorem accept_full (hfull : n.gateway.closes.length = maxClients) (fd : ℤ) : n.accept fd = n := by
  have hnone : n.gateway.findSlot = none := by
    rw [← Option.not_isSome_iff_eq_none, findSlot_isSome_iff, hfull]
    exact Nat.lt_irrefl _
  unfold Net.accept Gateway.acceptClient
  simp only [hnone, Bool.false_eq_true, if_false, ite_self]

/-- With a slot free, it is kept. -/
theorem accept_room (hroom : n.gateway.closes.length < maxClients) (hfd : 0 ≤ fd)
    (hopen : n.conns fd = none) :
    (n.accept fd).conns = Function.update n.conns fd (some n.accepted) := by
  obtain ⟨slot, hslot⟩ := Option.isSome_iff_exists.mp ((findSlot_isSome_iff n.gateway).mpr hroom)
  unfold Net.accept Gateway.acceptClient
  simp only [hopen, hslot, ne_eq, not_true_eq_false, if_false, if_neg (not_lt.mpr hfd), if_true]

/-- A message is sent once to each descriptor that is open. -/
theorem sends_closes (h : Wired n) (hs : Served n) (out : OutboundMessage) :
    (n.gateway.sends out).map (fun send => send.2.1) = n.gateway.closes := by
  rw [Gateway.sends, Gateway.closes, List.map_filterMap]
  refine List.filterMap_congr fun i _ => ?_
  by_cases hi : (n.gateway.clients i).active = true
  · obtain ⟨c, hc⟩ := h.opened i hi
    simp [hi, (hs _ c hc).1]
  · simp [hi]

/-- **Descriptors are accounted for**: after any events the descriptors that are open are those of
the clients, each in one slot, so that `~Gateway()` closes each once and leaks none, and a report is
sent once to each. There are at most 64; a further connection is kept exactly when there are fewer,
and otherwise changes nothing. -/
theorem descriptors_accounted (es : List NetEvent) :
    ∃ n, Net.new.run es = some n ∧ n.gateway.closes.Nodup ∧
      (∀ fd, fd ∈ n.gateway.closes ↔ ∃ c, n.conns fd = some c) ∧
      n.gateway.closes.length ≤ maxClients ∧
      (∀ out, (n.gateway.sends out).map (fun send => send.2.1) = n.gateway.closes) ∧
      ∀ fd, 0 ≤ fd → n.conns fd = none →
        if n.gateway.closes.length < maxClients then
          (n.accept fd).conns = Function.update n.conns fd (some n.accepted) ∧
            (n.accept fd).gateway.closes.Perm (fd :: n.gateway.closes)
        else n.accept fd = n := by
  obtain ⟨n, hrun, h, hs⟩ := Lib.Machine.tryRun_invariant (I := fun n => NetInv n ∧ Served n)
    (fun n e (_ : e ∈ es) h => by
      obtain ⟨n', hstep, h'⟩ := h.1.step e
      exact ⟨n', hstep, h', h.2.step h.1 hstep⟩) ⟨new_netInv, new_served⟩
  have hle : n.gateway.closes.length ≤ maxClients := by
    rw [length_closes]
    refine (List.length_filter_le _ _).trans ?_
    rw [List.length_finRange]
  refine ⟨n, hrun, h.wired.closes_nodup,
    fun fd => h.wired.mem_closes hs, hle, sends_closes h.wired hs, fun fd hfd hopen => ?_⟩
  split_ifs with hroom
  · have hconns := accept_room hroom hfd hopen
    refine ⟨hconns, ?_⟩
    have hnot : fd ∉ n.gateway.closes := fun hmem => by
      obtain ⟨c, hc⟩ := (h.wired.mem_closes hs).mp hmem
      rw [hopen] at hc
      cases hc
    rw [List.perm_ext_iff_of_nodup (accept_wired h.wired).closes_nodup
      (List.nodup_cons.mpr ⟨hnot, h.wired.closes_nodup⟩)]
    intro fd'
    rw [(accept_wired h.wired).mem_closes hs.accept, List.mem_cons, h.wired.mem_closes hs, hconns]
    by_cases he : fd' = fd
    · simp [he]
    · simp [he]
  · exact accept_full (le_antisymm hle (not_lt.mp hroom)) fd

end Descriptors

end TradeFeed
