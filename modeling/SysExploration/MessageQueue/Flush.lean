import SysExploration.MessageQueue.Fifo

/-! What one flush writes. The loop walks the slots from the client's offset to `end` and
skips the empty ones; on a ring that holds `L` it offers the last messages of `L`, as many
as the walk has slots. -/
namespace SysExploration.MessageQueue

variable {c S : ℕ} {L : List Bytes} {mq : MessageQueue} {write : WriteOracle}

/-- The writes of a flush that meets these messages, up to the first one that fails, and the
slot of that one. -/
def offer (write : WriteOracle) : ℕ → List (ℕ × Bytes) → List Write × Option ℕ
  | _, [] => ([], none)
  | k, (slot, msg) :: rest =>
    if write k msg < 0 then ([⟨slot, msg, write k msg⟩], some slot)
    else (⟨slot, msg, write k msg⟩ :: (offer write (k + 1) rest).1,
      (offer write (k + 1) rest).2)

/-- The result of the flush loop: the failed slot is saved as the client's offset. -/
def flushRun (end_ : ℤ) (out : List Write × Option ℕ) : FlushRun :=
  match out.2 with
  | none => ⟨0, end_, out.1⟩
  | some slot => ⟨-1, slot, out.1⟩

@[simp] theorem flushRun_writes (end_ : ℤ) (out : List Write × Option ℕ) :
    (flushRun end_ out).writes = out.1 := by
  unfold flushRun
  split <;> rfl

/-- The calls that did not fail, each with its slot and message. -/
def successes (writes : List Write) : List (ℤ × Bytes) :=
  (writes.filter (0 ≤ ·.ret)).map fun w => (w.slot, w.msg)

/-- A flush delivers a first part of what it meets: all of it, or all before the message
whose write failed. -/
theorem offer_spec (write : WriteOracle) (k : ℕ) (items : List (ℕ × Bytes)) :
    ∃ j ≤ items.length,
      successes (offer write k items).1 = (items.take j).map (fun p => ((p.1 : ℤ), p.2)) ∧
      ((offer write k items).2 = none ∧ j = items.length ∨
        ∃ h : j < items.length, (offer write k items).2 = some items[j].1) := by
  induction items generalizing k with
  | nil => exact ⟨0, Nat.le_refl _, rfl, .inl ⟨rfl, rfl⟩⟩
  | cons p rest ih =>
    obtain ⟨slot, msg⟩ := p
    by_cases hw : write k msg < 0
    · refine ⟨0, Nat.zero_le _, ?_, .inr ⟨by simp, ?_⟩⟩
      · simp [offer, hw, successes]
      · simp [offer, hw]
    · obtain ⟨j, hj, hsucc, hout⟩ := ih (k + 1)
      have hw' : 0 ≤ write k msg := by omega
      refine ⟨j + 1, by simpa using hj, ?_, ?_⟩
      · simp only [successes] at hsucc
        simp [offer, hw, successes, hw', hsucc]
      · rcases hout with ⟨hnone, rfl⟩ | ⟨hlt, hsome⟩
        · exact .inl ⟨by simp [offer, hw, hnone], rfl⟩
        · exact .inr ⟨by simpa using hlt, by simp [offer, hw, hsome]⟩

/-- When no write fails, every message met is delivered. -/
theorem offer_all (hw : ∀ k msg, 0 ≤ write k msg) (k : ℕ) (items : List (ℕ × Bytes)) :
    (offer write k items).2 = none ∧
      successes (offer write k items).1 = items.map (fun p => ((p.1 : ℤ), p.2)) := by
  induction items generalizing k with
  | nil => exact ⟨rfl, rfl⟩
  | cons p rest ih =>
    obtain ⟨slot, msg⟩ := p
    have hpos := hw k msg
    have hnot : ¬ write k msg < 0 := by omega
    obtain ⟨hnone, hsucc⟩ := ih (k + 1)
    simp only [successes] at hsucc
    exact ⟨by simp [offer, hnot, hnone], by simp [offer, hnot, successes, hpos, hsucc]⟩

theorem offer_ret (write : WriteOracle) (k : ℕ) (items : List (ℕ × Bytes)) :
    ∀ w ∈ (offer write k items).1, ∃ k', w.ret = write k' w.msg := by
  induction items generalizing k with
  | nil => simp [offer]
  | cons p rest ih =>
    intro w hmem
    rw [offer] at hmem
    split_ifs at hmem
    · rw [List.mem_singleton.mp hmem]
      exact ⟨k, rfl⟩
    · rcases List.mem_cons.mp hmem with rfl | hmem
      · exact ⟨k, rfl⟩
      · exact ih (k + 1) w hmem

/-- The failed write, if there is one, is the last one made. -/
theorem offer_writes (write : WriteOracle) (k : ℕ) (items : List (ℕ × Bytes)) :
    ((offer write k items).2 = none ∧ ∀ w ∈ (offer write k items).1, 0 ≤ w.ret) ∨
      ((offer write k items).2 ≠ none ∧
        ∃ ws w, (offer write k items).1 = ws ++ [w] ∧ w.ret < 0) := by
  induction items generalizing k with
  | nil => exact .inl ⟨rfl, by simp [offer]⟩
  | cons p rest ih =>
    obtain ⟨slot, msg⟩ := p
    by_cases hw : write k msg < 0
    · exact .inr ⟨by simp [offer, hw], [], ⟨slot, msg, write k msg⟩, by simp [offer, hw], hw⟩
    · rcases ih (k + 1) with ⟨hnone, hall⟩ | ⟨hsome, ws, w, hws, hneg⟩
      · refine .inl ⟨by simp [offer, hw, hnone], ?_⟩
        intro w hmem
        simp only [offer, hw, ↓reduceIte, List.mem_cons] at hmem
        rcases hmem with rfl | hmem
        · simpa using hw
        · exact hall w hmem
      · exact .inr ⟨by simp [offer, hw, hsome], ⟨slot, msg, write k msg⟩ :: ws, w,
          by simp [offer, hw, hws], hneg⟩

/-- The loop from slot `R` to `end`, `d` slots later, with `d` less than one lap. -/
theorem flushLoop_eq (hc : CapacityOk c) (hcap : mq.capacity = c)
    (hlen : mq.messages.length = c) {d R fuel k : ℕ} (hd : d < c) (hfuel : d < fuel)
    (hend : mq.end_ = ((R + d) % c : ℕ)) :
    mq.flushLoop write fuel ((R % c : ℕ) : ℤ) k =
      .ok (flushRun mq.end_ (offer write k (Ring.visited mq.messages c R d))) := by
  induction d generalizing R fuel k with
  | zero =>
    obtain ⟨fuel, rfl⟩ := Nat.exists_eq_succ_of_ne_zero (show fuel ≠ 0 by omega)
    rw [flushLoop, if_pos (by rw [hend]; rfl)]
    rfl
  | succ d ih =>
    obtain ⟨fuel, rfl⟩ := Nat.exists_eq_succ_of_ne_zero (show fuel ≠ 0 by omega)
    have hne := walk_ne_end hc hd hend
    obtain ⟨message, hslot⟩ := exists_slot hc hlen R
    have hend' : mq.end_ = ((R + 1 + d) % c : ℕ) := by
      rw [hend, show R + (d + 1) = R + 1 + d by omega]
    have hrest (k : ℕ) := ih (k := k) (by omega) (show d < fuel by omega) hend'
    rw [flushLoop, if_neg hne, loadSlot_eq hslot, hcap, hc.advance]
    cases message with
    | none =>
      simp only [Ring.visited, hslot, Option.join_some, Option.map_none, Option.toList_none,
        List.nil_append]
      exact hrest k
    | some msg =>
      change (if write k msg < 0 then _ else _) = _
      by_cases hw : write k msg < 0
      · simp [Ring.visited, hslot, hw, offer, flushRun]
      · rw [if_neg hw, hrest (k + 1)]
        simp only [Ring.visited, hslot, Option.join_some, Option.map_some,
          Option.toList_some, List.cons_append, List.nil_append, offer, hw, ↓reduceIte, flushRun]
        split <;> rfl

/-- Slots from the client's offset on to `end`, when the offset has seen `R` slots. -/
def lagSlots (c S : ℕ) (L : List Bytes) (R : ℕ) : ℕ := (S + L.length - R) % c

/-- What a flush from offset `R` meets on a ring that holds `L`. -/
def pending (c S : ℕ) (L : List Bytes) (R : ℕ) : List (ℕ × Bytes) :=
  (Ring.entries c S L).drop (L.length - lagSlots c S L R)

theorem Holds.flushClientMessages_eq (hc : CapacityOk c) (h : mq.Holds c S L)
    (write : WriteOracle) {R : ℕ} (hR : R ≤ S + L.length) {client : MQClient}
    (hroff : client.roff = (R % c : ℕ)) :
    mq.flushClientMessages client write =
      .ok (flushRun mq.end_ (offer write 0 (pending c S L R))) := by
  have hd : lagSlots c S L R < c := Nat.mod_lt _ hc.pos
  have hdiv := Nat.mod_add_div (S + L.length - R) c
  -- the walk starts a whole number of laps after slot `R`
  have hstart : (S + L.length - lagSlots c S L R) % c = R % c := by
    have : S + L.length - lagSlots c S L R = R + c * ((S + L.length - R) / c) := by
      unfold lagSlots
      omega
    rw [this, Nat.add_mul_mod_self_left]
  have hle : lagSlots c S L R ≤ S + L.length :=
    (Nat.mod_le _ _).trans (Nat.sub_le _ _)
  have hsum : S + L.length - lagSlots c S L R + lagSlots c S L R = S + L.length :=
    Nat.sub_add_cancel hle
  rw [flushClientMessages, hroff, ← hstart, h.capacity,
    flushLoop_eq hc h.capacity h.slots.length hd hd (by rw [hsum, h.end_eq]),
    h.slots.visited_eq hd.le hsum]
  rfl

/-- A flush of a registered client of a nonempty ring. -/
theorem Holds.flush_eq (hc : CapacityOk c) (h : mq.Holds c S L) (hL : L ≠ []) {fd : ℤ}
    {client : MQClient} (hfind : mq.clients.find? (·.fd = fd) = some client) {run : FlushRun}
    (hrun : mq.flushClientMessages client write = .ok run) :
    mq.flush fd write =
      .ok (run.ret, run.writes, { mq with clients := setRoff fd run.roff mq.clients }) := by
  have hlen : mq.getLength ≠ 0 := by
    rw [h.getLength_eq hc]
    exact fun h0 => hL (List.length_eq_zero_iff.mp h0)
  rw [flush, if_neg hlen, hfind]
  simp only [hrun]
  rfl

theorem Holds.flush_nil (hc : CapacityOk c) (h : mq.Holds c S []) (fd : ℤ) :
    mq.flush fd write = .ok (0, [], mq) := by
  have hlen : mq.getLength = 0 := h.getLength_eq hc
  rw [flush, if_pos hlen]

theorem Holds.flush_unregistered (hc : CapacityOk c) (h : mq.Holds c S L)
    (write : WriteOracle) {fd : ℤ} (hfd : fd ∉ mq.clients.map MQClient.fd) :
    ∃ rc, mq.flush fd write = .ok (rc, [], mq) := by
  by_cases hL : L = []
  · subst hL
    exact ⟨0, h.flush_nil hc fd⟩
  · have hlen : mq.getLength ≠ 0 := by
      rw [h.getLength_eq hc]
      exact fun h0 => hL (List.length_eq_zero_iff.mp h0)
    have hfind : mq.clients.find? (·.fd = fd) = none := by
      rw [List.find?_eq_none]
      intro cl hcl he
      exact hfd (List.mem_map.mpr ⟨cl, hcl, by simpa using he⟩)
    exact ⟨-1, by rw [flush, if_neg hlen, hfind]⟩

/-- The ring does not depend on the client list. -/
theorem Holds.withClients (h : mq.Holds c S L) (clients : List MQClient) :
    Holds c S L { mq with clients := clients } :=
  ⟨h.capacity, h.slots, h.end_eq, h.start_eq⟩

@[simp] theorem setRoff_fds (fd roff : ℤ) (clients : List MQClient) :
    (setRoff fd roff clients).map MQClient.fd = clients.map MQClient.fd := by
  induction clients with
  | nil => rfl
  | cons cl rest ih =>
    rw [setRoff]
    split_ifs
    · rfl
    · rw [List.map_cons, List.map_cons, ih]

theorem mem_setRoff {fd roff : ℤ} {clients : List MQClient} {cl : MQClient}
    (h : cl ∈ setRoff fd roff clients) :
    cl ∈ clients ∧ ((clients.map MQClient.fd).Nodup → cl.fd ≠ fd) ∨ cl = ⟨fd, roff⟩ := by
  induction clients with
  | nil => simp [setRoff] at h
  | cons head rest ih =>
    rw [setRoff] at h
    split_ifs at h with hfd
    · rcases List.mem_cons.mp h with rfl | hmem
      · exact .inr (by rw [← hfd])
      · refine .inl ⟨List.mem_cons_of_mem _ hmem, fun hd he => (List.nodup_cons.mp hd).1 ?_⟩
        rw [hfd, ← he]
        exact List.mem_map_of_mem hmem
    · rcases List.mem_cons.mp h with rfl | hmem
      · exact .inl ⟨List.mem_cons_self, fun _ => hfd⟩
      · rcases ih hmem with ⟨hmem, hne⟩ | he
        · exact .inl ⟨List.mem_cons_of_mem _ hmem, fun hd => hne (List.nodup_cons.mp hd).2⟩
        · exact .inr he

theorem find_client {fd : ℤ} {clients : List MQClient} (h : fd ∈ clients.map MQClient.fd) :
    ∃ cl, clients.find? (·.fd = fd) = some cl ∧ cl ∈ clients ∧ cl.fd = fd := by
  obtain ⟨cl, hmem, rfl⟩ := List.mem_map.mp h
  cases hfind : clients.find? (·.fd = cl.fd) with
  | none => exact absurd (List.find?_eq_none.mp hfind cl hmem) (by simp)
  | some cl' =>
    exact ⟨cl', rfl, List.mem_of_find?_eq_some hfind, by simpa using List.find?_some hfind⟩

theorem unregisterClient_eq (mq : MessageQueue) (fd : ℤ) :
    ∃ clients, clients.Sublist mq.clients ∧
      (mq.unregisterClient fd).2 = { mq with clients := clients } := by
  unfold unregisterClient
  split_ifs
  · exact ⟨_, List.eraseP_sublist, rfl⟩
  · exact ⟨_, List.Sublist.refl _, rfl⟩

/-- Unregistering removes the first entry of the fd. -/
theorem unregisterClient_fds (mq : MessageQueue) (fd : ℤ) :
    (mq.unregisterClient fd).2.clients.map MQClient.fd =
      (mq.clients.map MQClient.fd).erase fd := by
  have herase : (mq.clients.eraseP (·.fd = fd)).map MQClient.fd =
      (mq.clients.map MQClient.fd).erase fd := by
    rw [List.erase_eq_eraseP', List.eraseP_map]
    rfl
  unfold unregisterClient
  split_ifs with hany
  · exact herase
  · rw [← herase, List.eraseP_of_forall_not]
    simpa using hany

/-- A flush changes offsets only. -/
theorem flush_offsets {fd rc : ℤ} {writes : List Write} {mq' : MessageQueue}
    (h : mq.flush fd write = .ok (rc, writes, mq')) :
    ∃ clients, clients.map MQClient.fd = mq.clients.map MQClient.fd ∧
      mq' = { mq with clients := clients } := by
  unfold flush at h
  split_ifs at h
  · cases h
    exact ⟨_, rfl, rfl⟩
  · cases hfind : mq.clients.find? (·.fd = fd) with
    | none =>
      rw [hfind] at h
      cases h
      exact ⟨_, rfl, rfl⟩
    | some client =>
      cases hrun : mq.flushClientMessages client write with
      | error e =>
        simp only [hfind, hrun] at h
        cases h
      | ok run =>
        simp only [hfind, hrun] at h
        cases h
        exact ⟨_, setRoff_fds fd run.roff mq.clients, rfl⟩

theorem flush_fds {fd rc : ℤ} {writes : List Write} {mq' : MessageQueue}
    (h : mq.flush fd write = .ok (rc, writes, mq')) :
    mq'.clients.map MQClient.fd = mq.clients.map MQClient.fd := by
  obtain ⟨clients, hfds, rfl⟩ := flush_offsets h
  exact hfds

/-- Dropping slow consumers frees no slot: only the client list can change. -/
theorem dropSlowConsumers_eq (mq : MessageQueue) :
    ∃ clients, clients.Sublist mq.clients ∧
      mq.dropSlowConsumers = { mq with clients := clients } := by
  unfold dropSlowConsumers
  split_ifs
  · exact ⟨_, List.Sublist.refl _, rfl⟩
  · exact ⟨_, List.Sublist.refl _, rfl⟩
  · exact ⟨_, List.filter_sublist, rfl⟩

/-- On a full ring the clients near `start` are dropped. -/
theorem Holds.dropSlowConsumers_full (hc : CapacityOk c) (h : mq.Holds c S L)
    (hfull : L.length = c) :
    mq.dropSlowConsumers = { mq with
      clients := mq.clients.filter fun cl =>
        !decide (mq.clientOff cl < truncMul04 mq.capacity) } := by
  have hpos := hc.pos
  have hL : L ≠ [] := by
    rintro rfl
    rw [← hfull] at hpos
    exact Nat.not_succ_le_zero 0 hpos
  have hsize : toSize (mq.capacity * 8) = 8 * c := by
    have hfit := hc.fits
    unfold sizeofSds at hfit
    have hsize := toSize_of_lt hfit
    rw [h.capacity, ← hsize, Nat.mul_comm]
    push_cast
    rfl
  have hlong : ¬ mq.getLength < toSize (mq.capacity * 8) / 10 := by
    rw [h.getLength_eq hc, hsize]
    omega
  rw [dropSlowConsumers, if_neg (start_ne_sentinel (h.start_of_ne hL)), if_neg hlong]

end SysExploration.MessageQueue
