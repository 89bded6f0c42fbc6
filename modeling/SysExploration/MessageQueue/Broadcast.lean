import SysExploration.MessageQueue.Session

/-! Broadcasting while the ring fills. Without `dq` the ring is filled once from slot 0 and
then stays full, so a client's offset counts the messages it was sent modulo the capacity.
Offset 0 stands for none of them and, on a full ring, for all of them. -/
namespace SysExploration.Session
open MessageQueue

variable {c : ℕ} {s s' : Session}

/-- A call of the server; no fd is registered while it is registered. -/
def BroadcastStep (s : Session) (call : Call) (s' : Session) : Prop :=
  FillStep s call s' ∧ ∀ fd alloc, call = .registerClient fd alloc → fd ∉ s.registered

/-- What a client with offset `roff` has been sent. -/
def SentUpTo (c : ℕ) (accepted : List Bytes) (roff : ℤ) (delivered : List (ℕ × Bytes))
    (k : ℕ) : Prop :=
  k ≤ accepted.length ∧ roff = (k % c : ℕ) ∧ delivered = (numbered 0 accepted).take k

structure Filling (c : ℕ) (s : Session) : Prop extends Undrained c s where
  distinct : s.registered.Nodup
  client : ∀ cl ∈ s.mq.clients, ∃ k, SentUpTo c s.accepted cl.roff (s.delivered cl.fd) k
  due : ∀ cl ∈ s.mq.clients, s.due cl.fd = s.accepted
  sent : ∀ fd, s.delivered fd <+: numbered 0 s.accepted

theorem filling_fresh (hc : CapacityOk c) : Filling c (fresh c) where
  toUndrained := undrained_fresh hc
  distinct := List.nodup_nil
  client _ h := by simp [fresh, MessageQueue.fresh] at h
  due _ h := by simp [fresh, MessageQueue.fresh] at h
  sent _ := List.prefix_refl _

theorem SentUpTo.concat {accepted : List Bytes} {roff : ℤ} {delivered : List (ℕ × Bytes)}
    {k : ℕ} (h : SentUpTo c accepted roff delivered k) (m : Bytes) :
    SentUpTo c (accepted ++ [m]) roff delivered k := by
  obtain ⟨hk, hroff, hdel⟩ := h
  refine ⟨by simp; omega, hroff, ?_⟩
  rw [numbered_concat, List.take_append_of_le_length (by simpa using hk), hdel]

theorem SentUpTo.messages {accepted : List Bytes} {roff : ℤ} {delivered : List (ℕ × Bytes)}
    {k : ℕ} (h : SentUpTo c accepted roff delivered k) :
    delivered.map Prod.snd = accepted.take k := by
  rw [h.2.2, List.map_take, numbered_snd]

/-- A client's walk to `end` covers what it was not sent, or nothing when it was sent nothing
and the ring is full, for then its offset equals `end`. -/
theorem lagSlots_zero (hc : CapacityOk c) {L : List Bytes} {k : ℕ} (hk : k ≤ L.length)
    (hL : L.length ≤ c) :
    lagSlots c 0 L k = if k = 0 ∧ L.length = c then 0 else L.length - k := by
  have hpos := hc.pos
  unfold lagSlots
  split_ifs with hlap
  · rw [hlap.1, hlap.2, Nat.zero_add, Nat.sub_zero, Nat.mod_self]
  · rw [Nat.zero_add, Nat.mod_eq_of_lt (by omega)]

/-- After a flush the offset and the messages sent still agree. When no write failed the
client has everything, unless the walk was empty. -/
theorem SentUpTo.flushed (hc : CapacityOk c) (h : Filling c s) {fd roff : ℤ} {k : ℕ}
    (hk : SentUpTo c s.accepted roff (s.delivered fd) k) (write : WriteOracle) :
    let out := offer write 0 (pending c 0 s.accepted k)
    let run := flushRun s.mq.end_ out
    ∃ k', SentUpTo c s.accepted run.roff (s.delivered fd ++
        (successes run.writes).map (fun p => (s.number p.1, p.2))) k' ∧
      (out.2 = none →
        k' = if k = 0 ∧ s.accepted.length = c then 0 else s.accepted.length) := by
  intro out run
  obtain ⟨hkn, hroff, hdel⟩ := hk
  have hbound := h.holds_accepted.slots.bound
  have hholds : s.mq.Holds c s.dequeued s.accepted := h.dequeued ▸ h.holds_accepted
  obtain ⟨j, hsucc, hout⟩ := flush_delivers hholds write k
  simp only [h.dequeued] at hsucc hout
  rw [flushRun_writes, hsucc, hdel]
  have hlag := lagSlots_zero hc hkn hbound
  split_ifs at hlag ⊢ with hlap
  · obtain ⟨rfl, hfull⟩ := hlap
    rw [hlag] at hout ⊢
    rcases hout with ⟨hnone, -⟩ | ⟨hlt, -⟩
    · refine ⟨0, ⟨Nat.zero_le _, ?_, ?_⟩, fun _ => rfl⟩
      · simp [run, out, flushRun, hnone, h.holds_accepted.end_eq, hfull]
      · simp
    · omega
  · have hfirst : s.accepted.length - lagSlots c 0 s.accepted k = k := by omega
    rw [hfirst] at hout ⊢
    rw [← List.take_add]
    rcases hout with ⟨hnone, hj⟩ | ⟨hlt, hsome⟩
    · refine ⟨s.accepted.length, ⟨Nat.le_refl _, ?_, ?_⟩, fun _ => rfl⟩
      · simp only [run, out, flushRun, hnone, h.holds_accepted.end_eq, Nat.zero_add]
      · rw [show k + j = s.accepted.length by omega]
    · refine ⟨k + j, ⟨hlt.le, ?_, rfl⟩, fun hnone => ?_⟩
      · simp only [run, out, flushRun, hsome, Nat.zero_add]
      · rw [hsome] at hnone
        cases hnone

/-- The run of the loop for a client that was sent `k` messages. -/
theorem Filling.flushRun_eq (hc : CapacityOk c) (h : Filling c s) {cl : MQClient}
    {write : WriteOracle} {run : FlushRun} (hrun : s.mq.flushClientMessages cl write = .ok run)
    {k : ℕ} (hk : SentUpTo c s.accepted cl.roff (s.delivered cl.fd) k) :
    run = flushRun s.mq.end_ (offer write 0 (pending c 0 s.accepted k)) := by
  rw [h.toStored.flushRun_eq hc hrun hk.1 hk.2.1, h.queued_eq, h.dequeued]

/-- Every effect but a dequeue keeps the invariant. -/
theorem Filling.effect (hc : CapacityOk c) (h : Filling c s) {call : Call} {reply : Reply}
    (hdq : ∀ alloc, call ≠ .dq alloc)
    (honce : ∀ fd alloc, call = .registerClient fd alloc → fd ∉ s.registered)
    (he : Effect c s call reply s') : Filling c s' := by
  have hundrained := he.undrained hc h.toUndrained hdq
  cases he with
  | unchanged => exact h
  | accepted msg alloc hroom hmq hcl =>
    refine ⟨hundrained, ?_, ?_, ?_, ?_⟩
    · simpa only [registered, hcl] using h.distinct
    · intro cl hmem
      obtain ⟨k, hk⟩ := h.client cl (hcl ▸ hmem)
      exact ⟨k, hk.concat msg⟩
    · intro cl hmem
      exact congrArg (· ++ [msg]) (h.due cl (hcl ▸ hmem))
    · intro fd
      rw [numbered_concat]
      exact (h.sent fd).trans (List.prefix_append _ _)
  | dequeued alloc => exact absurd rfl (hdq alloc)
  | registered fd alloc hroff =>
    have hnew := honce fd alloc rfl
    have hold (cl : MQClient) (hmem : cl ∈ s.mq.clients) : cl.fd ≠ fd :=
      fun he => hnew (he ▸ List.mem_map_of_mem hmem)
    refine ⟨hundrained, List.nodup_cons.mpr ⟨hnew, h.distinct⟩, ?_, ?_, ?_⟩
    · intro cl hmem
      rcases List.mem_cons.mp hmem with rfl | hmem
      · exact ⟨0, Nat.zero_le _, by simp [hroff, h.dequeued], by simp⟩
      · simpa [Function.update_of_ne (hold cl hmem)] using h.client cl hmem
    · intro cl hmem
      rcases List.mem_cons.mp hmem with rfl | hmem
      · simpa using contents_eq hc h.holds_accepted
      · simpa [Function.update_of_ne (hold cl hmem)] using h.due cl hmem
    · intro fd'
      by_cases he : fd' = fd
      · simp [he]
      · simpa [Function.update_of_ne he] using h.sent fd'
  | removed reply hne hsub =>
    exact ⟨hundrained, h.distinct.sublist (hsub.map _),
      fun cl hmem => h.client cl (hsub.subset hmem),
      fun cl hmem => h.due cl (hsub.subset hmem), h.sent⟩
  | idle fd write hrc =>
    have hdel (rc : ℤ) : (s.flushed fd rc [] s.mq).delivered = s.delivered := by
      simp [flushed, successes]
    exact ⟨hundrained, h.distinct, by rw [hdel]; exact h.client, h.due,
      by rw [hdel]; exact h.sent⟩
  | @flushed write cl run hmem hL hrun =>
    obtain ⟨k, hk⟩ := h.client cl hmem
    obtain ⟨k', hk', -⟩ := hk.flushed hc h write
    rw [← h.flushRun_eq hc hrun hk] at hk'
    refine ⟨hundrained, ?_, ?_, ?_, ?_⟩
    · simpa [registered, Session.flushed] using h.distinct
    · intro cl' hmem'
      rcases mem_setRoff hmem' with ⟨hold, hne⟩ | rfl
      · simpa [Session.flushed, Function.update_of_ne (hne h.distinct)] using h.client cl' hold
      · exact ⟨k', by simpa [Session.flushed] using hk'⟩
    · intro cl' hmem'
      rcases mem_setRoff hmem' with ⟨hold, -⟩ | rfl
      · exact h.due cl' hold
      · exact h.due cl hmem
    · intro fd
      by_cases he : fd = cl.fd
      · subst he
        simp only [Session.flushed, Function.update_self]
        rw [hk'.2.2]
        exact List.take_prefix _ _
      · simpa [Session.flushed, Function.update_of_ne he] using h.sent fd

theorem BroadcastStep.filling (hc : CapacityOk c) (h : Filling c s) {call : Call}
    (hstep : BroadcastStep s call s') : Filling c s' := by
  obtain ⟨reply, he⟩ := hstep.1.effect hc h.toUndrained
  exact h.effect hc hstep.1.1 hstep.2 he

theorem Filling.of_run (hc : CapacityOk c) {calls : List Call}
    (hrun : Run BroadcastStep (fresh c) calls s) : Filling c s :=
  hrun.invariant (filling_fresh hc) fun _ _ _ h hstep => hstep.filling hc h

/-- A flush whose writes succeed in full returns 0 and leaves a registered client with all
messages of the queue, which are all messages due to it, unless the ring is full and the
client had been sent nothing: then it still has nothing. Earlier writes may have failed. -/
theorem flush_completes_iff (hc : CapacityOk c) {calls : List Call}
    (hrun : Run BroadcastStep (fresh c) calls s) {fd : ℤ} (hfd : fd ∈ s.registered) :
    ∃ s', s.step (.flush fd wholeWrites) = .ok (.code 0, s') ∧
      ((s'.delivered fd).map Prod.snd = s'.contents ∧ s'.contents = s'.due fd ↔
        ¬ (s.mq.getLength = c ∧ s.delivered fd = [])) := by
  have h := Filling.of_run hc hrun
  obtain ⟨reply, s', hstep, he⟩ := h.step hc (.flush fd wholeWrites)
  have h' := he.undrained hc h.toUndrained (by simp)
  have hcontents := contents_eq hc h'.holds_accepted
  have hpos := hc.pos
  rw [h.holds_accepted.getLength_eq hc]
  cases he with
  | unchanged _ hne => exact absurd rfl (hne _ _)
  | removed _ hne => exact absurd rfl (hne _ _)
  | idle fd write hrc =>
    obtain ⟨rfl, hL⟩ := hrc hfd
    obtain ⟨cl, hmem, rfl⟩ := List.mem_map.mp hfd
    obtain ⟨k, hk⟩ := h.client cl hmem
    have hsent := hk.messages
    rw [h.queued_eq] at hL
    refine ⟨_, hstep, ?_⟩
    rw [hcontents]
    simp only [flushed, successes, List.filter_nil, List.map_nil, List.append_nil,
      Function.update_self, h.due cl hmem, hsent, hL, List.take_nil, List.length_nil, and_self,
      true_iff]
    rintro ⟨h0, -⟩
    omega
  | @flushed write cl run hmem hL hrun =>
    obtain ⟨k, hk⟩ := h.client cl hmem
    have hnone := (offer_all wholeWrites_nonneg 0 (pending c 0 s.accepted k)).1
    obtain ⟨k', hk', hcase⟩ := hk.flushed hc h wholeWrites
    rw [← h.flushRun_eq hc hrun hk] at hk'
    have hret : run.ret = 0 := by
      rw [h.flushRun_eq hc hrun hk]
      simp only [flushRun, hnone]
    have hne : s.accepted ≠ [] := h.queued_eq ▸ hL
    have hempty : s.delivered cl.fd = [] ↔ k = 0 := by
      rw [hk.2.2, List.take_eq_nil_iff]
      simp [numbered, hne]
    refine ⟨_, hret ▸ hstep, ?_⟩
    rw [hret] at hcontents
    rw [hcontents]
    simp only [flushed, Function.update_self, h.due cl hmem, hk'.messages, hcase hnone,
      and_true, hempty]
    split_ifs with hlap
    · simp [hlap.1, hlap.2, Ne.symm hne]
    · simp only [List.take_length, true_iff]
      rintro ⟨hfull, hk0⟩
      exact hlap ⟨hk0, hfull⟩

/-- Nobody is registered yet when the first client is. -/
theorem broadcastStep_first {fd : ℤ} {alloc : Bool} {reply : Reply}
    (h : (fresh c).step (.registerClient fd alloc) = .ok (reply, s')) :
    BroadcastStep (fresh c) (.registerClient fd alloc) s' := by
  refine ⟨⟨nofun, reply, h⟩, ?_⟩
  intro fd' alloc' hcall
  cases hcall
  exact List.not_mem_nil

/-- Two slots, one client, one message: the flush delivers it. -/
theorem flush_completes_iff_two :
    ∃ s, Run BroadcastStep (fresh 2) [.registerClient 7 true, .q [97] true] s ∧
      ∃ s', s.step (.flush 7 wholeWrites) = .ok (.code 0, s') ∧
        ((s'.delivered 7).map Prod.snd = s'.contents ∧ s'.contents = s'.due 7 ↔
          ¬ (s.mq.getLength = 2 ∧ s.delivered 7 = [])) := by
  have hrun : Run BroadcastStep (fresh 2) ([] ++ [.registerClient 7 true] ++ [.q [97] true]) _ :=
    .snoc (.snoc .nil (broadcastStep_first rfl)) ⟨⟨nofun, _, rfl⟩, nofun⟩
  exact ⟨_, hrun, flush_completes_iff ⟨by decide, by decide⟩ hrun List.mem_cons_self⟩

/-- One slot, one client, one message: `end` is back at the client's offset, so the flush
returns 0 without a write. -/
theorem full_ring_not_delivered :
    ∃ s, Run BroadcastStep (fresh 1) [.registerClient 7 true, .q [97] true] s ∧
      7 ∈ s.registered ∧
      ∃ s', s.step (.flush 7 wholeWrites) = .ok (.code 0, s') ∧
        s'.contents = [[97]] ∧ (s'.delivered 7).map Prod.snd = [] := by
  have hrun : Run BroadcastStep (fresh 1)
      ([] ++ [.registerClient 7 true] ++ [.q [97] true]) _ :=
    .snoc (.snoc .nil (broadcastStep_first rfl)) ⟨⟨nofun, _, rfl⟩, nofun⟩
  exact ⟨_, hrun, List.mem_cons_self, _, rfl, rfl, rfl⟩

/-- What a client was sent since its registration is at all times a first part of what `q`
accepted, whatever became of the writes, so of two clients one has been sent a first part
of what the other has. -/
theorem delivered_prefix (hc : CapacityOk c) {calls : List Call}
    (hrun : Run BroadcastStep (fresh c) calls s) :
    (∀ fd, (s.delivered fd).map Prod.snd <+: s.accepted) ∧
      ∀ fd₁ fd₂, (s.delivered fd₁).map Prod.snd <+: (s.delivered fd₂).map Prod.snd ∨
        (s.delivered fd₂).map Prod.snd <+: (s.delivered fd₁).map Prod.snd := by
  have hpre (fd : ℤ) : (s.delivered fd).map Prod.snd <+: s.accepted := by
    have h := ((Filling.of_run hc hrun).sent fd).map Prod.snd
    rwa [numbered_snd] at h
  exact ⟨hpre, fun fd₁ fd₂ => List.prefix_or_prefix_of_prefix (hpre fd₁) (hpre fd₂)⟩

/-- The prefix property after a flush of two messages whose second write fails. -/
theorem delivered_prefix_interrupted :
    ∃ s, Run BroadcastStep (fresh 3) [.registerClient 7 true, .q [97] true, .q [98] true,
        .flush 7 fun k msg => if k = 1 then -1 else msg.length] s ∧
      (∀ fd, (s.delivered fd).map Prod.snd <+: s.accepted) ∧
        ∀ fd₁ fd₂, (s.delivered fd₁).map Prod.snd <+: (s.delivered fd₂).map Prod.snd ∨
          (s.delivered fd₂).map Prod.snd <+: (s.delivered fd₁).map Prod.snd := by
  have hrun : Run BroadcastStep (fresh 3) ([] ++ [.registerClient 7 true] ++ [.q [97] true] ++
      [.q [98] true] ++ [.flush 7 fun k msg => if k = 1 then -1 else msg.length]) _ :=
    .snoc (.snoc (.snoc (.snoc .nil (broadcastStep_first rfl)) ⟨⟨nofun, _, rfl⟩, nofun⟩)
      ⟨⟨nofun, _, rfl⟩, nofun⟩) ⟨⟨nofun, _, rfl⟩, nofun⟩
  exact ⟨_, hrun, delivered_prefix ⟨by decide, by decide⟩ hrun⟩

end SysExploration.Session
