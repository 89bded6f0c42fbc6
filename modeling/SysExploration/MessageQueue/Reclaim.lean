import SysExploration.Library.Runs
import SysExploration.MessageQueue.Session

/-! Flushes while slots are reclaimed. `dq` leaves the offsets of the clients as they are, so
an offset that was passed names the slot of a newer message. -/
namespace SysExploration.Session
open MessageQueue

variable {c S R : ℕ} {L : List Bytes} {s s' : Session}

/-- A call that returns, on a queue that after the first message is neither drained nor
full. Writes succeed in full, and an fd is registered once at a time. -/
structure ReclaimStep (c : ℕ) (s : Session) (call : Call) (s' : Session) : Prop where
  returns : ∃ reply, s.step call = .ok (reply, s')
  filled : s'.accepted ≠ [] → 1 ≤ s'.mq.getLength ∧ s'.mq.getLength < c
  writes : ∀ fd write, call = .flush fd write → write = wholeWrites
  once : ∀ fd alloc, call = .registerClient fd alloc → fd ∉ s.registered
  keeps : call ≠ .dropSlowConsumers

/-- The messages in the queue that were not written to the fd, in queue order. -/
def unsent (s : Session) (fd : ℤ) : List (ℕ × Bytes) :=
  (numbered s.dequeued s.contents).filter fun p => p ∉ s.delivered fd

/-- A flush of a registered client returns 0 and writes what is queued and unsent. -/
def SendsUnsent (s : Session) (call : Call) : Prop :=
  ∀ fd, call = .flush fd wholeWrites → fd ∈ s.registered →
    ∃ s', s.step call = .ok (.code 0, s') ∧ s'.delivered fd = s.delivered fd ++ s.unsent fd

/-- The messages accepted since the last flush of the fd, or, before the first one, those
queued at registration and those accepted since. -/
def lag (s : Session) (fd : ℤ) : ℕ := s.accepted.length - s.mark fd

/-- A client that is flushed lags by less than one lap, or its offset, taken around the
ring, is still at or before the oldest message. -/
def NotLapped (c : ℕ) (s : Session) (call : Call) : Prop :=
  ∀ fd, call = .flush fd wholeWrites → fd ∈ s.registered →
    s.lag fd < c ∨ s.queued.length ≤ s.lag fd % c

/-- The client has seen the messages before its mark, and of these it was sent all that are
still in the queue. -/
structure Seen (c : ℕ) (s : Session) (cl : MQClient) : Prop where
  le : s.mark cl.fd ≤ s.accepted.length
  roff : cl.roff = (s.mark cl.fd % c : ℕ)
  before : ∀ p ∈ s.delivered cl.fd, p.1 < s.mark cl.fd
  sent : ∀ p ∈ numbered s.dequeued s.queued, p.1 < s.mark cl.fd → p ∈ s.delivered cl.fd

structure Reclaimed (c : ℕ) (s : Session) : Prop where
  stored : Stored c s
  filled : s.accepted ≠ [] → 1 ≤ s.queued.length ∧ s.queued.length < c
  distinct : s.registered.Nodup
  seen : ∀ cl ∈ s.mq.clients, Seen c s cl

theorem reclaimed_fresh (hc : CapacityOk c) : Reclaimed c (fresh c) where
  stored := stored_fresh hc
  filled h := absurd rfl h
  distinct := List.nodup_nil
  seen _ h := by simp [fresh, MessageQueue.fresh] at h

/-- When what was delivered is what is numbered below `R`, the rest is a last part of the
queue. -/
theorem filter_undelivered {D : List (ℕ × Bytes)} (hbefore : ∀ p ∈ D, p.1 < R)
    (hsent : ∀ p ∈ numbered S L, p.1 < R → p ∈ D) :
    (numbered S L).filter (fun p => p ∉ D) = (numbered S L).drop (R - S) := by
  induction L generalizing S with
  | nil => simp [numbered]
  | cons m L ih =>
    rw [numbered_cons] at hsent ⊢
    have hrest := ih fun p hp => hsent p (List.mem_cons_of_mem _ hp)
    by_cases hS : S < R
    · have hmem : (S, m) ∈ D := hsent _ List.mem_cons_self hS
      rw [List.filter_cons_of_neg (by simpa using hmem), hrest,
        show R - S = R - (S + 1) + 1 by omega, List.drop_succ_cons]
    · have hmem : (S, m) ∉ D := fun h => hS (hbefore _ h)
      rw [List.filter_cons_of_pos (by simpa using hmem), hrest, show R - S = 0 by omega,
        show R - (S + 1) = 0 by omega, List.drop_zero, List.drop_zero]

theorem Seen.unsent_eq (hc : CapacityOk c) (hs : Stored c s) {cl : MQClient}
    (h : Seen c s cl) :
    s.unsent cl.fd = (numbered s.dequeued s.queued).drop (s.mark cl.fd - s.dequeued) := by
  rw [unsent, contents_eq hc hs.holds, filter_undelivered h.before h.sent]

/-- The walk from a mark to `end` covers what is past the mark unless it was shortened by
whole laps to less than the queue. -/
theorem drop_lagSlots_iff (hL : L.length < c) (hR : R ≤ S + L.length) :
    (numbered S L).drop (L.length - lagSlots c S L R) = (numbered S L).drop (R - S) ↔
      S + L.length - R < c ∨ L.length ≤ (S + L.length - R) % c := by
  have hd : lagSlots c S L R < c := Nat.mod_lt _ (Nat.zero_lt_of_lt hL)
  have hiff : (numbered S L).drop (L.length - lagSlots c S L R) = (numbered S L).drop (R - S) ↔
      L.length - lagSlots c S L R = R - S := by
    constructor
    · intro he
      have hlen := congrArg List.length he
      simp only [List.length_drop, length_numbered] at hlen
      omega
    · intro he
      rw [he]
  rw [hiff]
  by_cases hlap : S + L.length - R < c
  · have hmod : lagSlots c S L R = S + L.length - R := Nat.mod_eq_of_lt hlap
    omega
  · change _ ↔ _ ∨ L.length ≤ lagSlots c S L R
    omega

/-- What the flush of a registered client does to its record, all writes succeeding. -/
theorem Reclaimed.flush_sends (hc : CapacityOk c) (h : Reclaimed c s) {cl : MQClient}
    (hmem : cl ∈ s.mq.clients) {run : FlushRun}
    (hrun : s.mq.flushClientMessages cl wholeWrites = .ok run) :
    run.ret = 0 ∧ run.roff = (s.accepted.length % c : ℕ) ∧
      (successes run.writes).map (fun p => (s.number p.1, p.2)) =
        (numbered s.dequeued s.queued).drop
          (s.queued.length - lagSlots c s.dequeued s.queued (s.mark cl.fd)) := by
  have hseen := h.seen cl hmem
  obtain rfl := h.stored.flushRun_eq hc hrun hseen.le hseen.roff
  obtain ⟨hnone, hsucc⟩ := offer_all wholeWrites_nonneg 0
    (pending c s.dequeued s.queued (s.mark cl.fd))
  refine ⟨?_, ?_, ?_⟩
  · simp only [flushRun, hnone]
  · simp only [flushRun, hnone, h.stored.holds.end_eq, h.stored.length_queued]
  · rw [flushRun_writes, hsucc, ← entries_numbered h.stored.holds, ← List.map_drop, List.map_map]
    rfl

theorem Reclaimed.length_lt (hc : CapacityOk c) (h : Reclaimed c s) : s.queued.length < c := by
  have hpos := hc.pos
  by_cases hA : s.accepted = []
  · rw [queued, hA, List.drop_nil]
    exact hpos
  · exact (h.filled hA).2

theorem Reclaimed.accepted_nil (h : Reclaimed c s) (hL : s.queued = []) : s.accepted = [] := by
  by_contra hA
  have := (h.filled hA).1
  rw [hL] at this
  cases this

/-- A flush with whole writes sends what is unsent exactly when the client is not lapped. -/
theorem Reclaimed.sends_iff (hc : CapacityOk c) (h : Reclaimed c s) {fd : ℤ}
    (hfd : fd ∈ s.registered) :
    (∃ s', s.step (.flush fd wholeWrites) = .ok (.code 0, s') ∧
        s'.delivered fd = s.delivered fd ++ s.unsent fd) ↔
      s.lag fd < c ∨ s.queued.length ≤ s.lag fd % c := by
  obtain ⟨reply, s', hstep, he⟩ := h.stored.step_flush hc fd wholeWrites
  cases he with
  | unchanged _ hne => exact absurd rfl (hne _ _)
  | removed _ hne => exact absurd rfl (hne _ _)
  | idle fd write hrc =>
    obtain ⟨rfl, hL⟩ := hrc hfd
    have hlag : s.lag fd = 0 := by rw [lag, h.accepted_nil hL, List.length_nil, Nat.zero_sub]
    have hunsent : s.unsent fd = [] := by
      rw [unsent, contents_eq hc h.stored.holds, hL]
      rfl
    have hpos := hc.pos
    refine iff_of_true ⟨_, hstep, ?_⟩ (.inl (by omega))
    simp [flushed, successes, hunsent]
  | @flushed write cl run hmem hL hrun =>
    have hseen := h.seen cl hmem
    obtain ⟨hret, -, hsent⟩ := h.flush_sends hc hmem hrun
    have hR : s.mark cl.fd ≤ s.dequeued + s.queued.length := h.stored.length_queued ▸ hseen.le
    have hiff := drop_lagSlots_iff (L := s.queued) (h.length_lt hc) hR
    rw [← hsent, ← hseen.unsent_eq hc h.stored, h.stored.length_queued] at hiff
    rw [hret] at hstep
    constructor
    · rintro ⟨s'', hs'', hdel⟩
      rw [hstep] at hs''
      obtain ⟨-, rfl⟩ := Prod.mk.inj (Except.ok.inj hs'')
      simp only [Session.flushed, Function.update_self] at hdel
      exact hiff.mp (List.append_cancel_left hdel)
    · intro hlag
      refine ⟨_, hstep, ?_⟩
      simp only [Session.flushed, Function.update_self, hiff.mpr hlag]

/-- A client keeps what it has seen when its fd keeps its record. -/
theorem Seen.frame {cl : MQClient} (h : Seen c s cl) (hle : s.accepted.length ≤ s'.accepted.length)
    (hmark : s'.mark cl.fd = s.mark cl.fd) (hdel : s'.delivered cl.fd = s.delivered cl.fd)
    (hmem : ∀ p ∈ numbered s'.dequeued s'.queued, p.1 < s.mark cl.fd →
      p ∈ numbered s.dequeued s.queued) : Seen c s' cl where
  le := by rw [hmark]; exact h.le.trans hle
  roff := by rw [hmark]; exact h.roff
  before := by rw [hmark, hdel]; exact h.before
  sent p hp hlt := by
    rw [hmark] at hlt
    rw [hdel]
    exact h.sent p (hmem p hp hlt) hlt

/-- A client that was not lapped has been sent the whole queue after its flush. -/
theorem Seen.flushed (hc : CapacityOk c) (h : Reclaimed c s) {cl : MQClient}
    (hmem : cl ∈ s.mq.clients) (hlag : s.lag cl.fd < c ∨ s.queued.length ≤ s.lag cl.fd % c)
    {run : FlushRun} (hrun : s.mq.flushClientMessages cl wholeWrites = .ok run)
    (mq : MessageQueue) :
    Seen c (s.flushed cl.fd run.ret run.writes mq) ⟨cl.fd, run.roff⟩ := by
  have hseen := h.seen cl hmem
  obtain ⟨hret, hroff, hsent⟩ := h.flush_sends hc hmem hrun
  have hlen := h.stored.length_queued
  have hmark : (s.flushed cl.fd run.ret run.writes mq).mark cl.fd = s.accepted.length := by
    simp [Session.flushed, hret]
  have hdel : (s.flushed cl.fd run.ret run.writes mq).delivered cl.fd =
      s.delivered cl.fd ++ s.unsent cl.fd := by
    have hR : s.mark cl.fd ≤ s.dequeued + s.queued.length := hlen ▸ hseen.le
    have hall := (drop_lagSlots_iff (L := s.queued) (h.length_lt hc) hR).mpr
      (by rw [hlen]; exact hlag)
    rw [hseen.unsent_eq hc h.stored, ← hall, ← hsent]
    simp only [Session.flushed, Function.update_self]
  have hcontents : s.contents = s.queued := contents_eq hc h.stored.holds
  constructor
  · rw [hmark]
    exact Nat.le_refl _
  · rw [hmark]
    exact hroff
  · intro p hp
    rw [hmark]
    rw [hdel, List.mem_append, unsent, hcontents] at hp
    rcases hp with hp | hp
    · exact (hseen.before p hp).trans_le hseen.le
    · have := (mem_numbered (List.mem_of_mem_filter hp)).2
      omega
  · intro p hp _
    rw [hdel, List.mem_append]
    by_cases hold : p ∈ s.delivered cl.fd
    · exact .inl hold
    · refine .inr (List.mem_filter.mpr ⟨?_, by simpa using hold⟩)
      rw [hcontents]
      exact hp

theorem ReclaimStep.seen (hc : CapacityOk c) (h : Reclaimed c s) {call : Call}
    (hstep : ReclaimStep c s call s') (hlap : NotLapped c s call) {reply : Reply}
    (he : Effect c s call reply s') : ∀ cl ∈ s'.mq.clients, Seen c s' cl := by
  cases he with
  | unchanged => exact h.seen
  | accepted msg alloc hroom hmq hcl =>
    intro cl hmem
    have hseen := h.seen cl (hcl ▸ hmem)
    refine hseen.frame (by simp) rfl rfl fun p hp hlt => ?_
    have hnew : p ∈ numbered s.dequeued s.queued ++
        [(s.dequeued + s.queued.length, msg)] := by
      rw [← numbered_concat, ← h.stored.queued_concat]
      exact hp
    rcases List.mem_append.mp hnew with hp | hp
    · exact hp
    · have hle := hseen.le
      have hlen := h.stored.length_queued
      rw [List.mem_singleton.mp hp] at hlt
      omega
  | @dequeued alloc msg rest mq hL hmq hcl =>
    intro cl hmem
    refine (h.seen cl (hcl ▸ hmem)).frame (Nat.le_refl _) rfl rfl fun p hp _ => ?_
    rw [hL, numbered_cons]
    simp only [queued, queued_tail hL] at hp
    exact List.mem_cons_of_mem _ hp
  | registered fd alloc hroff =>
    intro cl hmem
    rcases List.mem_cons.mp hmem with rfl | hmem
    · constructor
      · simpa using h.stored.le
      · simp only [Function.update_self, hroff]
        split_ifs with hL
        · have hle := h.stored.le
          rw [h.accepted_nil hL, List.length_nil, Nat.le_zero] at hle
          rw [hle, Nat.zero_mod]
          rfl
        · rfl
      · simp
      · intro p hp hlt
        simp only [Function.update_self] at hlt
        exact absurd hlt (Nat.not_lt.mpr (mem_numbered hp).1)
    · have hne : cl.fd ≠ fd := fun he =>
        hstep.once fd alloc rfl (he ▸ List.mem_map_of_mem hmem)
      exact (h.seen cl hmem).frame (Nat.le_refl _) (Function.update_of_ne hne _ _)
        (Function.update_of_ne hne _ _) fun p hp _ => hp
  | removed reply hne hsub =>
    intro cl hmem
    exact (h.seen cl (hsub.subset hmem)).frame (Nat.le_refl _) rfl rfl fun p hp _ => hp
  | @idle fd write rc hrc =>
    intro cl hmem
    have hseen := h.seen cl hmem
    by_cases hfd : cl.fd = fd
    · obtain ⟨rfl, hL⟩ := hrc (hfd ▸ List.mem_map_of_mem hmem)
      have hA := h.accepted_nil hL
      have hle := hseen.le
      rw [hA, List.length_nil, Nat.le_zero] at hle
      refine hseen.frame (Nat.le_refl _) ?_ ?_ fun p hp _ => hp
      · simp [flushed, hA, hfd, ← hle]
      · simp [flushed, successes]
    · obtain ⟨hdel, -, hmark⟩ := flushed_of_ne s hfd rc [] s.mq
      exact hseen.frame (Nat.le_refl _) hmark hdel fun p hp _ => hp
  | @flushed write cl run hmem hL hrun =>
    obtain rfl := hstep.writes cl.fd write rfl
    have hfd : cl.fd ∈ s.registered := List.mem_map_of_mem hmem
    intro cl' hmem'
    rcases mem_setRoff hmem' with ⟨hold, hne⟩ | rfl
    · obtain ⟨hdel, -, hmark⟩ := flushed_of_ne s (hne h.distinct) run.ret run.writes
        { s.mq with clients := setRoff cl.fd run.roff s.mq.clients }
      exact (h.seen cl' hold).frame (Nat.le_refl _) hmark hdel fun p hp _ => hp
    · exact Seen.flushed hc h hmem (hlap cl.fd rfl hfd) hrun _

theorem ReclaimStep.reclaimed (hc : CapacityOk c) (h : Reclaimed c s) {call : Call}
    (hlap : NotLapped c s call) (hstep : ReclaimStep c s call s') : Reclaimed c s' := by
  have hrefill (hL : s.queued = []) : s.dequeued % c = 0 := by
    have hle := h.stored.le
    rw [h.accepted_nil hL, List.length_nil, Nat.le_zero] at hle
    rw [hle, Nat.zero_mod]
  obtain ⟨reply, hs⟩ := hstep.returns
  have he := h.stored.effect hc hrefill hs
  have hstored := he.stored hc h.stored
  refine ⟨hstored, ?_, ?_, hstep.seen hc h hlap he⟩
  · rw [← hstored.holds.getLength_eq hc]
    exact hstep.filled
  · cases he with
    | unchanged => exact h.distinct
    | accepted msg alloc hroom hmq hcl => simpa only [registered, hcl] using h.distinct
    | dequeued alloc hL hmq hcl => simpa only [registered, hcl] using h.distinct
    | registered fd alloc hroff =>
      exact List.nodup_cons.mpr ⟨hstep.once fd alloc rfl, h.distinct⟩
    | removed reply hne hsub => exact h.distinct.sublist (hsub.map _)
    | idle => exact h.distinct
    | flushed => simpa [registered, Session.flushed] using h.distinct

/-- Along a run that reclaims slots, every flush writes exactly what is queued and unsent if
and only if no flush is of a client that was lapped. -/
theorem reclaimed_flush_iff (hc : CapacityOk c) (calls : List Call) :
    Along (ReclaimStep c) (fresh c) SendsUnsent calls ↔
      Along (ReclaimStep c) (fresh c) (NotLapped c) calls := by
  apply along_iff (I := Reclaimed c) (reclaimed_fresh hc)
  · intro s call s' h hlap hstep
    exact hstep.reclaimed hc h hlap
  · intro s call h
    constructor
    · intro hp fd hcall hfd
      subst hcall
      exact (h.sends_iff hc hfd).mp (hp fd rfl hfd)
    · intro hlap fd hcall hfd
      subst hcall
      exact (h.sends_iff hc hfd).mpr (hlap fd rfl hfd)

/-- Three slots and a client that lags by two messages, one of them dequeued. -/
theorem reclaimed_flush_iff_three :
    Along (ReclaimStep 3) (fresh 3) SendsUnsent [.registerClient 7 true, .q [97] true,
        .q [98] true, .dq true, .flush 7 wholeWrites] ↔
      Along (ReclaimStep 3) (fresh 3) (NotLapped 3) [.registerClient 7 true, .q [97] true,
        .q [98] true, .dq true, .flush 7 wholeWrites] :=
  reclaimed_flush_iff ⟨by decide, by decide⟩ _

/-- Three slots, three messages, the first of them dequeued: `end` is back at the offset of a
client that was sent nothing, and its flush writes neither of the two messages queued. -/
theorem lapped_client_not_sent :
    ¬ Along (ReclaimStep 3) (fresh 3) SendsUnsent [.registerClient 7 true, .q [97] true,
      .q [98] true, .dq true, .q [99] true, .flush 7 wholeWrites] := by
  intro h
  have hrun : Run (ReclaimStep 3) (fresh 3) ([] ++ [.registerClient 7 true] ++ [.q [97] true] ++
      [.q [98] true] ++ [.dq true] ++ [.q [99] true]) _ :=
    .snoc (.snoc (.snoc (.snoc (.snoc .nil
      ⟨⟨_, rfl⟩, by decide, nofun, fun _ _ h => by cases h; decide, nofun⟩)
      ⟨⟨_, rfl⟩, by decide, nofun, nofun, nofun⟩) ⟨⟨_, rfl⟩, by decide, nofun, nofun, nofun⟩)
      ⟨⟨_, rfl⟩, by decide, nofun, nofun, nofun⟩) ⟨⟨_, rfl⟩, by decide, nofun, nofun, nofun⟩
  obtain ⟨s', hs', hdel⟩ := h _ (.flush 7 wholeWrites) [] _ rfl hrun 7 rfl List.mem_cons_self
  cases hs'
  exact absurd hdel (by decide)

end SysExploration.Session
