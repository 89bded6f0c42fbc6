import Mathlib.Logic.Function.Basic
import SysExploration.MessageQueue.Flush

/-! Runs of the queue together with what its clients have seen. The records beside the
queue are observations: no call reads them. -/
namespace SysExploration
open MessageQueue

/-- What the socket of a client sees: the writes made to it, and the ends of its flushes. -/
inductive SocketEvent where
  | write (w : Write)
  | returned (rc : ℤ)

/-- The queue and, for every fd, the record since its last registration. -/
structure Session where
  mq : MessageQueue
  /-- All messages `q` has returned 0 for, in order; message `j` is the `j`-th of them. -/
  accepted : List Bytes
  /-- How many messages `dq` has removed. -/
  dequeued : ℕ
  /-- The messages in the queue at registration and those accepted since. -/
  due : ℤ → List Bytes
  /-- The messages whose write did not fail, each with its number. -/
  delivered : ℤ → List (ℕ × Bytes)
  /-- What the socket saw since its fd was first registered; a second registration of the fd
  is one of the same socket. -/
  events : ℤ → List SocketEvent
  /-- The number of the first message past the last completed flush, or, before the first
  one, of the oldest message at registration. -/
  mark : ℤ → ℕ

namespace Session

def fresh (c : ℕ) : Session where
  mq := MessageQueue.fresh c
  accepted := []
  dequeued := 0
  due _ := []
  delivered _ := []
  events _ := []
  mark _ := 0

def contents (s : Session) : List Bytes := s.mq.contents

def registered (s : Session) : List ℤ := s.mq.clients.map MQClient.fd

/-- The number of the message in a slot: `dequeued` at `start`, counting cyclically. -/
def number (s : Session) (slot : ℤ) : ℕ :=
  s.dequeued + ((slot - s.mq.start) % s.mq.capacity).toNat

/-- A list of messages numbered from `S` on. -/
def numbered (S : ℕ) (L : List Bytes) : List (ℕ × Bytes) := L.mapIdx fun k m => (S + k, m)

end Session

/-- A call on the queue, with what the allocator and the kernel answer. -/
inductive Call where
  | q (msg : Bytes) (alloc : Bool)
  | dq (alloc : Bool)
  | registerClient (fd : ℤ) (alloc : Bool)
  | unregisterClient (fd : ℤ)
  | flush (fd : ℤ) (write : WriteOracle)
  | dropSlowConsumers

/-- The queue after a call, without the reply. -/
def MessageQueue.call (mq : MessageQueue) : Call → Except Fault MessageQueue
  | .q msg alloc => Prod.snd <$> mq.q msg alloc
  | .dq alloc => Prod.snd <$> mq.dq alloc
  | .registerClient fd alloc => .ok (mq.registerClient fd alloc).2
  | .unregisterClient fd => .ok (mq.unregisterClient fd).2
  | .flush fd write => (fun r => r.2.2) <$> mq.flush fd write
  | .dropSlowConsumers => .ok mq.dropSlowConsumers

namespace Session

/-- The kernel takes every message whole. -/
def wholeWrites : WriteOracle := fun _ msg => msg.length

theorem wholeWrites_nonneg : ∀ k msg, 0 ≤ wholeWrites k msg := fun _ _ => Int.natCast_nonneg _

/-- The state after a flush of `fd` that made these writes and returned `rc`. -/
def flushed (s : Session) (fd rc : ℤ) (writes : List Write) (mq : MessageQueue) : Session :=
  { s with
    mq := mq
    delivered := Function.update s.delivered fd (s.delivered fd ++
      (successes writes).map fun p => (s.number p.1, p.2))
    events := Function.update s.events fd (s.events fd ++ (writes.map .write ++ [.returned rc]))
    mark := if rc = 0 then Function.update s.mark fd s.accepted.length else s.mark }

/-- A flush of one fd leaves the records of the others alone. -/
@[simp] theorem flushed_of_ne (s : Session) {fd fd' : ℤ} (hne : fd' ≠ fd) (rc : ℤ)
    (writes : List Write) (mq : MessageQueue) :
    (s.flushed fd rc writes mq).delivered fd' = s.delivered fd' ∧
      (s.flushed fd rc writes mq).events fd' = s.events fd' ∧
      (s.flushed fd rc writes mq).mark fd' = s.mark fd' := by
  unfold flushed
  split_ifs <;> simp only [Function.update_of_ne hne, and_self]

/-- The call on the queue, and the record of its effect on the clients. -/
def step (s : Session) : Call → Except Fault (Reply × Session)
  | .q msg alloc => do
    let (rc, mq) ← s.mq.q msg alloc
    .ok (.code rc, if rc = 0 then
      { s with mq := mq, accepted := s.accepted ++ [msg], due := fun fd => s.due fd ++ [msg] }
      else { s with mq := mq })
  | .dq alloc => do
    let (message, mq) ← s.mq.dq alloc
    .ok (.string message,
      { s with mq := mq, dequeued := if message.isSome then s.dequeued + 1 else s.dequeued })
  | .registerClient fd alloc =>
    let (rc, mq) := s.mq.registerClient fd alloc
    .ok (.code rc, if rc = 0 then
      { s with
        mq := mq
        due := Function.update s.due fd s.contents
        delivered := Function.update s.delivered fd []
        events := if fd ∈ s.registered then s.events else Function.update s.events fd []
        mark := Function.update s.mark fd s.dequeued }
      else { s with mq := mq })
  | .unregisterClient fd =>
    let (rc, mq) := s.mq.unregisterClient fd
    .ok (.code rc, { s with mq := mq })
  | .flush fd write => do
    let (rc, writes, mq) ← s.mq.flush fd write
    .ok (.code rc, s.flushed fd rc writes mq)
  | .dropSlowConsumers => .ok (.void, { s with mq := s.mq.dropSlowConsumers })

variable {c S : ℕ} {L : List Bytes} {s s' : Session}

/-- A session does to its queue what the call does. -/
theorem step_mq (s : Session) (call : Call) :
    (fun r => r.2.mq) <$> s.step call = s.mq.call call := by
  cases call with
  | q msg alloc =>
    cases hq : s.mq.q msg alloc with
    | error e =>
      simp only [step, MessageQueue.call, hq]
      rfl
    | ok p =>
      simp only [step, MessageQueue.call, hq]
      change Except.ok (if p.1 = 0 then _ else _ : Session).mq = _
      split <;> rfl
  | dq alloc =>
    cases hdq : s.mq.dq alloc with
    | error e =>
      simp only [step, MessageQueue.call, hdq]
      rfl
    | ok p =>
      simp only [step, MessageQueue.call, hdq]
      rfl
  | registerClient fd alloc => cases alloc <;> rfl
  | unregisterClient fd => rfl
  | flush fd write =>
    cases hflush : s.mq.flush fd write with
    | error e =>
      simp only [step, MessageQueue.call, hflush]
      rfl
    | ok p =>
      simp only [step, MessageQueue.call, hflush]
      rfl
  | dropSlowConsumers => rfl

theorem exists_step {call : Call} {mq : MessageQueue} (h : s.mq.call call = .ok mq) :
    ∃ reply s', s.step call = .ok (reply, s') ∧ s'.mq = mq := by
  rw [← step_mq] at h
  cases hs : s.step call with
  | error e =>
    rw [hs] at h
    cases h
  | ok p =>
    rw [hs] at h
    exact ⟨p.1, p.2, rfl, Except.ok.inj h⟩

theorem contents_eq (hc : CapacityOk c) (h : s.mq.Holds c S L) : s.contents = L :=
  h.contents_eq hc

@[simp] theorem length_numbered : (numbered S L).length = L.length := by simp [numbered]

@[simp] theorem numbered_snd : (numbered S L).map Prod.snd = L :=
  List.ext_getElem (by simp) (by intros; simp [numbered])

theorem numbered_cons (m : Bytes) :
    numbered S (m :: L) = (S, m) :: numbered (S + 1) L := by
  simp [numbered, Nat.add_assoc, Nat.add_comm 1]

theorem numbered_concat (m : Bytes) :
    numbered S (L ++ [m]) = numbered S L ++ [(S + L.length, m)] := by simp [numbered]

theorem mem_numbered {p : ℕ × Bytes} (h : p ∈ numbered S L) : S ≤ p.1 ∧ p.1 < S + L.length := by
  obtain ⟨k, hk, rfl⟩ := List.mem_mapIdx.mp h
  exact ⟨Nat.le_add_right S k, Nat.add_lt_add_left hk S⟩

/-- The slots of the ring name the messages by their numbers. -/
theorem entries_numbered (h : s.mq.Holds c s.dequeued L) :
    (Ring.entries c s.dequeued L).map (fun p => (s.number (p.1 : ℤ), p.2)) =
      numbered s.dequeued L := by
  apply List.ext_getElem (by simp [numbered])
  intro k hk hk'
  have hkL : k < L.length := by simpa using hk'
  have hb := h.slots.bound
  have hstart := h.start_of_ne (List.ne_nil_of_length_pos (Nat.zero_lt_of_lt hkL))
  have hoff : ((k : ℤ) % (c : ℤ)).toNat = k := by
    rw [Int.emod_eq_of_lt] <;> omega
  simp [Ring.entries, numbered, number, hstart, h.capacity, hoff]

/-- The messages now in the queue. -/
def queued (s : Session) : List Bytes := s.accepted.drop s.dequeued

/-- The ring holds what was accepted and not dequeued, and every client's offset has seen
some number of slots, none past the last message. -/
structure Stored (c : ℕ) (s : Session) : Prop where
  holds : s.mq.Holds c s.dequeued s.queued
  le : s.dequeued ≤ s.accepted.length
  roff : ∀ cl ∈ s.mq.clients, ∃ R ≤ s.accepted.length, cl.roff = (R % c : ℕ)

theorem stored_fresh (hc : CapacityOk c) : Stored c (fresh c) where
  holds := holds_fresh hc
  le := Nat.le_refl _
  roff _ h := by simp [fresh, MessageQueue.fresh] at h

theorem Stored.length_queued (h : Stored c s) :
    s.dequeued + s.queued.length = s.accepted.length := by
  have := h.le
  rw [queued, List.length_drop]
  omega

theorem Stored.queued_concat (h : Stored c s) (msg : Bytes) :
    (s.accepted ++ [msg]).drop s.dequeued = s.queued ++ [msg] :=
  List.drop_append_of_le_length h.le

theorem queued_tail {msg : Bytes} (hL : s.queued = msg :: L) :
    s.accepted.drop (s.dequeued + 1) = L := by
  rw [← List.drop_drop, ← queued, hL]
  rfl

/-- What a call can do to the queue and to the records of its clients. -/
inductive Effect (c : ℕ) (s : Session) : Call → Reply → Session → Prop
  | unchanged {call : Call} (reply : Reply) : (∀ fd write, call ≠ .flush fd write) →
      Effect c s call reply s
  | accepted (msg : Bytes) (alloc : Bool) {mq : MessageQueue} : s.queued.length < c →
      mq.Holds c s.dequeued (s.queued ++ [msg]) → mq.clients = s.mq.clients →
      Effect c s (.q msg alloc) (.code 0) { s with
        mq := mq, accepted := s.accepted ++ [msg], due := fun fd => s.due fd ++ [msg] }
  | dequeued (alloc : Bool) {msg : Bytes} {rest : List Bytes} {mq : MessageQueue} :
      s.queued = msg :: rest → mq.Holds c (s.dequeued + 1) rest → mq.clients = s.mq.clients →
      Effect c s (.dq alloc) (.string msg) { s with mq := mq, dequeued := s.dequeued + 1 }
  | registered (fd : ℤ) (alloc : Bool) {roff : ℤ} :
      roff = (if s.queued = [] then 0 else ((s.dequeued % c : ℕ) : ℤ)) →
      Effect c s (.registerClient fd alloc) (.code 0) { s with
        mq := { s.mq with clients := ⟨fd, roff⟩ :: s.mq.clients }
        due := Function.update s.due fd s.contents
        delivered := Function.update s.delivered fd []
        events := if fd ∈ s.registered then s.events else Function.update s.events fd []
        mark := Function.update s.mark fd s.dequeued }
  | removed {call : Call} (reply : Reply) {clients : List MQClient} :
      (∀ fd write, call ≠ .flush fd write) → clients.Sublist s.mq.clients →
      Effect c s call reply { s with mq := { s.mq with clients := clients } }
  | idle (fd : ℤ) (write : WriteOracle) {rc : ℤ} :
      (fd ∈ s.registered → rc = 0 ∧ s.queued = []) →
      Effect c s (.flush fd write) (.code rc) (s.flushed fd rc [] s.mq)
  | flushed (write : WriteOracle) {cl : MQClient} {run : FlushRun} : cl ∈ s.mq.clients →
      s.queued ≠ [] → s.mq.flushClientMessages cl write = .ok run →
      Effect c s (.flush cl.fd write) (.code run.ret) (s.flushed cl.fd run.ret run.writes
        { s.mq with clients := setRoff cl.fd run.roff s.mq.clients })

/-- The run of a flush loop, from a client that has seen `R` slots. -/
theorem Stored.flushRun_eq (hc : CapacityOk c) (h : Stored c s) {cl : MQClient}
    {write : WriteOracle} {run : FlushRun} (hrun : s.mq.flushClientMessages cl write = .ok run)
    {R : ℕ} (hR : R ≤ s.accepted.length) (hroff : cl.roff = (R % c : ℕ)) :
    run = flushRun s.mq.end_ (offer write 0 (pending c s.dequeued s.queued R)) := by
  rw [h.holds.flushClientMessages_eq hc write (by rw [h.length_queued]; exact hR) hroff] at hrun
  exact (Except.ok.inj hrun).symm

theorem Stored.step_flush (hc : CapacityOk c) (h : Stored c s) (fd : ℤ) (write : WriteOracle) :
    ∃ reply s', s.step (.flush fd write) = .ok (reply, s') ∧
      Effect c s (.flush fd write) reply s' := by
  by_cases hfd : fd ∈ s.registered
  · by_cases hL : s.queued = []
    · refine ⟨_, _, ?_, .idle fd write fun _ => ⟨rfl, hL⟩⟩
      simp only [step, (hL ▸ h.holds).flush_nil hc]
      rfl
    · obtain ⟨cl, hfind, hmem, rfl⟩ := find_client hfd
      obtain ⟨R, hR, hroff⟩ := h.roff cl hmem
      have hrun := h.holds.flushClientMessages_eq hc write
        (by rw [h.length_queued]; exact hR) hroff
      refine ⟨_, _, ?_, .flushed write hmem hL hrun⟩
      simp only [step, h.holds.flush_eq hc hL hfind hrun]
      rfl
  · obtain ⟨rc, hflush⟩ := h.holds.flush_unregistered hc write hfd
    refine ⟨.code rc, _, ?_, .idle fd write fun hmem => absurd hmem hfd⟩
    simp only [step, hflush]
    rfl

/-- Every call returns, and what it does is one of the effects, as long as `q` does not
refill a drained ring away from slot 0. -/
theorem Stored.step (hc : CapacityOk c) (h : Stored c s) (call : Call)
    (hrefill : s.queued = [] → s.dequeued % c = 0) :
    ∃ reply s', s.step call = .ok (reply, s') ∧ Effect c s call reply s' := by
  cases call with
  | q msg alloc =>
    rcases h.holds.q_cases hc msg alloc hrefill with
      ⟨rc, hrc, hq⟩ | ⟨mq', hq, hroom, hmq', hcl⟩
    · refine ⟨_, _, ?_, .unchanged (.code rc) (by simp)⟩
      simp only [Session.step, hq]
      change Except.ok (_, if rc = 0 then _ else s) = _
      rw [if_neg hrc]
    · refine ⟨_, _, ?_, .accepted msg alloc hroom hmq' hcl⟩
      simp only [Session.step, hq]
      rfl
  | dq alloc =>
    rcases h.holds.dq_cases hc alloc with hdq | ⟨msg, rest, mq', hL, hdq, hmq', hcl⟩
    · refine ⟨_, _, ?_, .unchanged (.string none) (by simp)⟩
      simp only [Session.step, hdq]
      rfl
    · refine ⟨_, _, ?_, .dequeued alloc hL hmq' hcl⟩
      simp only [Session.step, hdq]
      rfl
  | registerClient fd alloc =>
    cases alloc with
    | false => exact ⟨_, _, rfl, .unchanged (.code (-1)) (by simp)⟩
    | true =>
      refine ⟨_, _, rfl, .registered fd true ?_⟩
      by_cases hL : s.queued = []
      · rw [h.holds.start_eq, if_pos hL, if_pos rfl, if_pos hL]
      · rw [if_neg (start_ne_sentinel (h.holds.start_of_ne hL)), h.holds.start_of_ne hL,
          if_neg hL]
  | unregisterClient fd =>
    obtain ⟨clients, hsub, heq⟩ := unregisterClient_eq s.mq fd
    refine ⟨.code (s.mq.unregisterClient fd).1,
      { s with mq := (s.mq.unregisterClient fd).2 }, rfl, ?_⟩
    rw [heq]
    exact .removed _ (by simp) hsub
  | flush fd write => exact h.step_flush hc fd write
  | dropSlowConsumers =>
    obtain ⟨clients, hsub, heq⟩ := dropSlowConsumers_eq s.mq
    refine ⟨.void, { s with mq := s.mq.dropSlowConsumers }, rfl, ?_⟩
    rw [heq]
    exact .removed _ (by simp) hsub

/-- A call that returned had one of the effects. -/
theorem Stored.effect (hc : CapacityOk c) (h : Stored c s) {call : Call} {reply : Reply}
    (hrefill : s.queued = [] → s.dequeued % c = 0) (hs : s.step call = .ok (reply, s')) :
    Effect c s call reply s' := by
  obtain ⟨reply', s'', hs', he⟩ := h.step hc call hrefill
  rw [hs] at hs'
  obtain ⟨rfl, rfl⟩ := Prod.mk.inj (Except.ok.inj hs')
  exact he

/-- The messages a flush adds to those delivered: a first part of the last ones of the
queue, cut before the message of the slot that is saved when a write fails. -/
theorem flush_delivers (h : s.mq.Holds c s.dequeued L) (write : WriteOracle) (R : ℕ) :
    let out := offer write 0 (pending c s.dequeued L R)
    let first := L.length - lagSlots c s.dequeued L R
    ∃ j, (successes out.1).map (fun p => (s.number p.1, p.2)) =
        ((numbered s.dequeued L).drop first).take j ∧
      (out.2 = none ∧ j = L.length - first ∨
        first + j < L.length ∧ out.2 = some ((s.dequeued + (first + j)) % c)) := by
  intro out first
  obtain ⟨j, -, hsucc, hout⟩ := offer_spec write 0 (pending c s.dequeued L R)
  refine ⟨j, ?_, ?_⟩
  · rw [← entries_numbered h, ← List.map_drop, ← List.map_take, hsucc, List.map_map]
    rfl
  · rcases hout with ⟨hnone, hj⟩ | ⟨hj, hsome⟩
    · exact .inl ⟨hnone, by simpa [pending, first] using hj⟩
    · have hlt : first + j < L.length := by
        simp only [pending, List.length_drop, Ring.length_entries] at hj
        omega
      refine .inr ⟨hlt, hsome.trans ?_⟩
      simp [pending, Ring.entries, first]

/-- Where a flush leaves the client: past the last message, or at one still in the queue. -/
theorem Stored.flushed_roff (h : Stored c s) (write : WriteOracle) (R : ℕ) :
    ∃ R' ≤ s.accepted.length, (flushRun s.mq.end_
      (offer write 0 (pending c s.dequeued s.queued R))).roff = (R' % c : ℕ) := by
  have hlen := h.length_queued
  obtain ⟨j, -, ⟨hnone, -⟩ | ⟨hlt, hsome⟩⟩ := flush_delivers h.holds write R
  · exact ⟨s.accepted.length, Nat.le_refl _, by simp only [flushRun, hnone, h.holds.end_eq, hlen]⟩
  · exact ⟨s.dequeued + (s.queued.length - lagSlots c s.dequeued s.queued R + j), by omega,
      by simp only [flushRun, hsome]⟩

/-- Every effect keeps the ring and the offsets in order. -/
theorem Effect.stored (hc : CapacityOk c) (h : Stored c s) {call : Call} {reply : Reply}
    (he : Effect c s call reply s') : Stored c s' := by
  cases he with
  | unchanged => exact h
  | accepted msg alloc hroom hmq hcl =>
    refine ⟨?_, by simp; have := h.le; omega, ?_⟩
    · simpa only [queued, h.queued_concat] using hmq
    · intro cl hmem
      obtain ⟨R, hR, hroff⟩ := h.roff cl (hcl ▸ hmem)
      exact ⟨R, by simp; omega, hroff⟩
  | @dequeued alloc msg rest mq hL hmq hcl =>
    have hlen := h.length_queued
    refine ⟨?_, ?_, fun cl hmem => h.roff cl (hcl ▸ hmem)⟩
    · simpa only [queued, queued_tail hL] using hmq
    · simp only [hL, List.length_cons] at hlen ⊢
      omega
  | registered fd alloc hroff =>
    refine ⟨h.holds.withClients _, h.le, ?_⟩
    intro cl hmem
    rcases List.mem_cons.mp hmem with rfl | hmem
    · by_cases hL : s.queued = []
      · exact ⟨0, Nat.zero_le _, by rw [hroff, if_pos hL, Nat.zero_mod]; rfl⟩
      · exact ⟨s.dequeued, h.le, by rw [hroff, if_neg hL]⟩
    · exact h.roff cl hmem
  | removed reply hcall hsub =>
    exact ⟨h.holds.withClients _, h.le, fun cl hmem => h.roff cl (hsub.subset hmem)⟩
  | idle => exact ⟨h.holds, h.le, h.roff⟩
  | flushed write hmem hL hrun =>
    obtain ⟨R, hR, hroff⟩ := h.roff _ hmem
    obtain ⟨R', hR', hroff'⟩ := h.flushed_roff write R
    rw [← h.flushRun_eq hc hrun hR hroff] at hroff'
    refine ⟨h.holds.withClients _, h.le, ?_⟩
    intro cl' hmem'
    rcases mem_setRoff hmem' with ⟨hold, -⟩ | rfl
    · exact h.roff cl' hold
    · exact ⟨R', hR', hroff'⟩

/-- A call other than `dq`, which returns. -/
def FillStep (s : Session) (call : Call) (s' : Session) : Prop :=
  (∀ alloc, call ≠ .dq alloc) ∧ ∃ reply, s.step call = .ok (reply, s')

/-- Without `dq` nothing leaves the ring: it holds all that was accepted, from slot 0 on. -/
structure Undrained (c : ℕ) (s : Session) : Prop extends Stored c s where
  dequeued : s.dequeued = 0

theorem undrained_fresh (hc : CapacityOk c) : Undrained c (fresh c) := ⟨stored_fresh hc, rfl⟩

theorem Undrained.queued_eq (h : Undrained c s) : s.queued = s.accepted := by
  rw [queued, h.dequeued, List.drop_zero]

theorem Undrained.holds_accepted (h : Undrained c s) : s.mq.Holds c 0 s.accepted := by
  rw [← h.queued_eq, ← h.dequeued]
  exact h.holds

theorem Undrained.refill (h : Undrained c s) (_ : s.queued = []) : s.dequeued % c = 0 := by
  rw [h.dequeued, Nat.zero_mod]

/-- Every call on an undrained ring returns, with one of the effects. -/
theorem Undrained.step (hc : CapacityOk c) (h : Undrained c s) (call : Call) :
    ∃ reply s', s.step call = .ok (reply, s') ∧ Effect c s call reply s' :=
  h.toStored.step hc call h.refill

theorem Effect.undrained (hc : CapacityOk c) (h : Undrained c s) {call : Call} {reply : Reply}
    (hdq : ∀ alloc, call ≠ .dq alloc) (he : Effect c s call reply s') : Undrained c s' := by
  refine ⟨he.stored hc h.toStored, ?_⟩
  cases he with
  | dequeued alloc => exact absurd rfl (hdq alloc)
  | _ => exact h.dequeued

theorem FillStep.effect (hc : CapacityOk c) (h : Undrained c s) {call : Call}
    (hstep : FillStep s call s') : ∃ reply, Effect c s call reply s' := by
  obtain ⟨-, reply, hs⟩ := hstep
  exact ⟨reply, h.toStored.effect hc h.refill hs⟩

theorem FillStep.undrained (hc : CapacityOk c) (h : Undrained c s) {call : Call}
    (hstep : FillStep s call s') : Undrained c s' := by
  obtain ⟨reply, he⟩ := hstep.effect hc h
  exact he.undrained hc h hstep.1

end Session
end SysExploration
