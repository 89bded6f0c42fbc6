import SysExploration.Library.Runs
import SysExploration.MessageQueue.Session
import SysExploration.Server.Model

/-! What the server does to its queue: a run of calls none of which is `dq`. The queue of
every reachable server is thus the queue of a session in which nothing leaves the ring. -/
namespace SysExploration

def QueueStep (mq : MessageQueue) (call : Call) (mq' : MessageQueue) : Prop :=
  (∀ alloc, call ≠ .dq alloc) ∧ mq.call call = .ok mq'

namespace Session

theorem exists_fillStep {s : Session} {call : Call} {mq : MessageQueue}
    (h : QueueStep s.mq call mq) : ∃ s', FillStep s call s' ∧ s'.mq = mq := by
  obtain ⟨hdq, hcall⟩ := h
  obtain ⟨reply, s', hs, hmq⟩ := exists_step hcall
  exact ⟨s', ⟨hdq, reply, hs⟩, hmq⟩

/-- Calls on the queue alone are calls in a session. -/
theorem exists_run {s : Session} {calls : List Call} {mq : MessageQueue}
    (h : Run QueueStep s.mq calls mq) : ∃ s', Run FillStep s calls s' ∧ s'.mq = mq := by
  apply h.simulates (R := fun (mq : MessageQueue) (s : Session) => s.mq = mq) rfl
  rintro _ s call mq' rfl hstep
  exact exists_fillStep hstep

end Session

open MessageQueue

variable {c : ℕ} {event : Pollfd} {w w' : World} {k : Kernel} {rv : ℤ}

theorem run_q {mq mq' : MessageQueue} {msg : Bytes} {alloc : Bool} {rc : ℤ}
    (h : mq.q msg alloc = .ok (rc, mq')) : Run QueueStep mq [.q msg alloc] mq' :=
  .single ⟨nofun, by rw [MessageQueue.call, h]; rfl⟩

theorem run_drop (mq : MessageQueue) :
    Run QueueStep mq [.dropSlowConsumers] mq.dropSlowConsumers := .single ⟨nofun, rfl⟩

theorem World.run_removeClient (w : World) (fd : ℤ) :
    Run QueueStep w.mq [.unregisterClient fd] (w.removeClient fd).mq := .single ⟨nofun, rfl⟩

/-- The event is handled by a `read` that returns data. -/
def Receives (event : Pollfd) (k : Kernel) : Prop :=
  event.reports pollin ∧ ∃ readbuf, k.read = .bytes readbuf ∧ readbuf.val ≠ []

/-- What the handler of a client does when the ring holds `L`. When the ring is full it gives
up on the message: dropping clients frees no slot. -/
inductive ClientEffect (c : ℕ) (L : List Bytes) (event : Pollfd) (w : World) (k : Kernel) :
    ℤ → World → Prop
  | unchanged : ¬ Receives event k → ClientEffect c L event w k 0 w
  | removed : ¬ Receives event k → ClientEffect c L event w k 0 (w.removeClient event.fd)
  | enqueued {readbuf : { b : Bytes // b.length ≤ maxMessageLength }} {mq : MessageQueue} :
      Receives event k → k.read = .bytes readbuf → L.length < c →
      w.mq.q readbuf.val true = .ok (0, mq) → mq.Holds c 0 (L ++ [readbuf.val]) →
      mq.clients = w.mq.clients → ClientEffect c L event w k 0 { w with mq := mq }
  | allocFailed : L.length < c → k.alloc = false → ClientEffect c L event w k (-3) w
  | dropped : Receives event k → L.length = c →
      ClientEffect c L event w k (-55) { w with mq := w.mq.dropSlowConsumers }

variable {L : List Bytes}

theorem handleClientEvent_effect (hc : CapacityOk c) (h : w.mq.Holds c 0 L) (event : Pollfd)
    (k : Kernel) :
    ∃ rv w', handleClientEvent event w k = .ok (rv, w') ∧ ClientEffect c L event w k rv w' := by
  unfold handleClientEvent
  by_cases hin : event.reports pollin
  · simp only [if_pos hin]
    cases hread : k.read with
    | error =>
      have hnot : ¬ Receives event k := by
        rintro ⟨-, readbuf, hbytes, -⟩
        rw [hread] at hbytes
        cases hbytes
      exact ⟨_, _, rfl, .removed hnot⟩
    | bytes readbuf =>
      by_cases hnil : readbuf.val = []
      · have hnot : ¬ Receives event k := by
          rintro ⟨-, readbuf', hbytes, hne⟩
          rw [hread] at hbytes
          cases hbytes
          exact hne hnil
        simp only [if_pos hnil]
        exact ⟨_, _, rfl, .removed hnot⟩
      · have hreceives : Receives event k := ⟨hin, readbuf, hread, hnil⟩
        simp only [if_neg hnil]
        by_cases hfull : L.length = c
        · obtain ⟨clients, -, heq⟩ := dropSlowConsumers_eq w.mq
          have hdrop : w.mq.dropSlowConsumers.Holds c 0 L := heq ▸ h.withClients clients
          simp only [h.q_full hc hfull]
          refine ⟨-55, _, ?_, .dropped hreceives hfull⟩
          simp only [bind, Except.bind, hdrop.q_full hc hfull]
          rfl
        · have hroom : L.length < c := lt_of_le_of_ne h.slots.bound hfull
          cases halloc : k.alloc with
          | false =>
            have hne : w.mq.end_ ≠ w.mq.start := mt (h.end_eq_start_iff hc).mp hfull
            simp only [q_allocFail hne readbuf.property]
            exact ⟨-3, w, rfl, .allocFailed hroom halloc⟩
          | true =>
            obtain ⟨mq, hq, hmq, hcl⟩ :=
              h.q_ok hc hroom readbuf.property fun _ => Nat.zero_mod c
            simp only [hq]
            exact ⟨0, _, rfl, .enqueued hreceives hread hroom hq hmq hcl⟩
  · have hnot : ¬ Receives event k := fun hr => hin hr.1
    simp only [if_neg hin]
    by_cases hhup : event.reports (pollhup ||| pollrdhup)
    · exact ⟨_, _, if_pos hhup, .removed hnot⟩
    · exact ⟨_, _, if_neg hhup, .unchanged hnot⟩

theorem ClientEffect.calls (h : ClientEffect c L event w k rv w') :
    ∃ calls, Run QueueStep w.mq calls w'.mq := by
  cases h with
  | unchanged => exact ⟨_, .nil⟩
  | removed => exact ⟨_, w.run_removeClient event.fd⟩
  | enqueued _ _ _ hq => exact ⟨_, run_q hq⟩
  | allocFailed => exact ⟨_, .nil⟩
  | dropped => exact ⟨_, run_drop w.mq⟩

/-- What the handler of the listening socket does: nothing, or it accepts a client, watches it
and registers it. -/
inductive ServerEffect (w : World) (k : Kernel) : ℤ → World → Prop
  | unchanged (rv : ℤ) : ServerEffect w k rv w
  | notWatched : (w.fdstate.watch k.accept).1 = -1 → ServerEffect w k (-2) (w.opening k.accept)
  | notRegistered : (w.fdstate.watch k.accept).1 ≠ -1 → k.alloc = false →
      ServerEffect w k (-3)
        { w.opening k.accept with fdstate := (w.fdstate.watch k.accept).2 }
  | accepted : (w.fdstate.watch k.accept).1 ≠ -1 → k.alloc = true →
      ServerEffect w k 0 { w.opening k.accept with
        fdstate := (w.fdstate.watch k.accept).2
        mq := (w.mq.registerClient k.accept true).2 }

theorem handleServerEvent_effect (event : Pollfd) (w : World) (k : Kernel) :
    ServerEffect w k (handleServerEvent event w k).1 (handleServerEvent event w k).2 := by
  unfold handleServerEvent
  by_cases herr : event.reports (pollerr ||| pollnval)
  · rw [if_pos herr]
    exact .unchanged _
  rw [if_neg herr]
  by_cases hin : event.reports pollin
  · rw [if_pos hin]
    by_cases hwatch : (w.fdstate.watch k.accept).1 = -1
    · simp only [if_pos hwatch]
      exact .notWatched hwatch
    · simp only [if_neg hwatch]
      cases halloc : k.alloc with
      | false => exact .notRegistered hwatch halloc
      | true => exact .accepted hwatch halloc
  · rw [if_neg hin]
    exact .unchanged _

theorem ServerEffect.calls (h : ServerEffect w k rv w') :
    ∃ calls, Run QueueStep w.mq calls w'.mq := by
  cases h with
  | unchanged => exact ⟨_, .nil⟩
  | notWatched => exact ⟨_, .nil⟩
  | notRegistered => exact ⟨_, .nil⟩
  | accepted => exact ⟨[.registerClient k.accept true], .single ⟨nofun, rfl⟩⟩

namespace Server

def Steps (s : Server) (k : Kernel) (s' : Server) : Prop := s.step k = .ok s'

/-- The effect of one step: of a handler, of a flush, or none on the tables. -/
inductive Effect (c : ℕ) (L : List Bytes) (s : Server) (k : Kernel) : Server → Prop
  | moved (phase : Phase) : (∀ i, phase ≠ .clientEvents i) →
      Effect c L s k { s with phase := phase }
  | polled (revents : ℕ → BitVec 16) :
      Effect c L s k { s with fdstate := s.fdstate.poll revents, phase := .serverEvent }
  | server {rv : ℤ} {w : World} : s.phase = .serverEvent → ServerEffect s.toWorld k rv w →
      Effect c L s k ⟨w, if rv = -1 then .stopped else .clientEvents 1⟩
  | client {event : Pollfd} {i : ℕ} {rv : ℤ} {w : World} : s.phase = .clientEvents i →
      s.fdstate.fds[i]? = some event → ClientEffect c L event s.toWorld k rv w →
      Effect c L s k ⟨w, .clientEvents (i + 1)⟩
  | flushed {event : Pollfd} {i : ℕ} {rc : ℤ} {writes : List Write} {mq : MessageQueue} :
      s.phase = .flushes i → s.mq.flush event.fd k.write = .ok (rc, writes, mq) →
      Effect c L s k { s with mq := mq, phase := .flushes (i + 1) }

theorem Effect.calls {s s' : Server} (h : Effect c L s k s') :
    ∃ calls, Run QueueStep s.mq calls s'.mq := by
  cases h with
  | moved => exact ⟨_, .nil⟩
  | polled => exact ⟨_, .nil⟩
  | server hphase he => exact he.calls
  | client hphase hfds he => exact he.calls
  | @flushed event i rc writes mq hphase hflush =>
    exact ⟨[.flush event.fd k.write], .single ⟨nofun, by rw [MessageQueue.call, hflush]; rfl⟩⟩

/-- A flush on an undrained ring returns. -/
theorem exists_flush {t : Session} (hc : CapacityOk c) (h : t.Undrained c) (fd : ℤ)
    (write : WriteOracle) : ∃ rc writes mq, t.mq.flush fd write = .ok (rc, writes, mq) := by
  obtain ⟨reply, t', hstep, -⟩ := h.toStored.step_flush hc fd write
  have hcall := t.step_mq (.flush fd write)
  rw [hstep] at hcall
  cases hflush : t.mq.flush fd write with
  | error e =>
    rw [MessageQueue.call, hflush] at hcall
    cases hcall
  | ok p => exact ⟨p.1, p.2.1, p.2.2, rfl⟩

/-- Every step returns, with one of the effects, as long as the listening socket is watched. -/
theorem step_effect (hc : CapacityOk c) {t : Session} (h : t.Undrained c) {s : Server}
    (hmq : t.mq = s.mq) (hfds : s.fdstate.fds ≠ []) (k : Kernel) :
    ∃ s', s.Steps k s' ∧ Effect c t.accepted s k s' := by
  cases hphase : s.phase with
  | polling =>
    cases hpoll : k.ppoll with
    | none => exact ⟨_, by simp only [Steps, step, hphase, hpoll], .moved .stopped nofun⟩
    | some revents => exact ⟨_, by simp only [Steps, step, hphase, hpoll], .polled revents⟩
  | serverEvent =>
    obtain ⟨event, fds, heq⟩ := List.exists_cons_of_ne_nil hfds
    exact ⟨_, by simp only [Steps, step, hphase, heq],
      .server hphase (handleServerEvent_effect event s.toWorld k)⟩
  | clientEvents i =>
    cases hi : s.fdstate.fds[i]? with
    | none => exact ⟨_, by simp only [Steps, step, hphase, hi], .moved (.flushes 1) nofun⟩
    | some event =>
      obtain ⟨rv, w, heq, he⟩ := handleClientEvent_effect hc (hmq ▸ h.holds_accepted) event k
      exact ⟨_, by simp only [Steps, step, hphase, hi, heq]; rfl, .client hphase hi he⟩
  | flushes i =>
    cases hi : s.fdstate.fds[i]? with
    | none => exact ⟨_, by simp only [Steps, step, hphase, hi], .moved .polling nofun⟩
    | some event =>
      obtain ⟨rc, writes, mq, hflush⟩ := exists_flush hc h event.fd k.write
      rw [hmq] at hflush
      exact ⟨_, by simp only [Steps, step, hphase, hi, hflush]; rfl, .flushed hphase hflush⟩
  | stopped => exact ⟨s, by simp only [Steps, step, hphase], .moved s.phase (by simp [hphase])⟩

theorem Steps.effect (hc : CapacityOk c) {t : Session} (h : t.Undrained c) {s s' : Server}
    (hmq : t.mq = s.mq) (hstep : s.Steps k s') : Effect c t.accepted s k s' := by
  by_cases hfds : s.fdstate.fds = []
  · unfold Steps at hstep
    cases hphase : s.phase with
    | polling =>
      cases hpoll : k.ppoll with
      | none =>
        simp only [step, hphase, hpoll] at hstep
        cases hstep
        exact .moved _ nofun
      | some revents =>
        simp only [step, hphase, hpoll] at hstep
        cases hstep
        exact .polled revents
    | serverEvent =>
      simp only [step, hphase, hfds] at hstep
      cases hstep
    | clientEvents i =>
      simp only [step, hphase, hfds, List.getElem?_nil] at hstep
      cases hstep
      exact .moved _ nofun
    | flushes i =>
      simp only [step, hphase, hfds, List.getElem?_nil] at hstep
      cases hstep
      exact .moved _ nofun
    | stopped =>
      simp only [step, hphase] at hstep
      cases hstep
      exact .moved s.phase (by simp [hphase])
  · obtain ⟨s'', hs'', he⟩ := step_effect hc h hmq hfds k
    obtain rfl := Except.ok.inj (hs''.symm.trans hstep)
    exact he

/-- The queue is the queue of a session in which nothing leaves the ring. -/
def Broadcasting (c : ℕ) (mq : MessageQueue) : Prop :=
  ∃ calls t, Run Session.FillStep (Session.fresh c) calls t ∧ t.mq = mq

theorem Broadcasting.undrained (hc : CapacityOk c) {mq : MessageQueue}
    (h : Broadcasting c mq) : ∃ t : Session, t.Undrained c ∧ t.mq = mq := by
  obtain ⟨calls, t, hrun, hmq⟩ := h
  exact ⟨t, hrun.invariant (Session.undrained_fresh hc)
    fun _ _ _ h hstep => hstep.undrained hc h, hmq⟩

theorem Effect.broadcasting {s s' : Server} (h : Broadcasting c s.mq) (he : Effect c L s k s') :
    Broadcasting c s'.mq := by
  obtain ⟨calls, t, hrun, hmq⟩ := h
  obtain ⟨calls', hrun'⟩ := he.calls
  rw [← hmq] at hrun'
  obtain ⟨t', hrun'', hmq'⟩ := Session.exists_run hrun'
  exact ⟨_, t', hrun.trans hrun'', hmq'⟩

/-- The server refines the session: its queue at any time is one that calls without `dq`
lead to. -/
theorem run_broadcasting (hc : CapacityOk c) {capacity : ℕ} {serverFd : ℤ} {ks : List Kernel}
    {s : Server} (h : Run Steps (start c capacity serverFd) ks s) : Broadcasting c s.mq :=
  h.invariant (I := fun s => Broadcasting c s.mq) ⟨[], _, .nil, rfl⟩ fun s k s' hb hstep => by
    obtain ⟨t, ht, hmq⟩ := hb.undrained hc
    exact (hstep.effect hc ht hmq).broadcasting hb

end Server
end SysExploration
