import SysExploration.Server.Accepting
import SysExploration.Server.FdTable

/-! The walk over the table of watched descriptors after `ppoll` returned. The handler of a
client that is closed moves the last entry of the table into a place the walk has passed. -/
namespace SysExploration
open MessageQueue

variable {event : Pollfd} {w w' : World} {k : Kernel} {rv : ℤ}

/-- The event is handled by closing its client: `read` fails or meets the end of the file, or
there is nothing to read and the client hung up. -/
def Closes (event : Pollfd) (k : Kernel) : Prop :=
  if event.reports pollin then
    match k.read with
    | .error => True
    | .bytes readbuf => readbuf.val = []
  else event.reports (pollhup ||| pollrdhup) = true

theorem MessageQueue.q_clients {mq mq' : MessageQueue} {msg : Bytes} {alloc : Bool} {rc : ℤ}
    (h : mq.q msg alloc = .ok (rc, mq')) : mq'.clients = mq.clients := by
  by_cases hfull : mq.end_ = mq.start
  · rw [q, if_pos hfull] at h
    cases h
    rfl
  by_cases hlong : maxMessageLength < msg.length
  · rw [q_tooLong hfull hlong] at h
    cases h
    rfl
  · rw [q, if_neg hfull, if_neg hlong] at h
    cases hnew : sdsnewlen msg alloc with
    | none =>
      simp only [hnew] at h
      cases h
      rfl
    | some message =>
      cases hstore : storeSlot mq.messages mq.end_ (some message) with
      | error e =>
        simp only [hnew, hstore] at h
        cases h
      | ok messages =>
        simp only [hnew, hstore] at h
        cases h
        rfl

theorem World.enqueued_ok {mqErr : ℤ} {mq : MessageQueue} (h : w.enqueued mqErr mq = .ok (rv, w')) :
    w' = { w with mq := mq } := by
  unfold enqueued at h
  split_ifs at h
  · cases h
    rfl
  · cases h
    rfl

theorem handleClientEvent_closes (h : Closes event k) :
    handleClientEvent event w k = .ok (0, w.removeClient event.fd) := by
  unfold Closes at h
  unfold handleClientEvent
  split_ifs at h ⊢ with hin
  · cases hread : k.read with
    | error => rfl
    | bytes readbuf =>
      simp only [hread] at h
      exact if_pos h
  · rfl

/-- A client that is not closed stays watched, and at most the client list shrinks. -/
theorem handleClientEvent_keeps (hnot : ¬ Closes event k)
    (h : handleClientEvent event w k = .ok (rv, w')) :
    w'.fdstate = w.fdstate ∧ w'.opened = w.opened ∧ w'.mq.clients.Sublist w.mq.clients := by
  unfold Closes at hnot
  unfold handleClientEvent at h
  split_ifs at h hnot with hin
  · cases hread : k.read with
    | error => simp [hread] at hnot
    | bytes readbuf =>
      simp only [hread] at h hnot
      simp only [if_neg hnot] at h
      cases hq : w.mq.q readbuf.val k.alloc with
      | error e =>
        simp only [hq] at h
        cases h
      | ok p =>
        have hclients : p.2.clients = w.mq.clients := q_clients hq
        simp only [hq, bind, Except.bind] at h
        split_ifs at h with hnull hfull
        · cases h
          exact ⟨rfl, rfl, hclients ▸ List.Sublist.refl _⟩
        · obtain ⟨clients, hsub, heq⟩ := dropSlowConsumers_eq p.2
          cases hq' : p.2.dropSlowConsumers.q readbuf.val k.allocAgain with
          | error e =>
            simp only [hq'] at h
            cases h
          | ok p' =>
            have hclients' : p'.2.clients.Sublist w.mq.clients := by
              rw [q_clients hq', heq, ← hclients]
              exact hsub
            simp only [hq'] at h
            split_ifs at h with hagain
            · cases h
              exact ⟨rfl, rfl, hclients'⟩
            · obtain rfl := World.enqueued_ok h
              exact ⟨rfl, rfl, hclients'⟩
        · obtain rfl := World.enqueued_ok h
          exact ⟨rfl, rfl, hclients ▸ List.Sublist.refl _⟩
  · cases h
    exact ⟨rfl, rfl, .refl _⟩

namespace Server

variable {s s' : Server} {p p' : Server × List Pollfd} {ks : List Kernel}

/-- The calls of the event loop, each with what the kernel answered and where it leads. -/
inductive Move (s : Server) (k : Kernel) : Server → Prop
  | failed : s.phase = .polling → Move s k { s with phase := .stopped }
  | polled {revents : ℕ → BitVec 16} : s.phase = .polling → k.ppoll = some revents →
      Move s k { s with fdstate := s.fdstate.poll revents, phase := .serverEvent }
  | server {event : Pollfd} {fds : List Pollfd} {phase : Phase} : s.phase = .serverEvent →
      s.fdstate.fds = event :: fds → phase = .stopped ∨ phase = .clientEvents 1 →
      Move s k ⟨(handleServerEvent event s.toWorld k).2, phase⟩
  | client {i : ℕ} {event : Pollfd} {rv : ℤ} {w : World} : s.phase = .clientEvents i →
      s.fdstate.fds[i]? = some event → handleClientEvent event s.toWorld k = .ok (rv, w) →
      Move s k ⟨w, .clientEvents (i + 1)⟩
  | walked {i : ℕ} : s.phase = .clientEvents i → s.fdstate.fds[i]? = none →
      Move s k { s with phase := .flushes 1 }
  | flushed {i : ℕ} {event : Pollfd} {rc : ℤ} {writes : List Write} {mq : MessageQueue} :
      s.phase = .flushes i → s.mq.flush event.fd k.write = .ok (rc, writes, mq) →
      Move s k { s with mq := mq, phase := .flushes (i + 1) }
  | drained {i : ℕ} : s.phase = .flushes i → Move s k { s with phase := .polling }
  | stopped : s.phase = .stopped → Move s k s

theorem Steps.move (h : s.Steps k s') : s.Move k s' := by
  unfold Steps at h
  cases hphase : s.phase with
  | polling =>
    cases hpoll : k.ppoll with
    | none =>
      simp only [step, hphase, hpoll] at h
      cases h
      exact .failed hphase
    | some revents =>
      simp only [step, hphase, hpoll] at h
      cases h
      exact .polled hphase hpoll
  | serverEvent =>
    cases hfds : s.fdstate.fds with
    | nil =>
      simp only [step, hphase, hfds] at h
      cases h
    | cons event fds =>
      simp only [step, hphase, hfds] at h
      cases h
      apply Move.server hphase hfds
      split_ifs
      · exact .inl rfl
      · exact .inr rfl
  | clientEvents i =>
    cases hi : s.fdstate.fds[i]? with
    | none =>
      simp only [step, hphase, hi] at h
      cases h
      exact .walked hphase hi
    | some event =>
      cases hhandle : handleClientEvent event s.toWorld k with
      | error e =>
        simp only [step, hphase, hi, hhandle] at h
        cases h
      | ok r =>
        simp only [step, hphase, hi, hhandle] at h
        cases h
        exact .client hphase hi hhandle
  | flushes i =>
    cases hi : s.fdstate.fds[i]? with
    | none =>
      simp only [step, hphase, hi] at h
      cases h
      exact .drained hphase
    | some event =>
      cases hflush : s.mq.flush event.fd k.write with
      | error e =>
        simp only [step, hphase, hi, hflush] at h
        cases h
      | ok r =>
        simp only [step, hphase, hi, hflush] at h
        cases h
        exact .flushed hphase hflush
  | stopped =>
    simp only [step, hphase] at h
    cases h
    exact .stopped hphase

/-- The entry the next call of the walk over the clients is made for. -/
def handling (s : Server) : List Pollfd :=
  match s.phase with
  | .clientEvents i => s.fdstate.fds[i]?.toList
  | _ => []

/-- A step of the round that began when `ppoll` returned, with the list of the entries that
were passed to `handle_client_event` since. -/
def RoundStep (p : Server × List Pollfd) (k : Kernel) (p' : Server × List Pollfd) : Prop :=
  p.1.phase ≠ .polling ∧ p.1.step k = .ok p'.1 ∧ p'.2 = p.2 ++ p.1.handling

/-- The entries the round still has in front of it. -/
def ahead (s : Server) : List Pollfd :=
  match s.phase with
  | .clientEvents i => s.fdstate.fds.drop i
  | .serverEvent | .stopped => s.fdstate.fds.drop 1
  | _ => []

/-- The entry moved into the place of a closed client is one that has been handled, or nothing
was reported for it. -/
def SkipsNone (p : Server × List Pollfd) (k : Kernel) : Prop :=
  ∀ i event last, p.1.phase = .clientEvents i → p.1.fdstate.fds[i]? = some event →
    Closes event k → i + 1 < p.1.fdstate.fds.length → p.1.fdstate.fds.getLast? = some last →
    last.revents = 0

/-- The entries with reported events that are handled in this round, or still ahead. -/
def tally (p : Server × List Pollfd) : List Pollfd :=
  (p.2 ++ p.1.ahead).filter (·.revents ≠ 0)

theorem roundStep_unique (p : Server × List Pollfd) (k : Kernel) (p' p'' : Server × List Pollfd)
    (h : RoundStep p k p') (h' : RoundStep p k p'') : p' = p'' := by
  obtain ⟨-, hstep, hlog⟩ := h
  obtain ⟨-, hstep', hlog'⟩ := h'
  exact Prod.ext (Except.ok.inj (hstep.symm.trans hstep')) (hlog.trans hlog'.symm)

/-- A client that may be watched behind the table has no reported events. -/
theorem filter_watch (state : Fds) (fd : ℤ) (hne : state.fds ≠ []) :
    ((state.watch fd).2.fds.drop 1).filter (·.revents ≠ 0) =
      (state.fds.drop 1).filter (·.revents ≠ 0) := by
  rcases state.watch_cases fd with heq | heq
  · rw [heq]
  · have hlen : 1 ≤ state.fds.length := List.length_pos_iff.mpr hne
    rw [heq, List.drop_append_of_le_length hlen, List.filter_append]
    simp

theorem tally_handled {i : ℕ} {event : Pollfd} (hphase : p.1.phase = .clientEvents i)
    (hi : p.1.fdstate.fds[i]? = some event) :
    tally p = (p.2 ++ event :: p.1.fdstate.fds.drop (i + 1)).filter (·.revents ≠ 0) := by
  obtain ⟨hlt, rfl⟩ := List.getElem?_eq_some_iff.mp hi
  simp only [tally, ahead, hphase]
  rw [List.drop_eq_getElem_cons hlt]

/-- What the call for an entry does to the tally: if it closes the client it takes the last
entry ahead away. -/
theorem RoundStep.tally_client {i : ℕ} {event : Pollfd} (h : RoundStep p k p')
    (hphase : p.1.phase = .clientEvents i) (hi : p.1.fdstate.fds[i]? = some event) :
    (Closes event k → tally p' =
      (p.2 ++ event :: (p.1.fdstate.fds.drop (i + 1)).dropLast).filter (·.revents ≠ 0)) ∧
      (¬ Closes event k → tally p' = tally p) := by
  obtain ⟨-, hstep, hlog⟩ := h
  simp only [handling, hphase, hi, Option.toList_some] at hlog
  constructor
  · intro hcloses
    simp only [step, hphase, hi, handleClientEvent_closes hcloses] at hstep
    have hs : p'.1 = ⟨p.1.removeClient event.fd, .clientEvents (i + 1)⟩ :=
      (Except.ok.inj hstep).symm
    simp only [tally, ahead, hs, hlog, World.removeClient, Fds.drop_unwatch hi,
      List.append_assoc, List.singleton_append]
  · intro hnot
    cases hhandle : handleClientEvent event p.1.toWorld k with
    | error e =>
      simp only [step, hphase, hi, hhandle] at hstep
      cases hstep
    | ok r =>
      obtain ⟨hfds, -⟩ := handleClientEvent_keeps hnot hhandle
      simp only [step, hphase, hi, hhandle] at hstep
      have hs : p'.1 = ⟨r.2, .clientEvents (i + 1)⟩ := (Except.ok.inj hstep).symm
      rw [tally_handled hphase hi]
      simp only [tally, ahead, hs, hlog, hfds, List.append_assoc, List.singleton_append]

/-- The other calls of the round do not change the tally. -/
theorem RoundStep.tally_eq (h : RoundStep p k p') (hidle : p.1.handling = []) :
    tally p' = tally p := by
  obtain ⟨hpolling, hstep, hlog⟩ := h
  obtain ⟨s', handled⟩ := p'
  rw [hidle, List.append_nil] at hlog
  subst hlog
  have hmove : p.1.Move k s' := Steps.move hstep
  unfold tally ahead
  cases hmove with
  | failed hphase => exact absurd hphase hpolling
  | polled hphase => exact absurd hphase hpolling
  | @server event fds phase hphase hfds hnext =>
    have hne : p.1.fdstate.fds ≠ [] := hfds ▸ List.cons_ne_nil event fds
    have hahead : ((handleServerEvent event p.1.toWorld k).2.fdstate.fds.drop 1).filter
        (·.revents ≠ 0) = (p.1.fdstate.fds.drop 1).filter (·.revents ≠ 0) := by
      have he := handleServerEvent_effect event p.1.toWorld k
      generalize handleServerEvent event p.1.toWorld k = r at he
      obtain ⟨rv, w⟩ := r
      cases he with
      | unchanged => rfl
      | notWatched => rfl
      | notRegistered => exact filter_watch _ _ hne
      | accepted => exact filter_watch _ _ hne
    rw [hphase, List.filter_append, List.filter_append]
    rcases hnext with rfl | rfl <;> exact congrArg _ hahead
  | client hphase hi => simp [handling, hphase, hi] at hidle
  | @walked i hphase hi =>
    have hnil : p.1.fdstate.fds.drop i = [] :=
      List.drop_eq_nil_of_le (List.getElem?_eq_none_iff.mp hi)
    simp only [hphase, hnil]
  | flushed hphase => rw [hphase]
  | drained hphase => rw [hphase]
  | stopped => rfl

/-- Closing the client of the last entry skips nothing. -/
theorem RoundStep.tally_closes_last (h : RoundStep p k p') {i : ℕ} {event : Pollfd}
    (hphase : p.1.phase = .clientEvents i) (hi : p.1.fdstate.fds[i]? = some event)
    (hclose : Closes event k) (hlast : p.1.fdstate.fds.length ≤ i + 1) : tally p' = tally p := by
  rw [(h.tally_client hphase hi).1 hclose, tally_handled hphase hi,
    List.drop_eq_nil_of_le hlast, List.dropLast_nil]

/-- Closing another client skips the last entry. -/
theorem RoundStep.tally_closes (h : RoundStep p k p') {i : ℕ} {event last : Pollfd}
    (hphase : p.1.phase = .clientEvents i) (hi : p.1.fdstate.fds[i]? = some event)
    (hclose : Closes event k) (hlt : i + 1 < p.1.fdstate.fds.length)
    (hlast : p.1.fdstate.fds.getLast? = some last) :
    tally p = tally p' ++ [last].filter (·.revents ≠ 0) := by
  have hrest : p.1.fdstate.fds.drop (i + 1) =
      (p.1.fdstate.fds.drop (i + 1)).dropLast ++ [last] := by
    have hlast' : (p.1.fdstate.fds.drop (i + 1)).getLast? = some last := by
      rw [List.getLast?_drop, if_neg (Nat.not_le.mpr hlt), hlast]
    exact (List.dropLast_append_getLast? last hlast').symm
  rw [(h.tally_client hphase hi).1 hclose, tally_handled hphase hi, hrest, List.dropLast_concat,
    ← List.filter_append, List.append_assoc, List.cons_append]

/-- A step of the round takes from the tally what it skips. -/
theorem RoundStep.tally_prefix (h : RoundStep p k p') :
    tally p' <+: tally p ∧ ((tally p').length = (tally p).length ↔ SkipsNone p k) := by
  have hsame (heq : tally p' = tally p) (hskips : SkipsNone p k) :
      tally p' <+: tally p ∧ ((tally p').length = (tally p).length ↔ SkipsNone p k) :=
    ⟨heq ▸ List.prefix_refl _, iff_of_true (congrArg List.length heq) hskips⟩
  by_cases hclients : ∃ i event, p.1.phase = .clientEvents i ∧ p.1.fdstate.fds[i]? = some event
  · obtain ⟨i, event, hphase, hi⟩ := hclients
    have hhere {j : ℕ} {event' : Pollfd} (hphase' : p.1.phase = .clientEvents j)
        (hj : p.1.fdstate.fds[j]? = some event') : i = j ∧ event = event' := by
      obtain rfl : i = j := by simpa [hphase] using hphase'
      exact ⟨rfl, Option.some.inj (hi.symm.trans hj)⟩
    by_cases hclose : Closes event k
    · by_cases hlt : i + 1 < p.1.fdstate.fds.length
      · have hne : p.1.fdstate.fds ≠ [] := List.ne_nil_of_length_pos (Nat.zero_lt_of_lt hlt)
        have hlast := List.getLast?_eq_some_getLast hne
        have htally := h.tally_closes hphase hi hclose hlt hlast
        refine ⟨htally ▸ List.prefix_append _ _, ?_⟩
        constructor
        · intro hlen j event' last' _ _ _ _ hlast'
          obtain rfl := Option.some.inj (hlast.symm.trans hlast')
          by_contra hne
          rw [htally, List.filter_cons_of_pos (by simpa using hne)] at hlen
          simp at hlen
        · intro hskips
          have hzero := hskips i event _ hphase hi hclose hlt hlast
          simp [htally, hzero]
      · apply hsame (h.tally_closes_last hphase hi hclose (Nat.not_lt.mp hlt))
        intro j event' last hphase' hj _ hlt'
        obtain ⟨rfl, rfl⟩ := hhere hphase' hj
        exact absurd hlt' hlt
    · apply hsame ((h.tally_client hphase hi).2 hclose)
      intro j event' last hphase' hj hclose'
      obtain ⟨rfl, rfl⟩ := hhere hphase' hj
      exact absurd hclose' hclose
  · apply hsame
    · apply h.tally_eq
      unfold handling
      cases hp : p.1.phase with
      | clientEvents i =>
        cases hi : p.1.fdstate.fds[i]? with
        | none => simp only [hi, Option.toList_none]
        | some event => exact absurd ⟨i, event, hp, hi⟩ hclients
      | _ => rfl
    · intro i event last hphase hi
      exact absurd ⟨i, event, hphase, hi⟩ hclients

/-- Between one `ppoll` and the next each client with reported events is handled once if and
only if every client that is closed frees its place for an entry that has been handled or has
no reported events. The table may hold any entries. -/
theorem reported_clients_handled_once_iff (hphase : s.phase = .serverEvent)
    {handled : List Pollfd} (hrun : Run RoundStep (s, []) ks (s', handled))
    (hround : s'.phase = .polling) :
    (∀ event, event.revents ≠ 0 → handled.count event = (s.fdstate.fds.drop 1).count event) ↔
      Along RoundStep (s, []) SkipsNone ks := by
  have hpre : tally (s', handled) <+: tally (s, []) :=
    hrun.invariant (I := fun p => tally p <+: tally (s, [])) (List.prefix_refl _)
      fun p k p' hp hstep => hstep.tally_prefix.1.trans hp
  have hend : tally (s', handled) = handled.filter (·.revents ≠ 0) := by
    simp [tally, ahead, hround]
  have hstart : tally (s, []) = (s.fdstate.fds.drop 1).filter (·.revents ≠ 0) := by
    simp [tally, ahead, hphase]
  have hcount (event : Pollfd) (l : List Pollfd) (hevent : event.revents ≠ 0) :
      (l.filter (·.revents ≠ 0)).count event = l.count event :=
    List.count_filter (by simpa using hevent)
  have hconstant := hrun.constant_iff (f := fun p => (tally p).length) roundStep_unique
    (fun p k p' hstep => hstep.tally_prefix.1.length_le)
    (fun p k p' hstep => hstep.tally_prefix.2)
  rw [hend, hstart] at hpre hconstant
  rw [← hconstant]
  constructor
  · intro h
    apply List.Perm.length_eq
    rw [List.perm_iff_count]
    intro event
    by_cases hevent : event.revents = 0
    · rw [List.count_eq_zero_of_not_mem (by simp [hevent]),
        List.count_eq_zero_of_not_mem (by simp [hevent])]
    · rw [hcount event _ hevent, hcount event _ hevent]
      exact h event hevent
  · intro hlen event hevent
    rw [← hcount event handled hevent, hpre.eq_of_length hlen, hcount event _ hevent]

/-- A round in which the first of two clients hangs up and the second one sends a byte. -/
def hangingUp : Kernel where
  ppoll := some fun i => if i = 1 then pollhup else if i = 2 then pollin else 0
  accept := -1
  read := .bytes ⟨[97], by simp [maxMessageLength]⟩
  write := Session.wholeWrites
  alloc := true
  allocAgain := true

/-- The step of a round, computed. -/
def roundStep (p : Server × List Pollfd) (k : Kernel) : Except Fault (Server × List Pollfd) :=
  if p.1.phase = .polling then .error .exit
  else (fun s => (s, p.2 ++ p.1.handling)) <$> p.1.step k

theorem roundStep_of_eq (h : roundStep p k = .ok p') : RoundStep p k p' := by
  unfold roundStep at h
  split_ifs at h with hphase
  cases hstep : p.1.step k with
  | error e =>
    rw [hstep] at h
    cases h
  | ok s =>
    rw [hstep] at h
    cases h
    exact ⟨hphase, hstep, rfl⟩

/-- Two clients are watched and `ppoll` returned with `hangingUp`. -/
def firstHangsUp : Server where
  fdstate := ⟨4, [⟨3, pollin ||| pollrdhup, 0⟩, ⟨7, pollin ||| pollrdhup, pollhup⟩,
    ⟨8, pollin ||| pollrdhup, pollin⟩]⟩
  mq := { fresh 2 with clients := [⟨8, 0⟩, ⟨7, 0⟩] }
  opened := [8, 7, 3]
  phase := .serverEvent

/-- The equivalence for the round in which the first of two clients hangs up. -/
theorem reported_clients_handled_once_iff_two :
    ∃ s' handled, Run RoundStep (firstHangsUp, []) (List.replicate 5 hangingUp) (s', handled) ∧
      ((∀ event, event.revents ≠ 0 →
          handled.count event = (firstHangsUp.fdstate.fds.drop 1).count event) ↔
        Along RoundStep (firstHangsUp, []) SkipsNone (List.replicate 5 hangingUp)) := by
  have hround : Run RoundStep (firstHangsUp, []) (List.replicate 5 hangingUp) (_, _) :=
    Run.of_foldlM (f := roundStep) rfl fun _ _ _ _ => roundStep_of_eq
  exact ⟨_, _, hround, reported_clients_handled_once_iff rfl hround rfl⟩

/-- The second client has sent a byte and the first one hangs up: the second entry is moved
into the place of the first, behind which the walk goes on, so it is not handled. -/
theorem moved_client_not_handled :
    ∃ ks s' handled, Run Steps (start 2 4 3) ks firstHangsUp ∧
      Run RoundStep (firstHangsUp, []) (List.replicate 5 hangingUp) (s', handled) ∧
      s'.phase = .polling ∧ ⟨8, pollin ||| pollrdhup, pollin⟩ ∈ firstHangsUp.fdstate.fds.drop 1 ∧
      ⟨8, pollin ||| pollrdhup, pollin⟩ ∉ handled := by
  have hrun : Run Steps (start 2 4 3) (List.replicate 6 accepting ++
      List.replicate 8 { accepting with accept := 8 } ++ [hangingUp]) firstHangsUp :=
    Run.of_foldlM (f := step) rfl fun _ _ _ _ h => h
  have hround : Run RoundStep (firstHangsUp, []) (List.replicate 5 hangingUp) (_, _) :=
    Run.of_foldlM (f := roundStep) rfl fun _ _ _ _ => roundStep_of_eq
  exact ⟨_, _, _, hrun, hround, rfl, by decide, by decide⟩

end Server
end SysExploration
