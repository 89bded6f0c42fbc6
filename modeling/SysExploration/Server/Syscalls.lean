import SysExploration.Server.Ingest

/-! The system calls the event loop makes, in order. A descriptor number is used again by the
kernel once it is closed, so that each call reaches the connection it is meant for depends on
what was closed before it. -/
namespace SysExploration
open MessageQueue

/-- A system call on a socket, with what it returned. -/
inductive Syscall where
  | accept (serverFd fd : ℤ)
  | read (fd : ℤ) (result : ReadResult)
  | write (fd : ℤ) (w : Write)
  | close (fd : ℤ)

/-- The calls of `handle_server_event`. -/
def serverCalls (event : Pollfd) (k : Kernel) : List Syscall :=
  if event.reports (pollerr ||| pollnval) then []
  else if event.reports pollin then [.accept event.fd k.accept]
  else []

/-- The calls of `handle_client_event`. -/
def clientCalls (event : Pollfd) (k : Kernel) : List Syscall :=
  if event.reports pollin then
    match k.read with
    | .error => [.read event.fd .error, .close event.fd]
    | .bytes readbuf =>
      if readbuf.val = [] then [.read event.fd (.bytes readbuf), .close event.fd]
      else [.read event.fd (.bytes readbuf)]
  else if event.reports (pollhup ||| pollrdhup) then [.close event.fd]
  else []

/-- The calls made in one step of the event loop. -/
def Server.syscalls (s : Server) (k : Kernel) : List Syscall :=
  match s.phase with
  | .serverEvent =>
    match s.fdstate.fds with
    | [] => []
    | event :: _ => serverCalls event k
  | .clientEvents i =>
    match s.fdstate.fds[i]? with
    | none => []
    | some event => clientCalls event k
  | .flushes i =>
    match s.fdstate.fds[i]? with
    | none => []
    | some event =>
      match s.mq.flush event.fd k.write with
      | .ok (_, writes, _) => writes.map (.write event.fd)
      | .error _ => []
  | _ => []

/-- The connections that are open after a call, when it is a call that may be made: `accept`
on the listening socket, the others on an open connection, or on -1, which names none. -/
def useDescriptor (serverFd : ℤ) (conns : List ℤ) : Syscall → Option (List ℤ)
  | .accept fd conn =>
    if fd = serverFd then some (if 0 ≤ conn then conn :: conns else conns) else none
  | .read fd _ => if fd = -1 ∨ fd ∈ conns then some conns else none
  | .write fd _ => if fd = -1 ∨ fd ∈ conns then some conns else none
  | .close fd => if fd = -1 ∨ fd ∈ conns then some (conns.filter (· ≠ fd)) else none

section
variable {serverFd fd : ℤ} {conns : List ℤ} {event : Pollfd} {k : Kernel}

theorem use_read (h : fd = -1 ∨ fd ∈ conns) (result : ReadResult) :
    [Syscall.read fd result].foldlM (useDescriptor serverFd) conns = some conns := by
  simp [useDescriptor, h]

theorem use_close (h : fd = -1 ∨ fd ∈ conns) :
    [Syscall.close fd].foldlM (useDescriptor serverFd) conns =
      some (conns.filter (· ≠ fd)) := by
  simp [useDescriptor, h]

theorem use_writes (h : fd = -1 ∨ fd ∈ conns) (writes : List Write) :
    (writes.map (Syscall.write fd)).foldlM (useDescriptor serverFd) conns = some conns := by
  induction writes with
  | nil => rfl
  | cons w writes ih => simpa [useDescriptor, h] using ih

/-- A call that closes the client reads before it closes. -/
theorem clientCalls_closes (h : Closes event k) :
    clientCalls event k = [.close event.fd] ∨
      ∃ result, clientCalls event k = [.read event.fd result] ++ [.close event.fd] := by
  unfold Closes at h
  unfold clientCalls
  split_ifs at h ⊢ with hin
  · cases hread : k.read with
    | error => exact .inr ⟨.error, rfl⟩
    | bytes readbuf =>
      simp only [hread] at h
      exact .inr ⟨.bytes readbuf, if_pos h⟩
  · exact .inl rfl

theorem clientCalls_keeps (h : ¬ Closes event k) :
    clientCalls event k = [] ∨ ∃ result, clientCalls event k = [.read event.fd result] := by
  unfold Closes at h
  unfold clientCalls
  split_ifs at h ⊢ with hin
  · cases hread : k.read with
    | error => simp [hread] at h
    | bytes readbuf =>
      simp only [hread] at h
      exact .inr ⟨.bytes readbuf, if_neg h⟩
  · exact .inl rfl

theorem use_clientCalls_closes (h : event.fd = -1 ∨ event.fd ∈ conns) (hclose : Closes event k) :
    (clientCalls event k).foldlM (useDescriptor serverFd) conns =
      some (conns.filter (· ≠ event.fd)) := by
  rcases clientCalls_closes hclose with heq | ⟨result, heq⟩
  · rw [heq]
    exact use_close h
  · rw [heq, List.foldlM_append, use_read h result]
    exact use_close h

theorem use_clientCalls_keeps (h : event.fd = -1 ∨ event.fd ∈ conns) (hclose : ¬ Closes event k) :
    (clientCalls event k).foldlM (useDescriptor serverFd) conns = some conns := by
  rcases clientCalls_keeps hclose with heq | ⟨result, heq⟩
  · rw [heq]
    rfl
  · rw [heq]
    exact use_read h result

end

/-- The server with the calls it has made. No call reads this record. -/
structure Traced extends Server where
  trace : List Syscall

namespace Traced

def start (c capacity : ℕ) (serverFd : ℤ) : Traced := ⟨Server.start c capacity serverFd, []⟩

/-- A step in which `accept`, if it is called, returns -1 or a descriptor that is not open. -/
def Step (r : Traced) (k : Kernel) (r' : Traced) : Prop :=
  r.AcceptStep k r'.toServer ∧ r'.trace = r.trace ++ r.syscalls k

variable {c capacity : ℕ} {serverFd : ℤ} {r r' : Traced} {k : Kernel} {ks : List Kernel}

/-- The table is in order, its entries are descriptors that `accept` returned, and the trace
so far has opened exactly the descriptors the server has. -/
structure Orderly (serverFd : ℤ) (r : Traced) : Prop where
  table : r.Tabled serverFd
  valid : ∀ fd ∈ r.entries, -1 ≤ fd
  behind : ∀ i, r.phase = .flushes i → 1 ≤ i
  used : ∃ conns, r.trace.foldlM (useDescriptor serverFd) [] = some conns ∧
    r.opened = conns ++ [serverFd]

theorem tabled_start (hcap : 0 < capacity) :
    (Server.start c capacity serverFd).Tabled serverFd ∧
      (Server.start c capacity serverFd).entries = [serverFd] := by
  have hwatch : (Fds.mk capacity []).watch serverFd =
      (0, ⟨capacity, [⟨serverFd, pollin ||| pollrdhup, 0⟩]⟩) :=
    Fds.watch_new hcap (by simp)
  have hfds : (Server.start c capacity serverFd).fdstate.fds =
      [⟨serverFd, pollin ||| pollrdhup, 0⟩] := by
    rw [Server.start, hwatch]
  have hentries : (Server.start c capacity serverFd).entries = [serverFd] := by
    rw [World.entries, hfds]
    rfl
  refine ⟨⟨⟨_, [], hfds, rfl⟩, ?_, ?_, ?_⟩, hentries⟩
  · rw [hentries]
    exact List.nodup_cons.mpr ⟨List.not_mem_nil, List.nodup_nil⟩
  · intro fd hmem _
    rw [hentries, List.mem_singleton] at hmem
    rw [hmem]
    exact List.mem_cons_self
  · intro i hphase
    rw [Server.start] at hphase
    dsimp only at hphase
    split_ifs at hphase

theorem orderly_start (hfd : 0 ≤ serverFd) (hcap : 0 < capacity) :
    Orderly serverFd (start c capacity serverFd) := by
  obtain ⟨htable, hentries⟩ := tabled_start (c := c) hcap
  refine ⟨htable, ?_, ?_, [], rfl, rfl⟩
  · intro fd hmem
    change fd ∈ (Server.start c capacity serverFd).entries at hmem
    rw [hentries, List.mem_singleton] at hmem
    omega
  · intro i hphase
    change (Server.start c capacity serverFd).phase = _ at hphase
    rw [Server.start] at hphase
    dsimp only at hphase
    split_ifs at hphase

/-- The descriptor in an entry of a client is an open connection, or -1. -/
theorem Orderly.client_open (h : Orderly serverFd r) {conns : List ℤ}
    (hopened : r.opened = conns ++ [serverFd]) {e : Pollfd} (he : e ∈ r.fdstate.fds.drop 1) :
    e.fd = -1 ∨ e.fd ∈ conns := by
  have hvalid := h.valid e.fd (Server.mem_entries he)
  rcases Int.lt_or_le e.fd 0 with hneg | hpos
  · exact .inl (by omega)
  · have hmem := h.table.isOpen e.fd (Server.mem_entries he) hpos
    rw [hopened, List.mem_append, List.mem_singleton] at hmem
    exact .inr (hmem.resolve_right (h.table.ne_serverFd he))

theorem Orderly.listening (h : Orderly serverFd r) {event : Pollfd} {fds : List Pollfd}
    (hfds : r.fdstate.fds = event :: fds) : event.fd = serverFd := by
  obtain ⟨e, fds', hfds', he⟩ := h.table.head
  rw [hfds'] at hfds
  cases hfds
  exact he

end Traced

/-- The handler of the listening socket makes no call and changes nothing, or it accepts. -/
theorem handleServerEvent_calls (event : Pollfd) (w : World) (k : Kernel) :
    serverCalls event k = [] ∧ (handleServerEvent event w k).2 = w ∨
      serverCalls event k = [.accept event.fd k.accept] ∧
        ∃ alloc, (handleServerEvent event w k).2 = { w.opening k.accept with
          fdstate := (w.fdstate.watch k.accept).2
          mq := (w.mq.registerClient k.accept alloc).2 } := by
  unfold serverCalls handleServerEvent
  by_cases herr : event.reports (pollerr ||| pollnval)
  · rw [if_pos herr, if_pos herr]
    exact .inl ⟨rfl, rfl⟩
  rw [if_neg herr, if_neg herr]
  by_cases hin : event.reports pollin
  · rw [if_pos hin, if_pos hin]
    refine .inr ⟨rfl, ?_⟩
    by_cases hwatch : (w.fdstate.watch k.accept).1 = -1
    · simp only [if_pos hwatch]
      have hsame : (w.fdstate.watch k.accept).2 = w.fdstate := by
        unfold Fds.watch at hwatch ⊢
        split_ifs at hwatch ⊢
        rfl
      exact ⟨false, by rw [hsame]; rfl⟩
    · simp only [if_neg hwatch]
      cases k.alloc with
      | false => exact ⟨false, rfl⟩
      | true => exact ⟨true, rfl⟩
  · rw [if_neg hin, if_neg hin]
    exact .inl ⟨rfl, rfl⟩

theorem Fds.mem_watch {state : Fds} {fd fd' : ℤ} (h : fd' ∈ (state.watch fd).2.fds.map Pollfd.fd) :
    fd' ∈ state.fds.map Pollfd.fd ∨ fd' = fd := by
  rcases state.watch_cases fd with heq | heq
  · rw [heq] at h
    exact .inl h
  · rw [heq, List.map_append, List.mem_append] at h
    exact h.imp_right List.mem_singleton.mp

theorem Server.Steps.of_flushes {s s' : Server} {k : Kernel} {i : ℕ} (h : s.Steps k s')
    (hphase : s.phase = .flushes i) :
    s.fdstate.fds[i]? = none ∧ s' = { s with phase := .polling } ∨
      ∃ event rc writes mq, s.fdstate.fds[i]? = some event ∧
        s.mq.flush event.fd k.write = .ok (rc, writes, mq) ∧
        s' = { s with mq := mq, phase := .flushes (i + 1) } := by
  unfold Server.Steps at h
  cases hi : s.fdstate.fds[i]? with
  | none =>
    simp only [Server.step, hphase, hi] at h
    cases h
    exact .inl ⟨rfl, rfl⟩
  | some event =>
    cases hflush : s.mq.flush event.fd k.write with
    | error e =>
      simp only [Server.step, hphase, hi, hflush] at h
      cases h
    | ok p =>
      simp only [Server.step, hphase, hi, hflush] at h
      cases h
      exact .inr ⟨event, p.1, p.2.1, p.2.2, rfl, hflush, rfl⟩

namespace Traced

variable {c capacity : ℕ} {serverFd : ℤ} {r r' : Traced} {k : Kernel} {ks : List Kernel}

/-- A call of the handler of the listening socket. -/
theorem Orderly.server (h : Orderly serverFd r) {event : Pollfd} {fds : List Pollfd}
    {phase : Phase} (hphase : r.phase = .serverEvent) (hfds : r.fdstate.fds = event :: fds)
    (hphase' : phase = .stopped ∨ phase = .clientEvents 1)
    (haccept : k.accept = -1 ∨ 0 ≤ k.accept ∧ k.accept ∉ r.opened) :
    Orderly serverFd
      ⟨⟨(handleServerEvent event r.toWorld k).2, phase⟩, r.trace ++ r.syscalls k⟩ := by
  have hcalls : r.syscalls k = serverCalls event k := by
    simp only [Server.syscalls, hphase, hfds]
  have hclient : ∀ i, phase = .clientEvents i → 1 ≤ i := by
    rintro i rfl
    rcases hphase' with he | he
    · cases he
    · cases he
      exact Nat.le_refl 1
  have hflush : ∀ i, phase = .flushes i → 1 ≤ i := by
    rintro i rfl
    rcases hphase' with he | he <;> cases he
  obtain ⟨conns, hfold, hopened⟩ := h.used
  rcases handleServerEvent_calls event r.toWorld k with ⟨hnone, heq⟩ | ⟨haccepts, alloc, heq⟩
  · rw [heq, hcalls, hnone, List.append_nil]
    exact ⟨h.table.frame rfl (fun _ hmem => hmem) hclient, h.valid, hflush, conns, hfold, hopened⟩
  · rw [heq, hcalls, haccepts]
    constructor
    · apply h.table.watch rfl _ _ hclient
      · intro fd hmem
        exact World.mem_opening.mpr (.inl hmem)
      · intro hpos
        exact World.mem_opening.mpr (.inr ⟨hpos, rfl⟩)
    · intro fd hmem
      rcases Fds.mem_watch hmem with hold | rfl
      · exact h.valid fd hold
      · rcases haccept with he | ⟨hpos, -⟩ <;> omega
    · exact hflush
    · refine ⟨if 0 ≤ k.accept then k.accept :: conns else conns, ?_, ?_⟩
      · rw [List.foldlM_append, hfold]
        simp [useDescriptor, h.listening hfds]
      · change (if 0 ≤ k.accept then k.accept :: r.opened else r.opened) = _
        rw [hopened]
        split_ifs <;> rfl

/-- A call of the handler of a client. -/
theorem Orderly.handled (h : Orderly serverFd r) {i : ℕ} {event : Pollfd} {rv : ℤ} {w : World}
    (hphase : r.phase = .clientEvents i) (hi : r.fdstate.fds[i]? = some event)
    (hhandle : handleClientEvent event r.toWorld k = .ok (rv, w)) :
    Orderly serverFd ⟨⟨w, .clientEvents (i + 1)⟩, r.trace ++ r.syscalls k⟩ := by
  have hcalls : r.syscalls k = clientCalls event k := by
    simp only [Server.syscalls, hphase, hi]
  have hclient : ∀ j, Phase.clientEvents (i + 1) = .clientEvents j → 1 ≤ j := by
    rintro j he
    cases he
    exact Nat.le_add_left 1 i
  have he := h.table.mem_clients hphase hi
  obtain ⟨conns, hfold, hopened⟩ := h.used
  have hopen := h.client_open hopened he
  by_cases hclose : Closes event k
  · rw [handleClientEvent_closes hclose] at hhandle
    cases hhandle
    have hremoved : Server.Tabled serverFd ⟨r.removeClient event.fd, .clientEvents (i + 1)⟩ ∧
        (r.removeClient event.fd).fdstate.fds.drop 1 ⊆ r.fdstate.fds.drop 1 :=
      h.table.removeClient he rfl hclient
    obtain ⟨htable, hsub⟩ := hremoved
    refine ⟨htable, ?_, nofun, conns.filter (· ≠ event.fd), ?_, ?_⟩
    · intro fd hmem
      have hperm : (r.removeClient event.fd).entries.Perm (r.entries.erase event.fd) :=
        Fds.unwatch_fds h.table.distinct (List.mem_of_mem_drop he)
      exact h.valid fd (List.mem_of_mem_erase (hperm.mem_iff.mp hmem))
    · rw [hcalls, List.foldlM_append, hfold]
      exact use_clientCalls_closes hopen hclose
    · change r.opened.filter _ = _
      have hne : serverFd ≠ event.fd := (h.table.ne_serverFd he).symm
      rw [hopened, List.filter_append]
      simp [hne]
  · obtain ⟨hfds, hsame, -⟩ := handleClientEvent_keeps hclose hhandle
    refine ⟨?_, ?_, nofun, conns, ?_, ?_⟩
    · apply h.table.frame _ _ hclient
      · rw [World.entries, hfds, World.entries]
      · rw [hsame]
        exact fun _ hmem => hmem
    · intro fd hmem
      change fd ∈ w.fdstate.fds.map Pollfd.fd at hmem
      rw [hfds] at hmem
      exact h.valid fd hmem
    · rw [hcalls, List.foldlM_append, hfold]
      exact use_clientCalls_keeps hopen hclose
    · exact hsame.trans hopened

/-- A step of the loop over the entries to be flushed. -/
theorem Orderly.flushed (h : Orderly serverFd r) {i : ℕ} {s' : Server} (hs : r.Steps k s')
    (hphase : r.phase = .flushes i) : Orderly serverFd ⟨s', r.trace ++ r.syscalls k⟩ := by
  obtain ⟨conns, hfold, hopened⟩ := h.used
  have hframe (mq : MessageQueue) (phase : Phase) (hne : ∀ i, phase ≠ .clientEvents i) :
      Server.Tabled serverFd { r.toServer with mq := mq, phase := phase } :=
    h.table.frame rfl (fun _ hmem => hmem) fun j hj => absurd hj (hne j)
  rcases hs.of_flushes hphase with ⟨hi, rfl⟩ | ⟨event, rc, writes, mq, hi, hflush, rfl⟩
  · have hnone : r.syscalls k = [] := by simp only [Server.syscalls, hphase, hi]
    rw [hnone, List.append_nil]
    exact ⟨hframe r.mq .polling nofun, h.valid, nofun, conns, hfold, hopened⟩
  · have hcalls : r.syscalls k = writes.map (.write event.fd) := by
      simp only [Server.syscalls, hphase, hi, hflush]
    have he : event ∈ r.fdstate.fds.drop 1 := by
      obtain ⟨j, rfl⟩ := Nat.exists_eq_add_of_le (h.behind i hphase)
      rw [← List.getElem?_drop] at hi
      exact List.mem_of_getElem? hi
    refine ⟨hframe mq (.flushes (i + 1)) nofun, h.valid, ?_, conns, ?_, hopened⟩
    · intro j hj
      cases hj
      exact Nat.le_add_left 1 i
    · rw [hcalls, List.foldlM_append, hfold]
      exact use_writes (h.client_open hopened he) writes

theorem Step.orderly (h : Orderly serverFd r) (hstep : r.Step k r') : Orderly serverFd r' := by
  obtain ⟨⟨haccept, hs⟩, htrace⟩ := hstep
  obtain ⟨s', trace⟩ := r'
  obtain rfl : trace = r.trace ++ r.syscalls k := htrace
  obtain ⟨conns, hfold, hopened⟩ := h.used
  have hquiet (hnone : r.syscalls k = []) :
      (r.trace ++ r.syscalls k).foldlM (useDescriptor serverFd) [] = some conns := by
    rw [hnone, List.append_nil, hfold]
  cases hs.move with
  | failed hphase =>
    have hnone : r.syscalls k = [] := by simp only [Server.syscalls, hphase]
    exact ⟨h.table.frame rfl (fun _ hmem => hmem) nofun, h.valid, nofun, conns, hquiet hnone,
      hopened⟩
  | polled hphase =>
    have hnone : r.syscalls k = [] := by simp only [Server.syscalls, hphase]
    refine ⟨h.table.frame (r.fdstate.poll_fds _) (fun _ hmem => hmem) nofun, ?_, nofun, conns,
      hquiet hnone, hopened⟩
    intro fd hmem
    change fd ∈ (r.fdstate.poll _).fds.map Pollfd.fd at hmem
    rw [Fds.poll_fds] at hmem
    exact h.valid fd hmem
  | server hphase hfds hphase' => exact h.server hphase hfds hphase' (haccept hphase)
  | client hphase hi hhandle => exact h.handled hphase hi hhandle
  | walked hphase hi =>
    have hnone : r.syscalls k = [] := by simp only [Server.syscalls, hphase, hi]
    refine ⟨h.table.frame rfl (fun _ hmem => hmem) nofun, h.valid, ?_, conns, hquiet hnone, hopened⟩
    intro j hj
    cases hj
    exact Nat.le_refl 1
  | flushed hphase => exact h.flushed hs hphase
  | drained hphase => exact h.flushed hs hphase
  | stopped hphase =>
    have hnone : r.syscalls k = [] := by simp only [Server.syscalls, hphase]
    exact ⟨h.table, h.valid, h.behind, conns, hquiet hnone, hopened⟩

theorem orderly_of_run (hfd : 0 ≤ serverFd) (hcap : 0 < capacity)
    (hrun : Run Step (start c capacity serverFd) ks r) : Orderly serverFd r :=
  hrun.invariant (orderly_start hfd hcap) fun _ _ _ h hstep => hstep.orderly h

/-- In every run whose `accept` returns -1 or a descriptor that is not open, every call is made
on an open descriptor or on the -1 of a failed `accept`: `accept` on the listening socket, and
`read`, `write` and `close` on connections. The descriptors that the trace leaves open are those
of the server, so none is closed twice and the listening socket is never closed. -/
theorem calls_use_open_descriptors (hfd : 0 ≤ serverFd) (hcap : 0 < capacity)
    (hrun : Run Step (start c capacity serverFd) ks r) :
    ∃ conns, r.trace.foldlM (useDescriptor serverFd) [] = some conns ∧
      r.opened = conns ++ [serverFd] ∧
      ∀ e ∈ r.fdstate.fds.drop 1, e.fd = -1 ∨ e.fd ∈ conns := by
  have h := orderly_of_run hfd hcap hrun
  obtain ⟨conns, hfold, hopened⟩ := h.used
  exact ⟨conns, hfold, hopened, fun e he => h.client_open hopened he⟩

/-- The step, defined on the outcomes of `accept` it is considered with. -/
def next (r : Traced) (k : Kernel) : Except Fault Traced := do
  let s ← r.acceptStep k
  .ok ⟨s, r.trace ++ r.syscalls k⟩

theorem step_of_next (h : r.next k = .ok r') : r.Step k r' := by
  unfold next at h
  cases hs : r.acceptStep k with
  | error e =>
    rw [hs] at h
    cases h
  | ok s =>
    rw [hs] at h
    cases h
    exact ⟨Server.acceptStep_of_eq hs, rfl⟩

theorem run_of_next (h : ks.foldlM next r = .ok r') : Run Step r ks r' :=
  .of_foldlM h fun _ _ _ _ => step_of_next

/-- A round in which the first client hangs up. -/
def hangingUp : Kernel :=
  { Server.accepting with
    ppoll := some fun i => if i = 1 then pollrdhup else 0
    accept := 8 }

/-- A client is accepted and hangs up, and its descriptor is used again for the next one. -/
theorem calls_use_open_descriptors_again :
    ∃ r, Run Step (start 2 4 3) (List.replicate 6 Server.accepting ++
        List.replicate 5 hangingUp ++ List.replicate 6 Server.accepting) r ∧
      ∃ conns, r.trace.foldlM (useDescriptor 3) [] = some conns ∧ r.opened = conns ++ [3] ∧
        ∀ e ∈ r.fdstate.fds.drop 1, e.fd = -1 ∨ e.fd ∈ conns := by
  have hrun : Run Step (start 2 4 3) (List.replicate 6 Server.accepting ++
      List.replicate 5 hangingUp ++ List.replicate 6 Server.accepting) _ := run_of_next rfl
  exact ⟨_, hrun, calls_use_open_descriptors (by decide) (by decide) hrun⟩

end Traced
end SysExploration
