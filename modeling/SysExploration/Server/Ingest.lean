import SysExploration.Server.AcceptFailures

/-! The bytes the clients send, from their arrival to the queue. Connections are numbered in
the order in which they are accepted, for a descriptor can be used again once it is closed. -/
namespace SysExploration
open MessageQueue

/-- A connection: all bytes that arrived on it, those of them that were not read yet, whether
its peer has stopped sending, and whether the server has closed it. -/
structure Conn where
  sent : Bytes
  unread : Bytes
  stopped : Bool
  closed : Bool

/-- The bytes a call of `handle_client_event` reads. -/
def bytesRead (event : Pollfd) (k : Kernel) : Bytes :=
  if event.reports pollin then
    match k.read with
    | .error => []
    | .bytes readbuf => readbuf.val
  else []

theorem bytesRead_of_not_receives {event : Pollfd} {k : Kernel} (h : ¬ Receives event k) :
    bytesRead event k = [] := by
  unfold bytesRead
  split_ifs with hin
  · cases hread : k.read with
    | error => rfl
    | bytes readbuf =>
      by_contra hne
      exact h ⟨hin, readbuf, hread, hne⟩
  · rfl

/-- An event without data that does not close the client is ignored. -/
theorem handleClientEvent_ignores {event : Pollfd} {w : World} {k : Kernel}
    (hclose : ¬ Closes event k) (hdata : ¬ Receives event k) :
    handleClientEvent event w k = .ok (0, w) := by
  unfold Closes at hclose
  unfold handleClientEvent
  split_ifs at hclose ⊢ with hin
  · cases hread : k.read with
    | error => simp [hread] at hclose
    | bytes readbuf =>
      simp only [hread] at hclose
      exact absurd ⟨hin, readbuf, hread, hclose⟩ hdata
  · rfl

/-- The message its first call of `message_queue__q` accepts. -/
def messageStored (w : World) (event : Pollfd) (k : Kernel) : List Bytes :=
  if bytesRead event k = [] then []
  else
    match w.mq.q (bytesRead event k) k.alloc with
    | .ok (rc, _) => if rc = 0 then [bytesRead event k] else []
    | .error _ => []

/-- The server and its connections. The log lists the messages that `message_queue__q`
accepted, each with the connection it was read from. -/
structure Ingest where
  server : Server
  conns : ℕ → Conn
  accepted : ℕ
  connOf : ℤ → ℕ
  log : List (ℕ × Bytes)

inductive IngestEvent where
  | arrive (id : ℕ) (bytes : Bytes)
  | stop (id : ℕ)
  | call (k : Kernel)

namespace Server

variable {c : ℕ} {serverFd : ℤ} {s s' : Server} {k : Kernel} {event e : Pollfd}

/-- The first entry is the listening socket, no descriptor is watched twice and those that are
watched are open, apart from the -1 of a failed `accept`. -/
structure Tabled (serverFd : ℤ) (s : Server) : Prop where
  head : ∃ e fds, s.fdstate.fds = e :: fds ∧ e.fd = serverFd
  distinct : s.entries.Nodup
  isOpen : ∀ fd ∈ s.entries, 0 ≤ fd → fd ∈ s.opened
  behind : ∀ i, s.phase = .clientEvents i → 1 ≤ i

/-- The entry is one of a client. -/
theorem Tabled.mem_clients (h : Tabled serverFd s) {i : ℕ} (hphase : s.phase = .clientEvents i)
    (hi : s.fdstate.fds[i]? = some event) : event ∈ s.fdstate.fds.drop 1 := by
  obtain ⟨j, rfl⟩ := Nat.exists_eq_add_of_le (h.behind i hphase)
  rw [← List.getElem?_drop] at hi
  exact List.mem_of_getElem? hi

theorem Tabled.ne_serverFd (h : Tabled serverFd s) (he : e ∈ s.fdstate.fds.drop 1) :
    e.fd ≠ serverFd := by
  obtain ⟨e₀, fds, hfds, rfl⟩ := h.head
  have hdistinct := h.distinct
  rw [World.entries, hfds, List.map_cons, List.nodup_cons] at hdistinct
  rw [hfds] at he
  intro heq
  exact hdistinct.1 (heq ▸ List.mem_map_of_mem he)

theorem mem_entries (he : e ∈ s.fdstate.fds.drop 1) : e.fd ∈ s.entries :=
  List.mem_map_of_mem (List.mem_of_mem_drop he)

/-- The calls that change neither the descriptors in the table nor those that are open. -/
theorem Tabled.frame (h : Tabled serverFd s) (hentries : s'.entries = s.entries)
    (hopened : ∀ fd ∈ s.opened, fd ∈ s'.opened)
    (hbehind : ∀ i, s'.phase = .clientEvents i → 1 ≤ i) : Tabled serverFd s' := by
  refine ⟨?_, hentries ▸ h.distinct, ?_, hbehind⟩
  · obtain ⟨e, fds, hfds, he⟩ := h.head
    rw [World.entries, World.entries, hfds] at hentries
    obtain ⟨e', fds', hfds', he', -⟩ := List.map_eq_cons_iff.mp hentries
    exact ⟨e', fds', hfds', he'.trans he⟩
  · intro fd hfd hpos
    exact hopened fd (h.isOpen fd (hentries ▸ hfd) hpos)

/-- The listening socket's handler appends a descriptor that is new to the table. -/
theorem Tabled.watch (h : Tabled serverFd s) {fd : ℤ}
    (hfds : s'.fdstate = (s.fdstate.watch fd).2)
    (hopened : ∀ fd' ∈ s.opened, fd' ∈ s'.opened) (hnew : 0 ≤ fd → fd ∈ s'.opened)
    (hbehind : ∀ i, s'.phase = .clientEvents i → 1 ≤ i) : Tabled serverFd s' := by
  by_cases hroom : s.fdstate.fds.length < s.fdstate.capacity
  · by_cases hknown : s.Known fd
    · rw [World.watch_known hroom hknown] at hfds
      exact h.frame (by rw [World.entries, hfds, World.entries]) hopened hbehind
    · rw [World.watch_unknown hroom hknown] at hfds
      have hentries : s'.entries = s.entries ++ [fd] := by
        rw [World.entries, hfds, List.map_append]
        rfl
      have hfresh : fd ∉ s.entries := by
        intro hmem
        obtain ⟨e, he, rfl⟩ := List.mem_map.mp hmem
        exact hknown ⟨e, he, .inl rfl⟩
      refine ⟨?_, ?_, ?_, hbehind⟩
      · obtain ⟨e, fds, heq, he⟩ := h.head
        exact ⟨e, fds ++ [_], by rw [hfds, heq]; rfl, he⟩
      · rw [hentries, (List.perm_append_singleton fd s.entries).nodup_iff]
        exact List.nodup_cons.mpr ⟨hfresh, h.distinct⟩
      · intro fd' hfd' hpos
        rw [hentries, List.mem_append, List.mem_singleton] at hfd'
        rcases hfd' with hmem | rfl
        · exact hopened fd' (h.isOpen fd' hmem hpos)
        · exact hnew hpos
  · rw [Fds.watch_full (Nat.not_lt.mp hroom)] at hfds
    exact h.frame (by rw [World.entries, hfds, World.entries]) hopened hbehind

theorem Tabled.removeClient (h : Tabled serverFd s) (he : e ∈ s.fdstate.fds.drop 1)
    (hw : s'.toWorld = s.toWorld.removeClient e.fd)
    (hbehind : ∀ i, s'.phase = .clientEvents i → 1 ≤ i) :
    Tabled serverFd s' ∧ s'.fdstate.fds.drop 1 ⊆ s.fdstate.fds.drop 1 := by
  have hperm : s'.entries.Perm (s.entries.erase e.fd) := by
    rw [hw]
    exact Fds.unwatch_fds h.distinct (List.mem_of_mem_drop he)
  obtain ⟨e₀, fds, hfds, he₀⟩ := h.head
  obtain ⟨fds', hfds', hsub⟩ := Fds.unwatch_cons hfds h.distinct (by simpa [hfds] using he)
  have hremoved : s'.fdstate.fds = e₀ :: fds' := by
    rw [hw]
    exact hfds'
  refine ⟨⟨⟨e₀, fds', hremoved, he₀⟩, hperm.nodup_iff.mpr (h.distinct.erase _), ?_, hbehind⟩, ?_⟩
  · intro fd hfd hpos
    obtain ⟨hne, hmem⟩ := h.distinct.mem_erase_iff.mp (hperm.mem_iff.mp hfd)
    rw [hw]
    exact List.mem_filter.mpr ⟨h.isOpen fd hmem hpos, by simpa using hne⟩
  · rw [hremoved, hfds]
    exact hsub

end Server
namespace Ingest

/-- The messages enqueued from a connection. -/
def messages (s : Ingest) (id : ℕ) : List Bytes := (s.log.filter (·.1 = id)).map Prod.snd

def setConn (s : Ingest) (id : ℕ) (conn : Conn) : Ingest :=
  { s with conns := Function.update s.conns id conn }

def accept (s : Ingest) (fd : ℤ) : Ingest :=
  { s with connOf := Function.update s.connOf fd s.accepted, accepted := s.accepted + 1 }

/-- Bytes of a connection are read and enqueued as messages. -/
def take (s : Ingest) (id : ℕ) (bytes : Bytes) (msgs : List Bytes) : Ingest :=
  { s with
    conns := Function.update s.conns id
      { s.conns id with unread := (s.conns id).unread.drop bytes.length }
    log := s.log ++ msgs.map (id, ·) }

def close (s : Ingest) (id : ℕ) : Ingest := s.setConn id { s.conns id with closed := true }

/-- What a call of the event loop that leads to `server` does to the connections: one is
accepted when its descriptor is opened, and closed when its descriptor is. -/
def observe (s : Ingest) (k : Kernel) (server : Server) : Ingest :=
  match s.server.phase with
  | .serverEvent =>
    if k.accept ∈ server.opened ∧ k.accept ∉ s.server.opened then s.accept k.accept else s
  | .clientEvents i =>
    match s.server.fdstate.fds[i]? with
    | none => s
    | some event =>
      let id := s.connOf event.fd
      let s' := s.take id (bytesRead event k) (messageStored s.server.toWorld event k)
      if event.fd ∈ s.server.opened ∧ event.fd ∉ server.opened then s'.close id else s'
  | _ => s

/-- What `ppoll` may report for the entry of a client. Negative descriptors are ignored; for
the others unread bytes are reported, and a hang-up only when the peer has stopped sending.
The end of the file is reported by `POLLIN` as well, on which nothing depends here. -/
def Reported (s : Ingest) (e : Pollfd) (revents : BitVec 16) : Prop :=
  (e.fd < 0 → revents = 0) ∧
    (0 ≤ e.fd →
      ((s.conns (s.connOf e.fd)).unread ≠ [] → Pollfd.reports ⟨e.fd, e.events, revents⟩ pollin) ∧
      (Pollfd.reports ⟨e.fd, e.events, revents⟩ (pollhup ||| pollrdhup) →
        (s.conns (s.connOf e.fd)).stopped))

/-- The answers of the kernel: allocations succeed, `accept` returns -1 or a descriptor that
is not open, `ppoll` reports what there is, `read` returns some of the unread bytes, or none
when there are none and the peer has stopped, and the first `q` does not find the ring full. -/
structure Answers (s : Ingest) (k : Kernel) : Prop where
  alloc : k.alloc = true
  accept : s.server.phase = .serverEvent →
    k.accept = -1 ∨ 0 ≤ k.accept ∧ k.accept ∉ s.server.opened
  ppoll : s.server.phase = .polling → ∀ revents, k.ppoll = some revents →
    ∀ i e, 1 ≤ i → s.server.fdstate.fds[i]? = some e → s.Reported e (revents i)
  read : ∀ i event, s.server.phase = .clientEvents i → s.server.fdstate.fds[i]? = some event →
    event.reports pollin → ∃ readbuf, k.read = .bytes readbuf ∧
      readbuf.val <+: (s.conns (s.connOf event.fd)).unread ∧
      (readbuf.val = [] → (s.conns (s.connOf event.fd)).unread = [] ∧
        (s.conns (s.connOf event.fd)).stopped)
  room : ∀ i event mq, s.server.phase = .clientEvents i →
    s.server.fdstate.fds[i]? = some event → Receives event k →
    s.server.mq.q (bytesRead event k) k.alloc ≠ .ok (mqerrFull, mq)

/-- Bytes arrive until the peer stops; in between the event loop makes its calls. -/
def Step (s : Ingest) : IngestEvent → Ingest → Prop
  | .arrive id bytes, s' => (s.conns id).stopped = false ∧
      s' = s.setConn id { s.conns id with
        sent := (s.conns id).sent ++ bytes
        unread := (s.conns id).unread ++ bytes }
  | .stop id, s' => s' = s.setConn id { s.conns id with stopped := true }
  | .call k, s' => s.Answers k ∧ ∃ server, s.server.Steps k server ∧
      s' = { s.observe k server with server := server }

/-- Nothing has arrived yet. -/
def start (server : Server) : Ingest where
  server := server
  conns := fun _ => ⟨[], [], false, false⟩
  accepted := 0
  connOf := fun _ => 0
  log := []

/-- What the reported events of an entry say about its connection, until they are handled. -/
def Settled (s : Ingest) (e : Pollfd) : Prop :=
  (e.fd < 0 → e.revents = 0) ∧
    (0 ≤ e.fd → e.reports (pollhup ||| pollrdhup) → (s.conns (s.connOf e.fd)).stopped ∧
      (e.reports pollin ∨ (s.conns (s.connOf e.fd)).unread = []))

/-- What holds between any two steps. -/
structure Lossless (c : ℕ) (serverFd : ℤ) (s : Ingest) : Prop where
  table : s.server.Tabled serverFd
  queue : Server.Broadcasting c s.server.mq
  holds : s.server.mq.Holds c 0 (s.log.map Prod.snd)
  owned : ∀ fd ∈ s.server.opened, fd ≠ serverFd →
    s.connOf fd < s.accepted ∧ (s.conns (s.connOf fd)).closed = false
  apart : ∀ fd ∈ s.server.opened, ∀ fd' ∈ s.server.opened, fd ≠ serverFd → fd' ≠ serverFd →
    s.connOf fd = s.connOf fd' → fd = fd'
  unaccepted : ∀ id, s.accepted ≤ id → (s.conns id).closed = false
  stream : ∀ id, (s.messages id).flatten ++ (s.conns id).unread = (s.conns id).sent
  sizes : ∀ p ∈ s.log, 1 ≤ p.2.length ∧ p.2.length ≤ maxMessageLength
  settled : ∀ e ∈ s.server.fdstate.fds.drop 1, s.Settled e
  ended : ∀ id, (s.conns id).closed → (s.conns id).unread = [] ∧ (s.conns id).stopped

variable {c capacity : ℕ} {serverFd : ℤ} {s s' : Ingest} {k : Kernel} {event e : Pollfd}

theorem settled_of_unreported (h : e.revents = 0) : s.Settled e := by
  refine ⟨fun _ => h, fun _ hhup => ?_⟩
  simp [Pollfd.reports, h] at hhup

/-- A change of one connection. It may be closed when it is at its end and none of the
descriptors that stay open is its own. -/
theorem Lossless.update (h : Lossless c serverFd s) {n : ℕ} {x : Conn}
    (htable : s'.server.Tabled serverFd) (hqueue : Server.Broadcasting c s'.server.mq)
    (hholds : s'.server.mq.Holds c 0 (s'.log.map Prod.snd))
    (hopened : ∀ fd ∈ s'.server.opened, fd ∈ s.server.opened)
    (hconns : s'.conns = Function.update s.conns n x)
    (haccepted : s'.accepted = s.accepted) (hconnOf : s'.connOf = s.connOf)
    (hstopped : (s.conns n).stopped →
      x.stopped ∧ ((s.conns n).unread = [] → x.unread = []))
    (hclosed : x.closed → (s.conns n).closed ∨ n < s.accepted ∧ x.unread = [] ∧
      x.stopped ∧ ∀ fd ∈ s'.server.opened, fd ≠ serverFd → s.connOf fd ≠ n)
    (hstream : ∀ id', (s'.messages id').flatten ++ (s'.conns id').unread = (s'.conns id').sent)
    (hsizes : ∀ p ∈ s'.log, 1 ≤ p.2.length ∧ p.2.length ≤ maxMessageLength)
    (hsettled : ∀ e ∈ s'.server.fdstate.fds.drop 1,
      e ∈ s.server.fdstate.fds.drop 1 ∨ s'.Settled e) : Lossless c serverFd s' := by
  have hcases (id' : ℕ) : id' = n ∧ s'.conns id' = x ∨ s'.conns id' = s.conns id' := by
    rw [hconns]
    by_cases he : id' = n
    · subst he
      exact .inl ⟨rfl, Function.update_self _ _ _⟩
    · exact .inr (Function.update_of_ne he _ _)
  have hstops (id' : ℕ) (hs : (s.conns id').stopped) : (s'.conns id').stopped ∧
      ((s.conns id').unread = [] → (s'.conns id').unread = []) := by
    rcases hcases id' with ⟨rfl, heq⟩ | heq
    · rw [heq]
      exact hstopped hs
    · rw [heq]
      exact ⟨hs, fun hnil => hnil⟩
  constructor
  · exact htable
  · exact hqueue
  · exact hholds
  · intro fd hfd hne
    obtain ⟨hlt, hopen⟩ := h.owned fd (hopened fd hfd) hne
    rw [hconnOf, haccepted]
    refine ⟨hlt, ?_⟩
    rcases hcases (s.connOf fd) with ⟨hid, heq⟩ | heq
    · rw [heq]
      by_contra hnot
      rcases hclosed (by simpa using hnot) with hold | ⟨-, -, -, hfree⟩
      · rw [← hid, hopen] at hold
        cases hold
      · exact hfree fd hfd hne hid
    · rw [heq]
      exact hopen
  · rw [hconnOf]
    intro fd hfd fd' hfd'
    exact h.apart fd (hopened fd hfd) fd' (hopened fd' hfd')
  · rw [haccepted]
    intro id' hid'
    have hold := h.unaccepted id' hid'
    rcases hcases id' with ⟨rfl, heq⟩ | heq
    · rw [heq]
      by_contra hnot
      rcases hclosed (by simpa using hnot) with hc | ⟨hlt, -⟩
      · rw [hold] at hc
        cases hc
      · exact absurd hlt (Nat.not_lt.mpr hid')
    · rw [heq]
      exact hold
  · exact hstream
  · exact hsizes
  · intro e he
    rcases hsettled e he with hold | hnew
    · obtain ⟨hneg, hpos⟩ := h.settled e hold
      refine ⟨hneg, fun hfd hhup => ?_⟩
      obtain ⟨hs, hread⟩ := hpos hfd hhup
      obtain ⟨hs', hunread⟩ := hstops _ hs
      rw [hconnOf]
      exact ⟨hs', hread.imp_right hunread⟩
    · exact hnew
  · intro id' hc
    rcases hcases id' with ⟨rfl, heq⟩ | heq
    · rw [heq] at hc ⊢
      rcases hclosed hc with hold | ⟨-, hunread, hs, -⟩
      · obtain ⟨hunread, hs⟩ := h.ended id' hold
        exact ⟨(hstopped hs).2 hunread, (hstopped hs).1⟩
      · exact ⟨hunread, hs⟩
    · rw [heq] at hc ⊢
      exact h.ended id' hc

/-- The calls that concern no connection. -/
theorem Lossless.idle (h : Lossless c serverFd s) {server : Server}
    (htable : server.Tabled serverFd) (hqueue : Server.Broadcasting c server.mq)
    (hholds : server.mq.Holds c 0 (s.log.map Prod.snd))
    (hopened : server.opened = s.server.opened)
    (hsettled : ∀ e ∈ server.fdstate.fds.drop 1,
      e ∈ s.server.fdstate.fds.drop 1 ∨ s.Settled e) :
    Lossless c serverFd { s with server := server } := by
  apply h.update htable hqueue hholds
  · intro fd hfd
    exact hopened ▸ hfd
  · exact (Function.update_eq_self 0 s.conns).symm
  · rfl
  · rfl
  · exact fun hs => ⟨hs, fun hnil => hnil⟩
  · exact .inl
  · exact h.stream
  · exact h.sizes
  · exact hsettled

theorem Lossless.stream_setConn (h : Lossless c serverFd s) {n : ℕ} {x : Conn}
    (hstream : (s.messages n).flatten ++ x.unread = x.sent) (id : ℕ) :
    ((s.setConn n x).messages id).flatten ++ ((s.setConn n x).conns id).unread =
      ((s.setConn n x).conns id).sent := by
  by_cases he : id = n
  · subst he
    simp only [Ingest.setConn, Function.update_self]
    exact hstream
  · simp only [Ingest.setConn, Function.update_of_ne he]
    exact h.stream id

/-- The other end of a connection sends, or stops sending. -/
theorem Lossless.setConn (h : Lossless c serverFd s) {n : ℕ} {x : Conn}
    (hstopped : (s.conns n).stopped → x.stopped ∧ ((s.conns n).unread = [] → x.unread = []))
    (hclosed : x.closed = (s.conns n).closed)
    (hstream : (s.messages n).flatten ++ x.unread = x.sent) :
    Lossless c serverFd (s.setConn n x) := by
  refine h.update h.table h.queue h.holds (fun fd hfd => hfd) rfl rfl rfl hstopped ?_ ?_ h.sizes
    fun e he => .inl he
  · intro hc
    exact .inl (hclosed ▸ hc)
  · exact h.stream_setConn hstream

theorem Lossless.arrived (h : Lossless c serverFd s) {n : ℕ} (bytes : Bytes)
    (hopen : (s.conns n).stopped = false) :
    Lossless c serverFd (s.setConn n { s.conns n with
      sent := (s.conns n).sent ++ bytes, unread := (s.conns n).unread ++ bytes }) := by
  apply h.setConn
  · intro hs
    rw [hopen] at hs
    cases hs
  · rfl
  · rw [← h.stream n, List.append_assoc]

theorem Lossless.stopped (h : Lossless c serverFd s) (n : ℕ) :
    Lossless c serverFd (s.setConn n { s.conns n with stopped := true }) := by
  apply h.setConn
  · exact fun _ => ⟨rfl, fun hnil => hnil⟩
  · rfl
  · exact h.stream n

/-- A new descriptor gets the next connection. -/
theorem Lossless.accepted (h : Lossless c serverFd s) {server : Server} {fd : ℤ}
    (htable : server.Tabled serverFd) (hqueue : Server.Broadcasting c server.mq)
    (hholds : server.mq.Holds c 0 (s.log.map Prod.snd)) (hnew : fd ∉ s.server.opened)
    (hopened : server.opened = fd :: s.server.opened)
    (hsettled : ∀ e ∈ server.fdstate.fds.drop 1,
      e ∈ s.server.fdstate.fds.drop 1 ∨ e.revents = 0) :
    Lossless c serverFd { s.accept fd with server := server } := by
  have hold (fd' : ℤ) (hfd' : fd' ∈ s.server.opened) :
      Function.update s.connOf fd s.accepted fd' = s.connOf fd' := by
    apply Function.update_of_ne
    rintro rfl
    exact hnew hfd'
  have hfirst : Function.update s.connOf fd s.accepted fd = s.accepted := Function.update_self _ _ _
  have hmem (fd' : ℤ) (hfd' : fd' ∈ server.opened) : fd' = fd ∨ fd' ∈ s.server.opened := by
    rw [hopened] at hfd'
    exact List.mem_cons.mp hfd'
  refine ⟨htable, hqueue, hholds, ?_, ?_, ?_, h.stream, h.sizes, ?_, h.ended⟩
  · intro fd' hfd' hne
    simp only [accept]
    rcases hmem fd' hfd' with rfl | hfd'
    · rw [hfirst]
      exact ⟨Nat.lt_succ_self _, h.unaccepted _ (Nat.le_refl _)⟩
    · rw [hold fd' hfd']
      obtain ⟨hlt, hopen⟩ := h.owned fd' hfd' hne
      exact ⟨Nat.lt_succ_of_lt hlt, hopen⟩
  · intro fd₁ hfd₁ fd₂ hfd₂ hne₁ hne₂ heq
    simp only [accept] at heq
    rcases hmem fd₁ hfd₁ with h₁ | h₁ <;> rcases hmem fd₂ hfd₂ with h₂ | h₂
    · rw [h₁, h₂]
    · rw [h₁, hfirst, hold fd₂ h₂] at heq
      have := (h.owned fd₂ h₂ hne₂).1
      omega
    · rw [h₂, hfirst, hold fd₁ h₁] at heq
      have := (h.owned fd₁ h₁ hne₁).1
      omega
    · rw [hold fd₁ h₁, hold fd₂ h₂] at heq
      exact h.apart fd₁ h₁ fd₂ h₂ hne₁ hne₂ heq
  · intro id hid
    exact h.unaccepted id (Nat.le_of_succ_le hid)
  · intro e he
    rcases hsettled e he with hmem' | hzero
    · obtain ⟨hneg, hpos⟩ := h.settled e hmem'
      refine ⟨hneg, fun hfd => ?_⟩
      have hopen := h.table.isOpen e.fd (Server.mem_entries hmem') hfd
      simp only [accept, hold e.fd hopen]
      exact hpos hfd
    · exact settled_of_unreported hzero

@[simp] theorem take_nil (s : Ingest) (n : ℕ) : s.take n [] [] = s := by
  simp [take]

theorem observe_client {i : ℕ} {server : Server} (hphase : s.server.phase = .clientEvents i)
    (hi : s.server.fdstate.fds[i]? = some event) {s' : Ingest}
    (htake : s.take (s.connOf event.fd) (bytesRead event k)
      (messageStored s.server.toWorld event k) = s') :
    s.observe k server = if event.fd ∈ s.server.opened ∧ event.fd ∉ server.opened then
      s'.close (s.connOf event.fd) else s' := by
  subst htake
  simp only [observe, hphase, hi]

/-- The entry of a client that is closed belongs to a connection at its end. -/
theorem Lossless.at_end (h : Lossless c serverFd s) (hanswers : s.Answers k) {i : ℕ}
    (hphase : s.server.phase = .clientEvents i) (hi : s.server.fdstate.fds[i]? = some event)
    (hclose : Closes event k) : 0 ≤ event.fd ∧ (s.conns (s.connOf event.fd)).unread = [] ∧
      (s.conns (s.connOf event.fd)).stopped := by
  obtain ⟨hneg, hpos⟩ := h.settled event (h.table.mem_clients hphase hi)
  have hfd : 0 ≤ event.fd := by
    by_contra hlt
    simp [Closes, Pollfd.reports, hneg (Int.not_le.mp hlt)] at hclose
  refine ⟨hfd, ?_⟩
  by_cases hin : event.reports pollin
  · obtain ⟨readbuf, hread, -, hend⟩ := hanswers.read i event hphase hi hin
    simp only [Closes, if_pos hin, hread] at hclose
    exact hend hclose
  · rw [Closes, if_neg hin] at hclose
    obtain ⟨hs, hunread⟩ := hpos hfd hclose
    exact ⟨hunread.resolve_left hin, hs⟩

theorem Lossless.closed (h : Lossless c serverFd s) {server : Server}
    (hqueue : Server.Broadcasting c server.mq) (he : e ∈ s.server.fdstate.fds.drop 1)
    (hpos : 0 ≤ e.fd) (hw : server.toWorld = s.server.removeClient e.fd)
    (hbehind : ∀ i, server.phase = .clientEvents i → 1 ≤ i)
    (hend : (s.conns (s.connOf e.fd)).unread = [] ∧ (s.conns (s.connOf e.fd)).stopped) :
    Lossless c serverFd { s.close (s.connOf e.fd) with server := server } := by
  obtain ⟨htable, hsub⟩ := h.table.removeClient he hw hbehind
  have hopen : e.fd ∈ s.server.opened := h.table.isOpen _ (Server.mem_entries he) hpos
  have hopened (fd : ℤ) (hfd : fd ∈ server.opened) : fd ∈ s.server.opened ∧ fd ≠ e.fd := by
    rw [hw] at hfd
    simpa [World.removeClient] using hfd
  have hholds : server.mq.Holds c 0 (s.log.map Prod.snd) := by
    obtain ⟨clients, -, hmq⟩ := unregisterClient_eq s.server.mq e.fd
    rw [hw, World.removeClient, hmq]
    exact h.holds.withClients clients
  refine h.update htable hqueue hholds (fun fd hfd => (hopened fd hfd).1) rfl rfl rfl ?_ ?_ ?_
    h.sizes fun e' he' => .inl (hsub he')
  · exact fun hs => ⟨hs, fun hnil => hnil⟩
  · intro _
    have hne := h.table.ne_serverFd he
    refine .inr ⟨(h.owned e.fd hopen hne).1, hend.1, hend.2, ?_⟩
    intro fd hfd hne' heq
    exact (hopened fd hfd).2 (h.apart fd (hopened fd hfd).1 e.fd hopen hne' hne heq)
  · exact h.stream_setConn (h.stream (s.connOf e.fd))

theorem messages_take (s : Ingest) (n n' : ℕ) (bytes : Bytes) :
    (s.take n bytes [bytes]).messages n' =
      s.messages n' ++ if n' = n then [bytes] else [] := by
  by_cases he : n' = n
  · simp [messages, take, he]
  · simp [messages, take, he, Ne.symm he]

/-- A message is read from its connection and enqueued. -/
theorem Lossless.enqueued (h : Lossless c serverFd s) {n : ℕ} {bytes : Bytes} {server : Server}
    (hqueue : Server.Broadcasting c server.mq)
    (hholds : server.mq.Holds c 0 (s.log.map Prod.snd ++ [bytes]))
    (hfds : server.fdstate = s.server.fdstate) (hopened : server.opened = s.server.opened)
    (hbehind : ∀ i, server.phase = .clientEvents i → 1 ≤ i)
    (hread : bytes <+: (s.conns n).unread) (hne : bytes ≠ [])
    (hlen : bytes.length ≤ maxMessageLength) :
    Lossless c serverFd { s.take n bytes [bytes] with server := server } := by
  have hunread := List.prefix_iff_eq_append.mp hread
  refine h.update (h.table.frame ?_ ?_ hbehind) hqueue ?_ ?_ rfl rfl rfl ?_ .inl ?_ ?_ ?_
  · simp only [World.entries, hfds]
  · exact fun fd hfd => hopened ▸ hfd
  · simpa [take] using hholds
  · exact fun fd hfd => hopened ▸ hfd
  · refine fun hs => ⟨hs, fun hnil => ?_⟩
    simp [hnil]
  · intro n'
    change ((s.take n bytes [bytes]).messages n').flatten ++ _ = _
    rw [messages_take]
    by_cases he : n' = n
    · subst he
      simp only [take, Function.update_self, if_true, List.flatten_append, List.flatten_singleton]
      rw [List.append_assoc, hunread]
      exact h.stream n'
    · simp only [take, Function.update_of_ne he, if_neg he, List.append_nil]
      exact h.stream n'
  · intro p hp
    rcases List.mem_append.mp hp with hold | hnew
    · exact h.sizes p hold
    · obtain rfl := List.mem_singleton.mp hnew
      exact ⟨List.length_pos_iff.mpr hne, hlen⟩
  · intro e he
    exact .inl (hfds ▸ he)

theorem Lossless.polled (h : Lossless c serverFd s) (hanswers : s.Answers k)
    {revents : ℕ → BitVec 16} (hphase : s.server.phase = .polling)
    (hpoll : k.ppoll = some revents) :
    Lossless c serverFd { s with server := { s.server with
      fdstate := s.server.fdstate.poll revents, phase := .serverEvent } } := by
  have hentries := s.server.fdstate.poll_fds revents
  refine h.idle (h.table.frame hentries (fun fd hfd => hfd) nofun) h.queue h.holds rfl ?_
  intro e he
  obtain ⟨i, hi⟩ := List.mem_iff_getElem?.mp he
  rw [List.getElem?_drop] at hi
  obtain ⟨e₀, he₀, rfl⟩ : ∃ e₀, s.server.fdstate.fds[1 + i]? = some e₀ ∧
      e = { e₀ with revents := revents (1 + i) } := by
    simpa [Fds.poll, List.getElem?_mapIdx, eq_comm] using hi
  obtain ⟨hneg, hpos⟩ := hanswers.ppoll hphase revents hpoll (1 + i) e₀ (Nat.le_add_right 1 i) he₀
  refine .inr ⟨hneg, fun hfd hhup => ?_⟩
  obtain ⟨hunread, hstopped⟩ := hpos hfd
  refine ⟨hstopped hhup, ?_⟩
  by_cases hnil : (s.conns (s.connOf e₀.fd)).unread = []
  · exact .inr hnil
  · exact .inl (hunread hnil)

/-- The handler of the listening socket, when allocations succeed. -/
theorem Lossless.served (h : Lossless c serverFd s) (hanswers : s.Answers k)
    (hphase : s.server.phase = .serverEvent) {server : Server}
    (hqueue : Server.Broadcasting c server.mq)
    (hclients : ∃ clients, server.mq = { s.server.mq with clients := clients })
    (hfds : server.fdstate = s.server.fdstate ∨
      server.fdstate = (s.server.fdstate.watch k.accept).2)
    (hopened : server.opened = (s.server.opening k.accept).opened)
    (hbehind : ∀ i, server.phase = .clientEvents i → 1 ≤ i) :
    Lossless c serverFd { s.observe k server with server := server } := by
  have hholds : server.mq.Holds c 0 (s.log.map Prod.snd) := by
    obtain ⟨clients, hmq⟩ := hclients
    rw [hmq]
    exact h.holds.withClients clients
  have hmem (fd : ℤ) : fd ∈ server.opened ↔
      fd ∈ s.server.opened ∨ 0 ≤ k.accept ∧ fd = k.accept := by
    rw [hopened]
    exact World.mem_opening
  have hkept (fd : ℤ) (hfd : fd ∈ s.server.opened) : fd ∈ server.opened := (hmem fd).mpr (.inl hfd)
  have htable : server.Tabled serverFd := by
    rcases hfds with hfds | hfds
    · exact h.table.frame (by rw [World.entries, hfds, World.entries]) hkept hbehind
    · exact h.table.watch hfds hkept (fun hpos => (hmem _).mpr (.inr ⟨hpos, rfl⟩)) hbehind
  have hsettled : ∀ e ∈ server.fdstate.fds.drop 1,
      e ∈ s.server.fdstate.fds.drop 1 ∨ e.revents = 0 := by
    intro e he
    rcases hfds with hfds | hfds
    · exact .inl (hfds ▸ he)
    · rcases s.server.fdstate.watch_cases k.accept with hwatch | hwatch
      · exact .inl (by rwa [hfds, hwatch] at he)
      · obtain ⟨e₀, fds, hcons, -⟩ := h.table.head
        rw [hfds, hwatch, hcons] at he
        rw [hcons]
        rcases List.mem_append.mp he with hold | hnew
        · exact .inl hold
        · obtain rfl := List.mem_singleton.mp hnew
          exact .inr rfl
  simp only [observe, hphase]
  rcases hanswers.accept hphase with hfail | ⟨hpos, hnew⟩
  · have hsame : server.opened = s.server.opened := by
      rw [hopened, World.opening, hfail]
      rfl
    rw [if_neg (by simp [hsame])]
    apply h.idle htable hqueue hholds hsame
    intro e he
    exact (hsettled e he).imp_right settled_of_unreported
  · rw [if_pos ⟨(hmem _).mpr (.inr ⟨hpos, rfl⟩), hnew⟩]
    apply h.accepted htable hqueue hholds hnew _ hsettled
    rw [hopened]
    exact if_pos hpos

/-- The handler of a client. -/
theorem Lossless.handled (hc : CapacityOk c) (h : Lossless c serverFd s) (hanswers : s.Answers k)
    {i : ℕ} (hphase : s.server.phase = .clientEvents i)
    (hi : s.server.fdstate.fds[i]? = some event) {rv : ℤ} {w : World}
    (hhandle : handleClientEvent event s.server.toWorld k = .ok (rv, w))
    (hqueue : Server.Broadcasting c w.mq) :
    Lossless c serverFd { s.observe k ⟨w, .clientEvents (i + 1)⟩ with
      server := ⟨w, .clientEvents (i + 1)⟩ } := by
  have hbehind : ∀ j, Phase.clientEvents (i + 1) = .clientEvents j → 1 ≤ j := by
    rintro j ⟨⟩
    exact Nat.le_add_left 1 i
  have hevent := h.table.mem_clients hphase hi
  by_cases hdata : Receives event k
  · obtain ⟨rv', w', hhandle', he⟩ := handleClientEvent_effect hc h.holds event k
    rw [hhandle] at hhandle'
    cases hhandle'
    cases he with
    | unchanged hnot => exact absurd hdata hnot
    | removed hnot => exact absurd hdata hnot
    | @enqueued readbuf mq _ hread hroom hq hholds hcl =>
      obtain ⟨hin, readbuf', hread', hne⟩ := hdata
      obtain rfl : readbuf = readbuf' := ReadResult.bytes.inj (hread.symm.trans hread')
      have hbytes : bytesRead event k = readbuf.val := by simp only [bytesRead, if_pos hin, hread]
      have hmessage : messageStored s.server.toWorld event k = [readbuf.val] := by
        rw [messageStored, hbytes, if_neg hne, hanswers.alloc, hq]
        rfl
      obtain ⟨readbuf', hread', hunread, -⟩ := hanswers.read i event hphase hi hin
      obtain rfl : readbuf = readbuf' := ReadResult.bytes.inj (hread.symm.trans hread')
      have htake : s.take (s.connOf event.fd) (bytesRead event k)
          (messageStored s.server.toWorld event k) =
            s.take (s.connOf event.fd) readbuf.val [readbuf.val] := by rw [hmessage, hbytes]
      rw [observe_client hphase hi htake, if_neg (by simp)]
      exact h.enqueued hqueue hholds rfl rfl hbehind hunread hne readbuf.property
    | allocFailed _ hfail =>
      rw [hanswers.alloc] at hfail
      cases hfail
    | dropped _ hfull =>
      exact absurd (h.holds.q_full hc hfull _ _) (hanswers.room i event _ hphase hi hdata)
  · have hnone := bytesRead_of_not_receives hdata
    have htake : s.take (s.connOf event.fd) (bytesRead event k)
        (messageStored s.server.toWorld event k) = s := by
      rw [messageStored, if_pos hnone, hnone, take_nil]
    by_cases hclose : Closes event k
    · obtain ⟨hpos, hend⟩ := h.at_end hanswers hphase hi hclose
      rw [handleClientEvent_closes hclose] at hhandle
      cases hhandle
      have hopen : event.fd ∈ s.server.opened :=
        h.table.isOpen _ (Server.mem_entries hevent) hpos
      rw [observe_client hphase hi htake, if_pos ⟨hopen, by simp [World.removeClient]⟩]
      exact h.closed hqueue hevent hpos rfl hbehind hend
    · rw [handleClientEvent_ignores hclose hdata] at hhandle
      cases hhandle
      rw [observe_client hphase hi htake, if_neg (by simp)]
      exact h.idle (h.table.frame rfl (fun fd hfd => hfd) hbehind) hqueue h.holds rfl
        fun e he => .inl he

/-- A call of the event loop. -/
theorem Lossless.call (hc : CapacityOk c) (h : Lossless c serverFd s) (hanswers : s.Answers k)
    {server : Server} (hstep : s.server.Steps k server) :
    Lossless c serverFd { s.observe k server with server := server } := by
  obtain ⟨t, ht, hmq⟩ := h.queue.undrained hc
  have hqueue := (hstep.effect hc ht hmq).broadcasting h.queue
  have hmoved (phase : Phase) (hbehind : ∀ i, phase = .clientEvents i → 1 ≤ i) :
      Lossless c serverFd { s with server := { s.server with phase := phase } } :=
    h.idle (h.table.frame rfl (fun fd hfd => hfd) hbehind) h.queue h.holds rfl fun e he => .inl he
  cases hstep.move with
  | failed hphase =>
    simp only [observe, hphase]
    exact hmoved .stopped nofun
  | polled hphase hpoll =>
    simp only [observe, hphase]
    exact h.polled hanswers hphase hpoll
  | @server event fds phase hphase hfds hnext =>
    have hbehind : ∀ i, phase = .clientEvents i → 1 ≤ i := by
      rintro i rfl
      rcases hnext with hnext | hnext
      · cases hnext
      · cases hnext
        exact Nat.le_refl 1
    have he := handleServerEvent_effect event s.server.toWorld k
    generalize handleServerEvent event s.server.toWorld k = r at he hqueue
    obtain ⟨rv, w⟩ := r
    cases he with
    | unchanged =>
      have hsame : ¬ (k.accept ∈ s.server.opened ∧ k.accept ∉ s.server.opened) :=
        fun hboth => hboth.2 hboth.1
      simp only [observe, hphase, if_neg hsame]
      exact hmoved phase hbehind
    | notWatched => exact h.served hanswers hphase hqueue ⟨_, rfl⟩ (.inl rfl) rfl hbehind
    | notRegistered _ hfail =>
      rw [hanswers.alloc] at hfail
      cases hfail
    | accepted => exact h.served hanswers hphase hqueue ⟨_, rfl⟩ (.inr rfl) rfl hbehind
  | client hphase hi hhandle => exact h.handled hc hanswers hphase hi hhandle hqueue
  | walked hphase hi =>
    simp only [observe, hphase, hi]
    apply hmoved
    rintro j ⟨⟩
  | @flushed i event rc writes mq hphase hflush =>
    obtain ⟨clients, -, rfl⟩ := flush_offsets hflush
    simp only [observe, hphase]
    exact h.idle (h.table.frame rfl (fun fd hfd => hfd) nofun) hqueue
      (h.holds.withClients clients) rfl fun e he => .inl he
  | drained hphase =>
    simp only [observe, hphase]
    exact hmoved .polling nofun
  | stopped hphase =>
    simp only [observe, hphase]
    exact h

theorem Step.lossless (hc : CapacityOk c) (h : Lossless c serverFd s) {event : IngestEvent}
    (hstep : s.Step event s') : Lossless c serverFd s' := by
  cases event with
  | arrive n bytes =>
    obtain ⟨hopen, rfl⟩ := hstep
    exact h.arrived bytes hopen
  | stop n =>
    obtain rfl := hstep
    exact h.stopped n
  | call k =>
    obtain ⟨hanswers, server, hsteps, rfl⟩ := hstep
    exact h.call hc hanswers hsteps

theorem lossless_start (hc : CapacityOk c) (hfd : 0 ≤ serverFd) (hcap : 0 < capacity) :
    Lossless c serverFd (start (Server.start c capacity serverFd)) := by
  have hserving := Server.serving_start (c := c) hfd hcap
  have hentries : (Server.start c capacity serverFd).entries = [serverFd] := by
    have hwatch : (Fds.mk capacity []).watch serverFd =
        (0, ⟨capacity, [⟨serverFd, pollin ||| pollrdhup, 0⟩]⟩) :=
      Fds.watch_new hcap (by simp)
    rw [World.entries, Server.start, hwatch]
    rfl
  refine ⟨?_, hserving.queue, holds_fresh hc, ?_, ?_, fun _ _ => rfl, fun _ => rfl, ?_, ?_,
    fun _ hclosed => Bool.noConfusion hclosed⟩
  · obtain ⟨e, fds, hfds, he, -⟩ := List.map_eq_cons_iff.mp hentries
    refine ⟨⟨e, fds, hfds, he⟩, ?_, ?_, hserving.behind⟩
    · change (Server.start c capacity serverFd).entries.Nodup
      rw [hentries]
      exact List.nodup_cons.mpr ⟨List.not_mem_nil, List.nodup_nil⟩
    · intro fd hmem _
      change fd ∈ (Server.start c capacity serverFd).entries at hmem
      rw [hentries] at hmem
      exact hmem
  · intro fd hmem hne
    exact absurd (List.mem_singleton.mp hmem) hne
  · intro fd hmem fd' _ hne
    exact absurd (List.mem_singleton.mp hmem) hne
  · intro p hp
    exact absurd hp List.not_mem_nil
  · intro e he
    have hnil : (Server.start c capacity serverFd).fdstate.fds.drop 1 = [] := by
      obtain ⟨e, fds, hfds, -, hrest⟩ := List.map_eq_cons_iff.mp hentries
      rw [hfds, List.map_eq_nil_iff.mp hrest]
      rfl
    change e ∈ (Server.start c capacity serverFd).fdstate.fds.drop 1 at he
    rw [hnil] at he
    cases he

/-- However arrivals and calls are interleaved, the messages enqueued from a connection are a
first part of what was sent on it, cut into pieces of 1 to 512 bytes, and all of it when the
server closes the connection. The queue holds exactly the messages of the log, and every call
returns, so `MQERR_MESSAGE_TOO_LONG` never ends the program. -/
theorem ingest_is_lossless (hc : CapacityOk c) (hfd : 0 ≤ serverFd) (hcap : 0 < capacity)
    {events : List IngestEvent}
    (hrun : Run Step (start (Server.start c capacity serverFd)) events s) :
    (∀ id, (s.messages id).flatten <+: (s.conns id).sent ∧
      (∀ m ∈ s.messages id, 1 ≤ m.length ∧ m.length ≤ maxMessageLength) ∧
      ((s.conns id).closed → (s.messages id).flatten = (s.conns id).sent)) ∧
      s.server.mq.contents = s.log.map Prod.snd ∧
      ∀ k, s.Answers k → ∃ server, s.server.Steps k server := by
  have h : Lossless c serverFd s := hrun.invariant (lossless_start hc hfd hcap)
    fun _ _ _ h hstep => hstep.lossless hc h
  refine ⟨?_, h.holds.contents_eq hc, ?_⟩
  · intro id
    have hstream := h.stream id
    refine ⟨⟨_, hstream⟩, ?_, ?_⟩
    · intro m hm
      obtain ⟨p, hp, rfl⟩ := List.mem_map.mp hm
      exact h.sizes p (List.mem_filter.mp hp).1
    · intro hclosed
      rw [(h.ended id hclosed).1, List.append_nil] at hstream
      exact hstream
  · intro k _
    obtain ⟨t, ht, hmq⟩ := h.queue.undrained hc
    obtain ⟨e, fds, hfds, -⟩ := h.table.head
    obtain ⟨server, hstep, -⟩ := Server.step_effect hc ht hmq (by simp [hfds]) k
    exact ⟨server, hstep⟩

instance (revents : BitVec 16) : Decidable (s.Reported e revents) :=
  inferInstanceAs (Decidable (_ ∧ (_ → _ ∧ _)))

/-- What the next call asks of the kernel, as a test that can be run. -/
def answersCall (s : Ingest) (k : Kernel) : Bool :=
  match s.server.phase with
  | .polling =>
    match k.ppoll with
    | none => true
    | some revents =>
      s.server.fdstate.fds.zipIdx.all fun p => p.2 = 0 ∨ s.Reported p.1 (revents p.2)
  | .serverEvent => k.accept = -1 ∨ 0 ≤ k.accept ∧ k.accept ∉ s.server.opened
  | .clientEvents i =>
    match s.server.fdstate.fds[i]? with
    | none => true
    | some event =>
      let conn := s.conns (s.connOf event.fd)
      !event.reports pollin ||
        match k.read with
        | .error => false
        | .bytes readbuf =>
          if readbuf.val = [] then conn.unread = [] ∧ conn.stopped
          else
            readbuf.val.isPrefixOf conn.unread &&
              match s.server.mq.q readbuf.val k.alloc with
              | .ok (rc, _) => rc ≠ mqerrFull
              | .error _ => true
  | _ => true

/-- The test is enough. -/
theorem answers_of_call (halloc : k.alloc = true) (h : s.answersCall k = true) :
    s.Answers k := by
  refine ⟨halloc, ?_, ?_, ?_, ?_⟩
  · intro hphase
    simpa [answersCall, hphase] using h
  · intro hphase revents hpoll i e hi he
    simp only [answersCall, hphase, hpoll, List.all_eq_true, decide_eq_true_eq] at h
    rcases h (e, i) (List.mk_mem_zipIdx_iff_getElem?.mpr he) with hzero | hreported
    · exact absurd hzero (Nat.one_le_iff_ne_zero.mp hi)
    · exact hreported
  · intro i event hphase hi hin
    simp only [answersCall, hphase, hi, hin, Bool.not_true, Bool.false_or] at h
    cases hread : k.read with
    | error => simp [hread] at h
    | bytes readbuf =>
      simp only [hread] at h
      refine ⟨readbuf, rfl, ?_, ?_⟩
      · split_ifs at h with hnil
        · rw [hnil]
          exact List.nil_prefix
        · simp only [Bool.and_eq_true] at h
          exact List.isPrefixOf_iff_prefix.mp h.1
      · intro hnil
        rw [if_pos hnil] at h
        simpa using h
  · intro i event mq hphase hi hreceives hfull
    obtain ⟨hin, readbuf, hread, hne⟩ := hreceives
    simp only [answersCall, hphase, hi, hin, hread, if_neg hne, Bool.not_true, Bool.false_or,
      Bool.and_eq_true] at h
    simp only [bytesRead, hin, hread, if_true] at hfull
    rw [hfull] at h
    simp at h

/-- The steps as a function, for the runs that are computed. -/
def next (s : Ingest) : IngestEvent → Option Ingest
  | .arrive id bytes =>
    if (s.conns id).stopped then none
    else some (s.setConn id { s.conns id with
      sent := (s.conns id).sent ++ bytes
      unread := (s.conns id).unread ++ bytes })
  | .stop id => some (s.setConn id { s.conns id with stopped := true })
  | .call k =>
    if k.alloc && s.answersCall k then
      match s.server.step k with
      | .ok server => some { s.observe k server with server := server }
      | .error _ => none
    else none

theorem step_of_next {event : IngestEvent} (h : s.next event = some s') : s.Step event s' := by
  cases event with
  | arrive id bytes =>
    simp only [next] at h
    split_ifs at h with hstopped
    exact ⟨by simpa using hstopped, (Option.some.inj h).symm⟩
  | stop id => exact (Option.some.inj h).symm
  | call k =>
    simp only [next] at h
    split_ifs at h with hcall
    obtain ⟨halloc, hanswers⟩ := Bool.and_eq_true_iff.mp hcall
    cases hstep : s.server.step k with
    | error fault =>
      rw [hstep] at h
      cases h
    | ok server =>
      rw [hstep] at h
      exact ⟨answers_of_call halloc hanswers, server, hstep, (Option.some.inj h).symm⟩

/-- A round in which the first client has stopped sending. -/
def ending : Kernel :=
  { Server.sending 0 with
    ppoll := some fun i => if i = 1 then pollin ||| pollrdhup else 0
    read := .bytes ⟨[], Nat.zero_le _⟩ }

/-- A byte arrives, is read and enqueued; the peer stops, and the server closes the
connection. -/
theorem ingest_is_lossless_one :
    ∃ s, Run Step (start (Server.start 2 4 3))
        ([.arrive 0 [97]] ++ List.replicate 6 (.call Server.accepting) ++
          List.replicate 6 (.call (Server.sending 97)) ++ [.stop 0] ++
          List.replicate 3 (.call ending)) s ∧
      s.log = [(0, [97])] ∧ (s.conns 0).closed ∧
      (∀ id, (s.messages id).flatten <+: (s.conns id).sent ∧
        (∀ m ∈ s.messages id, 1 ≤ m.length ∧ m.length ≤ maxMessageLength) ∧
        ((s.conns id).closed → (s.messages id).flatten = (s.conns id).sent)) ∧
        s.server.mq.contents = s.log.map Prod.snd ∧
        ∀ k, s.Answers k → ∃ server, s.server.Steps k server := by
  have hrun : Run Step (start (Server.start 2 4 3))
      ([.arrive 0 [97]] ++ List.replicate 6 (.call Server.accepting) ++
        List.replicate 6 (.call (Server.sending 97)) ++ [.stop 0] ++
        List.replicate 3 (.call ending)) _ :=
    (Run.of_foldlM_some (f := next) rfl).mono fun _ _ _ => step_of_next
  exact ⟨_, hrun, rfl, rfl, ingest_is_lossless ⟨by decide, by decide⟩ (by decide) (by decide) hrun⟩

end Ingest
end SysExploration
