import SysExploration.Server.Accepting
import SysExploration.Server.FdTable

/-! The table of watched descriptors against the client list of the queue. Each handler but
one changes both; the clients dropped from a full queue stay in the table. -/
namespace SysExploration
open MessageQueue

namespace World

/-- The descriptors watched behind the first entry. -/
def watched (w : World) : List ℤ := (w.fdstate.fds.map Pollfd.fd).tail

def registered (w : World) : List ℤ := w.mq.clients.map MQClient.fd

/-- The same descriptors are watched and registered, each once. -/
def Matched (w : World) : Prop := w.watched.Perm w.registered ∧ w.watched.Nodup

/-- Besides, the first entry is the listening socket and all entries are open descriptors. -/
structure Registry (serverFd : ℤ) (w : World) : Prop where
  matched : w.Matched
  table : w.fdstate.fds.map Pollfd.fd = serverFd :: w.watched
  apart : serverFd ∉ w.watched
  opened : ∀ fd ∈ serverFd :: w.watched, fd ∈ w.opened ∧ 0 ≤ fd

variable {serverFd fd : ℤ} {w w' : World}

theorem Registry.frame (h : Registry serverFd w)
    (hfds : w'.fdstate.fds.map Pollfd.fd = w.fdstate.fds.map Pollfd.fd)
    (hreg : w'.registered = w.registered) (hopen : ∀ fd ∈ w.opened, fd ∈ w'.opened) :
    Registry serverFd w' := by
  have hwatched : w'.watched = w.watched := by rw [watched, hfds, watched]
  constructor
  · rw [Matched, hwatched, hreg]
    exact h.matched
  · rw [hfds, hwatched, h.table]
  · rw [hwatched]
    exact h.apart
  · intro fd hmem
    rw [hwatched] at hmem
    exact ⟨hopen fd (h.opened fd hmem).1, (h.opened fd hmem).2⟩

/-- A watched client is removed from both structures. -/
theorem Registry.removeClient (h : Registry serverFd w) (hfd : fd ∈ w.watched) :
    Registry serverFd (w.removeClient fd) := by
  obtain ⟨e₀, rest, hfds, he₀, hrest⟩ := List.map_eq_cons_iff.mp h.table
  obtain ⟨e, hmem, rfl⟩ := List.mem_map.mp (hrest ▸ hfd)
  obtain ⟨front, back, rfl⟩ := List.append_of_mem hmem
  have hnodup := h.matched.2
  have hmiddle : w.watched.Perm (e.fd :: (front ++ back).map Pollfd.fd) := by
    rw [← hrest, List.map_append, List.map_append, List.map_cons]
    exact List.perm_middle
  have hapart : serverFd ≠ e.fd := fun he => h.apart (he ▸ hfd)
  have hfront : ∀ e' ∈ e₀ :: front, e'.fd ≠ e.fd := by
    intro e' hmem'
    rcases List.mem_cons.mp hmem' with rfl | hmem'
    · rw [he₀]
      exact hapart
    · intro he
      have hnew := (List.nodup_cons.mp (hmiddle.nodup_iff.mp hnodup)).1
      rw [← he, List.map_append] at hnew
      exact hnew (List.mem_append_left _ (List.mem_map_of_mem hmem'))
  have hsplit : w.fdstate.fds = (e₀ :: front) ++ e :: back := hfds
  obtain ⟨back', hback, hunwatch⟩ := Fds.unwatch_split hsplit hfront
  have hremoved : (w.removeClient e.fd).fdstate.fds = e₀ :: (front ++ back') := by
    rw [World.removeClient, hunwatch]
    rfl
  have hwatched : (w.removeClient e.fd).watched = (front ++ back').map Pollfd.fd := by
    rw [watched, hremoved]
    rfl
  have hperm : (w.removeClient e.fd).watched.Perm ((front ++ back).map Pollfd.fd) := by
    rw [hwatched]
    exact (hback.append_left front).map Pollfd.fd
  have hnodup' := List.nodup_cons.mp (hmiddle.nodup_iff.mp hnodup)
  refine ⟨⟨hperm.trans ?_, hperm.nodup_iff.mpr hnodup'.2⟩, ?_, ?_, ?_⟩
  · have hreg : (w.removeClient e.fd).registered = w.registered.erase e.fd :=
      unregisterClient_fds w.mq e.fd
    have herase := (h.matched.1.symm.trans hmiddle).erase e.fd
    rw [List.erase_cons_head] at herase
    rw [hreg]
    exact herase.symm
  · rw [hremoved, hwatched, List.map_cons, he₀]
  · intro hmem'
    exact h.apart (hmiddle.mem_iff.mpr (List.mem_cons_of_mem _ (hperm.mem_iff.mp hmem')))
  · intro fd hmem'
    have hold : fd ∈ serverFd :: w.watched ∧ fd ≠ e.fd := by
      rcases List.mem_cons.mp hmem' with rfl | hmem'
      · exact ⟨List.mem_cons_self, hapart⟩
      · have hmem' := hperm.mem_iff.mp hmem'
        refine ⟨List.mem_cons_of_mem _ (hmiddle.mem_iff.mpr (List.mem_cons_of_mem _ hmem')), ?_⟩
        rintro rfl
        exact hnodup'.1 hmem'
    obtain ⟨hopen, hpos⟩ := h.opened fd hold.1
    exact ⟨List.mem_filter.mpr ⟨hopen, by simpa using hold.2⟩, hpos⟩

/-- A fresh descriptor is appended to the table and put in front of the client list. -/
theorem Registry.accepted (h : Registry serverFd w) (hpos : 0 ≤ fd) (hfresh : fd ∉ w.opened)
    (hwatch : (w.fdstate.watch fd).1 ≠ -1) :
    Registry serverFd { w.opening fd with
      fdstate := (w.fdstate.watch fd).2, mq := (w.mq.registerClient fd true).2 } := by
  have hnotin : fd ∉ serverFd :: w.watched := fun hmem => hfresh (h.opened fd hmem).1
  have hroom : w.fdstate.fds.length < w.fdstate.capacity := by
    by_contra hfull
    exact hwatch (by rw [Fds.watch_full (Nat.not_lt.mp hfull)])
  have hnew : ∀ e ∈ w.fdstate.fds, e.fd ≠ fd ∧ e.fd ≠ -fd - 1 := by
    intro e hmem
    have hmem' : e.fd ∈ serverFd :: w.watched := h.table ▸ List.mem_map_of_mem hmem
    have := (h.opened e.fd hmem').2
    exact ⟨fun he => hnotin (he ▸ hmem'), by omega⟩
  rw [Fds.watch_new hroom hnew]
  have hwatched : ((w.fdstate.fds ++ [(⟨fd, pollin ||| pollrdhup, 0⟩ : Pollfd)]).map
      Pollfd.fd) = serverFd :: (w.watched ++ [fd]) := by
    rw [List.map_append, h.table]
    rfl
  refine ⟨⟨?_, ?_⟩, ?_, ?_, ?_⟩
  · change (List.tail _).Perm (fd :: w.registered)
    rw [hwatched]
    exact (List.perm_append_singleton fd w.watched).trans (h.matched.1.cons fd)
  · change (List.tail _).Nodup
    rw [hwatched, List.tail_cons, (List.perm_append_singleton fd w.watched).nodup_iff]
    exact List.nodup_cons.mpr ⟨fun hmem => hnotin (List.mem_cons_of_mem _ hmem), h.matched.2⟩
  · change _ = serverFd :: List.tail _
    rw [hwatched]
    rfl
  · change serverFd ∉ List.tail _
    rw [hwatched, List.tail_cons, List.mem_append, List.mem_singleton]
    rintro (hmem | rfl)
    · exact h.apart hmem
    · exact hnotin List.mem_cons_self
  · intro fd' hmem
    change fd' ∈ serverFd :: List.tail _ at hmem
    rw [hwatched, List.tail_cons, ← List.cons_append, List.mem_append, List.mem_singleton] at hmem
    have hopening : (w.opening fd).opened = fd :: w.opened := if_pos hpos
    change fd' ∈ (w.opening fd).opened ∧ 0 ≤ fd'
    rw [hopening]
    rcases hmem with hmem | rfl
    · exact ⟨List.mem_cons_of_mem _ (h.opened fd' hmem).1, (h.opened fd' hmem).2⟩
    · exact ⟨List.mem_cons_self, hpos⟩

end World
namespace Server

variable {c capacity : ℕ} {serverFd : ℤ} {s s' : Server} {k : Kernel} {L : List Bytes}

/-- `accept` returns a descriptor that is not open, and allocations succeed. -/
def Allowed (s : Server) (k : Kernel) : Prop :=
  (s.phase = .serverEvent → 0 ≤ k.accept ∧ k.accept ∉ s.opened) ∧ k.alloc = true ∧
    k.allocAgain = true

instance (s : Server) (k : Kernel) : Decidable (s.Allowed k) :=
  inferInstanceAs (Decidable (_ ∧ _))

def FreshStep (s : Server) (k : Kernel) (s' : Server) : Prop := s.Allowed k ∧ s.Steps k s'

/-- The step returns, and the table and the client list then name the same clients. -/
def StaysMatched (s : Server) (k : Kernel) : Prop :=
  s.Allowed k → ∃ s', s.Steps k s' ∧ s'.Matched

/-- When data is read while the ring is full, no client's offset is within the part of the
ring behind `start` from which clients are dropped. -/
def KicksNobody (s : Server) (k : Kernel) : Prop :=
  s.Allowed k → ∀ i event, s.phase = .clientEvents i → s.fdstate.fds[i]? = some event →
    Receives event k → s.mq.getLength = s.mq.capacity →
    ∀ cl ∈ s.mq.clients, truncMul04 s.mq.capacity ≤ s.mq.clientOff cl

structure Serving (c : ℕ) (serverFd : ℤ) (s : Server) : Prop where
  queue : Broadcasting c s.mq
  registry : s.Registry serverFd
  behind : ∀ i, s.phase = .clientEvents i → 1 ≤ i

theorem serving_start (hfd : 0 ≤ serverFd) (hcap : 0 < capacity) :
    Serving c serverFd (start c capacity serverFd) := by
  have hwatch : (Fds.mk capacity []).watch serverFd =
      (0, ⟨capacity, [⟨serverFd, pollin ||| pollrdhup, 0⟩]⟩) :=
    Fds.watch_new hcap (by simp)
  have hstart : start c capacity serverFd =
      ⟨⟨⟨capacity, [⟨serverFd, pollin ||| pollrdhup, 0⟩]⟩, fresh c, [serverFd]⟩, .polling⟩ := by
    rw [start, hwatch]
    rfl
  rw [hstart]
  refine ⟨⟨[], _, .nil, rfl⟩, ⟨⟨.refl _, List.nodup_nil⟩, rfl, List.not_mem_nil, ?_⟩, nofun⟩
  intro fd hmem
  rw [List.mem_singleton.mp hmem]
  exact ⟨List.mem_cons_self, hfd⟩

/-- Dropping clients from a full ring keeps the structures matched if and only if it drops
none. -/
theorem matched_dropSlowConsumers_iff (hc : CapacityOk c) {w : World}
    (h : w.mq.Holds c 0 L) (hfull : L.length = c) (hmatched : w.Matched) :
    World.Matched { w with mq := w.mq.dropSlowConsumers } ↔
      ∀ cl ∈ w.mq.clients, truncMul04 w.mq.capacity ≤ w.mq.clientOff cl := by
  rw [h.dropSlowConsumers_full hc hfull]
  constructor
  · rintro ⟨hperm, -⟩
    have hlen := hperm.length_eq.symm.trans hmatched.1.length_eq
    simp only [World.registered, List.length_map] at hlen
    simpa using List.length_filter_eq_length_iff.mp hlen
  · intro hkeep
    have hfilter : (w.mq.clients.filter fun cl =>
        !decide (w.mq.clientOff cl < truncMul04 w.mq.capacity)) = w.mq.clients :=
      List.filter_eq_self.mpr (by simpa using hkeep)
    rw [World.Matched, World.registered]
    simp only [hfilter]
    exact hmatched

/-- The entry a client event is handled for is one of a client. -/
theorem Serving.mem_watched (h : Serving c serverFd s) {i : ℕ} {event : Pollfd}
    (hphase : s.phase = .clientEvents i) (hfds : s.fdstate.fds[i]? = some event) :
    event.fd ∈ s.watched := by
  obtain ⟨j, rfl⟩ := Nat.exists_eq_add_of_le' (h.behind i hphase)
  have hj : (s.fdstate.fds.map Pollfd.fd)[j + 1]? = some event.fd := by
    rw [List.getElem?_map, hfds]
    rfl
  rw [h.registry.table, List.getElem?_cons_succ] at hj
  exact List.mem_of_getElem? hj

/-- Every effect but a drop from a full ring keeps the registry. -/
theorem Effect.registry (h : Serving c serverFd s) (hallowed : s.Allowed k)
    (he : Effect c L s k s') :
    s'.Registry serverFd ∨
      ∃ i event, s.phase = .clientEvents i ∧ s.fdstate.fds[i]? = some event ∧
        Receives event k ∧ L.length = c ∧
        s' = ⟨{ s.toWorld with mq := s.mq.dropSlowConsumers }, .clientEvents (i + 1)⟩ := by
  have hreg := h.registry
  cases he with
  | moved => exact .inl hreg
  | polled revents =>
    exact .inl (hreg.frame (s.fdstate.poll_fds revents) rfl fun _ hmem => hmem)
  | server hphase he =>
    obtain ⟨hpos, hfresh⟩ := hallowed.1 hphase
    cases he with
    | unchanged => exact .inl hreg
    | notWatched =>
      refine .inl (hreg.frame rfl rfl fun fd hmem => ?_)
      simp only [World.opening, if_pos hpos]
      exact List.mem_cons_of_mem _ hmem
    | notRegistered _ hfail =>
      rw [hallowed.2.1] at hfail
      cases hfail
    | accepted hwatch => exact .inl (hreg.accepted hpos hfresh hwatch)
  | client hphase hfds he =>
    cases he with
    | unchanged => exact .inl hreg
    | removed => exact .inl (hreg.removeClient (h.mem_watched hphase hfds))
    | enqueued _ _ _ _ _ hcl =>
      refine .inl (hreg.frame rfl ?_ fun _ hmem => hmem)
      simp only [World.registered, hcl]
    | allocFailed => exact .inl hreg
    | dropped hreceives hfull => exact .inr ⟨_, _, hphase, hfds, hreceives, hfull, rfl⟩
  | flushed hphase hflush =>
    exact .inl (hreg.frame rfl (flush_fds hflush) fun _ hmem => hmem)

/-- Data read while the ring is full is answered by a drop. -/
theorem step_dropped (hc : CapacityOk c) (hholds : s.mq.Holds c 0 L) {i : ℕ} {event : Pollfd}
    (hphase : s.phase = .clientEvents i) (hfds : s.fdstate.fds[i]? = some event)
    (hreceives : Receives event k) (hfull : L.length = c) :
    s.Steps k ⟨{ s.toWorld with mq := s.mq.dropSlowConsumers }, .clientEvents (i + 1)⟩ := by
  obtain ⟨rv, w, heq, he⟩ := handleClientEvent_effect hc hholds event k
  cases he with
  | unchanged hnot => exact absurd hreceives hnot
  | removed hnot => exact absurd hreceives hnot
  | enqueued _ _ hroom => exact absurd hfull (Nat.ne_of_lt hroom)
  | allocFailed hroom => exact absurd hfull (Nat.ne_of_lt hroom)
  | dropped => simp only [Steps, step, hphase, hfds, heq]; rfl

theorem Serving.staysMatched_iff (hc : CapacityOk c) (h : Serving c serverFd s) (k : Kernel) :
    s.StaysMatched k ↔ s.KicksNobody k := by
  obtain ⟨t, ht, hmq⟩ := h.queue.undrained hc
  have hholds : s.mq.Holds c 0 t.accepted := hmq ▸ ht.holds_accepted
  constructor
  · intro hstays hallowed i event hphase hfds hreceives hfull
    rw [hholds.getLength_eq hc, hholds.capacity] at hfull
    obtain ⟨s', hs', hmatched⟩ := hstays hallowed
    obtain rfl := Except.ok.inj
      ((step_dropped hc hholds hphase hfds hreceives hfull).symm.trans hs')
    exact (matched_dropSlowConsumers_iff hc hholds hfull h.registry.matched).mp hmatched
  · intro hkicks hallowed
    have hne : s.fdstate.fds ≠ [] := by
      intro hnil
      have htable := h.registry.table
      rw [hnil] at htable
      cases htable
    obtain ⟨s', hs', he⟩ := step_effect hc ht hmq hne k
    refine ⟨s', hs', ?_⟩
    rcases he.registry h hallowed with hreg | ⟨i, event, hphase, hfds, hreceives, hfull, rfl⟩
    · exact hreg.matched
    · apply (matched_dropSlowConsumers_iff hc hholds hfull h.registry.matched).mpr
      apply hkicks hallowed i event hphase hfds hreceives
      rw [hholds.getLength_eq hc, hholds.capacity, hfull]

theorem FreshStep.serving (hc : CapacityOk c) (h : Serving c serverFd s)
    (hkicks : s.KicksNobody k) (hstep : s.FreshStep k s') : Serving c serverFd s' := by
  obtain ⟨hallowed, hs⟩ := hstep
  obtain ⟨t, ht, hmq⟩ := h.queue.undrained hc
  have hholds : s.mq.Holds c 0 t.accepted := hmq ▸ ht.holds_accepted
  have he := hs.effect hc ht hmq
  refine ⟨he.broadcasting h.queue, ?_, ?_⟩
  · rcases he.registry h hallowed with hreg | ⟨i, event, hphase, hfds, hreceives, hfull, rfl⟩
    · exact hreg
    · have hkeep := hkicks hallowed i event hphase hfds hreceives
        (by rw [hholds.getLength_eq hc, hholds.capacity, hfull])
      obtain ⟨s'', hs'', hmatched⟩ := (h.staysMatched_iff hc k).mpr hkicks hallowed
      obtain rfl := Except.ok.inj (hs.symm.trans hs'')
      exact ⟨hmatched, h.registry.table, h.registry.apart, h.registry.opened⟩
  · intro i hphase
    cases he with
    | moved phase hne => exact absurd hphase (hne i)
    | polled => cases hphase
    | server _ he =>
      dsimp only at hphase
      split_ifs at hphase
      cases hphase
      exact Nat.le_refl 1
    | client hold =>
      cases hphase
      exact Nat.succ_le_succ (Nat.zero_le _)
    | flushed => cases hphase

/-- Along a run of the event loop the table and the client list match after every step if
and only if no handler drops a client from the full queue. -/
theorem registered_matches_watched_iff (hc : CapacityOk c) (hfd : 0 ≤ serverFd)
    (hcap : 0 < capacity) (ks : List Kernel) :
    Along FreshStep (start c capacity serverFd) StaysMatched ks ↔
      Along FreshStep (start c capacity serverFd) KicksNobody ks := by
  apply along_iff (I := Serving c serverFd) (serving_start hfd hcap)
  · intro s k s' h hkicks hstep
    exact hstep.serving hc h hkicks
  · intro s k h
    exact h.staysMatched_iff hc k

/-- The step, defined on the kernels it is considered with. -/
def allowedStep (s : Server) (k : Kernel) : Except Fault Server :=
  if s.Allowed k then s.step k else .error .exit

theorem freshStep_of_allowedStep (h : s.allowedStep k = .ok s') : s.FreshStep k s' := by
  unfold allowedStep at h
  split_ifs at h with hallowed
  exact ⟨hallowed, h⟩

/-- The equivalence for a run in which one client sends two messages to a queue of three. -/
theorem registered_matches_watched_iff_three :
    Along FreshStep (start 3 4 3) StaysMatched
        (List.replicate 6 accepting ++ List.replicate 12 (sending 97)) ↔
      Along FreshStep (start 3 4 3) KicksNobody
        (List.replicate 6 accepting ++ List.replicate 12 (sending 97)) :=
  registered_matches_watched_iff ⟨by decide, by decide⟩ (by decide) (by decide) _

/-- Three slots hold three messages, all written to the only client. Its fourth message
removes it from the client list, and it stays watched. -/
theorem kicked_client_watched :
    ¬ Along FreshStep (start 3 4 3) StaysMatched
      (List.replicate 6 accepting ++ List.replicate 6 (sending 97) ++
        List.replicate 6 (sending 98) ++ List.replicate 6 (sending 99) ++
        List.replicate 2 (sending 100) ++ [sending 100]) := by
  intro h
  have hrun : Run FreshStep (start 3 4 3)
      (List.replicate 6 accepting ++ List.replicate 6 (sending 97) ++
        List.replicate 6 (sending 98) ++ List.replicate 6 (sending 99) ++
        List.replicate 2 (sending 100)) _ :=
    Run.of_foldlM (f := allowedStep) rfl fun _ _ _ _ => freshStep_of_allowedStep
  obtain ⟨s', hs', hmatched, -⟩ := h _ (sending 100) [] _ rfl hrun (by decide)
  cases hs'
  exact absurd hmatched.length_eq (by decide)

end Server
end SysExploration
