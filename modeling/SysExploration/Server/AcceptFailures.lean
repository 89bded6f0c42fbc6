import SysExploration.Server.Registration
import SysExploration.Server.Walk

/-! What becomes of a client when `accept`, `fd_state__watch` or `message_queue__register_client`
fails. The handler does not look at the result of `accept`, and it does not take back the
watch when the registration fails. -/
namespace SysExploration
open MessageQueue

namespace World

variable {event : Pollfd} {w w' : World} {k : Kernel} {fd : ℤ}

/-- All watched descriptors. -/
def entries (w : World) : List ℤ := w.fdstate.fds.map Pollfd.fd

/-- What `accept` returns: -1, or a descriptor that is new to the table and the client list. -/
def Fresh (w : World) (fd : ℤ) : Prop := fd = -1 ∨ 0 ≤ fd ∧ fd ∉ w.entries ∧ fd ∉ w.registered

/-- The client is watched and registered once, or nothing has changed. -/
def AllOrNothing (w : World) (fd : ℤ) (w' : World) : Prop :=
  0 ≤ fd ∧ w'.entries.count fd = 1 ∧ w'.registered.count fd = 1 ∨
    w'.fdstate = w.fdstate ∧ w'.mq.clients = w.mq.clients

/-- `fd_state__watch` finds the descriptor in the table, or its complement. -/
def Known (w : World) (fd : ℤ) : Prop := ∃ e ∈ w.fdstate.fds, e.fd = fd ∨ e.fd = -fd - 1

/-- No client is accepted, or the table is full; or a new client is watched and registered;
or neither of the two is done, because the descriptor is taken for a watched one and the
allocation fails. -/
def AcceptsCleanly (event : Pollfd) (w : World) (k : Kernel) : Prop :=
  event.reports (pollerr ||| pollnval) = true ∨ event.reports pollin = false ∨
    w.fdstate.capacity ≤ w.fdstate.fds.length ∨
    (k.alloc = true ∧ 0 ≤ k.accept ∧ ¬ w.Known k.accept) ∨ (k.alloc = false ∧ w.Known k.accept)

theorem watch_known (hroom : w.fdstate.fds.length < w.fdstate.capacity) (h : w.Known fd) :
    w.fdstate.watch fd = (0, w.fdstate) := by
  have hany : (w.fdstate.fds.any fun e => e.fd = fd ∨ e.fd = -fd - 1) = true := by
    simpa [Known] using h
  rw [Fds.watch, if_neg (Nat.not_le.mpr hroom), if_pos hany]

theorem watch_unknown (hroom : w.fdstate.fds.length < w.fdstate.capacity) (h : ¬ w.Known fd) :
    w.fdstate.watch fd =
      (0, { w.fdstate with fds := w.fdstate.fds ++ [⟨fd, pollin ||| pollrdhup, 0⟩] }) := by
  apply Fds.watch_new hroom
  intro e hmem
  exact ⟨fun he => h ⟨e, hmem, .inl he⟩, fun he => h ⟨e, hmem, .inr he⟩⟩

/-- The branch in which a client is accepted, while the table has room. -/
theorem handleServerEvent_accept (herr : event.reports (pollerr ||| pollnval) = false)
    (hin : event.reports pollin = true) (hwatch : (w.fdstate.watch k.accept).1 = 0) :
    (handleServerEvent event w k).2.fdstate = (w.fdstate.watch k.accept).2 ∧
      (handleServerEvent event w k).2.mq = (w.mq.registerClient k.accept k.alloc).2 ∧
      (handleServerEvent event w k).2.opened = (w.opening k.accept).opened := by
  have hne : (w.fdstate.watch k.accept).1 ≠ -1 := by omega
  unfold handleServerEvent
  rw [if_neg (by simp [herr]), if_pos hin]
  simp only [if_neg hne]
  cases k.alloc <;> exact ⟨rfl, rfl, rfl⟩

/-- The cases in which the handler changes nothing but the descriptors the server has. -/
theorem handleServerEvent_nothing
    (h : event.reports (pollerr ||| pollnval) = true ∨ event.reports pollin = false ∨
      w.fdstate.capacity ≤ w.fdstate.fds.length) :
    (handleServerEvent event w k).2.fdstate = w.fdstate ∧
      (handleServerEvent event w k).2.mq = w.mq := by
  unfold handleServerEvent
  by_cases herr : event.reports (pollerr ||| pollnval) = true
  · rw [if_pos herr]
    exact ⟨rfl, rfl⟩
  rw [if_neg herr]
  by_cases hin : event.reports pollin = true
  · have hfull : w.fdstate.capacity ≤ w.fdstate.fds.length := by
      rcases h with h | h | h
      · exact absurd h herr
      · simp [hin] at h
      · exact h
    rw [if_pos hin]
    simp only [Fds.watch_full hfull]
    exact ⟨rfl, rfl⟩
  · rw [if_neg hin]
    exact ⟨rfl, rfl⟩

theorem Fresh.new (h : w.Fresh fd) (hpos : 0 ≤ fd) : fd ∉ w.entries ∧ fd ∉ w.registered := by
  rcases h with rfl | ⟨-, hnew⟩
  · exact absurd hpos (by decide)
  · exact hnew

/-- The descriptor is taken for a watched one: only the client list can change. -/
theorem allOrNothing_known_iff (hfresh : w.Fresh fd) {alloc : Bool} (hfds : w'.fdstate = w.fdstate)
    (hmq : w'.mq = (w.mq.registerClient fd alloc).2) :
    w.AllOrNothing fd w' ↔ alloc = false := by
  cases alloc with
  | false => exact iff_of_true (.inr ⟨hfds, by rw [hmq]; rfl⟩) rfl
  | true =>
    refine iff_of_false ?_ (by decide)
    rintro (⟨hpos, hcount, -⟩ | ⟨-, hclients⟩)
    · rw [entries, hfds] at hcount
      have := List.count_eq_zero_of_not_mem (hfresh.new hpos).1
      rw [entries] at this
      omega
    · rw [hmq] at hclients
      exact absurd (congrArg List.length hclients) (by simp [registerClient])

/-- The descriptor is new to the table. -/
theorem allOrNothing_unknown_iff (hfresh : w.Fresh fd) {alloc : Bool}
    (hfds : w'.fdstate =
      { w.fdstate with fds := w.fdstate.fds ++ [⟨fd, pollin ||| pollrdhup, 0⟩] })
    (hmq : w'.mq = (w.mq.registerClient fd alloc).2) :
    w.AllOrNothing fd w' ↔ alloc = true ∧ 0 ≤ fd := by
  have hentries : w'.entries = w.entries ++ [fd] := by
    rw [entries, hfds, List.map_append]
    rfl
  have hgrown : w'.fdstate ≠ w.fdstate := by
    intro he
    rw [hfds] at he
    exact absurd (congrArg (fun state => state.fds.length) he) (by simp)
  cases alloc with
  | false =>
    refine iff_of_false ?_ (by simp)
    rintro (⟨hpos, -, hcount⟩ | ⟨hsame, -⟩)
    · rw [registered, hmq] at hcount
      have := List.count_eq_zero_of_not_mem (hfresh.new hpos).2
      rw [registered] at this
      change (w.mq.clients.map MQClient.fd).count fd = 1 at hcount
      omega
    · exact hgrown hsame
  | true =>
    have hregistered : w'.registered = fd :: w.registered := by
      rw [registered, hmq]
      rfl
    constructor
    · rintro (⟨hpos, -⟩ | ⟨hsame, -⟩)
      · exact ⟨rfl, hpos⟩
      · exact absurd hsame hgrown
    · rintro ⟨-, hpos⟩
      obtain ⟨hentry, hreg⟩ := hfresh.new hpos
      refine .inl ⟨hpos, ?_, ?_⟩
      · rw [hentries, List.count_append, List.count_eq_zero_of_not_mem hentry,
          List.count_singleton_self]
      · rw [hregistered, List.count_cons_self, List.count_eq_zero_of_not_mem hreg]

theorem handleServerEvent_opened (event : Pollfd) (w : World) (k : Kernel) :
    (handleServerEvent event w k).2.opened = w.opened ∨
      (handleServerEvent event w k).2.opened = (w.opening k.accept).opened := by
  have he := handleServerEvent_effect event w k
  generalize handleServerEvent event w k = r at he
  obtain ⟨rv, w'⟩ := r
  cases he with
  | unchanged => exact .inl rfl
  | notWatched => exact .inr rfl
  | notRegistered => exact .inr rfl
  | accepted => exact .inr rfl

/-- For every table and client list and every outcome of the three calls. -/
theorem allOrNothing_iff (event : Pollfd) (w : World) (k : Kernel) (hfresh : w.Fresh k.accept) :
    w.AllOrNothing k.accept (handleServerEvent event w k).2 ↔ w.AcceptsCleanly event k := by
  by_cases hnothing : event.reports (pollerr ||| pollnval) = true ∨ event.reports pollin = false ∨
      w.fdstate.capacity ≤ w.fdstate.fds.length
  · obtain ⟨hfds, hmq⟩ := handleServerEvent_nothing (k := k) hnothing
    refine iff_of_true (.inr ⟨hfds, by rw [hmq]⟩) ?_
    rcases hnothing with h | h | h
    · exact .inl h
    · exact .inr (.inl h)
    · exact .inr (.inr (.inl h))
  obtain ⟨herr, hin, hroom⟩ := not_or.mp hnothing |>.imp_right not_or.mp
  have hcleanly : w.AcceptsCleanly event k ↔
      (k.alloc = true ∧ 0 ≤ k.accept ∧ ¬ w.Known k.accept) ∨
        (k.alloc = false ∧ w.Known k.accept) := by
    simp only [AcceptsCleanly, or_iff_right herr, or_iff_right hin, or_iff_right hroom]
  rw [hcleanly]
  rw [Bool.not_eq_true] at herr
  rw [Bool.not_eq_false] at hin
  rw [Nat.not_le] at hroom
  by_cases hknown : w.Known k.accept
  · have hwatch := watch_known hroom hknown
    obtain ⟨hfds, hmq, -⟩ := handleServerEvent_accept herr hin (by rw [hwatch])
    rw [hwatch] at hfds
    rw [allOrNothing_known_iff hfresh hfds hmq]
    simp [hknown]
  · have hwatch := watch_unknown hroom hknown
    obtain ⟨hfds, hmq, -⟩ := handleServerEvent_accept herr hin (by rw [hwatch])
    rw [hwatch] at hfds
    rw [allOrNothing_unknown_iff hfresh hfds hmq]
    simp [hknown]

/-- No descriptor is watched or registered twice, and those that are, are open. -/
structure Sound (w : World) : Prop where
  distinct : w.entries.Nodup
  once : w.registered.Nodup
  watched : ∀ fd ∈ w.entries, fd ∈ w.opened
  registered : ∀ fd ∈ w.registered, fd ∈ w.opened
  valid : ∀ fd ∈ w.opened, 0 ≤ fd

theorem Sound.frame (h : Sound w) (hentries : w'.entries = w.entries)
    (hreg : w'.registered.Sublist w.registered) (hopened : w'.opened = w.opened) : Sound w' where
  distinct := hentries ▸ h.distinct
  once := h.once.sublist hreg
  watched fd hfd := hopened ▸ h.watched fd (hentries ▸ hfd)
  registered fd hfd := hopened ▸ h.registered fd (hreg.subset hfd)
  valid fd hfd := h.valid fd (hopened ▸ hfd)

theorem Sound.removeClient (h : Sound w) (hevent : event ∈ w.fdstate.fds) :
    Sound (w.removeClient event.fd) := by
  have hperm : (w.removeClient event.fd).entries.Perm (w.entries.erase event.fd) :=
    Fds.unwatch_fds h.distinct hevent
  have hreg : (w.removeClient event.fd).registered = w.registered.erase event.fd :=
    unregisterClient_fds w.mq event.fd
  constructor
  · exact hperm.nodup_iff.mpr (h.distinct.erase event.fd)
  · rw [hreg]
    exact h.once.erase event.fd
  · intro fd hfd
    obtain ⟨hne, hmem⟩ := h.distinct.mem_erase_iff.mp (hperm.mem_iff.mp hfd)
    exact List.mem_filter.mpr ⟨h.watched fd hmem, by simpa using hne⟩
  · intro fd hfd
    rw [hreg] at hfd
    obtain ⟨hne, hmem⟩ := h.once.mem_erase_iff.mp hfd
    exact List.mem_filter.mpr ⟨h.registered fd hmem, by simpa using hne⟩
  · intro fd hfd
    exact h.valid fd (List.mem_filter.mp hfd).1

theorem mem_opening : fd ∈ (w.opening k.accept).opened ↔
    fd ∈ w.opened ∨ 0 ≤ k.accept ∧ fd = k.accept := by
  unfold opening
  split_ifs with hpos <;> simp [hpos, or_comm]

/-- A descriptor that is not open is new to both structures. -/
theorem Sound.fresh (h : Sound w) (haccept : fd = -1 ∨ 0 ≤ fd ∧ fd ∉ w.opened) : w.Fresh fd :=
  haccept.imp_right fun hnew =>
    ⟨hnew.1, mt (h.watched fd) hnew.2, mt (h.registered fd) hnew.2⟩

/-- A descriptor that is only opened. -/
theorem Sound.opening (h : Sound w) (hentries : w'.entries = w.entries)
    (hreg : w'.registered = w.registered)
    (hopened : w'.opened = w.opened ∨ w'.opened = (w.opening k.accept).opened) : Sound w' := by
  rcases hopened with hopened | hopened
  · exact h.frame hentries (hreg ▸ .refl _) hopened
  · refine ⟨hentries ▸ h.distinct, hreg ▸ h.once, ?_, ?_, ?_⟩
    · intro fd hfd
      exact hopened ▸ mem_opening.mpr (.inl (h.watched fd (hentries ▸ hfd)))
    · intro fd hfd
      exact hopened ▸ mem_opening.mpr (.inl (h.registered fd (hreg ▸ hfd)))
    · intro fd hfd
      rcases mem_opening.mp (hopened ▸ hfd) with hmem | ⟨hpos, rfl⟩
      · exact h.valid fd hmem
      · exact hpos

/-- A new client that is watched and registered. -/
theorem Sound.accepted (h : Sound w) (hpos : 0 ≤ fd) (hnew : fd ∉ w.opened)
    (hentries : w'.entries = w.entries ++ [fd]) (hreg : w'.registered = fd :: w.registered)
    (hopened : w'.opened = fd :: w.opened) : Sound w' := by
  have hmem (fd' : ℤ) : fd' ∈ w'.entries ↔ fd' = fd ∨ fd' ∈ w.entries := by
    rw [hentries, List.mem_append, List.mem_singleton, or_comm]
  constructor
  · rw [hentries, (List.perm_append_singleton fd w.entries).nodup_iff]
    exact List.nodup_cons.mpr ⟨mt (h.watched fd) hnew, h.distinct⟩
  · rw [hreg]
    exact List.nodup_cons.mpr ⟨mt (h.registered fd) hnew, h.once⟩
  · intro fd' hfd'
    rw [hopened]
    rcases (hmem fd').mp hfd' with rfl | hold
    · exact List.mem_cons_self
    · exact List.mem_cons_of_mem _ (h.watched fd' hold)
  · rw [hreg, hopened]
    intro fd' hfd'
    exact List.mem_cons.mpr ((List.mem_cons.mp hfd').imp_right (h.registered fd'))
  · rw [hopened]
    intro fd' hfd'
    rcases List.mem_cons.mp hfd' with rfl | hold
    · exact hpos
    · exact h.valid fd' hold

/-- A clean call of the handler of the listening socket. -/
theorem Sound.handleServerEvent (h : Sound w)
    (haccept : k.accept = -1 ∨ 0 ≤ k.accept ∧ k.accept ∉ w.opened)
    (hclean : w.AcceptsCleanly event k) : Sound (handleServerEvent event w k).2 := by
  have hopened := handleServerEvent_opened event w k
  by_cases hnothing : event.reports (pollerr ||| pollnval) = true ∨ event.reports pollin = false ∨
      w.fdstate.capacity ≤ w.fdstate.fds.length
  · obtain ⟨hfds, hmq⟩ := handleServerEvent_nothing (k := k) hnothing
    exact h.opening (by rw [entries, hfds, entries])
      (by rw [World.registered, hmq, World.registered]) hopened
  obtain ⟨herr, hin, hroom⟩ := not_or.mp hnothing |>.imp_right not_or.mp
  rw [AcceptsCleanly, or_iff_right herr, or_iff_right hin, or_iff_right hroom] at hclean
  rw [Bool.not_eq_true] at herr
  rw [Bool.not_eq_false] at hin
  rw [Nat.not_le] at hroom
  rcases hclean with ⟨halloc, hpos, hunknown⟩ | ⟨halloc, hknown⟩
  · have hwatch := watch_unknown hroom hunknown
    obtain ⟨hfds, hmq, hopening⟩ := handleServerEvent_accept herr hin (by rw [hwatch])
    have hnew : k.accept ∉ w.opened := by
      rcases haccept with he | ⟨-, hnew⟩
      · omega
      · exact hnew
    apply h.accepted hpos hnew
    · rw [entries, hfds, hwatch, List.map_append]
      rfl
    · rw [World.registered, hmq, halloc]
      rfl
    · rw [hopening]
      exact if_pos hpos
  · have hwatch := watch_known hroom hknown
    obtain ⟨hfds, hmq, -⟩ := handleServerEvent_accept herr hin (by rw [hwatch])
    apply h.opening _ _ hopened
    · rw [entries, hfds, hwatch, entries]
    · rw [World.registered, hmq, halloc]
      rfl

end World
namespace Server

variable {c capacity : ℕ} {serverFd : ℤ} {s s' : Server} {k : Kernel}

/-- A step in which `accept`, if it is called, returns -1 or a descriptor that is not open.
Allocations may fail. -/
def AcceptStep (s : Server) (k : Kernel) (s' : Server) : Prop :=
  (s.phase = .serverEvent → k.accept = -1 ∨ 0 ≤ k.accept ∧ k.accept ∉ s.opened) ∧ s.Steps k s'

/-- The handler of the listening socket, if the step calls it, accepts cleanly. -/
def StepsCleanly (s : Server) (k : Kernel) : Prop :=
  ∀ event fds, s.phase = .serverEvent → s.fdstate.fds = event :: fds → s.AcceptsCleanly event k

theorem sound_start (hfd : 0 ≤ serverFd) : (start c capacity serverFd).Sound := by
  have hentries : (start c capacity serverFd).entries.Sublist [serverFd] := by
    rw [World.entries, start]
    rcases (Fds.mk capacity []).watch_cases serverFd with h | h
    · simp [h]
    · simp [h]
  have hone : [serverFd].Nodup := List.nodup_cons.mpr ⟨List.not_mem_nil, List.nodup_nil⟩
  refine ⟨hone.sublist hentries, List.nodup_nil, fun fd hmem => hentries.subset hmem, ?_, ?_⟩
  · intro fd hmem
    cases hmem
  intro fd hmem
  rw [List.mem_singleton.mp hmem]
  exact hfd

theorem AcceptStep.sound (h : s.Sound) (hclean : s.StepsCleanly k) (hstep : s.AcceptStep k s') :
    s'.Sound := by
  obtain ⟨haccept, hs⟩ := hstep
  cases hs.move with
  | failed => exact h
  | polled => exact h.frame (s.fdstate.poll_fds _) (.refl _) rfl
  | server hphase hfds => exact h.handleServerEvent (haccept hphase) (hclean _ _ hphase hfds)
  | @client i event rv w hphase hi hhandle =>
    by_cases hclose : Closes event k
    · rw [handleClientEvent_closes hclose] at hhandle
      cases hhandle
      exact h.removeClient (List.mem_of_getElem? hi)
    · obtain ⟨hfds, hopened, hclients⟩ := handleClientEvent_keeps hclose hhandle
      exact h.frame (by simp only [World.entries, hfds]) (hclients.map _) hopened
  | walked => exact h
  | @flushed i event rc writes mq hphase hflush =>
    have hreg : (mq.clients.map MQClient.fd).Sublist (s.mq.clients.map MQClient.fd) :=
      flush_fds hflush ▸ .refl _
    exact h.frame rfl hreg rfl
  | drained => exact h
  | stopped => exact h

/-- A call of the handler is all or nothing if and only if it accepts cleanly, for every table
and client list and every outcome of the three calls. In a run whose calls all do, -1 is
never watched or registered and no descriptor is registered twice. -/
theorem accepts_all_or_nothing_iff (hfd : 0 ≤ serverFd) :
    (∀ event w k, World.Fresh w k.accept →
      (w.AllOrNothing k.accept (handleServerEvent event w k).2 ↔ w.AcceptsCleanly event k)) ∧
      ∀ ks s, Along AcceptStep (start c capacity serverFd) StepsCleanly ks →
        Run AcceptStep (start c capacity serverFd) ks s →
          -1 ∉ s.entries ∧ -1 ∉ s.registered ∧ s.registered.Nodup := by
  refine ⟨World.allOrNothing_iff, ?_⟩
  intro ks s hclean hrun
  have h : s.Sound := hclean.invariant (I := fun s => s.Sound) (sound_start hfd)
    (fun s k s' h hclean hstep => hstep.sound h hclean) hrun ⟨[], (List.append_nil ks).symm⟩
  have hneg : (-1 : ℤ) ∉ s.opened := fun hmem => absurd (h.valid (-1) hmem) (by decide)
  exact ⟨mt (h.watched (-1)) hneg, mt (h.registered (-1)) hneg, h.once⟩

theorem acceptStep_unique (s : Server) (k : Kernel) (t t' : Server) (h : AcceptStep s k t)
    (h' : AcceptStep s k t') : t = t' :=
  Except.ok.inj (h.2.symm.trans h'.2)

/-- The step, defined on the outcomes of `accept` it is considered with. -/
def acceptStep (s : Server) (k : Kernel) : Except Fault Server :=
  if s.phase = .serverEvent → k.accept = -1 ∨ 0 ≤ k.accept ∧ k.accept ∉ s.opened then s.step k
  else .error .exit

theorem acceptStep_of_eq (h : s.acceptStep k = .ok s') : s.AcceptStep k s' := by
  unfold acceptStep at h
  split_ifs at h with haccept
  exact ⟨haccept, h⟩

/-- The listening socket is descriptor 3 and the first client gets descriptor 7. -/
theorem accepts_all_or_nothing_iff_seven :
    ∃ t s, Run AcceptStep (start 2 4 3) [accepting] t ∧
      Run AcceptStep (start 2 4 3) [accepting, accepting] s ∧
      (t.AllOrNothing 7 (handleServerEvent ⟨3, pollin ||| pollrdhup, pollin⟩ t.toWorld
          accepting).2 ↔
        t.AcceptsCleanly ⟨3, pollin ||| pollrdhup, pollin⟩ accepting) ∧
      -1 ∉ s.entries ∧ -1 ∉ s.registered ∧ s.registered.Nodup := by
  have hfirst : Run AcceptStep (start 2 4 3) ([] ++ [accepting]) _ :=
    .snoc .nil (acceptStep_of_eq rfl)
  have hrun : Run AcceptStep (start 2 4 3) ([] ++ [accepting] ++ [accepting]) _ :=
    .snoc hfirst (acceptStep_of_eq rfl)
  obtain ⟨hcall, hruns⟩ := @accepts_all_or_nothing_iff 2 4 3 (by decide)
  refine ⟨_, _, hfirst, hrun, hcall _ _ accepting (.inr (by decide)), hruns _ _ ?_ hrun⟩
  rw [hfirst.along_concat acceptStep_unique, Run.along_concat acceptStep_unique .nil]
  refine ⟨⟨?_, ?_⟩, ?_⟩
  · intro pre i post s he
    simp at he
  · intro event fds hphase
    cases hphase
  · intro event fds hphase hfds
    cases hfds
    refine .inr (.inr (.inr (.inl ⟨rfl, by decide, ?_⟩)))
    rintro ⟨e, hmem, he⟩
    obtain rfl := List.mem_singleton.mp hmem
    exact absurd he (by decide)

/-- A round in which `accept` fails. -/
def refusing : Kernel := { accepting with accept := -1 }

/-- Two rounds in which `accept` fails: -1 is watched once and registered twice, although it
is no descriptor. -/
theorem failed_accept_registered :
    ∃ t s, Run AcceptStep (start 2 4 3) [refusing] t ∧ t.Fresh refusing.accept ∧
      ¬ t.AllOrNothing refusing.accept
        (handleServerEvent ⟨3, pollin ||| pollrdhup, pollin⟩ t.toWorld refusing).2 ∧
      Run AcceptStep (start 2 4 3) (List.replicate 8 refusing) s ∧
      s.entries = [3, -1] ∧ s.registered = [-1, -1] := by
  have hfirst : Run AcceptStep (start 2 4 3) [refusing] _ := .single (acceptStep_of_eq rfl)
  have hrun : Run AcceptStep (start 2 4 3) (List.replicate 8 refusing) _ :=
    Run.of_foldlM (f := acceptStep) rfl fun _ _ _ _ => acceptStep_of_eq
  refine ⟨_, _, hfirst, .inl rfl, ?_, hrun, rfl, rfl⟩
  rintro (⟨hpos, -⟩ | ⟨hfds, -⟩)
  · exact absurd hpos (by decide)
  · exact absurd (congrArg (fun state => state.fds.length) hfds) (by decide)

end Server
end SysExploration
