import SysExploration.Server.Streams

/-! What reaches the connections: everything, in each pass over the table whose writes succeed,
as long as the ring is not full and no write is short; and nothing more of what is read once it
is full. -/
namespace SysExploration.Traced
open MessageQueue

variable {c capacity : ℕ} {serverFd fd : ℤ} {r r' : Traced} {k : Kernel} {ks ks' : List Kernel}
  {L L' : List Bytes}

/-- A connection to which nothing of a full ring was written is never written to. -/
theorem Step.stays_silent (hc : CapacityOk c) (h : Streams c L r) (hfull : L.length = c)
    (hpos : 0 ≤ fd) (hsilent : Syscall.written fd r.trace = []) (hstep : r.Step k r') :
    Syscall.written fd r'.trace = [] := by
  obtain ⟨L', calls, hdid, htrace, -⟩ := hstep.streams hc h
  rw [htrace]
  generalize r'.toWorld = w at hdid
  cases hdid with
  | idle _ hquiet => rw [Syscall.written_quiet hquiet, hsilent]
  | closed _ hquiet => rw [Syscall.written_quiet hquiet, hsilent]
  | stored _ _ hroom => omega
  | dropped => rw [Syscall.written_quiet (by simp [Syscall.Quiet]), hsilent]
  | accepted serverFd =>
    by_cases he : k.accept = fd
    · rw [he, Syscall.written_accept]
    · rw [Syscall.written_frame (by simp [Syscall.opens, Syscall.wrote, he]), hsilent]
  | flushed fd' hflush =>
    rcases flush_cases hc h.holds hflush with
      ⟨rfl, -⟩ | ⟨cl, run, hmem, rfl, hrun, -, rfl, -⟩
    · rw [List.map_nil, List.append_nil, hsilent]
    by_cases he : cl.fd = fd
    · subst he
      obtain ⟨n, n', -, -, hstream, hstream', hdone, -⟩ := h.flush_client hc hmem hpos hrun
      -- it was written the first 0 messages, so its offset is `end` and the walk is empty
      have hn : n = 0 := by
        rw [hsilent] at hstream
        have hpos := hc.pos
        rcases List.take_eq_nil_iff.mp hstream.symm with hn | hL
        · exact hn
        · rw [hL, List.length_nil] at hfull
          omega
      rw [hstream', hdone (.inr ⟨hn, hfull⟩), if_pos ⟨hn, hfull⟩, List.take_zero]
    · rw [Syscall.written_flush_other he, hsilent]

theorem Did.log_full {w : World} {calls : List Syscall} (hfull : L.length = c)
    (hdid : Did c L r k L' w calls) : L' = L := by
  cases hdid with
  | stored _ _ hroom => omega
  | _ => rfl

/-- A step that accepts a descriptor makes no other call. -/
theorem Did.opens {w : World} {calls : List Syscall} {call : Syscall}
    (hdid : Did c L r k L' w calls) (hmem : call ∈ calls) (hopens : call.opens fd) :
    ∃ conn, calls = [.accept conn fd] := by
  have hquiet (h : call.Quiet) : ∃ conn, calls = [.accept conn fd] := by
    cases call with
    | accept => exact h.elim
    | _ => cases hopens
  cases hdid with
  | idle _ h => exact hquiet (h call hmem)
  | closed _ h => exact hquiet (h call hmem)
  | accepted conn =>
    obtain rfl := List.mem_singleton.mp hmem
    exact ⟨conn, by rw [of_decide_eq_true hopens]⟩
  | stored =>
    obtain rfl := List.mem_singleton.mp hmem
    cases hopens
  | dropped =>
    obtain rfl := List.mem_singleton.mp hmem
    cases hopens
  | flushed =>
    obtain ⟨w, -, rfl⟩ := List.mem_map.mp hmem
    cases hopens

/-- Once the ring is full the log never changes again. To a connection that is accepted later, or
to which no write has succeeded so far, none ever does. -/
theorem full_ring_is_final (hc : CapacityOk c) (hrun : Run Step (start c capacity serverFd) ks r)
    (hfull : r.mq.getLength = c) (hrun' : Run Step r ks' r') :
    r'.mq.contents = r.mq.contents ∧
      ∃ calls, r'.trace = r.trace ++ calls ∧ ∀ fd, 0 ≤ fd →
        (∃ call ∈ calls, call.opens fd) ∨ Syscall.written fd r.trace = [] →
          Syscall.written fd r'.trace = [] := by
  obtain ⟨L, hs, -⟩ := streams_of_run hc (streams_start hc) hrun
  rw [hs.holds.getLength_eq hc] at hfull
  have hinv : Streams c L r' ∧ ∃ calls, r'.trace = r.trace ++ calls ∧ ∀ fd, 0 ≤ fd →
      (∃ call ∈ calls, call.opens fd) ∨ Syscall.written fd r.trace = [] →
        Syscall.written fd r'.trace = [] := by
    induction hrun' with
    | nil =>
      refine ⟨hs, [], by simp, ?_⟩
      rintro fd - (⟨call, hmem, -⟩ | hsilent)
      · cases hmem
      · exact hsilent
    | @snoc js k t t' _ hstep ih =>
      obtain ⟨ht, calls, htrace, hsilent⟩ := ih
      obtain ⟨L', new, hdid, htrace', hs'⟩ := hstep.streams hc ht
      obtain rfl := hdid.log_full hfull
      refine ⟨hs', calls ++ new, by rw [htrace', htrace, List.append_assoc], ?_⟩
      intro fd hpos hcase
      by_cases hnew : ∃ call ∈ new, call.opens fd
      · -- the only call of the step accepted the descriptor
        obtain ⟨call, hmem, hopens⟩ := hnew
        obtain ⟨conn, rfl⟩ := hdid.opens hmem hopens
        rw [htrace', Syscall.written_accept]
      · apply hstep.stays_silent hc ht hfull hpos
        apply hsilent fd hpos
        rcases hcase with ⟨call, hmem, hopens⟩ | hold
        · rcases List.mem_append.mp hmem with hmem | hmem
          · exact .inl ⟨call, hmem, hopens⟩
          · exact absurd ⟨call, hmem, hopens⟩ hnew
        · exact .inr hold
  rw [hs.holds.contents_eq hc, hinv.1.holds.contents_eq hc]
  exact ⟨rfl, hinv.2⟩

/-- One slot, and the message of the first client in it. -/
def fullRing : Traced where
  fdstate := ⟨4, [⟨3, pollin ||| pollrdhup, 0⟩, ⟨7, pollin ||| pollrdhup, pollin⟩]⟩
  mq := ⟨1, [some [97]], 0, 0, [⟨7, 0⟩]⟩
  opened := [7, 3]
  phase := .polling
  trace := [.accept 3 7, .read 7 (Server.sending 97).read]

/-- One slot: the message of the first client fills the ring, and the second client, which gets
descriptor 8, is sent nothing. -/
theorem full_ring_is_final_one :
    ∃ r', Run Step (start 1 4 3)
        (List.replicate 6 Server.accepting ++ List.replicate 6 (Server.sending 97)) fullRing ∧
      Run Step fullRing (List.replicate 7 { Server.accepting with accept := 8 }) r' ∧
      r'.mq.contents = fullRing.mq.contents ∧
      ∃ calls, r'.trace = fullRing.trace ++ calls ∧ ∀ fd, 0 ≤ fd →
        (∃ call ∈ calls, call.opens fd) ∨ Syscall.written fd fullRing.trace = [] →
          Syscall.written fd r'.trace = [] := by
  have hrun : Run Step (start 1 4 3)
      (List.replicate 6 Server.accepting ++ List.replicate 6 (Server.sending 97)) fullRing :=
    run_of_next rfl
  have hrun' : Run Step fullRing (List.replicate 7 { Server.accepting with accept := 8 }) _ :=
    run_of_next rfl
  exact ⟨_, hrun, hrun', full_ring_is_final ⟨by decide, by decide⟩ hrun rfl hrun'⟩

/-- All of the log was written to the connection, or nothing of a full one. -/
def CaughtUp (c : ℕ) (L : List Bytes) (fd : ℤ) (r : Traced) : Prop :=
  Syscall.written fd r.trace = L ∨ L.length = c ∧ Syscall.written fd r.trace = []

/-- A flush whose writes succeed brings its client up to date and leaves no other behind. -/
theorem Streams.caughtUp_flush (hc : CapacityOk c) (h : Streams c L r)
    (hwrites : ∀ i msg, 0 ≤ k.write i msg) {conn rc : ℤ} {writes : List Write} {mq : MessageQueue}
    (hflush : r.mq.flush conn k.write = .ok (rc, writes, mq)) (hpos : 0 ≤ fd)
    (hfd : conn = fd ∧ fd ∈ r.registered ∨ CaughtUp c L fd r)
    (htrace : r'.trace = r.trace ++ writes.map (.write conn)) : CaughtUp c L fd r' := by
  unfold CaughtUp
  rw [htrace]
  rcases flush_cases hc h.holds hflush with
    ⟨rfl, -, hnone⟩ | ⟨cl, run, hmem, rfl, hrun, -, rfl, -⟩
  · rw [List.map_nil, List.append_nil]
    rcases hfd with ⟨rfl, hreg⟩ | hcaught
    · have hL : L = [] := hnone.resolve_right fun hnot => hnot hreg
      have hsent := h.sent conn hpos
      rw [hL] at hsent ⊢
      exact .inl (List.prefix_nil.mp hsent)
    · exact hcaught
  by_cases he : cl.fd = fd
  · subst he
    obtain ⟨n, n', -, -, -, hstream', hdone, hret⟩ := h.flush_client hc hmem hpos hrun
    rw [hstream', hdone (.inl (hret hwrites))]
    split_ifs with hlap
    · exact .inr ⟨hlap.2, List.take_zero⟩
    · exact .inl List.take_length
  · rw [Syscall.written_flush_other he]
    exact hfd.resolve_left fun hleft => he hleft.1

/-- The state of the pass over the entries in front of entry `m`. -/
structure Passed (c : ℕ) (L : List Bytes) (r : Traced) (m : ℕ) (t : Traced) : Prop where
  phase : t.phase = .flushes m
  fdstate : t.fdstate = r.fdstate
  registered : t.registered = r.registered
  streams : Streams c L t
  caughtUp : ∀ i e, 1 ≤ i → i < m → r.fdstate.fds[i]? = some e → 0 ≤ e.fd →
    e.fd ∈ r.registered → CaughtUp c L e.fd t

theorem Passed.next {t t' : Traced} {m : ℕ} {event : Pollfd} (hc : CapacityOk c)
    (h : Passed c L r m t) (hm : r.fdstate.fds[m]? = some event)
    (hwrites : ∀ i msg, 0 ≤ k.write i msg) (hstep : t.Step k t') : Passed c L r (m + 1) t' := by
  obtain ⟨⟨-, hs⟩, htrace⟩ := hstep
  rw [← h.fdstate] at hm
  rcases hs.of_flushes h.phase with ⟨hnone, -⟩ | ⟨event', rc, writes, mq, hm', hflush, heq⟩
  · rw [hm] at hnone
    cases hnone
  obtain rfl : event = event' := Option.some.inj (hm.symm.trans hm')
  have hcalls : t.syscalls k = writes.map (.write event.fd) := by
    simp only [Server.syscalls, h.phase, hm, hflush]
  rw [hcalls] at htrace
  have hstreams : Streams c L ⟨⟨{ t.toWorld with mq := mq }, .flushes (m + 1)⟩, _⟩ :=
    h.streams.flushed hc hflush
  have ht' : t' = ⟨⟨{ t.toWorld with mq := mq }, .flushes (m + 1)⟩,
      t.trace ++ writes.map (.write event.fd)⟩ := by
    obtain ⟨s', trace⟩ := t'
    cases heq
    cases htrace
    rfl
  constructor
  · rw [ht']
  · rw [ht']
    exact h.fdstate
  · have hreg : World.registered { t.toWorld with mq := mq } = t.registered := flush_fds hflush
    rw [ht']
    exact hreg.trans h.registered
  · rw [ht']
    exact hstreams
  · intro i e hi hlt he hpos hreg
    apply h.streams.caughtUp_flush hc hwrites hflush hpos _ htrace
    rcases Nat.lt_succ_iff_lt_or_eq.mp hlt with hlt | rfl
    · exact .inr (h.caughtUp i e hi hlt he hpos hreg)
    · rw [← h.fdstate, hm] at he
      cases he
      exact .inl ⟨rfl, h.registered ▸ hreg⟩

/-- A pass over the table whose writes succeed leaves every watched and registered client to
which no write was ever short with the bytes of the whole log, however far it was behind, unless
the ring is full and it had nothing. -/
theorem pass_delivers (hc : CapacityOk c) (hfd : 0 ≤ serverFd) (hcap : 0 < capacity)
    (hrun : Run Step (start c capacity serverFd) ks r) (hphase : r.phase = .flushes 1)
    (hrun' : Run Step r ks' r') (hwrites : ∀ k ∈ ks', ∀ i msg, 0 ≤ k.write i msg)
    (hlen : ks'.length = r.fdstate.fds.length) :
    r'.phase = .polling ∧ r'.mq.contents = r.mq.contents ∧
      ∀ e ∈ r.fdstate.fds.drop 1, 0 ≤ e.fd → e.fd ∈ r.registered →
        Syscall.Whole e.fd r'.trace →
          Syscall.stream e.fd r'.trace = r'.mq.contents.flatten ∨
            r'.mq.getLength = c ∧ Syscall.stream e.fd r'.trace = [] := by
  obtain ⟨L, hs, -⟩ := streams_of_run hc (streams_start hc) hrun
  obtain ⟨e₀, fds, hfds, -⟩ := (orderly_of_run hfd hcap hrun).table.head
  rcases List.eq_nil_or_concat' ks' with rfl | ⟨front, last, rfl⟩
  · rw [hfds] at hlen
    cases hlen
  have hpass {js : List Kernel} {t : Traced} (hr : Run Step r js t)
      (hjs : ∀ k ∈ js, ∀ i msg, 0 ≤ k.write i msg) (hle : js.length < r.fdstate.fds.length) :
      Passed c L r (1 + js.length) t := by
    induction hr with
    | nil =>
      refine ⟨hphase, rfl, rfl, hs, ?_⟩
      intro i e hi hlt
      simp only [List.length_nil] at hlt
      omega
    | @snoc js k t t' _ hstep ih =>
      rw [List.length_append, List.length_singleton] at hle ⊢
      have hpassed := ih (fun k hk => hjs k (List.mem_append_left _ hk)) (by omega)
      have hm : r.fdstate.fds[1 + js.length]? = some r.fdstate.fds[1 + js.length] :=
        List.getElem?_eq_getElem (by omega)
      exact hpassed.next hc hm (hjs k (by simp)) hstep
  rw [List.length_append, List.length_singleton] at hlen
  obtain ⟨t, hfront, hlast⟩ := hrun'.of_append
  have h := hpass hfront (fun k hk => hwrites k (List.mem_append_left _ hk)) (by omega)
  have hend : t.fdstate.fds[1 + front.length]? = none := by
    rw [h.fdstate]
    exact List.getElem?_eq_none (by omega)
  have hstep : t.Step last r' := hlast.of_single
  rcases hstep.1.2.of_flushes h.phase with ⟨-, heq⟩ | ⟨event, _, _, _, hm, -⟩
  swap
  · rw [hend] at hm
    cases hm
  have htrace : r'.trace = t.trace := by
    rw [hstep.2]
    simp only [Server.syscalls, h.phase, hend, List.append_nil]
  have hmq : r'.mq = t.mq := by rw [heq]
  have hlog : r'.mq.contents = L := by rw [hmq, h.streams.holds.contents_eq hc]
  refine ⟨by rw [heq], by rw [hlog, hs.holds.contents_eq hc], ?_⟩
  intro e he hpos hreg hwhole
  obtain ⟨j, hj⟩ := List.mem_iff_getElem?.mp he
  rw [List.getElem?_drop] at hj
  have hlt := (List.getElem?_eq_some_iff.mp hj).1
  have hcaught := h.caughtUp (1 + j) e (by omega) (by omega) hj hpos hreg
  rw [htrace] at hwhole
  rw [hlog, htrace, hmq, h.streams.holds.getLength_eq hc, Syscall.stream_of_whole hwhole]
  rcases hcaught with hall | ⟨hfull, hnone⟩
  · exact .inl (congrArg List.flatten hall)
  · exact .inr ⟨hfull, congrArg List.flatten hnone⟩

/-- Two slots, and the only client has sent a message that is about to be flushed. -/
def flushing : Traced where
  fdstate := ⟨4, [⟨3, pollin ||| pollrdhup, 0⟩, ⟨7, pollin ||| pollrdhup, pollin⟩]⟩
  mq := ⟨2, [some [97], none], 0, 1, [⟨7, 0⟩]⟩
  opened := [7, 3]
  phase := .flushes 1
  trace := [.accept 3 7, .read 7 (Server.sending 97).read]

theorem pass_delivers_two :
    ∃ r', Run Step (start 2 4 3)
        (List.replicate 6 Server.accepting ++ List.replicate 4 (Server.sending 97)) flushing ∧
      Run Step flushing (List.replicate 2 (Server.sending 97)) r' ∧
      Syscall.Whole 7 r'.trace ∧ Syscall.stream 7 r'.trace = [97] ∧
      r'.phase = .polling ∧ r'.mq.contents = flushing.mq.contents ∧
      ∀ e ∈ flushing.fdstate.fds.drop 1, 0 ≤ e.fd → e.fd ∈ flushing.registered →
        Syscall.Whole e.fd r'.trace →
          Syscall.stream e.fd r'.trace = r'.mq.contents.flatten ∨
            r'.mq.getLength = 2 ∧ Syscall.stream e.fd r'.trace = [] := by
  have hrun : Run Step (start 2 4 3)
      (List.replicate 6 Server.accepting ++ List.replicate 4 (Server.sending 97)) flushing :=
    run_of_next rfl
  have hrun' : Run Step flushing (List.replicate 2 (Server.sending 97)) _ := run_of_next rfl
  refine ⟨_, hrun, hrun', by decide, rfl, ?_⟩
  apply pass_delivers ⟨by decide, by decide⟩ (by decide) (by decide) hrun rfl hrun' _ rfl
  intro k hk
  rw [List.eq_of_mem_replicate hk]
  exact Session.wholeWrites_nonneg

end SysExploration.Traced
