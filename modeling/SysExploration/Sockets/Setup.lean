import SysExploration.Sockets.Model

/-! The servers listen on the first socket that they get, or they end, and free the list of their
addresses once. -/
namespace SysExploration

namespace SetupKernel

variable {k : SetupKernel} {n i i' : ℕ} {fd fd' : ℤ} {b : Bytes}

/-- The first address for which `socket` returns something greater than 0. -/
def First (k : SetupKernel) (n i : ℕ) (fd : ℤ) : Prop :=
  i < n ∧ k.socket i = fd ∧ 0 < fd ∧ ∀ j < i, k.socket j ≤ 0

theorem First.unique (h : k.First n i fd) (h' : k.First n i' fd') : i = i' ∧ fd = fd' := by
  obtain ⟨-, rfl, hpos, hbefore⟩ := h
  obtain ⟨-, rfl, hpos', hbefore'⟩ := h'
  rcases Nat.lt_trichotomy i i' with hlt | rfl | hgt
  · exact absurd (hbefore' i hlt) (not_le.mpr hpos)
  · exact ⟨rfl, rfl⟩
  · exact absurd (hbefore i' hgt) (not_le.mpr hpos')

/-- The service has an address, of place `i`, to which a socket can be bound. -/
def Binds (k : SetupKernel) (b : Bytes) (i : ℕ) (fd : ℤ) : Prop :=
  k.bind = true ∧ ∃ n, k.getaddrinfo b = some n ∧ k.First n i fd

theorem Binds.unique (h : k.Binds b i fd) (h' : k.Binds b i' fd') : i = i' ∧ fd = fd' := by
  obtain ⟨-, n, hn, hfirst⟩ := h
  obtain ⟨-, n', hn', hfirst'⟩ := h'
  obtain rfl := Option.some.inj (hn.symm.trans hn')
  exact hfirst.unique hfirst'

end SetupKernel

namespace Sockets

variable {k : SetupKernel} {s : Sockets} {n i left : ℕ} {fd : ℤ} {b : Bytes} {message : String}

/-- Of the descriptors that `socket` returned only this one and 0 are open. -/
structure Keeps (fd : ℤ) (s : Sockets) : Prop where
  opened : fd ∈ s.opened
  others : ∀ fd' ∈ s.opened, fd' = fd ∨ fd' = 0
  nodup : s.opened.Nodup

/-- The loop has come to place `i`. -/
structure Seeking (k : SetupKernel) (n i : ℕ) (s : Sockets) : Prop where
  shape : s = { start with servinfo := some n, opened := s.opened }
  before : ∀ j < i, k.socket j ≤ 0
  zero : ∀ fd ∈ s.opened, fd = 0 ∧ ∃ j < i, k.socket j = 0
  nodup : s.opened.Nodup

theorem seeking_start (k : SetupKernel) (n : ℕ) :
    Seeking k n 0 { start with servinfo := some n } := by
  constructor <;> simp [start]

/-- Descriptor 0 is not returned twice, for nobody closes it. -/
theorem Seeking.next (h : Seeking k n i s) (hfresh : k.Fresh) (hnot : ¬ 0 < k.socket i) :
    Seeking k n (i + 1)
      (if 0 ≤ k.socket i then { s with opened := k.socket i :: s.opened } else s) := by
  have hbefore : ∀ j < i + 1, k.socket j ≤ 0 := by
    intro j hj
    rcases Nat.lt_succ_iff_lt_or_eq.mp hj with hlt | rfl
    · exact h.before j hlt
    · exact not_lt.mp hnot
  have hzero : ∀ fd ∈ s.opened, fd = 0 ∧ ∃ j < i + 1, k.socket j = 0 := by
    intro fd hfd
    obtain ⟨rfl, j, hj, hsocket⟩ := h.zero fd hfd
    exact ⟨rfl, j, Nat.lt_succ_of_lt hj, hsocket⟩
  split_ifs with hopen
  · have hsocket : k.socket i = 0 := by omega
    refine ⟨by rw [h.shape], hbefore, ?_, ?_⟩
    · intro fd hfd
      rcases List.mem_cons.mp hfd with rfl | hold
      · exact ⟨hsocket, i, Nat.lt_succ_self i, hsocket⟩
      · exact hzero fd hold
    · refine List.nodup_cons.mpr ⟨?_, h.nodup⟩
      intro hmem
      obtain ⟨-, j, hj, hj0⟩ := h.zero _ hmem
      rcases hfresh i with hfail | ⟨-, hnew⟩
      · omega
      · exact hnew j hj (hj0.trans hsocket.symm)
  · exact ⟨h.shape, hbefore, hzero, h.nodup⟩

theorem Seeking.loop (h : Seeking k n i s) (hfresh : k.Fresh) (hn : i + left = n) (hfd : fd ≤ 0) :
    (∃ fd' s', socketLoop k.socket left i fd s = (fd', none, s') ∧ fd' ≤ 0 ∧ Seeking k n n s') ∨
    ∃ fd' place s', socketLoop k.socket left i fd s = (fd', some place, s') ∧
      k.First n place fd' ∧ s'.Keeps fd' ∧
      s' = { start with servinfo := some n, opened := s'.opened } := by
  induction left generalizing i fd s with
  | zero =>
    obtain rfl : i = n := hn
    exact .inl ⟨fd, s, rfl, hfd, h⟩
  | succ left ih =>
    simp only [socketLoop]
    by_cases hpos : 0 < k.socket i
    · rw [if_pos hpos, if_pos hpos.le]
      refine .inr ⟨_, i, _, rfl, ⟨by omega, rfl, hpos, h.before⟩, ⟨?_, ?_, ?_⟩, by rw [h.shape]⟩
      · exact List.mem_cons_self
      · intro fd' hfd'
        rcases List.mem_cons.mp hfd' with rfl | hold
        · exact .inl rfl
        · exact .inr (h.zero fd' hold).1
      · refine List.nodup_cons.mpr ⟨?_, h.nodup⟩
        intro hmem
        exact absurd (h.zero _ hmem).1 hpos.ne'
    · rw [if_neg hpos]
      exact ih (h.next hfresh hpos) (by omega) (not_lt.mp hpos)

/-- A list whose sockets all failed has no first one. -/
theorem Seeking.not_binds (h : Seeking k n n s) (hn : k.getaddrinfo b = some n) :
    ¬ ∃ i fd, k.Binds b i fd := by
  rintro ⟨i, fd, -, n', hn', hlt, rfl, hpos, -⟩
  obtain rfl := Option.some.inj (hn.symm.trans hn')
  exact absurd (h.before i hlt) (not_le.mpr hpos)

theorem not_binds_of_none (hn : k.getaddrinfo b = none) : ¬ ∃ i fd, k.Binds b i fd := by
  rintro ⟨i, fd, -, n, hsome, -⟩
  rw [hn] at hsome
  cases hsome

theorem bind_eq (hs : s.servinfo = some n) (hi : i < n) : s.bind k fd i =
    .ok (if k.bind then (0, { s with bound := (fd, i) :: s.bound }) else (-1, s)) := by
  rw [bind, hs]
  dsimp only
  rw [if_neg (not_le.mpr hi)]
  split_ifs <;> rfl

theorem boundSocket_cases (hfresh : k.Fresh) (message : String) (b : Bytes) :
    (∃ m s, boundSocket message k b = .ok (.exited m, s) ∧ ¬ ∃ i fd, k.Binds b i fd) ∨
    ∃ fd i s, boundSocket message k b = .ok (.returned fd, s) ∧ k.Binds b i fd ∧ s.Keeps fd ∧
      s = ⟨none, s.opened, [(fd, i)], []⟩ := by
  unfold boundSocket
  cases hn : k.getaddrinfo b with
  | none => exact .inl ⟨_, _, rfl, not_binds_of_none hn⟩
  | some n =>
    dsimp only
    rcases (seeking_start k n).loop hfresh (Nat.zero_add n) (by decide : (-1 : ℤ) ≤ 0) with
      ⟨fd, s, hloop, -, hs⟩ | ⟨fd, i, s, hloop, hfirst, hkeeps, hs⟩
    · rw [hloop, hs.shape]
      exact .inl ⟨_, _, rfl, hs.not_binds hn⟩
    · rw [hloop, hs]
      dsimp only
      rw [bind_eq rfl hfirst.1]
      cases hbind : k.bind with
      | false =>
        refine .inl ⟨_, _, rfl, ?_⟩
        rintro ⟨i, fd, hyes, -⟩
        rw [hbind] at hyes
        cases hyes
      | true =>
        have hbinds : k.Binds b i fd := ⟨hbind, n, hn, hfirst⟩
        exact .inr ⟨fd, i, _, rfl, hbinds, ⟨hkeeps.opened, hkeeps.others, hkeeps.nodup⟩, rfl⟩

/-- What the set-up of a server comes to: it listens on the only socket that can be bound, or it
ends. `freed` tells whether it has freed its list of addresses. -/
def Settles (k : SetupKernel) (b : Bytes) (freed : Prop) (out : Except Fault (SetupEnd × Sockets)) :
    Prop :=
  (∃ m s, out = .ok (.exited m, s) ∧ ¬ ((∃ i fd, k.Binds b i fd) ∧ k.listen = true)) ∨
  ∃ fd i s, out = .ok (.returned fd, s) ∧ k.Binds b i fd ∧ k.listen = true ∧ s.Keeps fd ∧
    s.bound = [(fd, i)] ∧ s.listening = [fd] ∧ (s.servinfo = none ↔ freed)

theorem settles_listen {info : Option ℕ} {opened : List ℤ} {freed : Prop}
    (hbinds : k.Binds b i fd) (hs : Keeps fd ⟨info, opened, [(fd, i)], []⟩)
    (hfreed : info = none ↔ freed) :
    Settles k b freed (.ok (listen ⟨info, opened, [(fd, i)], []⟩ k fd)) := by
  cases hlisten : k.listen with
  | false =>
    refine .inl ⟨"listen", ⟨info, opened, [(fd, i)], []⟩, by rw [listen, hlisten]; rfl, ?_⟩
    rintro ⟨-, hyes⟩
    rw [hlisten] at hyes
    cases hyes
  | true =>
    refine .inr ⟨fd, i, ⟨info, opened, [(fd, i)], [fd]⟩, by rw [listen, hlisten]; rfl, hbinds,
      hlisten, ?_, rfl, rfl, hfreed⟩
    exact ⟨hs.opened, hs.others, hs.nodup⟩

theorem pollingSocket_settles (hfresh : k.Fresh) (b : Bytes) :
    Settles k b True (pollingSocket k b) := by
  unfold pollingSocket
  rcases boundSocket_cases hfresh "failed to assign a valid address\n" b with
    ⟨m, s, hout, hnot⟩ | ⟨fd, i, s, hout, hbinds, hkeeps, hs⟩
  · rw [hout]
    exact .inl ⟨m, s, rfl, fun h => hnot h.1⟩
  · rw [hout, hs]
    rw [hs] at hkeeps
    exact settles_listen hbinds hkeeps (by simp)

/-- Its second check of the descriptor, which would free the list again, never fails. -/
theorem pthreadsSocket_settles (hfresh : k.Fresh) (b : Bytes) :
    Settles k b True (pthreadsSocket k b) := by
  unfold pthreadsSocket
  rcases boundSocket_cases hfresh "failed to assign a valid address" b with
    ⟨m, s, hout, hnot⟩ | ⟨fd, i, s, hout, hbinds, hkeeps, hs⟩
  · rw [hout]
    exact .inl ⟨m, s, rfl, fun h => hnot h.1⟩
  · obtain ⟨-, n, -, -, -, hpos, -⟩ := id hbinds
    rw [hout, hs]
    rw [hs] at hkeeps
    change Settles k b True (if fd < 0 then _ else _)
    rw [if_neg (not_lt.mpr hpos.le)]
    exact settles_listen hbinds hkeeps (by simp)

theorem singleSocket_settles (hfresh : k.Fresh) (b : Bytes) :
    Settles k b False (singleSocket k b) := by
  unfold singleSocket
  cases hn : k.getaddrinfo b with
  | none => exact .inl ⟨_, _, rfl, fun h => not_binds_of_none hn h.1⟩
  | some n =>
    dsimp only
    rcases (seeking_start k n).loop hfresh (Nat.zero_add n) (by decide : (-1 : ℤ) ≤ 0) with
      ⟨fd, s, hloop, -, hs⟩ | ⟨fd, i, s, hloop, hfirst, hkeeps, hs⟩
    · have hnot := hs.not_binds hn
      rw [hloop, hs.shape]
      dsimp only
      split_ifs
      · exact .inl ⟨_, _, rfl, fun h => hnot h.1⟩
      · exact .inl ⟨_, _, rfl, fun h => hnot h.1⟩
    · rw [hloop, hs]
      dsimp only
      rw [if_neg (not_lt.mpr hfirst.2.2.1.le), bind_eq rfl hfirst.1]
      cases hbind : k.bind with
      | false =>
        refine .inl ⟨_, _, rfl, ?_⟩
        rintro ⟨⟨i, fd, hyes, -⟩, -⟩
        rw [hbind] at hyes
        cases hyes
      | true =>
        have hbinds : k.Binds b i fd := ⟨hbind, n, hn, hfirst⟩
        exact settles_listen hbinds ⟨hkeeps.opened, hkeeps.others, hkeeps.nodup⟩ (by simp)

end Sockets

namespace TcpServer

variable {p : TcpServer} {k : SetupKernel} {args : List CString}

theorem socket_settles (p : TcpServer) (hfresh : k.Fresh) (b : Bytes) :
    Sockets.Settles k b (p ≠ .single) (p.socket k b) := by
  cases p with
  | polling => simpa [socket] using Sockets.pollingSocket_settles hfresh b
  | pthreads => simpa [socket] using Sockets.pthreadsSocket_settles hfresh b
  | single => simpa [socket] using Sockets.singleSocket_settles hfresh b

/-- However the calls turn out, a server that starts frees its list of addresses at most once and
uses none that is freed. It comes to listen exactly if its argument is accepted and the first
address for which `socket` returns more than 0 can be bound and listened on; then this descriptor
alone is bound, to that address, and nothing else is left open but perhaps descriptor 0. The
single-connection server still has the list, which it frees when `accept` fails. -/
theorem servers_start (p : TcpServer) (args : List CString) (hfresh : k.Fresh) :
    ∃ e s, p.start k args = .ok (e, s) ∧ ∀ fd,
      (e = .returned fd ↔ ∃ b i, p.service args = .ok b ∧ k.Binds b i fd ∧ k.listen = true) ∧
      (e = .returned fd → s.Keeps fd ∧ s.listening = [fd] ∧
        (∃ b i, p.service args = .ok b ∧ k.Binds b i fd ∧ s.bound = [(fd, i)]) ∧
        (s.servinfo = none ↔ p ≠ .single)) := by
  unfold start
  cases hservice : p.service args with
  | error m => exact ⟨_, _, rfl, by simp⟩
  | ok b =>
    dsimp only
    rcases socket_settles p hfresh b with
      ⟨m, s, hout, hnot⟩ | ⟨fd, i, s, hout, hbinds, hlisten, hkeeps, hbound, hlistening, hinfo⟩
    · refine ⟨_, _, hout, ?_⟩
      intro fd
      refine ⟨iff_of_false (by simp) ?_, by simp⟩
      rintro ⟨b', i, hb, hbinds, hlisten⟩
      obtain rfl := Except.ok.inj hb
      exact hnot ⟨⟨i, fd, hbinds⟩, hlisten⟩
    · refine ⟨_, _, hout, ?_⟩
      intro fd'
      refine ⟨⟨?_, ?_⟩, ?_⟩
      · intro he
        obtain rfl := SetupEnd.returned.inj he
        exact ⟨b, i, rfl, hbinds, hlisten⟩
      · rintro ⟨b', i', hb, hbinds', -⟩
        obtain rfl := Except.ok.inj hb
        rw [(hbinds.unique hbinds').2]
      · intro he
        obtain rfl := SetupEnd.returned.inj he
        exact ⟨hkeeps, hlistening, ⟨b, i, rfl, hbinds, hbound⟩, hinfo⟩

/-- Two addresses: for the first one `socket` returns descriptor 0, for the second one 4. -/
def twoAddresses : SetupKernel :=
  ⟨fun _ => some 2, fun i => if i = 0 then 0 else if i = 1 then 4 else -1, true, true⟩

theorem twoAddresses_fresh : twoAddresses.Fresh := by
  intro i
  match i with
  | 0 => exact .inr ⟨le_refl 0, by simp⟩
  | 1 =>
    refine .inr ⟨by decide, ?_⟩
    intro j hj
    obtain rfl := Nat.lt_one_iff.mp hj
    decide
  | i + 2 => exact .inl rfl

theorem servers_start_second : ∃ e s,
    pthreads.start twoAddresses [⟨[56, 48, 56, 48], by decide⟩] = .ok (e, s) ∧
      s.opened = [4, 0] ∧ s.listening = [4] ∧
      ∃ b i, twoAddresses.Binds b i 4 ∧ s.bound = [(4, i)] := by
  obtain ⟨e, s, hstart, hend⟩ :=
    servers_start pthreads [⟨[56, 48, 56, 48], by decide⟩] twoAddresses_fresh
  have hval : pthreads.start twoAddresses [⟨[56, 48, 56, 48], by decide⟩] =
      .ok (.returned 4, ⟨none, [4, 0], [(4, 1)], [4]⟩) := by
    decide +kernel
  obtain ⟨rfl, rfl⟩ := Prod.mk.inj (Except.ok.inj (hstart.symm.trans hval))
  obtain ⟨-, hlistening, ⟨b, i, -, hbinds, hbound⟩, -⟩ := (hend 4).2 rfl
  exact ⟨_, _, hstart, rfl, hlistening, b, i, hbinds, hbound⟩

end TcpServer
end SysExploration
