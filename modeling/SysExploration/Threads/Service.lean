import SysExploration.Threads.Ownership

/-! What the threads do together: every connection is served as if it were the only one, and of
the descriptors that are opened the failed allocations keep theirs. -/
namespace SysExploration.Threaded

variable {client : ℕ → ℕ → UInt8} {s s' : Threaded} {w w' : Worker} {i : ℕ}
  {event : ThreadEvent} {events : List ThreadEvent}

/-- A thread's connection, together with what `handle_client_request` keeps of it. -/
def echo (s : Threaded) (w : Worker) : Echo :=
  match w.phase with
  | .handle _ h => (s.peers w.conn).joined h
  | .returned h => (s.peers w.conn).joined h
  | _ => (s.peers w.conn).joined .start

/-- Every thread is where a server with only its connection could be, and no byte has been read
from or written to a connection without a thread. -/
structure Served (client : ℕ → ℕ → UInt8) (s : Threaded) : Prop where
  owned : Owned s
  served : ∀ w ∈ s.workers, ∃ answers,
    Run (EchoServer.threaded.Steps (client w.conn)) EchoServer.threaded.start answers (s.echo w)
  untouched : ∀ id, (∀ w ∈ s.workers, w.conn ≠ id) → s.peers id = .fresh

theorem served_start : Served client start where
  owned := owned_start
  served _ hw := by cases hw
  untouched _ _ := rfl

/-- A call of a thread on its descriptor is one of the sequential handler on its connection. -/
theorem handlerCall_eq {fd : ℤ} {h h' : Handler} {answer : Option ℕ} {peers : ℕ → Peer} {id : ℕ}
    (hnames : s.Names fd id)
    (hcall : handlerCall client s.descriptors s.peers fd h answer = some (peers, h')) :
    ∃ e : Echo, EchoServer.threaded.Steps (client id) ((s.peers id).joined h) answer e ∧
      peers = Function.update s.peers id e.peer ∧ h' = e.handler := by
  unfold handlerCall at hcall
  rw [show s.descriptors.lookup fd = some id from hnames] at hcall
  obtain ⟨e, hstep, heq⟩ := Option.map_eq_some_iff.mp hcall
  obtain ⟨rfl, rfl⟩ := Prod.mk.inj heq
  exact ⟨e, hstep, rfl, rfl⟩

theorem WorkerMove.served (h : Served client s) (hi : s.workers[i]? = some w)
    (hmove : WorkerMove client s i w s') : Served client s' := by
  have hw : w ∈ s.workers := List.mem_of_getElem? hi
  have howned := hmove.owned h.owned hi
  have hconns {phase : WorkerPhase} {id : ℕ}
      (hid : ∀ v ∈ (s.setWorker i w phase).workers, v.conn ≠ id) :
      ∀ v ∈ s.workers, v.conn ≠ id := by
    intro v hv he
    have hmem : id ∈ s.workers.map Worker.conn := he ▸ List.mem_map_of_mem hv
    rw [← (conns_setWorker hi : (s.setWorker i w phase).workers.map Worker.conn = _)] at hmem
    obtain ⟨u, hu, hconn⟩ := List.mem_map.mp hmem
    exact hid u hu hconn
  -- a move that does not touch the connections
  have hquiet (t : Threaded) {phase : WorkerPhase} (ht : Owned t)
      (hworkers : t.workers = (s.setWorker i w phase).workers) (hpeers : t.peers = s.peers)
      (hecho : t.echo { w with phase := phase } = s.echo w) : Served client t := by
    refine ⟨ht, ?_, ?_⟩
    · intro v hv
      rcases mem_setWorker h.owned hi (hworkers ▸ hv) with rfl | ⟨hold, -⟩
      · rw [hecho]
        exact h.served w hw
      · have hsame : t.echo v = s.echo v := by rw [echo, echo, hpeers]
        rw [hsame]
        exact h.served v hold
    · intro id hid
      rw [hpeers]
      exact h.untouched id (hconns (hworkers ▸ hid))
  cases hmove with
  | loaded hphase => exact hquiet _ howned rfl rfl (by simp only [echo, hphase]; rfl)
  | freed hphase => exact hquiet _ howned rfl rfl (by simp only [echo, hphase]; rfl)
  | closed hphase => exact hquiet _ howned rfl rfl (by simp only [echo, hphase]; rfl)
  | @called csockfd hd hd' answer peers hphase hcall =>
    have hnames : s.Names csockfd w.conn := by
      have hholds := h.owned.workers w hw
      rw [Holds, hphase] at hholds
      exact hholds
    obtain ⟨e, hstep, rfl, rfl⟩ := handlerCall_eq hnames hcall
    refine ⟨howned, ?_, ?_⟩
    · intro v hv
      rcases mem_setWorker h.owned hi hv with rfl | ⟨hold, hne⟩
      · obtain ⟨answers, hrun⟩ := h.served w hw
        have hecho : s.echo w = (s.peers w.conn).joined hd := by rw [echo, hphase]
        rw [hecho] at hrun
        refine ⟨answers ++ [answer], ?_⟩
        simp only [echo, Function.update_self, Echo.joined_eq]
        exact hrun.snoc hstep
      · obtain ⟨answers, hrun⟩ := h.served v hold
        refine ⟨answers, ?_⟩
        simp only [echo, Function.update_of_ne hne]
        exact hrun
    · intro id hid
      have hids := hconns hid
      have hne : id ≠ w.conn := (hids w hw).symm
      simp only [Function.update_of_ne hne]
      exact h.untouched id hids

theorem Step.served (h : Served client s) (hstep : Step client s event s') :
    Served client s' := by
  have howned := hstep.owned h.owned
  cases move_of_call hstep.2 with
  | worker hi hmove => exact hmove.served h hi
  | @created a fd hmain =>
    refine ⟨howned, ?_, ?_⟩
    · intro w hw
      rcases List.mem_append.mp hw with hw | hw
      · exact h.served w hw
      · obtain rfl := List.mem_singleton.mp hw
        have hnew : s.peers (s.accepted - 1) = .fresh :=
          h.untouched _ (h.owned.current (by rw [hmain]; simp)).2
        refine ⟨[], ?_⟩
        simp only [echo, hnew]
        exact .nil
    · intro id hid
      exact h.untouched id fun w hw => hid w (List.mem_append_left _ hw)
  | _ => exact ⟨howned, h.served, h.untouched⟩

/-- In whatever order the threads make their calls, however descriptors and addresses are used
again, and whichever calls fail: no call touches memory that is not allocated, and every thread
is in a state that the sequential handler reaches with its connection alone. While it handles it,
its descriptor is open and names it. -/
theorem threads_serve_alone (hrun : Run (Step client) start events s) :
    (∀ event, ∃ out, s.call client event = .ok out) ∧
      ∀ w ∈ s.workers,
        (∀ csockfd h, w.phase = .handle csockfd h → s.Names csockfd w.conn) ∧
        ∃ answers, Run (EchoServer.threaded.Steps (client w.conn)) EchoServer.threaded.start
          answers (s.echo w) := by
  have h : Served client s := hrun.invariant served_start fun _ _ _ h hstep => hstep.served h
  refine ⟨h.owned.call_returns client, ?_⟩
  intro w hw
  refine ⟨?_, h.served w hw⟩
  intro csockfd hd hphase
  have hholds := h.owned.workers w hw
  rw [Holds, hphase] at hholds
  exact hholds

def running (w : Worker) : Bool :=
  match w.phase with
  | .returned _ => false
  | _ => true

/-- The thread still has to release its block. -/
def owing (w : Worker) : Bool := w.phase.args.isSome

/-- The connections in the hands of the main thread, and the blocks. -/
def pending (s : Threaded) : ℕ := if s.main = .accept then 0 else 1

def prepared (s : Threaded) : ℕ :=
  match s.main with
  | .pthreadCreate _ _ => 1
  | _ => 0

/-- Every open descriptor is in the hands of the main thread or of a thread that has not
returned, or its `client_thread_args_t` could not be allocated. -/
structure Accounted (events : List ThreadEvent) (s : Threaded) : Prop where
  owned : Owned s
  descriptors : s.descriptors.keys.length =
    s.pending + s.workers.countP running + events.count (.malloc none)
  heap : s.heap.keys.length = s.prepared + s.workers.countP owing

theorem accounted_start : Accounted [] start := ⟨owned_start, rfl, rfl⟩

theorem countP_setWorker (p : Worker → Bool) (hi : s.workers[i]? = some w)
    (phase : WorkerPhase) :
    (s.setWorker i w phase).workers.countP p + (if p w then 1 else 0) =
      s.workers.countP p + (if p { w with phase := phase } then 1 else 0) := by
  obtain ⟨hlt, hw⟩ := List.getElem?_eq_some_iff.mp hi
  have hpos : p w → 0 < s.workers.countP p := fun hp =>
    List.countP_pos_iff.mpr ⟨w, List.mem_of_getElem? hi, hp⟩
  rw [setWorker, List.countP_set hlt, hw]
  split_ifs at hpos ⊢ with hp
  all_goals
    have := hpos
    simp only [hp, forall_const] at this
    omega

instance (s : Threaded) : ∀ event, Decidable (s.Fresh event)
  | .accept fd => inferInstanceAs (Decidable (fd = -1 ∨ fd ∉ s.descriptors))
  | .malloc (some args) => inferInstanceAs (Decidable (args ∉ s.heap))
  | .malloc none => .isTrue trivial
  | .pthreadCreate _ => .isTrue trivial
  | .close => .isTrue trivial
  | .worker _ _ => .isTrue trivial

/-- The call, defined on the outcomes it is considered with. -/
def next (client : ℕ → ℕ → UInt8) (s : Threaded) (event : ThreadEvent) : Option Threaded :=
  if s.Fresh event then (s.call client event).toOption.join else none

theorem step_of_next (h : s.next client event = some s') : Step client s event s' := by
  unfold next at h
  split_ifs at h with hfresh
  cases hcall : s.call client event with
  | error e =>
    rw [hcall] at h
    cases h
  | ok out =>
    rw [hcall] at h
    exact ⟨hfresh, by rw [hcall, show out = some s' from h]⟩

theorem run_of_next (h : events.foldlM (next client) s = some s') :
    Run (Step client) s events s' :=
  (Run.of_foldlM_some h).mono fun _ _ _ => step_of_next

/-- Two clients; the second one is accepted while the first is served, its block has the address
of the first one's, and the first one's descriptor is then used again for a third, whose block
cannot be allocated. -/
def threeClients : List ThreadEvent :=
  [.accept 7, .malloc (some 0), .pthreadCreate true, .worker 0 none, .worker 0 none, .accept 8,
    .malloc (some 0), .worker 0 (some 2), .pthreadCreate true, .worker 1 none, .worker 0 (some 2),
    .worker 0 (some 0), .worker 0 none, .worker 1 none, .accept 7, .malloc none]

/-- What the clients send. -/
def threeStreams (conn i : ℕ) : UInt8 := .ofNat (16 * conn + i)

theorem threads_serve_alone_three : ∃ s, Run (Step threeStreams) start threeClients s ∧
    (∀ event, ∃ out, s.call threeStreams event = .ok out) ∧
    ∀ w ∈ s.workers,
      (∀ csockfd h, w.phase = .handle csockfd h → s.Names csockfd w.conn) ∧
      ∃ answers, Run (EchoServer.threaded.Steps (threeStreams w.conn)) EchoServer.threaded.start
        answers (s.echo w) := by
  have hrun : Run (Step threeStreams) start threeClients _ := run_of_next rfl
  exact ⟨_, hrun, threads_serve_alone hrun⟩

/-- A thread releases its block once, and its descriptor when it returns. -/
theorem WorkerMove.sizes (h : Owned s) (hi : s.workers[i]? = some w)
    (hmove : WorkerMove client s i w s') :
    s'.main = s.main ∧
      s'.descriptors.keys.length + s.workers.countP running =
        s.descriptors.keys.length + s'.workers.countP running ∧
      s'.heap.keys.length + s.workers.countP owing =
        s.heap.keys.length + s'.workers.countP owing := by
  have hrunning (phase : WorkerPhase) := countP_setWorker running hi phase
  have hargs (phase : WorkerPhase) := countP_setWorker owing hi phase
  have hholds := h.workers w (List.mem_of_getElem? hi)
  unfold Holds at hholds
  cases hmove with
  | @loaded a csockfd hphase =>
    have hr := hrunning (.free a csockfd)
    have ha := hargs (.free a csockfd)
    simp only [running, owing, hphase, WorkerPhase.args, Option.isSome_some, ↓reduceIte] at hr ha
    refine ⟨rfl, ?_, ?_⟩
    · change s.descriptors.keys.length + _ = _
      omega
    · change s.heap.keys.length + _ = _
      omega
  | @freed a csockfd hphase hmem =>
    have hr := hrunning (.handle csockfd .start)
    have ha := hargs (.handle csockfd .start)
    simp only [running, owing, hphase, WorkerPhase.args, Option.isSome_some, Option.isSome_none,
      ↓reduceIte, Bool.false_eq_true] at hr ha
    have hsize := Table.size_erase hmem
    refine ⟨rfl, ?_, ?_⟩
    · change s.descriptors.keys.length + _ = _ + (s.setWorker i w _).workers.countP _
      omega
    · change (s.heap.erase a).keys.length + _ = _ + (s.setWorker i w _).workers.countP _
      omega
  | @called csockfd hd hd' answer peers hphase =>
    have hr := hrunning (.handle csockfd hd')
    have ha := hargs (.handle csockfd hd')
    simp only [running, owing, hphase, WorkerPhase.args, Option.isSome_none, ↓reduceIte,
      Bool.false_eq_true] at hr ha
    refine ⟨rfl, ?_, ?_⟩
    · change s.descriptors.keys.length + _ = _ + (s.setWorker i w _).workers.countP _
      omega
    · change s.heap.keys.length + _ = _ + (s.setWorker i w _).workers.countP _
      omega
  | @closed csockfd hd hphase hended =>
    have hr := hrunning (.returned hd)
    have ha := hargs (.returned hd)
    simp only [running, owing, hphase, WorkerPhase.args, Option.isSome_none, ↓reduceIte,
      Bool.false_eq_true] at hr ha
    rw [hphase] at hholds
    have hsize := Table.size_erase (Table.mem_of_lookup hholds)
    refine ⟨rfl, ?_, ?_⟩
    · change (s.descriptors.erase csockfd).keys.length + _ =
        _ + (s.setWorker i w _).workers.countP _
      omega
    · change s.heap.keys.length + _ = _ + (s.setWorker i w _).workers.countP _
      omega

theorem Step.accounted (h : Accounted events s) (hstep : Step client s event s') :
    Accounted (events ++ [event]) s' := by
  have howned := hstep.owned h.owned
  obtain ⟨hfresh, hcall⟩ := hstep
  obtain ⟨hown, hdescriptors, hheap⟩ := h
  have hmain := hown.main
  have hcount : (events ++ [event]).count (.malloc none) =
      events.count (.malloc none) + if event = .malloc none then 1 else 0 := by
    rw [List.count_append, List.count_singleton]
    simp only [beq_iff_eq]
  unfold pending at hdescriptors
  unfold prepared at hheap
  unfold MainHolds at hmain
  cases move_of_call hcall with
  | worker hi hmove =>
    obtain ⟨hsame, hd, hh⟩ := hmove.sizes hown hi
    refine ⟨howned, ?_, ?_⟩
    · rw [hcount, if_neg (by simp), pending, hsame]
      omega
    · rw [prepared, hsame]
      omega
  | refused perrors hphase =>
    refine ⟨howned, ?_, hheap⟩
    rw [hcount, if_neg (by simp)]
    exact hdescriptors
  | accepted hphase hne =>
    have hsize := Table.size_insert (x := s.accepted) (hfresh.resolve_left hne)
    simp only [hphase, ↓reduceIte] at hdescriptors hheap
    refine ⟨howned, ?_, hheap⟩
    rw [hcount, if_neg (by simp)]
    simp only [pending, reduceCtorEq, ↓reduceIte]
    omega
  | abandoned perrors hphase =>
    simp only [hphase, reduceCtorEq, ↓reduceIte] at hdescriptors hheap
    refine ⟨howned, ?_, hheap⟩
    rw [hcount, if_pos rfl]
    simp only [pending, ↓reduceIte]
    omega
  | @malloced fd a hphase =>
    have hsize := Table.size_insert (x := fd) hfresh
    simp only [hphase, reduceCtorEq, ↓reduceIte] at hdescriptors hheap
    refine ⟨howned, ?_, ?_⟩
    · rw [hcount, if_neg (by simp)]
      simp only [pending, reduceCtorEq, ↓reduceIte]
      omega
    · simp only [prepared]
      omega
  | created hphase =>
    simp only [hphase, reduceCtorEq, ↓reduceIte] at hdescriptors hheap
    refine ⟨howned, ?_, ?_⟩
    · rw [hcount, if_neg (by simp), List.countP_append]
      simp only [pending, ↓reduceIte, List.countP_singleton, running]
      omega
    · rw [List.countP_append]
      simp only [prepared, List.countP_singleton, owing, WorkerPhase.args, Option.isSome_some,
        ↓reduceIte]
      omega
  | notCreated perrors hphase hmem =>
    have hsize := Table.size_erase hmem
    simp only [hphase, reduceCtorEq, ↓reduceIte] at hdescriptors hheap
    refine ⟨howned, ?_, ?_⟩
    · rw [hcount, if_neg (by simp)]
      simp only [pending, reduceCtorEq, ↓reduceIte]
      omega
    · simp only [prepared]
      omega
  | closed hphase =>
    rw [hphase] at hmain
    have hsize := Table.size_erase (Table.mem_of_lookup hmain)
    simp only [hphase, reduceCtorEq, ↓reduceIte] at hdescriptors hheap
    refine ⟨howned, ?_, hheap⟩
    rw [hcount, if_neg (by simp)]
    simp only [pending, ↓reduceIte]
    omega

/-- The descriptors that are open are those of the connections that the main thread or a thread
still has, and one for every failed `malloc`, which no one closes; every block is released once.
A connection has a descriptor until its thread has returned, and none afterwards. -/
theorem descriptors_accounted (hrun : Run (Step client) start events s) :
    s.descriptors.keys.length =
        s.pending + s.workers.countP running + events.count (.malloc none) ∧
      s.heap.keys.length = s.prepared + s.workers.countP owing ∧
      ∀ w ∈ s.workers, running w ↔ ∃ fd, s.Names fd w.conn := by
  have h : Accounted events s := by
    induction hrun with
    | nil => exact accounted_start
    | snoc _ hstep ih => exact hstep.accounted ih
  refine ⟨h.descriptors, h.heap, ?_⟩
  intro w hw
  have hholds := h.owned.workers w hw
  unfold Holds at hholds
  unfold running
  cases hphase : w.phase with
  | load a =>
    rw [hphase] at hholds
    obtain ⟨fd, -, hnames⟩ := hholds
    exact iff_of_true rfl ⟨fd, hnames⟩
  | free a fd =>
    rw [hphase] at hholds
    exact iff_of_true rfl ⟨fd, hholds.2⟩
  | handle fd hd =>
    rw [hphase] at hholds
    exact iff_of_true rfl ⟨fd, hholds⟩
  | returned hd =>
    rw [hphase] at hholds
    exact iff_of_false (by simp) fun ⟨fd, hnames⟩ => hholds fd hnames

/-- The third client's descriptor stays open. -/
theorem descriptors_accounted_three : ∃ s, Run (Step threeStreams) start threeClients s ∧
    s.descriptors.keys.length =
      s.pending + s.workers.countP running + threeClients.count (.malloc none) ∧
    s.heap.keys.length = s.prepared + s.workers.countP owing ∧
    ∀ w ∈ s.workers, running w ↔ ∃ fd, s.Names fd w.conn := by
  have hrun : Run (Step threeStreams) start threeClients _ := run_of_next rfl
  exact ⟨_, hrun, descriptors_accounted hrun⟩

end SysExploration.Threaded
