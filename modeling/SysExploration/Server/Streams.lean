import Mathlib.Data.List.Flatten
import Mathlib.Data.List.Infix
import SysExploration.MessageQueue.Broadcast
import SysExploration.MessageQueue.ShortWrites
import SysExploration.Server.Syscalls

/-! What the connections are sent, over whole runs. The queue only grows, so the messages
written to any two connections are first parts of one order; when the ring is full the order is
complete and nothing read later is ever sent. A short write loses the rest of its message, so
this is true of the bytes as long as no write is short. -/
namespace SysExploration
open MessageQueue

namespace Syscall

/-- `accept` returned the descriptor. -/
def opens (fd : ℤ) : Syscall → Bool
  | .accept _ conn => conn = fd
  | _ => false

/-- The message of a `write` to the descriptor that did not fail, whatever part of it was
taken. -/
def wrote (fd : ℤ) : Syscall → Option Bytes
  | .write conn w => if conn = fd ∧ 0 ≤ w.ret then some w.msg else none
  | _ => none

/-- The data a `read` returned, if any. -/
def receives : Syscall → Option Bytes
  | .read _ (.bytes readbuf) => if readbuf.val = [] then none else some readbuf.val
  | _ => none

/-- The calls since `accept` last returned the descriptor. -/
def since (fd : ℤ) (trace : List Syscall) : List Syscall :=
  trace.foldl (fun calls call => if call.opens fd then [] else calls ++ [call]) []

/-- The messages written to the connection that has, or last had, the descriptor. -/
def written (fd : ℤ) (trace : List Syscall) : List Bytes := (since fd trace).filterMap (wrote fd)

/-- The bytes a `write` to the descriptor takes. -/
def takes (fd : ℤ) : Syscall → Bytes
  | .write conn w => if conn = fd then w.msg.take w.ret.toNat else []
  | _ => []

/-- The bytes the connection that has, or last had, the descriptor has been sent. -/
def stream (fd : ℤ) (trace : List Syscall) : Bytes := (since fd trace).flatMap (takes fd)

/-- A `write` to the descriptor that took a part of its message only. -/
def cuts (fd : ℤ) : Syscall → Bool
  | .write conn w => conn = fd ∧ w.Short
  | _ => false

/-- Every `write` to this connection took all of its message, or failed. -/
def Whole (fd : ℤ) (trace : List Syscall) : Prop := ∀ call ∈ since fd trace, call.cuts fd = false

/-- All data read. -/
def received (trace : List Syscall) : List Bytes := trace.filterMap receives

variable {fd : ℤ} {trace calls : List Syscall}

instance : Decidable (Whole fd trace) := inferInstanceAs (Decidable (∀ _ ∈ _, _))

theorem takes_sublist (call : Syscall) :
    (call.takes fd).Sublist (call.wrote fd).toList.flatten := by
  cases call with
  | write conn w =>
    simp only [takes, wrote]
    by_cases hfd : conn = fd
    · by_cases hret : 0 ≤ w.ret
      · simpa [hfd, hret] using List.take_sublist _ _
      · simp [hfd, Int.toNat_of_nonpos (not_le.mp hret).le]
    · simp [hfd]
  | _ => exact List.nil_sublist _

theorem takes_of_whole {call : Syscall} (h : call.cuts fd = false) :
    call.takes fd = (call.wrote fd).toList.flatten := by
  cases call with
  | write conn w =>
    simp only [takes, wrote]
    by_cases hfd : conn = fd
    · by_cases hret : 0 ≤ w.ret
      · have hall : (w.msg.length : ℤ) ≤ w.ret := by
          simpa [cuts, hfd, Write.Short, hret] using h
        simp only [hfd, hret, and_self, if_true, Option.toList_some, List.flatten_singleton]
        exact List.take_of_length_le (by omega)
      · simp [hfd, hret, Int.toNat_of_nonpos (not_le.mp hret).le]
    · simp [hfd]
  | _ => rfl

theorem written_flatten : (written fd trace).flatten =
    (since fd trace).flatMap fun call => (call.wrote fd).toList.flatten := by
  rw [written, List.filterMap_eq_flatMap_toList, List.flatMap_def, List.flatten_flatten,
    List.map_map]
  rfl

/-- However the writes turned out, the bytes taken are some of those of the messages. -/
theorem stream_sublist : (stream fd trace).Sublist (written fd trace).flatten := by
  rw [written_flatten]
  exact List.Sublist.flatMap_right _ fun call _ => takes_sublist call

/-- Without a short write they are all of them. -/
theorem stream_of_whole (h : Whole fd trace) : stream fd trace = (written fd trace).flatten := by
  rw [written_flatten]
  exact List.flatMap_congr fun call hcall => takes_of_whole (h call hcall)

theorem since_append (h : ∀ call ∈ calls, call.opens fd = false) :
    since fd (trace ++ calls) = since fd trace ++ calls := by
  induction calls generalizing trace with
  | nil => simp
  | cons call calls ih =>
    have hcall : since fd (trace ++ [call]) = since fd trace ++ [call] := by
      simp [since, h call List.mem_cons_self]
    rw [List.append_cons, ih fun c hc => h c (List.mem_cons_of_mem _ hc), hcall]
    simp

theorem written_append (h : ∀ call ∈ calls, call.opens fd = false) :
    written fd (trace ++ calls) = written fd trace ++ calls.filterMap (wrote fd) := by
  rw [written, since_append h, List.filterMap_append, written]

/-- A connection that was just accepted has been sent nothing. -/
theorem written_accept (serverFd : ℤ) : written fd (trace ++ [.accept serverFd fd]) = [] := by
  simp [written, since, opens]

/-- Calls that neither accept the descriptor nor write to it. -/
theorem written_frame (h : ∀ call ∈ calls, call.opens fd = false ∧ call.wrote fd = none) :
    written fd (trace ++ calls) = written fd trace := by
  have hnone : calls.filterMap (wrote fd) = [] :=
    List.filterMap_eq_nil_iff.mpr fun call hcall => (h call hcall).2
  rw [written_append fun call hcall => (h call hcall).1, hnone, List.append_nil]

/-- The writes of a flush, as the socket of its client and as the others see them. -/
theorem written_flush (writes : List Write) :
    written fd (trace ++ writes.map (.write fd)) =
      written fd trace ++ (successes writes).map Prod.snd := by
  have hwrites : ∀ call ∈ writes.map (Syscall.write fd), call.opens fd = false := by
    intro call hcall
    obtain ⟨w, -, rfl⟩ := List.mem_map.mp hcall
    rfl
  rw [written_append hwrites]
  congr 1
  induction writes with
  | nil => rfl
  | cons w writes ih =>
    have ih := ih fun call hcall => hwrites call (List.mem_cons_of_mem _ hcall)
    by_cases hret : 0 ≤ w.ret
    · simpa [wrote, successes, hret] using ih
    · simpa [wrote, successes, hret] using ih

theorem written_flush_other {fd' : ℤ} (hne : fd' ≠ fd) (writes : List Write) :
    written fd (trace ++ writes.map (.write fd')) = written fd trace := by
  apply written_frame
  intro call hcall
  obtain ⟨w, -, rfl⟩ := List.mem_map.mp hcall
  simp [opens, wrote, hne]

theorem received_append : received (trace ++ calls) = received trace ++ received calls :=
  List.filterMap_append

/-- A call that accepts nothing and writes nothing. -/
def Quiet : Syscall → Prop
  | .accept _ _ => False
  | .write _ _ => False
  | _ => True

theorem written_quiet (h : ∀ call ∈ calls, call.Quiet) :
    written fd (trace ++ calls) = written fd trace := by
  apply written_frame
  intro call hcall
  have hquiet := h call hcall
  cases call with
  | accept => exact hquiet.elim
  | write => exact hquiet.elim
  | read => exact ⟨rfl, rfl⟩
  | close => exact ⟨rfl, rfl⟩

end Syscall

section
variable {event : Pollfd} {k : Kernel}

theorem Closes.not_receives (h : Closes event k) : ¬ Receives event k := by
  rintro ⟨hin, readbuf, hread, hdata⟩
  simp only [Closes, hin, hread] at h
  exact hdata h

theorem clientCalls_quiet : ∀ call ∈ clientCalls event k, call.Quiet := by
  unfold clientCalls
  split_ifs
  · split
    · simp [Syscall.Quiet]
    · split_ifs <;> simp [Syscall.Quiet]
  · simp [Syscall.Quiet]
  · simp

theorem clientCalls_receives (h : Receives event k)
    {readbuf : { b : Bytes // b.length ≤ maxMessageLength }} (hread : k.read = .bytes readbuf) :
    clientCalls event k = [.read event.fd (.bytes readbuf)] := by
  obtain ⟨hin, readbuf', hread', hdata⟩ := h
  rw [hread] at hread'
  cases hread'
  simp only [clientCalls, if_pos hin, hread, if_neg hdata]

theorem received_clientCalls (h : ¬ Receives event k) :
    Syscall.received (clientCalls event k) = [] := by
  unfold clientCalls
  split_ifs with hin
  · cases hread : k.read with
    | error => rfl
    | bytes readbuf =>
      have hnil : readbuf.val = [] := by
        by_contra hdata
        exact h ⟨hin, readbuf, hread, hdata⟩
      simp [Syscall.received, Syscall.receives, hnil]
  · rfl
  · rfl

end

/-- A flush of a client that was sent the first `n` messages of the log: it ends with the client
having been sent some first part of it, and, when no write failed, all of it, unless the
client had nothing and the ring is full. -/
theorem flush_sends {c n : ℕ} {mq : MessageQueue} {L : List Bytes} {cl : MQClient}
    {write : WriteOracle} {run : FlushRun} (hc : CapacityOk c) (h : mq.Holds c 0 L)
    (hn : n ≤ L.length) (hroff : cl.roff = (n % c : ℕ))
    (hrun : mq.flushClientMessages cl write = .ok run) :
    ∃ n' ≤ L.length, run.roff = (n' % c : ℕ) ∧
      L.take n ++ (successes run.writes).map Prod.snd = L.take n' ∧
      (run.ret = 0 ∨ n = 0 ∧ L.length = c →
        n' = if n = 0 ∧ L.length = c then 0 else L.length) := by
  -- a session whose only record is that of this client
  let s : Session :=
    { mq := { mq with clients := [] }
      accepted := L
      dequeued := 0
      due := fun _ => L
      delivered := fun _ => (Session.numbered 0 L).take n
      events := fun _ => []
      mark := fun _ => 0 }
  have hfilling : s.Filling c :=
    { holds := h.withClients []
      le := Nat.zero_le _
      roff := by simp [s]
      dequeued := rfl
      distinct := List.nodup_nil
      client := by simp [s]
      due := by simp [s]
      sent := fun _ => List.take_prefix n _ }
  have hsent : Session.SentUpTo c s.accepted cl.roff (s.delivered cl.fd) n := ⟨hn, hroff, rfl⟩
  have heq := h.flushClientMessages_eq hc write (by rwa [Nat.zero_add]) hroff
  rw [hrun] at heq
  obtain rfl := Except.ok.inj heq
  obtain ⟨n', hn', hcase⟩ := hsent.flushed hc hfilling write
  refine ⟨n', hn'.1, hn'.2.1, ?_, ?_⟩
  · have hmsgs := hn'.messages
    rw [List.map_append, List.map_map] at hmsgs
    have hold : (s.delivered cl.fd).map Prod.snd = L.take n := hsent.messages
    rw [hold] at hmsgs
    exact hmsgs
  · intro hdone
    apply hcase
    rcases hdone with hret | ⟨rfl, hfull⟩
    · unfold flushRun at hret
      split at hret
      · assumption
      · cases hret
    · have hlag : lagSlots c 0 L 0 = 0 := by
        rw [Session.lagSlots_zero hc hn hfull.le, if_pos ⟨rfl, hfull⟩]
      have hpending : pending c 0 L 0 = [] := by
        rw [pending, hlag, Nat.sub_zero]
        exact List.drop_eq_nil_of_le (by simp)
      change (offer write 0 (pending c 0 L 0)).2 = none
      rw [hpending]
      rfl

theorem mem_setRoff_once {fd roff : ℤ} {clients : List MQClient} {cl : MQClient}
    (honce : (clients.map MQClient.fd).count fd ≤ 1) (h : cl ∈ setRoff fd roff clients) :
    cl ∈ clients ∧ cl.fd ≠ fd ∨ cl = ⟨fd, roff⟩ := by
  induction clients with
  | nil => simp [setRoff] at h
  | cons head rest ih =>
    rw [setRoff] at h
    split_ifs at h with hhead
    · rw [List.map_cons, hhead, List.count_cons_self] at honce
      have hrest : fd ∉ rest.map MQClient.fd := List.count_eq_zero.mp (by omega)
      rcases List.mem_cons.mp h with rfl | hmem
      · exact .inr (by rw [← hhead])
      · refine .inl ⟨List.mem_cons_of_mem _ hmem, ?_⟩
        rintro rfl
        exact hrest (List.mem_map_of_mem hmem)
    · rw [List.map_cons, List.count_cons_of_ne hhead] at honce
      rcases List.mem_cons.mp h with rfl | hmem
      · exact .inl ⟨List.mem_cons_self, hhead⟩
      · rcases ih honce hmem with ⟨hold, hne⟩ | heq
        · exact .inl ⟨List.mem_cons_of_mem _ hold, hne⟩
        · exact .inr heq

namespace Traced

variable {c capacity : ℕ} {serverFd : ℤ} {r r' : Traced} {k : Kernel} {ks ks' : List Kernel}
  {w : World} {calls : List Syscall}

/-- What one step does when the ring holds `L`: what it holds then, and the calls made. -/
inductive Did (c : ℕ) (L : List Bytes) (r : Traced) (k : Kernel) :
    List Bytes → World → List Syscall → Prop
  | idle (fdstate : Fds) {calls : List Syscall} : (∀ call ∈ calls, call.Quiet) →
      Syscall.received calls = [] ∨ k.alloc = false →
      Did c L r k L { r.toWorld with fdstate := fdstate } calls
  | accepted (serverFd : ℤ) (fdstate : Fds) (alloc : Bool) :
      k.accept = -1 ∨ 0 ≤ k.accept ∧ k.accept ∉ r.opened →
      Did c L r k L { r.opening k.accept with
        fdstate := fdstate, mq := (r.mq.registerClient k.accept alloc).2 }
        [.accept serverFd k.accept]
  | closed (fd : ℤ) {calls : List Syscall} : (∀ call ∈ calls, call.Quiet) →
      Syscall.received calls = [] → Did c L r k L (r.removeClient fd) calls
  | stored (fd : ℤ) {readbuf : { b : Bytes // b.length ≤ maxMessageLength }}
      {mq : MessageQueue} : readbuf.val ≠ [] → L.length < c → mq.Holds c 0 (L ++ [readbuf.val]) →
      mq.clients = r.mq.clients →
      Did c L r k (L ++ [readbuf.val]) { r.toWorld with mq := mq } [.read fd (.bytes readbuf)]
  | dropped (fd : ℤ) (readbuf : { b : Bytes // b.length ≤ maxMessageLength }) : L.length = c →
      Did c L r k L { r.toWorld with mq := r.mq.dropSlowConsumers } [.read fd (.bytes readbuf)]
  | flushed (fd : ℤ) {rc : ℤ} {writes : List Write} {mq : MessageQueue} :
      r.mq.flush fd k.write = .ok (rc, writes, mq) →
      Did c L r k L { r.toWorld with mq := mq } (writes.map (.write fd))

theorem did_client {L : List Bytes} (hc : CapacityOk c) (h : r.mq.Holds c 0 L) {event : Pollfd}
    {rv : ℤ} (hhandle : handleClientEvent event r.toWorld k = .ok (rv, w)) :
    ∃ L', Did c L r k L' w (clientCalls event k) := by
  by_cases hclose : Closes event k
  · rw [handleClientEvent_closes hclose] at hhandle
    cases hhandle
    exact ⟨L, .closed event.fd clientCalls_quiet (received_clientCalls hclose.not_receives)⟩
  by_cases hreceives : Receives event k
  · obtain ⟨rv', w', heq, he⟩ := handleClientEvent_effect hc h event k
    rw [hhandle] at heq
    cases heq
    obtain ⟨-, readbuf, hread, hdata⟩ := id hreceives
    have hcalls := clientCalls_receives hreceives hread
    cases he with
    | unchanged hnot => exact absurd hreceives hnot
    | removed hnot => exact absurd hreceives hnot
    | @enqueued readbuf' mq _ hread' hroom hq hholds hclients =>
      rw [hread] at hread'
      cases hread'
      rw [hcalls]
      exact ⟨_, .stored event.fd hdata hroom hholds hclients⟩
    | allocFailed _ halloc => exact ⟨L, .idle r.fdstate clientCalls_quiet (.inr halloc)⟩
    | dropped _ hfull =>
      rw [hcalls]
      exact ⟨L, .dropped event.fd readbuf hfull⟩
  · rw [handleClientEvent_ignores hclose hreceives] at hhandle
    cases hhandle
    exact ⟨L, .idle r.fdstate clientCalls_quiet (.inl (received_clientCalls hreceives))⟩

/-- Every step does one of these things, and its calls are added to the trace. -/
theorem Step.did {L : List Bytes} (hc : CapacityOk c) (h : r.mq.Holds c 0 L)
    (hstep : r.Step k r') :
    ∃ L' calls, Did c L r k L' r'.toWorld calls ∧ r'.trace = r.trace ++ calls := by
  obtain ⟨⟨haccept, hs⟩, htrace⟩ := hstep
  obtain ⟨s', trace⟩ := r'
  obtain rfl : trace = r.trace ++ r.syscalls k := htrace
  have hidle (fdstate : Fds) (hnone : r.syscalls k = []) :
      Did c L r k L { r.toWorld with fdstate := fdstate } (r.syscalls k) := by
    rw [hnone]
    exact .idle fdstate (by simp) (.inl rfl)
  have hflush {i : ℕ} (hphase : r.phase = .flushes i) :
      Did c L r k L s'.toWorld (r.syscalls k) := by
    rcases hs.of_flushes hphase with ⟨hi, rfl⟩ | ⟨event, rc, writes, mq, hi, hflush, rfl⟩
    · exact hidle r.fdstate (by simp only [Server.syscalls, hphase, hi])
    · have hcalls : r.syscalls k = writes.map (.write event.fd) := by
        simp only [Server.syscalls, hphase, hi, hflush]
      rw [hcalls]
      exact .flushed event.fd hflush
  suffices h' : ∃ L', Did c L r k L' s'.toWorld (r.syscalls k) from
    h'.imp fun L' hdid => ⟨_, hdid, rfl⟩
  cases hs.move with
  | failed hphase => exact ⟨L, hidle r.fdstate (by simp only [Server.syscalls, hphase])⟩
  | polled hphase => exact ⟨L, hidle _ (by simp only [Server.syscalls, hphase])⟩
  | @server event fds phase hphase hfds =>
    have hcalls : r.syscalls k = serverCalls event k := by
      simp only [Server.syscalls, hphase, hfds]
    rw [hcalls]
    rcases handleServerEvent_calls event r.toWorld k with ⟨hnone, heq⟩ | ⟨haccepts, alloc, heq⟩
    · rw [heq, hnone]
      exact ⟨L, .idle r.fdstate (by simp) (.inl rfl)⟩
    · rw [heq, haccepts]
      exact ⟨L, .accepted event.fd _ alloc (haccept hphase)⟩
  | @client i event rv w hphase hi hhandle =>
    have hcalls : r.syscalls k = clientCalls event k := by
      simp only [Server.syscalls, hphase, hi]
    rw [hcalls]
    exact did_client hc h hhandle
  | walked hphase hi => exact ⟨L, hidle r.fdstate (by simp only [Server.syscalls, hphase, hi])⟩
  | flushed hphase => exact ⟨L, hflush hphase⟩
  | drained hphase => exact ⟨L, hflush hphase⟩
  | stopped hphase => exact ⟨L, hidle r.fdstate (by simp only [Server.syscalls, hphase])⟩

/-- The ring holds the messages of the log `L`, in the order in which they were read, and a
first part of it has been written to every connection; for a registered client its offset tells
how much. -/
structure Streams (c : ℕ) (L : List Bytes) (r : Traced) : Prop where
  holds : r.mq.Holds c 0 L
  isOpen : ∀ fd ∈ r.registered, 0 ≤ fd → fd ∈ r.opened
  once : ∀ fd, 0 ≤ fd → r.registered.count fd ≤ 1
  client : ∀ cl ∈ r.mq.clients, 0 ≤ cl.fd →
    ∃ n ≤ L.length, cl.roff = (n % c : ℕ) ∧ Syscall.written cl.fd r.trace = L.take n
  sent : ∀ fd, 0 ≤ fd → Syscall.written fd r.trace <+: L
  source : L.Sublist (Syscall.received r.trace)

theorem streams_start (hc : CapacityOk c) : Streams c [] (start c capacity serverFd) where
  holds := holds_fresh hc
  isOpen := by simp [start, Server.start, World.registered, fresh]
  once := by simp [start, Server.start, World.registered, fresh]
  client := by simp [start, Server.start, fresh]
  sent := by simp [start, Syscall.written, Syscall.since]
  source := List.nil_sublist _

variable {L L' : List Bytes} {phase : Phase}

/-- Steps that write nothing and at most take clients from the list. -/
theorem Streams.frame (h : Streams c L r) (hquiet : ∀ call ∈ calls, call.Quiet)
    (hholds : w.mq.Holds c 0 L) (hclients : w.mq.clients.Sublist r.mq.clients)
    (hopen : ∀ fd ∈ w.registered, 0 ≤ fd → fd ∈ w.opened) :
    Streams c L ⟨⟨w, phase⟩, r.trace ++ calls⟩ where
  holds := hholds
  isOpen := hopen
  once fd hpos := ((hclients.map MQClient.fd).count_le fd).trans (h.once fd hpos)
  client cl hmem hpos := by
    rw [Syscall.written_quiet hquiet]
    exact h.client cl (hclients.subset hmem) hpos
  sent fd hpos := by
    rw [Syscall.written_quiet hquiet]
    exact h.sent fd hpos
  source := by
    rw [Syscall.received_append]
    exact h.source.trans (List.sublist_append_left _ _)

theorem Streams.closed (h : Streams c L r) (hquiet : ∀ call ∈ calls, call.Quiet) (fd : ℤ) :
    Streams c L ⟨⟨r.removeClient fd, phase⟩, r.trace ++ calls⟩ := by
  obtain ⟨clients, hsub, heq⟩ := unregisterClient_eq r.mq fd
  have hmq : (r.removeClient fd).mq = { r.mq with clients := clients } := heq
  apply h.frame hquiet
  · rw [hmq]
    exact h.holds.withClients clients
  · rw [hmq]
    exact hsub
  · intro fd' hmem hpos
    have hreg : (r.removeClient fd).registered = r.registered.erase fd :=
      unregisterClient_fds r.mq fd
    rw [hreg] at hmem
    have hne : fd' ≠ fd := by
      rintro rfl
      have hcount := h.once fd' hpos
      have := List.count_pos_iff.mpr hmem
      rw [List.count_erase_self] at this
      omega
    exact List.mem_filter.mpr ⟨h.isOpen fd' (List.mem_of_mem_erase hmem) hpos, by simpa using hne⟩

theorem Streams.stored (h : Streams c L r) {fd : ℤ} {mq : MessageQueue}
    {readbuf : { b : Bytes // b.length ≤ maxMessageLength }} (hdata : readbuf.val ≠ [])
    (hholds : mq.Holds c 0 (L ++ [readbuf.val])) (hclients : mq.clients = r.mq.clients) :
    Streams c (L ++ [readbuf.val])
      ⟨⟨{ r.toWorld with mq := mq }, phase⟩, r.trace ++ [.read fd (.bytes readbuf)]⟩ := by
  have hquiet : ∀ call ∈ [Syscall.read fd (.bytes readbuf)], call.Quiet := by
    simp [Syscall.Quiet]
  have hreg : World.registered { r.toWorld with mq := mq } = r.registered := by
    simp only [World.registered, hclients]
  refine ⟨hholds, hreg ▸ h.isOpen, hreg ▸ h.once, ?_, ?_, ?_⟩
  · intro cl hmem hpos
    obtain ⟨n, hn, hroff, hstream⟩ := h.client cl (hclients ▸ hmem) hpos
    refine ⟨n, by simp; omega, hroff, ?_⟩
    rw [Syscall.written_quiet hquiet, hstream, List.take_append_of_le_length hn]
  · intro fd' hpos
    rw [Syscall.written_quiet hquiet]
    exact (h.sent fd' hpos).trans (List.prefix_append _ _)
  · have hone : Syscall.received [.read fd (.bytes readbuf)] = [readbuf.val] := by
      simp [Syscall.received, Syscall.receives, hdata]
    rw [Syscall.received_append, hone]
    exact h.source.append (.refl _)

/-- A registered client begins with nothing of the log. -/
theorem registerClient_cases (hholds : r.mq.Holds c 0 L) (fd : ℤ) (alloc : Bool) :
    (r.mq.registerClient fd alloc).2 = r.mq ∨
      (r.mq.registerClient fd alloc).2 = { r.mq with clients := ⟨fd, 0⟩ :: r.mq.clients } := by
  cases alloc with
  | false => exact .inl rfl
  | true =>
    have hroff : (if r.mq.start = mqEmptySentinel then 0 else r.mq.start) = 0 := by
      by_cases hL : L = []
      · rw [hholds.start_eq, if_pos hL, if_pos rfl]
      · rw [if_neg (start_ne_sentinel (hholds.start_of_ne hL)), hholds.start_of_ne hL,
          Nat.zero_mod]
        rfl
    exact .inr (by simp [registerClient, hroff])

theorem Streams.accepted (h : Streams c L r) (fdstate : Fds) (alloc : Bool)
    (haccept : k.accept = -1 ∨ 0 ≤ k.accept ∧ k.accept ∉ r.opened) :
    Streams c L ⟨⟨{ r.opening k.accept with
      fdstate := fdstate, mq := (r.mq.registerClient k.accept alloc).2 }, phase⟩,
      r.trace ++ [.accept serverFd k.accept]⟩ := by
  have hsame {fd : ℤ} (hne : k.accept ≠ fd) :
      Syscall.written fd (r.trace ++ [.accept serverFd k.accept]) = Syscall.written fd r.trace := by
    apply Syscall.written_frame
    simp [Syscall.opens, Syscall.wrote, hne]
  have hnew (hpos : 0 ≤ k.accept) : k.accept ∉ r.registered := by
    intro hmem
    rcases haccept with he | ⟨-, hfresh⟩
    · omega
    · exact hfresh (h.isOpen _ hmem hpos)
  have hopened (fd : ℤ) (hmem : fd ∈ r.opened) : fd ∈ (r.opening k.accept).opened :=
    World.mem_opening.mpr (.inl hmem)
  have hsource : L.Sublist (Syscall.received (r.trace ++ [.accept serverFd k.accept])) := by
    rw [Syscall.received_append]
    exact h.source.trans (List.sublist_append_left _ _)
  have hsent (fd : ℤ) (hpos : 0 ≤ fd) :
      Syscall.written fd (r.trace ++ [.accept serverFd k.accept]) <+: L := by
    by_cases he : k.accept = fd
    · rw [he, Syscall.written_accept]
      exact List.nil_prefix
    · rw [hsame he]
      exact h.sent fd hpos
  have hold (cl : MQClient) (hmem : cl ∈ r.mq.clients) (hpos : 0 ≤ cl.fd) :
      ∃ n ≤ L.length, cl.roff = (n % c : ℕ) ∧
        Syscall.written cl.fd (r.trace ++ [.accept serverFd k.accept]) = L.take n := by
    have hne : k.accept ≠ cl.fd := by
      intro he
      exact hnew (he ▸ hpos) (he ▸ List.mem_map_of_mem hmem)
    rw [hsame hne]
    exact h.client cl hmem hpos
  rcases registerClient_cases h.holds k.accept alloc with heq | heq
  · rw [heq]
    exact ⟨h.holds, fun fd hmem hpos => hopened fd (h.isOpen fd hmem hpos), h.once, hold, hsent,
      hsource⟩
  · rw [heq]
    have hreg : World.registered { r.opening k.accept with
        fdstate := fdstate, mq := { r.mq with clients := ⟨k.accept, 0⟩ :: r.mq.clients } } =
          k.accept :: r.registered := rfl
    refine ⟨h.holds.withClients _, ?_, ?_, ?_, hsent, hsource⟩
    · intro fd hmem hpos
      change fd ∈ World.registered _ at hmem
      rw [hreg] at hmem
      rcases List.mem_cons.mp hmem with rfl | hmem
      · exact World.mem_opening.mpr (.inr ⟨hpos, rfl⟩)
      · exact hopened fd (h.isOpen fd hmem hpos)
    · intro fd hpos
      rw [hreg]
      by_cases he : k.accept = fd
      · subst he
        rw [List.count_cons_self, List.count_eq_zero.mpr (hnew hpos)]
      · rw [List.count_cons_of_ne he]
        exact h.once fd hpos
    · intro cl hmem hpos
      rcases List.mem_cons.mp hmem with rfl | hmem
      · exact ⟨0, Nat.zero_le _, by simp, by rw [Syscall.written_accept, List.take_zero]⟩
      · exact hold cl hmem hpos

/-- What a flush of an fd does: nothing, or it runs for the first client with it. -/
theorem flush_cases {mq mq' : MessageQueue} (hc : CapacityOk c) (h : mq.Holds c 0 L) {fd rc : ℤ}
    {write : WriteOracle} {writes : List Write}
    (hflush : mq.flush fd write = .ok (rc, writes, mq')) :
    (writes = [] ∧ mq' = mq ∧ (L = [] ∨ fd ∉ mq.clients.map MQClient.fd)) ∨
      ∃ cl run, cl ∈ mq.clients ∧ cl.fd = fd ∧ mq.flushClientMessages cl write = .ok run ∧
        rc = run.ret ∧ writes = run.writes ∧
        mq' = { mq with clients := setRoff fd run.roff mq.clients } := by
  by_cases hL : L = []
  · subst hL
    rw [h.flush_nil hc] at hflush
    cases hflush
    exact .inl ⟨rfl, rfl, .inl rfl⟩
  by_cases hfd : fd ∈ mq.clients.map MQClient.fd
  · obtain ⟨cl, hfind, hmem, rfl⟩ := find_client hfd
    cases hrun : mq.flushClientMessages cl write with
    | error e =>
      have hlen : mq.getLength ≠ 0 := by
        rw [h.getLength_eq hc]
        exact mt List.length_eq_zero_iff.mp hL
      simp only [flush, if_neg hlen, hfind, hrun] at hflush
      cases hflush
    | ok run =>
      rw [h.flush_eq hc hL hfind hrun] at hflush
      cases hflush
      exact .inr ⟨cl, run, hmem, rfl, hrun, rfl, rfl, rfl⟩
  · obtain ⟨rc', hnone⟩ := h.flush_unregistered hc write hfd
    rw [hnone] at hflush
    cases hflush
    exact .inl ⟨rfl, rfl, .inr hfd⟩

/-- A flush takes what was written to its client from one first part of the log to another. -/
theorem Streams.flush_client (hc : CapacityOk c) (h : Streams c L r) {cl : MQClient}
    {write : WriteOracle} {run : FlushRun} (hmem : cl ∈ r.mq.clients) (hpos : 0 ≤ cl.fd)
    (hrun : r.mq.flushClientMessages cl write = .ok run) :
    ∃ n n', n' ≤ L.length ∧ run.roff = (n' % c : ℕ) ∧
      Syscall.written cl.fd r.trace = L.take n ∧
      Syscall.written cl.fd (r.trace ++ run.writes.map (.write cl.fd)) = L.take n' ∧
      (run.ret = 0 ∨ n = 0 ∧ L.length = c →
        n' = if n = 0 ∧ L.length = c then 0 else L.length) ∧
      ((∀ i msg, 0 ≤ write i msg) → run.ret = 0) := by
  obtain ⟨n, hn, hroff, hstream⟩ := h.client cl hmem hpos
  obtain ⟨n', hn', hroff', htake, hdone⟩ := flush_sends hc h.holds hn hroff hrun
  refine ⟨n, n', hn', hroff', hstream, ?_, hdone, ?_⟩
  · rw [Syscall.written_flush, hstream, htake]
  · intro hwrites
    have heq := h.holds.flushClientMessages_eq hc write (by rwa [Nat.zero_add]) hroff
    rw [hrun] at heq
    obtain rfl := Except.ok.inj heq
    have hnone := (offer_all hwrites 0 (pending c 0 L n)).1
    simp only [flushRun, hnone]

theorem Streams.flushed (hc : CapacityOk c) (h : Streams c L r) {fd rc : ℤ} {writes : List Write}
    {mq : MessageQueue} (hflush : r.mq.flush fd k.write = .ok (rc, writes, mq)) :
    Streams c L ⟨⟨{ r.toWorld with mq := mq }, phase⟩, r.trace ++ writes.map (.write fd)⟩ := by
  rcases flush_cases hc h.holds hflush with
    ⟨rfl, rfl, -⟩ | ⟨cl, run, hmem, rfl, hrun, -, rfl, rfl⟩
  · rw [List.map_nil]
    exact h.frame (by simp) h.holds (.refl _) h.isOpen
  have hreg : World.registered { r.toWorld with
      mq := { r.mq with clients := setRoff cl.fd run.roff r.mq.clients } } = r.registered :=
    setRoff_fds cl.fd run.roff r.mq.clients
  have hsource : L.Sublist (Syscall.received (r.trace ++ run.writes.map (.write cl.fd))) := by
    rw [Syscall.received_append]
    exact h.source.trans (List.sublist_append_left _ _)
  by_cases hpos : 0 ≤ cl.fd
  · obtain ⟨n, n', hn', hroff', -, hstream', -⟩ := h.flush_client hc hmem hpos hrun
    refine ⟨h.holds.withClients _, hreg ▸ h.isOpen, hreg ▸ h.once, ?_, ?_, hsource⟩
    · intro cl' hmem' hpos'
      rcases mem_setRoff_once (h.once cl.fd hpos) hmem' with ⟨hold, hne⟩ | rfl
      · rw [Syscall.written_flush_other (Ne.symm hne)]
        exact h.client cl' hold hpos'
      · exact ⟨n', hn', hroff', hstream'⟩
    · intro fd hpos'
      by_cases he : cl.fd = fd
      · subst he
        rw [hstream']
        exact List.take_prefix _ _
      · rw [Syscall.written_flush_other he]
        exact h.sent fd hpos'
  · have hother {fd : ℤ} (hpos' : 0 ≤ fd) : cl.fd ≠ fd := by omega
    refine ⟨h.holds.withClients _, hreg ▸ h.isOpen, hreg ▸ h.once, ?_, ?_, hsource⟩
    · intro cl' hmem' hpos'
      rw [Syscall.written_flush_other (hother hpos')]
      rcases mem_setRoff hmem' with ⟨hold, -⟩ | rfl
      · exact h.client cl' hold hpos'
      · exact absurd hpos' hpos
    · intro fd hpos'
      rw [Syscall.written_flush_other (hother hpos')]
      exact h.sent fd hpos'

theorem Did.streams (hc : CapacityOk c) (h : Streams c L r) (hdid : Did c L r k L' w calls) :
    Streams c L' ⟨⟨w, phase⟩, r.trace ++ calls⟩ := by
  cases hdid with
  | idle fdstate hquiet => exact h.frame hquiet h.holds (.refl _) h.isOpen
  | accepted serverFd fdstate alloc haccept => exact h.accepted fdstate alloc haccept
  | closed fd hquiet => exact h.closed hquiet fd
  | stored fd hdata _ hholds hclients => exact h.stored hdata hholds hclients
  | dropped fd readbuf =>
    obtain ⟨clients, hsub, heq⟩ := dropSlowConsumers_eq r.mq
    rw [heq]
    apply h.frame _ (h.holds.withClients clients) hsub
    · intro fd' hmem hpos
      exact h.isOpen fd' ((hsub.map MQClient.fd).subset hmem) hpos
    · simp [Syscall.Quiet]
  | flushed fd hflush => exact h.flushed hc hflush

theorem Step.streams (hc : CapacityOk c) (h : Streams c L r) (hstep : r.Step k r') :
    ∃ L' calls, Did c L r k L' r'.toWorld calls ∧ r'.trace = r.trace ++ calls ∧
      Streams c L' r' := by
  obtain ⟨L', calls, hdid, htrace⟩ := hstep.did hc h.holds
  have hstreams : Streams c L' ⟨⟨r'.toWorld, r'.phase⟩, r.trace ++ calls⟩ := hdid.streams hc h
  rw [← htrace] at hstreams
  exact ⟨L', calls, hdid, htrace, hstreams⟩

theorem Did.log_prefix (hdid : Did c L r k L' w calls) : L <+: L' := by
  cases hdid with
  | stored => exact List.prefix_append _ _
  | _ => exact List.prefix_refl _

/-- The log only grows. -/
theorem streams_of_run (hc : CapacityOk c) (h : Streams c L r) (hrun : Run Step r ks r') :
    ∃ L', Streams c L' r' ∧ L <+: L' :=
  hrun.invariant (I := fun r' => ∃ L', Streams c L' r' ∧ L <+: L') ⟨L, h, List.prefix_refl _⟩
    fun _ _ _ ⟨_, hs, hpre⟩ hstep => by
      obtain ⟨L', _, hdid, -, hs'⟩ := hstep.streams hc hs
      exact ⟨L', hs', hpre.trans hdid.log_prefix⟩

/-- When no allocation fails, the log is the first `c` of the messages read. -/
theorem Did.first_received (h : L = (Syscall.received r.trace).take c) (halloc : k.alloc = true)
    (hdid : Did c L r k L' w calls) :
    L' = (Syscall.received (r.trace ++ calls)).take c := by
  have hquiet (hnone : Syscall.received calls = []) :
      L = (Syscall.received (r.trace ++ calls)).take c := by
    rw [Syscall.received_append, hnone, List.append_nil, h]
  cases hdid with
  | idle _ _ hreceived =>
    rcases hreceived with hnone | hfail
    · exact hquiet hnone
    · rw [halloc] at hfail
      cases hfail
  | accepted => exact hquiet rfl
  | closed _ _ hnone => exact hquiet hnone
  | @stored fd readbuf _ hdata hroom =>
    have hone : Syscall.received [.read fd (.bytes readbuf)] = [readbuf.val] := by
      simp [Syscall.received, Syscall.receives, hdata]
    have hlen : (Syscall.received r.trace).length < c := by
      have := congrArg List.length h
      rw [List.length_take] at this
      omega
    have hall : L = Syscall.received r.trace := by
      rw [h, List.take_of_length_le hlen.le]
    rw [Syscall.received_append, hone, List.take_of_length_le (by simp; omega), hall]
  | dropped fd readbuf hfull =>
    have hlen : c ≤ (Syscall.received r.trace).length := by
      have := congrArg List.length h
      rw [List.length_take] at this
      omega
    rw [Syscall.received_append, List.take_append_of_le_length hlen, h]
  | flushed => exact hquiet (by simp [Syscall.received, Syscall.receives])

theorem first_received_of_run (hc : CapacityOk c) (halloc : ∀ k ∈ ks, k.alloc = true)
    (hrun : Run Step (start c capacity serverFd) ks r) :
    ∃ L, Streams c L r ∧ L = (Syscall.received r.trace).take c := by
  induction hrun with
  | nil => exact ⟨[], streams_start hc, by simp [start, Syscall.received]⟩
  | @snoc ks k r r' _ hstep ih =>
    obtain ⟨L, hs, hfirst⟩ := ih fun k hk => halloc k (List.mem_append_left _ hk)
    obtain ⟨L', calls, hdid, htrace, hs'⟩ := hstep.streams hc hs
    rw [htrace]
    exact ⟨L', hs', hdid.first_received hfirst (halloc k (by simp))⟩

/-- For two states of a run, the earlier and the later one, and whatever reads, writes and
allocations return. The log consists of messages read from clients, in the order in which they
were read; when no allocation fails it is the first `c` of them. What was written to a connection
is a first part of the log, and the bytes that were taken are some of those written, all of them
when none of its writes was short. So the streams of two connections, then or later, are such that
one is a first part of the other, as long as no write to either was short. -/
theorem streams_share_one_order (hc : CapacityOk c)
    (hrun : Run Step (start c capacity serverFd) ks r) (hrun' : Run Step r ks' r') :
    (∀ fd fd', 0 ≤ fd → 0 ≤ fd' → Syscall.Whole fd r.trace → Syscall.Whole fd' r'.trace →
      Syscall.stream fd r.trace <+: Syscall.stream fd' r'.trace ∨
        Syscall.stream fd' r'.trace <+: Syscall.stream fd r.trace) ∧
      (∀ fd, 0 ≤ fd → Syscall.written fd r.trace <+: r'.mq.contents ∧
        (Syscall.stream fd r.trace).Sublist r'.mq.contents.flatten ∧
        (Syscall.Whole fd r.trace → Syscall.stream fd r.trace <+: r'.mq.contents.flatten)) ∧
      r'.mq.contents.Sublist (Syscall.received r'.trace) ∧
      ((∀ k ∈ ks ++ ks', k.alloc = true) →
        r'.mq.contents = (Syscall.received r'.trace).take c) := by
  obtain ⟨L, hs, -⟩ := streams_of_run hc (streams_start hc) hrun
  obtain ⟨L', hs', hgrow⟩ := streams_of_run hc hs hrun'
  have hlog : r'.mq.contents = L' := hs'.holds.contents_eq hc
  rw [hlog]
  have hearlier (fd : ℤ) (hpos : 0 ≤ fd) : Syscall.written fd r.trace <+: L' :=
    (hs.sent fd hpos).trans hgrow
  have hbytes (fd : ℤ) (hpos : 0 ≤ fd) (hwhole : Syscall.Whole fd r.trace) :
      Syscall.stream fd r.trace <+: L'.flatten := by
    rw [Syscall.stream_of_whole hwhole]
    exact (hearlier fd hpos).flatten
  refine ⟨?_, ?_, hs'.source, ?_⟩
  · intro fd fd' hpos hpos' hwhole hwhole'
    apply List.prefix_or_prefix_of_prefix (hbytes fd hpos hwhole)
    rw [Syscall.stream_of_whole hwhole']
    exact (hs'.sent fd' hpos').flatten
  · intro fd hpos
    refine ⟨hearlier fd hpos, ?_, hbytes fd hpos⟩
    exact Syscall.stream_sublist.trans (hearlier fd hpos).sublist.flatten
  · intro halloc
    obtain ⟨L'', hs'', hfirst⟩ := first_received_of_run hc halloc (hrun.trans hrun')
    obtain rfl : L' = L'' := hlog.symm.trans (hs''.holds.contents_eq hc)
    exact hfirst

/-- A client is accepted, and its message is sent back to it. -/
theorem streams_share_one_order_two :
    ∃ r r', Run Step (start 2 4 3) (List.replicate 6 Server.accepting) r ∧
      Run Step r (List.replicate 6 (Server.sending 97)) r' ∧
      Syscall.Whole 7 r'.trace ∧ Syscall.stream 7 r'.trace = [97] ∧
      (∀ fd fd', 0 ≤ fd → 0 ≤ fd' → Syscall.Whole fd r.trace → Syscall.Whole fd' r'.trace →
        Syscall.stream fd r.trace <+: Syscall.stream fd' r'.trace ∨
          Syscall.stream fd' r'.trace <+: Syscall.stream fd r.trace) ∧
      (∀ fd, 0 ≤ fd → Syscall.written fd r.trace <+: r'.mq.contents ∧
        (Syscall.stream fd r.trace).Sublist r'.mq.contents.flatten ∧
        (Syscall.Whole fd r.trace → Syscall.stream fd r.trace <+: r'.mq.contents.flatten)) ∧
      r'.mq.contents.Sublist (Syscall.received r'.trace) ∧
      ((∀ k ∈ List.replicate 6 Server.accepting ++ List.replicate 6 (Server.sending 97),
        k.alloc = true) → r'.mq.contents = (Syscall.received r'.trace).take 2) := by
  have hrun : Run Step (start 2 4 3) (List.replicate 6 Server.accepting) _ :=
    run_of_next rfl
  refine ⟨_, _, hrun, run_of_next rfl, by decide, rfl, ?_⟩
  exact streams_share_one_order ⟨by decide, by decide⟩ hrun (run_of_next rfl)

end Traced
end SysExploration
