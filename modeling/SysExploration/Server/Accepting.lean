import SysExploration.Server.Sessions

/-! Messages read from a socket when the ring is full. No call of the server advances
`start`, so the ring only fills, and dropping clients in front of a second `q` does not
help. -/
namespace SysExploration
open MessageQueue

variable {c : ℕ}

/-- Calls without `dq` only append to what was accepted. -/
theorem Session.FillStep.accepted_prefix (hc : CapacityOk c) {t t' : Session}
    (h : t.Undrained c) {call : Call} (hstep : t.FillStep call t') :
    t.accepted <+: t'.accepted := by
  obtain ⟨reply, he⟩ := hstep.effect hc h
  cases he with
  | accepted msg => exact List.prefix_append _ _
  | _ => exact List.prefix_refl _

namespace Server

variable {s s' : Server} {capacity : ℕ} {serverFd : ℤ} {ks ks' : List Kernel} {k : Kernel}

theorem Steps.contents_prefix (hc : CapacityOk c) (h : Broadcasting c s.mq)
    (hstep : s.Steps k s') : s.mq.contents <+: s'.mq.contents := by
  obtain ⟨t, ht, hmq⟩ := h.undrained hc
  obtain ⟨calls, hcalls⟩ := (hstep.effect hc ht hmq).calls
  rw [← hmq] at hcalls
  obtain ⟨t', hrun, hmq'⟩ := Session.exists_run hcalls
  have hinv : t'.Undrained c ∧ t.accepted <+: t'.accepted :=
    hrun.invariant (I := fun u => u.Undrained c ∧ t.accepted <+: u.accepted)
      ⟨ht, List.prefix_refl _⟩ fun u call u' ⟨hu, hpre⟩ hfill =>
        ⟨hfill.undrained hc hu, hpre.trans (hfill.accepted_prefix hc hu)⟩
  rw [← hmq, ← hmq', ht.holds_accepted.contents_eq hc, hinv.1.holds_accepted.contents_eq hc]
  exact hinv.2

/-- A message once in the ring of the server stays there. -/
theorem contents_prefix (hc : CapacityOk c)
    (h : Run Steps (start c capacity serverFd) ks s) (h' : Run Steps s ks' s') :
    s.mq.contents <+: s'.mq.contents := by
  have hinv : Broadcasting c s'.mq ∧ s.mq.contents <+: s'.mq.contents :=
    h'.invariant (I := fun u => Broadcasting c u.mq ∧ s.mq.contents <+: u.mq.contents)
      ⟨run_broadcasting hc h, List.prefix_refl _⟩ fun u k u' ⟨hu, hpre⟩ hstep => by
        obtain ⟨t, ht, hmq⟩ := hu.undrained hc
        exact ⟨(hstep.effect hc ht hmq).broadcasting hu, hpre.trans (hstep.contents_prefix hc hu)⟩
  exact hinv.2

/-- In every state the server can reach, data read from a client is enqueued and the handler
returns 0 exactly when the ring is not full. -/
theorem received_enqueued_iff (hc : CapacityOk c)
    (hrun : Run Steps (start c capacity serverFd) ks s) {event : Pollfd}
    {readbuf : { b : Bytes // b.length ≤ maxMessageLength }} (hin : event.reports pollin)
    (hread : k.read = .bytes readbuf) (hdata : readbuf.val ≠ []) (halloc : k.alloc) :
    (∃ w, handleClientEvent event s.toWorld k = .ok (0, w) ∧
        w.mq.contents = s.mq.contents ++ [readbuf.val]) ↔ s.mq.getLength < c := by
  obtain ⟨t, ht, hmq⟩ := (run_broadcasting hc hrun).undrained hc
  have hholds : s.mq.Holds c 0 t.accepted := hmq ▸ ht.holds_accepted
  obtain ⟨rv, w, heq, he⟩ := handleClientEvent_effect hc hholds event k
  have hreceives : Receives event k := ⟨hin, readbuf, hread, hdata⟩
  rw [hholds.getLength_eq hc, hholds.contents_eq hc, heq]
  cases he with
  | unchanged hnot => exact absurd hreceives hnot
  | removed hnot => exact absurd hreceives hnot
  | enqueued _ hread' hroom hq hholds' =>
    rw [hread] at hread'
    cases hread'
    exact iff_of_true ⟨_, rfl, hholds'.contents_eq hc⟩ hroom
  | allocFailed _ hfail =>
    rw [halloc] at hfail
    cases hfail
  | dropped _ hfull =>
    refine iff_of_false ?_ (by omega)
    rintro ⟨w, hw, -⟩
    cases hw

/-- A round in which the listening socket reports a client, which gets descriptor 7. -/
def accepting : Kernel where
  ppoll := some fun i => if i = 0 then pollin else 0
  accept := 7
  read := .error
  write := Session.wholeWrites
  alloc := true
  allocAgain := true

/-- A round in which the first client sends one byte. -/
def sending (b : UInt8) : Kernel where
  ppoll := some fun i => if i = 1 then pollin else 0
  accept := 8
  read := .bytes ⟨[b], by simp [maxMessageLength]⟩
  write := Session.wholeWrites
  alloc := true
  allocAgain := true

/-- Two slots; the second of two messages still fits. -/
theorem received_enqueued_iff_two :
    ∃ ks s, Run Steps (start 2 4 3) ks s ∧
      ((∃ w, handleClientEvent ⟨7, pollin, pollin⟩ s.toWorld (sending 98) = .ok (0, w) ∧
        w.mq.contents = s.mq.contents ++ [[98]]) ↔ s.mq.getLength < 2) := by
  have hrun : Run Steps (start 2 4 3)
      (List.replicate 6 accepting ++ List.replicate 6 (sending 97) ++
        List.replicate 2 (sending 98)) _ :=
    Run.of_foldlM (f := step) rfl fun _ _ _ _ h => h
  exact ⟨_, _, hrun, received_enqueued_iff ⟨by decide, by decide⟩ hrun rfl
    (show (sending 98).read = .bytes ⟨[98], by decide⟩ from rfl) (List.cons_ne_nil 98 []) rfl⟩

/-- Two slots hold two messages, both written to the only client; its third message meets
the full ring twice and is dropped. -/
theorem full_ring_discards :
    ∃ ks s w, Run Steps (start 2 4 3) ks s ∧ s.phase = .clientEvents 1 ∧
      (∀ cl ∈ s.mq.clients, cl.roff = s.mq.end_) ∧
      s.mq.contents = [[97], [98]] ∧ s.fdstate.fds[1]? = some ⟨7, pollin ||| pollrdhup, pollin⟩ ∧
      handleClientEvent ⟨7, pollin ||| pollrdhup, pollin⟩ s.toWorld (sending 99) =
        .ok (-55, w) ∧ w.mq.contents = [[97], [98]] := by
  have hrun : Run Steps (start 2 4 3)
      (List.replicate 6 accepting ++ List.replicate 6 (sending 97) ++
        List.replicate 6 (sending 98) ++ List.replicate 2 (sending 99)) _ :=
    Run.of_foldlM (f := step) rfl fun _ _ _ _ h => h
  exact ⟨_, _, _, hrun, rfl, by decide, rfl, rfl, rfl, rfl⟩

end Server
end SysExploration
