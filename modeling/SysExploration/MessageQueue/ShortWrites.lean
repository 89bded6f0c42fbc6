import SysExploration.Library.Runs
import SysExploration.MessageQueue.Session

/-! Writes that take part of a message. The flush loop looks only at the sign of what
`write` returned and goes on with the next message, and a later flush begins with the first
byte of a message, so the rest of a message cut short is never offered again. -/
namespace SysExploration

/-- The bytes offered by a write, each with its slot and its place in the message. -/
def MessageQueue.Write.bytes (w : MessageQueue.Write) : List (ℤ × ℕ × UInt8) :=
  w.msg.mapIdx fun i b => (w.slot, i, b)

/-- The bytes the socket took. -/
def MessageQueue.Write.taken (w : MessageQueue.Write) : List (ℤ × ℕ × UInt8) :=
  w.bytes.take w.ret.toNat

/-- The bytes of the message the socket has not taken. -/
def MessageQueue.Write.left (w : MessageQueue.Write) : List (ℤ × ℕ × UInt8) :=
  w.bytes.drop w.ret.toNat

def MessageQueue.Write.Short (w : MessageQueue.Write) : Prop :=
  0 ≤ w.ret ∧ w.ret < w.msg.length

instance (w : MessageQueue.Write) : Decidable w.Short := inferInstanceAs (Decidable (_ ∧ _))

namespace Session
open MessageQueue

variable {c : ℕ} {s s' : Session} {es : List SocketEvent}

/-- The list ends with a write that failed. -/
def EndsFailed (es : List SocketEvent) : Prop := ∃ pre w, es = pre ++ [.write w] ∧ w.ret < 0

/-- What `write(2)` may return: an error, or a count of bytes taken. -/
def KernelWrites (write : WriteOracle) : Prop :=
  ∀ k msg, write k msg = -1 ∨ 1 ≤ write k msg ∧ write k msg ≤ msg.length ∨
    msg = [] ∧ write k msg = 0

/-- A flush returns 0 unless its last write failed. -/
structure Bracketed (es : List SocketEvent) : Prop where
  ret : ∀ w, .write w ∈ es → w.Short → 1 ≤ w.ret
  failed : ∀ pre rc post, es = pre ++ .returned rc :: post → (rc = 0 ↔ ¬ EndsFailed pre)
  last : ¬ EndsFailed es

theorem endsFailed_concat {e : SocketEvent} :
    EndsFailed (es ++ [e]) ↔ ∃ w, e = .write w ∧ w.ret < 0 := by
  constructor
  · rintro ⟨pre, w, he, hw⟩
    obtain ⟨-, he⟩ := List.append_inj' he rfl
    exact ⟨w, (List.cons.inj he).1, hw⟩
  · rintro ⟨w, rfl, hw⟩
    exact ⟨es, w, rfl, hw⟩

/-- Ending a flush: the events of its writes, then its return. -/
theorem Bracketed.append (h : Bracketed es) {writes : List Write} {rc : ℤ}
    (hret : ∀ w ∈ writes, w.Short → 1 ≤ w.ret)
    (hrc : rc = 0 ∧ (∀ w ∈ writes, 0 ≤ w.ret) ∨
      rc ≠ 0 ∧ ∃ ws w, writes = ws ++ [w] ∧ w.ret < 0) :
    Bracketed (es ++ (writes.map .write ++ [.returned rc])) where
  ret w hmem hs := by
    simp only [List.mem_append, List.mem_map, List.mem_singleton, SocketEvent.write.injEq,
      exists_eq_right, reduceCtorEq, or_false] at hmem
    rcases hmem with hmem | hmem
    · exact h.ret w hmem hs
    · exact hret w hmem hs
  failed pre rc' post he := by
    rw [← List.append_assoc] at he
    rcases List.eq_nil_or_concat' post with rfl | ⟨post', e, rfl⟩
    · obtain ⟨rfl, hlast⟩ := List.append_inj' he rfl
      obtain rfl : rc = rc' := SocketEvent.returned.inj (List.cons.inj hlast).1
      rcases hrc with ⟨rfl, hall⟩ | ⟨hne, ws, w, rfl, hneg⟩
      · apply iff_of_true rfl
        rcases List.eq_nil_or_concat' writes with rfl | ⟨ws, w, rfl⟩
        · simpa using h.last
        · rw [List.map_append, List.map_singleton, ← List.append_assoc, endsFailed_concat]
          rintro ⟨w', hw', hneg⟩
          cases hw'
          have := hall w (by simp)
          omega
      · apply iff_of_false hne
        apply not_not_intro
        rw [List.map_append, List.map_singleton, ← List.append_assoc, endsFailed_concat]
        exact ⟨w, rfl, hneg⟩
    · rw [← List.cons_append, ← List.append_assoc] at he
      obtain ⟨he, -⟩ := List.append_inj' he rfl
      have hnot : SocketEvent.returned rc' ∉ writes.map .write := by simp
      rcases List.append_eq_append_iff.mp he with ⟨mid, -, hws⟩ | ⟨mid, hes, hws⟩
      · exact absurd (by rw [hws]; simp) hnot
      · cases mid with
        | nil => exact absurd (by rw [← List.nil_append (writes.map _), ← hws]; simp) hnot
        | cons e mid =>
          obtain ⟨rfl, -⟩ := List.cons.inj hws
          exact h.failed pre rc' mid hes
  last := by
    rw [← List.append_assoc, endsFailed_concat]
    rintro ⟨w, hw, -⟩
    cases hw

theorem bracketed_nil : Bracketed [] where
  ret w h := absurd h List.not_mem_nil
  failed pre rc post h := by simp at h
  last := by
    rintro ⟨pre, w, h, -⟩
    simp at h

/-- The writes of a flush, and what it returns. -/
theorem flushRun_bracketed {write : WriteOracle} (hw : KernelWrites write) (end_ : ℤ)
    (items : List (ℕ × Bytes)) :
    let run := flushRun end_ (offer write 0 items)
    (∀ w ∈ run.writes, w.Short → 1 ≤ w.ret) ∧
      (run.ret = 0 ∧ (∀ w ∈ run.writes, 0 ≤ w.ret) ∨
        run.ret ≠ 0 ∧ ∃ ws w, run.writes = ws ++ [w] ∧ w.ret < 0) := by
  intro run
  have hwrites : run.writes = (offer write 0 items).1 := flushRun_writes _ _
  constructor
  · intro w hmem ⟨h0, hlt⟩
    obtain ⟨k, hret⟩ := offer_ret write 0 items w (hwrites ▸ hmem)
    rcases hw k w.msg with h | h | ⟨h, -⟩
    · omega
    · omega
    · rw [h] at hlt
      simp at hlt
      omega
  · rcases offer_writes write 0 items with ⟨hnone, hall⟩ | ⟨hsome, ws, w, hws, hneg⟩
    · refine .inl ⟨by simp only [run, flushRun, hnone], by rwa [hwrites]⟩
    · refine .inr ⟨?_, ws, w, by rwa [hwrites], hneg⟩
      obtain ⟨slot, hslot⟩ := Option.ne_none_iff_exists'.mp hsome
      simp [run, flushRun, hslot]

/-- The record of every registered fd is bracketed. -/
structure Recorded (c : ℕ) (s : Session) : Prop extends Undrained c s where
  bracketed : ∀ fd ∈ s.registered, Bracketed (s.events fd)

theorem Recorded.effect (hc : CapacityOk c) (h : Recorded c s) {call : Call} {reply : Reply}
    (hdq : ∀ alloc, call ≠ .dq alloc)
    (hw : ∀ fd write, call = .flush fd write → KernelWrites write)
    (he : Effect c s call reply s') : Recorded c s' := by
  have hundrained := he.undrained hc h.toUndrained hdq
  cases he with
  | unchanged => exact h
  | accepted msg alloc hroom hmq hcl =>
    refine ⟨hundrained, fun fd hfd => h.bracketed fd ?_⟩
    simpa only [registered, hcl] using hfd
  | dequeued alloc => exact absurd rfl (hdq alloc)
  | registered fd alloc hroff =>
    refine ⟨hundrained, fun fd' hfd' => ?_⟩
    have hold : fd' ≠ fd → fd' ∈ s.registered := fun hne => List.mem_of_ne_of_mem hne hfd'
    change Bracketed ((if fd ∈ s.registered then s.events else _) fd')
    by_cases heq : fd' = fd
    · subst heq
      split_ifs with hmem
      · exact h.bracketed fd' hmem
      · simpa using bracketed_nil
    · split_ifs
      · exact h.bracketed fd' (hold heq)
      · rw [Function.update_of_ne heq]
        exact h.bracketed fd' (hold heq)
  | removed reply hne hsub =>
    exact ⟨hundrained, fun fd hfd => h.bracketed fd ((hsub.map _).subset hfd)⟩
  | idle fd write hrc =>
    refine ⟨hundrained, fun fd' hfd' => ?_⟩
    by_cases heq : fd' = fd
    · subst heq
      obtain ⟨rfl, -⟩ := hrc hfd'
      have hb : Bracketed (s.events fd' ++ (List.map .write [] ++ [.returned 0])) :=
        (h.bracketed fd' hfd').append (by simp) (.inl (by simp))
      simpa [flushed] using hb
    · simpa [flushed, Function.update_of_ne heq] using h.bracketed fd' hfd'
  | @flushed write cl run hmem hL hrun =>
    refine ⟨hundrained, fun fd' hfd' => ?_⟩
    have hfd : fd' ∈ s.registered := by simpa [registered, Session.flushed] using hfd'
    by_cases heq : fd' = cl.fd
    · subst heq
      obtain ⟨R, hR, hroff⟩ := h.roff cl hmem
      obtain ⟨hret, hrc⟩ := flushRun_bracketed (hw _ _ rfl) s.mq.end_
        (pending c s.dequeued s.queued R)
      rw [← h.toStored.flushRun_eq hc hrun hR hroff] at hret hrc
      simpa [Session.flushed] using (h.bracketed _ hfd).append hret hrc
    · simpa [Session.flushed, Function.update_of_ne heq] using h.bracketed fd' hfd

end Session
end SysExploration
