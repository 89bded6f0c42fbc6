import SysExploration.MessageQueue.Fifo

/-! The ring against a bounded FIFO list, over whole runs of `q`, `dq` and `get`. -/
namespace SysExploration

/-- A message `q` does not reject for its length. -/
abbrev Message := { m : Bytes // m.length ≤ maxMessageLength }

inductive RingCall where
  | q (msg : Message)
  | dq
  | get (index : ℕ)

/-- One call on the ring; its allocations succeed. -/
def MessageQueue.ringCall (mq : MessageQueue) : RingCall → Except Fault (Reply × MessageQueue)
  | .q msg => do
    let (rc, mq) ← mq.q msg.val true
    .ok (.code rc, mq)
  | .dq => do
    let (s, mq) ← mq.dq true
    .ok (.string s, mq)
  | .get index => do
    let s ← mq.get index true
    .ok (.string s, mq)

/-- The abstract queue: at most `c` messages, first in, first out. -/
def fifoCall (c : ℕ) (L : List Bytes) : RingCall → Reply × List Bytes
  | .q msg => if L.length = c then (.code mqerrFull, L) else (.code 0, L ++ [msg.val])
  | .dq => (.string L.head?, L.tail)
  | .get index => (.string L[index]?, L)

/-- The ring and the abstract queue receive the same call. -/
def RingStep (c : ℕ) (p : MessageQueue × List Bytes) (call : RingCall)
    (p' : MessageQueue × List Bytes) : Prop :=
  (∃ r, p.1.ringCall call = .ok (r, p'.1)) ∧ p'.2 = (fifoCall c p.2 call).2

/-- The call returns, with the reply of the abstract queue and a length equal to its length. -/
def AgreesWithFifo (c : ℕ) (p : MessageQueue × List Bytes) (call : RingCall) : Prop :=
  ∃ mq', p.1.ringCall call = .ok ((fifoCall c p.2 call).1, mq') ∧
    mq'.getLength = (fifoCall c p.2 call).2.length

/-- A `q` on an empty ring finds `end` at slot 0. -/
def RefillsAtZero (p : MessageQueue × List Bytes) (call : RingCall) : Prop :=
  ∀ msg, call = .q msg → p.1.start = mqEmptySentinel → p.1.end_ = 0

namespace MessageQueue

variable {c S : ℕ} {L : List Bytes} {mq : MessageQueue}

theorem Holds.refill_slot (h : mq.Holds c S L) {msg : Message}
    (hg : RefillsAtZero (mq, L) (.q msg)) (hL : L = []) : S % c = 0 := by
  subst hL
  have he : mq.end_ = 0 := hg msg rfl h.start_nil
  have hend := h.end_eq
  rw [List.length_nil, Nat.add_zero] at hend
  omega

/-- Under the guard every call returns what the abstract queue returns and the ring keeps
holding the abstract list. -/
theorem Holds.ringCall_spec (hc : CapacityOk c) (h : mq.Holds c S L) (call : RingCall)
    (hg : RefillsAtZero (mq, L) call) :
    ∃ S' mq', mq.ringCall call = .ok ((fifoCall c L call).1, mq') ∧
      mq'.Holds c S' (fifoCall c L call).2 := by
  cases call with
  | q msg =>
    by_cases hfull : L.length = c
    · refine ⟨S, mq, ?_, ?_⟩
      · simp only [ringCall, h.q_full hc hfull, fifoCall, hfull, ↓reduceIte]
        rfl
      · simpa only [fifoCall, hfull, ↓reduceIte] using h
    · have hroom : L.length < c := lt_of_le_of_ne h.slots.bound hfull
      obtain ⟨mq', hq, hmq', _⟩ := h.q_ok hc hroom msg.property (h.refill_slot hg)
      refine ⟨S, mq', ?_, ?_⟩
      · simp only [ringCall, hq, fifoCall, hfull, ↓reduceIte]
        rfl
      · simpa only [fifoCall, hfull, ↓reduceIte] using hmq'
  | dq =>
    cases L with
    | nil => exact ⟨S, mq, by simp only [ringCall, h.dq_nil]; rfl, h⟩
    | cons m L =>
      obtain ⟨mq', hdq, hmq', _⟩ := h.dq_cons hc
      exact ⟨S + 1, mq', by simp only [ringCall, hdq]; rfl, hmq'⟩
  | get index =>
    exact ⟨S, mq, by simp only [ringCall, h.get_eq hc]; rfl, h⟩

/-- Off the guard the length is already wrong after the call. -/
theorem Holds.agrees_iff (hc : CapacityOk c) (h : mq.Holds c S L) (call : RingCall) :
    AgreesWithFifo c (mq, L) call ↔ RefillsAtZero (mq, L) call := by
  constructor
  · rintro ⟨mq', hcall, hlen⟩ msg rfl hstart
    by_contra hend
    have hL : L = [] := by
      by_contra hL
      exact start_ne_sentinel (h.start_of_ne hL) hstart
    subst hL
    have hS : S % c ≠ 0 := by
      intro hS
      apply hend
      rw [h.end_eq, List.length_nil, Nat.add_zero, hS]
      rfl
    obtain ⟨mq'', hq, hstale⟩ := h.q_stale hc hS msg.property
    have hpos := hc.pos
    simp only [ringCall, hq] at hcall
    obtain ⟨-, rfl⟩ := Prod.mk.inj (Except.ok.inj hcall)
    apply hstale
    rw [hlen]
    simp [fifoCall, show ¬ 0 = c by omega]
  · intro hg
    obtain ⟨S', mq', hcall, hmq'⟩ := h.ringCall_spec hc call hg
    exact ⟨mq', hcall, hmq'.getLength_eq hc⟩

end MessageQueue

open MessageQueue

/-- A run of the ring is a run of the bounded FIFO list exactly when no `q` refills a
drained ring whose `end` is past slot 0. In particular no slot of such a run that `dq` or
`get` duplicates is `NULL`. -/
theorem ring_run_is_fifo_iff {c : ℕ} (hc : CapacityOk c) (calls : List RingCall) :
    Along (RingStep c) (fresh c, []) (AgreesWithFifo c) calls ↔
      Along (RingStep c) (fresh c, []) RefillsAtZero calls := by
  apply along_iff (I := fun p => ∃ S, p.1.Holds c S p.2) ⟨0, holds_fresh hc⟩
  · rintro ⟨mq, L⟩ call ⟨mq', L'⟩ ⟨S, h⟩ hg ⟨⟨r, hcall⟩, hL'⟩
    obtain ⟨S', mq'', hspec, hmq''⟩ := h.ringCall_spec hc call hg
    rw [hspec] at hcall
    obtain ⟨-, rfl⟩ := Prod.mk.inj (Except.ok.inj hcall)
    exact ⟨S', hL' ▸ hmq''⟩
  · rintro ⟨mq, L⟩ call ⟨S, h⟩
    exact h.agrees_iff hc call

/-- The equivalence at a run of three slots that is drained once and refilled. -/
theorem ring_run_is_fifo_iff_three :
    init 3 true true = some (fresh 3) ∧
      (Along (RingStep 3) (fresh 3, []) (AgreesWithFifo 3)
          [.q ⟨[97], by decide⟩, .dq, .q ⟨[98], by decide⟩] ↔
        Along (RingStep 3) (fresh 3, []) RefillsAtZero
          [.q ⟨[97], by decide⟩, .dq, .q ⟨[98], by decide⟩]) :=
  have hc : CapacityOk 3 := ⟨by decide, by decide⟩
  ⟨init_eq hc, ring_run_is_fifo_iff hc _⟩

/-- Three slots, `q`, `dq`, `q`: the second message is stored in slot 1 while `start` is set
to 0, so the next `dq` hands a `NULL` slot to `sdsdup`. -/
theorem refilled_ring_not_fifo :
    ¬ Along (RingStep 3) (fresh 3, []) (AgreesWithFifo 3)
      [.q ⟨[97], by decide⟩, .dq, .q ⟨[98], by decide⟩, .dq] := by
  intro h
  have hrun : Run (RingStep 3) (fresh 3, [])
      ([] ++ [.q ⟨[97], by decide⟩] ++ [.dq] ++ [.q ⟨[98], by decide⟩])
      (⟨3, [none, some [98], none], 0, 2, []⟩, [[98]]) :=
    .snoc (s := (⟨3, [none, none, none], -1, 1, []⟩, []))
      (.snoc (s := (⟨3, [some [97], none, none], 0, 1, []⟩, [[97]]))
        (.snoc .nil ⟨⟨_, rfl⟩, rfl⟩) ⟨⟨_, rfl⟩, rfl⟩) ⟨⟨_, rfl⟩, rfl⟩
  obtain ⟨mq', hcall, -⟩ := h _ .dq [] _ rfl hrun
  cases hcall

end SysExploration
