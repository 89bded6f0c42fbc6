import SysExploration.MessageQueue.Release

/-! The indices of the ring over any run, refills of a drained ring included: whatever the
slots then hold, `start`, `end` and every `roff` name a slot, and the loops meet `end` less
than one lap later. -/
namespace SysExploration
open MessageQueue

/-- The index of a slot. -/
def IsSlot (c : ℕ) (i : ℤ) : Prop := 0 ≤ i ∧ i < c

/-- Every index is that of a slot, and `start` may be the sentinel. -/
structure InRange (c : ℕ) (mq : MessageQueue) : Prop where
  capacity : mq.capacity = c
  slots : mq.messages.length = c
  end_slot : IsSlot c mq.end_
  start_slot : mq.start = mqEmptySentinel ∨ IsSlot c mq.start
  roff_slot : ∀ cl ∈ mq.clients, IsSlot c cl.roff

/-- A call on the queue, `get` included. -/
inductive QueueCall where
  | change (call : Call)
  | get (index : ℕ) (alloc : Bool)

def MessageQueue.queueCall (mq : MessageQueue) : QueueCall → Except Fault MessageQueue
  | .change call => mq.call call
  | .get index alloc => (fun _ => mq) <$> mq.get index alloc

variable {c : ℕ} {mq mq' : MessageQueue} {i : ℤ}

theorem IsSlot.of_lt {n : ℕ} (h : n < c) : IsSlot c n := by
  unfold IsSlot
  omega

theorem IsSlot.exists_nat (h : IsSlot c i) : ∃ n < c, i = (n : ℤ) := by
  obtain ⟨hnonneg, hlt⟩ := h
  lift i to ℕ using hnonneg
  exact ⟨i, by exact_mod_cast hlt, rfl⟩

theorem IsSlot.next (hc : CapacityOk c) (h : IsSlot c i) :
    IsSlot c ((i + 1).tmod (toSsize c)) := by
  obtain ⟨n, hn, rfl⟩ := h.exists_nat
  have hnext := hc.advance n
  rw [Nat.mod_eq_of_lt hn] at hnext
  rw [hnext]
  exact .of_lt (Nat.mod_lt _ hc.pos)

namespace InRange

theorem fresh (hc : CapacityOk c) : InRange c (fresh c) where
  capacity := rfl
  slots := (holds_fresh hc).slots.length
  end_slot := .of_lt hc.pos
  start_slot := .inl rfl
  roff_slot _ h := by simp [MessageQueue.fresh] at h

theorem loadSlot (h : InRange c mq) (hi : IsSlot c i) : ∃ s, loadSlot mq.messages i = .ok s := by
  obtain ⟨n, hn, rfl⟩ := hi.exists_nat
  have hlt : n < mq.messages.length := by rw [h.slots]; exact hn
  exact ⟨_, loadSlot_eq (List.getElem?_eq_getElem hlt)⟩

theorem storeSlot (h : InRange c mq) (hi : IsSlot c i) (s : Option Bytes) :
    ∃ messages, storeSlot mq.messages i s = .ok messages ∧ messages.length = c := by
  obtain ⟨n, hn, rfl⟩ := hi.exists_nat
  have hlt : n < mq.messages.length := by rw [h.slots]; exact hn
  exact ⟨_, storeSlot_eq hlt s, by rw [List.length_set, h.slots]⟩

/-- A call that keeps the ring keeps the indices, if every offset stays one of a slot. -/
theorem withClients (h : InRange c mq) {clients : List MQClient}
    (hroff : ∀ cl ∈ clients, IsSlot c cl.roff) : InRange c { mq with clients := clients } :=
  ⟨h.capacity, h.slots, h.end_slot, h.start_slot, hroff⟩

/-- From any slot `end` is less than one lap away. -/
theorem distance (hc : CapacityOk c) (h : InRange c mq) (hi : IsSlot c i) :
    ∃ R d : ℕ, d < c ∧ i = (R % c : ℕ) ∧ mq.end_ = ((R + d) % c : ℕ) := by
  obtain ⟨n, hn, rfl⟩ := hi.exists_nat
  obtain ⟨e, he, hend⟩ := h.end_slot.exists_nat
  have hpos := hc.pos
  by_cases hle : n ≤ e
  · refine ⟨n, e - n, by omega, by rw [Nat.mod_eq_of_lt hn], ?_⟩
    rw [hend, Nat.add_sub_cancel' hle, Nat.mod_eq_of_lt he]
  · refine ⟨n, c + e - n, by omega, by rw [Nat.mod_eq_of_lt hn], ?_⟩
    rw [hend, Nat.add_sub_cancel' (by omega), Nat.add_mod_left, Nat.mod_eq_of_lt he]

theorem q (hc : CapacityOk c) (h : InRange c mq) (msg : Bytes) (alloc : Bool) :
    ∃ rc mq', mq.q msg alloc = .ok (rc, mq') ∧ InRange c mq' := by
  by_cases hfull : mq.end_ = mq.start
  · exact ⟨_, mq, by rw [MessageQueue.q, if_pos hfull], h⟩
  by_cases hlen : maxMessageLength < msg.length
  · exact ⟨_, mq, q_tooLong hfull hlen alloc, h⟩
  cases alloc with
  | false => exact ⟨_, mq, q_allocFail hfull (by omega), h⟩
  | true =>
    obtain ⟨messages, hstore, hslots⟩ := h.storeSlot h.end_slot (some msg)
    have hrun : mq.q msg true = .ok (0, { mq with
        messages := messages
        start := if mq.start = mqEmptySentinel then 0 else mq.start
        end_ := (mq.end_ + 1).tmod (toSsize c) }) := by
      rw [MessageQueue.q, if_neg hfull, if_neg hlen]
      simp only [sdsnewlen, ↓reduceIte, hstore, h.capacity]
      rfl
    refine ⟨0, _, hrun, ⟨h.capacity, hslots, h.end_slot.next hc, ?_, h.roff_slot⟩⟩
    by_cases hempty : mq.start = mqEmptySentinel
    · simp only [if_pos hempty]
      exact .inr (.of_lt hc.pos)
    · simp only [if_neg hempty]
      exact .inr (h.start_slot.resolve_left hempty)

/-- `sdsdup` of a `NULL` slot is the one way a `dq` does not return. -/
theorem dq (hc : CapacityOk c) (h : InRange c mq) (alloc : Bool) :
    mq.dq alloc = .error .nullString ∨
      ∃ s mq', mq.dq alloc = .ok (s, mq') ∧ InRange c mq' := by
  by_cases hempty : mq.start = mqEmptySentinel
  · exact .inr ⟨none, mq, by rw [MessageQueue.dq, if_pos hempty], h⟩
  have hstart := h.start_slot.resolve_left hempty
  obtain ⟨message, hload⟩ := h.loadSlot hstart
  rw [MessageQueue.dq, if_neg hempty, hload]
  cases message with
  | none => exact .inl rfl
  | some msg =>
    cases alloc with
    | false => exact .inr ⟨none, mq, rfl, h⟩
    | true =>
      obtain ⟨messages, hstore, hslots⟩ := h.storeSlot hstart none
      refine .inr ⟨some msg, { mq with
        messages := messages
        start := if (mq.start + 1).tmod (toSsize mq.capacity) = mq.end_ then mqEmptySentinel
          else (mq.start + 1).tmod (toSsize mq.capacity) }, ?_, ?_⟩
      · change (SysExploration.storeSlot mq.messages mq.start none >>= _) = _
        rw [hstore]
        rfl
      · refine ⟨h.capacity, hslots, h.end_slot, ?_, h.roff_slot⟩
        simp only [h.capacity]
        split_ifs
        · exact .inl rfl
        · exact .inr (hstart.next hc)

theorem get (hc : CapacityOk c) (h : InRange c mq) (index : ℕ) (alloc : Bool) :
    mq.get index alloc = .error .nullString ∨ ∃ s, mq.get index alloc = .ok s := by
  by_cases hempty : mq.start = mqEmptySentinel
  · exact .inr ⟨none, by rw [MessageQueue.get, if_pos hempty]⟩
  by_cases hindex : mq.getLength ≤ index
  · exact .inr ⟨none, by rw [MessageQueue.get, if_neg hempty, if_pos hindex]⟩
  have hslot : IsSlot c (toSize (mq.start + index) % mq.capacity : ℕ) := by
    rw [h.capacity]
    exact .of_lt (Nat.mod_lt _ hc.pos)
  obtain ⟨message, hload⟩ := h.loadSlot hslot
  rw [MessageQueue.get, if_neg hempty, if_neg hindex, hload]
  cases message with
  | none => exact .inl rfl
  | some msg => exact .inr ⟨sdsnewlen msg alloc, rfl⟩

theorem registerClient (hc : CapacityOk c) (h : InRange c mq) (fd : ℤ) (alloc : Bool) :
    InRange c (mq.registerClient fd alloc).2 := by
  cases alloc with
  | false => exact h
  | true =>
    apply h.withClients
    intro cl hmem
    rcases List.mem_cons.mp hmem with rfl | hmem
    · by_cases hempty : mq.start = mqEmptySentinel
      · simp only [if_pos hempty]
        exact .of_lt hc.pos
      · simp only [if_neg hempty]
        exact h.start_slot.resolve_left hempty
    · exact h.roff_slot cl hmem

/-- From any slot the flush loop ends, by `end` at the latest, and saves a slot. -/
theorem flushLoop (hc : CapacityOk c) (h : InRange c mq) (hi : IsSlot c i)
    (write : WriteOracle) :
    ∃ d < c, mq.end_ = (i + d) % c ∧ ∃ run, IsSlot c run.roff ∧
      ∀ fuel, d < fuel → mq.flushLoop write fuel i 0 = .ok run := by
  obtain ⟨R, d, hd, rfl, hend⟩ := h.distance hc hi
  refine ⟨d, hd, by rw [hend]; push_cast; rw [Int.emod_add_emod],
    flushRun mq.end_ (offer write 0 (Ring.visited mq.messages c R d)), ?_,
    fun fuel hfuel => flushLoop_eq hc h.capacity h.slots hd hfuel hend⟩
  obtain ⟨j, -, -, ⟨hnone, -⟩ | ⟨hj, hsome⟩⟩ :=
    offer_spec write 0 (Ring.visited mq.messages c R d)
  · simp only [flushRun, hnone]
    exact h.end_slot
  · simp only [flushRun, hsome]
    exact .of_lt (Ring.mem_visited hc.pos (List.getElem_mem hj))

/-- The loop of `free` ends on meeting `end`. -/
theorem freeLoop (hc : CapacityOk c) (h : InRange c mq) (hi : IsSlot c i) :
    ∃ d < c, mq.end_ = (i + d) % c ∧ ∃ released,
      ∀ fuel, d < fuel → mq.freeLoop fuel i = .ok released := by
  obtain ⟨R, d, hd, rfl, hend⟩ := h.distance hc hi
  exact ⟨d, hd, by rw [hend]; push_cast; rw [Int.emod_add_emod], _,
    fun fuel hfuel => freeLoop_eq hc h.capacity h.slots hd hfuel hend⟩

/-- The offset a flush saves, after a failed write or at `end`, is one of a slot. -/
theorem flush (hc : CapacityOk c) (h : InRange c mq) (fd : ℤ) (write : WriteOracle) :
    ∃ rc writes mq', mq.flush fd write = .ok (rc, writes, mq') ∧ InRange c mq' := by
  by_cases hempty : mq.getLength = 0
  · exact ⟨0, [], mq, by rw [MessageQueue.flush, if_pos hempty], h⟩
  rw [MessageQueue.flush, if_neg hempty]
  cases hfind : mq.clients.find? (·.fd = fd) with
  | none => exact ⟨-1, [], mq, rfl, h⟩
  | some client =>
    have hclient := List.mem_of_find?_eq_some hfind
    obtain ⟨d, hd, -, run, hroff, hloop⟩ := h.flushLoop hc (h.roff_slot client hclient) write
    have hrun : mq.flushClientMessages client write = .ok run :=
      hloop mq.capacity (by rw [h.capacity]; exact hd)
    refine ⟨run.ret, run.writes, _, by simp only [hrun]; rfl, h.withClients ?_⟩
    intro cl hmem
    rcases mem_setRoff hmem with ⟨hold, -⟩ | rfl
    · exact h.roff_slot cl hold
    · exact hroff

/-- A call returns and keeps the indices in range, or hands a `NULL` slot to `sdsdup`. -/
theorem queueCall (hc : CapacityOk c) (h : InRange c mq) (call : QueueCall) :
    mq.queueCall call = .error .nullString ∨
      ∃ mq', mq.queueCall call = .ok mq' ∧ InRange c mq' := by
  cases call with
  | get index alloc =>
    rcases h.get hc index alloc with herr | ⟨s, hok⟩
    · exact .inl (by rw [MessageQueue.queueCall, herr]; rfl)
    · exact .inr ⟨mq, by rw [MessageQueue.queueCall, hok]; rfl, h⟩
  | change call =>
    cases call with
    | q msg alloc =>
      obtain ⟨rc, mq', hq, h'⟩ := h.q hc msg alloc
      exact .inr ⟨mq', by rw [MessageQueue.queueCall, call, hq]; rfl, h'⟩
    | dq alloc =>
      rcases h.dq hc alloc with herr | ⟨s, mq', hok, h'⟩
      · exact .inl (by rw [MessageQueue.queueCall, call, herr]; rfl)
      · exact .inr ⟨mq', by rw [MessageQueue.queueCall, call, hok]; rfl, h'⟩
    | registerClient fd alloc => exact .inr ⟨_, rfl, h.registerClient hc fd alloc⟩
    | unregisterClient fd =>
      obtain ⟨clients, hsub, heq⟩ := unregisterClient_eq mq fd
      refine .inr ⟨_, rfl, ?_⟩
      rw [heq]
      exact h.withClients fun cl hmem => h.roff_slot cl (hsub.subset hmem)
    | flush fd write =>
      obtain ⟨rc, writes, mq', hflush, h'⟩ := h.flush hc fd write
      exact .inr ⟨mq', by rw [MessageQueue.queueCall, call, hflush]; rfl, h'⟩
    | dropSlowConsumers =>
      obtain ⟨clients, hsub, heq⟩ := dropSlowConsumers_eq mq
      refine .inr ⟨_, rfl, ?_⟩
      rw [heq]
      exact h.withClients fun cl hmem => h.roff_slot cl (hsub.subset hmem)

theorem getLength_le (hc : CapacityOk c) (h : InRange c mq) : mq.getLength ≤ c := by
  have hfit := hc.fits
  unfold sizeofSds at hfit
  obtain ⟨hend, hend'⟩ := h.end_slot
  have hcap := h.capacity
  unfold getLength
  split_ifs with hempty hlt heq
  · exact Nat.zero_le c
  · have hstart := (h.start_slot.resolve_left hempty).1
    unfold toSize toWord
    omega
  · exact hcap.le
  · obtain ⟨hstart, hstart'⟩ := h.start_slot.resolve_left hempty
    unfold toSize toWord
    omega

end InRange

/-- A value that conversion to `size_t` keeps. -/
def FitsSize (z : ℤ) : Prop := 0 ≤ z ∧ z < 2 ^ 64

/-- The values, in order, that the unsigned arithmetic on the indices computes, each where the
code reaches it: in `getLength`, in `get`, and in `dropSlowConsumers`. -/
structure NeverWraps (mq : MessageQueue) : Prop where
  ahead : mq.start ≠ mqEmptySentinel → mq.start < mq.end_ → FitsSize (mq.end_ - mq.start)
  wrapped : mq.start ≠ mqEmptySentinel → mq.end_ < mq.start →
    FitsSize mq.start ∧ FitsSize (mq.capacity - mq.start) ∧
      FitsSize (mq.capacity - mq.start + mq.end_)
  slot : mq.start ≠ mqEmptySentinel → ∀ index < mq.getLength, FitsSize (mq.start + index)
  threshold : FitsSize (mq.capacity * 8)
  lag : mq.start ≠ mqEmptySentinel → ∀ cl ∈ mq.clients,
    FitsSize cl.roff ∧ FitsSize (mq.capacity + cl.roff) ∧
      FitsSize (mq.capacity + cl.roff - mq.start)

theorem InRange.neverWraps (hc : CapacityOk c) (h : InRange c mq) : NeverWraps mq := by
  have hfit := hc.fits
  unfold sizeofSds at hfit
  obtain ⟨hend, hend'⟩ := h.end_slot
  have hcap := h.capacity
  constructor
  · intro hne hlt
    have hstart := (h.start_slot.resolve_left hne).1
    unfold FitsSize
    omega
  · intro hne hlt
    obtain ⟨hstart, hstart'⟩ := h.start_slot.resolve_left hne
    unfold FitsSize
    omega
  · intro hne index hindex
    obtain ⟨hstart, hstart'⟩ := h.start_slot.resolve_left hne
    have := h.getLength_le hc
    unfold FitsSize
    omega
  · unfold FitsSize
    omega
  · intro hne cl hmem
    obtain ⟨hstart, hstart'⟩ := h.start_slot.resolve_left hne
    obtain ⟨hroff, hroff'⟩ := h.roff_slot cl hmem
    unfold FitsSize
    omega

/-- A call that returns. -/
def ReturnStep (mq : MessageQueue) (call : QueueCall) (mq' : MessageQueue) : Prop :=
  mq.queueCall call = .ok mq'

/-- After any run of calls the indices are in range, so that no call faults on the array or
loops for ever (a `dq` or `get` that duplicates a `NULL` slot is the one fault), no unsigned
value wraps, and the loops of `flush` and `free` return with `end` less than one lap away. -/
theorem indices_in_range (hc : CapacityOk c) {calls : List QueueCall}
    (hrun : Run ReturnStep (fresh c) calls mq) :
    (0 ≤ mq.end_ ∧ mq.end_ < c) ∧ (mq.start = -1 ∨ 0 ≤ mq.start ∧ mq.start < c) ∧
      (∀ cl ∈ mq.clients, 0 ≤ cl.roff ∧ cl.roff < c) ∧
      (∀ call fault, mq.queueCall call = .error fault → fault = .nullString) ∧
      mq.getLength ≤ c ∧ NeverWraps mq ∧
      (∀ cl ∈ mq.clients, ∀ write, ∃ d < c, mq.end_ = (cl.roff + d) % c ∧
        ∃ run, ∀ fuel, d < fuel → mq.flushLoop write fuel cl.roff 0 = .ok run) ∧
      (mq.start ≠ -1 → ∃ d < c, mq.end_ = (mq.start + d) % c ∧
        ∃ released, ∀ fuel, d < fuel → mq.freeLoop fuel mq.start = .ok released) := by
  have h : InRange c mq := hrun.invariant (.fresh hc) fun mq call mq' h hstep => by
    rcases h.queueCall hc call with herr | ⟨mq'', hok, h'⟩
    · rw [ReturnStep, herr] at hstep
      cases hstep
    · rw [ReturnStep, hok] at hstep
      cases hstep
      exact h'
  refine ⟨h.end_slot, h.start_slot, h.roff_slot, ?_, h.getLength_le hc, h.neverWraps hc, ?_, ?_⟩
  · intro call fault hfault
    rcases h.queueCall hc call with herr | ⟨mq', hok, -⟩
    · rw [herr] at hfault
      cases hfault
      rfl
    · rw [hok] at hfault
      cases hfault
  · intro cl hmem write
    obtain ⟨d, hd, hend, run, -, hloop⟩ := h.flushLoop hc (h.roff_slot cl hmem) write
    exact ⟨d, hd, hend, run, hloop⟩
  · intro hne
    exact h.freeLoop hc (h.start_slot.resolve_left hne)

/-- A drained ring of three slots is refilled past a `NULL` slot and a flush fails there. -/
theorem indices_in_range_refilled :
    let mq : MessageQueue := ⟨3, [none, some [98], none], 0, 2, [⟨7, 1⟩]⟩
    Run ReturnStep (fresh 3) [.change (.registerClient 7 true), .change (.q [97] true),
        .change (.dq true), .change (.q [98] true), .change (.flush 7 fun _ _ => -1)] mq ∧
      (∀ call fault, mq.queueCall call = .error fault → fault = .nullString) ∧
      mq.getLength ≤ 3 ∧ NeverWraps mq := by
  intro mq
  have hrun : Run ReturnStep (fresh 3) [.change (.registerClient 7 true), .change (.q [97] true),
      .change (.dq true), .change (.q [98] true), .change (.flush 7 fun _ _ => -1)] mq :=
    .of_foldlM rfl fun _ _ _ _ h => h
  obtain ⟨-, -, -, hfault, hlength, hwraps, -⟩ :=
    indices_in_range ⟨by decide, by decide⟩ hrun
  exact ⟨hrun, hfault, hlength, hwraps⟩

end SysExploration
