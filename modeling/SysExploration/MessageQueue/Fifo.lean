import Mathlib.Tactic.SplitIfs
import SysExploration.Library.Ring
import SysExploration.Library.Runs
import SysExploration.MessageQueue.Model

/-! The ring as a bounded queue. `Holds c S L mq` says that the message list `L` is stored
from slot `S % c` on; `S` counts the slots passed since the array was allocated. -/
namespace SysExploration

/-- A capacity `init` accepts and whose slot array exists: its size in bytes does not wrap,
so `malloc(sizeof(sds) * c)` returns `c` slots. -/
structure CapacityOk (c : ℕ) : Prop where
  pos : 1 ≤ c
  fits : sizeofSds * c < 2 ^ 64

theorem CapacityOk.toSsize_eq {c : ℕ} (hc : CapacityOk c) : toSsize c = c := by
  have := hc.fits
  exact toSsize_of_lt (by unfold sizeofSds at this; omega)

/-- Advancing an index of the ring by one slot. -/
theorem CapacityOk.advance {c : ℕ} (hc : CapacityOk c) (n : ℕ) :
    (((n % c : ℕ) : ℤ) + 1).tmod (toSsize c) = ((n + 1) % c : ℕ) := by
  rw [hc.toSsize_eq, Int.tmod_eq_emod_of_nonneg (by omega)]
  norm_cast
  exact Nat.mod_add_mod n c 1

theorem loadSlot_eq {messages : List (Option Bytes)} {n : ℕ} {s : Option Bytes}
    (h : messages[n]? = some s) : loadSlot messages n = .ok s := by
  simp [loadSlot, h]

theorem storeSlot_eq {messages : List (Option Bytes)} {n : ℕ} (h : n < messages.length)
    (s : Option Bytes) : storeSlot messages n s = .ok (messages.set n s) := by
  simp [storeSlot, h]

namespace MessageQueue

structure Holds (c S : ℕ) (L : List Bytes) (mq : MessageQueue) : Prop where
  capacity : mq.capacity = c
  slots : Ring.Holds c S L mq.messages
  end_eq : mq.end_ = ((S + L.length) % c : ℕ)
  start_eq : mq.start = if L = [] then mqEmptySentinel else ((S % c : ℕ) : ℤ)

variable {c S : ℕ} {L : List Bytes} {mq : MessageQueue} {msg : Bytes}

theorem holds_fresh (hc : CapacityOk c) : (fresh c).Holds c 0 [] where
  capacity := rfl
  slots := by
    have hsize : toSize (sizeofSds * c) / sizeofSds = c := by
      have := toSize_of_lt hc.fits
      push_cast at this
      rw [this]
      exact Nat.mul_div_cancel_left c (by decide)
    simpa only [fresh, hsize] using Ring.Holds.empty c 0
  end_eq := by simp [fresh]
  start_eq := rfl

theorem init_eq (hc : CapacityOk c) : init c true true = some (fresh c) := by
  have := hc.pos
  simp [init, show c ≠ 0 by omega]

theorem Holds.start_nil (h : mq.Holds c S []) : mq.start = mqEmptySentinel := by
  rw [h.start_eq]; rfl

theorem Holds.start_cons (h : mq.Holds c S (msg :: L)) : mq.start = (S % c : ℕ) := by
  rw [h.start_eq]; rfl

theorem Holds.start_of_ne (h : mq.Holds c S L) (hL : L ≠ []) : mq.start = (S % c : ℕ) := by
  rw [h.start_eq, if_neg hL]

theorem start_ne_sentinel {n : ℕ} (h : mq.start = n) : mq.start ≠ mqEmptySentinel := by
  unfold mqEmptySentinel
  omega

/-- `getLength` tells a full ring from an empty one by the sentinel. -/
theorem Holds.getLength_eq (hc : CapacityOk c) (h : mq.Holds c S L) :
    mq.getLength = L.length := by
  cases L with
  | nil => simp [getLength, h.start_nil]
  | cons m L =>
    have hstart := h.start_cons
    have hend := h.end_eq
    have hb := h.slots.bound
    have hfit := hc.fits
    have hslot := Ring.slot_eq (S := S) hc.pos hb
    have hS : S % c < c := Nat.mod_lt _ hc.pos
    have hpos : 0 < (m :: L).length := by simp
    rw [hslot] at hend
    unfold sizeofSds at hfit
    rw [getLength, if_neg (start_ne_sentinel hstart), hstart, hend, h.capacity]
    unfold toSize toWord
    split_ifs <;> omega

/-- `start = end` means a full ring; the sentinel keeps an empty one apart. -/
theorem Holds.end_eq_start_iff (hc : CapacityOk c) (h : mq.Holds c S L) :
    mq.end_ = mq.start ↔ L.length = c := by
  have hpos := hc.pos
  cases L with
  | nil =>
    rw [h.start_nil, h.end_eq]
    unfold mqEmptySentinel
    simp only [List.length_nil]
    omega
  | cons m L =>
    have hS : S % c < c := Nat.mod_lt _ hpos
    have hb := h.slots.bound
    have hlen : 0 < (m :: L).length := by simp
    rw [h.start_cons, h.end_eq, Ring.slot_eq hpos hb]
    split_ifs <;> omega

theorem exists_slot (hc : CapacityOk c) (hlen : mq.messages.length = c) (R : ℕ) :
    ∃ message, mq.messages[R % c]? = some message := by
  have hlt : R % c < mq.messages.length := by
    rw [hlen]
    exact Nat.mod_lt R hc.pos
  exact ⟨_, List.getElem?_eq_getElem hlt⟩

/-- A walk with a slot left before `end`, less than a lap away, has not met it yet. -/
theorem walk_ne_end (hc : CapacityOk c) {d R : ℕ} (hd : d + 1 < c)
    (hend : mq.end_ = ((R + (d + 1)) % c : ℕ)) : ((R % c : ℕ) : ℤ) ≠ mq.end_ := by
  rw [hend]
  intro he
  have he' : (R + 0) % c = (R + (d + 1)) % c := by exact_mod_cast he
  have := Ring.offset_injective hc.pos hd he'
  omega

theorem Holds.q_full (hc : CapacityOk c) (h : mq.Holds c S L) (hfull : L.length = c)
    (msg : Bytes) (alloc : Bool) : mq.q msg alloc = .ok (mqerrFull, mq) := by
  rw [q, if_pos ((h.end_eq_start_iff hc).mpr hfull)]

theorem q_tooLong (hne : mq.end_ ≠ mq.start) (hlen : maxMessageLength < msg.length)
    (alloc : Bool) : mq.q msg alloc = .ok (mqerrMessageTooLong, mq) := by
  rw [q, if_neg hne, if_pos hlen]

theorem q_allocFail (hne : mq.end_ ≠ mq.start) (hlen : msg.length ≤ maxMessageLength) :
    mq.q msg false = .ok (mqerrAllocFail, mq) := by
  rw [q, if_neg hne, if_neg (by omega)]
  rfl

/-- What an accepting `q` does to the ring, whether or not `start` is then right. -/
theorem Holds.q_store (hc : CapacityOk c) (h : mq.Holds c S L) (hroom : L.length < c)
    (hlen : msg.length ≤ maxMessageLength) :
    mq.q msg true = .ok (0, { mq with
      messages := mq.messages.set ((S + L.length) % c) (some msg)
      start := if L = [] then 0 else ((S % c : ℕ) : ℤ)
      end_ := ((S + L.length + 1) % c : ℕ) }) := by
  have hne : mq.end_ ≠ mq.start := fun he => by
    have := (h.end_eq_start_iff hc).mp he
    omega
  have hlt : (S + L.length) % c < mq.messages.length := by
    rw [h.slots.length]; exact Nat.mod_lt _ hc.pos
  have hstart : (if mq.start = mqEmptySentinel then 0 else mq.start) =
      if L = [] then 0 else ((S % c : ℕ) : ℤ) := by
    by_cases hL : L = []
    · subst hL
      rw [if_pos h.start_nil, if_pos rfl]
    · rw [if_neg (start_ne_sentinel (h.start_of_ne hL)), if_neg hL, h.start_of_ne hL]
  rw [q, if_neg hne, if_neg (by omega)]
  simp only [sdsnewlen, ↓reduceIte, h.end_eq, storeSlot_eq hlt, h.capacity, hc.advance, hstart]
  rfl

/-- A message goes to the back of the queue, as long as a refill finds `end` at slot 0. -/
theorem Holds.q_ok (hc : CapacityOk c) (h : mq.Holds c S L) (hroom : L.length < c)
    (hlen : msg.length ≤ maxMessageLength) (hrefill : L = [] → S % c = 0) :
    ∃ mq', mq.q msg true = .ok (0, mq') ∧ mq'.Holds c S (L ++ [msg]) ∧
      mq'.clients = mq.clients := by
  refine ⟨_, h.q_store hc hroom hlen, ?_, rfl⟩
  refine ⟨h.capacity, h.slots.push hroom msg, ?_, ?_⟩
  · simp [Nat.add_assoc]
  · by_cases hL : L = []
    · simp [hL, hrefill hL]
    · simp [hL]

/-- A refill that finds `end` past slot 0 leaves `start` behind: the ring then counts the
stale slots between them as messages. -/
theorem Holds.q_stale (hc : CapacityOk c) (h : mq.Holds c S []) (hS : S % c ≠ 0)
    (hlen : msg.length ≤ maxMessageLength) :
    ∃ mq', mq.q msg true = .ok (0, mq') ∧ mq'.getLength ≠ 1 := by
  refine ⟨_, h.q_store hc hc.pos hlen, ?_⟩
  have hlt : S % c < c := Nat.mod_lt _ hc.pos
  have hfit := hc.fits
  unfold sizeofSds at hfit
  have hend := Ring.slot_eq (S := S) hc.pos hc.pos
  simp only [getLength, List.length_nil, Nat.add_zero, ↓reduceIte, mqEmptySentinel, hend,
    h.capacity, toSize, toWord]
  split_ifs <;> omega

/-- `q` either rejects the message and changes nothing or stores it at the back. -/
theorem Holds.q_cases (hc : CapacityOk c) (h : mq.Holds c S L) (msg : Bytes) (alloc : Bool)
    (hrefill : L = [] → S % c = 0) :
    (∃ rc, rc ≠ 0 ∧ mq.q msg alloc = .ok (rc, mq)) ∨
      ∃ mq', mq.q msg alloc = .ok (0, mq') ∧ L.length < c ∧ mq'.Holds c S (L ++ [msg]) ∧
        mq'.clients = mq.clients := by
  by_cases hfull : L.length = c
  · exact .inl ⟨_, by decide, h.q_full hc hfull msg alloc⟩
  have hne : mq.end_ ≠ mq.start := mt (h.end_eq_start_iff hc).mp hfull
  by_cases hlen : maxMessageLength < msg.length
  · exact .inl ⟨_, by decide, q_tooLong hne hlen alloc⟩
  cases alloc with
  | false => exact .inl ⟨_, by decide, q_allocFail hne (by omega)⟩
  | true =>
    have hroom : L.length < c := lt_of_le_of_ne h.slots.bound hfull
    obtain ⟨mq', hq, hmq', hcl⟩ := h.q_ok hc hroom (Nat.not_lt.mp hlen) hrefill
    exact .inr ⟨mq', hq, hroom, hmq', hcl⟩

theorem Holds.dq_nil (h : mq.Holds c S []) (alloc : Bool) : mq.dq alloc = .ok (none, mq) := by
  rw [dq, if_pos h.start_nil]

theorem Holds.dq_allocFail (h : mq.Holds c S L) :
    mq.dq false = .ok (none, mq) := by
  cases L with
  | nil => exact h.dq_nil false
  | cons m L =>
    rw [dq, if_neg (start_ne_sentinel h.start_cons), h.start_cons, loadSlot_eq h.slots.front]
    rfl

/-- The front of the queue is returned and its slot cleared. -/
theorem Holds.dq_cons (hc : CapacityOk c) (h : mq.Holds c S (msg :: L)) :
    ∃ mq', mq.dq true = .ok (some msg, mq') ∧ mq'.Holds c (S + 1) L ∧
      mq'.clients = mq.clients := by
  have hlt : S % c < mq.messages.length := by
    rw [h.slots.length]; exact Nat.mod_lt _ hc.pos
  have hrun : mq.dq true = .ok (some msg, { mq with
      messages := mq.messages.set (S % c) none
      start := if (((S + 1) % c : ℕ) : ℤ) = mq.end_ then mqEmptySentinel
        else ((S + 1) % c : ℕ) }) := by
    rw [dq, if_neg (start_ne_sentinel h.start_cons), h.start_cons, loadSlot_eq h.slots.front]
    simp only [sdsdup, sdsnewlen, ↓reduceIte, h.capacity, hc.advance]
    change (storeSlot mq.messages _ none >>= _) = _
    rw [storeSlot_eq hlt]
    rfl
  refine ⟨_, hrun, ⟨h.capacity, h.slots.pop, ?_, ?_⟩, rfl⟩
  · simp only [h.end_eq, List.length_cons]
    congr 2
    omega
  · have hb := h.slots.bound
    rw [List.length_cons] at hb
    have hend : (((S + 1) % c : ℕ) : ℤ) = mq.end_ ↔ L = [] := by
      rw [h.end_eq, List.length_cons, show S + (L.length + 1) = S + 1 + L.length by omega,
        ← List.length_eq_zero_iff]
      constructor
      · intro he
        have he' : (S + 1 + 0) % c = (S + 1 + L.length) % c := by exact_mod_cast he
        exact (Ring.offset_injective hc.pos (by omega) he').symm
      · intro hL
        rw [hL]
    by_cases hL : L = []
    · simp only [if_pos (hend.mpr hL), if_pos hL]
    · simp only [if_neg (mt hend.mp hL), if_neg hL]

/-- `dq` either returns nothing and changes nothing or removes the front. -/
theorem Holds.dq_cases (hc : CapacityOk c) (h : mq.Holds c S L) (alloc : Bool) :
    mq.dq alloc = .ok (none, mq) ∨
      ∃ msg L' mq', L = msg :: L' ∧ mq.dq alloc = .ok (some msg, mq') ∧
        mq'.Holds c (S + 1) L' ∧ mq'.clients = mq.clients := by
  cases alloc with
  | false => exact .inl h.dq_allocFail
  | true =>
    cases L with
    | nil => exact .inl (h.dq_nil true)
    | cons msg L =>
      obtain ⟨mq', hdq, hmq', hcl⟩ := h.dq_cons hc
      exact .inr ⟨msg, L, mq', rfl, hdq, hmq', hcl⟩

theorem Holds.get_eq (hc : CapacityOk c) (h : mq.Holds c S L) (index : ℕ) :
    mq.get index true = .ok L[index]? := by
  by_cases hL : L = []
  · subst hL
    rw [get, if_pos h.start_nil]
    rfl
  · rw [get, if_neg (start_ne_sentinel (h.start_of_ne hL)), h.getLength_eq hc]
    by_cases hi : L.length ≤ index
    · rw [if_pos hi, List.getElem?_eq_none hi]
    · have hb := h.slots.bound
      have hfit := hc.fits
      have hS : S % c < c := Nat.mod_lt _ hc.pos
      unfold sizeofSds at hfit
      have hslot : toSize (mq.start + index) % mq.capacity = (S + index) % c := by
        have hsize := toSize_of_lt (show S % c + index < 2 ^ 64 by omega)
        push_cast at hsize
        rw [h.start_of_ne hL, h.capacity]
        push_cast
        rw [hsize, Nat.mod_add_mod]
      have hcell := h.slots.cells index (by omega)
      rw [if_neg hi, hslot, loadSlot_eq hcell, List.getElem?_eq_getElem (by omega)]
      rfl

/-- The messages held by the queue, as `get` reports them. -/
def contents (mq : MessageQueue) : List Bytes :=
  (List.range mq.getLength).filterMap fun i => (mq.get i true).toOption.join

private theorem filterMap_range_getElem? (L : List Bytes) :
    (List.range L.length).filterMap (fun i => L[i]?) = L := by
  induction L with
  | nil => rfl
  | cons m L ih =>
    rw [List.length_cons, List.range_succ_eq_map, List.filterMap_cons, List.filterMap_map]
    simpa [Function.comp_def] using ih

theorem Holds.contents_eq (hc : CapacityOk c) (h : mq.Holds c S L) : mq.contents = L := by
  have hget (i : ℕ) : (mq.get i true).toOption.join = L[i]? := by
    rw [h.get_eq hc]
    rfl
  simp only [contents, h.getLength_eq hc, hget, filterMap_range_getElem?]

end MessageQueue
end SysExploration
