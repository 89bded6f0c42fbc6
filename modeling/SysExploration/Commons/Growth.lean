import Mathlib.Order.Bounds.Basic
import SysExploration.Commons.ByteQueue
import SysExploration.Library.Loops

/-! How `readbuffer__assure` makes room: when it succeeds, what it reports when it does not,
and the capacity it leaves. -/
namespace SysExploration

/-- The powers of two at or above a number. -/
def powersFrom (n : ℕ) : Set ℕ := {p | n ≤ p ∧ ∃ k, p = 2 ^ k}

theorem isLeast_clog (n : ℕ) : IsLeast (powersFrom n) (2 ^ Nat.clog 2 n) := by
  constructor
  · exact ⟨Nat.le_pow_clog (by decide) n, _, rfl⟩
  · rintro p ⟨hn, k, rfl⟩
    exact Nat.pow_le_pow_right (by decide) (Nat.clog_le_of_le_pow hn)

/-- The body of the `while` of `next_power_of_two`. -/
def nextPowerOfTwoRound (w value capacity : ℕ) : Except Fault (Option ℕ ⊕ ℕ) :=
  if capacity < value then
    if (2 ^ w - 1) / 2 < capacity then .ok (.inl none)
    else .ok (.inr (toWord w (capacity * 2 : ℕ)))
  else .ok (.inl (some capacity))

theorem nextPowerOfTwoLoop_eq_loop (w value fuel capacity : ℕ) :
    nextPowerOfTwoLoop w value fuel capacity =
      loop .endless (nextPowerOfTwoRound w value) fuel capacity := by
  induction fuel generalizing capacity with
  | zero => rfl
  | succ fuel ih =>
    rw [nextPowerOfTwoLoop, loop, nextPowerOfTwoRound]
    by_cases hlt : capacity < value
    · rw [if_pos hlt, if_pos hlt]
      by_cases hlast : (2 ^ w - 1) / 2 < capacity
      · rw [if_pos hlast, if_pos hlast]
        rfl
      · rw [if_neg hlast, if_neg hlast]
        exact ih _
    · rw [if_neg hlt, if_neg hlt]
      rfl

/-- A power of two that is below `2 ^ w`. -/
def IsWordPower (w capacity : ℕ) : Prop := ∃ k < w, capacity = 2 ^ k

/-- A round stops or doubles a power of two below `2 ^ w` to the next one. -/
theorem nextPowerOfTwoRound_cases (w value : ℕ) {capacity : ℕ} (h : IsWordPower w capacity) :
    (∃ r, nextPowerOfTwoRound w value capacity = .ok (.inl r)) ∨
      nextPowerOfTwoRound w value capacity = .ok (.inr (capacity * 2)) ∧
        IsWordPower w (capacity * 2) ∧ capacity * 2 < 2 ^ w := by
  obtain ⟨k, hk, rfl⟩ := h
  unfold nextPowerOfTwoRound
  by_cases hlt : 2 ^ k < value
  · rw [if_pos hlt]
    by_cases hlast : (2 ^ w - 1) / 2 < 2 ^ k
    · rw [if_pos hlast]
      exact .inl ⟨none, rfl⟩
    · have hfits : 2 ^ k * 2 < 2 ^ w := by
        have hpos : 1 ≤ 2 ^ w := Nat.one_le_two_pow
        omega
      rw [if_neg hlast, toWord_of_lt hfits]
      refine .inr ⟨rfl, ⟨k + 1, ?_, (Nat.pow_succ 2 k).symm⟩, hfits⟩
      rw [← Nat.pow_succ] at hfits
      exact (Nat.pow_lt_pow_iff_right (by decide)).mp hfits
  · rw [if_neg hlt]
    exact .inl ⟨_, rfl⟩

/-- The loop ends, and its capacities are powers of two below `2 ^ w`: no doubling wraps. -/
theorem nextPowerOfTwo_halts {w : ℕ} (hw : 0 < w) (value : ℕ) :
    ∃ r, Halts (nextPowerOfTwoRound w value) (IsWordPower w) 1 r := by
  have hprogress : Progress (nextPowerOfTwoRound w value) (IsWordPower w) (fun _ => True)
      (2 ^ w - ·) := by
    intro capacity h
    rcases nextPowerOfTwoRound_cases w value h with ⟨r, hstop⟩ | ⟨hnext, hpower, hfits⟩
    · exact .inl ⟨r, hstop, trivial⟩
    · refine .inr ⟨_, hnext, hpower, ?_⟩
      obtain ⟨k, -, rfl⟩ := h
      have hpos := Nat.two_pow_pos k
      dsimp only
      omega
  obtain ⟨r, hhalts, -⟩ := hprogress.halts ⟨0, hw, rfl⟩
  exact ⟨r, hhalts⟩

/-- The fuel of `nextPowerOfTwo` is enough for what its loop ends with. -/
theorem nextPowerOfTwo_returns {w value : ℕ} (hw : 0 < w) (hvalue : value < 2 ^ w) {r : Option ℕ}
    (h : Halts (nextPowerOfTwoRound w value) (IsWordPower w) 1 r) :
    nextPowerOfTwo w value = .ok (if value = 0 then some 0 else r) := by
  by_cases hzero : value = 0
  · rw [nextPowerOfTwo, if_pos hzero, if_pos hzero]
  · have hreturns := nextPowerOfTwo_eq hw (Nat.pos_of_ne_zero hzero) hvalue
    have hloop := hreturns
    rw [nextPowerOfTwo, if_neg hzero, nextPowerOfTwoLoop_eq_loop] at hloop
    rw [hreturns, h.eq_of_loop hloop, if_neg hzero]

namespace ReadBuffer

/-- What `readbuffer__assure` does for a request of `n` bytes. -/
structure Assures (w : ℕ) (rb : ReadBuffer) (n : ℕ) (malloc : Malloc) (r : ReadBufferResult)
    (rb' : ReadBuffer) : Prop where
  succeeds : r.ok = true ↔
    n ≤ rb.capacity - rb.length ∨ rb.length + n ≤ 2 ^ (w - 1) ∧ malloc ≠ none
  overflows : r.errorCode = .overflow ↔
    rb.capacity - rb.length < n ∧ 2 ^ (w - 1) < rb.length + n
  room : r.ok = true → n ≤ rb'.getWriteCursorLimit w
  view : r.ok = true → rb'.getReadView.size = rb.getReadView.size ∧ rb'.view = rb.view
  monotone : rb.capacity ≤ rb'.capacity
  replaced : rb'.capacity ≠ rb.capacity → rb.capacity - rb.length < n
  grown : r.ok = true → rb.capacity - rb.length < n →
    IsLeast (powersFrom (rb.length + n)) rb'.capacity

variable {w n : ℕ} {rb rb' : ReadBuffer} {malloc : Malloc} {r : ReadBufferResult}

theorem AssureEffect.assures (hw : 0 < w) (h : rb.Valid w)
    (he : AssureEffect w rb n malloc r rb') : rb.Assures w n malloc r rb' := by
  have hfits := h.fits
  obtain ⟨hvalid, hview⟩ := he.valid hw h
  have hroom : r.ok = true → n ≤ rb'.getWriteCursorLimit w := by
    rw [hvalid.limit_eq]
    exact he.space
  have hviews : r.ok = true → rb'.getReadView.size = rb.getReadView.size ∧ rb'.view = rb.view := by
    intro _
    have hlength := congrArg List.length hview
    rw [hvalid.length_view, h.length_view] at hlength
    exact ⟨hlength, hview⟩
  cases he with
  | enough henough =>
    have hfit : n ≤ rb.capacity - rb.length := by omega
    have hnot : ¬ rb.capacity - rb.length < n := Nat.not_lt.mpr hfit
    exact ⟨iff_of_true rfl (.inl hfit), iff_of_false nofun fun hover => hnot hover.1, hroom,
      hviews, Nat.le_refl _, fun hne => absurd rfl hne, fun _ hlong => absurd hlong hnot⟩
  | compacted hfit =>
    have hnot : ¬ rb.capacity - rb.length < n := Nat.not_lt.mpr hfit
    exact ⟨iff_of_true rfl (.inl hfit), iff_of_false nofun fun hover => hnot hover.1, hroom,
      hviews, Nat.le_refl _, fun hne => absurd rfl hne, fun _ hlong => absurd hlong hnot⟩
  | grown hlong hpower hmalloc =>
    have hleast := isLeast_clog (rb.length + n)
    refine ⟨iff_of_true rfl (.inr ⟨hpower, hmalloc⟩),
      iff_of_false nofun fun hover => Nat.not_lt.mpr hpower hover.2, hroom, hviews, ?_,
      fun _ => hlong, fun _ _ => hleast⟩
    have hle : rb.length + n ≤ 2 ^ Nat.clog 2 (rb.length + n) := hleast.1.1
    dsimp only
    omega
  | overflow hlong hover =>
    refine ⟨iff_of_false Bool.noConfusion ?_, iff_of_true rfl ⟨hlong, hover⟩, nofun, nofun,
      Nat.le_refl _, fun _ => hlong, nofun⟩
    rintro (hfit | ⟨hpower, -⟩)
    · exact Nat.not_lt.mpr hfit hlong
    · exact Nat.not_lt.mpr hpower hover
  | allocationFailed hlong hpower hmalloc =>
    refine ⟨iff_of_false Bool.noConfusion ?_,
      iff_of_false nofun fun hover => Nat.not_lt.mpr hpower hover.2, nofun, nofun,
      Nat.le_refl _, fun _ => hlong, nofun⟩
    rintro (hfit | ⟨-, hsome⟩)
    · exact Nat.not_lt.mpr hfit hlong
    · exact hsome hmalloc

end ReadBuffer

namespace ByteTraffic

variable {w n : ℕ} {s : ByteTraffic} {ops : List ReadBufferOp}

/-- In every state a buffer can reach, `readbuffer__assure` returns and does what it should for
every request. The doubling loop under it ends without a wrap for every argument, and what it ends
with is returned. -/
theorem assure_grows_to_power_of_two (hw : 0 < w) (hn : n < 2 ^ w) {calloc : Bool}
    {malloc : Malloc} {rb₀ : ReadBuffer} (hinit : ReadBuffer.init n calloc malloc = some rb₀)
    (hrun : Run (Steps w) ⟨rb₀, [], 0⟩ ops s) :
    (∀ request < 2 ^ w, ∀ malloc, ∃ r rb', s.rb.assure w request malloc = .ok (r, rb') ∧
        s.rb.Assures w request malloc r rb') ∧
      ∀ value < 2 ^ w, ∃ r, Halts (nextPowerOfTwoRound w value) (IsWordPower w) 1 r ∧
        nextPowerOfTwo w value = .ok (if value = 0 then some 0 else r) := by
  obtain ⟨hvalid₀, hview₀⟩ := ReadBuffer.valid_init hn hinit
  have h : Queued w s := by
    apply hrun.invariant (I := Queued w) ⟨hvalid₀, hview₀, Nat.le_refl 0⟩
    intro _ _ _ h hstep
    exact hstep.queued hw h
  constructor
  · intro request _ malloc
    obtain ⟨r, rb', hassure, he⟩ := h.valid.assure_effect hw request malloc
    exact ⟨r, rb', hassure, he.assures hw h.valid⟩
  · intro value hvalue
    obtain ⟨r, hhalts⟩ := nextPowerOfTwo_halts hw value
    exact ⟨r, hhalts, nextPowerOfTwo_returns hw hvalue hhalts⟩

/-- Three of four bytes are unread; room for six more takes a block of sixteen. -/
theorem assure_grows_to_power_of_two_sixteen :
    ∃ s rb', Run (Steps 64) ⟨⟨some [0, 0, 0, 0], 4, 0, 0⟩, [], 0⟩
        [.commitWrite [97, 98, 99, 100], .consume 1] s ∧
      s.rb.assure 64 6 (some fun _ => 0) = .ok (.success, rb') ∧ rb'.capacity = 16 ∧
      s.rb.Assures 64 6 (some fun _ => 0) .success rb' := by
  have hrun : Run (Steps 64) ⟨⟨some [0, 0, 0, 0], 4, 0, 0⟩, [], 0⟩
      [.commitWrite [97, 98, 99, 100], .consume 1]
      ⟨⟨some [97, 98, 99, 100], 4, 3, 1⟩, [97, 98, 99, 100], 1⟩ :=
    Run.of_foldlM (f := step 64) rfl fun _ _ _ _ h => h
  obtain ⟨hassures, -⟩ := assure_grows_to_power_of_two (by decide) (show 4 < 2 ^ 64 by decide)
    (show ReadBuffer.init 4 true (some fun _ => 0) = some _ from rfl) hrun
  obtain ⟨r, rb', hassure, h⟩ := hassures 6 (by decide) (some fun _ => 0)
  have hcall : ReadBuffer.assure 64 ⟨some [97, 98, 99, 100], 4, 3, 1⟩ 6 (some fun _ => 0) =
      .ok (.success, ⟨some [98, 99, 100, 0, 0, 0, 0, 0, 0, 0, 0, 0, 0, 0, 0, 0], 16, 3, 0⟩) := rfl
  obtain ⟨rfl, rfl⟩ := Prod.mk.inj (Except.ok.inj (hassure.symm.trans hcall))
  exact ⟨_, _, hrun, hassure, rfl, h⟩

end ByteTraffic
end SysExploration
