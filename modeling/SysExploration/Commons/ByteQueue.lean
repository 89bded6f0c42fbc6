import Mathlib.Data.Nat.Log
import SysExploration.Commons.ReadBuffer
import SysExploration.Library.Runs

/-! The read buffer as a byte queue. Under `offset + length ≤ capacity` no unsigned
expression of the operations wraps, and the view is what was committed and not consumed. -/
namespace SysExploration

theorem toWord_sub {w a b : ℕ} (hb : b ≤ a) (ha : a < 2 ^ w) : toWord w ((a : ℤ) - b) = a - b := by
  rw [← Int.ofNat_sub hb]
  exact toWord_of_lt (by omega)

/-- The loop doubles a power of two that is not past the smallest one at or above `value`. -/
theorem nextPowerOfTwoLoop_eq {w value fuel k : ℕ} (hvalue : value < 2 ^ w)
    (hk : k ≤ Nat.clog 2 value) (hkw : k < w) (hfuel : w ≤ k + fuel) :
    nextPowerOfTwoLoop w value fuel (2 ^ k) =
      .ok (if value ≤ 2 ^ (w - 1) then some (2 ^ Nat.clog 2 value) else none) := by
  induction fuel generalizing k with
  | zero => omega
  | succ fuel ih =>
    have hhalf : 2 ^ w = 2 * 2 ^ (w - 1) := by
      rw [← Nat.pow_succ', Nat.succ_eq_add_one, Nat.sub_add_cancel (by omega)]
    rw [nextPowerOfTwoLoop]
    by_cases hlt : 2 ^ k < value
    · rw [if_pos hlt]
      by_cases hlast : k = w - 1
      · subst hlast
        rw [if_pos (by omega), if_neg (by omega)]
      · have hpow : 2 ^ (k + 1) ≤ 2 ^ (w - 1) := Nat.pow_le_pow_right (by decide) (by omega)
        have hdouble : toWord w ((2 ^ k * 2 : ℕ) : ℤ) = 2 ^ (k + 1) := by
          rw [toWord_of_lt (by rw [← Nat.pow_succ]; omega), Nat.pow_succ]
        rw [if_neg (by rw [Nat.pow_succ] at hpow; omega), hdouble]
        exact ih ((Nat.lt_clog_iff_pow_lt (by decide)).mpr hlt) (by omega) (by omega)
    · have hclog : Nat.clog 2 value = k :=
        Nat.le_antisymm (Nat.clog_le_of_le_pow (Nat.not_lt.mp hlt)) hk
      have hpow : 2 ^ k ≤ 2 ^ (w - 1) := Nat.pow_le_pow_right (by decide) (by omega)
      rw [if_neg hlt, if_pos (by omega), hclog]

/-- The smallest power of two at or above a positive value, if it is below `2 ^ w`. -/
theorem nextPowerOfTwo_eq {w value : ℕ} (hw : 0 < w) (hpos : 0 < value) (hvalue : value < 2 ^ w) :
    nextPowerOfTwo w value =
      .ok (if value ≤ 2 ^ (w - 1) then some (2 ^ Nat.clog 2 value) else none) := by
  rw [nextPowerOfTwo, if_neg (by omega)]
  exact nextPowerOfTwoLoop_eq (k := 0) hvalue (Nat.zero_le _) hw (by omega)

namespace ReadBuffer

/-- The bytes of the block, none when it was not allocated. -/
def bytes (rb : ReadBuffer) : Bytes := rb.data.getD []

structure Valid (w : ℕ) (rb : ReadBuffer) : Prop where
  fits : rb.offset + rb.length ≤ rb.capacity
  word : rb.capacity < 2 ^ w
  data : rb.bytes.length = rb.capacity

variable {w n : ℕ} {rb rb' : ReadBuffer} {malloc : Malloc} {r : ReadBufferResult}

theorem Valid.limit_eq (h : rb.Valid w) :
    rb.getWriteCursorLimit w = rb.capacity - (rb.offset + rb.length) := by
  have hsub := toWord_sub h.fits h.word
  rw [Int.natCast_add] at hsub
  exact hsub

theorem Valid.length_view (h : rb.Valid w) : rb.view.length = rb.length :=
  length_slice (by rw [← bytes, h.data]; exact h.fits)

theorem valid_init (hn : n < 2 ^ w) {calloc : Bool} (h : init n calloc malloc = some rb) :
    rb.Valid w ∧ rb.view = [] := by
  unfold init at h
  split_ifs at h with hcalloc hzero
  · cases malloc with
    | none => cases h
    | some garbage =>
      cases h
      exact ⟨⟨Nat.zero_le _, hn, length_block n garbage⟩, slice_zero _ _⟩
  · cases h
    exact ⟨⟨Nat.zero_le _, hn, (not_not.mp hzero).symm⟩, slice_zero _ _⟩

/-- Reading a part of the view. -/
theorem Valid.loadBytes_slice (h : rb.Valid w) (hcap : rb.capacity ≠ 0) {j m : ℕ}
    (hm : j + m ≤ rb.length) : loadBytes rb.data (rb.offset + j) m = .ok (slice rb.view j m) := by
  have hfits := h.fits
  have hlen := h.data
  cases hdata : rb.data with
  | none =>
    rw [bytes, hdata] at hlen
    exact absurd hlen.symm hcap
  | some b =>
    rw [bytes, hdata, Option.getD_some] at hlen
    rw [loadBytes, if_pos (by omega), view, hdata, slice_slice hm, Option.getD_some]

/-- The copy of the view that `memmove` and `memcpy` read. -/
theorem Valid.loadBytes_eq (h : rb.Valid w) (hcap : rb.capacity ≠ 0) :
    loadBytes rb.data rb.offset rb.length = .ok rb.view := by
  have hload := h.loadBytes_slice hcap (Nat.zero_add rb.length).le
  rwa [Nat.add_zero, ← h.length_view, slice_self, h.length_view] at hload

/-- The four outcomes of `assure`: the block is large enough as it is, after a move to the
front, or replaced by a larger one, or it is left alone. -/
inductive AssureEffect (w : ℕ) (rb : ReadBuffer) (n : ℕ) (malloc : Malloc) :
    ReadBufferResult → ReadBuffer → Prop
  | enough : n ≤ rb.capacity - (rb.offset + rb.length) → AssureEffect w rb n malloc .success rb
  | compacted {b : Bytes} : n ≤ rb.capacity - rb.length → b.length = rb.capacity →
      slice b 0 rb.length = rb.view →
      AssureEffect w rb n malloc .success { rb with data := some b, offset := 0 }
  | grown {b : Bytes} : rb.capacity - rb.length < n → rb.length + n ≤ 2 ^ (w - 1) →
      malloc ≠ none → b.length = 2 ^ Nat.clog 2 (rb.length + n) → slice b 0 rb.length = rb.view →
      AssureEffect w rb n malloc .success
        ⟨some b, 2 ^ Nat.clog 2 (rb.length + n), rb.length, 0⟩
  | overflow : rb.capacity - rb.length < n → 2 ^ (w - 1) < rb.length + n →
      AssureEffect w rb n malloc (.failure .overflow "requested capacity overflows") rb
  | allocationFailed : rb.capacity - rb.length < n → rb.length + n ≤ 2 ^ (w - 1) →
      malloc = none → AssureEffect w rb n malloc (.failure .allocationFailed "allocation failed") rb

theorem slice_overwrite_view (h : rb.Valid w) (b : Bytes) :
    slice (overwrite b 0 rb.view) 0 rb.length = rb.view := by
  have hread : slice (overwrite b 0 rb.view) 0 rb.view.length = rb.view :=
    slice_overwrite (Nat.zero_le _)
  rwa [h.length_view] at hread

theorem Valid.copyView_eq (h : rb.Valid w) {newData : Bytes} (hroom : rb.length ≤ newData.length) :
    ∃ b, rb.copyView newData = .ok (some b) ∧ b.length = newData.length ∧
      slice b 0 rb.length = rb.view := by
  have hfits := h.fits
  unfold copyView
  by_cases hempty : rb.length = 0
  · refine ⟨newData, if_neg (not_not_intro hempty), rfl, ?_⟩
    rw [view, hempty, slice_zero, slice_zero]
  · have hview : 0 + rb.view.length ≤ newData.length := by
      rw [h.length_view]
      omega
    refine ⟨overwrite newData 0 rb.view, ?_, length_overwrite hview, slice_overwrite_view h newData⟩
    rw [if_pos hempty, h.loadBytes_eq (by omega)]
    exact if_pos hview

theorem Valid.assure_effect (hw : 0 < w) (h : rb.Valid w) (n : ℕ) (malloc : Malloc) :
    ∃ r rb', rb.assure w n malloc = .ok (r, rb') ∧ AssureEffect w rb n malloc r rb' := by
  have hfits := h.fits
  have hword := h.word
  have htrailing : toWord w ((rb.capacity : ℤ) - (rb.offset + rb.length)) =
      rb.capacity - (rb.offset + rb.length) := h.limit_eq
  have havailable : toWord w ((rb.capacity : ℤ) - rb.length) = rb.capacity - rb.length :=
    toWord_sub (by omega) hword
  have hmax : toWord w (2 ^ w - 1 - (rb.length : ℤ)) = 2 ^ w - 1 - rb.length := by
    have hpos : 1 ≤ 2 ^ w := Nat.one_le_two_pow
    have hsub := toWord_sub (show rb.length ≤ 2 ^ w - 1 by omega) (show 2 ^ w - 1 < 2 ^ w by omega)
    rwa [Int.ofNat_sub hpos, Int.natCast_pow] at hsub
  unfold assure
  simp only [htrailing, havailable, hmax]
  by_cases henough : n ≤ rb.capacity - (rb.offset + rb.length)
  · rw [if_pos henough]
    exact ⟨_, _, rfl, .enough henough⟩
  rw [if_neg henough]
  by_cases hmove : n ≤ rb.capacity - rb.length
  · have hcap : rb.capacity ≠ 0 := by omega
    rw [if_pos hmove, h.loadBytes_eq hcap]
    have hdata := h.data
    cases hb : rb.data with
    | none =>
      rw [bytes, hb] at hdata
      exact absurd hdata.symm hcap
    | some b =>
      rw [bytes, hb, Option.getD_some] at hdata
      have hroom : 0 + rb.view.length ≤ b.length := by
        rw [h.length_view, hdata]
        omega
      refine ⟨_, _, ?_, .compacted hmove ((length_overwrite hroom).trans hdata)
        (slice_overwrite_view h b)⟩
      change (do
        let data ← storeBytes (some b) 0 rb.view
        .ok (ReadBufferResult.success, { rb with data := data, offset := 0 })) = _
      rw [storeBytes, if_pos hroom]
      rfl
  rw [if_neg hmove]
  by_cases hover : 2 ^ w - 1 - rb.length < n
  · rw [if_pos hover]
    have hhalf : 2 ^ (w - 1) < 2 ^ w := Nat.pow_lt_pow_right (by decide) (by omega)
    exact ⟨_, _, rfl, .overflow (by omega) (by omega)⟩
  have hrequired : toWord w ((rb.length : ℤ) + n) = rb.length + n := by
    rw [← Int.natCast_add]
    exact toWord_of_lt (by omega)
  rw [if_neg hover, hrequired, nextPowerOfTwo_eq hw (by omega) (by omega)]
  by_cases hpower : rb.length + n ≤ 2 ^ (w - 1)
  · rw [if_pos hpower]
    cases malloc with
    | none => exact ⟨_, _, rfl, .allocationFailed (by omega) hpower rfl⟩
    | some garbage =>
      have hroom : rb.length ≤ (block (2 ^ Nat.clog 2 (rb.length + n)) garbage).length := by
        rw [length_block]
        exact (Nat.le_add_right _ _).trans (Nat.le_pow_clog (by decide) _)
      obtain ⟨b, hcopy, hlen, hslice⟩ := h.copyView_eq hroom
      refine ⟨_, _, ?_, .grown (by omega) hpower nofun (hlen.trans (length_block _ garbage)) hslice⟩
      change (do
        let newData ← rb.copyView _
        Except.ok (ReadBufferResult.success, _)) = _
      rw [hcopy]
      rfl
  · rw [if_neg hpower]
    exact ⟨_, _, rfl, .overflow (by omega) (by omega)⟩

theorem AssureEffect.valid (hw : 0 < w) (h : rb.Valid w) (he : AssureEffect w rb n malloc r rb') :
    rb'.Valid w ∧ rb'.view = rb.view := by
  have hfits := h.fits
  cases he with
  | enough => exact ⟨h, rfl⟩
  | @compacted b hmove hlen hslice =>
    exact ⟨⟨by dsimp only; omega, h.word, hlen⟩, hslice⟩
  | @grown b hlong hpower _ hlen hslice =>
    refine ⟨⟨?_, ?_, hlen⟩, hslice⟩
    · have hclog := Nat.le_pow_clog (b := 2) (by decide) (rb.length + n)
      dsimp only
      omega
    · have hclog : Nat.clog 2 (rb.length + n) ≤ w - 1 := Nat.clog_le_of_le_pow hpower
      exact Nat.pow_lt_pow_right (by decide) (by omega)
  | overflow => exact ⟨h, rfl⟩
  | allocationFailed => exact ⟨h, rfl⟩

/-- On success the requested space is behind the view. -/
theorem AssureEffect.space (he : AssureEffect w rb n malloc r rb') (hok : r.ok = true) :
    n ≤ rb'.capacity - (rb'.offset + rb'.length) := by
  cases he with
  | enough henough => exact henough
  | compacted hmove => simpa using hmove
  | grown hlong hpower =>
    have hclog := Nat.le_pow_clog (b := 2) (by decide) (rb.length + n)
    dsimp only
    omega
  | overflow => cases hok
  | allocationFailed => cases hok

theorem AssureEffect.failed (he : AssureEffect w rb n malloc r rb') (hok : r.ok = false) :
    rb' = rb := by
  cases he with
  | overflow => rfl
  | allocationFailed => rfl
  | enough => cases hok
  | compacted => cases hok
  | grown => cases hok

/-- What a failure says. -/
theorem AssureEffect.failure_cases (he : AssureEffect w rb n malloc r rb') (hok : r.ok = false) :
    r = .failure .overflow "requested capacity overflows" ∧ 2 ^ (w - 1) < rb.length + n ∨
      r = .failure .allocationFailed "allocation failed" ∧ malloc = none := by
  cases he with
  | overflow _ hover => exact .inl ⟨rfl, hover⟩
  | allocationFailed _ _ hmalloc => exact .inr ⟨rfl, hmalloc⟩
  | enough => cases hok
  | compacted => cases hok
  | grown => cases hok

theorem AssureEffect.eq_success (he : AssureEffect w rb n malloc r rb') (hok : r.ok = true) :
    r = .success := by
  cases he with
  | enough => rfl
  | compacted => rfl
  | grown => rfl
  | overflow => cases hok
  | allocationFailed => cases hok

/-- Bytes stored at the write cursor leave the view as it is and stand behind it. -/
theorem Valid.fill_eq (h : rb.Valid w) {bytes : Bytes}
    (hroom : bytes.length ≤ rb.getWriteCursorLimit w) :
    ∃ data, rb.fill bytes = .ok { rb with data := data } ∧
      (data.getD []).length = rb.capacity ∧
      slice (data.getD []) rb.offset rb.length = rb.view ∧
      slice (data.getD []) (rb.offset + rb.length) bytes.length = bytes := by
  have hfits := h.fits
  have hdata := h.data
  rw [h.limit_eq] at hroom
  unfold fill getWriteCursor
  cases hb : rb.data with
  | none =>
    rw [ReadBuffer.bytes, hb, Option.getD_none, List.length_nil] at hdata
    obtain rfl : bytes = [] := List.eq_nil_of_length_eq_zero (by omega)
    have hsame : { rb with data := none } = rb := by rw [← hb]
    refine ⟨none, ?_, hdata, ?_, slice_zero _ _⟩
    · rw [hsame]
      rfl
    · rw [view, hb]
  | some b =>
    rw [ReadBuffer.bytes, hb, Option.getD_some] at hdata
    have hstore : rb.offset + rb.length + bytes.length ≤ b.length := by omega
    refine ⟨some (overwrite b (rb.offset + rb.length) bytes), ?_, ?_, ?_, ?_⟩
    · change (do
        let data ← storeBytes (some b) (rb.offset + rb.length) bytes
        Except.ok { rb with data := data }) = _
      rw [storeBytes, if_pos hstore]
      rfl
    · exact (length_overwrite hstore).trans hdata
    · rw [Option.getD_some, slice_overwrite_before (Nat.le_refl _) (by omega), view, hb,
        Option.getD_some]
    · exact slice_overwrite (by omega)

/-- Bytes stored at the write cursor and committed are appended to the view. -/
theorem Valid.commitWrite_eq (h : rb.Valid w) {n : ℕ} (hroom : n ≤ rb.getWriteCursorLimit w) :
    rb.commitWrite w n = (.success, { rb with length := rb.length + n }) ∧
      Valid w { rb with length := rb.length + n } ∧
      view { rb with length := rb.length + n } =
        rb.view ++ slice rb.bytes (rb.offset + rb.length) n := by
  have hfits := h.fits
  have hword := h.word
  have hsum : toWord w ((rb.length : ℤ) + n) = rb.length + n := by
    rw [h.limit_eq] at hroom
    rw [← Int.natCast_add]
    exact toWord_of_lt (by omega)
  refine ⟨?_, ⟨?_, h.word, h.data⟩, slice_add _ _ _ _⟩
  · rw [commitWrite, if_neg (Nat.not_lt.mpr hroom), hsum]
  · rw [h.limit_eq] at hroom
    dsimp only
    omega

/-- What a caller with enough room stores and commits. -/
theorem Valid.write_eq (h : rb.Valid w) {bytes : Bytes}
    (hroom : bytes.length ≤ rb.getWriteCursorLimit w) :
    ∃ rb₁ rb₂, rb.fill bytes = .ok rb₁ ∧ rb₁.commitWrite w bytes.length = (.success, rb₂) ∧
      rb₂.Valid w ∧ rb₂.view = rb.view ++ bytes ∧ rb₂.capacity = rb.capacity := by
  obtain ⟨data, hfill, hdata, hview, hstored⟩ := h.fill_eq hroom
  have hvalid : Valid w { rb with data := data } := ⟨h.fits, h.word, hdata⟩
  obtain ⟨hcommit, hvalid', hview'⟩ := hvalid.commitWrite_eq hroom
  refine ⟨_, _, hfill, hcommit, hvalid', hview'.trans ?_, rfl⟩
  rw [ReadBuffer.bytes, hstored, view, hview]

theorem Valid.consume_eq (h : rb.Valid w) {n : ℕ} (hn : n ≤ rb.length) :
    ∃ rb', rb.consume w n = (.success, rb') ∧ rb'.Valid w ∧ rb'.view = rb.view.drop n := by
  have hfits := h.fits
  have hword := h.word
  have hlength : toWord w ((rb.length : ℤ) - n) = rb.length - n := toWord_sub hn (by omega)
  have hoffset : toWord w ((rb.offset : ℤ) + n) = rb.offset + n := by
    rw [← Int.natCast_add]
    exact toWord_of_lt (by omega)
  refine ⟨_, if_neg (Nat.not_lt.mpr hn), ⟨?_, h.word, h.data⟩, ?_⟩
  · dsimp only
    rw [hlength]
    split_ifs <;> omega
  · rw [view, view, drop_slice, hlength]
    dsimp only
    split_ifs with hempty
    · rw [hempty, slice_zero, slice_zero]
    · rw [hoffset]

end ReadBuffer

/-- The operations that change the buffer. `commitWrite` comes with the bytes that its
caller stores at the write cursor, as far as the limit reaches, and then reports. -/
inductive ReadBufferOp where
  | assure (requestedSpace : ℕ) (malloc : Malloc)
  | commitWrite (bytes : Bytes)
  | consume (bytesConsumed : ℕ)

namespace ReadBufferOp

variable {w : ℕ} {rb : ReadBuffer}

/-- What the caller does before the call. -/
def prepare (w : ℕ) (rb : ReadBuffer) : ReadBufferOp → Except Fault ReadBuffer
  | .commitWrite bytes => rb.fill (bytes.take (rb.getWriteCursorLimit w))
  | _ => .ok rb

def call (w : ℕ) (rb : ReadBuffer) : ReadBufferOp → Except Fault (ReadBufferResult × ReadBuffer)
  | .assure requestedSpace malloc => rb.assure w requestedSpace malloc
  | .commitWrite bytes => .ok (rb.commitWrite w bytes.length)
  | .consume bytesConsumed => .ok (rb.consume w bytesConsumed)

def written : ReadBufferOp → Bytes
  | .commitWrite bytes => bytes
  | _ => []

def taken : ReadBufferOp → ℕ
  | .consume bytesConsumed => bytesConsumed
  | _ => 0

/-- The operation asks for more than there is. -/
def Exceeds (w : ℕ) (rb : ReadBuffer) : ReadBufferOp → Prop
  | .assure _ _ => False
  | .commitWrite bytes => rb.getWriteCursorLimit w < bytes.length
  | .consume bytesConsumed => rb.getReadView.size < bytesConsumed

/-- An operation of a valid buffer returns. When it succeeds the view grows by what was
written and shrinks by what was taken, and when it fails it leaves the buffer alone. -/
theorem spec (hw : 0 < w) (h : rb.Valid w) (op : ReadBufferOp) :
    ∃ rb₁ r rb₂, op.prepare w rb = .ok rb₁ ∧ op.call w rb₁ = .ok (r, rb₂) ∧ rb₂.Valid w ∧
      (r.ok = true → op.taken ≤ rb.view.length ∧
        rb₂.view = (rb.view ++ op.written).drop op.taken) ∧
      (r.ok = false → rb₂ = rb₁ ∧ rb₂.view = rb.view) ∧
      ((∀ n malloc, op ≠ .assure n malloc) → (r.ok = false ↔ op.Exceeds w rb)) := by
  cases op with
  | assure n malloc =>
    obtain ⟨r, rb', hcall, he⟩ := h.assure_effect hw n malloc
    obtain ⟨hvalid, hview⟩ := he.valid hw h
    refine ⟨rb, r, rb', rfl, hcall, hvalid, ?_, ?_, ?_⟩
    · intro _
      exact ⟨Nat.zero_le _, by simpa [written, taken] using hview⟩
    · intro hok
      exact ⟨he.failed hok, hview⟩
    · intro hne
      exact absurd rfl (hne n malloc)
  | commitWrite bytes =>
    by_cases hroom : bytes.length ≤ rb.getWriteCursorLimit w
    · obtain ⟨rb₁, rb₂, hfill, hcommit, hvalid, hview, -⟩ := h.write_eq hroom
      have hprepare : prepare w rb (.commitWrite bytes) = .ok rb₁ := by
        rw [prepare, List.take_of_length_le hroom]
        exact hfill
      refine ⟨rb₁, _, rb₂, hprepare, congrArg Except.ok hcommit, hvalid, ?_, nofun, ?_⟩
      · intro _
        exact ⟨Nat.zero_le _, hview⟩
      · intro _
        exact iff_of_false Bool.noConfusion (Nat.not_lt.mpr hroom)
    · have htake : (bytes.take (rb.getWriteCursorLimit w)).length ≤ rb.getWriteCursorLimit w :=
        List.length_take_le _ _
      obtain ⟨data, hfill, hdata, hview, -⟩ := h.fill_eq htake
      have hvalid : ReadBuffer.Valid w { rb with data := data } := ⟨h.fits, h.word, hdata⟩
      have hfail : ReadBuffer.commitWrite w { rb with data := data } bytes.length =
          (.failure .outOfRange "write exceeds assured space", { rb with data := data }) :=
        if_pos (Nat.not_le.mp hroom)
      refine ⟨_, _, _, hfill, congrArg Except.ok hfail, hvalid, nofun, ?_, ?_⟩
      · intro _
        exact ⟨rfl, hview⟩
      · intro _
        exact iff_of_true rfl (Nat.not_le.mp hroom)
  | consume n =>
    by_cases hn : n ≤ rb.length
    · obtain ⟨rb', hconsume, hvalid, hview⟩ := h.consume_eq hn
      refine ⟨rb, _, rb', rfl, congrArg Except.ok hconsume, hvalid, ?_, nofun, ?_⟩
      · intro _
        refine ⟨by rw [h.length_view]; exact hn, ?_⟩
        change rb'.view = (rb.view ++ []).drop n
        rw [List.append_nil, hview]
      · intro _
        exact iff_of_false Bool.noConfusion (Nat.not_lt.mpr hn)
    · have hfail : rb.consume w n =
          (.failure .outOfRange "consume exceeds readable bytes", rb) :=
        if_pos (Nat.not_le.mp hn)
      refine ⟨rb, _, rb, rfl, congrArg Except.ok hfail, h, nofun, ?_, ?_⟩
      · intro _
        exact ⟨rfl, rfl⟩
      · intro _
        exact iff_of_true rfl (Nat.not_le.mp hn)

end ReadBufferOp
/-- A buffer with the bytes committed to it and the number of bytes consumed. -/
structure ByteTraffic where
  rb : ReadBuffer
  committed : Bytes
  consumed : ℕ

namespace ByteTraffic

variable {w n : ℕ} {s s' : ByteTraffic} {op : ReadBufferOp} {ops : List ReadBufferOp}

def step (w : ℕ) (s : ByteTraffic) (op : ReadBufferOp) : Except Fault ByteTraffic := do
  let rb₁ ← op.prepare w s.rb
  let (r, rb₂) ← op.call w rb₁
  .ok (if r.ok then ⟨rb₂, s.committed ++ op.written, s.consumed + op.taken⟩
    else { s with rb := rb₂ })

def Steps (w : ℕ) (s : ByteTraffic) (op : ReadBufferOp) (s' : ByteTraffic) : Prop :=
  s.step w op = .ok s'

structure Queued (w : ℕ) (s : ByteTraffic) : Prop where
  valid : s.rb.Valid w
  view : s.rb.view = s.committed.drop s.consumed
  le : s.consumed ≤ s.committed.length

theorem Steps.queued (hw : 0 < w) (h : Queued w s) (hstep : s.Steps w op s') : Queued w s' := by
  obtain ⟨rb₁, r, rb₂, hprepare, hcall, hvalid, hok, hfail, -⟩ := op.spec hw h.valid
  have hview := h.view
  have hle := h.le
  unfold Steps step at hstep
  rw [hprepare] at hstep
  change (do
    let (r, rb₂) ← op.call w rb₁
    Except.ok (if r.ok then _ else _)) = _ at hstep
  rw [hcall] at hstep
  obtain rfl := Except.ok.inj hstep
  cases hr : r.ok with
  | true =>
    obtain ⟨htaken, hview'⟩ := hok hr
    rw [hview, List.length_drop] at htaken
    refine ⟨hvalid, ?_, ?_⟩
    · rw [if_pos rfl]
      dsimp only
      rw [hview', hview, ← List.drop_append_of_le_length hle, List.drop_drop]
    · simp only [if_pos, List.length_append]
      omega
  | false => exact ⟨hvalid, (hfail hr).2.trans hview, hle⟩

/-- What makes the buffer a byte queue: the view lies inside the block, the limit is exact,
the view is what was committed and not consumed, and every operation returns. Commits and
consumptions fail exactly when they ask for too much; what fails changes nothing. -/
structure IsByteQueue (w : ℕ) (s : ByteTraffic) : Prop where
  fits : s.rb.offset + s.rb.length ≤ s.rb.capacity
  word : s.rb.capacity < 2 ^ w
  limit : s.rb.getWriteCursorLimit w = s.rb.capacity - (s.rb.offset + s.rb.length)
  consumed : s.consumed ≤ s.committed.length
  view : s.rb.view = s.committed.drop s.consumed
  size : s.rb.getReadView.size = s.rb.view.length
  calls : ∀ op : ReadBufferOp, ∃ rb₁ r rb₂, op.prepare w s.rb = .ok rb₁ ∧
    op.call w rb₁ = .ok (r, rb₂) ∧ (r.ok = false → rb₂ = rb₁) ∧
    ((∀ n malloc, op ≠ .assure n malloc) → (r.ok = false ↔ op.Exceeds w s.rb))

/-- A buffer is a byte queue in every state it can reach. -/
theorem readbuffer_is_byte_queue (hw : 0 < w) (hn : n < 2 ^ w) {calloc : Bool} {malloc : Malloc}
    {rb₀ : ReadBuffer} (hinit : ReadBuffer.init n calloc malloc = some rb₀)
    (hrun : Run (Steps w) ⟨rb₀, [], 0⟩ ops s) : IsByteQueue w s := by
  obtain ⟨hvalid₀, hview₀⟩ := ReadBuffer.valid_init hn hinit
  have h : Queued w s := hrun.invariant (I := Queued w) ⟨hvalid₀, hview₀, Nat.le_refl 0⟩
    fun _ _ _ h hstep => hstep.queued hw h
  refine ⟨h.valid.fits, h.valid.word, h.valid.limit_eq, h.le, h.view, h.valid.length_view.symm, ?_⟩
  intro op
  obtain ⟨rb₁, r, rb₂, hprepare, hcall, -, -, hfail, hexact⟩ := op.spec hw h.valid
  exact ⟨rb₁, r, rb₂, hprepare, hcall, fun hr => (hfail hr).1, hexact⟩

/-- A buffer without storage that grows to four bytes, fails to grow again and is compacted. -/
theorem readbuffer_is_byte_queue_four :
    ∃ s, Run (Steps 64) ⟨⟨none, 0, 0, 0⟩, [], 0⟩
        [.assure 3 (some fun _ => 7), .commitWrite [1, 2, 3], .consume 2, .assure 9 none,
          .assure 2 none, .commitWrite [4, 5]] s ∧ IsByteQueue 64 s := by
  have hrun : Run (Steps 64) ⟨⟨none, 0, 0, 0⟩, [], 0⟩
      [.assure 3 (some fun _ => 7), .commitWrite [1, 2, 3], .consume 2, .assure 9 none,
        .assure 2 none, .commitWrite [4, 5]] ⟨⟨some [3, 4, 5, 7], 4, 3, 0⟩, [1, 2, 3, 4, 5], 2⟩ :=
    Run.of_foldlM (f := step 64) rfl fun _ _ _ _ h => h
  exact ⟨_, hrun, readbuffer_is_byte_queue (by decide) (show 0 < 2 ^ 64 by decide)
    (show ReadBuffer.init 0 true none = some _ from rfl) hrun⟩

end ByteTraffic
end SysExploration
