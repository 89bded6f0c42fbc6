import Mathlib.Data.Nat.Log
import SysExploration.Commons.LineReading

/-! The memory of the line stream. The buffer is given a larger block only while its whole
view is a part of one line, so the longest line bounds it and not the file. -/
namespace SysExploration.LineStream

variable {k : LSKernel} {ls ls' : LineStream} {content : Bytes} {scanned : ℕ}

/-- The rounds of successive calls of `next`; the label is what a call returns with its last
round. The capacity of the buffer changes in `readbuffer__assure` only, once a round. -/
inductive Rounds (k : LSKernel) : LineStream × ℕ → Option ResultString → LineStream × ℕ → Prop
  | continues {ls : LineStream} {scanned : ℕ} {s : LineStream × ℕ} :
      nextRound k ls scanned = .ok (.inr s) → Rounds k (ls, scanned) none s
  | returns {ls ls' : LineStream} {scanned : ℕ} {r : ResultString} :
      nextRound k ls scanned = .ok (.inl (r, ls')) → Rounds k (ls, scanned) (some r) (ls', 0)

/-- The rounds of a call. -/
theorem rounds_of_nextLoop {fuel : ℕ} {r : ResultString}
    (h : nextLoop k fuel ls scanned = .ok (r, ls')) :
    ∃ rounds, Run (Rounds k) (ls, scanned) (List.replicate rounds none ++ [some r]) (ls', 0) := by
  induction fuel generalizing ls scanned with
  | zero => cases h
  | succ fuel ih =>
    rw [nextLoop_succ] at h
    cases hround : nextRound k ls scanned with
    | error fault =>
      rw [hround] at h
      cases h
    | ok o =>
      rw [hround] at h
      rcases o with ⟨r', ls₁⟩ | ⟨ls₁, n⟩
      · obtain ⟨rfl, rfl⟩ := Prod.mk.inj (Except.ok.inj h)
        exact ⟨0, Run.single (.returns hround)⟩
      · obtain ⟨rounds, hrun⟩ := ih h
        exact ⟨rounds + 1, (Run.single (.continues hround)).trans hrun⟩

theorem nextAll_succ_cases {n : ℕ} {results : List (Except LSError Bytes)}
    (h : nextAll k (n + 1) ls = .ok (results, ls')) :
    ∃ r ls₁ rest, ls.next k = .ok (r, ls₁) ∧ nextAll k n ls₁ = .ok (rest, ls') := by
  rw [nextAll] at h
  cases hnext : ls.next k with
  | error fault =>
    rw [hnext] at h
    cases h
  | ok result =>
    obtain ⟨r, ls₁⟩ := result
    refine ⟨r, ls₁, ?_⟩
    rw [hnext] at h
    cases r with
    | error e =>
      cases hrest : nextAll k n ls₁ with
      | error fault => simp [hrest, bind, Except.bind] at h
      | ok rest =>
        simp only [hrest, bind, Except.bind, Except.ok.injEq, Prod.mk.injEq] at h
        exact ⟨rest.1, rfl, by rw [← h.2]⟩
    | ok s =>
      cases htext : ls₁.text s with
      | error fault => simp [htext, bind, Except.bind, Functor.map, Except.map] at h
      | ok line =>
        cases hrest : nextAll k n ls₁ with
        | error fault => simp [htext, hrest, bind, Except.bind, Functor.map, Except.map] at h
        | ok rest =>
          simp only [htext, hrest, bind, Except.bind, Functor.map, Except.map, Except.ok.injEq,
            Prod.mk.injEq] at h
          exact ⟨rest.1, rfl, by rw [← h.2]⟩

/-- The states between calls are reached through rounds. -/
theorem rounds_of_nextAll {n : ℕ} {results : List (Except LSError Bytes)}
    (h : nextAll k n ls = .ok (results, ls')) :
    ∃ outs, Run (Rounds k) (ls, 0) outs (ls', 0) := by
  induction n generalizing ls results with
  | zero =>
    obtain ⟨rfl, rfl⟩ := Prod.mk.inj (Except.ok.inj h)
    exact ⟨[], .nil⟩
  | succ n ih =>
    obtain ⟨r, ls₁, rest, hnext, hrest⟩ := nextAll_succ_cases h
    obtain ⟨rounds, hfirst⟩ := rounds_of_nextLoop hnext
    obtain ⟨outs, hrun⟩ := ih hrest
    exact ⟨_, hfirst.trans hrun⟩

/-- Every round is followed by another one. -/
theorem Scanned.rounds (k : LSKernel) (h : ls.Scanned scanned) :
    ∃ out s, Rounds k (ls, scanned) out s := by
  obtain ⟨o, hround, -⟩ := h.round_effect k
  rcases o with ⟨r, ls'⟩ | s
  · exact ⟨some r, (ls', 0), .returns hround⟩
  · exact ⟨none, s, .continues hround⟩

theorem capacity_create {pageSize : ℕ} {alloc calloc : Bool} {malloc : Malloc}
    (hls : create ⟨content, []⟩ pageSize alloc calloc malloc = .ok ls) :
    ls.readBuffer.capacity = pageSize := by
  unfold create at hls
  split_ifs at hls
  split at hls
  · cases hls
  · next rb hinit =>
    obtain rfl := Except.ok.inj hls
    unfold ReadBuffer.init at hinit
    split_ifs at hinit
    · cases malloc with
      | none => cases hinit
      | some garbage =>
        cases hinit
        rfl
    · cases hinit
      rfl

/-- The longest line and space for a read, rounded up to a power of two. -/
def lineCapacity (content : Bytes) : ℕ :=
  2 ^ Nat.clog 2 (longestStretch newline content + readBufferingSize)

theorem Assured.capacity_le {rb : ReadBuffer} (ha : Assured k ls rb)
    (h : ls.readBuffer.Valid 64) (hnone : newline ∉ ls.readBuffer.view)
    (hsuffix : ls.pending <:+ content) :
    rb.capacity ≤ max ls.readBuffer.capacity (lineCapacity content) := by
  cases ha with
  | enough => exact Nat.le_max_left _ _
  | compacted => exact Nat.le_max_left _ _
  | grown =>
    have hview : ls.readBuffer.view <:+: content :=
      (List.prefix_append _ _).isInfix.trans hsuffix.isInfix
    have hlong : ls.readBuffer.length ≤ longestStretch newline content :=
      h.length_view ▸ length_le_longestStretch hview hnone
    have hclog := Nat.clog_mono_right 2 (Nat.add_le_add_right hlong readBufferingSize)
    exact (Nat.pow_le_pow_right (by decide) hclog).trans (Nat.le_max_right _ _)

/-- The stream in the middle of a file, with a buffer of at most `n` bytes. -/
structure Modest (content : Bytes) (n : ℕ) (ls : LineStream) (scanned : ℕ) : Prop where
  scanned : ls.Scanned scanned
  suffix : ls.pending <:+ content
  capacity : ls.readBuffer.capacity ≤ max n (lineCapacity content)

theorem Modest.assured {n : ℕ} {rb : ReadBuffer} (h : Modest content n ls scanned)
    (ha : Assured k ls rb) (hnone : newline ∉ ls.readBuffer.view) :
    rb.capacity ≤ max n (lineCapacity content) :=
  (ha.capacity_le h.scanned.valid hnone h.suffix).trans
    (Nat.max_le.mpr ⟨h.capacity, Nat.le_max_right _ _⟩)

theorem Modest.returned {n : ℕ} (h : Modest content n ls scanned) {r : ResultString}
    (he : RoundEffect k ls (.inl (r, ls'))) : Modest content n ls' 0 := by
  have hsuffix : ls'.pending <:+ ls.pending := by
    cases h.scanned.call_of_round he with
    | delivered _ hsuffix => exact hsuffix
    | refused _ hsame => exact hsame ▸ List.suffix_rfl
  refine ⟨h.scanned.returned he, hsuffix.trans h.suffix, ?_⟩
  cases he with
  | line _ _ _ hcapacity => exact hcapacity.trans_le h.capacity
  | assureFailed => exact h.capacity
  | readFailed hnone ha => exact h.assured ha hnone
  | lastLine hnone _ _ ha _ _ _ _ hcapacity => exact hcapacity.trans_le (h.assured ha hnone)
  | ended hview _ ha => exact h.assured ha (by rw [hview]; simp)

theorem Modest.continued {n m : ℕ} (h : Modest content n ls scanned)
    (he : RoundEffect k ls (.inr (ls', m))) : Modest content n ls' m := by
  refine ⟨h.scanned.continued he, he.continued.1 ▸ h.suffix, ?_⟩
  cases he with
  | filled hnone ha _ _ _ _ _ _ hcapacity => exact hcapacity.trans_le (h.assured ha hnone)

theorem Modest.rounds {n : ℕ} {s s' : LineStream × ℕ} {out : Option ResultString}
    (h : Modest content n s.1 s.2) (hstep : Rounds k s out s') : Modest content n s'.1 s'.2 := by
  cases hstep with
  | @continues ls scanned s hround =>
    obtain ⟨o, hround', he⟩ := h.scanned.round_effect k
    obtain rfl := Except.ok.inj (hround'.symm.trans hround)
    exact h.continued he
  | @returns ls ls' scanned r hround =>
    obtain ⟨o, hround', he⟩ := h.scanned.round_effect k
    obtain rfl := Except.ok.inj (hround'.symm.trans hround)
    exact h.returned he

theorem modest_of_rounds {pageSize : ℕ} {alloc calloc : Bool} {malloc : Malloc}
    (hpage : pageSize < 2 ^ 64)
    (hls : create ⟨content, []⟩ pageSize alloc calloc malloc = .ok ls)
    {outs : List (Option ResultString)} {s : LineStream × ℕ}
    (hrun : Run (Rounds k) (ls, 0) outs s) : Modest content pageSize s.1 s.2 := by
  obtain ⟨h, hpending⟩ := scanned_create hpage hls
  have h0 : Modest content pageSize ls 0 := by
    refine ⟨h, hpending ▸ List.suffix_refl _, ?_⟩
    rw [capacity_create hls]
    exact Nat.le_max_left _ _
  exact hrun.invariant (I := fun s => Modest content pageSize s.1 s.2) h0
    fun s out s' h hstep => h.rounds hstep

/-- In every state between two rounds the buffer has at most the capacity it began with or the
one that the longest line needs, however long the file is. -/
theorem capacity_bounded_by_longest_line {pageSize : ℕ} {alloc calloc : Bool} {malloc : Malloc}
    (hpage : pageSize < 2 ^ 64)
    (hls : create ⟨content, []⟩ pageSize alloc calloc malloc = .ok ls)
    {outs : List (Option ResultString)} {s : LineStream × ℕ}
    (hrun : Run (Rounds k) (ls, 0) outs s) :
    s.1.readBuffer.capacity ≤ max pageSize (lineCapacity content) :=
  (modest_of_rounds hpage hls hrun).capacity

/-- The file `ab` and a second line `c`, in the state behind three calls. -/
theorem capacity_bounded_by_longest_line_abc :
    ∃ ls outs ls', create ⟨[97, 98, 10, 99], []⟩ 1 true true (some fun _ => 0) = .ok ls ∧
      nextAll ⟨fun _ => some 1, fun _ => some fun _ => 0, ""⟩ 3 ls =
        .ok ([.ok [97, 98], .ok [99], .error endOfFile], ls') ∧
      Run (Rounds ⟨fun _ => some 1, fun _ => some fun _ => 0, ""⟩) (ls, 0) outs (ls', 0) ∧
      ls'.readBuffer.capacity ≤ max 1 (lineCapacity [97, 98, 10, 99]) := by
  have hpage : 1 < 2 ^ 64 := by decide
  have hk : Obliging ⟨fun _ => some 1, fun _ => some fun _ => 0, ""⟩ := ⟨by simp, by simp⟩
  have hls : create ⟨[97, 98, 10, 99], []⟩ 1 true true (some fun _ => 0) =
      .ok ⟨⟨[97, 98, 10, 99], []⟩, ⟨some [0], 1, 0, 0⟩, 0⟩ := rfl
  obtain ⟨ls', hall, -⟩ :=
    (ready_create hpage (readable_of_length_le (by decide)) hls).1.nextAll_spec hk 3
  obtain ⟨outs, hrun⟩ := rounds_of_nextAll hall
  exact ⟨_, outs, ls', hls, hall, hrun, capacity_bounded_by_longest_line hpage hls hrun⟩

end SysExploration.LineStream
