import SysExploration.Commons.LineRounds

/-! What successive calls of `next` return. The bytes still to be delivered are the view of
the buffer and behind it the rest of the file; one call takes the first line off them, for
every way the reads cut the file, or it fails and leaves them as they are. -/
namespace SysExploration.LineStream

variable {k : LSKernel} {ls ls' : LineStream} {rb : ReadBuffer} {content : Bytes} {scanned : ℕ}

/-- No line is so long that the next doubling of the buffer would pass `2 ^ 63` bytes. -/
def Readable (content : Bytes) : Prop :=
  ∀ line, line <:+: content → newline ∉ line → line.length + readBufferingSize ≤ 2 ^ 63

/-- Reads do not fail and allocations succeed. -/
structure Obliging (k : LSKernel) : Prop where
  read : ∀ i, k.read i ≠ none
  malloc : ∀ i, k.malloc i ≠ none

/-- The stream between two calls. -/
structure Ready (ls : LineStream) : Prop where
  valid : ls.readBuffer.Valid 64
  readable : Readable ls.pending
  asked : ∀ n ∈ ls.fd.asked, 0 < n

/-- What a call does: it takes the first line off the pending bytes, or there are none. -/
inductive Delivered (pending : Bytes) : ResultString → LineStream → Prop
  | line {s : LSString} {line : Bytes} {ls : LineStream} : ls.text s = .ok line →
      linesOn newline pending = line :: linesOn newline ls.pending →
      Delivered pending (.ok s) ls
  | eof {ls : LineStream} : pending = [] → ls.pending = [] →
      Delivered pending (.error endOfFile) ls

theorem Readable.of_suffix {rest : Bytes} (h : Readable content) (hsuffix : rest <:+ content) :
    Readable rest := by
  intro line hline hnone
  exact h line (hline.trans hsuffix.isInfix) hnone

theorem readable_of_length_le (h : content.length + readBufferingSize ≤ 2 ^ 63) :
    Readable content := by
  intro line hline _
  exact (Nat.add_le_add_right hline.length_le _).trans h

/-- The answers of the kernel and of the allocator so far that were failures. -/
def failures (k : LSKernel) (ls : LineStream) : ℕ :=
  (List.range ls.fd.asked.length).countP (fun i => (k.read i).isNone) +
    (List.range ls.assured).countP fun i => (k.malloc i).isNone

def commitFailed : LSError := ⟨"write exceeds assured space", .allocFailed⟩

/-- The error of a read that failed or of space that was not found. -/
def Refusal (e : LSError) : Prop :=
  (e.code = .readFailed ∨ e.code = .allocFailed) ∧ e ≠ commitFailed

/-- What a call does for any kernel: it delivers, or it fails and takes nothing. Unless a line
is too long it fails only with the kernel or the allocator. -/
inductive CallEffect (k : LSKernel) (ls : LineStream) : ResultString → LineStream → Prop
  | delivered {r : ResultString} {ls' : LineStream} : Delivered ls.pending r ls' →
      ls'.pending <:+ ls.pending → failures k ls ≤ failures k ls' → CallEffect k ls r ls'
  | refused {e : LSError} {ls' : LineStream} : Refusal e → ls'.pending = ls.pending →
      failures k ls ≤ failures k ls' →
      (Readable ls.pending → failures k ls < failures k ls') → CallEffect k ls (.error e) ls'

theorem failures_assured (k : LSKernel) (ls : LineStream) (rb : ReadBuffer) :
    failures k { ls with readBuffer := rb, assured := ls.assured + 1 } =
      failures k ls + if (k.malloc ls.assured).isNone then 1 else 0 := by
  unfold failures
  rw [List.range_succ, List.countP_append, List.countP_singleton, Nat.add_assoc]

theorem failures_read (k : LSKernel) (ls : LineStream) {file : OpenFile} {count : ℕ}
    (h : file.asked = ls.fd.asked ++ [count]) :
    failures k { ls with fd := file } =
      failures k ls + if (k.read ls.fd.asked.length).isNone then 1 else 0 := by
  unfold failures
  rw [h, List.length_append, List.length_singleton, List.range_succ, List.countP_append,
    List.countP_singleton, Nat.add_right_comm]

theorem failures_round {file : OpenFile} {count : ℕ} (h : file.asked = ls.fd.asked ++ [count])
    (rb : ReadBuffer) : failures k ls ≤ failures k ⟨file, rb, ls.assured + 1⟩ ∧
      (k.read ls.fd.asked.length = none →
        failures k ls < failures k ⟨file, rb, ls.assured + 1⟩) := by
  have hread := failures_read k { ls with readBuffer := rb, assured := ls.assured + 1 } h
  have hassured := failures_assured k ls rb
  dsimp only at hread
  rw [hassured] at hread
  rw [hread]
  constructor
  · omega
  · intro hnone
    rw [hnone, Option.isNone_none, if_pos rfl]
    omega

/-- The view is a part of the pending bytes. -/
theorem Readable.view (h : Readable ls.pending) (hvalid : ls.readBuffer.Valid 64)
    (hnone : newline ∉ ls.readBuffer.view) :
    ls.readBuffer.length + readBufferingSize ≤ 2 ^ 63 := by
  have hview := h ls.readBuffer.view (List.prefix_append _ _).isInfix hnone
  rwa [hvalid.length_view] at hview

/-- No space is found: a line is too long, or the allocator failed. -/
theorem Scanned.assureFailed (h : ls.Scanned scanned) (hnone : newline ∉ ls.readBuffer.view)
    {r : ReadBufferResult} (he : ReadBuffer.AssureEffect 64 ls.readBuffer readBufferingSize
      (k.malloc ls.assured) r ls.readBuffer) (hok : r.ok = false) :
    CallEffect k ls (.error ⟨r.errorMessage, .allocFailed⟩)
      { ls with assured := ls.assured + 1 } := by
  have hfailures := failures_assured k ls ls.readBuffer
  have hle : failures k ls ≤ failures k { ls with assured := ls.assured + 1 } := by
    rw [hfailures]
    exact Nat.le_add_right _ _
  rcases he.failure_cases hok with ⟨rfl, hover⟩ | ⟨rfl, hmalloc⟩
  · refine .refused ⟨.inr rfl, by simp [ReadBufferResult.failure, commitFailed]⟩ rfl hle ?_
    intro hreadable
    exact absurd (hreadable.view h.valid hnone) (Nat.not_le.mpr hover)
  · refine .refused ⟨.inr rfl, by simp [ReadBufferResult.failure, commitFailed]⟩ rfl hle ?_
    intro _
    rw [hfailures, hmalloc, Option.isNone_none, if_pos rfl]
    exact Nat.lt_succ_self _

/-- A round that ends the call. -/
theorem Scanned.call_of_round (h : ls.Scanned scanned) {r : ResultString}
    (he : RoundEffect k ls (.inl (r, ls'))) : CallEffect k ls r ls' := by
  cases he with
  | @line s line rb hnone hview hvalid _ htext =>
    have hpending : ls.pending = line ++ newline :: (rb.view ++ ls.fd.rest) := by
      rw [pending, hview, List.append_assoc, List.cons_append]
    refine .delivered (.line htext ?_) ?_ (Nat.le_refl _)
    · rw [hpending]
      exact linesOn_append_cons hnone _
    · rw [hpending]
      exact (List.suffix_cons _ _).trans (List.suffix_append _ _)
  | assureFailed hnone he hok => exact h.assureFailed hnone he hok
  | @readFailed rb file hnone ha hfail hrest hasked =>
    obtain ⟨hle, hlt⟩ := failures_round (k := k) hasked rb
    refine .refused ⟨.inl rfl, by simp [commitFailed]⟩ ?_ hle fun _ => hlt hfail
    rw [pending, pending, (ha.valid h.valid).2, hrest]
  | @lastLine s rb rb' file hnone hne hend ha hrest hasked hvalid hview _ htext =>
    have hpending : ls.pending = ls.readBuffer.view := by rw [pending, hend, List.append_nil]
    have hempty : pending ⟨file, rb', ls.assured + 1⟩ = [] := by
      rw [pending, hview, hrest, List.append_nil]
    refine .delivered (.line htext ?_) ?_ (failures_round hasked rb').1
    · rw [hempty, hpending, linesOn_nil, linesOn_singleton hnone hne]
    · rw [hempty]
      exact List.nil_suffix
  | @ended rb file hview hend ha hrest hasked =>
    have hpending : ls.pending = [] := by rw [pending, hview, hend, List.append_nil]
    have hempty : pending ⟨file, rb, ls.assured + 1⟩ = [] := by
      rw [pending, (ha.valid h.valid).2, hview, hrest, List.append_nil]
    refine .delivered (.eof hpending hempty) ?_ (failures_round hasked rb).1
    rw [hempty]
    exact List.nil_suffix

/-- Bytes moved from the file to the view are still pending. -/
theorem RoundEffect.continued {n : ℕ} (he : RoundEffect k ls (.inr (ls', n))) :
    ls'.pending = ls.pending ∧ failures k ls ≤ failures k ls' ∧
      ls'.fd.rest.length < ls.fd.rest.length := by
  cases he with
  | filled _ _ _ hne hbytes hasked _ hview =>
    refine ⟨?_, (failures_round hasked _).1, ?_⟩
    · rw [pending, hview, List.append_assoc, hbytes, pending]
    · have hpos := List.length_pos_iff.mpr hne
      rw [← hbytes, List.length_append]
      exact Nat.lt_add_of_pos_left hpos

theorem CallEffect.after {ls₁ : LineStream} {r : ResultString} (h : CallEffect k ls₁ r ls')
    (hpending : ls₁.pending = ls.pending) (hfailures : failures k ls ≤ failures k ls₁) :
    CallEffect k ls r ls' := by
  cases h with
  | delivered hdelivered hsuffix hle =>
    rw [hpending] at hdelivered hsuffix
    exact .delivered hdelivered hsuffix (hfailures.trans hle)
  | refused hrefusal hsame hle hlt =>
    rw [hpending] at hsame hlt
    exact .refused hrefusal hsame (hfailures.trans hle) fun hreadable =>
      Nat.lt_of_le_of_lt hfailures (hlt hreadable)

/-- The loop returns, by induction on the bytes left in the file. Bytes in front of `scanned`
are no newlines; a read leaves them where they are and appends to the view. -/
theorem Scanned.nextLoop_effect {fuel : ℕ} (h : ls.Scanned scanned)
    (hfuel : ls.fd.rest.length < fuel) :
    ∃ r ls', nextLoop k fuel ls scanned = .ok (r, ls') ∧ CallEffect k ls r ls' ∧
      ls'.Scanned 0 := by
  induction fuel generalizing ls scanned with
  | zero => omega
  | succ fuel ih =>
    obtain ⟨o, hround, he⟩ := h.round_effect k
    rw [nextLoop_succ, hround]
    rcases o with ⟨r, ls'⟩ | ⟨ls₁, n⟩
    · exact ⟨r, ls', rfl, h.call_of_round he, h.returned he⟩
    · obtain ⟨hpending, hfailures, hless⟩ := he.continued
      obtain ⟨r, ls', hloop, hcall, h'⟩ := ih (h.continued he) (by omega)
      exact ⟨r, ls', hloop, hcall.after hpending hfailures, h'⟩

theorem Scanned.next_effect (h : ls.Scanned 0) :
    ∃ r ls', ls.next k = .ok (r, ls') ∧ CallEffect k ls r ls' ∧ ls'.Scanned 0 :=
  h.nextLoop_effect (Nat.lt_succ_self _)

theorem Ready.scanned_zero (h : ls.Ready) : ls.Scanned 0 :=
  ⟨h.valid, h.asked, Nat.zero_le _, by simp⟩

theorem Obliging.failures_eq (hk : Obliging k) (ls : LineStream) : failures k ls = 0 := by
  have hread : ∀ i, (k.read i).isNone = false := fun i => by
    simpa using Option.ne_none_iff_isSome.mp (hk.read i)
  have hmalloc : ∀ i, (k.malloc i).isNone = false := fun i => by
    simpa using Option.ne_none_iff_isSome.mp (hk.malloc i)
  simp [failures, hread, hmalloc]

/-- Where reads and allocations succeed, the search of a view in vain reads more of the file. -/
theorem Ready.round_filled (hk : Obliging k) (h : ls.Ready) (hnone : newline ∉ ls.readBuffer.view)
    (hrest : ls.fd.rest ≠ []) :
    ∃ rb rb' bytes file,
      nextRound k ls 0 = .ok (.inr (⟨file, rb', ls.assured + 1⟩, ls.readBuffer.length)) ∧
        Assured k ls rb ∧ ls.fd.read k (rb.getWriteCursorLimit 64) = (some bytes, file) ∧
        rb'.view = ls.readBuffer.view ++ bytes ∧ rb'.Valid 64 := by
  obtain ⟨o, hround, he⟩ := h.scanned_zero.round_effect k
  cases he with
  | line _ hview => exact absurd (by rw [hview]; simp) hnone
  | assureFailed _ he hok =>
    rcases he.failure_cases hok with ⟨-, hover⟩ | ⟨-, hmalloc⟩
    · exact absurd (h.readable.view h.valid hnone) (Nat.not_le.mpr hover)
    · exact absurd hmalloc (hk.malloc _)
  | readFailed _ _ hfail => exact absurd hfail (hk.read _)
  | lastLine _ _ hend => exact absurd hend hrest
  | ended _ hend => exact absurd hend hrest
  | filled _ ha hread _ _ _ hvalid hview => exact ⟨_, _, _, _, hround, ha, hread, hview, hvalid⟩

/-- One call takes the first line off the pending bytes. -/
theorem Ready.next_spec (hk : Obliging k) (h : ls.Ready) :
    ∃ r ls', ls.next k = .ok (r, ls') ∧ Delivered ls.pending r ls' ∧ ls'.Ready := by
  obtain ⟨r, ls', hnext, hcall, h'⟩ := h.scanned_zero.next_effect (k := k)
  cases hcall with
  | delivered hdelivered hsuffix =>
    exact ⟨r, ls', hnext, hdelivered, h'.valid, h.readable.of_suffix hsuffix, h'.asked⟩
  | refused _ _ _ hlt =>
    have hless := hlt h.readable
    rw [hk.failures_eq, hk.failures_eq] at hless
    exact absurd hless (Nat.lt_irrefl 0)

/-- The results of the calls made on `pending`: its lines in order, and behind the last one
the end of the file over and over. -/
def expected (pending : Bytes) (i : ℕ) : Except LSError Bytes :=
  match (linesOn newline pending)[i]? with
  | some line => .ok line
  | none => .error endOfFile

/-- The results expected behind the first one. -/
theorem Delivered.map_expected {pending : Bytes} {r : ResultString}
    (h : Delivered pending r ls) (n : ℕ) :
    (List.range (n + 1)).map (expected pending) =
      expected pending 0 :: (List.range n).map (expected ls.pending) := by
  have htail : expected pending ∘ Nat.succ = expected ls.pending := by
    funext i
    cases h with
    | line _ hlines =>
      rw [Function.comp_apply, expected, hlines]
      rfl
    | eof hpending hpending' =>
      rw [Function.comp_apply, expected, expected, hpending, hpending', linesOn_nil]
      rfl
  rw [List.range_succ_eq_map, List.map_cons, List.map_map, htail]

theorem Delivered.nextAll_succ {r : ResultString} {ls₁ : LineStream}
    {lines : List (Except LSError Bytes)} {n : ℕ} (h : Delivered ls.pending r ls₁)
    (hnext : ls.next k = .ok (r, ls₁)) (hrest : nextAll k n ls₁ = .ok (lines, ls')) :
    nextAll k (n + 1) ls = .ok (expected ls.pending 0 :: lines, ls') := by
  rw [nextAll, hnext]
  cases h with
  | @line s line _ htext hlines =>
    have hhead : expected ls.pending 0 = .ok line := by rw [expected, hlines]; rfl
    rw [hhead]
    simp only [bind, Except.bind, htext, Functor.map, Except.map, hrest]
  | eof hpending =>
    have hhead : expected ls.pending 0 = .error endOfFile := by rw [expected, hpending]; rfl
    rw [hhead]
    simp only [bind, Except.bind, hrest]

theorem Ready.nextAll_spec (hk : Obliging k) (h : ls.Ready) (n : ℕ) :
    ∃ ls', nextAll k n ls = .ok ((List.range n).map (expected ls.pending), ls') ∧ ls'.Ready := by
  induction n generalizing ls with
  | zero => exact ⟨ls, rfl, h⟩
  | succ n ih =>
    obtain ⟨r, ls₁, hnext, hdelivered, h₁⟩ := h.next_spec hk
    obtain ⟨ls₂, hrest, h₂⟩ := ih h₁
    refine ⟨ls₂, ?_, h₂⟩
    rw [hdelivered.map_expected]
    exact hdelivered.nextAll_succ hnext hrest

theorem scanned_create {pageSize : ℕ} {alloc calloc : Bool} {malloc : Malloc}
    (hpage : pageSize < 2 ^ 64)
    (hls : create ⟨content, []⟩ pageSize alloc calloc malloc = .ok ls) :
    ls.Scanned 0 ∧ ls.pending = content := by
  unfold create at hls
  split_ifs at hls with halloc
  split at hls
  · cases hls
  · next rb hinit =>
    obtain rfl := Except.ok.inj hls
    obtain ⟨hvalid, hview⟩ := ReadBuffer.valid_init hpage hinit
    exact ⟨⟨hvalid, nofun, Nat.zero_le _, by simp⟩, by rw [pending, hview, List.nil_append]⟩

theorem ready_create {pageSize : ℕ} {alloc calloc : Bool} {malloc : Malloc}
    (hpage : pageSize < 2 ^ 64) (hcontent : Readable content)
    (hls : create ⟨content, []⟩ pageSize alloc calloc malloc = .ok ls) :
    ls.Ready ∧ ls.pending = content := by
  obtain ⟨h, hpending⟩ := scanned_create hpage hls
  exact ⟨⟨h.valid, hpending.symm ▸ hcontent, h.asked⟩, hpending⟩

/-- The strings are the lines of the file in order, with its last line if no newline ends it,
and behind them every call reports the end of the file, for every way the reads cut it. -/
theorem next_returns_lines {pageSize : ℕ} {alloc calloc : Bool} {malloc : Malloc}
    (hk : Obliging k) (hpage : pageSize < 2 ^ 64) (hcontent : Readable content)
    (hls : create ⟨content, []⟩ pageSize alloc calloc malloc = .ok ls) (n : ℕ) :
    ∃ ls', nextAll k n ls = .ok ((List.range n).map (expected content), ls') ∧
      ∀ count ∈ ls'.fd.asked, 0 < count := by
  obtain ⟨h, hpending⟩ := ready_create hpage hcontent hls
  obtain ⟨ls', hall, h'⟩ := h.nextAll_spec hk n
  rw [hpending] at hall
  exact ⟨ls', hall, h'.asked⟩

/-- Three lines, an empty one among them, of a file that is read byte by byte. -/
theorem next_returns_lines_three :
    ∃ ls ls' : LineStream, create ⟨[97, 10, 10, 98], []⟩ 2 true true (some fun _ => 0) = .ok ls ∧
      nextAll ⟨fun _ => some 1, fun _ => some fun _ => 0, ""⟩ 5 ls =
        .ok ([.ok [97], .ok [], .ok [98], .error endOfFile, .error endOfFile], ls') ∧
      ∀ count ∈ ls'.fd.asked, 0 < count := by
  have hk : Obliging ⟨fun _ => some 1, fun _ => some fun _ => 0, ""⟩ := ⟨by simp, by simp⟩
  have hcontent : Readable [97, 10, 10, 98] := readable_of_length_le (by decide)
  obtain ⟨ls', hall, hasked⟩ := next_returns_lines hk (show 2 < 2 ^ 64 by decide) hcontent
    (show create _ 2 true true (some fun _ => 0) = .ok _ from rfl) 5
  exact ⟨_, ls', rfl, hall, hasked⟩

end SysExploration.LineStream
