import SysExploration.Library.Runs
import SysExploration.Commons.LineRounds
import SysExploration.Search.WholeFile

/-! The two searches of a whole file print the same. What is left to search is the chunk and
behind it the rest of the file; a round that finds nothing keeps the last bytes of the chunk,
in which an occurrence may still begin. -/
namespace SysExploration.Fgrep

variable {k : LSKernel} {pattern : CString} {content text rest : Bytes} {s t : ReadSearch}

/-- One copy of the pattern for each occurrence that does not overlap the one before. -/
def matchLines (pattern content : Bytes) : Bytes :=
  (occurrences pattern content).flatMap fun _ => pattern ++ [newline]

example : matchLines [97, 97] [97, 97, 97, 98, 97, 97] = [97, 97, 10, 97, 97, 10] := by decide

theorem matchLines_from (i : ℕ) (pattern content : Bytes) :
    ((occurrencesFrom pattern i 0 content).flatMap fun _ => pattern ++ [newline]) =
      matchLines pattern content := by
  rw [matchLines, occurrences, ← Nat.zero_add i, occurrencesFrom_add, List.flatMap_map]

theorem matchLines_found {p l : Bytes} {j : ℕ} (hp : p ≠ []) (h : firstOccurrence p l = some j) :
    matchLines p l = p ++ [newline] ++ matchLines p (l.drop (j + p.length)) := by
  rw [matchLines, occurrences, occurrencesFrom_of_first hp h, List.flatMap_cons, matchLines_from]

theorem matchLines_not_found {p : Bytes} (h : firstOccurrence p text = none) {d : ℕ}
    (hd : d + p.length ≤ text.length + 1) :
    matchLines p (text ++ rest) = matchLines p ((text ++ rest).drop d) := by
  rw [matchLines, occurrences,
    occurrencesFrom_drop (firstOccurrence_eq_none_iff.mp h) hd, matchLines_from]

theorem matchLines_eq_nil {p l : Bytes} (h : ¬ p <:+: l) : matchLines p l = [] := by
  rw [matchLines, occurrences, occurrencesFrom_eq_nil h]
  rfl

theorem matchLines_of_short {p l : Bytes} (h : l.length < p.length) : matchLines p l = [] :=
  matchLines_eq_nil fun hinfix => absurd hinfix.length_le (Nat.not_le.mpr h)

/-- A search of a part of a block for a pattern that is not empty. -/
theorem searchBlock_eq (hpos : pattern.bytes ≠ []) {b : Bytes} {i n : ℕ} (hn : i + n ≤ b.length) :
    searchBlock pattern pattern.bytes.length b ⟨.block, i⟩ n =
      .ok ((firstOccurrence pattern.bytes (slice b i n)).map fun j => ⟨.block, i + j⟩) := by
  unfold searchBlock
  simp only [List.take_length]
  rw [if_neg hpos, Pointer.load]
  dsimp only [loadBytes]
  rw [if_pos hn]
  rfl

/-- What is found in a part of a block is printed. -/
theorem printMatch_eq {p b : Bytes} (hpos : p ≠ []) {i n j : ℕ} (hn : i + n ≤ b.length)
    (hj : firstOccurrence p (slice b i n) = some j) (stdout : Bytes) :
    j + p.length ≤ n ∧
      printMatch b ⟨.block, i + j⟩ p.length stdout = .ok (stdout ++ p ++ [newline]) := by
  have hstart := firstOccurrence_spec hj
  have hlength := hstart.length_le
  have hpositive := List.length_pos_iff.mpr hpos
  rw [List.length_drop, length_slice hn] at hlength
  have hj : j + p.length ≤ n := by omega
  have htext : slice b (i + j) p.length = p := by
    rw [← slice_slice hj, slice, ← List.prefix_iff_eq_take.mp hstart]
  refine ⟨hj, ?_⟩
  rw [printMatch, Pointer.load]
  dsimp only [loadBytes]
  rw [if_pos (by omega), htext]
  rfl

/-- The bytes not searched yet. -/
def ReadSearch.pending (s : ReadSearch) : Bytes :=
  slice s.buf s.chunk.cursor.index s.chunk.len ++ s.fd.rest

/-- The search in the middle of a file. -/
structure Searching (pattern content : Bytes) (s : ReadSearch) : Prop where
  block : s.buf.length = bufLen
  fits : s.chunk.cursor.index + s.chunk.len ≤ bufLen
  null : s.chunk.cursor.object = .null → s.chunk = ⟨.null, 0⟩
  output : s.stdout ++ matchLines pattern s.pending = matchLines pattern content

theorem searching_init (pattern content : Bytes) :
    Searching pattern content (.init ⟨content, []⟩) := by
  have hpending : ReadSearch.pending (.init ⟨content, []⟩) = content := by
    rw [ReadSearch.pending, ReadSearch.init, slice_zero, List.nil_append]
  refine ⟨?_, Nat.zero_le _, fun _ => rfl, ?_⟩
  · rw [ReadSearch.init, length_block]
  · rw [hpending, ReadSearch.init, List.nil_append]

/-- The chunk of a search that is not at its beginning is in the block. -/
theorem Searching.cursor (h : Searching pattern.bytes content s) (hlen : 0 < s.chunk.len) :
    s.chunk.cursor = ⟨.block, s.chunk.cursor.index⟩ := by
  have hnull := h.null
  rcases hcursor : s.chunk.cursor with ⟨object, index⟩
  cases object with
  | null =>
    rw [hnull (by rw [hcursor])] at hlen
    exact absurd hlen (Nat.lt_irrefl 0)
  | block => rfl

/-- The search behind the first `d` bytes of the chunk. -/
def ReadSearch.behind (s : ReadSearch) (d : ℕ) (stdout : Bytes) : ReadSearch :=
  { s with chunk := ⟨⟨.block, s.chunk.cursor.index + d⟩, s.chunk.len - d⟩, stdout := stdout }

/-- A cursor inside the chunk leaves the end of the chunk where it is. -/
theorem advance_eq {chunk : RunningBuffer} (hfits : chunk.cursor.index + chunk.len ≤ bufLen)
    {d : ℕ} (hd : d ≤ chunk.len) :
    chunk.advance ⟨.block, chunk.cursor.index + d⟩ =
      ⟨⟨.block, chunk.cursor.index + d⟩, chunk.len - d⟩ := by
  have hbound : bufLen < 2 ^ 64 := by decide
  rw [RunningBuffer.advance, toSize, toWord_sub (by dsimp only; omega) (by omega),
    Nat.add_sub_add_left]

theorem Searching.behind (h : Searching pattern.bytes content s) {d : ℕ} (hd : d ≤ s.chunk.len)
    {stdout : Bytes} (hout : stdout ++ matchLines pattern.bytes (s.pending.drop d) =
      matchLines pattern.bytes content) :
    Searching pattern.bytes content (s.behind d stdout) := by
  have hfits := h.fits
  refine ⟨h.block, ?_, nofun, ?_⟩
  · dsimp only [ReadSearch.behind]
    omega
  · have hpending : (s.behind d stdout).pending = s.pending.drop d := by
      rw [ReadSearch.pending, ReadSearch.pending, ReadSearch.behind, List.drop_append_of_le_length,
        drop_slice]
      rw [length_slice (h.block ▸ hfits)]
      exact hd
    rw [hpending]
    exact hout

/-- The chunk is searched: it shrinks at its front, and what is printed in the end is the same. -/
theorem Searching.searchChunk_eq (hpos : pattern.bytes ≠ [])
    (h : Searching pattern.bytes content s) (hlen : pattern.bytes.length ≤ s.chunk.len) :
    ∃ d stdout, 0 < d ∧ d ≤ s.chunk.len ∧
      searchChunk pattern pattern.bytes.length s = .ok (s.behind d stdout) ∧
      stdout ++ matchLines pattern.bytes (s.pending.drop d) =
        matchLines pattern.bytes content := by
  have hpositive := List.length_pos_iff.mpr hpos
  have hcursor := h.cursor (Nat.lt_of_lt_of_le hpositive hlen)
  have hfits : s.chunk.cursor.index + s.chunk.len ≤ s.buf.length := h.block ▸ h.fits
  have hsearch := searchBlock_eq hpos hfits
  rw [← hcursor] at hsearch
  unfold searchChunk
  rw [hsearch]
  cases hj : firstOccurrence pattern.bytes
      (slice s.buf s.chunk.cursor.index s.chunk.len) with
  | some j =>
    obtain ⟨hroom, hprint⟩ := printMatch_eq hpos hfits hj s.stdout
    refine ⟨j + pattern.bytes.length, s.stdout ++ pattern.bytes ++ [newline], by omega, hroom,
      ?_, ?_⟩
    · have hadvance := advance_eq h.fits hroom
      have hnewCursor : Pointer.add ⟨.block, s.chunk.cursor.index + j⟩ pattern.bytes.length =
          ⟨.block, s.chunk.cursor.index + (j + pattern.bytes.length)⟩ := by
        rw [Pointer.add, Nat.add_assoc]
      simp only [Option.map_some, bind, Except.bind, hprint, hnewCursor, hadvance,
        ReadSearch.behind]
    · rw [← h.output, ReadSearch.pending,
        matchLines_found hpos (firstOccurrence_append hj s.fd.rest)]
      simp only [List.append_assoc]
  | none =>
    have htext : (slice s.buf s.chunk.cursor.index s.chunk.len).length = s.chunk.len :=
      length_slice hfits
    refine ⟨s.chunk.len - pattern.bytes.length + 1, s.stdout, by omega, by omega, ?_, ?_⟩
    · have hadvance := advance_eq (d := s.chunk.len - pattern.bytes.length + 1) h.fits (by omega)
      have hnewCursor : s.chunk.cursor.add (s.chunk.len - pattern.bytes.length + 1) =
          ⟨.block, s.chunk.cursor.index + (s.chunk.len - pattern.bytes.length + 1)⟩ := by
        rw [hcursor, Pointer.add]
      simp only [Option.map_none, bind, Except.bind, hnewCursor, hadvance, ReadSearch.behind]
    · rw [← h.output, ReadSearch.pending]
      exact congrArg _ (matchLines_not_found hj (by omega)).symm

theorem Searching.load_eq (h : Searching pattern.bytes content s) :
    s.chunk.cursor.load s.buf s.chunk.len =
      .ok (slice s.buf s.chunk.cursor.index s.chunk.len) := by
  by_cases hlen : 0 < s.chunk.len
  · rw [h.cursor hlen, Pointer.load]
    exact if_pos (h.block ▸ h.fits)
  · have hempty : s.chunk.len = 0 := Nat.eq_zero_of_not_pos hlen
    have hfits : s.chunk.cursor.index + 0 ≤ s.buf.length := hempty ▸ h.block ▸ h.fits
    rw [hempty, slice_zero, Pointer.load]
    cases s.chunk.cursor.object with
    | null => rfl
    | block =>
      dsimp only [loadBytes]
      rw [if_pos hfits, slice_zero]

/-- Bytes moved to the front of a block and bytes stored behind them. -/
theorem slice_stored {b backlog bytes : Bytes}
    (hroom : backlog.length + bytes.length ≤ b.length) :
    slice (overwrite (overwrite b 0 backlog) backlog.length bytes) 0
      (backlog.length + bytes.length) = backlog ++ bytes := by
  have hmoved : (overwrite b 0 backlog).length = b.length := length_overwrite (by omega)
  have hback : slice (overwrite b 0 backlog) 0 backlog.length = backlog :=
    slice_overwrite (Nat.zero_le _)
  rw [slice_add, Nat.zero_add, slice_overwrite_before (by omega) (by omega), hback,
    slice_overwrite (by omega)]

/-- The rest of the chunk is moved to the front and what is read stands behind it, or the file
is at its end and the rest is too short for the pattern. -/
theorem Searching.refillChunk_eq (hlen : pattern.bytes.length ≤ 1023)
    (hk : ∀ i, k.read i ≠ none) (h : Searching pattern.bytes content s)
    (hshort : s.chunk.len < pattern.bytes.length) :
    refillChunk k s = .ok (.inl ⟨matchLines pattern.bytes content, "", false⟩) ∨
      ∃ t, refillChunk k s = .ok (.inr t) ∧ Searching pattern.bytes content t ∧
        t.fd.rest.length < s.fd.rest.length ∧
        t.chunk.len + t.fd.rest.length = s.chunk.len + s.fd.rest.length := by
  have hblock : s.buf.length = bytesToRead + 1024 := h.block
  have hbytes : bytesToRead + 1024 < 2 ^ 63 := by decide
  have hfits : s.chunk.cursor.index + s.chunk.len ≤ s.buf.length := h.block ▸ h.fits
  have hback := length_slice hfits
  have houtput := h.output
  rw [ReadSearch.pending] at houtput
  unfold refillChunk
  rw [h.load_eq]
  generalize slice s.buf s.chunk.cursor.index s.chunk.len = backlog at hback houtput
  have hmove : storeBlock s.buf 0 backlog = .ok (overwrite s.buf 0 backlog) :=
    if_pos (by omega)
  have hmoved : (overwrite s.buf 0 backlog).length = s.buf.length := length_overwrite (by omega)
  rcases LineStream.read_cases k s.fd (show 0 < bytesToRead by decide) with
    ⟨hfail, -⟩ | ⟨bytes, file, hread, hrest, -, hcount, hend⟩
  · exact absurd hfail (hk _)
  · simp only [bind, Except.bind, hmove, hread]
    cases bytes with
    | nil =>
      left
      rw [hend rfl, List.append_nil, matchLines_of_short (by omega), List.append_nil] at houtput
      simp only [houtput]
    | cons a bytes =>
      right
      have hroom : backlog.length + (a :: bytes).length ≤ s.buf.length := by omega
      have hstore : storeBlock (overwrite s.buf 0 backlog) s.chunk.len (a :: bytes) =
          .ok (overwrite (overwrite s.buf 0 backlog) s.chunk.len (a :: bytes)) :=
        if_pos (by omega)
      have hlength : toSize ((s.chunk.len + (a :: bytes).length : ℕ) : ℤ) =
          s.chunk.len + (a :: bytes).length := toSize_of_lt (by omega)
      have hstored : (overwrite (overwrite s.buf 0 backlog) s.chunk.len (a :: bytes)).length =
          (overwrite s.buf 0 backlog).length := length_overwrite (by omega)
      have hless : file.rest.length + (a :: bytes).length = s.fd.rest.length := by
        rw [← hrest, List.length_append, Nat.add_comm]
      simp only [hstore, hlength]
      refine ⟨_, rfl, ⟨?_, ?_, nofun, ?_⟩, ?_, ?_⟩
      · exact hstored.trans (hmoved.trans h.block)
      · have hsize := h.block
        dsimp only
        omega
      · rw [ReadSearch.pending, ← hback, slice_stored hroom, List.append_assoc, hrest]
        exact houtput
      · rw [List.length_cons] at hless
        dsimp only
        omega
      · dsimp only
        omega

/-- A round that goes on moves the cursor in the chunk, or it reads and leaves none behind. -/
theorem Searching.round (hpos : pattern.bytes ≠ []) (hlen : pattern.bytes.length ≤ 1023)
    (hk : ∀ i, k.read i ≠ none) (h : Searching pattern.bytes content s) :
    readRound k pattern pattern.bytes.length s =
        .ok (.inl ⟨matchLines pattern.bytes content, "", false⟩) ∨
      ∃ t, readRound k pattern pattern.bytes.length s = .ok (.inr t) ∧
        Searching pattern.bytes content t ∧
        2 * t.fd.rest.length + t.chunk.len < 2 * s.fd.rest.length + s.chunk.len ∧
        (pattern.bytes.length ≤ s.chunk.len →
          t.chunk.cursor.index + t.chunk.len = s.chunk.cursor.index + s.chunk.len) := by
  unfold readRound
  by_cases hchunk : pattern.bytes.length ≤ s.chunk.len
  · obtain ⟨d, stdout, hd, hle, hsearch, hout⟩ := h.searchChunk_eq hpos hchunk
    right
    refine ⟨s.behind d stdout, ?_, h.behind hle hout, ?_, fun _ => ?_⟩
    · rw [if_pos hchunk, hsearch]
      rfl
    · dsimp only [ReadSearch.behind]
      omega
    · dsimp only [ReadSearch.behind]
      omega
  · rw [if_neg hchunk]
    rcases h.refillChunk_eq hlen hk (Nat.not_le.mp hchunk) with hend | ⟨t, hnext, ht, hless, hsum⟩
    · exact .inl hend
    · exact .inr ⟨t, hnext, ht, by omega, fun hle => absurd hle hchunk⟩

theorem searching_progress (hpos : pattern.bytes ≠ []) (hlen : pattern.bytes.length ≤ 1023)
    (hk : ∀ i, k.read i ≠ none) (content : Bytes) :
    Progress (readRound k pattern pattern.bytes.length) (Searching pattern.bytes content)
      (· = ⟨matchLines pattern.bytes content, "", false⟩)
      fun s => 2 * s.fd.rest.length + s.chunk.len := by
  intro s h
  rcases h.round hpos hlen hk with hend | ⟨t, hnext, ht, hless, -⟩
  · exact .inl ⟨_, hend, rfl⟩
  · exact .inr ⟨t, hnext, ht, hless⟩

theorem strnlen_eq (hlen : pattern.bytes.length ≤ 1023) :
    strnlen pattern (1 * kib) = pattern.bytes.length :=
  Nat.min_eq_left (hlen.trans (by decide))

theorem readAndSearch_eq (hpos : pattern.bytes ≠ []) (hlen : pattern.bytes.length ≤ 1023)
    (hk : ∀ i, k.read i ≠ none) (content : Bytes) (garbage : ℕ → UInt8) :
    readAndSearch k ⟨content, []⟩ pattern (some garbage) =
      .ok ⟨matchLines pattern.bytes content, "", false⟩ := by
  obtain ⟨out, hloop, rfl⟩ := (searching_progress hpos hlen hk content).loop Fault.endless
    (searching_init pattern.bytes content) (Nat.lt_succ_self _)
  unfold readAndSearch
  rw [strnlen_eq hlen]
  exact (if_neg (Nat.not_lt.mpr hlen)).trans hloop

/-- The search of a mapping in the middle of the file. -/
structure Mapped (pattern file : Bytes) (s : MmapSearch) : Prop where
  fits : s.cursor + s.remaining = file.length
  output : s.stdout ++ matchLines pattern (file.drop s.cursor) = matchLines pattern file

theorem Mapped.round {s : MmapSearch} (hpos : pattern.bytes ≠ []) (hsize : content.length < 2 ^ 63)
    (h : Mapped pattern.bytes content s) :
    mmapRound pattern pattern.bytes.length content s =
        .ok (.inl ⟨matchLines pattern.bytes content, "", false⟩) ∨
      ∃ t, mmapRound pattern pattern.bytes.length content s = .ok (.inr t) ∧
        Mapped pattern.bytes content t ∧ t.remaining < s.remaining := by
  have hpositive := List.length_pos_iff.mpr hpos
  have hfits := h.fits
  have htext : slice content s.cursor s.remaining = content.drop s.cursor :=
    List.take_of_length_le (by rw [List.length_drop]; omega)
  have houtput := h.output
  unfold mmapRound
  by_cases hlong : pattern.bytes.length ≤ s.remaining
  · rw [if_pos hlong, searchBlock_eq hpos hfits.le]
    cases hj : firstOccurrence pattern.bytes (slice content s.cursor s.remaining) with
    | some j =>
      obtain ⟨hroom, hprint⟩ := printMatch_eq hpos hfits.le hj s.stdout
      have hconsumed : toSize (((s.cursor + j : ℕ) : ℤ) - s.cursor + pattern.bytes.length) =
          j + pattern.bytes.length := by
        have hsum : ((s.cursor + j : ℕ) : ℤ) - s.cursor + pattern.bytes.length =
            (j + pattern.bytes.length : ℕ) := by omega
        rw [hsum]
        exact toSize_of_lt (by omega)
      have hremaining : toSize ((s.remaining : ℤ) - (j + pattern.bytes.length : ℕ)) =
          s.remaining - (j + pattern.bytes.length) := toWord_sub hroom (by omega)
      right
      refine ⟨⟨s.cursor + (j + pattern.bytes.length), s.remaining - (j + pattern.bytes.length),
        s.stdout ++ pattern.bytes ++ [newline]⟩, ?_, ⟨?_, ?_⟩, ?_⟩
      · simp only [Option.map_some, bind, Except.bind, hprint, hconsumed, hremaining]
      · dsimp only
        omega
      · rw [htext] at hj
        rw [← houtput, matchLines_found hpos hj, List.drop_drop]
        simp only [List.append_assoc]
      · dsimp only
        omega
    | none =>
      rw [htext] at hj
      rw [matchLines_eq_nil (firstOccurrence_eq_none_iff.mp hj), List.append_nil] at houtput
      left
      rw [← houtput]
      rfl
  · left
    rw [matchLines_of_short (by rw [List.length_drop]; omega), List.append_nil] at houtput
    rw [if_neg hlong, houtput]

theorem mapped_progress (hpos : pattern.bytes ≠ []) (hsize : content.length < 2 ^ 63) :
    Progress (mmapRound pattern pattern.bytes.length content) (Mapped pattern.bytes content)
      (· = ⟨matchLines pattern.bytes content, "", false⟩) MmapSearch.remaining := by
  intro s h
  rcases h.round hpos hsize with hend | ⟨t, hnext, ht, hless⟩
  · exact .inl ⟨_, hend, rfl⟩
  · exact .inr ⟨t, hnext, ht, hless⟩

theorem mapped_init (pattern file : Bytes) : Mapped pattern file ⟨0, file.length, []⟩ :=
  ⟨Nat.zero_add _, rfl⟩

theorem readAndSearchMmap_eq (hpos : pattern.bytes ≠ []) (hlen : pattern.bytes.length ≤ 1023)
    (hsize : content.length < 2 ^ 63) (strerror : String) :
    readAndSearchMmap strerror content pattern true true =
      .ok ⟨matchLines pattern.bytes content, "", false⟩ := by
  unfold readAndSearchMmap
  rw [strnlen_eq hlen]
  refine (if_neg (Nat.not_lt.mpr hlen)).trans ?_
  by_cases hempty : content.length = 0
  · have hshort : content.length < pattern.bytes.length :=
      hempty ▸ List.length_pos_iff.mpr hpos
    rw [matchLines_of_short hshort]
    exact if_pos hempty
  · obtain ⟨out, hloop, rfl⟩ := (mapped_progress hpos hsize).loop Fault.endless
      (mapped_init pattern.bytes content) (Nat.lt_succ_self _)
    exact (if_neg hempty).trans hloop

/-- The rounds of `read_and_search`. -/
def Refills (k : LSKernel) (pattern : CString) (s : ReadSearch) (_ : Unit) (t : ReadSearch) :
    Prop := readRound k pattern pattern.bytes.length s = .ok (.inr t)

/-- The chunk is in the block, or it is empty and nothing was read yet. -/
def ReadSearch.InBlock (s : ReadSearch) : Prop :=
  s.chunk = ⟨.null, 0⟩ ∨
    s.chunk.cursor.object = .block ∧ s.chunk.cursor.index + s.chunk.len ≤ s.buf.length

/-- The chunk is in the block, there is room for a read where the chunk is shorter than the
pattern, and a search leaves the end of the chunk where it is. -/
structure Confined (k : LSKernel) (pattern : CString) (s : ReadSearch) : Prop where
  block : s.buf.length = bufLen
  inside : s.InBlock
  room : s.chunk.len < pattern.bytes.length → s.chunk.len + bytesToRead ≤ s.buf.length
  exact : ∀ t, pattern.bytes.length ≤ s.chunk.len → Refills k pattern s () t →
    t.chunk.cursor.index + t.chunk.len = s.chunk.cursor.index + s.chunk.len

theorem Searching.inBlock (h : Searching pattern.bytes content s) : s.InBlock := by
  by_cases hcursor : s.chunk.cursor.object = .null
  · exact .inl (h.null hcursor)
  · right
    refine ⟨?_, h.block ▸ h.fits⟩
    cases hobject : s.chunk.cursor.object with
    | null => exact absurd hobject hcursor
    | block => rfl

theorem Searching.confined (hpos : pattern.bytes ≠ []) (hlen : pattern.bytes.length ≤ 1023)
    (hk : ∀ i, k.read i ≠ none) (h : Searching pattern.bytes content s) :
    Confined k pattern s := by
  have hblock := h.block
  have hsize : bufLen = bytesToRead + 1024 := rfl
  refine ⟨hblock, h.inBlock, fun hshort => by omega, ?_⟩
  intro t hchunk hstep
  rcases h.round hpos hlen hk with hend | ⟨t', hnext, -, -, hexact⟩
  · cases hend.symm.trans hstep
  · obtain rfl := Sum.inr.inj (Except.ok.inj (hnext.symm.trans hstep))
    exact hexact hchunk

/-- Both searches print one copy of the pattern for each occurrence in the file, for every way
the reads cut the file, and the refilled block is never left. -/
theorem read_and_search_eq_mmap (pattern : CString) (content : Bytes)
    (hpos : pattern.bytes ≠ []) (hlen : pattern.bytes.length ≤ 1023)
    (hk : ∀ i, k.read i ≠ none) (hsize : content.length < 2 ^ 63) (garbage : ℕ → UInt8)
    (strerror : String) :
    readAndSearch k ⟨content, []⟩ pattern (some garbage) =
        .ok ⟨matchLines pattern.bytes content, "", false⟩ ∧
      readAndSearchMmap strerror content pattern true true =
        .ok ⟨matchLines pattern.bytes content, "", false⟩ ∧
      ∀ rounds s, Run (Refills k pattern) (.init ⟨content, []⟩) rounds s →
        Confined k pattern s := by
  refine ⟨readAndSearch_eq hpos hlen hk content garbage,
    readAndSearchMmap_eq hpos hlen hsize strerror, ?_⟩
  intro rounds s hrun
  have h : Searching pattern.bytes content s := by
    apply hrun.invariant (searching_init pattern.bytes content)
    intro s _ t h hstep
    rcases h.round hpos hlen hk with hend | ⟨t', hnext, ht, -, -⟩
    · cases hend.symm.trans hstep
    · obtain rfl := Sum.inr.inj (Except.ok.inj (hnext.symm.trans hstep))
      exact ht
  exact h.confined hpos hlen hk

/-- An occurrence of two bytes that are read one by one. -/
theorem read_and_search_eq_mmap_two :
    readAndSearch ⟨fun _ => some 1, fun _ => some fun _ => 0, ""⟩ ⟨[97, 98, 97, 98], []⟩
        ⟨[98, 97], by decide⟩ (some fun _ => 7) = .ok ⟨[98, 97, 10], "", false⟩ ∧
      readAndSearchMmap "" [97, 98, 97, 98] ⟨[98, 97], by decide⟩ true true =
        .ok ⟨[98, 97, 10], "", false⟩ := by
  have hread : ∀ i, LSKernel.read ⟨fun _ => some 1, fun _ => some fun _ => 0, ""⟩ i ≠ none := by
    simp
  obtain ⟨hchunks, hmapping, -⟩ := read_and_search_eq_mmap ⟨[98, 97], by decide⟩
    [97, 98, 97, 98] (by decide) (by decide) hread (by decide) (fun _ => 7) ""
  exact ⟨hchunks, hmapping⟩

end SysExploration.Fgrep
