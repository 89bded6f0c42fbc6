import SysExploration.Search.ChunkSearch
import SysExploration.Search.StreamSearch

/-! When the loops of the three searches end with the cursor inside the data. -/
namespace SysExploration.Fgrep
open LineStream

variable {k : LSKernel} {pattern : CString} {content line : Bytes} {ls ls' : LineStream}
  {s : LSString} {off : ℕ}

/-- The cursor in the inner `while` of `stream_line_and_search`. -/
def lineRound (pattern : CString) (patternLen : ℕ) (ls : LineStream) (line : LSString) (off : ℕ) :
    Except Fault (Unit ⊕ ℕ) :=
  if off < line.size then do
    match ← patternSearch pattern patternLen ls line off line.size with
    | some i => do
      let found := off + i
      let _ ← ls.load line found patternLen
      .ok (.inr (found + patternLen))
    | none => .ok (.inr line.size)
  else .ok (.inl ())

/-- The inner loop, apart from what it prints. -/
theorem searchLine_eq_loop (pattern : CString) (patternLen : ℕ) (ls : LineStream) (line : LSString)
    (lineno fuel off : ℕ) :
    (searchLine pattern patternLen ls line lineno fuel off).map (fun _ => ()) =
      loop .endless (lineRound pattern patternLen ls line) fuel off := by
  induction fuel generalizing off with
  | zero => rfl
  | succ fuel ih =>
    rw [searchLine, loop, lineRound]
    by_cases hlt : off < line.size
    · rw [if_pos hlt, if_pos hlt]
      cases patternSearch pattern patternLen ls line off line.size with
      | error fault => rfl
      | ok found =>
        cases found with
        | none => exact ih line.size
        | some i =>
          simp only [bind, Except.bind]
          cases ls.load line (off + i) patternLen with
          | error fault => rfl
          | ok text =>
            have hrest := ih (off + i + patternLen)
            simp only [Sum.elim_inr]
            rw [← hrest]
            cases searchLine pattern patternLen ls line lineno fuel (off + i + patternLen) <;> rfl
    · rw [if_neg hlt, if_neg hlt]
      rfl

/-- A loop that ends makes the search return, given enough fuel. -/
theorem searchLine_returns {patternLen lineno : ℕ} {good : ℕ → Prop}
    (h : Halts (lineRound pattern patternLen ls s) good off ()) :
    ∃ n, ∀ fuel, n < fuel → ∃ out, searchLine pattern patternLen ls s lineno fuel off = .ok out := by
  obtain ⟨n, hn⟩ := h.exists_fuel .endless
  refine ⟨n, fun fuel hfuel => ?_⟩
  have hloop := searchLine_eq_loop pattern patternLen ls s lineno fuel off
  rw [hn fuel hfuel] at hloop
  cases hsearch : searchLine pattern patternLen ls s lineno fuel off with
  | error fault =>
    rw [hsearch] at hloop
    cases hloop
  | ok out => exact ⟨out, rfl⟩

/-- Every line is searched up to its end, until `next` returns no line. -/
inductive StreamHalts (k : LSKernel) (pattern : CString) : LineStream → Prop
  | done {ls ls' : LineStream} {e : LSError} : ls.next k = .ok (.error e, ls') →
      StreamHalts k pattern ls
  | line {ls ls' : LineStream} {s : LSString} : Returned k ls s ls' →
      Halts (lineRound pattern (strnlen pattern (1 * kib)) ls' s) (· ≤ s.size) 0 () →
      StreamHalts k pattern ls' → StreamHalts k pattern ls

/-- Then the search of the next line returns, and the rest ends as well. -/
theorem StreamHalts.returns (h : StreamHalts k pattern ls) (hnext : Returned k ls s ls')
    (lineno : ℕ) : StreamHalts k pattern ls' ∧ ∃ n, ∀ fuel, n < fuel →
      ∃ out, searchLine pattern (strnlen pattern (1 * kib)) ls' s lineno fuel 0 = .ok out := by
  cases h with
  | done hdone => cases hdone.symm.trans hnext
  | line hfirst hhalts hrest =>
    obtain ⟨hs, rfl⟩ := Prod.mk.inj (Except.ok.inj (hfirst.symm.trans hnext))
    obtain rfl := Except.ok.inj hs
    exact ⟨hrest, searchLine_returns hhalts⟩

theorem lineRound_found (hpos : pattern.bytes ≠ []) (hlt : off < s.size) {window : Bytes} {j : ℕ}
    (hwindow : ls.load s off s.size = .ok window)
    (hj : firstOccurrence pattern.bytes window = some j) :
    lineRound pattern pattern.bytes.length ls s off =
      .ok (.inr (off + j + pattern.bytes.length)) := by
  rw [lineRound, if_pos hlt, patternSearch_eq hwindow, hj]
  simp only [bind, Except.bind, load_found hpos hwindow hj]

theorem lineRound_not_found (hlt : off < s.size) {window : Bytes}
    (hwindow : ls.load s off s.size = .ok window)
    (hnone : firstOccurrence pattern.bytes window = none) :
    lineRound pattern pattern.bytes.length ls s off = .ok (.inr s.size) := by
  rw [lineRound, if_pos hlt, patternSearch_eq hwindow, hnone]
  rfl

/-- An occurrence in the rest of the line leaves the cursor in the line, and one that is only
in the window moves it behind the line. -/
theorem line_halts_iff (hpos : pattern.bytes ≠ []) (htext : ls.text s = .ok line)
    (hoff : off ≤ line.length) :
    Halts (lineRound pattern pattern.bytes.length ls s) (· ≤ s.size) off () ↔
      InsideFrom pattern.bytes ls s line off := by
  have hsize := length_text htext
  have hpositive := List.length_pos_iff.mpr hpos
  induction hn : line.length - off using Nat.strongRecOn generalizing off with
  | ind n ih =>
    subst hn
    cases window_search hpos htext hoff with
    | ended hend _ hgood => exact iff_of_true (.done (if_neg (Nat.not_lt.mpr hend))) hgood
    | @unreadable fault hlt hwindow hbad =>
      have hbody : lineRound pattern pattern.bytes.length ls s off = .error fault := by
        rw [lineRound, if_pos hlt, patternSearch, hwindow]
        rfl
      refine iff_of_false ?_ hbad
      intro hhalts
      cases hhalts with
      | done hdone => cases hbody.symm.trans hdone
      | next hnext => cases hbody.symm.trans hnext
    | @found _ j hlt hwindow hj hend _ hiff =>
      have hbody := lineRound_found hpos hlt hwindow hj
      have hnext := ih (line.length - (off + j + pattern.bytes.length)) (by omega) hend rfl
      rw [hiff]
      constructor
      · intro hhalts
        exact hnext.mp (hhalts.cases_next hbody).2
      · intro hinside
        exact .next hbody (hsize ▸ hend) (hnext.mpr hinside)
    | spurious hlt hwindow hj hpast _ hbad =>
      have hbody := lineRound_found hpos hlt hwindow hj
      refine iff_of_false ?_ hbad
      intro hhalts
      rw [hsize] at hpast
      exact absurd (hhalts.cases_next hbody).1 (Nat.not_le.mpr hpast)
    | missed hlt hwindow hj _ hgood =>
      have hbody := lineRound_not_found hlt hwindow hj
      have hlast : lineRound pattern pattern.bytes.length ls s s.size = .ok (.inl ()) :=
        if_neg (Nat.lt_irrefl _)
      exact iff_of_true (.next hbody (Nat.le_refl _) (.done hlast)) hgood

/-- Successive calls return strings as long as there are bytes to be delivered. -/
theorem stream_halts_iff (hpos : pattern.bytes ≠ []) (hlen : pattern.bytes.length ≤ 1023)
    (h : ls.Scanned 0) : StreamHalts k pattern ls ↔ AllContained k pattern.bytes ls := by
  induction hn : (linesOn newline ls.pending).length using Nat.strongRecOn generalizing ls with
  | ind n ih =>
    subst hn
    obtain ⟨r, ls', hnext, hcall, h'⟩ := h.next_effect (k := k)
    cases r with
    | error e => exact iff_of_true (.done hnext) (allContained_of_error hnext)
    | ok s =>
      obtain ⟨line, htext, hlines⟩ : ∃ line, ls'.text s = .ok line ∧
          linesOn newline ls.pending = line :: linesOn newline ls'.pending := by
        cases hcall with
        | delivered hdelivered =>
          cases hdelivered with
          | line htext hlines => exact ⟨_, htext, hlines⟩
      have hshort : (linesOn newline ls'.pending).length < (linesOn newline ls.pending).length := by
        rw [hlines]
        exact Nat.lt_succ_self _
      have hline := line_halts_iff hpos htext (Nat.zero_le _)
      rw [insideFrom_zero htext] at hline
      have hreturned : Returned k ls s ls' := hnext
      rw [hreturned.allContained_iff, ← hline, ← ih _ hshort h' rfl]
      constructor
      · intro hstream
        cases hstream with
        | done hdone => cases hdone.symm.trans hnext
        | line hfirst hhalts hrest =>
          have hsame := Except.ok.inj (hfirst.symm.trans hreturned)
          obtain ⟨hs, rfl⟩ := Prod.mk.inj hsame
          obtain rfl := Except.ok.inj hs
          rw [strnlen_eq hlen] at hhalts
          exact ⟨hhalts, hrest⟩
      · rintro ⟨hhalts, hrest⟩
        exact .line hreturned (by rw [strnlen_eq hlen]; exact hhalts) hrest

/-- With an empty pattern the search of a line that is not empty stays where it is. -/
theorem empty_pattern_line (hempty : pattern.bytes = []) (htext : ls.text s = .ok line)
    (hline : line ≠ []) (good : ℕ → Prop) :
    ¬ Halts (lineRound pattern pattern.bytes.length ls s) good 0 () := by
  have hlt : 0 < s.size := length_text htext ▸ List.length_pos_iff.mpr hline
  have hload : ls.load s 0 s.size = .ok line := htext
  have hnone := load_slice (j := 0) (m := 0) hload (Nat.zero_le _)
  rw [slice_zero] at hnone
  refine not_halts_of_trap (J := (· = 0)) ?_ rfl
  rintro _ rfl
  refine ⟨0, ?_, rfl⟩
  rw [lineRound, if_pos hlt, patternSearch, hload, hempty]
  simp only [bind, Except.bind, memmem, List.take_nil, firstOccurrence_nil, List.length_nil, hnone]

/-- Nor does the search of a mapping go on. -/
theorem empty_pattern_mapping (hempty : pattern.bytes = []) (good : MmapSearch → Prop)
    (remaining : ℕ) (stdout : Bytes) (out : Output) :
    ¬ Halts (mmapRound pattern pattern.bytes.length content) good ⟨0, remaining, stdout⟩ out := by
  refine not_halts_of_trap (J := fun s => s.cursor = 0) ?_ rfl
  rintro ⟨_, remaining, stdout⟩ rfl
  have hsearch : searchBlock pattern 0 content ⟨.block, 0⟩ remaining = .ok (some ⟨.block, 0⟩) := by
    rw [searchBlock, List.take_zero]
    rfl
  have hprint : printMatch content ⟨.block, 0⟩ 0 stdout = .ok (stdout ++ [] ++ [newline]) := by
    rw [printMatch, Pointer.load]
    dsimp only [loadBytes]
    rw [if_pos (Nat.zero_le _), slice_zero]
    rfl
  refine ⟨⟨0, toSize ((remaining : ℤ) - 0), stdout ++ [] ++ [newline]⟩, ?_, rfl⟩
  rw [mmapRound, hempty, List.length_nil, if_pos (Nat.zero_le _), hsearch]
  simp only [bind, Except.bind, hprint]
  rfl

/-- The first search through `NULL` finds nothing, and the length of the chunk underflows. -/
theorem empty_pattern_first (pattern : CString) (buf : Bytes) (fd : OpenFile) (stdout : Bytes) :
    searchChunk pattern 0 ⟨buf, ⟨.null, 0⟩, fd, stdout⟩ =
      .ok ⟨buf, ⟨⟨.null, 1⟩, 2 ^ 64 - 1⟩, fd, stdout⟩ := by
  have hadvance : RunningBuffer.advance ⟨.null, 0⟩ ⟨.null, 1⟩ = ⟨⟨.null, 1⟩, 2 ^ 64 - 1⟩ := by
    decide
  rw [← hadvance, searchChunk, searchBlock, List.take_zero]
  rfl

/-- Every further search finds the empty pattern where it begins. -/
theorem empty_pattern_later (pattern : CString) (buf : Bytes) (len : ℕ) (fd : OpenFile)
    (stdout : Bytes) :
    searchChunk pattern 0 ⟨buf, ⟨⟨.null, 1⟩, len⟩, fd, stdout⟩ =
      .ok ⟨buf, RunningBuffer.advance ⟨⟨.null, 1⟩, len⟩ ⟨.null, 1⟩, fd,
        stdout ++ [] ++ [newline]⟩ := by
  rw [searchChunk, searchBlock, List.take_zero]
  rfl

/-- So the block is never refilled. -/
theorem empty_pattern_block (hempty : pattern.bytes = []) (good : ReadSearch → Prop)
    (fd : OpenFile) (out : Output) :
    ¬ Halts (readRound k pattern pattern.bytes.length) good (.init fd) out := by
  refine not_halts_of_trap (J := fun s => s.chunk = ⟨.null, 0⟩ ∨ s.chunk.cursor = ⟨.null, 1⟩) ?_
    (.inl rfl)
  rintro ⟨buf, ⟨cursor, len⟩, fd, stdout⟩ hJ
  rw [readRound, hempty, List.length_nil, if_pos (Nat.zero_le _)]
  rcases hJ with hfirst | hlater
  · obtain ⟨rfl, rfl⟩ := RunningBuffer.mk.inj hfirst
    exact ⟨_, congrArg (Sum.inr <$> ·) (empty_pattern_first pattern buf fd stdout), .inr rfl⟩
  · obtain rfl : cursor = ⟨.null, 1⟩ := hlater
    exact ⟨_, congrArg (Sum.inr <$> ·) (empty_pattern_later pattern buf len fd stdout), .inr rfl⟩

/-- The loops of the three searches of a file end, with the cursor inside the line, the block
and the mapping. -/
structure SearchesEnd (k : LSKernel) (pattern : CString) (content : Bytes) (ls : LineStream) :
    Prop where
  stream : StreamHalts k pattern ls
  block : ∃ out, Halts (readRound k pattern (strnlen pattern (1 * kib))) ReadSearch.InBlock
    (.init ⟨content, []⟩) out
  mapping : content ≠ [] → ∃ out, Halts (mmapRound pattern (strnlen pattern (1 * kib)) content)
    (fun s => s.cursor + s.remaining = content.length) ⟨0, content.length, []⟩ out

/-- The searches end inside their data exactly if the pattern is not empty and no search of a
line is given a window in which an occurrence reaches behind the line. -/
theorem searches_end_iff (pattern : CString) (content : Bytes)
    (hlen : strnlen pattern (1 * kib) ≤ 1 * kib - 1) (hk : ∀ i, k.read i ≠ none)
    (hsize : content.length < 2 ^ 63) {pageSize : ℕ} {alloc calloc : Bool} {malloc : Malloc}
    (hpage : pageSize < 2 ^ 64)
    (hls : LineStream.create ⟨content, []⟩ pageSize alloc calloc malloc = .ok ls) :
    SearchesEnd k pattern content ls ↔
      pattern.bytes ≠ [] ∧ AllContained k pattern.bytes ls := by
  have hlen : pattern.bytes.length ≤ 1023 := by
    have hkib : kib = 1024 := rfl
    unfold strnlen at hlen
    omega
  have hstrnlen := strnlen_eq hlen
  obtain ⟨h, -⟩ := scanned_create hpage hls
  constructor
  · intro hend
    have hpos : pattern.bytes ≠ [] := by
      intro hempty
      obtain ⟨out, hblock⟩ := hend.block
      rw [hstrnlen] at hblock
      exact empty_pattern_block hempty _ _ out hblock
    exact ⟨hpos, (stream_halts_iff hpos hlen h).mp hend.stream⟩
  · rintro ⟨hpos, hcontained⟩
    refine ⟨(stream_halts_iff hpos hlen h).mpr hcontained, ?_, ?_⟩
    · obtain ⟨out, hblock, -⟩ :=
        (searching_progress hpos hlen hk content).halts (searching_init pattern.bytes content)
      rw [hstrnlen]
      exact ⟨out, hblock.mono fun _ hs => hs.inBlock⟩
    · intro _
      obtain ⟨out, hmapping, -⟩ :=
        (mapped_progress hpos hsize).halts (mapped_init pattern.bytes content)
      rw [hstrnlen]
      exact ⟨out, hmapping.mono fun _ hs => hs.fits⟩

/-- A pattern of one byte and a file of one line, of which the last byte is found. -/
theorem searches_end_iff_one :
    ∃ ls, LineStream.create ⟨[98, 97, 10], []⟩ 1 true true (some fun _ => 0) = .ok ls ∧
      SearchesEnd ⟨fun _ => some 2, fun _ => some fun _ => 0, ""⟩ ⟨[97], by decide⟩ [98, 97, 10]
        ls ∧
      ∀ s ls', Returned ⟨fun _ => some 2, fun _ => some fun _ => 0, ""⟩ ls s ls' →
        ∃ n, ∀ fuel, n < fuel → ∃ out, searchLine ⟨[97], by decide⟩ 1 ls' s 0 fuel 0 = .ok out := by
  have hk : Obliging ⟨fun _ => some 2, fun _ => some fun _ => 0, ""⟩ := ⟨by simp, by simp⟩
  have hls : LineStream.create ⟨[98, 97, 10], []⟩ 1 true true (some fun _ => 0) =
      .ok ⟨⟨[98, 97, 10], []⟩, ⟨some [0], 1, 0, 0⟩, 0⟩ := rfl
  have hlines : linesOn newline ([98, 97, 10] : Bytes) = [[98, 97]] := by decide
  obtain ⟨h, hpending⟩ :=
    ready_create (show 1 < 2 ^ 64 by decide) (readable_of_length_le (by decide)) hls
  have hinside := allContained_of_final (p := [97]) hk h (by
    rw [hpending, hlines]
    intro line hline i hi
    rw [List.mem_singleton.mp hline] at hi ⊢
    have hone : i ∈ [1] := hi
    rw [List.mem_singleton.mp hone]
    decide)
  have hend := (searches_end_iff ⟨[97], by decide⟩ [98, 97, 10] (by decide)
    (fun _ => by simp) (by decide) (by decide) hls).mpr ⟨by decide, hinside⟩
  exact ⟨_, hls, hend, fun s ls' hnext => (hend.stream.returns hnext 0).2⟩

/-- The empty pattern passes the check of its length, and for a file of one byte neither the search
of a line nor that of a mapping or of a block ends. -/
theorem empty_pattern_never_ends :
    strnlen ⟨[], by decide⟩ (1 * kib) ≤ 1 * kib - 1 ∧
      ¬ SearchesEnd ⟨fun _ => some 1, fun _ => some fun _ => 0, ""⟩ ⟨[], by decide⟩ [97]
        ⟨⟨[97], []⟩, ⟨some [0], 1, 0, 0⟩, 0⟩ ∧
      (¬ Halts (lineRound ⟨[], by decide⟩ 0 ⟨⟨[], [1]⟩, ⟨some [97], 1, 0, 1⟩, 1⟩ ⟨some 0, 1⟩)
        (fun _ => True) 0 ()) ∧
      (∀ out, ¬ Halts (mmapRound ⟨[], by decide⟩ 0 [97]) (fun _ => True) ⟨0, 1, []⟩ out) ∧
      ∀ out, ¬ Halts (readRound ⟨fun _ => some 1, fun _ => some fun _ => 0, ""⟩ ⟨[], by decide⟩ 0)
        (fun _ => True) (.init ⟨[97], []⟩) out := by
  refine ⟨by decide, ?_, ?_, ?_, ?_⟩
  · intro hend
    obtain ⟨out, hblock⟩ := hend.block
    exact empty_pattern_block rfl _ _ out hblock
  · have hline : ([97] : Bytes) ≠ [] := by decide
    exact empty_pattern_line rfl rfl hline _
  · intro out
    exact empty_pattern_mapping rfl _ 1 [] out
  · intro out
    exact empty_pattern_block rfl _ _ out

end SysExploration.Fgrep
