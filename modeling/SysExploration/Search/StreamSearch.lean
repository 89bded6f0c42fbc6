import SysExploration.Library.Runs
import SysExploration.Search.LineSearch

/-! What `stream_line_and_search` prints for a whole file. -/
namespace SysExploration.Fgrep
open LineStream

variable {k : LSKernel} {pattern : CString} {content : Bytes}
  {ls ls' : LineStream} {s : LSString}

/-- One record for each occurrence in a line that does not overlap the one before, in order;
the lines are numbered from `lineno` on. -/
def report (pattern : Bytes) (lineno : ℕ) (lines : List Bytes) : Bytes :=
  (lines.zipIdx lineno).flatMap fun (line, lineno) =>
    lineRecords pattern lineno (occurrences pattern line)

example : report [97] 1 [[97, 97, 98], [], [97]] =
    printRecord 1 1 [97] ++ printRecord 1 2 [97] ++ printRecord 3 1 [97] := by decide

/-- A call of `next` that returns a string. -/
def Returned (k : LSKernel) (ls : LineStream) (s : LSString) (ls' : LineStream) : Prop :=
  ls.next k = .ok (.ok s, ls')

/-- Every string that the calls of `next` return one after the other is searched inside. -/
def AllContained (k : LSKernel) (pattern : Bytes) (ls : LineStream) : Prop :=
  ∀ strings s ls₁ ls₂, Run (Returned k) ls strings ls₁ → Returned k ls₁ s ls₂ →
    Contained pattern ls₂ s

theorem report_cons (pattern : Bytes) (lineno : ℕ) (line : Bytes) (lines : List Bytes) :
    report pattern lineno (line :: lines) =
      lineRecords pattern lineno (occurrences pattern line) ++
        report pattern (lineno + 1) lines := by
  rw [report, List.zipIdx_cons, List.flatMap_cons]
  rfl

theorem Returned.allContained_iff (h : Returned k ls s ls') :
    AllContained k pattern.bytes ls ↔
      Contained pattern.bytes ls' s ∧ AllContained k pattern.bytes ls' := by
  have hunique : ∀ {t ls''}, Returned k ls t ls'' → t = s ∧ ls'' = ls' := by
    intro t ls'' h'
    have heq := Except.ok.inj (h'.symm.trans h)
    exact ⟨Except.ok.inj (Prod.mk.inj heq).1, (Prod.mk.inj heq).2⟩
  constructor
  · intro hall
    refine ⟨hall [] s ls ls' .nil h, ?_⟩
    intro strings t ls₁ ls₂ hrun hlast
    exact hall (s :: strings) t ls₁ ls₂ ((Run.single h).trans hrun) hlast
  · rintro ⟨hfirst, hall⟩ strings t ls₁ ls₂ hrun hlast
    rcases hrun.cases_head with ⟨rfl, rfl⟩ | ⟨i, js, ls'', rfl, hstep, hrest⟩
    · obtain ⟨rfl, rfl⟩ := hunique hlast
      exact hfirst
    · obtain ⟨rfl, rfl⟩ := hunique hstep
      exact hall js t ls₁ ls₂ hrest hlast

theorem allContained_of_error {e : LSError} (h : ls.next k = .ok (.error e, ls')) :
    AllContained k pattern.bytes ls := by
  have hnone : ∀ t ls'', ¬ Returned k ls t ls'' := by
    intro t ls'' h'
    cases h.symm.trans h'
  intro strings t ls₁ ls₂ hrun hlast
  rcases hrun.cases_head with ⟨rfl, rfl⟩ | ⟨i, js, ls'', rfl, hstep, -⟩
  · exact absurd hlast (hnone t ls₂)
  · exact absurd hstep (hnone i ls'')

/-- A call that returns a string returns the next line. -/
theorem line_of_returned (hk : Obliging k) (h : ls.Ready) (hnext : Returned k ls s ls') :
    ls'.Ready ∧ ∃ line, ls'.text s = .ok line ∧
      linesOn newline ls.pending = line :: linesOn newline ls'.pending := by
  obtain ⟨r, ls'', hspec, hdelivered, h'⟩ := h.next_spec hk
  have heq := Except.ok.inj (hspec.symm.trans hnext)
  obtain ⟨rfl, rfl⟩ := Prod.mk.inj heq
  cases hdelivered with
  | line htext hlines => exact ⟨h', _, htext, hlines⟩

/-- No occurrence in these lines leaves anything behind it. -/
def Final (p : Bytes) (lines : List Bytes) : Prop :=
  ∀ line ∈ lines, ∀ i ∈ occurrences p line, line.length ≤ i + p.length

/-- Nothing is searched behind an occurrence that ends its line. -/
theorem allContained_of_final {p : Bytes} (hk : Obliging k) (h : ls.Ready)
    (hfinal : Final p (linesOn newline ls.pending)) : AllContained k p ls := by
  intro strings s ls₁ ls₂ hrun hnext
  have hstart : ls.Ready ∧ Final p (linesOn newline ls.pending) := ⟨h, hfinal⟩
  obtain ⟨h₁, hfinal₁⟩ := hrun.invariant (I := fun ls => ls.Ready ∧
    Final p (linesOn newline ls.pending)) hstart (by
      rintro ls s ls' ⟨h, hfinal⟩ hstep
      obtain ⟨h', line, -, hlines⟩ := line_of_returned hk h hstep
      rw [hlines] at hfinal
      exact ⟨h', fun l hl => hfinal l (List.mem_cons_of_mem _ hl)⟩)
  obtain ⟨-, line, htext, hlines⟩ := line_of_returned hk h₁ hnext
  rw [hlines] at hfinal₁
  intro line' htext' i hi hlt
  obtain rfl := Except.ok.inj (htext.symm.trans htext')
  have hlast := hfinal₁ line List.mem_cons_self i hi
  omega

/-- The outer loop, one line a round. -/
theorem searchLines_prints (fuel lineno : ℕ) (hk : Obliging k) (hpos : pattern.bytes ≠ [])
    (h : ls.Ready) (hfuel : (linesOn newline ls.pending).length < fuel) :
    ∃ result, searchLines k pattern pattern.bytes.length fuel ls lineno =
        Except.map (·, endOfFile) result ∧
      Prints (AllContained k pattern.bytes ls)
        (report pattern.bytes (lineno + 1) (linesOn newline ls.pending)) result := by
  induction fuel generalizing ls lineno with
  | zero => omega
  | succ fuel ih =>
    obtain ⟨r, ls', hnext, hdelivered, h'⟩ := h.next_spec hk
    rw [searchLines, hnext]
    cases hdelivered with
    | @line s line _ htext hlines =>
      rw [hlines, List.length_cons] at hfuel
      obtain ⟨rest, hrest, hprints⟩ := ih (lineno + 1) h' (by omega)
      have hline := searchLine_prints lineno (s.size + 1) hpos htext (Nat.zero_le _)
        (by rw [length_text htext]; omega)
      rw [insideFrom_zero htext] at hline
      have hall : Prints (AllContained k pattern.bytes ls)
          (report pattern.bytes (lineno + 1) (linesOn newline ls.pending)) (do
            let out ← searchLine pattern pattern.bytes.length ls' s lineno (s.size + 1) 0
            let out' ← rest
            .ok (out ++ out')) := by
        rw [hlines, report_cons, Returned.allContained_iff hnext]
        exact hline.append hprints
      refine ⟨_, ?_, hall⟩
      simp only [bind, Except.bind, hrest]
      cases searchLine pattern pattern.bytes.length ls' s lineno (s.size + 1) 0 with
      | error fault => rfl
      | ok out => cases rest <;> rfl
    | eof hpending =>
      refine ⟨.ok [], rfl, ?_⟩
      rw [hpending, linesOn_nil]
      exact ⟨fun _ => rfl, fun hbad => absurd (allContained_of_error hnext) hbad⟩

/-- A search of a whole file that can be opened, read and buffered. -/
theorem streamLineAndSearch_prints (pattern : CString) {pageSize : ℕ} {alloc calloc : Bool}
    {malloc : Malloc} (hk : Obliging k) (hpage : pageSize < 2 ^ 64) (hcontent : Readable content)
    (hls : LineStream.create ⟨content, []⟩ pageSize alloc calloc malloc = .ok ls)
    (hpos : pattern.bytes ≠ []) (hlen : pattern.bytes.length ≤ 1023) :
    ∃ result, streamLineAndSearch k ⟨content, []⟩ pattern pageSize alloc calloc malloc =
        Except.map (⟨·, "", false⟩) result ∧
      Prints (AllContained k pattern.bytes ls)
        (report pattern.bytes 1 (linesOn newline content)) result := by
  obtain ⟨h, hpending⟩ := ready_create hpage hcontent hls
  have hlines := length_linesOn_le newline ls.pending
  rw [hpending] at hlines
  obtain ⟨result, hsearch, hprints⟩ := searchLines_prints (content.length + 1) 0 hk hpos h
    (by rw [hpending]; omega)
  rw [hpending] at hprints
  refine ⟨result, ?_, hprints⟩
  have hstrnlen : strnlen pattern (1 * 1024) = pattern.bytes.length :=
    Nat.min_eq_left (by omega)
  unfold streamLineAndSearch
  simp only [hstrnlen, hls]
  rw [if_neg (by omega), hsearch]
  cases result <;> rfl

/-- The output is one record for each occurrence inside a line, and nothing else, exactly if
no search finds anything behind its line. -/
theorem stream_line_and_search_exact_iff (pattern : CString) {pageSize : ℕ} {alloc calloc : Bool}
    {malloc : Malloc} (hk : Obliging k) (hpage : pageSize < 2 ^ 64) (hcontent : Readable content)
    (hls : LineStream.create ⟨content, []⟩ pageSize alloc calloc malloc = .ok ls)
    (hpos : pattern.bytes ≠ []) (hlen : pattern.bytes.length ≤ 1023) :
    streamLineAndSearch k ⟨content, []⟩ pattern pageSize alloc calloc malloc =
        .ok ⟨report pattern.bytes 1 (linesOn newline content), "", false⟩ ↔
      AllContained k pattern.bytes ls := by
  obtain ⟨result, hsearch, hprints⟩ :=
    streamLineAndSearch_prints pattern hk hpage hcontent hls hpos hlen
  rw [hsearch, ← hprints.eq_ok_iff]
  constructor
  · intro hout
    cases result with
    | error fault => cases hout
    | ok out => rw [(Output.mk.inj (Except.ok.inj hout)).1]
  · intro hresult
    rw [hresult]
    rfl

/-- A file of one line, searched for its last byte. -/
theorem stream_line_and_search_exact_iff_one :
    ∃ ls, LineStream.create ⟨[98, 97, 10], []⟩ 1 true true (some fun _ => 0) = .ok ls ∧
      (streamLineAndSearch ⟨fun _ => some 2, fun _ => some fun _ => 0, ""⟩ ⟨[98, 97, 10], []⟩
          ⟨[97], by decide⟩ 1 true true (some fun _ => 0) =
        .ok ⟨printRecord 1 2 [97], "", false⟩ ↔
          AllContained ⟨fun _ => some 2, fun _ => some fun _ => 0, ""⟩ [97] ls) := by
  have hk : Obliging ⟨fun _ => some 2, fun _ => some fun _ => 0, ""⟩ := ⟨by simp, by simp⟩
  exact ⟨_, rfl, stream_line_and_search_exact_iff ⟨[97], by decide⟩ hk
    (show 1 < 2 ^ 64 by decide) (readable_of_length_le (by decide)) rfl (by decide) (by decide)⟩

/-- When the first read returns the whole file, the block holds the file from the first line on. -/
theorem next_of_whole_read (hk : Obliging k) (h : ls.Ready) (hempty : ls.readBuffer.view = [])
    {n : ℕ} (hread : k.read ls.fd.asked.length = some n) (hn : ls.fd.rest.length ≤ n)
    (hsmall : ls.fd.rest.length ≤ readBufferingSize) (front back : Bytes)
    (hrest : ls.fd.rest = front ++ newline :: back) (hfront : newline ∉ front) :
    ∃ cursor ls', Returned k ls ⟨some cursor, front.length⟩ ls' ∧
      ∀ off n, off + n ≤ ls.fd.rest.length →
        ls'.load ⟨some cursor, front.length⟩ off n = .ok (slice ls.fd.rest off n) := by
  have hlength : ls.readBuffer.length = 0 := by rw [← h.valid.length_view, hempty, List.length_nil]
  have hpositive : 0 < ls.fd.rest.length := by
    rw [hrest, List.length_append, List.length_cons]
    omega
  obtain ⟨rb, rb', bytes, file, hround, ha, hbytes, hview', h₁⟩ :=
    h.round_filled hk (by rw [hempty]; simp) (List.length_pos_iff.mp hpositive)
  have hlimit := ha.limit h.valid
  have hcount : min (max 1 n) (min (rb.getWriteCursorLimit 64) ls.fd.rest.length) =
      ls.fd.rest.length := by omega
  have hwhole : ls.fd.read k (rb.getWriteCursorLimit 64) =
      (some ls.fd.rest, ⟨[], ls.fd.asked ++ [rb.getWriteCursorLimit 64]⟩) := by
    unfold OpenFile.read
    rw [hread]
    simp only [hcount, List.take_length, List.drop_length]
  obtain ⟨hsome, rfl⟩ := Prod.mk.inj (hbytes.symm.trans hwhole)
  obtain rfl := Option.some.inj hsome
  rw [hempty, List.nil_append] at hview'
  have hlen : rb'.length = ls.fd.rest.length := by rw [← h₁.length_view, hview']
  have hfound : findNewline rb' 0 = .ok (some front.length) := by
    have hnone : front.findIdx? (fun b => decide (b = newline)) = none := by
      rw [List.findIdx?_eq_none_iff]
      intro b hb
      exact decide_eq_false fun hnewline => hfront (hnewline ▸ hb)
    rw [findNewline_eq h₁ (Nat.zero_le _), hview', hrest, List.drop_zero,
      List.findIdx?_append, hnone]
    simp [List.findIdx?_cons]
  have hline : front.length < rb'.length := by
    rw [hlen, hrest, List.length_append, List.length_cons]
    omega
  obtain ⟨rb'', hcursor, hconsume, -, -, hdata, -⟩ :=
    consume_line h₁ hline (Nat.succ_pos front.length)
  refine ⟨rb'.offset, ⟨⟨[], ls.fd.asked ++ [rb.getWriteCursorLimit 64]⟩, rb'', ls.assured + 1⟩,
    ?_, ?_⟩
  · obtain ⟨m, hm⟩ : ∃ m, ls.fd.rest.length = m + 1 := Nat.exists_eq_add_one.mpr hpositive
    rw [Returned, next, nextLoop_succ, hround, hlength, hm]
    change nextLoop k (m + 1) ⟨_, rb', _⟩ 0 = _
    rw [nextLoop]
    simp only [hfound, bind, Except.bind, hcursor, hconsume]
  · intro off n hoff
    have hfits := h₁.fits
    rw [← hview']
    exact load_eq h₁ (Nat.ne_of_gt (by omega)) hdata front.length
      (hoff.trans hlen.ge)

/-- The file `aab` and a second line `a`, read at once: the search for `a` behind the second
occurrence reads over the newline into the second line. -/
theorem fgrep_prints_spurious_record :
    streamLineAndSearch ⟨fun _ => some 5, fun _ => some fun _ => 0, ""⟩ ⟨[97, 97, 98, 10, 97], []⟩
        ⟨[97], by decide⟩ 1 true true (some fun _ => 0) ≠
      .ok ⟨report [97] 1 (linesOn newline [97, 97, 98, 10, 97]), "", false⟩ := by
  have hk : Obliging ⟨fun _ => some 5, fun _ => some fun _ => 0, ""⟩ := ⟨by simp, by simp⟩
  have hcontent : Readable [97, 97, 98, 10, 97] := readable_of_length_le (by decide)
  have hls : LineStream.create ⟨[97, 97, 98, 10, 97], []⟩ 1 true true (some fun _ => 0) =
      .ok ⟨⟨[97, 97, 98, 10, 97], []⟩, ⟨some [0], 1, 0, 0⟩, 0⟩ := rfl
  obtain ⟨result, hsearch, hprints⟩ := streamLineAndSearch_prints ⟨[97], by decide⟩ hk
    (show 1 < 2 ^ 64 by decide) hcontent hls (by decide) (by decide)
  have hspurious : ¬ AllContained ⟨fun _ => some 5, fun _ => some fun _ => 0, ""⟩ [97]
      ⟨⟨[97, 97, 98, 10, 97], []⟩, ⟨some [0], 1, 0, 0⟩, 0⟩ := by
    intro hall
    have h := (ready_create (by decide) hcontent hls).1
    obtain ⟨cursor, ls', hfirst, hload⟩ :=
      next_of_whole_read hk h rfl rfl (by decide) (by decide) [97, 97, 98] [97] rfl (by decide)
    have hcontained := hall [] _ _ _ .nil hfirst
    obtain ⟨behind, hbehind, hmatch⟩ :=
      hcontained [97, 97, 98] (hload 0 3 (by decide)) 1 (by decide) (by decide)
    obtain rfl := Except.ok.inj ((hload 3 2 (by decide)).symm.trans hbehind)
    exact absurd hmatch (by decide)
  rw [hsearch]
  intro hout
  cases result with
  | error fault => cases hout
  | ok out =>
    have hsame := (Output.mk.inj (Except.ok.inj hout)).1
    exact hspurious (hprints.eq_ok_iff.mp (by rw [hsame]))

end SysExploration.Fgrep
