import SysExploration.Commons.LineReading
import SysExploration.Search.Fgrep

/-! What `fgrep` prints. The search behind an occurrence is given the length of the whole
line, so it reads as many bytes behind the line as it began behind the front of the line. -/
namespace SysExploration.Fgrep
open LineStream

variable {pattern : CString} {lineno fuel off : ℕ} {line : Bytes} {ls : LineStream} {s : LSString}

/-- The records of one line. -/
def lineRecords (pattern : Bytes) (lineno : ℕ) (indices : List ℕ) : Bytes :=
  indices.flatMap fun i => printRecord lineno (i + 1) pattern

/-- A search from `off` on finds no occurrence that reaches behind the line: the bytes it
reads there are bytes of the block, and they complete no occurrence. -/
def Inside (pattern : Bytes) (ls : LineStream) (s : LSString) (line : Bytes) (off : ℕ) : Prop :=
  off < line.length → ∃ behind, ls.load s s.size off = .ok behind ∧
    (¬ pattern <:+: line.drop off → ¬ pattern <:+: line.drop off ++ behind)

/-- The searches behind the occurrences in a line stay inside the line. -/
def Contained (pattern : Bytes) (ls : LineStream) (s : LSString) : Prop :=
  ∀ line, ls.text s = .ok line →
    ∀ i ∈ occurrences pattern line, Inside pattern ls s line (i + pattern.length)

theorem printRecord_length_pos (lineno column : ℕ) (text : Bytes) :
    0 < (printRecord lineno column text).length := by
  simp only [printRecord, List.length_append, List.length_cons]
  omega

/-- What can be read is a part of the block. -/
theorem exists_slice {n : ℕ} {bytes : Bytes} (h : ls.load s off n = .ok bytes) :
    ∃ cursor b, s.cursor = some cursor ∧ ls.readBuffer.data = some b ∧
      cursor + off + n ≤ b.length ∧ bytes = slice b (cursor + off) n := by
  unfold load at h
  split at h
  · cases h
  · next cursor hcursor =>
    unfold loadBytes at h
    split at h
    · cases h
    · next b hdata =>
      split_ifs at h with hfits
      exact ⟨cursor, b, hcursor, hdata, hfits, (Except.ok.inj h).symm⟩

theorem load_eq_loadBytes {cursor : ℕ} (hcursor : s.cursor = some cursor) (n : ℕ) :
    ls.load s off n = loadBytes ls.readBuffer.data (cursor + off) n := by
  rw [load, hcursor]

theorem length_text (h : ls.text s = .ok line) : line.length = s.size := by
  obtain ⟨cursor, b, -, -, hfits, rfl⟩ := exists_slice h
  exact length_slice hfits

/-- A part of what can be read. -/
theorem load_slice {n j m : ℕ} {bytes : Bytes} (h : ls.load s off n = .ok bytes)
    (hm : j + m ≤ bytes.length) : ls.load s (off + j) m = .ok (slice bytes j m) := by
  obtain ⟨cursor, b, hcursor, hdata, hfits, rfl⟩ := exists_slice h
  rw [length_slice hfits] at hm
  rw [load_eq_loadBytes hcursor, hdata, slice_slice hm, Nat.add_assoc]
  exact if_pos (by omega)

/-- The window of a search is the rest of the line and the bytes behind it. -/
theorem load_window (h : ls.text s = .ok line) (hoff : off ≤ line.length) :
    ls.load s off s.size = (ls.load s s.size off).map (line.drop off ++ ·) := by
  rw [length_text h] at hoff
  obtain ⟨cursor, b, hcursor, hdata, hfits, rfl⟩ := exists_slice h
  rw [load_eq_loadBytes hcursor, load_eq_loadBytes hcursor, hdata]
  dsimp only [loadBytes]
  by_cases hroom : cursor + s.size + off ≤ b.length
  · have hsplit := slice_add b (cursor + off) (s.size - off) off
    have hstart : cursor + off + (s.size - off) = cursor + s.size := by omega
    rw [Nat.sub_add_cancel hoff, hstart, ← drop_slice] at hsplit
    rw [if_pos (by omega), if_pos hroom, hsplit]
    rfl
  · rw [if_neg (by omega), if_neg hroom]
    rfl

/-- The searches from `off` on and behind each occurrence counted from there stay inside. -/
def InsideFrom (pattern : Bytes) (ls : LineStream) (s : LSString) (line : Bytes) (off : ℕ) : Prop :=
  Inside pattern ls s line off ∧
    ∀ i ∈ occurrencesFrom pattern off 0 (line.drop off),
      Inside pattern ls s line (i + pattern.length)

/-- The search at the front of a line has the line as its window. -/
theorem insideFrom_zero (h : ls.text s = .ok line) :
    InsideFrom pattern.bytes ls s line 0 ↔ Contained pattern.bytes ls s := by
  have hfront : Inside pattern.bytes ls s line 0 := by
    intro _
    refine ⟨[], ?_, ?_⟩
    · have hload := load_slice (j := s.size) (m := 0) h (length_text h).ge
      rwa [slice_zero, Nat.zero_add] at hload
    · rw [List.append_nil]
      exact id
  constructor
  · rintro ⟨-, hall⟩ line' hline'
    obtain rfl := Except.ok.inj (h.symm.trans hline')
    exact hall
  · intro hall
    exact ⟨hfront, hall line h⟩

theorem patternSearch_eq {window : Bytes} (hwindow : ls.load s off s.size = .ok window) :
    patternSearch pattern pattern.bytes.length ls s off s.size =
      .ok (firstOccurrence pattern.bytes window) := by
  rw [patternSearch, hwindow, List.take_length]
  rfl

/-- What is found can be read, and is the pattern. -/
theorem load_found (hpos : pattern.bytes ≠ []) {window : Bytes} {j : ℕ}
    (hwindow : ls.load s off s.size = .ok window)
    (hj : firstOccurrence pattern.bytes window = some j) :
    ls.load s (off + j) pattern.bytes.length = .ok pattern.bytes := by
  have hstart := firstOccurrence_spec hj
  have hlength := hstart.length_le
  have hpositive := List.length_pos_iff.mpr hpos
  rw [List.length_drop] at hlength
  have hload := load_slice (j := j) (m := pattern.bytes.length) hwindow (by omega)
  rwa [slice, ← List.prefix_iff_eq_take.mp hstart] at hload

/-- A round of the inner loop that finds an occurrence prints a record and goes on behind it. -/
theorem searchLine_found (hpos : pattern.bytes ≠ []) (hlt : off < s.size) {window : Bytes} {j : ℕ}
    (hwindow : ls.load s off s.size = .ok window)
    (hj : firstOccurrence pattern.bytes window = some j) :
    searchLine pattern pattern.bytes.length ls s lineno (fuel + 1) off = (do
      let rest ← searchLine pattern pattern.bytes.length ls s lineno fuel
        (off + j + pattern.bytes.length)
      .ok (printRecord (lineno + 1) (off + j + 1) pattern.bytes ++ rest)) := by
  rw [searchLine, if_pos hlt, patternSearch_eq hwindow, hj]
  simp only [bind, Except.bind, load_found hpos hwindow hj]

/-- A round that finds none is the last but one. -/
theorem searchLine_not_found (hlt : off < s.size) {window : Bytes}
    (hwindow : ls.load s off s.size = .ok window)
    (hnone : firstOccurrence pattern.bytes window = none) :
    searchLine pattern pattern.bytes.length ls s lineno (fuel + 2) off = .ok [] := by
  rw [searchLine, if_pos hlt, patternSearch_eq hwindow, hnone]
  simp only [bind, Except.bind]
  rw [searchLine, if_neg (Nat.lt_irrefl _)]

/-- Behind an occurrence in the rest of the line the search goes on as before. -/
theorem insideFrom_iff (hpos : pattern.bytes ≠ []) {behind : Bytes} {j : ℕ}
    (hbehind : ls.load s s.size off = .ok behind)
    (hj : firstOccurrence pattern.bytes (line.drop off) = some j) :
    InsideFrom pattern.bytes ls s line off ↔
      InsideFrom pattern.bytes ls s line (off + j + pattern.bytes.length) := by
  unfold InsideFrom
  rw [occurrencesFrom_of_first hpos hj, List.drop_drop, ← Nat.add_assoc, List.forall_mem_cons]
  constructor
  · rintro ⟨-, hnext, hall⟩
    exact ⟨hnext, hall⟩
  · rintro ⟨hnext, hall⟩
    exact ⟨fun _ => ⟨behind, hbehind, fun hnone => absurd (infix_of_firstOccurrence hj) hnone⟩,
      hnext, hall⟩

/-- Behind the last occurrence the search must find nothing. -/
theorem insideFrom_last_iff (hlt : off < line.length) {behind : Bytes}
    (hbehind : ls.load s s.size off = .ok behind)
    (hrest : ¬ pattern.bytes <:+: line.drop off) :
    InsideFrom pattern.bytes ls s line off ↔ ¬ pattern.bytes <:+: line.drop off ++ behind := by
  unfold InsideFrom
  rw [occurrencesFrom_eq_nil hrest]
  constructor
  · rintro ⟨hinside, -⟩
    obtain ⟨behind', hload, hmatch⟩ := hinside hlt
    obtain rfl := Except.ok.inj (hbehind.symm.trans hload)
    exact hmatch hrest
  · intro hmatch
    exact ⟨fun _ => ⟨behind, hbehind, fun _ => hmatch⟩, nofun⟩

/-- What a round of the inner loop meets at `off`: the end of the line, a window that cannot be
read, or one with an occurrence in the line, with one that reaches behind it, or with none. -/
inductive WindowSearch (pattern : Bytes) (ls : LineStream) (s : LSString) (line : Bytes)
    (off : ℕ) : Prop
  | ended : s.size ≤ off → occurrencesFrom pattern off 0 (line.drop off) = [] →
      InsideFrom pattern ls s line off → WindowSearch pattern ls s line off
  | unreadable {fault : Fault} : off < s.size → ls.load s off s.size = .error fault →
      ¬ InsideFrom pattern ls s line off → WindowSearch pattern ls s line off
  | found {window : Bytes} {j : ℕ} : off < s.size → ls.load s off s.size = .ok window →
      firstOccurrence pattern window = some j → off + j + pattern.length ≤ line.length →
      occurrencesFrom pattern off 0 (line.drop off) =
        (off + j) :: occurrencesFrom pattern (off + j + pattern.length) 0
          (line.drop (off + j + pattern.length)) →
      (InsideFrom pattern ls s line off ↔
        InsideFrom pattern ls s line (off + j + pattern.length)) →
      WindowSearch pattern ls s line off
  | spurious {window : Bytes} {j : ℕ} : off < s.size → ls.load s off s.size = .ok window →
      firstOccurrence pattern window = some j → line.length < off + j + pattern.length →
      occurrencesFrom pattern off 0 (line.drop off) = [] → ¬ InsideFrom pattern ls s line off →
      WindowSearch pattern ls s line off
  | missed {window : Bytes} : off < s.size → ls.load s off s.size = .ok window →
      firstOccurrence pattern window = none →
      occurrencesFrom pattern off 0 (line.drop off) = [] → InsideFrom pattern ls s line off →
      WindowSearch pattern ls s line off

/-- When the rest of the line has an occurrence the window has the same first one, and when it
has none the search should not find any. -/
theorem window_search (hpos : pattern.bytes ≠ []) (htext : ls.text s = .ok line)
    (hoff : off ≤ line.length) : WindowSearch pattern.bytes ls s line off := by
  have hsize := length_text htext
  have hwindow := load_window htext hoff
  by_cases hlt : off < line.length
  · have hlt' : off < s.size := hsize ▸ hlt
    cases hbehind : ls.load s s.size off with
    | error fault =>
      rw [hbehind] at hwindow
      apply WindowSearch.unreadable hlt' hwindow
      rintro ⟨hinside, -⟩
      obtain ⟨behind, hload, -⟩ := hinside hlt
      cases hbehind.symm.trans hload
    | ok behind =>
      rw [hbehind] at hwindow
      cases hfirst : firstOccurrence pattern.bytes (line.drop off) with
      | some j =>
        have hoccurrences := occurrencesFrom_of_first hpos hfirst off
        rw [List.drop_drop, ← Nat.add_assoc] at hoccurrences
        have hlength := (firstOccurrence_spec hfirst).length_le
        have hpositive := List.length_pos_iff.mpr hpos
        rw [List.length_drop, List.length_drop] at hlength
        exact .found hlt' hwindow (firstOccurrence_append hfirst behind) (by omega) hoccurrences
          (insideFrom_iff hpos hbehind hfirst)
      | none =>
        have hrest := firstOccurrence_eq_none_iff.mp hfirst
        have hinside := insideFrom_last_iff hlt hbehind hrest
        have hoccurrences := occurrencesFrom_eq_nil hrest off
        cases hspurious : firstOccurrence pattern.bytes (line.drop off ++ behind) with
        | some j =>
          have hpast := length_lt_of_firstOccurrence_append hrest hspurious
          rw [List.length_drop] at hpast
          apply WindowSearch.spurious hlt' hwindow hspurious (by omega) hoccurrences
          intro hgood
          exact hinside.mp hgood (infix_of_firstOccurrence hspurious)
        | none =>
          exact .missed hlt' hwindow hspurious hoccurrences
            (hinside.mpr (firstOccurrence_eq_none_iff.mp hspurious))
  · have hnil : line.drop off = [] := List.drop_of_length_le (Nat.not_lt.mp hlt)
    have hoccurrences : occurrencesFrom pattern.bytes off 0 (line.drop off) = [] := by
      rw [hnil]
      rfl
    refine .ended (hsize ▸ Nat.not_lt.mp hlt) hoccurrences ⟨fun h => absurd h hlt, ?_⟩
    rw [hoccurrences]
    intro i hi
    exact absurd hi List.not_mem_nil

/-- What is printed is `expected` if all is well, and otherwise, if the search returns at all,
more than that. -/
structure Prints (good : Prop) (expected : Bytes) (result : Except Fault Bytes) : Prop where
  exact : good → result = .ok expected
  more : ¬ good → ∀ out, result = .ok out → expected.length < out.length

namespace Prints

variable {good good' : Prop} {expected expected' : Bytes} {result result' : Except Fault Bytes}

theorem eq_ok_iff (h : Prints good expected result) : result = .ok expected ↔ good := by
  constructor
  · intro hresult
    by_contra hbad
    exact absurd (h.more hbad expected hresult) (Nat.lt_irrefl _)
  · exact h.exact

theorem length_le (h : Prints good expected result) {out : Bytes} (hout : result = .ok out) :
    expected.length ≤ out.length := by
  by_cases hgood : good
  · rw [h.exact hgood] at hout
    rw [Except.ok.inj hout]
  · exact (h.more hgood out hout).le

theorem append (h : Prints good expected result) (h' : Prints good' expected' result') :
    Prints (good ∧ good') (expected ++ expected') (do
      let out ← result
      let out' ← result'
      .ok (out ++ out')) := by
  constructor
  · rintro ⟨hgood, hgood'⟩
    rw [h.exact hgood, h'.exact hgood']
    rfl
  · intro hbad out hout
    cases hfirst : result with
    | error fault =>
      rw [hfirst] at hout
      cases hout
    | ok out₁ =>
      cases hsecond : result' with
      | error fault =>
        rw [hfirst, hsecond] at hout
        cases hout
      | ok out₂ =>
        rw [hfirst, hsecond] at hout
        obtain rfl := Except.ok.inj hout
        have hle := h.length_le hfirst
        have hle' := h'.length_le hsecond
        rw [List.length_append, List.length_append]
        by_cases hgood : good
        · have hlt' := h'.more (fun hgood' => hbad ⟨hgood, hgood'⟩) out₂ hsecond
          omega
        · have hlt := h.more hgood out₁ hfirst
          omega

theorem ok (out : Bytes) : Prints True out (.ok out) := ⟨fun _ => rfl, fun h => absurd trivial h⟩

theorem nil (result : Except Fault Bytes) : Prints (result = .ok []) [] result := by
  refine ⟨id, fun hne out hout => List.length_pos_iff.mpr ?_⟩
  rintro rfl
  exact hne hout

end Prints

/-- The inner loop, one search a round. -/
theorem searchLine_prints (lineno fuel : ℕ) (hpos : pattern.bytes ≠ [])
    (htext : ls.text s = .ok line) (hoff : off ≤ line.length) (hfuel : line.length - off < fuel) :
    Prints (InsideFrom pattern.bytes ls s line off)
      (lineRecords pattern.bytes (lineno + 1)
        (occurrencesFrom pattern.bytes off 0 (line.drop off)))
      (searchLine pattern pattern.bytes.length ls s lineno fuel off) := by
  have hsize := length_text htext
  have hpositive := List.length_pos_iff.mpr hpos
  induction fuel generalizing off with
  | zero => omega
  | succ fuel ih =>
    cases window_search hpos htext hoff with
    | ended hend hnone hgood =>
      rw [searchLine, if_neg (Nat.not_lt.mpr hend), hnone]
      exact ⟨fun _ => rfl, fun hbad => absurd hgood hbad⟩
    | unreadable hlt hwindow hbad =>
      rw [searchLine, if_pos hlt, patternSearch, hwindow]
      exact ⟨fun hgood => absurd hgood hbad, nofun⟩
    | found hlt hwindow hj hend hoccurrences hiff =>
      have hrest := ih hend (by omega)
      rw [hiff, hoccurrences, lineRecords, List.flatMap_cons, ← true_and (InsideFrom ..),
        searchLine_found hpos hlt hwindow hj]
      exact (Prints.ok _).append hrest
    | @spurious _ j hlt hwindow hj _ hnone hbad =>
      -- the occurrence reaches behind the line: one record too many
      rw [hnone, searchLine_found hpos hlt hwindow hj]
      refine ⟨fun hgood => absurd hgood hbad, ?_⟩
      intro _ out hout
      have hle := ((Prints.ok _).append (Prints.nil _)).length_le hout
      have hrecord := printRecord_length_pos (lineno + 1) (off + j + 1) pattern.bytes
      rw [List.append_nil] at hle
      exact Nat.lt_of_lt_of_le hrecord hle
    | missed hlt hwindow hj hnone hgood =>
      obtain ⟨fuel, rfl⟩ : ∃ n, fuel = n + 1 := Nat.exists_eq_add_one.mpr (by omega)
      rw [hnone, searchLine_not_found hlt hwindow hj]
      exact ⟨fun _ => rfl, fun hbad => absurd hgood hbad⟩

end SysExploration.Fgrep
