import SysExploration.Library.Overlaps
import SysExploration.Search.StreamSearch

/-! The script `fgrep.py` prints every occurrence in every line. The program prints those that do
not overlap. -/
namespace SysExploration

/-- A text that Python reads as it is: ASCII, without a carriage return to translate. -/
structure AsciiText where
  bytes : Bytes
  ascii : ∀ c ∈ bytes, c < 128
  noReturn : 13 ∉ bytes

namespace Script

/-- The lines of a file with their newlines. -/
def fileLines : Bytes → List Bytes
  | [] => []
  | c :: rest =>
    if c = newline then [newline] :: fileLines rest
    else
      match fileLines rest with
      | [] => [[c]]
      | line :: lines => (c :: line) :: lines

def slidingWindow (line : Bytes) (windowLen : ℕ) : List (ℕ × Bytes) :=
  (List.range (line.length + 1 - windowLen)).map fun i => (i, slice line i windowLen)

/-- The numbers of the lines from `lineno` on, with the columns found in them. -/
def numbered (columns : Bytes → List ℕ) (lineno : ℕ) (lines : List Bytes) : List (ℕ × ℕ) :=
  (lines.zipIdx lineno).flatMap fun line => (columns line.1).map (line.2, ·)

/-- The generator `matches` of the second `main`, the one that is called. -/
def found (pat file : AsciiText) : List (ℕ × ℕ) :=
  numbered (fun line => ((slidingWindow line pat.bytes.length).filter (·.2 = pat.bytes)).map (·.1))
    1 (fileLines file.bytes)

/-- What the script prints. -/
def main (pat file : AsciiText) : Bytes :=
  (found pat file).flatMap fun m =>
    Fgrep.decimal m.1 ++ Fgrep.colon :: Fgrep.decimal m.2 ++ 32 :: pat.bytes ++ [newline]

variable {columns columns' : Bytes → List ℕ} {lineno : ℕ} {lines : List Bytes} {m : ℕ × ℕ}
  {p line rest : Bytes}

theorem numbered_cons (columns : Bytes → List ℕ) (lineno : ℕ) (line : Bytes) (lines : List Bytes) :
    numbered columns lineno (line :: lines) =
      (columns line).map (lineno, ·) ++ numbered columns (lineno + 1) lines := by
  rw [numbered, List.zipIdx_cons, List.flatMap_cons]
  rfl

theorem mem_numbered : m ∈ numbered columns lineno lines ↔
    ∃ line, (line, m.1) ∈ lines.zipIdx lineno ∧ m.2 ∈ columns line := by
  simp only [numbered, List.mem_flatMap, List.mem_map, Prod.exists]
  constructor
  · rintro ⟨line, n, hline, c, hc, rfl⟩
    exact ⟨line, hline, hc⟩
  · rintro ⟨line, hline, hc⟩
    exact ⟨line, m.1, hline, m.2, hc, rfl⟩

theorem numbered_sublist (h : ∀ line, (columns line).Sublist (columns' line)) :
    (numbered columns lineno lines).Sublist (numbered columns' lineno lines) := by
  induction lines generalizing lineno with
  | nil => exact List.Sublist.refl _
  | cons line lines ih =>
    rw [numbered_cons, numbered_cons]
    exact ((h line).map _).append ih

/-- Fewer columns in a line are not made up for in another one. -/
theorem numbered_eq_iff (h : ∀ line, (columns line).Sublist (columns' line)) :
    numbered columns lineno lines = numbered columns' lineno lines ↔
      ∀ line ∈ lines, columns line = columns' line := by
  induction lines generalizing lineno with
  | nil => simp [numbered]
  | cons line lines ih =>
    rw [numbered_cons, numbered_cons, List.forall_mem_cons, ← @ih (lineno + 1)]
    constructor
    · intro heq
      have hfirst := (h line).length_le
      have hsub : (numbered columns (lineno + 1) lines).Sublist
          (numbered columns' (lineno + 1) lines) := numbered_sublist h
      have hrest := hsub.length_le
      have htotal := congrArg List.length heq
      rw [List.length_append, List.length_append, List.length_map, List.length_map] at htotal
      have hlength : ((columns line).map (lineno, ·)).length =
          ((columns' line).map (lineno, ·)).length := by
        rw [List.length_map, List.length_map]
        omega
      refine ⟨(h line).eq_of_length (by omega), ?_⟩
      exact (List.append_inj heq hlength).2
    · rintro ⟨hfirst, hrest⟩
      rw [hfirst, hrest]

theorem fileLines_append_cons (h : newline ∉ line) (rest : Bytes) :
    fileLines (line ++ newline :: rest) = (line ++ [newline]) :: fileLines rest := by
  induction line with
  | nil => simp [fileLines]
  | cons c line ih =>
    rw [List.mem_cons, not_or] at h
    rw [List.cons_append, fileLines, if_neg (Ne.symm h.1), ih h.2]
    rfl

theorem fileLines_singleton (h : newline ∉ line) (hne : line ≠ []) : fileLines line = [line] := by
  induction line with
  | nil => exact absurd rfl hne
  | cons c line ih =>
    rw [List.mem_cons, not_or] at h
    rw [fileLines, if_neg (Ne.symm h.1)]
    cases line with
    | nil => rfl
    | cons d line => rw [ih h.2 (List.cons_ne_nil d line)]

/-- The newlines at the ends of the lines make no difference to what is found. -/
theorem numbered_fileLines (hp : p ≠ []) (hline : newline ∉ p) (lineno : ℕ) (b : Bytes) :
    numbered (allOccurrences p) lineno (fileLines b) =
      numbered (allOccurrences p) lineno (linesOn newline b) := by
  induction hn : b.length using Nat.strongRecOn generalizing b lineno with
  | ind n ih =>
    subst hn
    by_cases hsep : newline ∈ b
    · obtain ⟨front, rest, rfl, hfront⟩ := List.eq_append_cons_of_mem hsep
      have hshort : rest.length < (front ++ newline :: rest).length := by
        rw [List.length_append, List.length_cons]
        omega
      have hsame : allOccurrences p (front ++ [newline]) = allOccurrences p front :=
        allOccurrencesFrom_concat hp hline 0 front
      rw [fileLines_append_cons hfront, linesOn_append_cons hfront, numbered_cons, numbered_cons,
        hsame, ih rest.length hshort (lineno + 1) rest rfl]
    · by_cases hnil : b = []
      · subst hnil
        rw [linesOn_nil]
        rfl
      · rw [fileLines_singleton hsep hnil, linesOn_singleton hsep hnil]

theorem found_eq {pat file : AsciiText} (hp : pat.bytes ≠ []) (hline : newline ∉ pat.bytes) :
    found pat file = numbered (allOccurrences pat.bytes) 1 (linesOn newline file.bytes) := by
  have hcolumns (line : Bytes) :
      ((slidingWindow line pat.bytes.length).filter (·.2 = pat.bytes)).map (·.1) =
        allOccurrences pat.bytes line := by
    rw [slidingWindow, List.filter_map, List.map_map, ← filter_window]
    exact List.map_id _
  simp only [found, hcolumns]
  exact numbered_fileLines hp hline 1 file.bytes

theorem report_eq (p : Bytes) (lineno : ℕ) (lines : List Bytes) :
    Fgrep.report p lineno lines =
      (numbered (occurrences p) lineno lines).flatMap fun m =>
        Fgrep.printRecord m.1 (m.2 + 1) p := by
  induction lines generalizing lineno with
  | nil => rfl
  | cons line lines ih =>
    rw [Fgrep.report_cons, ih, numbered_cons, List.flatMap_append, List.flatMap_map]
    rfl

section

open Fgrep LineStream

variable {k : LSKernel} {ls : LineStream}

/-- For a file of ASCII text without carriage returns and a pattern of 1 to 1023 bytes of such text
without a newline. Where no search finds anything behind its line, the program prints some of the
places that the script prints, in the same order, and each of the others begins inside one of them.
It prints all of them exactly if no two occurrences in a line overlap. -/
theorem search_agrees_with_script (pattern : CString) (pat file : AsciiText)
    {pageSize : ℕ} {alloc calloc : Bool} {malloc : Malloc}
    (hk : Obliging k) (hpage : pageSize < 2 ^ 64) (hcontent : Readable file.bytes)
    (hls : LineStream.create ⟨file.bytes, []⟩ pageSize alloc calloc malloc = .ok ls)
    (hpat : pattern.bytes = pat.bytes) (hpos : pat.bytes ≠ []) (hlen : pat.bytes.length ≤ 1023)
    (hline : newline ∉ pat.bytes) (hinside : AllContained k pattern.bytes ls) :
    ∃ records : List (ℕ × ℕ),
      streamLineAndSearch k ⟨file.bytes, []⟩ pattern pageSize alloc calloc malloc =
        .ok ⟨records.flatMap fun m => printRecord m.1 (m.2 + 1) pat.bytes, "", false⟩ ∧
      records.Sublist (found pat file) ∧
      (∀ m ∈ found pat file, ∃ r ∈ records, r.1 = m.1 ∧ r.2 ≤ m.2 ∧
        m.2 < r.2 + pat.bytes.length) ∧
      (records = found pat file ↔ ∀ line ∈ linesOn newline file.bytes,
        Separate pat.bytes (allOccurrences pat.bytes line)) := by
  obtain ⟨result, hsearch, hprints⟩ := streamLineAndSearch_prints pattern hk hpage hcontent hls
    (hpat ▸ hpos) (hpat ▸ hlen)
  have hresult := hprints.eq_ok_iff.mpr hinside
  have hsub (line : Bytes) :
      (occurrences pat.bytes line).Sublist (allOccurrences pat.bytes line) :=
    occurrencesFrom_sublist 0 0 line
  refine ⟨numbered (occurrences pat.bytes) 1 (linesOn newline file.bytes), ?_, ?_, ?_, ?_⟩
  · rw [hsearch, hresult, hpat, report_eq]
    rfl
  · rw [found_eq hpos hline]
    exact numbered_sublist hsub
  · intro m hm
    rw [found_eq hpos hline, mem_numbered] at hm
    obtain ⟨line, hnumber, hcolumn⟩ := hm
    rcases covered_of_mem hpos 0 hcolumn with hnone | ⟨r, hr, hcover⟩
    · exact absurd hnone (Nat.not_lt_zero _)
    · exact ⟨(m.1, r), mem_numbered.mpr ⟨line, hnumber, hr⟩, rfl, hcover⟩
  · rw [found_eq hpos hline, numbered_eq_iff hsub]
    exact forall₂_congr fun line _ => occurrences_eq_all_iff hpos

/-- A file of one line, searched for its last byte. -/
theorem search_agrees_with_script_one : ∃ records : List (ℕ × ℕ),
    streamLineAndSearch ⟨fun _ => some 2, fun _ => some fun _ => 0, ""⟩ ⟨[98, 97, 10], []⟩
        ⟨[97], by decide⟩ 1 true true (some fun _ => 0) =
      .ok ⟨records.flatMap fun m => printRecord m.1 (m.2 + 1) [97], "", false⟩ ∧
    records = found ⟨[97], by simp, by simp⟩ ⟨[98, 97, 10], by simp, by simp⟩ := by
  have hk : Obliging ⟨fun _ => some 2, fun _ => some fun _ => 0, ""⟩ := ⟨by simp, by simp⟩
  have hcontent : Readable [98, 97, 10] := readable_of_length_le (by decide)
  have hls : LineStream.create ⟨[98, 97, 10], []⟩ 1 true true (some fun _ => 0) =
      .ok ⟨⟨[98, 97, 10], []⟩, ⟨some [0], 1, 0, 0⟩, 0⟩ := rfl
  obtain ⟨h, hpending⟩ := ready_create (by decide) hcontent hls
  have hlines : linesOn newline ([98, 97, 10] : Bytes) = [[98, 97]] := by decide
  have hinside := allContained_of_final (p := [97]) hk h (by
    rw [hpending, hlines]
    intro line hline i hi
    rw [List.mem_singleton.mp hline] at hi ⊢
    have hone : i ∈ [1] := hi
    rw [List.mem_singleton.mp hone]
    decide)
  obtain ⟨records, hout, -, -, hiff⟩ := search_agrees_with_script ⟨[97], by decide⟩
    ⟨[97], by simp, by simp⟩ ⟨[98, 97, 10], by simp, by simp⟩ hk (by decide) hcontent hls
    rfl (by decide) (by decide) (by decide) hinside
  refine ⟨records, hout, hiff.mpr ?_⟩
  rw [hlines]
  intro line hline
  rw [List.mem_singleton.mp hline]
  have hone : allOccurrences ([97] : Bytes) [98, 97] = [1] := by decide
  rw [hone]
  exact List.pairwise_singleton _ _

end

end Script
end SysExploration
