import SysExploration.Library.Runs
import SysExploration.Library.Transfers
import SysExploration.Machine

/-! `cat`, and what of its input reaches the standard output. -/
namespace SysExploration

/-- The system call that comes next, with the variable that lives around it. -/
inductive CatPhase where
  | openFile
  | readFile
  | write (readBytesSize : ℕ)
  | exited (status : ℕ)
  deriving DecidableEq, Repr

structure Cat where
  /-- How much of the input has been read. -/
  offset : ℕ
  readBuffer : Bytes
  stdout : Bytes
  /-- What each `write` was offered and took. No call reads this record. -/
  exchanges : List Transfer
  /-- The calls `perror` reported. -/
  perrors : List String
  phase : CatPhase
  deriving DecidableEq, Repr

namespace Cat

/-- `PAGE_SIZE` -/
def pageSize : ℕ := 4096

def dash : UInt8 := 45

/-- `main` with one argument, in front of its first system call. A name that begins with a dash
stands for the standard input. -/
def start (argv1 : Bytes) (garbage : ℕ → UInt8) : Cat where
  offset := 0
  readBuffer := block pageSize garbage
  stdout := []
  exchanges := []
  perrors := []
  phase := if argv1.head? = some dash then .readFile else .openFile

/-- The rest of `main`, one system call at a time; `none` when it has exited. The answer of a
call is `none` for -1, and for `read` and `write` how many bytes it moves, as far as there are
any. What `write` returns is not looked at. -/
def step (content : Bytes) (s : Cat) (answer : Option ℕ) : Option Cat :=
  match s.phase, answer with
  | .openFile, some _ => some { s with phase := .readFile }
  | .openFile, none => some { s with perrors := s.perrors ++ ["open"], phase := .exited 1 }
  | .readFile, some n =>
    let readBytesSize := min (max 1 n) (min (pageSize - 1) (content.length - s.offset))
    if readBytesSize = 0 then some { s with phase := .exited 0 }
    else some { s with
      offset := s.offset + readBytesSize
      readBuffer := overwrite s.readBuffer 0 (slice content s.offset readBytesSize)
      phase := .write readBytesSize }
  | .readFile, none => some { s with perrors := s.perrors ++ ["read"], phase := .exited 1 }
  | .write readBytesSize, some n =>
    let written := Transfer.upTo readBytesSize (max 1 n)
    some { s with
      stdout := s.stdout ++ s.readBuffer.take written.taken
      exchanges := s.exchanges ++ [written]
      readBuffer := List.replicate pageSize 0
      phase := .readFile }
  | .write readBytesSize, none => some { s with
      exchanges := s.exchanges ++ [.upTo readBytesSize 0]
      readBuffer := List.replicate pageSize 0
      phase := .readFile }
  | .exited _, _ => none

def Steps (content : Bytes) (s : Cat) (answer : Option ℕ) (s' : Cat) : Prop :=
  step content s answer = some s'

open Transfer

variable {content : Bytes} {source : ℕ → UInt8} {s s' t : Cat} {answer : Option ℕ} {size : ℕ}

/-- What a call can do. The exit with status 0 is taken at the end of the input. -/
inductive Effect (content : Bytes) (s : Cat) : Cat → Prop
  | moved (perrors : List String) (phase : CatPhase) : (∀ n, s.phase ≠ .write n) →
      (∀ n, phase ≠ .write n) → (phase = .exited 0 → content.length ≤ s.offset) →
      Effect content s { s with perrors := perrors, phase := phase }
  | fetched (n : ℕ) : s.phase = .readFile → s.offset + n ≤ content.length →
      Effect content s { s with
        offset := s.offset + n
        readBuffer := overwrite s.readBuffer 0 (slice content s.offset n)
        phase := .write n }
  | offered (n k : ℕ) : s.phase = .write n → Effect content s { s with
      stdout := s.stdout ++ s.readBuffer.take (upTo n k).taken
      exchanges := s.exchanges ++ [upTo n k]
      readBuffer := List.replicate pageSize 0
      phase := .readFile }

theorem Steps.effect (h : Steps content s answer s') : Effect content s s' := by
  unfold Steps step at h
  split at h
  · next hphase =>
    cases h
    exact .moved s.perrors .readFile (by simp [hphase]) (by simp) (by simp)
  · next hphase =>
    cases h
    exact .moved _ (.exited 1) (by simp [hphase]) (by simp) (by simp)
  · next n hphase =>
    dsimp only at h
    split_ifs at h with heof
    · cases h
      have hend : content.length ≤ s.offset := by
        simp only [pageSize] at heof
        omega
      exact .moved s.perrors (.exited 0) (by simp [hphase]) (by simp) fun _ => hend
    · cases h
      exact .fetched _ hphase (by omega)
  · next hphase =>
    cases h
    exact .moved _ (.exited 1) (by simp [hphase]) (by simp) (by simp)
  · next readBytesSize n hphase =>
    cases h
    exact .offered readBytesSize (max 1 n) hphase
  · next readBytesSize hphase =>
    cases h
    have heffect : Effect content s _ := .offered readBytesSize 0 hphase
    simpa [upTo] using heffect
  · cases h

/-- How many bytes of the buffer are to be written. -/
def pending (s : Cat) : ℕ :=
  match s.phase with
  | .write readBytesSize => readBytesSize
  | _ => 0

theorem pending_of_write {n : ℕ} (h : s.phase = .write n) : s.pending = n := by
  rw [pending, h]

theorem pending_of_ne (h : ∀ n, s.phase ≠ .write n) : s.pending = 0 := by
  unfold pending
  split
  · next n hphase => exact absurd hphase (h n)
  · rfl

/-- A file of this size with the bytes `source 0, source 1, ..`. -/
def fileOf (source : ℕ → UInt8) (size : ℕ) : Bytes := (List.range size).map source

@[simp] theorem length_fileOf : (fileOf source size).length = size := by simp [fileOf]

theorem exists_fileOf (content : Bytes) : ∃ source, content = fileOf source content.length := by
  apply Exists.intro fun i => content.getD i 0
  apply List.ext_getElem (by simp)
  intro i hi hi'
  simp [fileOf, hi]

theorem slice_fileOf {i n : ℕ} (h : i + n ≤ size) :
    slice (fileOf source size) i n = (List.range' i n).map source := by
  apply List.ext_getElem (by rw [length_slice (by simpa using h)]; simp)
  intro k hk hk'
  simp [slice, fileOf]

/-- The buffer holds the bytes read last, what was written is what the calls took, and an exit
with status 0 finds nothing left to read. -/
structure Consistent (source : ℕ → UInt8) (size : ℕ) (s : Cat) : Prop where
  relayed : Relayed source s.offset s.exchanges (s.readBuffer.take s.pending) s.stdout
  length : (s.readBuffer.take s.pending).length = s.pending
  offset_le : s.offset ≤ size
  eof : s.phase = .exited 0 → s.offset = size

theorem start_phase (argv1 : Bytes) (garbage : ℕ → UInt8) :
    (start argv1 garbage).phase = .readFile ∨ (start argv1 garbage).phase = .openFile := by
  unfold start
  split_ifs
  · exact .inl rfl
  · exact .inr rfl

theorem consistent_start (argv1 : Bytes) (garbage : ℕ → UInt8) :
    Consistent source size (start argv1 garbage) := by
  have hphase := start_phase argv1 garbage
  have hpending : (start argv1 garbage).pending = 0 := by
    apply pending_of_ne
    rcases hphase with h | h <;> simp [h]
  constructor
  · rw [hpending]
    exact .start source
  · rw [hpending]
    rfl
  · exact Nat.zero_le size
  · rcases hphase with h | h <;> simp [h]

/-- Every call keeps what the state says about the bytes. -/
theorem Effect.consistent (h : Consistent source size s)
    (he : Effect (fileOf source size) s s') : Consistent source size s' := by
  obtain ⟨hrelayed, hlength, hle, heof⟩ := h
  cases he with
  | moved perrors phase hphase hphase' hexit =>
    rw [pending_of_ne hphase] at hrelayed hlength
    rw [length_fileOf] at hexit
    refine ⟨?_, ?_, hle, fun hzero => Nat.le_antisymm hle (hexit hzero)⟩
    · rw [pending_of_ne hphase']
      exact hrelayed
    · rw [pending_of_ne hphase']
      exact hlength
  | fetched n hphase hn =>
    rw [length_fileOf] at hn
    have htake : (overwrite s.readBuffer 0 (slice (fileOf source size) s.offset n)).take n =
        (List.range' s.offset n).map source := by
      have hread := take_overwrite s.readBuffer ((List.range' s.offset n).map source)
      rw [List.length_map, List.length_range'] at hread
      rw [slice_fileOf hn, hread]
    rw [pending_of_ne (by simp [hphase]), List.take_zero] at hrelayed
    refine ⟨?_, ?_, hn, by simp⟩
    · rw [pending_of_write rfl, htake]
      exact hrelayed.fetch n
    · rw [pending_of_write rfl, htake, List.length_map, List.length_range']
  | offered n k hphase =>
    rw [pending_of_write hphase] at hrelayed hlength
    have hoffer := hrelayed.offer (t := upTo n k) hlength.symm
    have hle' : (upTo n k).taken ≤ n := (upTo n k).le
    rw [List.take_take, Nat.min_eq_left hle'] at hoffer
    exact ⟨hoffer, rfl, hle, by simp⟩

theorem consistent_of_run {argv1 : Bytes} {garbage : ℕ → UInt8} {answers : List (Option ℕ)}
    (hrun : Run (Steps (fileOf source size)) (start argv1 garbage) answers s) :
    Consistent source size s := by
  apply hrun.invariant (consistent_start argv1 garbage)
  intro s answer s' h hstep
  exact hstep.effect.consistent h

/-- Two runs at the same point. -/
structure Alike (s t : Cat) : Prop where
  phase : s.phase = t.phase
  offset : s.offset = t.offset
  exchanges : s.exchanges = t.exchanges

/-- What `main` does depends on the size of its input only. -/
theorem alike_step {content' : Bytes} (hsize : content'.length = content.length)
    (h : Alike s t) (hs : Steps content s answer s') :
    ∃ t', Steps content' t answer t' ∧ Alike s' t' := by
  obtain ⟨hphase, hoffset, hexchanges⟩ := h
  unfold Steps step at hs ⊢
  rw [← hphase]
  split at hs
  · cases hs
    exact ⟨_, rfl, rfl, hoffset, hexchanges⟩
  · cases hs
    exact ⟨_, rfl, rfl, hoffset, hexchanges⟩
  · rw [hsize, ← hoffset]
    dsimp only at hs ⊢
    split_ifs at hs ⊢ with heof
    · cases hs
      exact ⟨_, rfl, rfl, rfl, hexchanges⟩
    · cases hs
      exact ⟨_, rfl, rfl, rfl, hexchanges⟩
  · cases hs
    exact ⟨_, rfl, rfl, hoffset, hexchanges⟩
  · cases hs
    exact ⟨_, rfl, rfl, hoffset, by rw [hexchanges]⟩
  · cases hs
    exact ⟨_, rfl, rfl, hoffset, by rw [hexchanges]⟩
  · cases hs

end Cat

open Cat Transfer

/-- Given how much every `read` and `write` moves, `cat` writes a prefix of its input, and the
whole input if it exits with status 0, whatever the bytes of the input are, if and only if no
`write` takes bytes after one that took fewer than it was offered and, on an exit with status 0,
every `write` took all it was offered. -/
theorem cat_copies_iff {content argv1 : Bytes} {garbage : ℕ → UInt8} {answers : List (Option ℕ)}
    {s : Cat} (hrun : Run (Steps content) (start argv1 garbage) answers s) :
    (∀ content' s', content'.length = content.length →
        Run (Steps content') (start argv1 garbage) answers s' →
        s'.stdout <+: content' ∧ (s'.phase = .exited 0 → s'.stdout = content')) ↔
      Gapless s.exchanges ∧ (s.phase = .exited 0 → ∀ t ∈ s.exchanges, t.Whole) := by
  have hsame (source : ℕ → UInt8) :
      ∃ t, Run (Steps (fileOf source content.length)) (start argv1 garbage) answers t ∧
        Alike s t :=
    hrun.simulates ⟨rfl, rfl, rfl⟩ fun _ _ _ _ => alike_step length_fileOf
  choose last hlast halike using hsame
  have hconsistent (source : ℕ → UInt8) := consistent_of_run (hlast source)
  have hstdout (source : ℕ → UInt8) :
      (last source).stdout = (takenFrom 0 s.exchanges).map source := by
    rw [(halike source).exchanges]
    exact (hconsistent source).relayed.sent_eq
  have hle : total s.exchanges ≤ content.length := by
    obtain ⟨hrelayed, -, hoffset, -⟩ := hconsistent fun _ => 0
    rw [(halike fun _ => 0).exchanges]
    exact hrelayed.total_le.trans hoffset
  have hall (hzero : s.phase = .exited 0) : content.length = total s.exchanges := by
    obtain ⟨hrelayed, hlength, -, heof⟩ := hconsistent fun _ => 0
    rw [(halike fun _ => 0).phase] at hzero
    rw [pending_of_ne (by simp [hzero])] at hrelayed hlength
    rw [← heof hzero, hrelayed.fetched, hlength, (halike fun _ => 0).exchanges]
    rfl
  have : Nontrivial UInt8 := ⟨0, 1, by decide⟩
  rw [← forall_sent_prefix_iff hstdout hle, ← forall_sent_eq_iff hstdout]
  constructor
  · intro h
    have hspec (source : ℕ → UInt8) := h _ _ length_fileOf (hlast source)
    refine ⟨fun source => (hspec source).1, fun hzero source => ?_⟩
    rw [← hall hzero]
    exact (hspec source).2 ((halike source).phase ▸ hzero)
  · rintro ⟨hfront, hwhole⟩ content' s' hsize hrun'
    obtain ⟨source, hsource⟩ := exists_fileOf content'
    rw [hsize] at hsource
    subst hsource
    obtain rfl := hrun'.unique
      (fun _ _ _ _ ht ht' => Option.some.inj (ht.symm.trans ht')) (hlast source)
    refine ⟨hfront source, fun hzero => ?_⟩
    rw [← (halike source).phase] at hzero
    rw [hall hzero]
    exact hwhole hzero source

/-- The input `abc` is read in two parts, and one byte of the first is written. -/
theorem cat_copies_iff_abc :
    ∃ s, Run (Steps [97, 98, 99]) (start [102] fun _ => 0)
        [some 3, some 2, some 1, some 1, some 1, some 1] s ∧ s.phase = .exited 0 ∧
      ((∀ content' s', content'.length = 3 →
          Run (Steps content') (start [102] fun _ => 0)
            [some 3, some 2, some 1, some 1, some 1, some 1] s' →
          s'.stdout <+: content' ∧ (s'.phase = .exited 0 → s'.stdout = content')) ↔
        Gapless s.exchanges ∧ (s.phase = .exited 0 → ∀ t ∈ s.exchanges, t.Whole)) := by
  obtain ⟨s, hrun, hphase⟩ : ∃ s, Run (Steps [97, 98, 99]) (start [102] fun _ => 0)
      [some 3, some 2, some 1, some 1, some 1, some 1] s ∧ s.phase = .exited 0 :=
    ⟨_, Run.of_foldlM_some rfl, rfl⟩
  exact ⟨s, hrun, hphase, cat_copies_iff hrun⟩

/-- There `ac` is written, and `cat` exits with status 0. -/
theorem cat_skips_byte :
    ∃ s, Run (Steps [97, 98, 99]) (start [102] fun _ => 0)
        [some 3, some 2, some 1, some 1, some 1, some 1] s ∧
      s.phase = .exited 0 ∧ s.stdout = [97, 99] ∧ ¬ s.stdout <+: [97, 98, 99] :=
  ⟨_, Run.of_foldlM_some rfl, rfl, rfl, by decide⟩

end SysExploration
