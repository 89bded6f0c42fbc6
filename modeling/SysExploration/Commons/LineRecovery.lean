import SysExploration.Commons.LineReading

/-! Calls of `next` that are made again after a read or an allocation failed. A call that
fails leaves the pending bytes as they are, in whichever round it fails. -/
namespace SysExploration.LineStream

variable {k : LSKernel} {ls ls' : LineStream} {content : Bytes}

/-- The results after which the caller simply calls again. -/
def retried : Except LSError Bytes → Bool
  | .ok _ => false
  | .error e => e.code = .readFailed || e.code = .allocFailed

/-- What the caller is left with. -/
def kept (results : List (Except LSError Bytes)) : List (Except LSError Bytes) :=
  results.filter fun r => !retried r

theorem Refusal.retried {e : LSError} (h : Refusal e) : retried (.error e) = true := by
  rcases h.1 with hcode | hcode <;> simp [LineStream.retried, hcode]

theorem retried_expected (pending : Bytes) (i : ℕ) : retried (expected pending i) = false := by
  unfold expected
  cases (linesOn newline pending)[i]? <;> rfl

theorem expected_ne_commitFailed (pending : Bytes) (i : ℕ) :
    expected pending i ≠ .error commitFailed := by
  intro h
  have hretried := retried_expected pending i
  rw [h] at hretried
  cases hretried

/-- The results kept are those of a stream without failures, and every call made in vain is
owed to a failure of its own. -/
structure Recovers (k : LSKernel) (ls : LineStream) (results : List (Except LSError Bytes))
    (ls' : LineStream) : Prop where
  kept : kept results = (List.range (kept results).length).map (expected ls.pending)
  committed : .error commitFailed ∉ results
  failures : Readable ls.pending → failures k ls + results.countP retried ≤ failures k ls'

theorem Recovers.delivered {r : ResultString} {ls₁ : LineStream}
    {results : List (Except LSError Bytes)} (h : Recovers k ls₁ results ls')
    (hdelivered : Delivered ls.pending r ls₁) (hsuffix : ls₁.pending <:+ ls.pending)
    (hle : LineStream.failures k ls ≤ LineStream.failures k ls₁) :
    Recovers k ls (expected ls.pending 0 :: results) ls' := by
  have hkept : LineStream.kept (expected ls.pending 0 :: results) =
      expected ls.pending 0 :: LineStream.kept results := by
    simp [LineStream.kept, retried_expected]
  refine ⟨?_, ?_, ?_⟩
  · rw [hkept, List.length_cons, hdelivered.map_expected, ← h.kept]
  · rw [List.mem_cons, not_or]
    exact ⟨(expected_ne_commitFailed _ _).symm, h.committed⟩
  · intro hreadable
    have hrest := h.failures (hreadable.of_suffix hsuffix)
    rw [List.countP_cons, retried_expected]
    simp only [Bool.false_eq_true, if_false]
    omega

theorem Recovers.refused {e : LSError} {ls₁ : LineStream}
    {results : List (Except LSError Bytes)} (h : Recovers k ls₁ results ls')
    (hrefusal : Refusal e) (hsame : ls₁.pending = ls.pending)
    (hlt : Readable ls.pending → LineStream.failures k ls < LineStream.failures k ls₁) :
    Recovers k ls (.error e :: results) ls' := by
  have hkept : LineStream.kept (.error e :: results) = LineStream.kept results := by
    simp [LineStream.kept, hrefusal.retried]
  refine ⟨?_, ?_, ?_⟩
  · rw [hkept, ← hsame]
    exact h.kept
  · rw [List.mem_cons, not_or]
    exact ⟨fun heq => hrefusal.2 (Except.error.inj heq).symm, h.committed⟩
  · intro hreadable
    have hrest := h.failures (hsame ▸ hreadable)
    have hless := hlt hreadable
    rw [List.countP_cons, hrefusal.retried, if_pos rfl]
    omega

/-- The calls return, however many of them fail. -/
theorem Scanned.nextAll_recovers (k : LSKernel) (h : ls.Scanned 0) (n : ℕ) :
    ∃ results ls', nextAll k n ls = .ok (results, ls') ∧ results.length = n ∧
      Recovers k ls results ls' := by
  induction n generalizing ls with
  | zero => exact ⟨[], ls, rfl, rfl, rfl, List.not_mem_nil, fun _ => Nat.le_refl _⟩
  | succ n ih =>
    obtain ⟨r, ls₁, hnext, hcall, h₁⟩ := h.next_effect (k := k)
    obtain ⟨results, ls', hrest, hlength, hrecovers⟩ := ih h₁
    cases hcall with
    | delivered hdelivered hsuffix hle =>
      exact ⟨_, ls', hdelivered.nextAll_succ hnext hrest, congrArg Nat.succ hlength,
        hrecovers.delivered hdelivered hsuffix hle⟩
    | @refused e _ hrefusal hsame _ hlt =>
      refine ⟨.error e :: results, ls', ?_, congrArg Nat.succ hlength,
        hrecovers.refused hrefusal hsame hlt⟩
      rw [nextAll, hnext]
      simp only [bind, Except.bind, hrest]

/-- Where no result asks for another call, the results are those expected. -/
theorem Recovers.eq_expected {results : List (Except LSError Bytes)}
    (h : Recovers k ls results ls') (hnone : ∀ r ∈ results, retried r = false) :
    results = (List.range results.length).map (expected ls.pending) := by
  have hkept : LineStream.kept results = results :=
    List.filter_eq_self.mpr fun r hr => by rw [hnone r hr, Bool.not_false]
  have hexpected := h.kept
  rwa [hkept] at hexpected

/-- A caller that calls again after each failed read or allocation is left with the results of
as many calls none of which fails. No commit fails, and unless a line is too long for any
buffer there are no more repetitions than failures. -/
theorem retries_lose_nothing {pageSize : ℕ} {alloc calloc : Bool} {malloc : Malloc}
    (hpage : pageSize < 2 ^ 64)
    (hls : create ⟨content, []⟩ pageSize alloc calloc malloc = .ok ls) (k : LSKernel) (n : ℕ) :
    ∃ results ls', nextAll k n ls = .ok (results, ls') ∧ .error commitFailed ∉ results ∧
      (∀ k₀ results₀ ls₀, nextAll k₀ (kept results).length ls = .ok (results₀, ls₀) →
        (∀ r ∈ results₀, retried r = false) → kept results = results₀) ∧
      (Readable content → results.countP retried ≤ failures k ls') := by
  obtain ⟨h, hpending⟩ := scanned_create hpage hls
  obtain ⟨results, ls', hall, -, hrecovers⟩ := h.nextAll_recovers k n
  refine ⟨results, ls', hall, hrecovers.committed, ?_, ?_⟩
  · intro k₀ results₀ ls₀ hall₀ hnone
    obtain ⟨results₁, ls₁, hall₁, hlength, hrecovers₀⟩ :=
      h.nextAll_recovers k₀ (kept results).length
    obtain ⟨rfl, rfl⟩ := Prod.mk.inj (Except.ok.inj (hall₁.symm.trans hall₀))
    rw [hrecovers.kept, hrecovers₀.eq_expected hnone, hlength]
  · intro hreadable
    exact (Nat.le_add_left _ _).trans (hrecovers.failures (hpending.symm ▸ hreadable))

theorem countP_range_le {p : ℕ → Bool} {m : ℕ} (h : ∀ i, p i → i < m) (n : ℕ) :
    (List.range n).countP p ≤ m := by
  induction n with
  | zero => exact Nat.zero_le m
  | succ n ih =>
    rw [List.range_succ, List.countP_append, List.countP_singleton]
    split_ifs with hp
    · have hle := List.countP_le_length (p := p) (l := List.range n)
      rw [List.length_range] at hle
      have hlt := h n hp
      omega
    · exact ih

/-- The first two allocations fail, and so does the second read. -/
def faltering : LSKernel :=
  ⟨fun i => if i = 1 then none else some 1, fun i => if i < 2 then none else some fun _ => 0,
    "I/O error"⟩

/-- Eight calls for a file of two lines, which is read byte by byte. -/
theorem retries_lose_nothing_two :
    ∃ ls results ls', create ⟨[97, 10, 98], []⟩ 2 true true (some fun _ => 0) = .ok ls ∧
      nextAll faltering 8 ls = .ok (results, ls') ∧ .error commitFailed ∉ results ∧
      (kept results).take 3 = [.ok [97], .ok [98], .error endOfFile] := by
  have hpage : 2 < 2 ^ 64 := by decide
  have hcontent : Readable [97, 10, 98] := readable_of_length_le (by decide)
  have hls : create ⟨[97, 10, 98], []⟩ 2 true true (some fun _ => 0) =
      .ok ⟨⟨[97, 10, 98], []⟩, ⟨some [0, 0], 2, 0, 0⟩, 0⟩ := rfl
  obtain ⟨results, ls', hall, hcommitted, hkept, hfailures⟩ :=
    retries_lose_nothing hpage hls faltering 8
  -- the results of calls that read one byte each and do not fail
  have hk₀ : Obliging ⟨fun _ => some 1, fun _ => some fun _ => 0, ""⟩ := ⟨by simp, by simp⟩
  obtain ⟨h, hpending⟩ := ready_create hpage hcontent hls
  obtain ⟨ls₀, hall₀, -⟩ := h.nextAll_spec hk₀ (kept results).length
  have hsame := hkept _ _ ls₀ hall₀ (by
    simp only [List.forall_mem_map]
    exact fun i _ => retried_expected _ i)
  have hlength : results.length = 8 := by
    obtain ⟨results', _, hall', hlength, -⟩ :=
      (scanned_create hpage hls).1.nextAll_recovers faltering 8
    obtain ⟨rfl, -⟩ := Prod.mk.inj (Except.ok.inj (hall.symm.trans hall'))
    exact hlength
  have hfew : failures faltering ls' ≤ 2 + 2 := by
    apply Nat.add_le_add
    · apply countP_range_le
      intro i hi
      simp [faltering] at hi
      omega
    · apply countP_range_le
      intro i hi
      simpa [faltering] using hi
  have hmany : 3 ≤ (kept results).length := by
    have hsplit := List.length_eq_countP_add_countP retried (l := results)
    have hle := hfailures hcontent
    have hkept : (kept results).length = results.countP fun r => ¬ retried r := by
      simp [kept, List.countP_eq_length_filter]
    omega
  refine ⟨_, results, ls', hls, hall, hcommitted, ?_⟩
  rw [hsame, ← List.map_take, List.take_range, Nat.min_eq_left hmany, hpending]
  rfl

end SysExploration.LineStream
