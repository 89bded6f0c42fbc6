import SysExploration.Tail.Wakeups

/-! What is printed of a file that is only appended to. -/
namespace SysExploration.Tail

variable {s s' : Tail} {e : TailEvent} {is : List TailEvent}

/-- What was read and is not written yet. -/
def unwritten (s : Tail) : Bytes :=
  match s.phase with
  | .writing buf bytesWritten => buf.drop bytesWritten
  | _ => []

/-- What was printed and is about to be is what stands between the offset found at start-up
and the offset reached. -/
structure Copies (s : Tail) : Prop where
  started : s.Started
  le : s.offset ≤ s.file.length
  seen : ∀ stSize, s.phase = .seekCur stSize → s.offset ≤ stSize
  unset : s.phase ≠ .seekSet
  copied : ∀ idx, s.returnedIdx = some idx → idx ≤ s.offset ∧
    ∃ left, s.stdout ++ left = slice s.file idx (s.offset - idx) ∧
      (s.phase ≠ .exited → left = s.unwritten)

/-- A write moves bytes from the buffer to the output. -/
theorem slice_append_drop (buf : Bytes) (i n : ℕ) :
    slice buf i n ++ buf.drop (i + n) = buf.drop i := by
  rw [slice, ← List.drop_drop, List.take_append_drop]

/-- Appending leaves what was read as it is. -/
theorem slice_append_left {l t : Bytes} {i n : ℕ} (h : i + n ≤ l.length) :
    slice (l ++ t) i n = slice l i n := by
  rw [slice, List.drop_append_of_le_length (by omega),
    List.take_append_of_le_length (by rw [List.length_drop]; omega), slice]

theorem unwritten_wrote {buf : Bytes} {i n : ℕ} {stdout : Bytes}
    (hphase : s.phase = .writing buf i) :
    slice buf i n ++ unwritten { s with
      stdout := stdout
      phase := if i + n < buf.length then .writing buf (i + n) else .readFile } = s.unwritten := by
  have hold : s.unwritten = buf.drop i := by rw [unwritten, hphase]
  rw [hold, ← slice_append_drop buf i n, unwritten]
  dsimp only
  split_ifs with hmore
  · rfl
  · rw [List.drop_of_length_le (Nat.not_lt.mp hmore)]

/-- Steps that neither read nor write. -/
theorem Copies.kept (h : s.Copies) (hphase : s.unwritten = []) (hexited : s.phase ≠ .exited)
    (hstarted : s'.Started) (hfile : s'.file = s.file) (hoffset : s'.offset = s.offset)
    (hstdout : s'.stdout = s.stdout) (hidx : s'.returnedIdx = s.returnedIdx)
    (hseen : ∀ stSize, s'.phase = .seekCur stSize → s'.offset ≤ stSize)
    (hunset : s'.phase ≠ .seekSet) (hunwritten : s'.unwritten = []) : s'.Copies := by
  refine ⟨hstarted, by rw [hfile, hoffset]; exact h.le, hseen, hunset, ?_⟩
  intro idx hsome
  obtain ⟨hle, left, hcopied, hleft⟩ := h.copied idx (hidx ▸ hsome)
  rw [hleft hexited, hphase] at hcopied
  rw [hoffset, hfile, hstdout, hunwritten]
  exact ⟨hle, [], hcopied, fun _ => rfl⟩

theorem Copies.step (h : s.Copies) (he : Effect s e s') (happend : e ≠ .truncate) : s'.Copies := by
  have hstarted := h.started.step he
  cases he with
  | appended bytes =>
    have hlonger := Nat.le_add_right s.file.length bytes.length
    refine ⟨hstarted, ?_, h.seen, h.unset, ?_⟩
    · rw [append, List.length_append]
      exact h.le.trans hlonger
    · intro idx hidx
      obtain ⟨hle, left, hcopied, hleft⟩ := h.copied idx hidx
      refine ⟨hle, left, ?_, hleft⟩
      have hend := h.le
      rw [append, slice_append_left (by dsimp only; omega)]
      exact hcopied
  | truncated => exact absurd rfl happend
  | notified => exact ⟨hstarted, h.le, h.seen, h.unset, h.copied⟩
  | failed =>
    refine ⟨hstarted, h.le, nofun, nofun, ?_⟩
    intro idx hidx
    obtain ⟨hle, left, hcopied, -⟩ := h.copied idx hidx
    exact ⟨hle, left, hcopied, fun hphase => absurd rfl hphase⟩
  | opened hphase =>
    have hoffset := (h.started.starting (.inr (.inl hphase))).1
    exact h.kept (by rw [unwritten, hphase]) (by simp [hphase]) hstarted rfl hoffset.symm rfl rfl
      nofun nofun rfl
  | soughtEnd hphase =>
    have hidle := (h.started.idle (h.started.starting (.inr (.inr hphase))).2).2
    refine ⟨hstarted, Nat.le_refl _, nofun, nofun, ?_⟩
    intro idx hidx
    obtain rfl := Option.some.inj hidx
    refine ⟨Nat.le_refl _, [], ?_, fun _ => rfl⟩
    dsimp only
    rw [hidle, Nat.sub_self, slice_zero]
    rfl
  | measured hphase =>
    refine h.kept (by rw [unwritten, hphase]) (by simp [hphase]) hstarted rfl rfl rfl rfl ?_
      nofun rfl
    intro stSize hcur
    cases hcur
    exact h.le
  | cut hphase hlt => exact absurd (h.seen _ hphase) (Nat.not_le.mpr hlt)
  | rewound hphase => exact absurd hphase h.unset
  | watched hphase | woken hphase | ignored hphase | uncut hphase | drained hphase =>
    exact h.kept (by rw [unwritten, hphase]) (by simp [hphase]) hstarted rfl rfl rfl rfl nofun
      nofun rfl
  | @filled _ n hphase hroom =>
    have hnone : s.unwritten = [] := by rw [unwritten, hphase]
    refine ⟨hstarted, hroom, nofun, nofun, ?_⟩
    intro idx hidx
    obtain ⟨hle, left, hcopied, hleft⟩ := h.copied idx hidx
    rw [hleft (by simp [hphase]), hnone, List.append_nil] at hcopied
    refine ⟨Nat.le_add_right_of_le hle, slice s.file s.offset n, ?_, fun _ => rfl⟩
    have hsplit := slice_add s.file idx (s.offset - idx) n
    rw [Nat.add_sub_cancel' hle, ← hcopied] at hsplit
    have hlength : s.offset + n - idx = s.offset - idx + n := by omega
    dsimp only
    rw [hlength, hsplit]
  | wrote hphase =>
    refine ⟨hstarted, h.le, ?_, ?_, ?_⟩
    · intro stSize hcur
      dsimp only at hcur
      split_ifs at hcur
    · dsimp only
      split_ifs <;> nofun
    · intro idx hidx
      obtain ⟨hle, left, hcopied, hleft⟩ := h.copied idx hidx
      rw [hleft (by simp [hphase]), ← unwritten_wrote hphase, ← List.append_assoc] at hcopied
      exact ⟨hle, _, hcopied, fun _ => rfl⟩

end SysExploration.Tail
