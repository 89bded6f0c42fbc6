import SysExploration.Tail.Following

/-! What is printed of a file that is truncated and written again. The follower goes back to
the front of the file if it finds the file shorter than its offset, so what is written behind a
truncation is printed unless the file grows back to the offset before the follower looks. -/
namespace SysExploration.Tail

variable {s s' : Tail} {e : TailEvent} {old : Bytes}

/-- The file is shorter than the offset of the follower, which has not found out. -/
def Unaware (s : Tail) : Prop :=
  s.file.length < s.offset ∧ ¬ s.Noticed ∧ s.phase ≠ .exited

/-- A file does not grow back to the offset of a follower that has not found out. -/
def StaysShort (s : Tail) : TailEvent → Prop
  | .append bytes => s.Unaware → s.file.length + bytes.length < s.offset
  | _ => True

/-- What was read of the file as it is now has been printed last and behind the output `old`, up
to what is being written. -/
structure Tracks (old : Bytes) (s : Tail) : Prop where
  started : s.Started
  running : s.returnedIdx ≠ none
  behind : old <+: s.stdout
  printed : s.offset ≤ s.file.length → ¬ s.Noticed → s.phase ≠ .exited →
    s.file.take s.offset <:+ s.stdout.drop old.length ++ s.unwritten

theorem Tracks.not_starting (h : s.Tracks old) : ¬ s.Starting :=
  fun hs => h.running (h.started.starting hs).2

/-- Steps that neither read nor write. -/
theorem Tracks.kept (h : s.Tracks old) (hphase : s.phase ≠ .exited) (hstarted : s'.Started)
    (hfile : s'.file = s.file) (hoffset : s'.offset = s.offset) (hstdout : s'.stdout = s.stdout)
    (hidx : s'.returnedIdx = s.returnedIdx) (hunwritten : s'.unwritten = s.unwritten)
    (hnoticed : s.Noticed → s'.Noticed) : s'.Tracks old := by
  refine ⟨hstarted, hidx ▸ h.running, hstdout ▸ h.behind, ?_⟩
  rw [hfile, hoffset, hstdout, hunwritten]
  intro hle hnot _
  exact h.printed hle (fun hn => hnot (hnoticed hn)) hphase

/-- A truncated file has been printed, and so has a file that is read from its front. -/
theorem tracks_of_front (hstarted : s.Started) (hrunning : s.returnedIdx ≠ none)
    (hbehind : old <+: s.stdout) (hfront : s.offset ≤ s.file.length → s.offset = 0) :
    s.Tracks old := by
  refine ⟨hstarted, hrunning, hbehind, ?_⟩
  intro hle _ _
  rw [hfront hle, List.take_zero]
  exact List.nil_suffix

theorem Tracks.step (h : s.Tracks old) (he : Effect s e s') (hshort : StaysShort s e) :
    s'.Tracks old := by
  have hstarted := h.started.step he
  cases he with
  | appended bytes =>
    refine ⟨hstarted, h.running, h.behind, ?_⟩
    intro hle hnot hphase
    by_cases hold : s.offset ≤ s.file.length
    · have htake : (s.append bytes).file.take s.offset = s.file.take s.offset :=
        List.take_append_of_le_length hold
      exact htake ▸ h.printed hold hnot hphase
    · have hgrown := hshort ⟨Nat.not_le.mp hold, hnot, hphase⟩
      rw [append, List.length_append] at hle
      dsimp only at hle
      omega
  | truncated =>
    exact tracks_of_front hstarted h.running h.behind fun hle => Nat.le_zero.mp hle
  | notified => exact ⟨hstarted, h.running, h.behind, h.printed⟩
  | failed => exact ⟨hstarted, h.running, h.behind, fun _ _ hphase => absurd rfl hphase⟩
  | watched hphase => exact absurd (.inl hphase) h.not_starting
  | opened hphase => exact absurd (.inr (.inl hphase)) h.not_starting
  | soughtEnd hphase => exact absurd (.inr (.inr hphase)) h.not_starting
  | cut hphase =>
    exact h.kept (by simp [hphase]) hstarted rfl rfl rfl rfl (by rw [unwritten, unwritten, hphase])
      fun _ => .inl rfl
  | uncut hphase hle =>
    refine h.kept (by simp [hphase]) hstarted rfl rfl rfl rfl (by rw [unwritten, unwritten, hphase])
      ?_
    rintro (hset | ⟨stSize, hcur, hlt⟩)
    · cases hphase.symm.trans hset
    · cases hphase.symm.trans hcur
      exact absurd hlt (Nat.not_lt.mpr hle)
  | rewound => exact tracks_of_front hstarted h.running h.behind fun _ => rfl
  | woken hphase | ignored hphase | measured hphase | drained hphase =>
    exact h.kept (by simp [hphase]) hstarted rfl rfl rfl rfl (by rw [unwritten, unwritten, hphase])
      (by simp [Noticed, hphase])
  | @filled _ n hphase hroom =>
    refine ⟨hstarted, h.running, h.behind, ?_⟩
    intro _ _ _
    have hprinted := h.printed (by omega) (by simp [Noticed, hphase]) (by simp [hphase])
    rw [unwritten, hphase, List.append_nil] at hprinted
    obtain ⟨front, hfront⟩ := hprinted
    have hsplit : s.file.take (s.offset + n) = s.file.take s.offset ++ slice s.file s.offset n :=
      List.take_add ..
    refine ⟨front, ?_⟩
    dsimp only [unwritten]
    rw [hsplit, ← List.append_assoc, hfront, List.drop_zero]
  | wrote hphase =>
    refine ⟨hstarted, h.running, h.behind.trans (List.prefix_append _ _), ?_⟩
    intro hle _ _
    have hprinted := h.printed hle (by simp [Noticed, hphase]) (by simp [hphase])
    rw [← unwritten_wrote hphase, ← List.append_assoc] at hprinted
    rw [List.drop_append_of_le_length h.behind.length_le]
    exact hprinted

/-- Behind a truncation, in a run in which the file does not grow back unnoticed, a follower
that nothing will wake has printed the whole file since then, and nothing behind it. -/
theorem tail_recovers_from_truncation {file : Bytes} {pre post : List TailEvent} {s₁ s₂ : Tail}
    (hpre : Run Steps (start file) pre s₁) (hstarted : s₁.returnedIdx ≠ none)
    (hcut : s₁.Steps .truncate s₂) (hrun : Run Steps s₂ post s)
    (hshort : Along Steps s₂ StaysShort post) (hq : s.Quiescent) :
    ∃ out, s.stdout = s₂.stdout ++ out ∧ s.file <:+ out := by
  have hawake := awake_of_run hpre
  have htruncate : s₂ = s₁.truncate := (Option.some.inj hcut).symm
  have hfront : s₂.Tracks s₂.stdout := by
    refine tracks_of_front (hawake.started.step hcut.effect) (htruncate ▸ hstarted)
      (List.prefix_refl _) ?_
    rw [htruncate]
    exact Nat.le_zero.mp
  have htracks : s.Tracks s₂.stdout := hshort.invariant hfront
    (fun _ _ _ h hshort hstep => h.step hstep.effect hshort) hrun ⟨[], (List.append_nil _).symm⟩
  have hoffset : s.offset = s.file.length :=
    (awake_of_run ((hpre.snoc hcut).trans hrun)).offset_eq hq
  have hphase := hq.phase
  have hprinted := htracks.printed hoffset.le (by simp [Noticed, hphase]) (by simp [hphase])
  rw [hoffset, List.take_length, unwritten, hphase, List.append_nil] at hprinted
  exact ⟨_, (List.prefix_iff_eq_append.mp htracks.behind).symm, hprinted⟩

/-- A file of three bytes is truncated and one byte is written before the follower looks. -/
theorem tail_recovers_from_truncation_one :
    ∃ post s, Run Steps ⟨[], 1, [], some 1, 3, some 3, .readEvent, []⟩ post s ∧ s.Quiescent ∧
      s.file = [100] ∧ ∃ out, s.stdout = [] ++ out ∧ s.file <:+ out := by
  have hpre : Run Steps (start [97, 98, 99]) [.follow (some 1), .follow (some 3), .follow (some 0)]
      ⟨[97, 98, 99], 0, [], some 1, 3, some 3, .readEvent, []⟩ := run_of_step rfl
  have hrun : Run Steps ⟨[], 1, [], some 1, 3, some 3, .readEvent, []⟩
      [.append [100], .notify false, .notify true, .follow (some 16), .follow (some 0),
        .follow (some 0), .follow (some 0), .follow (some 9), .follow (some 9), .follow (some 9)]
      ⟨[100], 0, [], some 1, 1, some 3, .readEvent, [100]⟩ := run_of_step rfl
  have hshort : Along Steps ⟨[], 1, [], some 1, 3, some 3, .readEvent, []⟩ StaysShort
      [.append [100], .notify false, .notify true, .follow (some 16), .follow (some 0),
        .follow (some 0), .follow (some 0), .follow (some 9), .follow (some 9),
        .follow (some 9)] := by
    intro pre e post s he hr
    rcases pre with _ | ⟨first, pre⟩
    · obtain ⟨rfl, -⟩ := List.cons.inj he
      rcases hr.cases_head with ⟨-, rfl⟩ | ⟨i, js, t, hnil, -, -⟩
      · intro _
        decide
      · cases hnil
    · -- no other step of this run is a write
      have hrest : e ∈ [.notify false, .notify true, .follow (some 16), .follow (some 0),
          .follow (some 0), .follow (some 0), .follow (some 9), .follow (some 9),
          TailEvent.follow (some 9)] := by
        rw [(List.cons.inj he).2]
        simp
      cases e with
      | append bytes => simp at hrest
      | truncate => trivial
      | notify merge => trivial
      | follow answer => trivial
  have hq : Quiescent ⟨[100], 0, [], some 1, 1, some 3, .readEvent, [100]⟩ := ⟨rfl, rfl, rfl⟩
  exact ⟨_, _, hrun, hq, rfl,
    tail_recovers_from_truncation hpre (by decide) rfl hrun hshort hq⟩

/-- The file grows back to the offset before the follower looks at it: both events find it as
long as it was, and nothing of the new content is ever printed. -/
theorem regrown_file_not_printed :
    ∃ post s, Run Steps (start [97, 98, 99]) [.follow (some 1), .follow (some 3), .follow (some 0)]
        ⟨[97, 98, 99], 0, [], some 1, 3, some 3, .readEvent, []⟩ ∧
      Steps ⟨[97, 98, 99], 0, [], some 1, 3, some 3, .readEvent, []⟩ .truncate
        ⟨[], 1, [], some 1, 3, some 3, .readEvent, []⟩ ∧
      Run Steps ⟨[], 1, [], some 1, 3, some 3, .readEvent, []⟩ post s ∧ s.Quiescent ∧
      s.file = [100, 101, 102] ∧ ¬ s.file.Sublist s.stdout := by
  have hrun : Run Steps ⟨[], 1, [], some 1, 3, some 3, .readEvent, []⟩
      [.append [100, 101, 102], .notify false, .follow (some 16), .follow (some 0),
        .follow (some 0), .follow (some 9), .notify false, .follow (some 16), .follow (some 0),
        .follow (some 0), .follow (some 9)]
      ⟨[100, 101, 102], 0, [], some 1, 3, some 3, .readEvent, []⟩ := run_of_step rfl
  exact ⟨_, _, run_of_step rfl, rfl, hrun, ⟨rfl, rfl, rfl⟩, rfl, by decide⟩

end SysExploration.Tail
