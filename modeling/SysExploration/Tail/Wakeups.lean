import SysExploration.Library.Runs
import SysExploration.Tail.Model

/-! When the follower is woken. A change that the follower has not looked at is announced, or
the follower is about to look. -/
namespace SysExploration.Tail

variable {s s' : Tail} {e : TailEvent} {is : List TailEvent}

/-- What a step does. -/
inductive Effect (s : Tail) : TailEvent → Tail → Prop
  | appended (bytes : Bytes) : Effect s (.append bytes) (s.append bytes)
  | truncated : Effect s .truncate s.truncate
  | notified {merge : Bool} {n : ℕ} {queue : List InotifyEvent} : s.announcing = n + 1 →
      (∀ ine ∈ queue, ine ∈ s.queue ∨ some ine.wd = s.inotifyWd) →
      (s.inotifyWd ≠ none → queue ≠ []) →
      Effect s (.notify merge) { s with announcing := n, queue := queue }
  | failed {answer : Option ℕ} : Effect s (.follow answer) { s with phase := .exited }
  | watched {wd : ℕ} : s.phase = .addWatch →
      Effect s (.follow (some wd)) { s with inotifyWd := some wd, phase := .openFile }
  | opened {answer : Option ℕ} : s.phase = .openFile →
      Effect s (.follow answer) { s with offset := 0, phase := .seekEnd }
  | soughtEnd {answer : Option ℕ} : s.phase = .seekEnd →
      Effect s (.follow answer) { s with
        offset := s.file.length, returnedIdx := some s.file.length, phase := .readEvent }
  | woken {answer : Option ℕ} {ine : InotifyEvent} {queue : List InotifyEvent} :
      s.phase = .readEvent → s.queue = ine :: queue → some ine.wd = s.inotifyWd →
      Effect s (.follow answer) { s with queue := queue, phase := .fstat }
  | ignored {answer : Option ℕ} {ine : InotifyEvent} {queue : List InotifyEvent} :
      s.phase = .readEvent → s.queue = ine :: queue → some ine.wd ≠ s.inotifyWd →
      Effect s (.follow answer) { s with queue := queue, phase := .readEvent }
  | measured {answer : Option ℕ} : s.phase = .fstat →
      Effect s (.follow answer) { s with phase := .seekCur s.file.length }
  | cut {answer : Option ℕ} {stSize : ℕ} : s.phase = .seekCur stSize → stSize < s.offset →
      Effect s (.follow answer) { s with phase := .seekSet }
  | uncut {answer : Option ℕ} {stSize : ℕ} : s.phase = .seekCur stSize → s.offset ≤ stSize →
      Effect s (.follow answer) { s with phase := .readFile }
  | rewound {answer : Option ℕ} : s.phase = .seekSet →
      Effect s (.follow answer) { s with offset := 0, phase := .readFile }
  | drained {answer : Option ℕ} : s.phase = .readFile → s.file.length ≤ s.offset →
      Effect s (.follow answer) { s with phase := .readEvent }
  | filled {answer : Option ℕ} {n : ℕ} : s.phase = .readFile → s.offset + n ≤ s.file.length →
      Effect s (.follow answer)
        { s with offset := s.offset + n, phase := .writing (slice s.file s.offset n) 0 }
  | wrote {answer : Option ℕ} {buf : Bytes} {bytesWritten n : ℕ} :
      s.phase = .writing buf bytesWritten →
      Effect s (.follow answer) { s with
        stdout := s.stdout ++ slice buf bytesWritten n
        phase := if bytesWritten + n < buf.length then .writing buf (bytesWritten + n)
          else .readFile }

theorem effect_of_follow {answer : Option ℕ} (h : s.follow answer = some s') :
    Effect s (.follow answer) s' := by
  unfold follow at h
  split at h
  · cases h
  · next hphase =>
    cases h
    exact .watched hphase
  · next hphase =>
    cases h
    exact .opened hphase
  · next hphase =>
    cases h
    exact .soughtEnd hphase
  · next hphase =>
    split at h
    · cases h
    · next hqueue =>
      cases h
      split_ifs with hwd
      · exact .woken hphase hqueue hwd
      · exact .ignored hphase hqueue hwd
  · next hphase =>
    cases h
    exact .measured hphase
  · next hphase =>
    cases h
    split_ifs with hcut
    · exact .cut hphase hcut
    · exact .uncut hphase (Nat.not_lt.mp hcut)
  · next hphase =>
    cases h
    exact .rewound hphase
  · next n hphase =>
    dsimp only at h
    split_ifs at h with hnone
    · cases h
      exact .drained hphase (by simp only [pageSize] at hnone; omega)
    · cases h
      exact .filled hphase (by omega)
  · next hphase =>
    cases h
    exact .wrote hphase
  · cases h
    exact .failed

theorem effect_of_notify {merge : Bool} (h : s.notify merge = some s') :
    Effect s (.notify merge) s' := by
  unfold notify at h
  split at h
  · cases h
  · next hannouncing =>
    split at h
    · next hwd =>
      cases h
      exact .notified hannouncing (fun _ => .inl) fun hwatched => absurd hwd hwatched
    · next wd hwd =>
      split_ifs at h with hmerge
      · cases h
        exact .notified hannouncing (fun _ => .inl) fun _ => List.ne_nil_of_mem hmerge.2
      · cases h
        refine .notified hannouncing ?_ fun _ => by simp
        intro ine hine
        rcases List.mem_append.mp hine with hold | hnew
        · exact .inl hold
        · rw [List.mem_singleton.mp hnew, hwd]
          exact .inr rfl

theorem Steps.effect (h : s.Steps e s') : Effect s e s' := by
  cases e with
  | append bytes =>
    obtain rfl := Option.some.inj h
    exact .appended bytes
  | truncate =>
    obtain rfl := Option.some.inj h
    exact .truncated
  | notify merge => exact effect_of_notify h
  | follow answer => exact effect_of_follow h

/-- Runs can be computed. -/
theorem run_of_step (h : is.foldlM step s = some s') : Run Steps s is s' := Run.of_foldlM_some h

/-- An event is queued, or a change is about to queue one. -/
def Announced (s : Tail) : Prop := s.queue ≠ [] ∨ 0 < s.announcing

/-- The follower is blocked, and nothing will wake it unless the file changes. -/
structure Quiescent (s : Tail) : Prop where
  phase : s.phase = .readEvent
  queue : s.queue = []
  announcing : s.announcing = 0

/-- The follower has seen that the file is shorter than its offset. -/
def Noticed (s : Tail) : Prop :=
  s.phase = .seekSet ∨ ∃ stSize, s.phase = .seekCur stSize ∧ stSize < s.offset

/-- The phases in front of the loop. -/
def Starting (s : Tail) : Prop :=
  s.phase = .addWatch ∨ s.phase = .openFile ∨ s.phase = .seekEnd

/-- In the loop the file is watched and every event is one of this watch. -/
structure Started (s : Tail) : Prop where
  unwatched : s.phase = .addWatch → s.inotifyWd = none
  watched : s.inotifyWd = none → s.phase = .addWatch ∨ s.phase = .exited
  queued : ∀ ine ∈ s.queue, some ine.wd = s.inotifyWd
  starting : s.Starting → s.offset = 0 ∧ s.returnedIdx = none
  idle : s.returnedIdx = none → (s.Starting ∨ s.phase = .exited) ∧ s.stdout = []

theorem started_start (file : Bytes) : (start file).Started :=
  ⟨fun _ => rfl, fun _ => .inl rfl, nofun, fun _ => ⟨rfl, rfl⟩, fun _ => ⟨.inl (.inl rfl), rfl⟩⟩

theorem Started.watching (h : s.Started) (hfirst : s.phase ≠ .addWatch)
    (hphase : s.phase ≠ .exited) : s.inotifyWd ≠ none := by
  intro hwd
  rcases h.watched hwd with haddWatch | hexited
  · exact hfirst haddWatch
  · exact hphase hexited

theorem Started.inside (h : s.Started) (hstarting : ¬ s.Starting) (hphase : s.phase ≠ .exited) :
    s.inotifyWd ≠ none ∧ s.returnedIdx ≠ none := by
  refine ⟨h.watching (fun hfirst => hstarting (.inl hfirst)) hphase, ?_⟩
  intro hidx
  rcases (h.idle hidx).1 with hfirst | hexited
  · exact hstarting hfirst
  · exact hphase hexited

theorem started_of_loop (hstarting : ¬ s.Starting) (hwd : s.inotifyWd ≠ none)
    (hidx : s.returnedIdx ≠ none) (hqueue : ∀ ine ∈ s.queue, some ine.wd = s.inotifyWd) :
    s.Started :=
  ⟨fun h => absurd (.inl h) hstarting, fun h => absurd h hwd, hqueue,
    fun h => absurd h hstarting, fun h => absurd h hidx⟩

/-- A step of the loop stays in the loop. -/
theorem Started.loop (h : s.Started) (hstarting : ¬ s.Starting) (hphase : s.phase ≠ .exited)
    (hwd : s'.inotifyWd = s.inotifyWd) (hidx : s'.returnedIdx = s.returnedIdx)
    (hqueue : s'.queue <:+ s.queue) (hstarting' : ¬ s'.Starting) : s'.Started := by
  obtain ⟨hwatched, hstarted⟩ := h.inside hstarting hphase
  refine started_of_loop hstarting' (hwd ▸ hwatched) (hidx ▸ hstarted) ?_
  intro ine hine
  rw [hwd]
  exact h.queued ine (hqueue.subset hine)

theorem Started.step (h : s.Started) (he : Effect s e s') : s'.Started := by
  cases he with
  | appended => exact ⟨h.unwatched, h.watched, h.queued, h.starting, h.idle⟩
  | truncated => exact ⟨h.unwatched, h.watched, h.queued, h.starting, h.idle⟩
  | notified _ hqueue =>
    refine ⟨h.unwatched, h.watched, ?_, h.starting, h.idle⟩
    intro ine hine
    rcases hqueue ine hine with hold | hnew
    · exact h.queued ine hold
    · exact hnew
  | failed =>
    exact ⟨nofun, fun _ => .inr rfl, h.queued, fun h => by simp [Starting] at h,
      fun hidx => ⟨.inr rfl, (h.idle hidx).2⟩⟩
  | watched hphase =>
    refine ⟨nofun, nofun, ?_, fun _ => h.starting (.inl hphase),
      fun hidx => ⟨.inl (.inr (.inl rfl)), (h.idle hidx).2⟩⟩
    intro ine hine
    have hwd := h.queued ine hine
    rw [h.unwatched hphase] at hwd
    cases hwd
  | opened hphase =>
    have hwatched := h.watching (by simp [hphase]) (by simp [hphase])
    exact ⟨nofun, fun hwd => absurd hwd hwatched, h.queued,
      fun _ => ⟨rfl, (h.starting (.inr (.inl hphase))).2⟩,
      fun hidx => ⟨.inl (.inr (.inr rfl)), (h.idle hidx).2⟩⟩
  | soughtEnd hphase =>
    have hwatched := h.watching (by simp [hphase]) (by simp [hphase])
    exact started_of_loop (by simp [Starting]) hwatched nofun h.queued
  | woken hphase hqueue | ignored hphase hqueue =>
    exact h.loop (by simp [Starting, hphase]) (by simp [hphase]) rfl rfl
      (hqueue ▸ List.suffix_cons _ _) (by simp [Starting])
  | measured hphase | cut hphase | uncut hphase | rewound hphase | drained hphase
  | filled hphase =>
    exact h.loop (by simp [Starting, hphase]) (by simp [hphase]) rfl rfl List.suffix_rfl
      (by simp [Starting])
  | wrote hphase =>
    refine h.loop (by simp [Starting, hphase]) (by simp [hphase]) rfl rfl List.suffix_rfl ?_
    dsimp only [Starting]
    split_ifs <;> simp

/-- The follower either knows the length of the file or will be woken to look at it. -/
structure Awake (s : Tail) : Prop where
  started : s.Started
  unread : s.phase = .readEvent → s.offset ≠ s.file.length → s.Announced
  short : s.file.length < s.offset →
    s.Announced ∨ s.phase = .fstat ∨ s.Noticed ∨ s.phase = .exited

theorem awake_start (file : Bytes) : (start file).Awake :=
  ⟨started_start file, nofun, fun h => absurd h (Nat.not_lt_zero _)⟩

/-- A follower that is not about to look at the file will be woken. -/
theorem Awake.announced (h : s.Awake) (hshort : s.file.length < s.offset)
    (hfstat : s.phase ≠ .fstat) (hnoticed : ¬ s.Noticed) (hphase : s.phase ≠ .exited) :
    s.Announced := by
  rcases h.short hshort with hannounced | hlooks | hlooked | hexited
  · exact hannounced
  · exact absurd hlooks hfstat
  · exact absurd hlooked hnoticed
  · exact absurd hexited hphase

theorem Awake.step (h : s.Awake) (he : Effect s e s') : s'.Awake := by
  have hstarted := h.started.step he
  cases he with
  | appended bytes =>
    have hannounced : (s.append bytes).Announced := .inr (Nat.succ_pos s.announcing)
    exact ⟨hstarted, fun _ _ => hannounced, fun _ => .inl hannounced⟩
  | truncated =>
    have hannounced : s.truncate.Announced := .inr (Nat.succ_pos s.announcing)
    exact ⟨hstarted, fun _ _ => hannounced, fun _ => .inl hannounced⟩
  | notified hannouncing _ hnonempty =>
    refine ⟨hstarted, ?_, ?_⟩
    · intro hphase _
      have hphase : s.phase = .readEvent := hphase
      exact .inl (hnonempty (h.started.inside (by simp [Starting, hphase]) (by simp [hphase])).1)
    · intro hshort
      by_cases hexited : s.phase = .exited
      · exact .inr (.inr (.inr hexited))
      · have hstarting : ¬ s.Starting := by
          intro hs
          have hoffset := (h.started.starting hs).1
          dsimp only at hshort
          omega
        exact .inl (.inl (hnonempty (h.started.inside hstarting hexited).1))
  | failed => exact ⟨hstarted, nofun, fun _ => .inr (.inr (.inr rfl))⟩
  | watched hphase =>
    refine ⟨hstarted, nofun, ?_⟩
    intro hshort
    have hoffset := (h.started.starting (.inl hphase)).1
    dsimp only at hshort
    omega
  | opened => exact ⟨hstarted, nofun, fun hshort => absurd hshort (Nat.not_lt_zero _)⟩
  | soughtEnd =>
    exact ⟨hstarted, fun _ hne => absurd rfl hne, fun hshort => absurd hshort (Nat.lt_irrefl _)⟩
  | woken => exact ⟨hstarted, nofun, fun _ => .inr (.inl rfl)⟩
  | ignored hphase hqueue hwd =>
    exact absurd (h.started.queued _ (hqueue ▸ List.mem_cons_self)) hwd
  | measured => exact ⟨hstarted, nofun, fun hshort => .inr (.inr (.inl (.inr ⟨_, rfl, hshort⟩)))⟩
  | cut => exact ⟨hstarted, nofun, fun _ => .inr (.inr (.inl (.inl rfl)))⟩
  | uncut hphase hle =>
    refine ⟨hstarted, nofun, ?_⟩
    intro hshort
    have hnoticed : ¬ s.Noticed := by simp [Noticed, hphase, hle]
    exact .inl (h.announced hshort (by simp [hphase]) hnoticed (by simp [hphase]))
  | rewound => exact ⟨hstarted, nofun, fun hshort => absurd hshort (Nat.not_lt_zero _)⟩
  | drained hphase hle =>
    have hannounced (hshort : s.file.length < s.offset) : s.Announced :=
      h.announced hshort (by simp [hphase]) (by simp [Noticed, hphase]) (by simp [hphase])
    refine ⟨hstarted, ?_, fun hshort => .inl (hannounced hshort)⟩
    intro _ hne
    exact hannounced (Nat.lt_of_le_of_ne hle fun heq => hne heq.symm)
  | filled _ hle => exact ⟨hstarted, nofun, fun hshort => absurd hle (Nat.not_le.mpr hshort)⟩
  | wrote hphase =>
    refine ⟨hstarted, ?_, ?_⟩
    · intro hphase'
      dsimp only at hphase'
      split_ifs at hphase'
    · intro hshort
      exact .inl (h.announced hshort (by simp [hphase]) (by simp [Noticed, hphase])
        (by simp [hphase]))

/-- A follower that nothing will wake has read the file to its end. -/
theorem Awake.offset_eq (h : s.Awake) (hq : s.Quiescent) : s.offset = s.file.length := by
  by_contra hne
  rcases h.unread hq.phase hne with hqueue | hannouncing
  · exact hqueue hq.queue
  · exact absurd hq.announcing (Nat.ne_of_gt hannouncing)

theorem awake_of_run {file : Bytes} (hrun : Run Steps (start file) is s) : s.Awake :=
  hrun.invariant (awake_start file) fun _ _ _ h hstep => h.step hstep.effect

end SysExploration.Tail
