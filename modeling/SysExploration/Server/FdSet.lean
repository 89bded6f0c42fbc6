import Mathlib.Data.Finset.Card
import SysExploration.Library.Runs
import SysExploration.Server.FdTable

/-! The table of watched descriptors as a bounded set, over whole runs. Removing an entry moves
the last one, so it is the set that is kept and not the order; only the first entry stays. -/
namespace SysExploration

/-- The calls on the table, with non-negative descriptors; `ppoll` stores in it between them. -/
inductive FdCall where
  | watch (fd : ℕ)
  | unwatch (fd : ℕ)
  | poll (revents : ℕ → BitVec 16)

def Fds.call (table : Fds) : FdCall → ℤ × Fds
  | .watch fd => table.watch fd
  | .unwatch fd => table.unwatch fd
  | .poll revents => (0, table.poll revents)

/-- At most `c` descriptors. -/
structure FdSet (c : ℕ) where
  fds : Finset ℕ
  bound : fds.card ≤ c

namespace FdSet

variable {c : ℕ}

def empty (c : ℕ) : FdSet c := ⟨∅, Nat.zero_le c⟩

/-- A full set takes nothing, not even a descriptor that it has. -/
def watch (set : FdSet c) (fd : ℕ) : ℤ × FdSet c :=
  if hroom : set.fds.card < c then
    (0, ⟨insert fd set.fds, (Finset.card_insert_le fd set.fds).trans hroom⟩)
  else (-1, set)

def unwatch (set : FdSet c) (fd : ℕ) : ℤ × FdSet c :=
  (0, ⟨set.fds.erase fd, Finset.card_erase_le.trans set.bound⟩)

def call (set : FdSet c) : FdCall → ℤ × FdSet c
  | .watch fd => set.watch fd
  | .unwatch fd => set.unwatch fd
  | .poll _ => (0, set)

end FdSet

namespace Fds

variable {c : ℕ} {state : Fds} {set : FdSet c}

/-- The descriptors of the table are those of the set, each once. -/
structure Represents (c : ℕ) (state : Fds) (set : FdSet c) : Prop where
  capacity : state.capacity = c
  fds : (state.fds.map Pollfd.fd).Perm (set.fds.toList.map (Nat.cast : ℕ → ℤ))

theorem represents_empty (c : ℕ) : Represents c ⟨c, []⟩ (.empty c) := by
  refine ⟨rfl, ?_⟩
  simp [FdSet.empty]

theorem Represents.length_eq (h : Represents c state set) :
    state.fds.length = set.fds.card := by
  have hlength := h.fds.length_eq
  rwa [List.length_map, List.length_map, Finset.length_toList] at hlength

theorem Represents.nodup (h : Represents c state set) : (state.fds.map Pollfd.fd).Nodup :=
  h.fds.nodup_iff.mpr (set.fds.nodup_toList.map Nat.cast_injective)

theorem Represents.mem_iff (h : Represents c state set) {fd : ℤ} :
    fd ∈ state.fds.map Pollfd.fd ↔ ∃ n ∈ set.fds, (n : ℤ) = fd := by
  rw [h.fds.mem_iff, List.mem_map]
  simp only [Finset.mem_toList]

theorem Represents.mem_cast_iff (h : Represents c state set) {n : ℕ} :
    (n : ℤ) ∈ state.fds.map Pollfd.fd ↔ n ∈ set.fds := by
  rw [h.mem_iff]
  constructor
  · rintro ⟨m, hm, heq⟩
    exact Int.ofNat_inj.mp heq ▸ hm
  · intro hn
    exact ⟨n, hn, rfl⟩

/-- No complement of a descriptor is in the table. -/
theorem Represents.nonneg (h : Represents c state set) {e : Pollfd} (he : e ∈ state.fds) :
    0 ≤ e.fd := by
  obtain ⟨n, -, hn⟩ := h.mem_iff.mp (List.mem_map_of_mem he)
  exact hn ▸ Int.natCast_nonneg n

theorem unwatch_absent {fd : ℤ} (hfd : fd ∉ state.fds.map Pollfd.fd) :
    state.unwatch fd = (0, state) := by
  have hidx : state.fds.findIdx? (fun e => decide (e.fd = fd)) = none := by
    rw [List.findIdx?_eq_none_iff]
    intro e he
    apply decide_eq_false
    intro heq
    exact hfd (heq ▸ List.mem_map_of_mem he)
  simp only [unwatch, hidx]

/-- The entries left are the others, as they were. -/
theorem unwatch_perm (hnodup : (state.fds.map Pollfd.fd).Nodup) (fd : ℤ) :
    (state.unwatch fd).2.fds.Perm (state.fds.filter fun e => e.fd ≠ fd) := by
  by_cases hfd : fd ∈ state.fds.map Pollfd.fd
  · obtain ⟨e, he, rfl⟩ := List.mem_map.mp hfd
    obtain ⟨front, back, hfds⟩ := List.append_of_mem he
    have hne : ∀ e' ∈ front ++ back, e'.fd ≠ e.fd := by
      intro e' hmem heq
      rw [hfds, List.map_append, List.map_cons] at hnodup
      have hnew := (List.nodup_cons.mp (List.perm_middle.nodup_iff.mp hnodup)).1
      rw [← List.map_append] at hnew
      exact hnew (heq ▸ List.mem_map_of_mem hmem)
    have hothers : state.fds.filter (fun e' => e'.fd ≠ e.fd) = front ++ back := by
      rw [hfds, List.filter_append, List.filter_cons_of_neg (by simp), ← List.filter_append]
      exact List.filter_eq_self.mpr fun e' hmem => by simpa using hne e' hmem
    obtain ⟨back', hback, hunwatch⟩ :=
      unwatch_split hfds fun e' hmem => hne e' (List.mem_append_left _ hmem)
    rw [hothers, hunwatch]
    exact hback.append_left front
  · rw [unwatch_absent hfd]
    have hall : state.fds.filter (fun e => e.fd ≠ fd) = state.fds := by
      apply List.filter_eq_self.mpr
      intro e he
      apply decide_eq_true
      intro heq
      exact hfd (heq ▸ List.mem_map_of_mem he)
    rw [hall]

/-- A descriptor that is in the table, and counted once, is what is removed. -/
theorem length_unwatch (hnodup : (state.fds.map Pollfd.fd).Nodup) (fd : ℤ) :
    (state.unwatch fd).2.fds.length + (if fd ∈ state.fds.map Pollfd.fd then 1 else 0) =
      state.fds.length := by
  split_ifs with hfd
  · obtain ⟨e, he, rfl⟩ := List.mem_map.mp hfd
    have hlength := (unwatch_fds hnodup he).length_eq
    have hpos := List.length_pos_of_mem he
    rw [List.length_map, List.length_erase_of_mem hfd, List.length_map] at hlength
    omega
  · rw [unwatch_absent hfd, Nat.add_zero]

theorem Represents.watch (h : Represents c state set) (fd : ℕ) :
    (state.watch fd).1 = (set.watch fd).1 ∧ Represents c (state.watch fd).2 (set.watch fd).2 := by
  have hlength := h.length_eq
  by_cases hroom : set.fds.card < c
  · have hroom' : state.fds.length < state.capacity := by rwa [hlength, h.capacity]
    rw [FdSet.watch, dif_pos hroom]
    by_cases hmem : fd ∈ set.fds
    · have hany : (state.fds.any fun e => e.fd = fd ∨ e.fd = -fd - 1) = true := by
        obtain ⟨e, he, heq⟩ := List.mem_map.mp (h.mem_cast_iff.mpr hmem)
        exact List.any_eq_true.mpr ⟨e, he, decide_eq_true (.inl heq)⟩
      rw [Fds.watch, if_neg (Nat.not_le.mpr hroom'), if_pos hany]
      refine ⟨rfl, h.capacity, ?_⟩
      simp only [Finset.insert_eq_self.mpr hmem]
      exact h.fds
    · have hnew : ∀ e ∈ state.fds, e.fd ≠ fd ∧ e.fd ≠ -fd - 1 := by
        intro e he
        have hnonneg := h.nonneg he
        constructor
        · intro heq
          exact hmem (h.mem_cast_iff.mp (heq ▸ List.mem_map_of_mem he))
        · omega
      rw [watch_new hroom' hnew]
      refine ⟨rfl, h.capacity, ?_⟩
      have hinsert := (Finset.toList_insert hmem).map (Nat.cast : ℕ → ℤ)
      rw [List.map_append, List.map_cons, List.map_nil]
      exact (List.perm_append_singleton _ _).trans ((h.fds.cons _).trans hinsert.symm)
  · have hfull : state.capacity ≤ state.fds.length := by
      rw [hlength, h.capacity]
      exact Nat.not_lt.mp hroom
    rw [FdSet.watch, dif_neg hroom, watch_full hfull]
    exact ⟨rfl, h⟩

theorem Represents.unwatch (h : Represents c state set) (fd : ℕ) :
    (state.unwatch fd).1 = (set.unwatch fd).1 ∧
      Represents c (state.unwatch fd).2 (set.unwatch fd).2 := by
  by_cases hmem : fd ∈ set.fds
  · obtain ⟨e, he, heq⟩ := List.mem_map.mp (h.mem_cast_iff.mpr hmem)
    obtain ⟨front, back, hfds⟩ := List.append_of_mem he
    have hpos : (state.unwatch fd).1 = 0 ∧ (state.unwatch fd).2.capacity = c := by
      unfold Fds.unwatch
      split
      · exact ⟨rfl, h.capacity⟩
      · exact ⟨rfl, h.capacity⟩
    refine ⟨hpos.1, hpos.2, ?_⟩
    have herase := unwatch_fds h.nodup he
    rw [heq] at herase
    have hsplit := (Finset.toList_insert (Finset.notMem_erase fd set.fds)).map (Nat.cast : ℕ → ℤ)
    rw [Finset.insert_erase hmem, List.map_cons] at hsplit
    have hrest := (h.fds.trans hsplit).erase (fd : ℤ)
    rw [List.erase_cons_head] at hrest
    exact herase.trans hrest
  · rw [unwatch_absent (mt h.mem_cast_iff.mp hmem)]
    refine ⟨rfl, h.capacity, ?_⟩
    simp only [FdSet.unwatch, Finset.erase_eq_of_notMem hmem]
    exact h.fds

theorem Represents.call (h : Represents c state set) (call : FdCall) :
    (state.call call).1 = (set.call call).1 ∧ Represents c (state.call call).2 (set.call call).2 := by
  cases call with
  | watch fd => exact h.watch fd
  | unwatch fd => exact h.unwatch fd
  | poll revents => exact ⟨rfl, h.capacity, (state.poll_fds revents).symm ▸ h.fds⟩

/-- The first entry is of this descriptor. -/
def Heads (first : ℕ) (state : Fds) : Prop := ∃ e rest, state.fds = e :: rest ∧ e.fd = first

/-- The first entry stays in its place while its descriptor is not removed. -/
theorem Represents.heads (h : Represents c state set) {first : ℕ} (hfirst : state.Heads first)
    {call : FdCall} (hcall : call ≠ .unwatch first) : (state.call call).2.Heads first := by
  obtain ⟨e, rest, hfds, heq⟩ := hfirst
  cases call with
  | watch fd =>
    rcases state.watch_cases fd with hsame | hnew
    · exact ⟨e, rest, by rw [Fds.call, hsame, hfds], heq⟩
    · exact ⟨e, _, by rw [Fds.call, hnew, hfds]; rfl, heq⟩
  | unwatch fd =>
    have hne : fd ≠ first := fun heq => hcall (congrArg FdCall.unwatch heq)
    by_cases hfd : (fd : ℤ) ∈ state.fds.map Pollfd.fd
    · obtain ⟨e', he', heq'⟩ := List.mem_map.mp hfd
      have hrest : e' ∈ rest := by
        rw [hfds] at he'
        rcases List.mem_cons.mp he' with rfl | hmem
        · exact absurd (Int.ofNat_inj.mp (heq'.symm.trans heq)) hne
        · exact hmem
      obtain ⟨rest', hrest', -⟩ := unwatch_cons hfds h.nodup hrest
      rw [heq'] at hrest'
      exact ⟨e, rest', hrest', heq⟩
    · exact ⟨e, rest, by rw [Fds.call, unwatch_absent hfd, hfds], heq⟩
  | poll revents =>
    have hpoll : (state.call (.poll revents)).2.fds = { e with revents := revents 0 } ::
        rest.mapIdx fun i e => { e with revents := revents (i + 1) } := by
      rw [Fds.call, Fds.poll, hfds, List.mapIdx_cons]
    exact ⟨_, _, hpoll, heq⟩

/-- The table and the set receive the same call. -/
def FdStep (c : ℕ) (p : Fds × FdSet c) (call : FdCall) (p' : Fds × FdSet c) : Prop :=
  p'.1 = (p.1.call call).2 ∧ p'.2 = (p.2.call call).2

/-- What makes the table a set: it has the descriptors of the set, each once and never too
many, its calls reply as those of the set, a rejected `watch` changes nothing, and an `unwatch`
leaves the other entries as they were. -/
structure IsFdSet (c : ℕ) (state : Fds) (set : FdSet c) : Prop where
  length_le : state.fds.length ≤ state.capacity
  capacity : state.capacity = c
  distinct : (state.fds.map Pollfd.fd).Nodup
  members : ∀ fd : ℤ, fd ∈ state.fds.map Pollfd.fd ↔ ∃ n ∈ set.fds, (n : ℤ) = fd
  replies : ∀ call, (state.call call).1 = (set.call call).1
  rejected : ∀ fd : ℕ, (state.watch fd).1 = -1 →
    state.fds.length = state.capacity ∧ (state.watch fd).2 = state
  others : ∀ fd : ℕ, (state.unwatch fd).2.fds.Perm (state.fds.filter fun e => e.fd ≠ fd)
  removed : ∀ fd : ℕ, (state.unwatch fd).2.fds.length +
    (if (fd : ℤ) ∈ state.fds.map Pollfd.fd then 1 else 0) = state.fds.length

theorem Represents.isFdSet (h : Represents c state set) : IsFdSet c state set := by
  have hlength : state.fds.length ≤ state.capacity := by
    rw [h.length_eq, h.capacity]
    exact set.bound
  refine ⟨hlength, h.capacity, h.nodup, fun fd => h.mem_iff, fun call => (h.call call).1, ?_,
    fun fd => unwatch_perm h.nodup fd, fun fd => length_unwatch h.nodup fd⟩
  intro fd hrv
  by_cases hroom : state.fds.length < state.capacity
  · rw [Fds.watch, if_neg (Nat.not_le.mpr hroom)] at hrv
    split_ifs at hrv
  · have hfull := Nat.not_lt.mp hroom
    exact ⟨Nat.le_antisymm hlength hfull, by rw [watch_full hfull]⟩

theorem represents_of_run {start p : Fds × FdSet c} {calls : List FdCall}
    (hstart : Represents c start.1 start.2) (hrun : Run (FdStep c) start calls p) :
    Represents c p.1 p.2 := by
  apply hrun.invariant (I := fun p => Represents c p.1 p.2) hstart
  rintro p call p' h ⟨hstate, hset⟩
  rw [hstate, hset]
  exact (h.call call).2

/-- Until the first `watch` the table is empty. -/
theorem unwatched_of_run {p : Fds × FdSet c} {calls : List FdCall}
    (hrun : Run (FdStep c) (⟨c, []⟩, .empty c) calls p) (hnone : ∀ fd, .watch fd ∉ calls) :
    p.1 = ⟨c, []⟩ := by
  induction hrun with
  | nil => rfl
  | @snoc calls call p p' _ hstep ih =>
    have hempty : p.1 = ⟨c, []⟩ :=
      ih fun fd hmem => hnone fd (List.mem_append_left _ hmem)
    rw [hstep.1, hempty]
    cases call with
    | watch fd => exact absurd (List.mem_append_right _ List.mem_cons_self) (hnone fd)
    | unwatch fd => rfl
    | poll revents => rfl

theorem heads_of_run {start p : Fds × FdSet c} {calls : List FdCall} {first : ℕ}
    (hstart : Represents c start.1 start.2) (hfirst : start.1.Heads first)
    (hrun : Run (FdStep c) start calls p) (hkept : .unwatch first ∉ calls) :
    p.1.Heads first := by
  induction hrun with
  | nil => exact hfirst
  | @snoc calls call p p' hr hstep ih =>
    have hheads := ih fun hmem => hkept (List.mem_append_left _ hmem)
    have hcall : call ≠ .unwatch first := by
      rintro rfl
      exact hkept (List.mem_append_right _ List.mem_cons_self)
    rw [hstep.1]
    exact (represents_of_run hstart hr).heads hheads hcall

/-- In every state that calls on an empty table lead to, the table is the set of the
descriptors that were watched and not unwatched since. While the first one watched is not
unwatched it has the first entry. -/
theorem fd_table_is_set (hcap : 1 ≤ c) {calls : List FdCall}
    (hrun : Run (FdStep c) (⟨c, []⟩, .empty c) calls (state, set)) :
    IsFdSet c state set ∧ ∀ pre first post, calls = pre ++ .watch first :: post →
      (∀ fd, .watch fd ∉ pre) → .unwatch first ∉ post → state.Heads first := by
  refine ⟨(represents_of_run (represents_empty c) hrun).isFdSet, ?_⟩
  rintro pre first post rfl hnone hkept
  obtain ⟨p, hpre, hrest⟩ := hrun.of_append
  rcases hrest.cases_head with ⟨hnil, -⟩ | ⟨call, js, p', hcons, hstep, hpost⟩
  · cases hnil
  obtain ⟨rfl, rfl⟩ := List.cons.inj hcons
  have hrepresents := represents_of_run (represents_empty c) (hpre.snoc hstep)
  refine heads_of_run hrepresents ?_ hpost hkept
  have hroom : (⟨c, []⟩ : Fds).fds.length < (⟨c, []⟩ : Fds).capacity := hcap
  have hwatch : Fds.watch ⟨c, []⟩ first = _ := watch_new hroom (by simp)
  rw [hstep.1, unwatched_of_run hpre hnone, call, hwatch]
  exact ⟨_, [], rfl, rfl⟩

/-- Runs can be computed. -/
theorem run_of_calls (calls : List FdCall) (p : Fds × FdSet c) :
    Run (FdStep c) p calls
      (calls.foldl (fun p call => ((p.1.call call).2, (p.2.call call).2)) p) := by
  induction calls generalizing p with
  | nil => exact .nil
  | cons call calls ih =>
    have hfirst : FdStep c p call ((p.1.call call).2, (p.2.call call).2) := ⟨rfl, rfl⟩
    exact (Run.single hfirst).trans (ih _)

/-- Two entries, one of them removed and its place taken, behind the first. -/
theorem fd_table_is_set_two :
    ∃ state set, Run (FdStep 2) (⟨2, []⟩, .empty 2)
        [.watch 3, .watch 7, .unwatch 7, .watch 8, .watch 9] (state, set) ∧
      IsFdSet 2 state set ∧ state.Heads 3 := by
  have hrun : Run (FdStep 2) (⟨2, []⟩, .empty 2)
      [.watch 3, .watch 7, .unwatch 7, .watch 8, .watch 9] _ :=
    run_of_calls _ _
  obtain ⟨hset, hfirst⟩ := fd_table_is_set (by decide) hrun
  exact ⟨_, _, hrun, hset, hfirst [] 3 _ rfl (by simp) (by simp)⟩

end Fds
end SysExploration
