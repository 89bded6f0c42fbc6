import Mathlib.Data.List.TakeDrop
import SysExploration.Server.Model

/-! The table of watched descriptors as a list without repetitions. -/
namespace SysExploration.Fds

variable {state : Fds} {fd : ℤ}

theorem watch_full (hfull : state.capacity ≤ state.fds.length) : state.watch fd = (-1, state) := by
  rw [watch, if_pos hfull]

/-- A new descriptor is appended. -/
theorem watch_new (hroom : state.fds.length < state.capacity)
    (hnew : ∀ e ∈ state.fds, e.fd ≠ fd ∧ e.fd ≠ -fd - 1) :
    state.watch fd =
      (0, { state with fds := state.fds ++ [⟨fd, pollin ||| pollrdhup, 0⟩] }) := by
  have hany : ¬ (state.fds.any fun e => e.fd = fd ∨ e.fd = -fd - 1) = true := by
    simp only [List.any_eq_true, decide_eq_true_eq, not_exists, not_and, not_or]
    exact hnew
  rw [watch, if_neg (Nat.not_le.mpr hroom), if_neg hany]

theorem watch_cases (state : Fds) (fd : ℤ) :
    (state.watch fd).2 = state ∨ (state.watch fd).2 =
      { state with fds := state.fds ++ [⟨fd, pollin ||| pollrdhup, 0⟩] } := by
  unfold watch
  split_ifs
  · exact .inl rfl
  · exact .inl rfl
  · exact .inr rfl

/-- Removing an entry puts the last one in its place: what is in front of it stays, what is
behind it stays up to the order. -/
theorem unwatch_split {front back : List Pollfd} {e : Pollfd}
    (hfds : state.fds = front ++ e :: back) (hfront : ∀ e' ∈ front, e'.fd ≠ e.fd) :
    ∃ back', back'.Perm back ∧ state.unwatch e.fd = (0, { state with fds := front ++ back' }) := by
  have hidx : state.fds.findIdx? (fun e' => decide (e'.fd = e.fd)) = some front.length := by
    rw [hfds, List.findIdx?_eq_some_iff_getElem]
    refine ⟨by simp, by simp, fun j hj => ?_⟩
    rw [List.getElem_append_left hj]
    simpa using hfront _ (List.getElem_mem hj)
  rcases List.eq_nil_or_concat' back with rfl | ⟨rest, last, rfl⟩
  · refine ⟨[], .refl _, ?_⟩
    have hlast : state.fds.getLast? = some e := by rw [hfds, List.getLast?_concat]
    have hset : (state.fds.set front.length e).dropLast = front ++ [] := by
      rw [hfds, List.set_append_right _ _ (Nat.le_refl _), Nat.sub_self, List.set_cons_zero,
        List.dropLast_concat, List.append_nil]
    simp only [unwatch, hidx, hlast, hset]
  · refine ⟨last :: rest, (List.perm_append_singleton last rest).symm, ?_⟩
    rw [← List.cons_append, ← List.append_assoc] at hfds
    have hlast : state.fds.getLast? = some last := by rw [hfds, List.getLast?_concat]
    have hset : (state.fds.set front.length last).dropLast = front ++ last :: rest := by
      rw [hfds, List.append_assoc, List.set_append_right _ _ (Nat.le_refl _), Nat.sub_self,
        List.cons_append, List.set_cons_zero, ← List.cons_append, ← List.append_assoc,
        List.dropLast_concat]
    simp only [unwatch, hidx, hlast, hset]

/-- In a table without repetitions the descriptors left are the others. -/
theorem unwatch_fds {e : Pollfd} (hnodup : (state.fds.map Pollfd.fd).Nodup) (he : e ∈ state.fds) :
    ((state.unwatch e.fd).2.fds.map Pollfd.fd).Perm ((state.fds.map Pollfd.fd).erase e.fd) := by
  obtain ⟨front, back, hfds⟩ := List.append_of_mem he
  have hmiddle : (state.fds.map Pollfd.fd).Perm (e.fd :: (front ++ back).map Pollfd.fd) := by
    rw [hfds, List.map_append, List.map_append, List.map_cons]
    exact List.perm_middle
  have hnew := (List.nodup_cons.mp (hmiddle.nodup_iff.mp hnodup)).1
  have hfront : ∀ e' ∈ front, e'.fd ≠ e.fd := by
    intro e' hmem heq
    exact hnew (heq ▸ List.mem_map_of_mem (List.mem_append_left _ hmem))
  obtain ⟨back', hback, hunwatch⟩ := unwatch_split hfds hfront
  have herase := hmiddle.erase e.fd
  rw [List.erase_cons_head] at herase
  rw [hunwatch]
  exact ((hback.append_left front).map Pollfd.fd).trans herase.symm

/-- Removing another entry than the first leaves the first in its place. -/
theorem unwatch_cons {e₀ e : Pollfd} {rest : List Pollfd} (hfds : state.fds = e₀ :: rest)
    (hnodup : (state.fds.map Pollfd.fd).Nodup) (he : e ∈ rest) :
    ∃ rest', (state.unwatch e.fd).2.fds = e₀ :: rest' ∧ rest' ⊆ rest := by
  obtain ⟨front, back, rfl⟩ := List.append_of_mem he
  have hsplit : state.fds = (e₀ :: front) ++ e :: back := hfds
  have hfront : ∀ e' ∈ e₀ :: front, e'.fd ≠ e.fd := by
    intro e' hmem
    rw [hsplit, List.map_append, List.nodup_append] at hnodup
    exact hnodup.2.2 _ (List.mem_map_of_mem hmem) _ (List.mem_map_of_mem List.mem_cons_self)
  obtain ⟨back', hback, hunwatch⟩ := unwatch_split hsplit hfront
  refine ⟨front ++ back', by rw [hunwatch]; rfl, ?_⟩
  intro e' hmem
  rcases List.mem_append.mp hmem with hmem | hmem
  · exact List.mem_append_left _ hmem
  · exact List.mem_append_right _ (List.mem_cons_of_mem _ (hback.mem_iff.mp hmem))

/-- Behind the entry it is called for, removing a descriptor takes the last entry away,
whichever of the entries in front is the one that is overwritten. -/
theorem drop_unwatch {i : ℕ} {e : Pollfd} (hi : state.fds[i]? = some e) :
    (state.unwatch e.fd).2.fds.drop (i + 1) = (state.fds.drop (i + 1)).dropLast := by
  obtain ⟨hlt, he⟩ := List.getElem?_eq_some_iff.mp hi
  have hidx := List.findIdx?_eq_some_of_exists (p := fun e' : Pollfd => decide (e'.fd = e.fd))
    ⟨e, List.mem_of_getElem? hi, by simp⟩
  have hle : state.fds.findIdx (fun e' : Pollfd => decide (e'.fd = e.fd)) ≤ i := by
    by_contra hgt
    have hnot := List.not_of_lt_findIdx (Nat.not_le.mp hgt)
    simp [he] at hnot
  have hne : state.fds ≠ [] := List.ne_nil_of_length_pos (Nat.zero_lt_of_lt hlt)
  have hlast : state.fds.getLast? = some (state.fds.getLast hne) :=
    List.getLast?_eq_some_getLast hne
  simp only [unwatch, hidx, hlast]
  rw [← List.dropLast_drop_eq_drop_dropLast, List.drop_set_of_lt (by omega)]

@[simp] theorem poll_fds (state : Fds) (revents : ℕ → BitVec 16) :
    (state.poll revents).fds.map Pollfd.fd = state.fds.map Pollfd.fd := by
  apply List.ext_getElem (by simp [poll])
  intro i hi hi'
  simp [poll]

end SysExploration.Fds
