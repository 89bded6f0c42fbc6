import Mathlib.Data.List.TakeWhile

/-! A list cut into lines at a separator. A line is what a separator ends, or what is left
behind the last one if that is not empty. -/
namespace SysExploration

variable {α : Type*} [DecidableEq α] {sep : α} {l : List α}

/-- The pieces between separators, without a last piece that is empty. -/
def linesOn (sep : α) (l : List α) : List (List α) :=
  if (l.splitOn sep).getLast? = some [] then (l.splitOn sep).dropLast else l.splitOn sep

@[simp] theorem linesOn_nil (sep : α) : linesOn sep [] = [] := by simp [linesOn]

/-- The first line of a list is what stands in front of the first separator. -/
theorem linesOn_append_cons (h : sep ∉ l) (rest : List α) :
    linesOn sep (l ++ sep :: rest) = l :: linesOn sep rest := by
  have hsplit := List.splitOn_append_cons_self_of_not_mem h rest
  have hne : rest.splitOn sep ≠ [] := List.splitOn_ne_nil sep rest
  have hlast : (l :: rest.splitOn sep).getLast? = (rest.splitOn sep).getLast? := by
    rw [List.getLast?_cons_of_ne_nil hne]
  unfold linesOn
  rw [hsplit, hlast, List.dropLast_cons_of_ne_nil hne]
  split <;> rfl

/-- A list without separators is one line, if it is not empty. -/
theorem linesOn_singleton (h : sep ∉ l) (hne : l ≠ []) : linesOn sep l = [l] := by
  simp [linesOn, List.splitOn_eq_singleton h, hne]

/-- What a search from the front finds is the first separator. -/
theorem eq_append_of_findIdx? {i : ℕ} (h : l.findIdx? (fun x => decide (x = sep)) = some i) :
    i < l.length ∧ sep ∉ l.take i ∧ l = l.take i ++ sep :: l.drop (i + 1) := by
  obtain ⟨hi, hget, hbefore⟩ := List.findIdx?_eq_some_iff_getElem.mp h
  refine ⟨hi, ?_, ?_⟩
  · intro hmem
    obtain ⟨j, hj, hsep⟩ := List.getElem_of_mem hmem
    rw [List.length_take] at hj
    have hnot := hbefore j (by omega)
    rw [List.getElem_take] at hsep
    exact hnot (by simpa using hsep)
  · have hsep : l[i] = sep := by simpa using hget
    rw [← hsep, ← List.drop_eq_getElem_cons hi, List.take_append_drop]

/-- Every line takes an element, by induction on the length. -/
theorem length_linesOn_le (sep : α) (l : List α) : (linesOn sep l).length ≤ l.length := by
  induction hn : l.length using Nat.strongRecOn generalizing l with
  | ind n ih =>
    subst hn
    by_cases hsep : sep ∈ l
    · obtain ⟨front, rest, rfl, hfront⟩ := List.eq_append_cons_of_mem hsep
      have hshort : rest.length < (front ++ sep :: rest).length := by
        rw [List.length_append, List.length_cons]
        omega
      rw [linesOn_append_cons hfront, List.length_cons]
      exact Nat.lt_of_le_of_lt (ih rest.length hshort rest rfl) hshort
    · by_cases hnil : l = []
      · subst hnil
        rw [linesOn_nil]
        exact Nat.le_refl _
      · rw [linesOn_singleton hsep hnil]
        exact List.length_pos_iff.mpr hnil

/-- The length of the longest stretch of a list without separators. It begins at some element. -/
def longestStretch (sep : α) : List α → ℕ
  | [] => 0
  | x :: l => max ((x :: l).takeWhile fun y => decide (y ≠ sep)).length (longestStretch sep l)

example : longestStretch 0 [1, 0, 2, 3, 4, 0, 0, 5, 6] = 3 := by decide

/-- A front of a list without separators ends no later than its first line. -/
theorem length_le_takeWhile {piece : List α} (h : piece <+: l) (hsep : sep ∉ piece) :
    piece.length ≤ (l.takeWhile fun y => decide (y ≠ sep)).length := by
  obtain ⟨rest, rfl⟩ := h
  have hall : ∀ y ∈ piece, decide (y ≠ sep) = true := by
    intro y hy
    exact decide_eq_true fun heq : y = sep => hsep (heq ▸ hy)
  rw [List.takeWhile_append_of_pos hall, List.length_append]
  exact Nat.le_add_right _ _

theorem length_le_longestStretch {piece : List α} (h : piece <:+: l) (hsep : sep ∉ piece) :
    piece.length ≤ longestStretch sep l := by
  induction l with
  | nil =>
    rw [List.infix_nil.mp h]
    exact Nat.le_refl _
  | cons x l ih =>
    rcases List.infix_cons_iff.mp h with hfront | hlater
    · exact Nat.le_trans (length_le_takeWhile hfront hsep) (Nat.le_max_left _ _)
    · exact Nat.le_trans (ih hlater) (Nat.le_max_right _ _)

end SysExploration
