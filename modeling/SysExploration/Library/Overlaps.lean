import SysExploration.Library.Occurrences
import SysExploration.Library.Slice

/-! All occurrences of one list in another, compared with those that a scan finds which goes on
behind each of them. -/
namespace SysExploration

variable {α : Type*} [DecidableEq α] {p l : List α} {i j skip : ℕ}

/-- The indices of all occurrences, counted from `i`. -/
def allOccurrencesFrom (p : List α) : (i : ℕ) → List α → List ℕ
  | i, [] => if p = [] then [i] else []
  | i, a :: l =>
    if p <+: a :: l then i :: allOccurrencesFrom p (i + 1) l else allOccurrencesFrom p (i + 1) l

def allOccurrences (p l : List α) : List ℕ := allOccurrencesFrom p 0 l

example : allOccurrences [1, 2, 1] [1, 2, 1, 2, 1, 1, 2, 1] = [0, 2, 5] := by decide

theorem le_of_mem_allOccurrencesFrom (h : j ∈ allOccurrencesFrom p i l) : i ≤ j := by
  induction l generalizing i with
  | nil =>
    rw [allOccurrencesFrom] at h
    split_ifs at h
    · rw [List.mem_singleton.mp h]
    · cases h
  | cons a l ih =>
    rw [allOccurrencesFrom] at h
    split_ifs at h
    · rcases List.mem_cons.mp h with rfl | hrest
      · exact Nat.le_refl _
      · exact Nat.le_of_succ_le (ih hrest)
    · exact Nat.le_of_succ_le (ih h)

/-- A scan finds no others. -/
theorem occurrencesFrom_sublist (i skip : ℕ) (l : List α) :
    (occurrencesFrom p i skip l).Sublist (allOccurrencesFrom p i l) := by
  induction l generalizing i skip with
  | nil => exact List.nil_sublist _
  | cons a l ih =>
    cases skip with
    | zero =>
      rw [occurrencesFrom, allOccurrencesFrom]
      split_ifs
      · exact (ih (i + 1) (p.length - 1)).cons_cons i
      · exact ih (i + 1) 0
    | succ skip =>
      rw [occurrencesFrom, allOccurrencesFrom]
      split_ifs
      · exact (ih (i + 1) skip).cons i
      · exact ih (i + 1) skip

/-- Every occurrence that is not skipped begins inside one that the scan finds. -/
theorem covered_of_mem (hp : p ≠ []) (skip : ℕ) (h : j ∈ allOccurrencesFrom p i l) :
    j < i + skip ∨ ∃ r ∈ occurrencesFrom p i skip l, r ≤ j ∧ j < r + p.length := by
  have hpos := List.length_pos_iff.mpr hp
  induction l generalizing i skip with
  | nil =>
    rw [allOccurrencesFrom, if_neg hp] at h
    cases h
  | cons a l ih =>
    rw [allOccurrencesFrom] at h
    cases skip with
    | zero =>
      rw [occurrencesFrom]
      split_ifs at h with hfront
      · rw [if_pos hfront]
        rcases List.mem_cons.mp h with rfl | hrest
        · exact .inr ⟨j, List.mem_cons_self, Nat.le_refl _, Nat.lt_add_of_pos_right hpos⟩
        · have hle := le_of_mem_allOccurrencesFrom hrest
          rcases ih (p.length - 1) hrest with hnear | ⟨r, hr, hcover⟩
          · exact .inr ⟨i, List.mem_cons_self, by omega, by omega⟩
          · exact .inr ⟨r, List.mem_cons_of_mem _ hr, hcover⟩
      · rw [if_neg hfront]
        have hle := le_of_mem_allOccurrencesFrom h
        rcases ih 0 h with hnear | hcover
        · omega
        · exact .inr hcover
    | succ skip =>
      rw [occurrencesFrom]
      split_ifs at h
      · rcases List.mem_cons.mp h with rfl | hrest
        · exact .inl (by omega)
        · rcases ih skip hrest with hnear | hcover
          · exact .inl (by omega)
          · exact .inr hcover
      · rcases ih skip h with hnear | hcover
        · exact .inl (by omega)
        · exact .inr hcover

/-- No two of these occurrences overlap. -/
def Separate (p : List α) (indices : List ℕ) : Prop :=
  indices.Pairwise fun i j => i + p.length ≤ j

theorem le_of_mem_occurrencesFrom (hp : p ≠ []) (h : j ∈ occurrencesFrom p i skip l) :
    i + skip ≤ j := by
  have hpos := List.length_pos_iff.mpr hp
  induction l generalizing i skip with
  | nil => cases h
  | cons a l ih =>
    cases skip with
    | zero =>
      rw [occurrencesFrom] at h
      split_ifs at h
      · rcases List.mem_cons.mp h with rfl | hrest
        · exact Nat.le_refl _
        · have hle := ih hrest
          omega
      · have hle := ih h
        omega
    | succ skip =>
      have hle := ih h
      omega

theorem separate_occurrencesFrom (hp : p ≠ []) (i skip : ℕ) (l : List α) :
    Separate p (occurrencesFrom p i skip l) := by
  have hpos := List.length_pos_iff.mpr hp
  induction l generalizing i skip with
  | nil => exact List.Pairwise.nil
  | cons a l ih =>
    cases skip with
    | zero =>
      rw [occurrencesFrom]
      split_ifs
      · refine List.Pairwise.cons ?_ (ih (i + 1) (p.length - 1))
        intro j hj
        have hle := le_of_mem_occurrencesFrom hp hj
        omega
      · exact ih (i + 1) 0
    | succ skip => exact ih (i + 1) skip

theorem occurrencesFrom_eq_all (hp : p ≠ []) (hsep : Separate p (allOccurrencesFrom p i l))
    (hskip : ∀ j ∈ allOccurrencesFrom p i l, i + skip ≤ j) :
    occurrencesFrom p i skip l = allOccurrencesFrom p i l := by
  have hpos := List.length_pos_iff.mpr hp
  induction l generalizing i skip with
  | nil => rw [allOccurrencesFrom, if_neg hp, occurrencesFrom]
  | cons a l ih =>
    rw [allOccurrencesFrom] at hsep hskip ⊢
    cases skip with
    | zero =>
      rw [occurrencesFrom]
      split_ifs at hsep hskip ⊢
      · obtain ⟨hfirst, hrest⟩ := List.pairwise_cons.mp hsep
        rw [ih hrest fun j hj => by have hle := hfirst j hj; omega]
      · exact ih hsep fun j hj => le_of_mem_allOccurrencesFrom hj
    | succ skip =>
      rw [occurrencesFrom]
      split_ifs at hsep hskip ⊢
      · have hle := hskip i List.mem_cons_self
        omega
      · exact ih hsep fun j hj => by have hle := hskip j hj; omega

/-- The scan finds all occurrences exactly if no two of them overlap. -/
theorem occurrences_eq_all_iff (hp : p ≠ []) :
    occurrences p l = allOccurrences p l ↔ Separate p (allOccurrences p l) := by
  constructor
  · intro h
    rw [← h]
    exact separate_occurrencesFrom hp 0 0 l
  · intro hsep
    exact occurrencesFrom_eq_all hp hsep fun j _ => Nat.zero_le j

theorem allOccurrencesFrom_succ (p : List α) (i : ℕ) (l : List α) :
    allOccurrencesFrom p (i + 1) l = (allOccurrencesFrom p i l).map (· + 1) := by
  induction l generalizing i with
  | nil =>
    rw [allOccurrencesFrom, allOccurrencesFrom]
    split_ifs <;> rfl
  | cons a l ih =>
    rw [allOccurrencesFrom, allOccurrencesFrom, ih]
    split_ifs <;> rfl

theorem allOccurrencesFrom_eq_nil (h : l.length < p.length) :
    allOccurrencesFrom p i l = [] := by
  induction l generalizing i with
  | nil =>
    have hp : p ≠ [] := List.length_pos_iff.mp h
    rw [allOccurrencesFrom, if_neg hp]
  | cons a l ih =>
    have hfront : ¬ p <+: a :: l := fun hfar => absurd hfar.length_le (Nat.not_le.mpr h)
    rw [allOccurrencesFrom, if_neg hfront]
    exact ih (Nat.lt_of_succ_lt h)

/-- The occurrences are where a window of the list's length shows the list. -/
theorem filter_window (p l : List α) :
    (List.range (l.length + 1 - p.length)).filter (fun j => slice l j p.length = p) =
      allOccurrences p l := by
  have hiff (l : List α) : slice l 0 p.length = p ↔ p <+: l := by
    rw [slice, List.drop_zero, List.prefix_iff_eq_take]
    exact eq_comm
  induction l with
  | nil =>
    cases p with
    | nil => simp [allOccurrences, allOccurrencesFrom, slice]
    | cons b p => simp [allOccurrences, allOccurrencesFrom]
  | cons a l ih =>
    rcases Nat.lt_or_ge (a :: l).length p.length with hlong | hshort
    · have hzero : (a :: l).length + 1 - p.length = 0 := by omega
      rw [hzero, allOccurrences, allOccurrencesFrom_eq_nil hlong]
      rfl
    · have hsucc : (a :: l).length + 1 - p.length = l.length + 1 - p.length + 1 := by
        rw [List.length_cons] at hshort ⊢
        omega
      have htail : ((List.range (l.length + 1 - p.length)).map Nat.succ).filter
          (fun j => slice (a :: l) j p.length = p) = allOccurrencesFrom p 1 l := by
        rw [List.filter_map, allOccurrencesFrom_succ]
        exact congrArg (List.map Nat.succ) ih
      rw [hsucc, List.range_succ_eq_map, List.filter_cons, htail, allOccurrences,
        allOccurrencesFrom]
      simp only [hiff, decide_eq_true_eq]

/-- An element that is not in the list completes no occurrence. -/
theorem allOccurrencesFrom_concat {x : α} (hp : p ≠ []) (hx : x ∉ p) (i : ℕ) (l : List α) :
    allOccurrencesFrom p i (l ++ [x]) = allOccurrencesFrom p i l := by
  have hiff (l : List α) : p <+: l ++ [x] ↔ p <+: l := by
    rw [List.prefix_concat_iff]
    constructor
    · rintro (rfl | hfront)
      · simp at hx
      · exact hfront
    · exact .inr
  induction l generalizing i with
  | nil =>
    have hnil := (hiff []).trans (List.prefix_nil)
    rw [List.nil_append] at hnil ⊢
    rw [allOccurrencesFrom, allOccurrencesFrom, allOccurrencesFrom, if_neg hp, if_neg hp]
    simp [hnil, hp]
  | cons a l ih =>
    have hcons := hiff (a :: l)
    rw [List.cons_append] at hcons ⊢
    rw [allOccurrencesFrom, allOccurrencesFrom, ih]
    simp only [hcons]

end SysExploration
