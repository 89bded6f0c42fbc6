import Mathlib.Data.List.Infix
import Mathlib.Data.Nat.Notation

/-! Occurrences of one list in another: the first one, and those a scan from left to right
counts when it goes on behind each of them. -/
namespace SysExploration

variable {α : Type*} [DecidableEq α] {p l : List α} {j : ℕ}

/-- The index of the first occurrence. -/
def firstOccurrence (p : List α) : List α → Option ℕ
  | [] => if p = [] then some 0 else none
  | a :: l => if p <+: a :: l then some 0 else (firstOccurrence p l).map (· + 1)

/-- The indices, counted from `i`, of the occurrences found by a scan that skips the first
elements and those covered by the occurrence before. -/
def occurrencesFrom (p : List α) : (i skip : ℕ) → List α → List ℕ
  | _, _, [] => []
  | i, skip + 1, _ :: l => occurrencesFrom p (i + 1) skip l
  | i, 0, a :: l =>
    if p <+: a :: l then i :: occurrencesFrom p (i + 1) (p.length - 1) l
    else occurrencesFrom p (i + 1) 0 l

/-- The occurrences that do not overlap, leftmost first. -/
def occurrences (p l : List α) : List ℕ := occurrencesFrom p 0 0 l

example : occurrences [1, 2, 1] [1, 2, 1, 2, 1, 1, 2, 1] = [0, 5] := by decide

theorem firstOccurrence_eq_none_iff : firstOccurrence p l = none ↔ ¬ p <:+: l := by
  induction l with
  | nil => simp [firstOccurrence]
  | cons a l ih =>
    rw [firstOccurrence, List.infix_cons_iff]
    split_ifs with hfront
    · simp [hfront]
    · simp [hfront, ih]

/-- The empty list occurs at the front of every list. -/
theorem firstOccurrence_nil (l : List α) : firstOccurrence [] l = some 0 := by
  cases l <;> simp [firstOccurrence]

/-- Where an occurrence is found there is one. -/
theorem firstOccurrence_spec (h : firstOccurrence p l = some j) : p <+: l.drop j := by
  induction l generalizing j with
  | nil => simp_all [firstOccurrence]
  | cons a l ih =>
    rw [firstOccurrence] at h
    split_ifs at h with hfront
    · cases h
      exact hfront
    · obtain ⟨i, hi, rfl⟩ := Option.map_eq_some_iff.mp h
      exact ih hi

theorem infix_of_firstOccurrence (h : firstOccurrence p l = some j) : p <:+: l :=
  (firstOccurrence_spec h).isInfix.trans (List.drop_suffix j l).isInfix

/-- The first occurrence stays the first one when the list is continued. -/
theorem firstOccurrence_append (h : firstOccurrence p l = some j) (t : List α) :
    firstOccurrence p (l ++ t) = some j := by
  induction l generalizing j with
  | nil =>
    rw [firstOccurrence] at h
    split_ifs at h with hnil
    cases h
    subst hnil
    cases t <;> simp [firstOccurrence]
  | cons a l ih =>
    rw [firstOccurrence] at h
    rw [List.cons_append, firstOccurrence]
    split_ifs at h with hfront
    · cases h
      exact if_pos (hfront.trans (List.prefix_append (a :: l) t))
    · obtain ⟨i, hi, rfl⟩ := Option.map_eq_some_iff.mp h
      have hshort : p.length ≤ (a :: l).length := by
        have hlength := (firstOccurrence_spec hi).length_le
        rw [List.length_drop] at hlength
        rw [List.length_cons]
        omega
      rw [if_neg, ih hi, Option.map_some]
      intro hfar
      exact hfront (List.prefix_of_prefix_length_le hfar (List.prefix_append (a :: l) t) hshort)

/-- An occurrence that a continuation of the list completes reaches behind the list. -/
theorem length_lt_of_firstOccurrence_append {t : List α} (hnone : ¬ p <:+: l)
    (h : firstOccurrence p (l ++ t) = some j) : l.length < j + p.length := by
  by_contra hle
  have hstart := firstOccurrence_spec h
  rw [List.drop_append_of_le_length (by omega)] at hstart
  have hfront : p <+: l.drop j := by
    apply List.prefix_of_prefix_length_le hstart (List.prefix_append _ _)
    rw [List.length_drop]
    omega
  exact hnone (hfront.isInfix.trans (List.drop_suffix j l).isInfix)

theorem occurrencesFrom_skip (i skip : ℕ) (l : List α) :
    occurrencesFrom p i skip l = occurrencesFrom p (i + skip) 0 (l.drop skip) := by
  induction l generalizing i skip with
  | nil => simp [occurrencesFrom]
  | cons a l ih =>
    cases skip with
    | zero => rfl
    | succ skip =>
      rw [occurrencesFrom, ih, List.drop_succ_cons, Nat.add_right_comm, Nat.add_assoc]

theorem occurrencesFrom_eq_nil (h : ¬ p <:+: l) (i : ℕ) : occurrencesFrom p i 0 l = [] := by
  induction l generalizing i with
  | nil => rfl
  | cons a l ih =>
    rw [List.infix_cons_iff, not_or] at h
    rw [occurrencesFrom, if_neg h.1]
    exact ih h.2 (i + 1)

/-- The scan counts the first occurrence and goes on behind it. -/
theorem occurrencesFrom_of_first (hp : p ≠ []) (h : firstOccurrence p l = some j) (i : ℕ) :
    occurrencesFrom p i 0 l =
      (i + j) :: occurrencesFrom p (i + j + p.length) 0 (l.drop (j + p.length)) := by
  induction l generalizing i j with
  | nil => simp [firstOccurrence, hp] at h
  | cons a l ih =>
    rw [firstOccurrence] at h
    rw [occurrencesFrom]
    split_ifs at h with hfront
    · cases h
      obtain ⟨n, hn⟩ : ∃ n, p.length = n + 1 :=
        Nat.exists_eq_add_one.mpr (List.length_pos_iff.mpr hp)
      have hnext : i + 1 + n = i + (n + 1) := by omega
      rw [if_pos hfront, occurrencesFrom_skip, hn, Nat.add_sub_cancel, hnext, Nat.zero_add]
      rfl
    · obtain ⟨n, hn, rfl⟩ := Option.map_eq_some_iff.mp h
      rw [if_neg hfront, ih hn (i + 1), Nat.add_right_comm n 1, List.drop_succ_cons,
        Nat.add_right_comm i 1 n]
      rfl

theorem occurrencesFrom_add (i k skip : ℕ) (l : List α) :
    occurrencesFrom p (i + k) skip l = (occurrencesFrom p i skip l).map (· + k) := by
  induction l generalizing i skip with
  | nil => simp [occurrencesFrom]
  | cons a l ih =>
    cases skip with
    | zero =>
      have hnext : i + k + 1 = i + 1 + k := Nat.add_right_comm i k 1
      rw [occurrencesFrom, occurrencesFrom]
      split_ifs
      · rw [List.map_cons, hnext, ih]
      · rw [hnext, ih]
    | succ skip =>
      rw [occurrencesFrom, occurrencesFrom, Nat.add_right_comm i k 1]
      exact ih (i + 1) skip

/-- A front in which no occurrence begins can be left out, whatever follows it. -/
theorem occurrencesFrom_drop {t : List α} (h : ¬ p <:+: t) {d : ℕ}
    (hd : d + p.length ≤ t.length + 1) (i : ℕ) (r : List α) :
    occurrencesFrom p i 0 (t ++ r) = occurrencesFrom p (i + d) 0 ((t ++ r).drop d) := by
  induction d generalizing i t with
  | zero => rfl
  | succ d ih =>
    cases t with
    | nil =>
      have hp : p = [] := List.eq_nil_of_length_eq_zero (by rw [List.length_nil] at hd; omega)
      exact absurd (hp ▸ List.nil_infix) h
    | cons a t =>
      rw [List.infix_cons_iff, not_or] at h
      rw [List.length_cons] at hd
      have hfront : ¬ p <+: a :: (t ++ r) := by
        intro hfar
        refine h.1 (List.prefix_of_prefix_length_le hfar (List.prefix_append (a :: t) r) ?_)
        rw [List.length_cons]
        omega
      rw [List.cons_append, occurrencesFrom, if_neg hfront, ih h.2 (by omega), List.drop_succ_cons,
        Nat.add_right_comm, Nat.add_assoc]

end SysExploration
