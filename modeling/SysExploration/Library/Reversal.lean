import Mathlib.Data.List.Induction
import Mathlib.Data.Nat.Notation

/-! The reversal of a part of a list in its place: its ends are exchanged until they meet. -/
namespace SysExploration

variable {α : Type*}

/-- The elements at two indices are exchanged. -/
def swap (l : List α) (i j : ℕ) : List α :=
  match l[i]?, l[j]? with
  | some x, some y => (l.set i y).set j x
  | _, _ => l

/-- `swap` from both ends of a part, the first one `i` and the last one `j`. -/
def reverseEnds (l : List α) (i : ℕ) : ℕ → List α
  | 0 => l
  | j + 1 => if i < j + 1 then reverseEnds (swap l i (j + 1)) (i + 1) j else l

example : reverseEnds [0, 1, 2, 3, 4, 5] 1 4 = [0, 4, 3, 2, 1, 5] := by decide

theorem swap_ends (pre mid post : List α) (x y : α) :
    swap (pre ++ (x :: mid ++ [y]) ++ post) pre.length (pre.length + mid.length + 1) =
      pre ++ (y :: mid ++ [x]) ++ post := by
  have hfirst : (pre ++ (x :: mid ++ [y]) ++ post)[pre.length]? = some x := by simp
  have hlast : (pre ++ (x :: mid ++ [y]) ++ post)[pre.length + mid.length + 1]? = some y := by
    rw [List.append_assoc, List.getElem?_append_right (by omega)]
    simp [Nat.add_assoc]
  have hset : (pre ++ (x :: mid ++ [y]) ++ post).set pre.length y =
      pre ++ (y :: mid ++ [y]) ++ post := by simp
  have hset' : (pre ++ (y :: mid ++ [y]) ++ post).set (pre.length + mid.length + 1) x =
      pre ++ (y :: mid ++ [x]) ++ post := by
    rw [List.append_assoc, List.set_append_right _ _ (by omega)]
    simp [Nat.add_assoc]
  rw [swap, hfirst, hlast]
  simp only [hset, hset']

/-- The part is reversed, by induction from both of its ends, and the rest is as it was. -/
theorem reverseEnds_eq (pre mid post : List α) :
    reverseEnds (pre ++ mid ++ post) pre.length (pre.length + mid.length - 1) =
      pre ++ mid.reverse ++ post := by
  induction mid using List.bidirectionalRec generalizing pre post with
  | nil =>
    have hdone (j : ℕ) (hj : j ≤ pre.length) :
        reverseEnds (pre ++ [] ++ post) pre.length j = pre ++ [] ++ post := by
      cases j with
      | zero => rfl
      | succ j => exact if_neg (by omega)
    exact hdone _ (by simp)
  | singleton x =>
    have hdone (j : ℕ) (hj : j ≤ pre.length) :
        reverseEnds (pre ++ [x] ++ post) pre.length j = pre ++ [x] ++ post := by
      cases j with
      | zero => rfl
      | succ j => exact if_neg (by omega)
    exact hdone _ (by simp)
  | cons_append x mid y ih =>
    have hlast : pre.length + (x :: (mid ++ [y])).length - 1 = pre.length + mid.length + 1 := by
      simp only [List.length_cons, List.length_append, List.length_nil]
      omega
    have hrest := ih (pre ++ [y]) ([x] ++ post)
    have hindex : (pre ++ [y]).length + mid.length - 1 = pre.length + mid.length := by
      rw [List.length_append, List.length_singleton]
      omega
    rw [hindex, List.length_append, List.length_singleton] at hrest
    have hsplit : pre ++ (y :: mid ++ [x]) ++ post = (pre ++ [y]) ++ mid ++ ([x] ++ post) := by simp
    rw [hlast, reverseEnds, if_pos (by omega), show x :: (mid ++ [y]) = x :: mid ++ [y] from rfl,
      swap_ends, hsplit, hrest]
    simp

end SysExploration
