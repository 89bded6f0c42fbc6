import Mathlib.Data.List.Basic
import Mathlib.Data.Nat.Notation

/-! Reading and overwriting a contiguous part of a list. -/
namespace SysExploration

variable {α : Type*} {l xs : List α} {i j k m n : ℕ}

/-- The `n` elements from index `i` on. -/
def slice (l : List α) (i n : ℕ) : List α := (l.drop i).take n

/-- The list with `xs` stored from index `i` on. -/
def overwrite (l : List α) (i : ℕ) (xs : List α) : List α :=
  l.take i ++ xs ++ l.drop (i + xs.length)

theorem length_slice (h : i + n ≤ l.length) : (slice l i n).length = n := by
  rw [slice, List.length_take, List.length_drop]
  omega

@[simp] theorem slice_zero (l : List α) (i : ℕ) : slice l i 0 = [] := List.take_zero

theorem slice_add (l : List α) (i m n : ℕ) :
    slice l i (m + n) = slice l i m ++ slice l (i + m) n := by
  unfold slice
  rw [List.take_add, List.drop_drop]

theorem slice_self (l : List α) : slice l 0 l.length = l := by
  rw [slice, List.drop_zero, List.take_length]

theorem drop_slice (l : List α) (i n k : ℕ) : (slice l i n).drop k = slice l (i + k) (n - k) := by
  unfold slice
  rw [List.drop_take, List.drop_drop]

theorem slice_slice (h : j + m ≤ n) : slice (slice l i n) j m = slice l (i + j) m := by
  rw [slice, drop_slice, slice, slice, List.take_take, Nat.min_eq_left (by omega)]

theorem length_overwrite (h : i + xs.length ≤ l.length) : (overwrite l i xs).length = l.length := by
  simp only [overwrite, List.length_append, List.length_take, List.length_drop]
  omega

/-- What was stored is read back. -/
theorem slice_overwrite (h : i ≤ l.length) : slice (overwrite l i xs) i xs.length = xs := by
  have hlen : (l.take i).length = i := List.length_take_of_le h
  rw [slice, overwrite, List.append_assoc, List.drop_left' hlen, List.take_left' rfl]

theorem take_overwrite (l xs : List α) : (overwrite l 0 xs).take xs.length = xs := by
  have hread : slice (overwrite l 0 xs) 0 xs.length = xs := slice_overwrite (Nat.zero_le _)
  rwa [slice, List.drop_zero] at hread

/-- What is in front of what was stored is as before. -/
theorem take_overwrite_of_le (hn : n ≤ i) (h : i ≤ l.length) :
    (overwrite l i xs).take n = l.take n := by
  have hlen : (l.take i).length = i := List.length_take_of_le h
  rw [overwrite, List.append_assoc, List.take_append_of_le_length (by omega), List.take_take,
    Nat.min_eq_left hn]

/-- Up to a place in what was stored there is what was in front of it, and a part of it. -/
theorem take_overwrite_add (h : i ≤ l.length) (hk : k ≤ xs.length) :
    (overwrite l i xs).take (i + k) = l.take i ++ xs.take k := by
  have hlen : (l.take i).length = i := List.length_take_of_le h
  rw [overwrite, List.append_assoc, List.take_append, hlen, Nat.add_sub_cancel_left,
    List.take_of_length_le (by omega), List.take_append_of_le_length hk]

theorem take_overwrite_append (h : i ≤ l.length) :
    (overwrite l i xs).take (i + xs.length) = l.take i ++ xs := by
  rw [take_overwrite_add h (Nat.le_refl _), List.take_length]

theorem getElem?_overwrite (h : i ≤ l.length) (hj : j < xs.length) :
    (overwrite l i xs)[i + j]? = xs[j]? := by
  have hlen : (l.take i).length = i := List.length_take_of_le h
  rw [overwrite, List.append_assoc, List.getElem?_append_right (by omega), hlen,
    Nat.add_sub_cancel_left, List.getElem?_append_left hj]

theorem getElem?_overwrite_of_le (hj : i + xs.length ≤ j) (h : i ≤ l.length) :
    (overwrite l i xs)[j]? = l[j]? := by
  have hlen : (l.take i ++ xs).length = i + xs.length := by
    rw [List.length_append, List.length_take_of_le h]
  rw [overwrite, List.getElem?_append_right (by omega), hlen, List.getElem?_drop,
    Nat.add_sub_cancel' hj]

/-- A part in front of what was stored is as before. -/
theorem slice_overwrite_before (hj : j + n ≤ i) (h : i ≤ l.length) :
    slice (overwrite l i xs) j n = slice l j n := by
  have hlen : (l.take i).length = i := List.length_take_of_le h
  rw [slice, overwrite, List.append_assoc, List.drop_append_of_le_length (by omega),
    List.take_append_of_le_length (by rw [List.length_drop]; omega), List.drop_take,
    List.take_take, Nat.min_eq_left (by omega), slice]

end SysExploration
