import Mathlib.Data.List.AList
import Mathlib.Data.Nat.Notation

/-! Finite tables of values under keys, and what they hold after an insertion or a removal. -/
namespace SysExploration

abbrev Table (κ ν : Type) := AList fun _ : κ => ν

namespace Table

variable {κ ν : Type} [DecidableEq κ] {t : Table κ ν} {a b : κ} {x y : ν}

theorem lookup_insert_iff (ha : a ∉ t) :
    AList.lookup b (t.insert a x) = some y ↔ b = a ∧ y = x ∨ AList.lookup b t = some y := by
  by_cases hb : b = a
  · subst hb
    rw [AList.lookup_insert, AList.lookup_eq_none.mpr ha]
    simp [eq_comm]
  · rw [AList.lookup_insert_ne hb]
    simp [hb]

theorem lookup_erase_iff :
    AList.lookup b (t.erase a) = some y ↔ b ≠ a ∧ AList.lookup b t = some y := by
  by_cases hb : b = a
  · subst hb
    simp
  · rw [AList.lookup_erase_ne hb]
    simp [hb]

theorem mem_of_lookup (h : AList.lookup a t = some x) : a ∈ t :=
  AList.lookup_isSome.mp (by rw [h]; rfl)

theorem size_insert (ha : a ∉ t) : (t.insert a x).keys.length = t.keys.length + 1 := by
  rw [AList.keys_insert, List.erase_of_not_mem (mt AList.mem_keys.mpr ha), List.length_cons]

theorem size_erase (ha : a ∈ t) : (t.erase a).keys.length + 1 = t.keys.length := by
  have hmem : a ∈ t.keys := AList.mem_keys.mp ha
  rw [AList.keys_erase, List.length_erase_of_mem hmem]
  exact Nat.sub_add_cancel (List.length_pos_of_mem hmem)

end Table

end SysExploration
