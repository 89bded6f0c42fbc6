import Mathlib.Data.Nat.ModEq
import Mathlib.Data.List.Basic

/-! Lists stored cyclically in a fixed number of slots. The list occupies the slots
`S, S + 1, ...` modulo the capacity and every other slot is free. -/
namespace SysExploration.Ring

variable {α : Type*} {c S : ℕ} {L : List α} {slots : List (Option α)}

/-- Cell `k` of the list sits `k` slots after `S`; past the end of the list the slots are free. -/
structure Holds (c S : ℕ) (L : List α) (slots : List (Option α)) : Prop where
  length : slots.length = c
  bound : L.length ≤ c
  cells : ∀ k < c, slots[(S + k) % c]? = some L[k]?

/-- Two offsets less than one lap apart name the same slot only if they are equal. -/
theorem offset_injective {j k : ℕ} (hj : j < c) (hk : k < c)
    (h : (S + j) % c = (S + k) % c) : j = k := by
  have hm : j ≡ k [MOD c] := Nat.ModEq.add_left_cancel' S h
  rwa [Nat.ModEq, Nat.mod_eq_of_lt hj, Nat.mod_eq_of_lt hk] at hm

/-- Less than one lap after `S`, the slot index wraps at most once. -/
theorem slot_eq {k : ℕ} (hc : 0 < c) (hk : k ≤ c) :
    (S + k) % c = if S % c + k < c then S % c + k else S % c + k - c := by
  have hS : S % c < c := Nat.mod_lt _ hc
  rw [← Nat.mod_add_mod]
  split_ifs with h
  · exact Nat.mod_eq_of_lt h
  · rw [Nat.mod_eq_sub_mod (by omega), Nat.mod_eq_of_lt (by omega)]

theorem Holds.empty (c S : ℕ) : Holds c S ([] : List α) (List.replicate c none) where
  length := List.length_replicate
  bound := Nat.zero_le _
  cells k hk := by
    have hlt : (S + k) % c < c := Nat.mod_lt _ (Nat.zero_lt_of_lt hk)
    simp [hlt]

theorem Holds.push (h : Holds c S L slots) (hroom : L.length < c) (x : α) :
    Holds c S (L ++ [x]) (slots.set ((S + L.length) % c) (some x)) where
  length := by rw [List.length_set, h.length]
  bound := by rw [List.length_append]; exact hroom
  cells k hk := by
    have hlt : (S + L.length) % c < slots.length := by
      rw [h.length]; exact Nat.mod_lt _ (Nat.zero_lt_of_lt hk)
    by_cases he : k = L.length
    · subst he
      rw [List.getElem?_set_self hlt, List.getElem?_concat_length]
    · have hne : (S + L.length) % c ≠ (S + k) % c :=
        fun hs => he (offset_injective hk hroom hs.symm)
      rw [List.getElem?_set_ne hne, h.cells k hk]
      rcases Nat.lt_or_gt_of_ne he with hk' | hk'
      · rw [List.getElem?_append_left hk']
      · rw [List.getElem?_eq_none (by omega), List.getElem?_eq_none (by simp; omega)]

theorem Holds.front {x : α} (h : Holds c S (x :: L) slots) :
    slots[S % c]? = some (some x) := by
  have hc : 0 < c := by have := h.bound; simp at this; omega
  simpa using h.cells 0 hc

theorem Holds.pop {x : α} (h : Holds c S (x :: L) slots) :
    Holds c (S + 1) L (slots.set (S % c) none) where
  length := by rw [List.length_set, h.length]
  bound := by have := h.bound; simp at this; omega
  cells k hk := by
    have hb := h.bound
    rw [List.length_cons] at hb
    by_cases he : k + 1 = c
    · have hlap : (S + 1 + k) % c = S % c := by
        rw [show S + 1 + k = S + c by omega, Nat.add_mod_right]
      have hlt : S % c < slots.length := by
        rw [h.length]; exact Nat.mod_lt _ (Nat.zero_lt_of_lt hk)
      rw [hlap, List.getElem?_set_self hlt, List.getElem?_eq_none (by omega)]
    · have hk1 : k + 1 < c := by omega
      have hne : S % c ≠ (S + 1 + k) % c := by
        intro hs
        have h0 : (S + 0) % c = (S + (k + 1)) % c := by
          rw [Nat.add_zero, show S + (k + 1) = S + 1 + k by omega]; exact hs
        have := offset_injective (Nat.zero_lt_of_lt hk) hk1 h0
        omega
      rw [List.getElem?_set_ne hne, show S + 1 + k = S + (k + 1) by omega, h.cells _ hk1,
        List.getElem?_cons_succ]

/-- The stored list, every element with the slot it occupies. -/
def entries (c S : ℕ) (L : List α) : List (ℕ × α) := L.mapIdx fun k x => ((S + k) % c, x)

@[simp] theorem length_entries : (entries c S L).length = L.length := by simp [entries]

@[simp] theorem map_snd_entries : (entries c S L).map Prod.snd = L :=
  List.ext_getElem (by simp) (by intros; simp [entries])

theorem entries_drop_eq_cons {k : ℕ} (hk : k < L.length) :
    (entries c S L).drop k = ((S + k) % c, L[k]) :: (entries c S L).drop (k + 1) := by
  rw [List.drop_eq_getElem_cons (by simpa using hk)]
  simp [entries]

/-- The elements met on a walk over `d` slots from slot `R`, each with its slot. -/
def visited (slots : List (Option α)) (c : ℕ) : ℕ → ℕ → List (ℕ × α)
  | _, 0 => []
  | R, d + 1 =>
    ((slots[R % c]?.join).map fun x => (R % c, x)).toList ++ visited slots c (R + 1) d

/-- A walk stays within the ring. -/
theorem mem_visited (hc : 0 < c) {R d : ℕ} {p : ℕ × α} (h : p ∈ visited slots c R d) :
    p.1 < c := by
  induction d generalizing R with
  | zero => cases h
  | succ d ih =>
    rcases List.mem_append.mp h with hmem | hmem
    · obtain ⟨x, -, rfl⟩ := Option.map_eq_some_iff.mp (Option.mem_toList.mp hmem)
      exact Nat.mod_lt R hc
    · exact ih hmem

/-- A walk of at most one lap that stops at the end of the list meets the last elements of
the list, in order: all of them when the walk began no later than the first. -/
theorem Holds.visited_eq (h : Holds c S L slots) {R d : ℕ} (hd : d ≤ c)
    (hR : R + d = S + L.length) :
    visited slots c R d = (entries c S L).drop (L.length - d) := by
  induction d generalizing R with
  | zero =>
    rw [visited, Nat.sub_zero, List.drop_eq_nil_of_le (by simp)]
  | succ d ih =>
    have hrest := ih (by omega) (show R + 1 + d = S + L.length by omega)
    by_cases hlen : d + 1 ≤ L.length
    · have hk : L.length - (d + 1) < L.length := by omega
      have hRk : R = S + (L.length - (d + 1)) := by omega
      have hcell := h.cells (L.length - (d + 1)) (by have := h.bound; omega)
      rw [List.getElem?_eq_getElem hk, ← hRk] at hcell
      rw [visited, hcell, hrest, entries_drop_eq_cons hk, ← hRk,
        show L.length - (d + 1) + 1 = L.length - d by omega]
      rfl
    · have hk : c + L.length - (d + 1) < c := by omega
      have hcell := h.cells (c + L.length - (d + 1)) hk
      have hfree : L[c + L.length - (d + 1)]? = none := List.getElem?_eq_none (by omega)
      rw [hfree, show S + (c + L.length - (d + 1)) = R + c by omega, Nat.add_mod_right] at hcell
      rw [visited, hcell, hrest, show L.length - (d + 1) = L.length - d by omega]
      rfl

end SysExploration.Ring
