import SysExploration.Library.Occurrences

/-! A list cut at the occurrences of another that a scan from left to right finds, and the lists
that this takes apart again when they were joined. -/
namespace SysExploration

variable {α : Type*} [DecidableEq α] {p l a r : List α} {parts parts' : List (List α)} {j : ℕ}

/-- The pieces between the occurrences. -/
inductive Splits (p : List α) : List α → List (List α) → Prop
  | last {l : List α} : ¬ p <:+: l → Splits p l [l]
  | piece {l : List α} {parts : List (List α)} {j : ℕ} : firstOccurrence p l = some j →
      Splits p (l.drop (j + p.length)) parts → Splits p l (l.take j :: parts)

/-- Joined with `p` between them, these lists make no occurrence of `p` before or in a place where
it was not put. -/
def Apart (p : List α) : List (List α) → Prop
  | [] => False
  | [a] => ¬ p <:+: a
  | a :: b :: parts => firstOccurrence p (a ++ p) = some a.length ∧ Apart p (b :: parts)

theorem firstOccurrence_eq_some_iff : firstOccurrence p l = some j ↔
    j ≤ l.length ∧ p <+: l.drop j ∧ ∀ i < j, ¬ p <+: l.drop i := by
  induction l generalizing j with
  | nil =>
    by_cases hp : p = []
    · subst hp
      cases j <;> simp [firstOccurrence]
    · simp [firstOccurrence, hp]
  | cons a l ih =>
    rw [firstOccurrence]
    by_cases hfront : p <+: a :: l
    · rw [if_pos hfront]
      constructor
      · rintro ⟨⟩
        exact ⟨Nat.zero_le _, hfront, fun i hi => absurd hi (Nat.not_lt_zero i)⟩
      · rintro ⟨-, -, hbefore⟩
        cases j with
        | zero => rfl
        | succ j => exact absurd hfront (hbefore 0 (Nat.succ_pos j))
    · rw [if_neg hfront]
      cases j with
      | zero => simp [hfront]
      | succ j =>
        rw [Option.map_eq_some_iff]
        simp only [Nat.add_right_cancel_iff, exists_eq_right, ih, List.length_cons,
          Nat.add_le_add_iff_right, List.drop_succ_cons, Nat.forall_lt_succ_left, List.drop_zero,
          hfront, not_false_eq_true, true_and]

theorem not_infix_of_forall (h : ∀ i, i + p.length ≤ l.length → ¬ p <+: l.drop i) :
    ¬ p <:+: l := by
  rw [← firstOccurrence_eq_none_iff]
  cases hfirst : firstOccurrence p l with
  | none => rfl
  | some j =>
    obtain ⟨hj, hat, -⟩ := firstOccurrence_eq_some_iff.mp hfirst
    have hlength := hat.length_le
    rw [List.length_drop] at hlength
    exact absurd hat (h j (by omega))

theorem Splits.ne_nil (h : Splits p l parts) : parts ≠ [] := by
  cases h <;> exact List.cons_ne_nil _ _

theorem Splits.subset_of_mem (h : Splits p l parts) {part : List α} (hpart : part ∈ parts) :
    part ⊆ l := by
  induction h with
  | last _ =>
    rw [List.mem_singleton.mp hpart]
    exact List.Subset.refl _
  | piece _ _ ih =>
    rcases List.mem_cons.mp hpart with rfl | hrest
    · exact List.take_subset _ _
    · exact List.Subset.trans (ih hrest) (List.drop_subset _ _)

/-- The pieces joined again are the list. -/
theorem Splits.intercalate (h : Splits p l parts) : p.intercalate parts = l := by
  induction h with
  | last _ => exact List.intercalate_singleton
  | @piece l parts j hfirst hrest ih =>
    obtain ⟨t, ht⟩ := firstOccurrence_spec hfirst
    have hbehind : l.drop (j + p.length) = t := by
      rw [← List.drop_drop, ← ht, List.drop_left]
    rw [List.intercalate_cons_of_ne_nil hrest.ne_nil, ih, hbehind, List.append_assoc, ht,
      List.take_append_drop]

/-- There is one way to cut a list. -/
theorem Splits.unique (h : Splits p l parts) (h' : Splits p l parts') : parts = parts' := by
  induction h generalizing parts' with
  | last hnone =>
    cases h' with
    | last _ => rfl
    | piece hfirst _ => exact absurd (infix_of_firstOccurrence hfirst) hnone
  | piece hfirst _ ih =>
    cases h' with
    | last hnone => exact absurd (infix_of_firstOccurrence hfirst) hnone
    | piece hfirst' hrest' =>
      obtain rfl := Option.some.inj (hfirst.symm.trans hfirst')
      rw [ih hrest']

/-- What follows an occurrence does not matter to the first one. -/
theorem firstOccurrence_append_self (p a r : List α) :
    firstOccurrence p (a ++ p ++ r) = firstOccurrence p (a ++ p) := by
  cases hfirst : firstOccurrence p (a ++ p) with
  | none =>
    have hinfix : p <:+: a ++ p := (List.suffix_append a p).isInfix
    exact absurd hinfix (firstOccurrence_eq_none_iff.mp hfirst)
  | some j => exact firstOccurrence_append hfirst r

theorem splits_append_iff : Splits p (a ++ p ++ r) (a :: parts) ↔
    firstOccurrence p (a ++ p) = some a.length ∧ Splits p r parts := by
  have hinfix : p <:+: a ++ p ++ r := ⟨a, r, rfl⟩
  constructor
  · generalize hl : a ++ p ++ r = l at *
    generalize hparts : a :: parts = all
    intro h
    cases h with
    | last hnone => exact absurd hinfix hnone
    | @piece _ _ j hfirst hrest =>
      obtain ⟨hfront, rfl⟩ := List.cons.inj hparts
      have hj : j = a.length := by
        have hle := (firstOccurrence_eq_some_iff.mp hfirst).1
        rw [hfront, List.length_take_of_le hle]
      have hbehind : l.drop (a.length + p.length) = r := by
        rw [← hl]
        exact List.drop_left' List.length_append
      rw [hj, hbehind] at hrest
      rw [← hl, firstOccurrence_append_self, hj] at hfirst
      exact ⟨hfirst, hrest⟩
  · rintro ⟨hfirst, hrest⟩
    have hat : firstOccurrence p (a ++ p ++ r) = some a.length := by
      rw [firstOccurrence_append_self, hfirst]
    have hfront : (a ++ p ++ r).take a.length = a := by
      rw [List.append_assoc, List.take_left]
    have hbehind : (a ++ p ++ r).drop (a.length + p.length) = r :=
      List.drop_left' List.length_append
    have hpiece := Splits.piece hat (hbehind.symm ▸ hrest)
    rw [hfront] at hpiece
    exact hpiece

/-- Exactly the lists that are apart come back from their join. -/
theorem splits_intercalate_iff : Splits p (p.intercalate parts) parts ↔ Apart p parts := by
  induction parts with
  | nil => exact ⟨fun h => h.ne_nil rfl, False.elim⟩
  | cons a parts ih =>
    cases parts with
    | nil =>
      rw [List.intercalate_singleton]
      constructor
      · generalize hparts : [a] = all
        intro h
        cases h with
        | last hnone => exact hnone
        | piece _ hrest => exact absurd (List.cons.inj hparts).2.symm hrest.ne_nil
      · exact .last
    | cons b parts =>
      rw [List.intercalate_cons_cons, splits_append_iff, ih]
      rfl

end SysExploration
