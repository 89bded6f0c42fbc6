import Mathlib.Data.List.Basic
import Mathlib.Data.Nat.Notation
import Mathlib.Order.Basic

/-! Finite runs of a labelled transition system, with the invariant rule and the
comparison of two properties asked of every step of a run. -/
namespace SysExploration

variable {σ ι : Type*} {step : σ → ι → σ → Prop} {s₀ s s' : σ} {i : ι} {is js : List ι}

/-- The inputs of a finite run, in order, and the state they lead to. -/
inductive Run (step : σ → ι → σ → Prop) (s₀ : σ) : List ι → σ → Prop
  | nil : Run step s₀ [] s₀
  | snoc {is : List ι} {i : ι} {s s' : σ} :
      Run step s₀ is s → step s i s' → Run step s₀ (is ++ [i]) s'

/-- A property kept by every step holds in every state a run reaches. -/
theorem Run.invariant {I : σ → Prop} (h : Run step s₀ is s) (h0 : I s₀)
    (hs : ∀ s i s', I s → step s i s' → I s') : I s := by
  induction h with
  | nil => exact h0
  | snoc _ hstep ih => exact hs _ _ _ ih hstep

theorem Run.single (hs : step s i s') : Run step s [i] s' := .snoc .nil hs

theorem Run.trans (h : Run step s₀ is s) (h' : Run step s js s') : Run step s₀ (is ++ js) s' := by
  induction h' with
  | nil => simpa using h
  | snoc _ hstep ih =>
    rw [← List.append_assoc]
    exact .snoc ih hstep

/-- A run passes through a state between the first inputs and the rest. -/
theorem Run.of_append (h : Run step s₀ (is ++ js) s) : ∃ t, Run step s₀ is t ∧ Run step t js s := by
  generalize he : is ++ js = ks at h
  induction h generalizing js with
  | nil =>
    obtain ⟨rfl, rfl⟩ := List.append_eq_nil_iff.mp he
    exact ⟨s₀, .nil, .nil⟩
  | @snoc ks i s s' hr hstep ih =>
    rcases List.eq_nil_or_concat' js with rfl | ⟨rest, last, rfl⟩
    · rw [List.append_nil] at he
      exact ⟨s', he ▸ .snoc hr hstep, .nil⟩
    · rw [← List.append_assoc] at he
      obtain ⟨rfl, rfl⟩ := List.append_singleton_inj.mp he
      obtain ⟨t, hfirst, hrest⟩ := ih rfl
      exact ⟨t, hfirst, .snoc hrest hstep⟩

/-- A run does nothing or begins with a step. -/
theorem Run.cases_head (h : Run step s₀ is s) :
    is = [] ∧ s = s₀ ∨ ∃ i js t, is = i :: js ∧ step s₀ i t ∧ Run step t js s := by
  induction h with
  | nil => exact .inl ⟨rfl, rfl⟩
  | @snoc is i s s' _ hstep ih =>
    rcases ih with ⟨rfl, rfl⟩ | ⟨j, js, t, rfl, hfirst, hrest⟩
    · exact .inr ⟨i, [], s', rfl, hstep, .nil⟩
    · exact .inr ⟨j, js ++ [i], t, rfl, hfirst, .snoc hrest hstep⟩

theorem Run.of_single (h : Run step s [i] s') : step s i s' := by
  rcases h.cases_head with ⟨hnil, -⟩ | ⟨j, js, t, heq, hstep, hrest⟩
  · cases hnil
  · cases heq
    rcases hrest.cases_head with ⟨-, rfl⟩ | ⟨_, _, _, hnil, -⟩
    · exact hstep
    · cases hnil

/-- A run whose steps are functions of the state can be computed. -/
theorem Run.of_foldlM {ε : Type*} {f : σ → ι → Except ε σ} (h : is.foldlM f s₀ = .ok s)
    (hs : ∀ s, ∀ i ∈ is, ∀ s', f s i = .ok s' → step s i s') : Run step s₀ is s := by
  induction is generalizing s₀ with
  | nil =>
    cases h
    exact .nil
  | cons i is ih =>
    rw [List.foldlM_cons] at h
    cases hf : f s₀ i with
    | error e =>
      rw [hf] at h
      cases h
    | ok t =>
      rw [hf] at h
      have hrest := ih h fun s j hj => hs s j (List.mem_cons_of_mem i hj)
      exact (Run.single (hs s₀ i List.mem_cons_self t hf)).trans hrest

theorem Run.mono {step' : σ → ι → σ → Prop} (h : Run step s₀ is s)
    (hs : ∀ s i s', step s i s' → step' s i s') : Run step' s₀ is s := by
  induction h with
  | nil => exact .nil
  | snoc _ hstep ih => exact ih.snoc (hs _ _ _ hstep)

theorem Run.of_foldlM_some {f : σ → ι → Option σ} (h : is.foldlM f s₀ = some s) :
    Run (fun s i s' => f s i = some s') s₀ is s := by
  induction is generalizing s₀ with
  | nil =>
    cases h
    exact .nil
  | cons i is ih =>
    rw [List.foldlM_cons] at h
    cases hf : f s₀ i with
    | none =>
      rw [hf] at h
      cases h
    | some t =>
      rw [hf] at h
      exact (Run.single hf).trans (ih h)

/-- A second system that can answer every step of the first one runs along with it. -/
theorem Run.simulates {τ : Type*} {step' : τ → ι → τ → Prop} {R : σ → τ → Prop} {t₀ : τ}
    (h : Run step s₀ is s) (h0 : R s₀ t₀)
    (hs : ∀ s t i s', R s t → step s i s' → ∃ t', step' t i t' ∧ R s' t') :
    ∃ t, Run step' t₀ is t ∧ R s t := by
  induction h with
  | nil => exact ⟨t₀, .nil, h0⟩
  | snoc _ hstep ih =>
    obtain ⟨t, hr, hR⟩ := ih
    obtain ⟨t', hstep', hR'⟩ := hs _ _ _ _ hR hstep
    exact ⟨t', .snoc hr hstep', hR'⟩

/-- `P` is asked of every input of the list in the state in which the run meets it. -/
def Along (step : σ → ι → σ → Prop) (s₀ : σ) (P : σ → ι → Prop) (is : List ι) : Prop :=
  ∀ pre i post s, is = pre ++ i :: post → Run step s₀ pre s → P s i

/-- An invariant may rely on what is asked of the steps before it. -/
theorem Along.invariant {P : σ → ι → Prop} {I : σ → Prop} (h : Along step s₀ P is) (h0 : I s₀)
    (hs : ∀ s i s', I s → P s i → step s i s' → I s')
    (hrun : Run step s₀ js s) (hpre : ∃ post, is = js ++ post) : I s := by
  induction hrun with
  | nil => exact h0
  | @snoc js i s s' hr hstep ih =>
    obtain ⟨post, rfl⟩ := hpre
    have hsplit : js ++ [i] ++ post = js ++ i :: post := by simp
    exact hs s i s' (ih ⟨i :: post, hsplit⟩) (h js i post s hsplit hr) hstep

/-- Steps that are determined by their input make the state a run leads to unique. -/
theorem Run.unique (hdet : ∀ s i t t', step s i t → step s i t' → t = t') {t : σ}
    (h : Run step s₀ is s) (h' : Run step s₀ is t) : s = t := by
  induction h generalizing t with
  | nil =>
    rcases h'.cases_head with ⟨-, ht⟩ | ⟨i, js, u, he, -⟩
    · exact ht.symm
    · cases he
  | @snoc is i s s' _ hstep ih =>
    generalize he : is ++ [i] = js at h'
    cases h' with
    | nil => simp at he
    | snoc hr' hstep' =>
      obtain ⟨rfl, rfl⟩ := List.append_singleton_inj.mp he
      obtain rfl := ih hr'
      exact hdet s i s' t hstep hstep'

/-- What is asked of a longer run is asked of the shorter one and of its last step. -/
theorem Run.along_concat {P : σ → ι → Prop}
    (hdet : ∀ s i t t', step s i t → step s i t' → t = t') (h : Run step s₀ is s) :
    Along step s₀ P (is ++ [i]) ↔ Along step s₀ P is ∧ P s i := by
  constructor
  · intro ha
    refine ⟨?_, ha is i [] s rfl h⟩
    intro pre j post t he hr
    exact ha pre j (post ++ [i]) t (by simp [he]) hr
  · rintro ⟨ha, hlast⟩ pre j post t he hr
    rcases List.eq_nil_or_concat' post with rfl | ⟨rest, last, rfl⟩
    · obtain ⟨rfl, rfl⟩ := List.append_singleton_inj.mp he
      obtain rfl := h.unique hdet hr
      exact hlast
    · rw [← List.cons_append, ← List.append_assoc] at he
      obtain ⟨rfl, rfl⟩ := List.append_singleton_inj.mp he
      exact ha pre j rest t rfl hr

/-- A quantity no step increases is unchanged at the end of a run if and only if every step
leaves it unchanged. -/
theorem Run.constant_iff {α : Type*} [PartialOrder α] {P : σ → ι → Prop} {f : σ → α}
    (hdet : ∀ s i t t', step s i t → step s i t' → t = t')
    (hle : ∀ s i s', step s i s' → f s' ≤ f s)
    (hP : ∀ s i s', step s i s' → (f s' = f s ↔ P s i)) (h : Run step s₀ is s) :
    f s = f s₀ ↔ Along step s₀ P is := by
  have hmono {js : List ι} {t : σ} (hr : Run step s₀ js t) : f t ≤ f s₀ :=
    hr.invariant (I := fun t => f t ≤ f s₀) (le_refl _) fun s i s' hs hstep =>
      le_trans (hle s i s' hstep) hs
  induction h with
  | nil =>
    apply iff_of_true rfl
    intro pre i post s he
    simp at he
  | @snoc is i s s' hr hstep ih =>
    rw [hr.along_concat hdet, ← hP s i s' hstep]
    constructor
    · intro he
      have hs : f s = f s₀ := le_antisymm (hmono hr) (he ▸ hle s i s' hstep)
      exact ⟨ih.mp hs, he.trans hs.symm⟩
    · rintro ⟨ha, he⟩
      exact he.trans (ih.mpr ha)

/-- Two step properties that agree under an invariant, which either of them keeps, hold
along the same runs. -/
theorem along_iff {P G : σ → ι → Prop} {I : σ → Prop} (h0 : I s₀)
    (hs : ∀ s i s', I s → G s i → step s i s' → I s')
    (hPG : ∀ s i, I s → (P s i ↔ G s i)) : Along step s₀ P is ↔ Along step s₀ G is := by
  constructor
  · intro h pre i post s he hr
    have hI : I s := h.invariant h0 (fun s i s' hI hP => hs s i s' hI ((hPG s i hI).mp hP))
      hr ⟨i :: post, he⟩
    exact (hPG s i hI).mp (h pre i post s he hr)
  · intro h pre i post s he hr
    exact (hPG s i (h.invariant h0 hs hr ⟨i :: post, he⟩)).mpr (h pre i post s he hr)

end SysExploration
