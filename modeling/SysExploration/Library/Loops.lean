import Mathlib.Data.Nat.Notation

/-! Loops whose body ends them with a result or goes on in a new state, and can also fail. -/
namespace SysExploration

variable {ε σ β : Type*} {body : σ → Except ε (β ⊕ σ)} {good I : σ → Prop} {s t : σ} {b : β}

/-- At most `fuel` rounds of the body; `endless` when it would go on. -/
def loop (endless : ε) (body : σ → Except ε (β ⊕ σ)) : ℕ → σ → Except ε β
  | 0, _ => .error endless
  | fuel + 1, s => (body s).bind (Sum.elim .ok (loop endless body fuel))

/-- The loop ends with a result, and the states it goes on in are good ones. -/
inductive Halts (body : σ → Except ε (β ⊕ σ)) (good : σ → Prop) : σ → β → Prop
  | done {s : σ} {b : β} : body s = .ok (.inl b) → Halts body good s b
  | next {s t : σ} {b : β} : body s = .ok (.inr t) → good t → Halts body good t b →
      Halts body good s b

/-- What ends, ends for all large amounts of fuel. -/
theorem Halts.exists_fuel (endless : ε) (h : Halts body good s b) :
    ∃ n, ∀ fuel, n < fuel → loop endless body fuel s = .ok b := by
  induction h with
  | done hbody =>
    refine ⟨0, fun fuel hfuel => ?_⟩
    obtain ⟨m, rfl⟩ := Nat.exists_eq_add_one.mpr hfuel
    rw [loop, hbody]
    rfl
  | next hbody _ _ ih =>
    obtain ⟨n, hn⟩ := ih
    refine ⟨n + 1, fun fuel hfuel => ?_⟩
    obtain ⟨m, rfl⟩ := Nat.exists_eq_add_one.mpr (Nat.zero_lt_of_lt hfuel)
    rw [loop, hbody]
    exact hn m (Nat.lt_of_succ_lt_succ hfuel)

/-- A round that goes on leads to the rest of the loop. -/
theorem Halts.cases_next (h : Halts body good s b) (hbody : body s = .ok (.inr t)) :
    good t ∧ Halts body good t b := by
  cases h with
  | done hdone => cases hdone.symm.trans hbody
  | next hnext hgood hrest =>
    obtain rfl := Sum.inr.inj (Except.ok.inj (hnext.symm.trans hbody))
    exact ⟨hgood, hrest⟩

/-- The loop has no other result, whatever the fuel. -/
theorem Halts.eq_of_loop {endless : ε} {b' : β} (h : Halts body good s b) {fuel : ℕ}
    (hloop : loop endless body fuel s = .ok b') : b' = b := by
  induction h generalizing fuel with
  | done hbody =>
    cases fuel with
    | zero => cases hloop
    | succ fuel =>
      rw [loop, hbody] at hloop
      exact (Except.ok.inj hloop).symm
  | next hbody _ _ ih =>
    cases fuel with
    | zero => cases hloop
    | succ fuel =>
      rw [loop, hbody] at hloop
      exact ih hloop

theorem Halts.mono {good' : σ → Prop} (h : Halts body good s b) (himp : ∀ t, good t → good' t) :
    Halts body good' s b := by
  induction h with
  | done hbody => exact .done hbody
  | next hbody hgood _ ih => exact .next hbody (himp _ hgood) ih

/-- Every round ends the loop with a result as asked for, or keeps the invariant and decreases
the measure. -/
def Progress (body : σ → Except ε (β ⊕ σ)) (I : σ → Prop) (Q : β → Prop) (μ : σ → ℕ) : Prop :=
  ∀ s, I s → (∃ b, body s = .ok (.inl b) ∧ Q b) ∨ ∃ t, body s = .ok (.inr t) ∧ I t ∧ μ t < μ s

theorem Progress.halts {Q : β → Prop} {μ : σ → ℕ} (hp : Progress body I Q μ) (h : I s) :
    ∃ b, Halts body I s b ∧ Q b := by
  induction hn : μ s using Nat.strongRecOn generalizing s with
  | ind n ih =>
    subst hn
    rcases hp s h with ⟨b, hbody, hb⟩ | ⟨t, hbody, ht, hless⟩
    · exact ⟨b, .done hbody, hb⟩
    · obtain ⟨b, hrest, hb⟩ := ih (μ t) hless ht rfl
      exact ⟨b, .next hbody ht hrest, hb⟩

/-- The measure bounds the rounds that are left. -/
theorem Progress.loop {Q : β → Prop} {μ : σ → ℕ} (hp : Progress body I Q μ) (endless : ε)
    {fuel : ℕ} (h : I s) (hfuel : μ s < fuel) : ∃ b, loop endless body fuel s = .ok b ∧ Q b := by
  induction fuel generalizing s with
  | zero => exact absurd hfuel (Nat.not_lt_zero _)
  | succ fuel ih =>
    rw [SysExploration.loop]
    rcases hp s h with ⟨b, hbody, hb⟩ | ⟨t, hbody, ht, hless⟩
    · rw [hbody]
      exact ⟨b, rfl, hb⟩
    · rw [hbody]
      exact ih ht (Nat.lt_of_lt_of_le hless (Nat.le_of_lt_succ hfuel))

/-- A loop that has entered a set of states no round leaves does not end. -/
theorem not_halts_of_trap {J : σ → Prop} (hJ : ∀ s, J s → ∃ t, body s = .ok (.inr t) ∧ J t)
    (h : J s) : ¬ Halts body good s b := by
  intro hhalts
  induction hhalts with
  | done hbody =>
    obtain ⟨t, hnext, -⟩ := hJ _ h
    cases hbody.symm.trans hnext
  | next hbody _ _ ih =>
    obtain ⟨t, hnext, ht⟩ := hJ _ h
    obtain rfl := Sum.inr.inj (Except.ok.inj (hnext.symm.trans hbody))
    exact ih ht

end SysExploration
