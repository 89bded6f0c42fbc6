import Mathlib.Data.List.Basic
import Mathlib.Data.Nat.Notation
import Mathlib.Logic.Nontrivial.Basic
import Mathlib.Tactic.ByContra

/-! A stream handed on in chunks, each of them offered once: what is not taken of a chunk is
not offered again. -/
namespace SysExploration

/-- A chunk, by its length and how many of its first elements were taken. -/
structure Transfer where
  offered : ℕ
  taken : ℕ
  le : taken ≤ offered
  deriving DecidableEq, Repr

namespace Transfer

variable {α β : Type*} {a m n p : ℕ} {ts : List Transfer}

/-- The transfer of `offered` elements to a receiver with room for `n`. -/
def upTo (offered n : ℕ) : Transfer := ⟨offered, min n offered, Nat.min_le_right n offered⟩

/-- Nothing was left of the chunk. -/
def Whole (t : Transfer) : Prop := t.taken = t.offered

/-- The length of the stream so far. -/
def total : List Transfer → ℕ
  | [] => 0
  | t :: rest => t.offered + total rest

/-- The positions of the stream that were taken, for chunks that begin at position `a`. -/
def takenFrom : ℕ → List Transfer → List ℕ
  | _, [] => []
  | a, t :: rest => List.range' a t.taken ++ takenFrom (a + t.offered) rest

/-- Nothing is taken after a chunk of which something was left. -/
def Gapless (ts : List Transfer) : Prop := ts.Pairwise fun t u => 0 < u.taken → t.Whole

instance (t : Transfer) : Decidable t.Whole := inferInstanceAs (Decidable (_ = _))

instance (ts : List Transfer) : Decidable (Gapless ts) :=
  inferInstanceAs (Decidable (List.Pairwise _ ts))

@[simp] theorem total_nil : total [] = 0 := rfl

@[simp] theorem total_cons (t : Transfer) : total (t :: ts) = t.offered + total ts := rfl

@[simp] theorem total_concat (t : Transfer) : total (ts ++ [t]) = total ts + t.offered := by
  induction ts with
  | nil => simp
  | cons u rest ih => rw [List.cons_append, total_cons, total_cons, ih, Nat.add_assoc]

theorem takenFrom_concat (t : Transfer) :
    takenFrom a (ts ++ [t]) = takenFrom a ts ++ List.range' (a + total ts) t.taken := by
  induction ts generalizing a with
  | nil => simp [takenFrom]
  | cons u rest ih =>
    simp only [List.cons_append, takenFrom, ih, total_cons, List.append_assoc, Nat.add_assoc]

theorem le_of_mem_takenFrom (h : p ∈ takenFrom a ts) : a ≤ p := by
  induction ts generalizing a with
  | nil => cases h
  | cons t rest ih =>
    rcases List.mem_append.mp h with hmem | hmem
    · exact (List.mem_range'_1.mp hmem).1
    · have := ih hmem
      omega

theorem takenFrom_eq_nil_iff : takenFrom a ts = [] ↔ ∀ t ∈ ts, t.taken = 0 := by
  induction ts generalizing a with
  | nil => simp [takenFrom]
  | cons t rest ih => simp [takenFrom, ih]

/-- The positions taken are the first ones of the stream exactly when there is no gap. -/
theorem takenFrom_prefix_iff (a m : ℕ) (ts : List Transfer) :
    takenFrom a ts <+: List.range' a (total ts + m) ↔ Gapless ts := by
  induction ts generalizing a with
  | nil => simp [takenFrom, Gapless]
  | cons t rest ih =>
    have hle := t.le
    have hsplit : List.range' a (total (t :: rest) + m) = List.range' a t.taken ++
        List.range' (a + t.taken) (t.offered - t.taken + (total rest + m)) := by
      rw [List.range'_append_1, total_cons]
      congr 1
      omega
    rw [takenFrom, hsplit, List.prefix_append_right_inj, Gapless, List.pairwise_cons]
    by_cases hwhole : t.Whole
    · have hw : t.taken = t.offered := hwhole
      rw [hw, Nat.sub_self, Nat.zero_add, ih]
      exact ⟨fun h => ⟨fun _ _ _ => hwhole, h⟩, fun h => h.2⟩
    · have hlt : t.taken < t.offered := Nat.lt_of_le_of_ne hle hwhole
      obtain ⟨left, hleft⟩ := Nat.exists_eq_add_of_lt hlt
      -- the first position of the stream left over is not one of a later chunk
      have hnil : takenFrom (a + t.offered) rest <+:
          List.range' (a + t.taken) (t.offered - t.taken + (total rest + m)) ↔
            takenFrom (a + t.offered) rest = [] := by
        rw [show t.offered - t.taken + (total rest + m) = left + (total rest + m) + 1 by omega,
          List.range'_succ]
        cases htaken : takenFrom (a + t.offered) rest with
        | nil => simp
        | cons q qs =>
          have hq : a + t.offered ≤ q := le_of_mem_takenFrom (htaken ▸ List.mem_cons_self)
          simp only [List.cons_prefix_cons, reduceCtorEq, iff_false, not_and]
          omega
      rw [hnil, takenFrom_eq_nil_iff]
      constructor
      · intro hzero
        have hnone {u v : Transfer} (hv : v ∈ rest) (hpos : 0 < v.taken) : u.Whole :=
          absurd (hzero v hv) (by omega)
        exact ⟨fun u hu => hnone hu, List.pairwise_of_forall_mem_list fun u _ v hv => hnone hv⟩
      · rintro ⟨hall, -⟩ u hu
        by_contra hpos
        exact hwhole (hall u hu (by omega))

example : ¬ Gapless [upTo 2 1, upTo 1 1] := by decide

theorem length_takenFrom_le (a : ℕ) (ts : List Transfer) : (takenFrom a ts).length ≤ total ts := by
  induction ts generalizing a with
  | nil => exact Nat.le_refl 0
  | cons t rest ih =>
    have hle := t.le
    have hrest := ih (a + t.offered)
    rw [takenFrom, List.length_append, List.length_range', total_cons]
    exact Nat.add_le_add hle hrest

/-- The whole stream is taken exactly when every chunk is. -/
theorem takenFrom_eq_iff (a : ℕ) (ts : List Transfer) :
    takenFrom a ts = List.range' a (total ts) ↔ ∀ t ∈ ts, t.Whole := by
  constructor
  · intro h
    have hlength : (takenFrom a ts).length = total ts := by rw [h, List.length_range']
    clear h
    induction ts generalizing a with
    | nil => simp
    | cons t rest ih =>
      have hle := t.le
      have hrest := length_takenFrom_le (a + t.offered) rest
      rw [takenFrom, List.length_append, List.length_range', total_cons] at hlength
      rw [List.forall_mem_cons]
      exact ⟨show t.taken = t.offered by omega, ih (a + t.offered) (by omega)⟩
  · intro h
    induction ts generalizing a with
    | nil => rfl
    | cons t rest ih =>
      rw [List.forall_mem_cons] at h
      have hw : t.taken = t.offered := h.1
      rw [takenFrom, ih _ h.2, hw, List.range'_append_1, total_cons]

/-- Positions that show the same prefix in every stream are a prefix themselves. -/
theorem prefix_of_forall_map [Nontrivial α] [DecidableEq β] {l₁ l₂ : List β}
    (h : ∀ f : β → α, l₁.map f <+: l₂.map f) : l₁ <+: l₂ := by
  obtain ⟨x, y, hxy⟩ := exists_pair_ne α
  have hlen : l₁.length ≤ l₂.length := by simpa using (h fun _ => x).length_le
  rw [List.prefix_iff_getElem]
  apply Exists.intro hlen
  intro i hi
  -- the stream that marks the position read at `i`
  have hmark := (List.prefix_iff_getElem.mp (h fun b => if b = l₁[i] then x else y)).2 i
    (by simpa using hi)
  simp only [List.getElem_map, ↓reduceIte] at hmark
  by_contra hne
  rw [if_neg (Ne.symm hne)] at hmark
  exact hxy hmark

theorem forall_map_prefix_iff [Nontrivial α] [DecidableEq β] {l₁ l₂ : List β} :
    (∀ f : β → α, l₁.map f <+: l₂.map f) ↔ l₁ <+: l₂ :=
  ⟨prefix_of_forall_map, fun h f => h.map f⟩

theorem forall_map_eq_iff [Nontrivial α] [DecidableEq β] {l₁ l₂ : List β} :
    (∀ f : β → α, l₁.map f = l₂.map f) ↔ l₁ = l₂ := by
  constructor
  · intro h
    have hmap (f : β → α) : l₁.map f <+: l₂.map f := h f ▸ List.prefix_refl (l₁.map f)
    have hpre : l₁ <+: l₂ := prefix_of_forall_map hmap
    obtain ⟨x, -⟩ := exists_pair_ne α
    exact hpre.eq_of_length (by simpa using congrArg List.length (h fun _ => x))
  · rintro rfl f
    rfl

/-- `a` elements of `source` were fetched: those transferred, of which `sent` was taken, and the
chunk at hand. -/
structure Relayed (source : ℕ → α) (a : ℕ) (ts : List Transfer) (chunk sent : List α) : Prop where
  fetched : a = total ts + chunk.length
  chunk_eq : chunk = (List.range' (total ts) chunk.length).map source
  sent_eq : sent = (takenFrom 0 ts).map source

variable {source : ℕ → α} {chunk sent : List α}

theorem Relayed.start (source : ℕ → α) : Relayed source 0 [] [] [] := ⟨rfl, rfl, rfl⟩

/-- The next chunk is fetched. -/
theorem Relayed.fetch (h : Relayed source a ts [] sent) (n : ℕ) :
    Relayed source (a + n) ts ((List.range' a n).map source) sent := by
  have hlength : ((List.range' a n).map source).length = n := by simp
  have ha : a = total ts := h.fetched
  constructor
  · rw [hlength, ha]
  · rw [hlength, ha]
  · exact h.sent_eq

/-- The chunk at hand is offered, and its rest dropped. -/
theorem Relayed.offer (h : Relayed source a ts chunk sent) {t : Transfer}
    (ht : t.offered = chunk.length) :
    Relayed source a (ts ++ [t]) [] (sent ++ chunk.take t.taken) := by
  have hle : t.taken ≤ chunk.length := ht ▸ t.le
  constructor
  · rw [total_concat, ht]
    exact h.fetched
  · rfl
  · rw [takenFrom_concat, List.map_append, ← h.sent_eq, Nat.zero_add, h.chunk_eq,
      ← List.map_take, List.take_range'_of_length_ge hle]

theorem Relayed.total_le (h : Relayed source a ts chunk sent) : total ts ≤ a := by
  have := h.fetched
  omega

/-- Whatever the stream is, what was sent is a prefix of it, exactly when the transfers leave no
gap. -/
theorem forall_sent_prefix_iff [Nontrivial α] {out : (ℕ → α) → List α}
    (h : ∀ source, out source = (takenFrom 0 ts).map source) (hn : total ts ≤ n) :
    (∀ source, out source <+: (List.range n).map source) ↔ Gapless ts := by
  obtain ⟨m, rfl⟩ := Nat.exists_eq_add_of_le hn
  simp only [h]
  rw [forall_map_prefix_iff, List.range_eq_range', takenFrom_prefix_iff]

/-- Whatever the stream is, all that was fetched was sent, exactly when every chunk was taken
whole. -/
theorem forall_sent_eq_iff [Nontrivial α] {out : (ℕ → α) → List α}
    (h : ∀ source, out source = (takenFrom 0 ts).map source) :
    (∀ source, out source = (List.range (total ts)).map source) ↔ ∀ t ∈ ts, t.Whole := by
  simp only [h]
  rw [forall_map_eq_iff, List.range_eq_range', takenFrom_eq_iff]

end Transfer
end SysExploration
