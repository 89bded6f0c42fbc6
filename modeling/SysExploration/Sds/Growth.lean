import SysExploration.Sds.Refinement

/-! How often a string that is only edited and appended to has to move. -/
namespace SysExploration.Sds

variable {s s' s₀ : Sds} {op : SdsOp} {mem : Malloc} {addlen : ℕ}

/-- An edit that leaves the header as it is, but for the length. -/
def KeepsHeader (edit : Sds → Except SdsFault Sds) : Prop :=
  ∀ s s', edit s = .ok s' → s'.type = s.type ∧ s'.alloc = s.alloc

theorem keepsHeader_error (fault : SdsFault) : KeepsHeader fun _ => .error fault := by
  intro s s' h
  cases h

theorem keepsHeader_ok {g : Sds → Sds} (hg : ∀ s, (g s).type = s.type ∧ (g s).alloc = s.alloc) :
    KeepsHeader fun s => .ok (g s) := by
  intro s s' h
  cases h
  exact hg s

theorem KeepsHeader.bind {α : Type} {x : Sds → Except SdsFault α}
    {f : Sds → α → Except SdsFault Sds} (hf : ∀ a, KeepsHeader fun s => f s a) :
    KeepsHeader fun s => x s >>= f s := by
  intro s s' h
  change (x s).bind (f s) = .ok s' at h
  cases hx : x s with
  | error e =>
    rw [hx] at h
    cases h
  | ok a =>
    rw [hx] at h
    exact hf a s s' h

theorem KeepsHeader.ite {p : Sds → Prop} [DecidablePred p] {f g : Sds → Except SdsFault Sds}
    (hf : KeepsHeader f) (hg : KeepsHeader g) : KeepsHeader fun s => if p s then f s else g s := by
  intro s s' h
  simp only at h
  split_ifs at h
  · exact hf s s' h
  · exact hg s s' h

theorem keepsHeader_mapBytes (f : UInt8 → UInt8) : KeepsHeader (mapBytes f) := by
  unfold mapBytes
  apply KeepsHeader.bind
  intro b
  apply KeepsHeader.bind
  intro buf
  exact keepsHeader_ok fun s => ⟨rfl, rfl⟩

theorem keepsHeader_sdsIncrLen (incr : ℤ) : KeepsHeader (sdsIncrLen · incr) := by
  simp only [sdsIncrLen]
  apply KeepsHeader.ite
  · exact keepsHeader_error _
  · apply KeepsHeader.bind
    intro buf
    exact keepsHeader_ok fun s => ⟨rfl, rfl⟩

theorem keepsHeader_sdsupdatelen : KeepsHeader sdsupdatelen := by
  unfold sdsupdatelen
  apply KeepsHeader.ite
  · exact keepsHeader_ok fun s => ⟨rfl, rfl⟩
  · exact keepsHeader_error _

theorem keepsHeader_sdsclear : KeepsHeader sdsclear := by
  unfold sdsclear
  apply KeepsHeader.bind
  intro buf
  exact keepsHeader_ok fun s => ⟨rfl, rfl⟩

theorem keepsHeader_sdstrim (cset : Bytes) : KeepsHeader (sdstrim · cset) := by
  simp only [sdstrim]
  apply KeepsHeader.bind
  intro b
  apply KeepsHeader.bind
  intro buf
  apply KeepsHeader.bind
  intro buf
  exact keepsHeader_ok fun s => ⟨rfl, rfl⟩

theorem keepsHeader_sdsrange (start last : ℤ) : KeepsHeader (sdsrange · start last) := by
  simp only [sdsrange]
  apply KeepsHeader.ite
  · exact keepsHeader_ok fun s => ⟨rfl, rfl⟩
  · apply KeepsHeader.bind
    intro newlen
    apply KeepsHeader.bind
    intro buf
    apply KeepsHeader.bind
    intro buf
    exact keepsHeader_ok fun s => ⟨rfl, rfl⟩

theorem keepsHeader_sdsmapchars (src dst : Bytes) (setlen : ℕ) :
    KeepsHeader (sdsmapchars · src dst setlen) := by
  unfold sdsmapchars
  apply KeepsHeader.bind
  intro src
  apply KeepsHeader.bind
  intro dst
  exact keepsHeader_mapBytes _

theorem keepsHeader_filled (bytes : Bytes) : KeepsHeader (fun s => do
    let buf ← writeBytes s.buf s.sdslen bytes
    ({ s with buf := buf } : Sds).sdsIncrLen bytes.length) := by
  apply KeepsHeader.bind
  intro buf s s' h
  exact keepsHeader_sdsIncrLen bytes.length { s with buf := buf } s' h

/-- The part of `sdscatlen`, `sdsgrowzero` and `sdscpylen` behind `sdsMakeRoomFor`. -/
theorem keepsHeader_stored {α β : Type} (x : Sds → Except SdsFault α)
    (y : Sds → α → Except SdsFault β) (z : Sds → α → β → Except SdsFault Bytes) (len : ℕ) :
    KeepsHeader (fun s => do
      let a ← x s
      let b ← y s a
      let buf ← z s a b
      .ok ({ s with buf := buf }.sdssetlen len)) := by
  apply KeepsHeader.bind
  intro a
  apply KeepsHeader.bind
  intro b
  apply KeepsHeader.bind
  intro buf
  exact keepsHeader_ok fun s => ⟨rfl, rfl⟩

theorem orNull_ok (x : Except SdsFault (Option Sds)) : orNull x (fun s => .ok s) = x := by
  match x with
  | .error e => rfl
  | .ok none => rfl
  | .ok (some s) => rfl

/-- A call edits the string where it is, or it makes room first. -/
theorem Valid.call_cases (h : s.Valid) (hop : op.Permitted s.len) (hfree : op ≠ .removeFreeSpace) :
    ∃ edit, KeepsHeader edit ∧ ((∀ mem, s.call mem op = (edit s).map some) ∨
      ∃ addlen, s.len + addlen = op.needs s.len ∧ s.len + addlen < 2 ^ 64 ∧
        ∀ mem, s.call mem op = orNull (s.sdsMakeRoomFor addlen mem) edit) := by
  cases op with
  | updatelen => exact ⟨_, keepsHeader_sdsupdatelen, .inl fun _ => rfl⟩
  | clear => exact ⟨_, keepsHeader_sdsclear, .inl fun _ => rfl⟩
  | removeFreeSpace => exact absurd rfl hfree
  | shorten n => exact ⟨_, keepsHeader_sdsIncrLen (-n), .inl fun _ => rfl⟩
  | trim cset => exact ⟨_, keepsHeader_sdstrim cset, .inl fun _ => rfl⟩
  | range start last => exact ⟨_, keepsHeader_sdsrange start last, .inl fun _ => rfl⟩
  | lower => exact ⟨_, keepsHeader_mapBytes tolower, .inl fun _ => rfl⟩
  | upper => exact ⟨_, keepsHeader_mapBytes toupper, .inl fun _ => rfl⟩
  | mapchars src dst setlen =>
    exact ⟨_, keepsHeader_sdsmapchars src dst setlen, .inl fun _ => rfl⟩
  | makeRoom addlen =>
    exact ⟨_, keepsHeader_ok fun s => ⟨rfl, rfl⟩, .inr ⟨addlen, rfl, hop, fun mem =>
      (orNull_ok (s.sdsMakeRoomFor addlen mem)).symm⟩⟩
  | receive addlen bytes =>
    exact ⟨_, keepsHeader_filled bytes, .inr ⟨addlen, rfl, hop.2.2, fun _ => rfl⟩⟩
  | cat t len =>
    exact ⟨_, keepsHeader_stored _ _ _ _, .inr ⟨len, rfl, hop.2, fun _ => rfl⟩⟩
  | growzero len =>
    have hlen : len < 2 ^ 64 := hop
    by_cases hle : len ≤ s.len
    · exact ⟨_, keepsHeader_ok fun s => ⟨rfl, rfl⟩, .inl fun mem => if_pos hle⟩
    · have hsum : s.len + (len - s.len) = max s.len len := by omega
      refine ⟨_, ?_, .inr ⟨len - s.len, hsum, by omega, fun mem => if_neg hle⟩⟩
      apply KeepsHeader.bind
      intro buf
      exact keepsHeader_ok fun s => ⟨rfl, rfl⟩
  | cpy t len =>
    have hlen : len < 2 ^ 64 := hop.2
    have hfits := h.len_le
    have hkeeps := keepsHeader_stored (fun _ => readBytes t 0 len)
      (fun s bytes => writeBytes s.buf 0 bytes) (fun _ _ buf => writeBytes buf len [0]) len
    by_cases hroom : s.sdsalloc < len
    · have hsum : s.len + (len - s.len) = len := by omega
      have hsub : toSize ((len : ℤ) - s.sdslen) = len - s.len := by
        unfold sdslen toSize toWord
        omega
      refine ⟨_, hkeeps, .inr ⟨len - s.len, hsum, by omega, ?_⟩⟩
      intro mem
      rw [Sds.call, sdscpylen, if_pos hroom, hsub]
    · refine ⟨_, hkeeps, .inl ?_⟩
      intro mem
      rw [Sds.call, sdscpylen, if_neg hroom]
      rfl

/-- The call needs memory: it returns `NULL` if there is none. -/
def Asks (s : Sds) (op : SdsOp) : Prop := s.call none op = .ok none

instance (s : Sds) (op : SdsOp) : Decidable (s.Asks op) :=
  inferInstanceAs (Decidable (s.call none op = .ok none))

theorem map_some_ne_null (x : Except SdsFault Sds) : x.map some ≠ .ok none := by
  cases x <;> simp [Except.map]

theorem of_map_some {x : Except SdsFault Sds} (h : x.map some = .ok (some s)) : x = .ok s := by
  cases x with
  | error e => cases h
  | ok t =>
    cases h
    rfl

/-- A call keeps the header, or asks the allocator and moves the string to a block with the
capacity of `sdsMakeRoomFor`, as it had less than the call needs. -/
theorem Valid.call_header (h : s.Valid) (hop : op.Permitted s.len) (hfree : op ≠ .removeFreeSpace)
    (hcall : s.call mem op = .ok (some s')) :
    (¬ s.Asks op ∧ s'.type = s.type ∧ s'.alloc = s.alloc) ∨
    (s.Asks op ∧ mem.isSome ∧ s.sdsalloc < op.needs s.len ∧ s'.type ≠ .type5 ∧
      s'.alloc = preallocated (op.needs s.len) ∧ op.needs s.len + sdsMaxPrealloc < 2 ^ 64) := by
  obtain ⟨edit, hedit, hplace | ⟨addlen, hneeds, hsum, hroom⟩⟩ := h.call_cases hop hfree
  · rw [hplace] at hcall
    refine .inl ⟨?_, hedit s s' (of_map_some hcall)⟩
    rw [Asks, hplace]
    exact map_some_ne_null _
  · have havail := h.sdsavail_eq
    have hlen := h.len_le
    have hnone := h.makeRoom hsum none
    have hout := h.makeRoom hsum mem
    rw [Asks, hroom none]
    rw [hroom mem] at hcall
    rw [← hneeds]
    generalize s.sdsMakeRoomFor addlen none = out₀ at hnone ⊢
    generalize s.sdsMakeRoomFor addlen mem = out at hout hcall
    cases hout with
    | enough hle =>
      cases hnone with
      | enough _ => exact .inl ⟨map_some_ne_null _, hedit s s' (of_map_some hcall)⟩
      | refused hshort _ => omega
      | null hshort _ _ => omega
      | moved _ _ hmem _ => cases hmem
    | refused _ _ => cases hcall
    | null _ _ _ => cases hcall
    | @moved t garbage hshort hbig hmem hmoved =>
      obtain ⟨htype, halloc⟩ := hedit t s' (of_map_some hcall)
      have ht5 : t.type ≠ .type5 := by
        rw [hmoved.type_eq]
        exact roomType_ne _
      have hcap : t.alloc = preallocated (s.len + addlen) := by
        rw [← sdsalloc_of_ne ht5]
        exact hmoved.alloc
      refine .inr ⟨?_, by rw [hmem]; rfl, by omega, htype ▸ ht5, halloc.trans hcap, by omega⟩
      cases hnone with
      | enough hle => omega
      | refused _ hbig' => omega
      | null _ _ _ => rfl
      | moved _ _ hmem' _ => cases hmem'

/-- A string, how often it has moved, and the largest size that was asked for. -/
structure Counted where
  s : Sds
  moves : ℕ
  asked : ℕ
  deriving DecidableEq, Repr

/-- A call other than `sdsRemoveFreeSpace`, with what it adds to the counts. -/
def Counted.Step (v : Counted) (c : SdsOp × Malloc) (v' : Counted) : Prop :=
  c.1 ≠ .removeFreeSpace ∧ Sds.Step v.s c v'.s ∧
    v'.moves = (if v.s.Asks c.1 ∧ c.2.isSome then v.moves + 1 else v.moves) ∧
    v'.asked = max v.asked (c.1.needs v.s.len)

/-- What the moves have bought: the capacity at least doubles with each up to a mebibyte, and then
it grows by one mebibyte at least. -/
def Paid (moves capacity : ℕ) : Prop :=
  2 ^ (moves + 1) ≤ capacity + 2 ∧ capacity < 2 * sdsMaxPrealloc ∨
    sdsMaxPrealloc ≤ capacity ∧ moves ≤ 20 + capacity / sdsMaxPrealloc

theorem paid_start (capacity : ℕ) : Paid 0 capacity := by
  rcases Nat.lt_or_ge capacity (2 * sdsMaxPrealloc) with hsmall | hbig
  · exact .inl ⟨Nat.le_add_left 2 capacity, hsmall⟩
  · exact .inr ⟨by omega, Nat.zero_le _⟩

theorem Paid.moves_le {m n : ℕ} (h : Paid m n) : m ≤ 20 + n / sdsMaxPrealloc := by
  rcases h with ⟨hpow, hsmall⟩ | ⟨-, hle⟩
  · by_contra hmany
    unfold sdsMaxPrealloc at hsmall hmany
    have hpow' : 2 ^ 22 ≤ 2 ^ (m + 1) := Nat.pow_le_pow_right (by decide) (by omega)
    omega
  · exact hle

/-- A move to a block for more than there was. -/
theorem Paid.move {m c n : ℕ} (h : Paid m c) (hlt : c < n) (hbig : n + sdsMaxPrealloc < 2 ^ 64) :
    Paid (m + 1) (preallocated n) := by
  have hle := h.moves_le
  rw [preallocated_eq hbig]
  split_ifs with hsmall
  · rcases h with ⟨hpow, -⟩ | ⟨hmany, -⟩
    · exact .inl ⟨by rw [Nat.pow_succ]; omega, by omega⟩
    · omega
  · refine .inr ⟨by omega, ?_⟩
    unfold sdsMaxPrealloc at hle hsmall ⊢
    omega

/-- What holds of a string that had the capacity `capacity` at first. -/
structure Counted.Bounded (capacity : ℕ) (v : Counted) : Prop where
  valid : v.s.Valid
  still : v.s.type = .type5 → v.moves = 0
  paid : v.s.type ≠ .type5 → Paid v.moves v.s.alloc
  alloc_le : v.s.type ≠ .type5 → v.s.alloc ≤ max capacity (v.asked + min v.asked sdsMaxPrealloc)

theorem Counted.Bounded.step {capacity : ℕ} {v v' : Counted} {c : SdsOp × Malloc}
    (h : v.Bounded capacity) (hstep : v.Step c v') : v'.Bounded capacity := by
  obtain ⟨hfree, hcall, hmoves, hasked⟩ := hstep
  have hvalid := (Sds.Step.edits hcall h.valid).1
  have hlen := h.valid.len_le
  obtain ⟨hop, hsome | ⟨hnull, hsame⟩⟩ := hcall
  · rcases h.valid.call_header hop hfree hsome with ⟨hno, htype, halloc⟩ |
      ⟨hasks, hmem, hneeds, h5, halloc, hbig⟩
    · rw [if_neg fun hboth => hno hboth.1] at hmoves
      constructor
      · exact hvalid
      · intro h5
        rw [hmoves]
        exact h.still (htype ▸ h5)
      · intro h5
        rw [hmoves, halloc]
        exact h.paid (htype ▸ h5)
      · intro h5
        have hle := h.alloc_le (htype ▸ h5)
        omega
    · rw [if_pos ⟨hasks, hmem⟩] at hmoves
      constructor
      · exact hvalid
      · exact fun hno => absurd hno h5
      · intro _
        rw [hmoves, halloc]
        by_cases hold : v.s.type = .type5
        · rw [h.still hold]
          exact (paid_start _).move hneeds hbig
        · have hcap := sdsalloc_of_ne hold
          exact (h.paid hold).move (hcap ▸ hneeds) hbig
      · intro _
        rw [halloc, preallocated_eq hbig]
        split_ifs <;> omega
  · have hout := h.valid.call hop c.2
    rw [hnull] at hout
    cases hout with
    | null hmem =>
      rw [hmem, if_neg (by simp)] at hmoves
      constructor
      · exact hvalid
      · rw [hsame, hmoves]
        exact h.still
      · rw [hsame, hmoves]
        exact h.paid
      · intro h5
        rw [hsame] at h5 ⊢
        have hle := h.alloc_le h5
        omega

/-- The counts after a call that returns. -/
def Counted.next (v : Counted) (c : SdsOp × Malloc) : Option Counted :=
  if c.1 ≠ .removeFreeSpace then
    (v.s.next c).map fun s => ⟨s, if v.s.Asks c.1 ∧ c.2.isSome then v.moves + 1 else v.moves,
      max v.asked (c.1.needs v.s.len)⟩
  else none

theorem Counted.step_of_next {v v' : Counted} {c : SdsOp × Malloc} (h : v.next c = some v') :
    v.Step c v' := by
  unfold next at h
  by_cases hfree : c.1 ≠ .removeFreeSpace
  · rw [if_pos hfree] at h
    obtain ⟨s, hs, rfl⟩ := Option.map_eq_some_iff.mp h
    exact ⟨hfree, Sds.step_of_next hs, rfl, rfl⟩
  · rw [if_neg hfree] at h
    cases h

end SysExploration.Sds
