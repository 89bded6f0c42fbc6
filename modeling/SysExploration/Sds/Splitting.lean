import SysExploration.Library.Splitting
import SysExploration.Sds.Editing
import SysExploration.Sds.Quoting

/-! `sdssplitlen`, `sdsjoin` and `sdsjoinsds`. -/
namespace SysExploration

/-- The variables of `sdssplitlen`; `elements` is the number of the tokens, and `k` that of the next
call of the allocator. -/
structure Splitting where
  j : ℕ
  start : ℕ
  slots : ℕ
  tokens : List Sds
  k : ℕ
  deriving DecidableEq, Repr

namespace Splitting

/-- Room for the next token and the final one; `none` is `goto cleanup`. -/
def moreSlots (mem : ℕ → Malloc) (v : Splitting) : Except SdsFault (Option Splitting) :=
  if v.slots < v.tokens.length + 2 then
    if 2 ^ 31 ≤ v.slots * 2 then .error .overflow
    else .ok ((mem v.k).map fun _ => { v with slots := v.slots * 2, k := v.k + 1 })
  else .ok (some v)

/-- `tokens[elements] = sdsnewlen(s+start, n)`, with the test for `NULL`. -/
def addToken (mem : ℕ → Malloc) (s : Bytes) (n : ℕ) (v : Splitting) :
    Except SdsFault (Option Splitting) := do
  let token ← Sds.sdsnewlen (.data (s.drop v.start)) n (mem v.k)
  if v.tokens.length < v.slots then
    .ok (token.map fun token => { v with tokens := v.tokens ++ [token], k := v.k + 1 })
  else .error .outOfRange

/-- The search for the separator. For one byte the test in front of `memcmp` is the same one. -/
def separatorAt (s : Bytes) (j : ℕ) (sep : Bytes) (seplen : ℕ) : Except SdsFault Bool := do
  let part ← readBytes s j seplen
  let sep ← readBytes sep 0 seplen
  .ok (Sds.memcmp part sep = 0)

/-- What follows `if (... == NULL) goto cleanup;`. -/
def orCleanup (v : Except SdsFault (Option Splitting))
    (next : Splitting → Except SdsFault (Option Splitting)) : Except SdsFault (Option Splitting) :=
  v.bind fun v => v.elim (.ok none) next

/-- A round of the loop, up to `j++`. -/
def round (mem : ℕ → Malloc) (s sep : Bytes) (seplen : ℕ) (v : Splitting) :
    Except SdsFault (Option Splitting) :=
  orCleanup (moreSlots mem v) fun v => do
    let found ← separatorAt s v.j sep seplen
    if found then
      (addToken mem s (v.j - v.start) v).map (Option.map fun v =>
        { v with start := v.j + seplen, j := v.j + seplen - 1 + 1 })
    else .ok (some { v with j := v.j + 1 })

def splitLoop (mem : ℕ → Malloc) (s : Bytes) (len : ℕ) (sep : Bytes) (seplen : ℕ) :
    (fuel : ℕ) → Splitting → Except SdsFault (Option Splitting)
  | 0, _ => .error .endless
  | fuel + 1, v =>
    if v.j + (seplen - 1) < len then
      orCleanup (round mem s sep seplen v) (splitLoop mem s len sep seplen fuel)
    else .ok (some v)

end Splitting

namespace Sds

open Splitting in
/-- The tokens, and what is stored in `*count`: nothing when the first call of the allocator
fails. -/
def sdssplitlen (s : Bytes) (len : ℤ) (sep : Bytes) (seplen : ℤ) (mem : ℕ → Malloc) :
    Except SdsFault (Option (List Sds) × Option ℕ) :=
  if seplen < 1 ∨ len ≤ 0 then .ok (none, some 0)
  else
    match mem 0 with
    | none => .ok (none, none)
    | some _ =>
      (orCleanup (splitLoop mem s len.toNat sep seplen.toNat (len.toNat + 1) ⟨0, 0, 5, [], 1⟩)
        fun v => addToken mem s (len.toNat - v.start) v).map fun v =>
          (v.map Splitting.tokens, some (v.elim 0 fun v => v.tokens.length))

/-- The loop of `sdsjoin` and `sdsjoinsds`, over the objects to join and the lengths to take. -/
def joinLoop (mem : ℕ → Malloc) (sep : Bytes) (seplen : ℕ) :
    List (Bytes × ℕ) → (k : ℕ) → Option Sds → Except SdsFault (Option Sds)
  | [], _, join => .ok join
  | [(t, len)], k, join => do
    let s ← deref join
    s.sdscatlen t len (mem k)
  | (t, len) :: argv, k, join => do
    let s ← deref join
    let join ← s.sdscatlen t len (mem k)
    let s ← deref join
    let join ← s.sdscatlen sep seplen (mem (k + 1))
    joinLoop mem sep seplen argv (k + 2) join

def sdsjoin (argv : List Bytes) (sep : Bytes) (mem : ℕ → Malloc) :
    Except SdsFault (Option Sds) := do
  let join ← sdsempty (mem 0)
  joinLoop mem sep (strlen sep) (argv.map fun t => (t, strlen t)) 1 join

def sdsjoinsds (argv : List Sds) (sep : Bytes) (seplen : ℕ) (mem : ℕ → Malloc) :
    Except SdsFault (Option Sds) := do
  let join ← sdsempty (mem 0)
  joinLoop mem sep seplen (argv.map fun s => (s.buf, s.sdslen)) 1 join

theorem memcmp_eq_zero_iff {xs ys : Bytes} (h : xs.length = ys.length) :
    memcmp xs ys = 0 ↔ xs = ys := by
  induction xs generalizing ys with
  | nil =>
    rw [List.eq_nil_of_length_eq_zero h.symm]
    simp [memcmp]
  | cons x xs ih =>
    cases ys with
    | nil => cases h
    | cons y ys =>
      rw [memcmp_cons, List.cons_eq_cons, ← ih (Nat.succ.inj h)]
      by_cases hxy : x < y
      · simp [hxy, UInt8.ne_of_lt hxy]
      by_cases hyx : y < x
      · simp [hxy, hyx, (UInt8.ne_of_lt hyx).symm]
      have heq : x = y := UInt8.le_antisymm (UInt8.not_lt.mp hyx) (UInt8.not_lt.mp hxy)
      simp [heq]

end Sds

namespace Splitting

variable {v : Splitting} {s sep l p : Bytes} {n j len seplen fuel : ℕ}

theorem moreSlots_cases (mem : ℕ → Malloc) (hroom : v.tokens.length < v.slots)
    (hint : 2 * (v.tokens.length + 1) < 2 ^ 31) :
    (mem v.k = none ∧ moreSlots mem v = .ok none) ∨
    ∃ slots k, v.tokens.length + 2 ≤ slots ∧
      moreSlots mem v = .ok (some { v with slots := slots, k := k }) := by
  unfold moreSlots
  split_ifs with hfull hbig
  · omega
  · cases hmem : mem v.k with
    | none => exact .inl ⟨rfl, rfl⟩
    | some garbage => exact .inr ⟨v.slots * 2, v.k + 1, by omega, rfl⟩
  · exact .inr ⟨v.slots, v.k, by omega, rfl⟩

theorem addToken_cases (mem : ℕ → Malloc) (hroom : v.tokens.length < v.slots)
    (hn : v.start + n ≤ s.length) (hsmall : n + 18 < 2 ^ 64) :
    (mem v.k = none ∧ addToken mem s n v = .ok none) ∨
    ∃ t : Sds, t.Valid ∧ t.contents = slice s v.start n ∧
      addToken mem s n v = .ok (some { v with tokens := v.tokens ++ [t], k := v.k + 1 }) := by
  cases hmem : mem v.k with
  | none =>
    refine .inl ⟨rfl, ?_⟩
    rw [addToken, hmem, Sds.sdsnewlen_null]
    exact if_pos hroom
  | some garbage =>
    have hle : n ≤ (s.drop v.start).length := by
      rw [List.length_drop]
      omega
    obtain ⟨t, ht, hvalid, hc⟩ := Sds.sdsnewlen_data hle hsmall garbage
    refine .inr ⟨t, hvalid, hc, ?_⟩
    rw [addToken, hmem, ht]
    exact if_pos hroom

theorem separatorAt_eq (hj : j + seplen ≤ s.length) (hsep : seplen ≤ sep.length) :
    separatorAt s j sep seplen = .ok (decide (sep.take seplen <+: s.drop j)) := by
  have hpart : readBytes s j seplen = .ok (slice s j seplen) := readBytes_eq hj
  have hwhole : readBytes sep 0 seplen = .ok (sep.take seplen) := by
    rw [readBytes_eq (by omega), slice, List.drop_zero]
  have htake : (sep.take seplen).length = seplen := List.length_take_of_le hsep
  have hiff : Sds.memcmp (slice s j seplen) (sep.take seplen) = 0 ↔
      sep.take seplen <+: s.drop j := by
    rw [Sds.memcmp_eq_zero_iff (by rw [length_slice hj, htake]), List.prefix_iff_eq_take, htake]
    exact eq_comm
  rw [separatorAt, hpart, hwhole]
  exact congrArg Except.ok (decide_eq_decide.mpr hiff)

/-- What the loop over `l` knows: the tokens are the first pieces, and no separator begins between
them and `j`. -/
structure Scanned (l p : Bytes) (v : Splitting) : Prop where
  start_le : v.start ≤ v.j
  start_le_length : v.start ≤ l.length
  searched : ∀ i, v.start ≤ i → i < v.j → ¬ p <+: l.drop i
  elements_le : v.tokens.length ≤ v.start
  room : v.tokens.length < v.slots
  valid : ∀ t ∈ v.tokens, t.Valid
  cut : ∀ parts, Splits p (l.drop v.start) parts →
    Splits p l (v.tokens.map Sds.contents ++ parts)

/-- A separator at `j` is the first one behind the tokens. -/
theorem Scanned.firstOccurrence (h : Scanned l p v) (hj : v.j ≤ l.length) (hp : p <+: l.drop v.j) :
    firstOccurrence p (l.drop v.start) = some (v.j - v.start) := by
  have hstart := h.start_le
  rw [firstOccurrence_eq_some_iff]
  refine ⟨?_, ?_, ?_⟩
  · rw [List.length_drop]
    omega
  · rw [List.drop_drop, Nat.add_sub_cancel' hstart]
    exact hp
  · intro i hi
    rw [List.drop_drop]
    exact h.searched (v.start + i) (by omega) (by omega)

/-- The token in front of a separator is the next piece. -/
theorem Scanned.found (h : Scanned l p v) (hj : v.j + p.length ≤ l.length) (hpos : 0 < p.length)
    (hp : p <+: l.drop v.j) (hroom : v.tokens.length + 2 ≤ v.slots) {t : Sds} (ht : t.Valid)
    (htc : t.contents = (l.drop v.start).take (v.j - v.start)) {k : ℕ} :
    Scanned l p ⟨v.j + p.length, v.j + p.length, v.slots, v.tokens ++ [t], k⟩ := by
  have hstart := h.start_le
  have helements := h.elements_le
  have hfirst := h.firstOccurrence (by omega) hp
  constructor
  · exact le_refl _
  · exact hj
  · intro i hi hlt
    exact absurd hi (Nat.not_le.mpr hlt)
  · simp only [List.length_append, List.length_singleton]
    omega
  · simp only [List.length_append, List.length_singleton]
    omega
  · intro u hu
    rcases List.mem_append.mp hu with hold | hnew
    · exact h.valid u hold
    · rw [List.mem_singleton.mp hnew]
      exact ht
  · intro parts hparts
    have hbehind : (l.drop v.start).drop (v.j - v.start + p.length) = l.drop (v.j + p.length) := by
      rw [List.drop_drop]
      congr 1
      omega
    have hpiece := Splits.piece hfirst (hbehind.symm ▸ hparts)
    rw [← htc] at hpiece
    rw [List.map_append, List.append_assoc]
    exact h.cut _ hpiece

theorem Scanned.passed (h : Scanned l p v) (hp : ¬ p <+: l.drop v.j) :
    Scanned l p { v with j := v.j + 1 } := by
  refine { h with start_le := Nat.le_succ_of_le h.start_le, searched := ?_ }
  intro i hi hlt
  rcases Nat.lt_succ_iff_lt_or_eq.mp hlt with hbefore | heq
  · exact h.searched i hi hbefore
  · rw [heq]
    exact hp

/-- With more slots, and after more calls of the allocator. -/
theorem Scanned.with_slots (h : Scanned l p v) {slots k : ℕ} (hroom : v.tokens.length < slots) :
    Scanned l p { v with slots := slots, k := k } :=
  { h with room := hroom }

/-- Behind the last separator there is one more piece. -/
theorem Scanned.finished (h : Scanned l p v) (hpos : 0 < p.length)
    (hj : l.length ≤ v.j + (p.length - 1)) :
    Splits p l (v.tokens.map Sds.contents ++ [l.drop v.start]) := by
  apply h.cut
  apply Splits.last
  apply not_infix_of_forall
  intro i hi
  rw [List.length_drop] at hi
  rw [List.drop_drop]
  have hstart := h.start_le_length
  exact h.searched (v.start + i) (by omega) (by omega)

/-- What the loop and the final token rest on: the objects have the lengths that are passed, and the
number of slots stays an `int`. -/
structure Sized (s : Bytes) (len : ℕ) (sep : Bytes) (seplen : ℕ) : Prop where
  len_le : len ≤ s.length
  seplen_le : seplen ≤ sep.length
  seplen_pos : 0 < seplen
  small : len < 2 ^ 30 - 1

theorem round_cases (mem : ℕ → Malloc) (h : Scanned (s.take len) (sep.take seplen) v)
    (hsize : Sized s len sep seplen) (hj : v.j + (seplen - 1) < len) :
    (∃ k, mem k = none ∧ round mem s sep seplen v = .ok none) ∨
    ∃ v', v.j < v'.j ∧ v'.j ≤ len ∧ Scanned (s.take len) (sep.take seplen) v' ∧
      round mem s sep seplen v = .ok (some v') := by
  obtain ⟨hlen, hseplen, hpos, hsmall⟩ := hsize
  have hwhole : (s.take len).length = len := List.length_take_of_le hlen
  have hsep : (sep.take seplen).length = seplen := List.length_take_of_le hseplen
  have hstart := h.start_le
  have helements := h.elements_le
  -- a separator that starts here does not reach behind `len`
  have hiff : sep.take seplen <+: s.drop v.j ↔ sep.take seplen <+: (s.take len).drop v.j := by
    rw [List.prefix_iff_eq_take, List.prefix_iff_eq_take, hsep, List.drop_take, List.take_take,
      Nat.min_eq_left (by omega)]
  unfold round
  rcases moreSlots_cases mem h.room (by omega) with ⟨hmem, hmore⟩ |
    ⟨slots, k, hslots, hmore⟩
  · rw [hmore]
    exact .inl ⟨v.k, hmem, rfl⟩
  rw [hmore]
  change (∃ k, mem k = none ∧ (separatorAt s v.j sep seplen).bind _ = _) ∨
    ∃ v', _ ∧ _ ∧ _ ∧ (separatorAt s v.j sep seplen).bind _ = _
  rw [separatorAt_eq (by omega) hseplen]
  have h' : Scanned (s.take len) (sep.take seplen) { v with slots := slots, k := k } :=
    h.with_slots (by omega)
  by_cases hfound : sep.take seplen <+: s.drop v.j
  · simp only [Except.bind, hfound, decide_true, if_true]
    rcases addToken_cases mem (s := s) (n := v.j - v.start) h'.room (by simp only; omega)
      (by omega) with ⟨hmem, hadd⟩ | ⟨t, ht, htc, hadd⟩
    · rw [hadd]
      exact .inl ⟨k, hmem, rfl⟩
    · rw [hadd]
      have hpiece : t.contents = ((s.take len).drop v.start).take (v.j - v.start) := by
        rw [htc, slice, List.drop_take, List.take_take, Nat.min_eq_left (by omega)]
      have hnext := h'.found (by rw [hsep, hwhole]; simp only; omega) (by omega)
        (hiff.mp hfound) hslots ht hpiece (k := k + 1)
      rw [hsep] at hnext
      refine .inr ⟨_, ?_, ?_, hnext, ?_⟩
      · simp only
        omega
      · simp only
        omega
      · have hstep : v.j + seplen - 1 + 1 = v.j + seplen := by omega
        simp only [Except.map, Option.map_some, hstep]
  · simp only [Except.bind, hfound, decide_false]
    refine .inr ⟨_, Nat.lt_succ_self _, ?_, h'.passed (fun hp => hfound (hiff.mpr hp)), rfl⟩
    simp only
    omega

theorem splitLoop_cases (mem : ℕ → Malloc) (h : Scanned (s.take len) (sep.take seplen) v)
    (hsize : Sized s len sep seplen) (hle : v.j ≤ len) (hfuel : len < v.j + fuel) :
    (∃ k, mem k = none ∧ splitLoop mem s len sep seplen fuel v = .ok none) ∨
    ∃ v', len ≤ v'.j + (seplen - 1) ∧ Scanned (s.take len) (sep.take seplen) v' ∧
      splitLoop mem s len sep seplen fuel v = .ok (some v') := by
  have hpos := hsize.seplen_pos
  induction fuel generalizing v with
  | zero => omega
  | succ fuel ih =>
    rw [splitLoop]
    split_ifs with hj
    · rcases round_cases mem h hsize hj with ⟨k, hmem, hround⟩ | ⟨v', hlt, hle, h', hround⟩
      · rw [hround]
        exact .inl ⟨k, hmem, rfl⟩
      · rw [hround]
        exact ih h' hle (by omega)
    · exact .inr ⟨v, by omega, h, rfl⟩

end Splitting

namespace Sds

open Splitting

variable {mem : ℕ → Malloc} {s sep : Bytes} {len seplen k : ℕ} {tokens : List Sds}

/-- `sdssplitlen` cuts the bytes at the separators and counts the pieces, unless the allocator
fails. -/
theorem sdssplitlen_cases (mem : ℕ → Malloc) (hsize : Sized s len sep seplen) (hlen : 0 < len) :
    (∃ k, mem k = none) ∧ (∃ count, sdssplitlen s len sep seplen mem = .ok (none, count)) ∨
    ∃ tokens : List Sds,
      sdssplitlen s len sep seplen mem = .ok (some tokens, some tokens.length) ∧
      (∀ t ∈ tokens, t.Valid) ∧ Splits (sep.take seplen) (s.take len) (tokens.map contents) := by
  have hpos := hsize.seplen_pos
  have hle := hsize.len_le
  have hsmall := hsize.small
  have hwhole : (s.take len).length = len := List.length_take_of_le hle
  have hsep : (sep.take seplen).length = seplen := List.length_take_of_le hsize.seplen_le
  have hnot : ¬ ((seplen : ℤ) < 1 ∨ (len : ℤ) ≤ 0) := by omega
  unfold sdssplitlen
  rw [if_neg hnot]
  simp only [Int.toNat_natCast]
  cases hmem : mem 0 with
  | none => exact .inl ⟨⟨0, hmem⟩, none, rfl⟩
  | some garbage =>
    have hstart : Scanned (s.take len) (sep.take seplen) ⟨0, 0, 5, [], 1⟩ := by
      constructor
      · exact le_refl _
      · exact Nat.zero_le _
      · intro i _ hi
        exact absurd hi (Nat.not_lt_zero i)
      · exact le_refl _
      · decide
      · simp
      · exact fun parts hparts => hparts
    have hfuel : len < 0 + (len + 1) := by omega
    rcases splitLoop_cases mem hstart hsize (Nat.zero_le _) hfuel with
      ⟨k, hnone, hloop⟩ | ⟨v, hend, hv, hloop⟩
    · rw [hloop]
      exact .inl ⟨⟨k, hnone⟩, some 0, rfl⟩
    · have hvstart := hv.start_le_length
      rw [hloop]
      have hn : v.start + (len - v.start) ≤ s.length := by omega
      have hbytes : len - v.start + 18 < 2 ^ 64 := by omega
      rcases addToken_cases mem hv.room hn hbytes with ⟨hnone, hadd⟩ | ⟨t, ht, htc, hadd⟩
      · refine .inl ⟨⟨v.k, hnone⟩, some 0, ?_⟩
        change Except.map _ (addToken mem s (len - v.start) v) = _
        rw [hadd]
        rfl
      · refine .inr ⟨v.tokens ++ [t], ?_, ?_, ?_⟩
        · change Except.map _ (addToken mem s (len - v.start) v) = _
          rw [hadd]
          rfl
        · intro u hu
          rcases List.mem_append.mp hu with hold | hnew
          · exact hv.valid u hold
          · rw [List.mem_singleton.mp hnew]
            exact ht
        · have hcut := hv.finished (by omega) (by omega)
          rw [List.map_append, List.map_singleton, htc, slice, ← List.drop_take]
          exact hcut

/-- The bytes of the objects that are joined. -/
def joined (sep : Bytes) (seplen : ℕ) (argv : List (Bytes × ℕ)) : Bytes :=
  (sep.take seplen).intercalate (argv.map fun o => o.1.take o.2)

theorem joined_cons {o o' : Bytes × ℕ} {argv : List (Bytes × ℕ)} :
    joined sep seplen (o :: o' :: argv) =
      o.1.take o.2 ++ sep.take seplen ++ joined sep seplen (o' :: argv) :=
  List.intercalate_cons_cons

theorem joinLoop_null (mem : ℕ → Malloc) (sep : Bytes) (seplen : ℕ) (o : Bytes × ℕ)
    (argv : List (Bytes × ℕ)) (k : ℕ) :
    joinLoop mem sep seplen (o :: argv) k none = .error .nullString := by
  cases argv <;> rfl

/-- The loop appends the objects with the separator between them, by induction on the objects. -/
theorem Valid.joinLoop {t : Sds} (h : t.Valid) (mem : ℕ → Malloc) {argv : List (Bytes × ℕ)}
    (hargv : ∀ o ∈ argv, o.2 ≤ o.1.length) (hsep : seplen ≤ sep.length)
    (hsmall : t.len + (joined sep seplen argv).length + sdsMaxPrealloc + 18 < 2 ^ 64) :
    Chained mem (t.contents ++ joined sep seplen argv)
      (joinLoop mem sep seplen argv k (some t)) := by
  induction argv generalizing t k with
  | nil =>
    apply Chained.done h
    exact (List.append_nil _).symm
  | cons o argv ih =>
    have ho := hargv o List.mem_cons_self
    have hlength : (o.1.take o.2).length = o.2 := List.length_take_of_le ho
    cases argv with
    | nil =>
      have hwhole : joined sep seplen [o] = o.1.take o.2 := List.intercalate_singleton
      rw [hwhole, hlength] at hsmall
      rw [hwhole]
      exact (h.catlen ho (by omega) (mem k)).chained (by omega)
    | cons o' argv =>
      have hseplen : (sep.take seplen).length = seplen := List.length_take_of_le hsep
      rw [joined_cons, List.length_append, List.length_append, hlength, hseplen] at hsmall
      rw [joined_cons]
      change Chained mem _ ((t.sdscatlen o.1 o.2 (mem k)).bind _)
      apply (h.catlen ho (by omega) (mem k)).chain (by omega) rfl
      intro u hu huc
      have hulen : u.len = t.len + o.2 := by
        rw [← hu.length_contents, huc, List.length_append, h.length_contents, hlength]
      change Chained mem _ ((u.sdscatlen sep seplen (mem (k + 1))).bind _)
      apply (hu.catlen hsep (by omega) (mem (k + 1))).chain (by omega)
        (joinLoop_null mem sep seplen o' argv (k + 2))
      intro w hw hwc
      have hwlen : w.len = u.len + seplen := by
        rw [← hw.length_contents, hwc, List.length_append, hu.length_contents, hseplen]
      have hrest := ih hw (k := k + 2) (fun o ho => hargv o (List.mem_cons_of_mem _ ho)) (by omega)
      rw [hwc, huc] at hrest
      simp only [List.append_assoc] at hrest ⊢
      exact hrest

/-- The loop on a new string. -/
theorem joinLoop_new (mem : ℕ → Malloc) {argv : List (Bytes × ℕ)}
    (hargv : ∀ o ∈ argv, o.2 ≤ o.1.length) (hsep : seplen ≤ sep.length)
    (hsmall : (joined sep seplen argv).length + sdsMaxPrealloc + 18 < 2 ^ 64) :
    Chained mem (joined sep seplen argv)
      ((sdsempty (mem 0)).bind (joinLoop mem sep seplen argv 1)) := by
  cases hmem : mem 0 with
  | none =>
    change Chained mem _ (joinLoop mem sep seplen argv 1 none)
    cases argv with
    | nil => exact .null ⟨0, hmem⟩
    | cons o argv =>
      rw [joinLoop_null]
      exact .used ⟨0, hmem⟩
  | some garbage =>
    obtain ⟨t, ht, hvalid, hempty⟩ := sdsempty_eq garbage
    have hlen : t.len = 0 := by rw [← hvalid.length_contents, hempty, List.length_nil]
    have hloop := hvalid.joinLoop mem (k := 1) hargv hsep (by omega)
    rw [hempty, List.nil_append] at hloop
    rw [ht]
    exact hloop

/-- `sdsjoinsds` puts the separator between the strings, unless the allocator fails. -/
theorem joinsds_chained (mem : ℕ → Malloc) (hvalid : ∀ t ∈ tokens, t.Valid)
    (hsep : seplen ≤ sep.length)
    (hsmall : ((sep.take seplen).intercalate (tokens.map contents)).length + sdsMaxPrealloc + 18 <
      2 ^ 64) :
    Chained mem ((sep.take seplen).intercalate (tokens.map contents))
      (sdsjoinsds tokens sep seplen mem) := by
  have hjoined : joined sep seplen (tokens.map fun t => (t.buf, t.sdslen)) =
      (sep.take seplen).intercalate (tokens.map contents) := by
    rw [joined, List.map_map]
    rfl
  rw [← hjoined] at hsmall ⊢
  apply joinLoop_new mem _ hsep hsmall
  intro o ho
  obtain ⟨t, ht, rfl⟩ := List.mem_map.mp ho
  exact (hvalid t ht).len_lt_length.le

/-- `sdsjoin` does so with the bytes in front of the zeros. -/
theorem sdsjoin_chained (mem : ℕ → Malloc) (sep : Bytes) (argv : List Bytes)
    (hsmall : ((sep.takeWhile (· ≠ 0)).intercalate (argv.map (·.takeWhile (· ≠ 0)))).length +
      sdsMaxPrealloc + 18 < 2 ^ 64) :
    Chained mem ((sep.takeWhile (· ≠ 0)).intercalate (argv.map (·.takeWhile (· ≠ 0))))
      (sdsjoin argv sep mem) := by
  have hjoined : joined sep (strlen sep) (argv.map fun t => (t, strlen t)) =
      (sep.takeWhile (· ≠ 0)).intercalate (argv.map (·.takeWhile (· ≠ 0))) := by
    rw [joined, List.map_map, take_strlen]
    congr 1
    exact List.map_congr_left fun t _ => take_strlen t
  have hlen (t : Bytes) : strlen t ≤ t.length := (List.takeWhile_prefix _).length_le
  rw [← hjoined] at hsmall ⊢
  apply joinLoop_new mem _ (hlen sep) hsmall
  intro o ho
  obtain ⟨t, -, rfl⟩ := List.mem_map.mp ho
  exact hlen t

/-- Unless the allocator fails, `sdssplitlen` cuts the bytes at the separators, counts the pieces,
and `sdsjoinsds` makes the same bytes of them again. So does `sdsjoin` with a separator of that
length if there is no zero among the bytes. -/
theorem split_then_join (mem : ℕ → Malloc) (hsize : Sized s len sep seplen) (hlen : 0 < len) :
    (∃ k, mem k = none) ∧ (∃ count, sdssplitlen s len sep seplen mem = .ok (none, count)) ∨
    ∃ tokens : List Sds,
      sdssplitlen s len sep seplen mem = .ok (some tokens, some tokens.length) ∧
      (∀ t ∈ tokens, t.Valid) ∧ Splits (sep.take seplen) (s.take len) (tokens.map contents) ∧
      ∀ mem', Chained mem' (s.take len) (sdsjoinsds tokens sep seplen mem') ∧
        (0 ∉ s.take len → strlen sep = seplen →
          Chained mem' (s.take len) (sdsjoin (tokens.map buf) sep mem')) := by
  have hsmall := hsize.small
  rcases sdssplitlen_cases mem hsize hlen with hnull | ⟨tokens, hsplit, hvalid, hcut⟩
  · exact .inl hnull
  · refine .inr ⟨tokens, hsplit, hvalid, hcut, ?_⟩
    intro mem'
    have hwhole := hcut.intercalate
    have hlength : (s.take len).length ≤ len := List.length_take_le len s
    have hbig : (s.take len).length + sdsMaxPrealloc + 18 < 2 ^ 64 := by
      rw [sdsMaxPrealloc]
      omega
    constructor
    · have hjoin := joinsds_chained mem' hvalid hsize.seplen_le (hwhole.symm ▸ hbig)
      rw [hwhole] at hjoin
      exact hjoin
    · intro hzero hsep
      have hfront : (tokens.map buf).map (·.takeWhile (· ≠ 0)) = tokens.map contents := by
        rw [List.map_map]
        apply List.map_congr_left
        intro t ht
        have hin := hcut.subset_of_mem (List.mem_map_of_mem ht)
        have hall : t.contents.takeWhile (· ≠ 0) = t.contents := by
          rw [List.takeWhile_eq_self_iff]
          intro c hc
          have hne : c ≠ 0 := fun h => hzero (h ▸ hin hc)
          simpa using hne
        rw [Function.comp_apply, ← take_strlen, (hvalid t ht).take_strlen, hall]
      have hpieces : (sep.takeWhile (· ≠ 0)).intercalate
          ((tokens.map buf).map (·.takeWhile (· ≠ 0))) = s.take len := by
        rw [hfront, ← take_strlen, hsep, hwhole]
      have hjoin := sdsjoin_chained mem' sep (tokens.map buf) (hpieces.symm ▸ hbig)
      rw [hpieces] at hjoin
      exact hjoin

/-- `--` between three dashes and a letter. -/
theorem split_then_join_dashes : ∃ tokens : List Sds,
    sdssplitlen [45, 45, 45, 65, 0] 4 [45, 45] 2 (fun _ => some fun _ => 7) =
        .ok (some tokens, some 2) ∧
      Splits [45, 45] [45, 45, 45, 65] (tokens.map contents) ∧
      ∀ mem', Chained mem' [45, 45, 45, 65] (sdsjoinsds tokens [45, 45] 2 mem') ∧
        Chained mem' [45, 45, 45, 65] (sdsjoin (tokens.map buf) [45, 45] mem') := by
  have hcount : (sdssplitlen [45, 45, 45, 65, 0] 4 [45, 45] 2 fun _ => some fun _ => 7).map
      Prod.snd = .ok (some 2) := by decide +kernel
  have hsize : Sized [45, 45, 45, 65, 0] 4 [45, 45] 2 :=
    ⟨by decide, by decide, by decide, by decide⟩
  rcases split_then_join (fun _ => some fun _ => 7) hsize (by decide) with
    ⟨⟨k, hnone⟩, -⟩ | ⟨tokens, hsplit, -, hcut, hjoin⟩
  · cases hnone
  · change sdssplitlen [45, 45, 45, 65, 0] 4 [45, 45] 2 _ = _ at hsplit
    rw [hsplit] at hcount
    refine ⟨tokens, hsplit.trans (congrArg _ (congrArg _ (Except.ok.inj hcount))), hcut, ?_⟩
    exact fun mem' => ⟨(hjoin mem').1, (hjoin mem').2 (by decide) (by decide)⟩

/-- As long as no allocation of `sdssplitlen` fails, the strings that were joined with a separator
that is not empty come back from it exactly if they are apart. -/
theorem join_then_split {argv : List Sds} {t : Sds} {mem' : ℕ → Malloc}
    (hvalid : ∀ a ∈ argv, a.Valid) (hsep : 0 < seplen ∧ seplen ≤ sep.length)
    (hsmall : ((sep.take seplen).intercalate (argv.map contents)).length < 2 ^ 30 - 1)
    (hjoin : sdsjoinsds argv sep seplen mem = .ok (some t)) (hlen : 0 < t.len)
    (hmem : ∀ k, mem' k ≠ none) :
    ∃ tokens : List Sds,
      sdssplitlen t.buf t.len sep seplen mem' = .ok (some tokens, some tokens.length) ∧
      (tokens.map contents = argv.map contents ↔ Apart (sep.take seplen) (argv.map contents)) := by
  have hchain := joinsds_chained mem hvalid hsep.2 (by
    rw [sdsMaxPrealloc]
    omega)
  rw [hjoin] at hchain
  cases hchain with
  | done ht htc =>
    have hlength : t.len < 2 ^ 30 - 1 := by
      rw [← ht.length_contents, htc]
      exact hsmall
    have hsize : Sized t.buf t.len sep seplen := ⟨ht.len_lt_length.le, hsep.2, hsep.1, hlength⟩
    rcases sdssplitlen_cases mem' hsize hlen with ⟨⟨k, hnone⟩, -⟩ |
      ⟨tokens, hsplit, -, hcut⟩
    · exact absurd hnone (hmem k)
    · refine ⟨tokens, hsplit, ?_⟩
      change Splits _ t.contents _ at hcut
      rw [htc] at hcut
      rw [← splits_intercalate_iff]
      constructor
      · intro heq
        rw [heq] at hcut
        exact hcut
      · exact fun h => hcut.unique h

/-- Two letters. -/
def letters : List Sds := [⟨.type5, 1, 0, [65, 0]⟩, ⟨.type8, 1, 1, [66, 0]⟩]

theorem join_then_split_letters : ∃ (t : Sds) (tokens : List Sds),
    sdsjoinsds letters [44] 1 (fun _ => some fun _ => 7) = .ok (some t) ∧
      sdssplitlen t.buf t.len [44] 1 (fun _ => some fun _ => 7) =
        .ok (some tokens, some tokens.length) ∧
      (tokens.map contents = [[65], [66]] ↔
        Apart ([44] : Bytes) [[65], [66]]) := by
  have hjoin : sdsjoinsds letters [44] 1 (fun _ => some fun _ => 7) = .ok (some _) := rfl
  have hvalid : ∀ a ∈ letters, a.Valid := by
    simp only [letters, List.forall_mem_cons, List.not_mem_nil, false_imp_iff, implies_true,
      and_true]
    constructor
    · exact ⟨⟨by decide, by decide, by decide, by decide, by decide⟩, rfl⟩
    · exact ⟨⟨by decide, by decide, by decide, by decide, by decide⟩, rfl⟩
  have hmap : letters.map contents = [[65], [66]] := rfl
  have hsep : ([44] : Bytes).take 1 = [44] := rfl
  have hmem (k : ℕ) : (fun _ => some fun _ => 7 : ℕ → Malloc) k ≠ none := by simp
  obtain ⟨tokens, hsplit, hiff⟩ :=
    join_then_split hvalid (by decide) (by decide) hjoin (by decide) hmem
  rw [hmap, hsep] at hiff
  exact ⟨_, tokens, hjoin, hsplit, hiff⟩

end Sds
end SysExploration
