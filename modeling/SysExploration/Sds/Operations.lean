import SysExploration.Sds.Room

/-! What the operations do to the bytes a string holds. -/
namespace SysExploration.Sds

variable {s s' : Sds} {c t bytes : Bytes} {addlen n len required : ℕ} {mem : Malloc}
  {out : Except SdsFault (Option Sds)}

/-- How a call ends that needs room for `required` bytes in all and is to leave the bytes `c`. -/
inductive Outcome (mem : Malloc) (required : ℕ) (c : Bytes) : Except SdsFault (Option Sds) → Prop
  | refused : 2 ^ 64 ≤ required + sdsMaxPrealloc + 18 → Outcome mem required c (.error .assertion)
  | null : mem = none → Outcome mem required c (.ok none)
  | done {s' : Sds} : s'.Valid → s'.contents = c → Outcome mem required c (.ok (some s'))

theorem RoomOutcome.orNull {k : Sds → Except SdsFault Sds} (h : s.Valid)
    (hout : RoomOutcome s addlen mem out)
    (hk : ∀ s', s'.Valid → s'.len = s.len → s'.contents = s.contents →
      s.len + addlen ≤ s'.sdsalloc → ∃ s'', k s' = .ok s'' ∧ s''.Valid ∧ s''.contents = c) :
    Outcome mem (s.len + addlen) c (Sds.orNull out k) := by
  have hgo {s' : Sds} (hdone : ∃ s'', k s' = .ok s'' ∧ s''.Valid ∧ s''.contents = c) :
      Outcome mem (s.len + addlen) c (Sds.orNull (.ok (some s')) k) := by
    obtain ⟨s'', hs'', hvalid, hc⟩ := hdone
    change Outcome mem _ c ((k s').map some)
    rw [hs'']
    exact .done hvalid hc
  cases hout with
  | enough hle =>
    have havail := h.sdsavail_eq
    have hlen := h.len_le
    exact hgo (hk s h rfl rfl (by omega))
  | refused _ hbig => exact .refused hbig
  | null _ _ hmem => exact .null hmem
  | moved _ hbig _ hmoved =>
    apply hgo (hk _ (hmoved.valid h) hmoved.len hmoved.contents _)
    rw [hmoved.alloc]
    exact le_preallocated (by omega)

/-- Bytes stored behind the string, and a zero behind them. -/
theorem Valid.stored (h : s.Valid) (hroom : s.len + bytes.length ≤ s.sdsalloc) :
    ∃ buf, overwrite (overwrite s.buf s.len bytes) (s.len + bytes.length) [0] = buf ∧
      ({ s with buf := buf }.sdssetlen (s.len + bytes.length)).Valid ∧
      ({ s with buf := buf }.sdssetlen (s.len + bytes.length)).contents = s.contents ++ bytes := by
  have hlt := h.room
  have hin : s.len + bytes.length ≤ s.buf.length := by omega
  have hone : s.len + bytes.length + [(0 : UInt8)].length ≤
      (overwrite s.buf s.len bytes).length := by
    rw [length_overwrite hin, List.length_singleton]
    omega
  refine ⟨_, rfl, h.rewrite ?_ hroom ?_, ?_⟩
  · rw [length_overwrite hone, length_overwrite hin]
  · exact getElem?_overwrite (j := 0) (by rw [length_overwrite hin]; omega) Nat.zero_lt_one
  · rw [h.contents_rewrite hroom,
      take_overwrite_of_le (le_refl _) (by rw [length_overwrite hin]; omega),
      take_overwrite_append (by omega)]
    rfl

theorem Valid.catlen (h : s.Valid) (ht : len ≤ t.length) (hsum : s.len + len < 2 ^ 64)
    (mem : Malloc) :
    Outcome mem (s.len + len) (s.contents ++ t.take len) (s.sdscatlen t len mem) := by
  unfold sdscatlen sdslen
  apply (h.makeRoom hsum mem).orNull h
  intro s' hvalid hlen hcontents hroom
  have hread : readBytes t 0 len = .ok (t.take len) := by
    rw [readBytes_eq (by omega), slice, List.drop_zero]
  have hbytes : (t.take len).length = len := List.length_take_of_le ht
  have hin := hvalid.room
  have hnew : toSize (s.len + len) = s.len + len := by exact_mod_cast toSize_of_lt hsum
  have hfits : s'.len + (t.take len).length ≤ s'.sdsalloc := by omega
  obtain ⟨buf, hbuf, hstored, hafter⟩ := hvalid.stored hfits
  have hfirst : s.len + (t.take len).length ≤ s'.buf.length := by omega
  have hlast : s.len + len + [(0 : UInt8)].length ≤
      (overwrite s'.buf s.len (t.take len)).length := by
    rw [length_overwrite hfirst, List.length_singleton]
    omega
  rw [hlen, hbytes] at hbuf hstored hafter
  refine ⟨_, ?_, hstored, hcontents ▸ hafter⟩
  rw [hread, hnew]
  change (writeBytes s'.buf s.len (t.take len)).bind _ = _
  rw [writeBytes_eq hfirst]
  change (writeBytes (overwrite s'.buf s.len (t.take len)) (s.len + len) [0]).bind _ = _
  rw [writeBytes_eq hlast, hbuf]
  rfl

theorem Valid.growzero (h : s.Valid) (hlen : len < 2 ^ 64) (mem : Malloc) :
    Outcome mem (max s.len len) (s.contents ++ List.replicate (len - s.len) 0)
      (s.sdsgrowzero len mem) := by
  unfold sdsgrowzero sdslen
  by_cases hle : len ≤ s.len
  · have hzero : len - s.len = 0 := by omega
    simp only [if_pos hle, hzero, List.replicate_zero, List.append_nil]
    exact .done h rfl
  have hsum : s.len + (len - s.len) = len := by omega
  simp only [if_neg hle]
  rw [max_eq_right (by omega), ← congrArg (Outcome mem · _ _) hsum]
  apply (h.makeRoom (by omega) mem).orNull h
  intro s' hvalid hlen' hcontents hroom
  have hin := hvalid.room
  have hwrite : s.len + (List.replicate (len - s.len + 1) (0 : UInt8)).length ≤ s'.buf.length := by
    rw [List.length_replicate]
    omega
  obtain ⟨buf, hbuf⟩ : ∃ buf, overwrite s'.buf s.len (List.replicate (len - s.len + 1) 0) = buf :=
    ⟨_, rfl⟩
  have hzero : buf[len]? = some 0 := by
    have hin : len - s.len < (List.replicate (len - s.len + 1) (0 : UInt8)).length := by simp
    have hget := getElem?_overwrite (l := s'.buf) (i := s.len) (by omega) hin
    rw [hbuf, hsum, List.getElem?_replicate_of_lt (Nat.lt_succ_self _)] at hget
    exact hget
  have htake : buf.take len = s'.buf.take s.len ++ List.replicate (len - s.len) 0 := by
    have hin : len - s.len ≤ (List.replicate (len - s.len + 1) (0 : UInt8)).length := by simp
    have hadd := take_overwrite_add (l := s'.buf) (i := s.len) (by omega) hin
    rw [hbuf, hsum, List.take_replicate, Nat.min_eq_left (Nat.le_succ _)] at hadd
    exact hadd
  refine ⟨{ s' with buf := buf }.sdssetlen len, ?_,
    hvalid.rewrite (hbuf ▸ length_overwrite hwrite) (by omega) hzero, ?_⟩
  · rw [writeBytes_eq hwrite, hbuf]
    rfl
  · rw [hvalid.contents_rewrite (by omega), htake, ← hcontents, Sds.contents, hlen']

theorem Valid.cpylen (h : s.Valid) (ht : len ≤ t.length) (hlen : len < 2 ^ 64) (mem : Malloc) :
    Outcome mem len (t.take len) (s.sdscpylen t len mem) := by
  have hread : readBytes t 0 len = .ok (t.take len) := by
    rw [readBytes_eq (by omega), slice, List.drop_zero]
  have hbytes : (t.take len).length = len := List.length_take_of_le ht
  have hcopy : ∀ s' : Sds, s'.Valid → len ≤ s'.sdsalloc → ∃ s'', (do
      let bytes ← readBytes t 0 len
      let buf ← writeBytes s'.buf 0 bytes
      let buf ← writeBytes buf len [0]
      .ok ({ s' with buf := buf }.sdssetlen len)) = .ok s'' ∧ s''.Valid ∧
        s''.contents = t.take len := by
    intro s' hvalid hroom
    have hin := hvalid.room
    have hfirst : 0 + (t.take len).length ≤ s'.buf.length := by omega
    have hlast : len + [(0 : UInt8)].length ≤ (overwrite s'.buf 0 (t.take len)).length := by
      rw [length_overwrite hfirst, List.length_singleton]
      omega
    have hzero : (overwrite (overwrite s'.buf 0 (t.take len)) len [0])[len]? = some 0 :=
      getElem?_overwrite (j := 0) (by rw [length_overwrite hfirst]; omega) Nat.zero_lt_one
    refine ⟨_, ?_, hvalid.rewrite ((length_overwrite hlast).trans (length_overwrite hfirst))
      hroom hzero, ?_⟩
    · rw [hread]
      change (writeBytes s'.buf 0 (t.take len)).bind _ = _
      rw [writeBytes_eq hfirst]
      change (writeBytes (overwrite s'.buf 0 (t.take len)) len [0]).bind _ = _
      rw [writeBytes_eq hlast]
      rfl
    · have htake := take_overwrite s'.buf (t.take len)
      rw [hbytes] at htake
      rw [hvalid.contents_rewrite hroom,
        take_overwrite_of_le (le_refl _) (by rw [length_overwrite hfirst]; omega), htake]
  unfold sdscpylen sdslen
  by_cases hlt : s.sdsalloc < len
  · have hle := h.len_le
    have hsum : s.len + (len - s.len) = len := by omega
    have hadd : toSize (len - s.len) = len - s.len := by
      have hsub : (len : ℤ) - s.len = ((len - s.len : ℕ) : ℤ) := by omega
      rw [hsub]
      exact toSize_of_lt (by omega)
    rw [if_pos hlt, hadd, ← congrArg (Outcome mem · _ _) hsum]
    apply (h.makeRoom (by omega) mem).orNull h
    intro s' hvalid _ _ hroom
    exact hcopy s' hvalid (by omega)
  · obtain ⟨s'', hs'', hvalid, hc⟩ := hcopy s h (by omega)
    rw [if_neg hlt]
    change Outcome mem len _ (Except.map some _)
    beta_reduce
    rw [hs'']
    exact .done hvalid hc

theorem Valid.clear (h : s.Valid) :
    ∃ s', s.sdsclear = .ok s' ∧ s'.Valid ∧ s'.contents = [] := by
  have hlt := h.len_lt_length
  have hwrite : 0 + [(0 : UInt8)].length ≤ s.buf.length := by
    rw [List.length_singleton]
    omega
  have hzero : (overwrite s.buf 0 [0])[0]? = some (0 : UInt8) :=
    getElem?_overwrite (j := 0) (Nat.zero_le _) Nat.zero_lt_one
  refine ⟨_, ?_, h.rewrite (length_overwrite hwrite) (Nat.zero_le _) hzero, ?_⟩
  · unfold sdsclear
    change (writeBytes s.buf 0 [0]).bind _ = _
    rw [writeBytes_eq hwrite]
    rfl
  · rw [h.contents_rewrite (Nat.zero_le _), List.take_zero]

/-- The zero behind a string ends what `strlen` counts. -/
theorem strlen_of_terminated {b : Bytes} (hzero : b[n]? = some 0) :
    strlen b = strlen (b.take n) ∧ strlen b ≤ n ∧ b[strlen b]? = some 0 := by
  induction b generalizing n with
  | nil => cases hzero
  | cons x b ih =>
    by_cases hx : x = 0
    · subst hx
      cases n <;> simp [strlen]
    · cases n with
      | zero => exact absurd (by simpa using hzero) hx
      | succ n =>
        obtain ⟨hlen, hle, hget⟩ := ih (n := n) (by simpa using hzero)
        have hcons (l : Bytes) : strlen (x :: l) = strlen l + 1 := by simp [strlen, hx]
        refine ⟨?_, ?_, ?_⟩
        · rw [List.take_succ_cons, hcons, hcons, hlen]
        · rw [hcons]
          omega
        · rw [hcons, List.getElem?_cons_succ]
          exact hget

theorem take_strlen (b : Bytes) : b.take (strlen b) = b.takeWhile (· ≠ 0) := by
  induction b with
  | nil => rfl
  | cons x b ih =>
    by_cases hx : x = 0
    · simp [strlen, hx]
    · have hcons : strlen (x :: b) = strlen b + 1 := by simp [strlen, hx]
      rw [hcons, List.take_succ_cons, ih, List.takeWhile_cons_of_pos (by simpa using hx)]

/-- A string as other functions of C see it. -/
theorem Valid.take_strlen (h : s.Valid) :
    s.buf.take (strlen s.buf) = s.contents.takeWhile (· ≠ 0) := by
  obtain ⟨hlen, hle, -⟩ := strlen_of_terminated h.terminated
  have hfront : s.buf.take (strlen s.buf) = s.contents.take (strlen s.contents) := by
    rw [contents, List.take_take, ← hlen, Nat.min_eq_left hle]
  exact hfront.trans (Sds.take_strlen _)

/-- `sdsupdatelen` cuts a string at its first zero. -/
theorem Valid.updatelen (h : s.Valid) :
    ∃ s', s.sdsupdatelen = .ok s' ∧ s'.Valid ∧ s'.contents = s.contents.takeWhile (· ≠ 0) := by
  obtain ⟨-, hle, hzero⟩ := strlen_of_terminated h.terminated
  have hmem : 0 ∈ s.buf := List.mem_of_getElem? h.terminated
  have hroom : strlen s.buf ≤ s.sdsalloc := hle.trans h.len_le
  refine ⟨s.sdssetlen (strlen s.buf), if_pos hmem, h.rewrite rfl hroom hzero, ?_⟩
  exact (h.contents_rewrite hroom).trans h.take_strlen

/-- The length after an increment that the assertion lets through. Every header but type 5 keeps
it within the capacity, also where the conversions to a narrower type change the increment. -/
theorem Valid.incrAllowed_le (h : s.Valid) (h5 : s.type ≠ .type5) {incr : ℤ}
    (hallowed : s.incrAllowed incr = true) : toWord s.type.bits (s.len + incr) ≤ s.sdsalloc := by
  have hlen := h.len_le
  have hfits := h.fits
  have halloc := sdsalloc_of_ne h5
  unfold incrAllowed at hallowed
  cases htype : s.type with
  | type5 => exact absurd htype h5
  | _ =>
    rw [htype] at hallowed hfits
    simp only [decide_eq_true_eq] at hallowed
    simp only [toSize, toWord, SdsType.bits] at hallowed hfits ⊢
    omega

theorem Valid.incrAllowed_add (h : s.Valid) (h5 : s.type ≠ .type5)
    (hn : s.len + n ≤ s.sdsalloc) :
    s.incrAllowed n = true ∧ toWord s.type.bits (s.len + n) = s.len + n := by
  have hfits := h.fits
  have halloc := sdsalloc_of_ne h5
  unfold incrAllowed
  cases htype : s.type with
  | type5 => exact absurd htype h5
  | _ =>
    rw [htype] at hfits
    simp only [decide_eq_true_eq]
    simp only [toSize, toWord, SdsType.bits] at hfits ⊢
    omega

theorem Valid.incrAllowed_sub (h : s.Valid) (hn : n ≤ s.len) (hpos : 0 < n) :
    s.incrAllowed (-n) = true ∧ toWord s.type.bits (s.len + -n) = s.len - n ∧
      toSize (s.len + -n) = s.len - n := by
  have hlen := h.len_le
  have hfits := h.fits
  unfold incrAllowed
  cases htype : s.type with
  | _ =>
    rw [htype] at hfits
    simp only [decide_eq_true_eq]
    simp only [toSize, toWord, SdsType.bits] at hfits ⊢
    omega

/-- A header and a zero for a new length. -/
theorem Valid.incremented (h : s.Valid) {incr : ℤ} (hallowed : s.incrAllowed incr = true)
    (hn : toWord s.type.bits (s.len + incr) = n)
    (h5 : s.type = .type5 → toSize (s.len + incr) = n) (hroom : n ≤ s.sdsalloc) :
    ∃ s', s.sdsIncrLen incr = .ok s' ∧ s'.Valid ∧ s'.contents = s.buf.take n ∧
      s'.type = s.type := by
  have hlt := h.room
  have hwrite : n + [(0 : UInt8)].length ≤ s.buf.length := by
    rw [List.length_singleton]
    omega
  have hzero : (overwrite s.buf n [0])[n]? = some (0 : UInt8) :=
    getElem?_overwrite (j := 0) (by omega) Nat.zero_lt_one
  have hplace : (if s.type = .type5 then toSize (s.len + incr) else n) = n := by
    split_ifs with htype
    · exact h5 htype
    · rfl
  have hmod : n % 2 ^ s.type.bits = n := Nat.mod_eq_of_lt (hroom.trans_lt h.fits)
  refine ⟨_, ?_, h.rewrite (length_overwrite hwrite) hroom hzero, ?_, rfl⟩
  · unfold sdsIncrLen
    simp only [hallowed, Bool.not_true, Bool.false_eq_true, ↓reduceIte, hn, hplace,
      writeBytes_eq hwrite, sdssetlen, hmod]
    rfl
  · rw [h.contents_rewrite hroom, take_overwrite_of_le (le_refl n) (by omega)]

/-- Bytes that were written into the free space become part of the string. -/
theorem Valid.filled (h : s.Valid) (h5 : s.type ≠ .type5)
    (hroom : s.len + bytes.length ≤ s.sdsalloc) :
    ∃ s', (do
        let buf ← writeBytes s.buf s.len bytes
        ({ s with buf := buf } : Sds).sdsIncrLen bytes.length) = .ok s' ∧ s'.Valid ∧
      s'.contents = s.contents ++ bytes := by
  have hlt := h.room
  have hwrite : s.len + bytes.length ≤ s.buf.length := by omega
  have hrest : s.len + bytes.length + [(0 : UInt8)].length ≤
      (overwrite s.buf s.len bytes).length := by
    rw [length_overwrite hwrite, List.length_singleton]
    omega
  obtain ⟨hallowed, hword⟩ := h.incrAllowed_add h5 hroom
  have hzero : (overwrite (overwrite s.buf s.len bytes) (s.len + bytes.length) [0])[
      s.len + bytes.length]? = some (0 : UInt8) :=
    getElem?_overwrite (j := 0) (by rw [length_overwrite hwrite]; omega) Nat.zero_lt_one
  have hmod : (s.len + bytes.length) % 2 ^ s.type.bits = s.len + bytes.length :=
    Nat.mod_eq_of_lt (hroom.trans_lt h.fits)
  refine ⟨_, ?_, h.rewrite ((length_overwrite hrest).trans (length_overwrite hwrite)) hroom hzero,
    ?_⟩
  · rw [writeBytes_eq hwrite]
    change ({ s with buf := overwrite s.buf s.len bytes } : Sds).sdsIncrLen _ = _
    have hallowed' : ({ s with buf := overwrite s.buf s.len bytes } : Sds).incrAllowed
      bytes.length = true := hallowed
    unfold sdsIncrLen
    simp only [hallowed', Bool.not_true, Bool.false_eq_true, ↓reduceIte, hword, if_neg h5,
      writeBytes_eq hrest, sdssetlen, hmod]
    rfl
  · rw [h.contents_rewrite hroom,
      take_overwrite_of_le (le_refl _) (by rw [length_overwrite hwrite]; omega),
      take_overwrite_append (by omega)]
    rfl

theorem natCast_toWord (w : ℕ) (z : ℤ) : (toWord w z : ℤ) = z % 2 ^ w := by
  have hpos : (0 : ℤ) < 2 ^ w := Int.pow_pos (by decide)
  exact Int.toNat_of_nonneg (Int.emod_nonneg z (Int.ne_of_gt hpos))

theorem incrAllowed_type5 (h5 : s.type = .type5) {incr : ℤ} : s.incrAllowed incr = true ↔
    0 < incr ∧ s.len + incr < 32 ∨ incr < 0 ∧ -incr % 2 ^ 32 ≤ s.len := by
  rw [← natCast_toWord]
  unfold incrAllowed
  rw [h5]
  simp only [decide_eq_true_eq]
  omega

/-- With a header of type 5 the zero goes where the length before its conversion says. -/
theorem Valid.incrLen_type5 (h : s.Valid) (h5 : s.type = .type5) {incr : ℤ}
    (hallowed : s.incrAllowed incr = true) (hn : toSize (s.len + incr) = n) :
    (s.buf.length ≤ n ∧ s.sdsIncrLen incr = .error .outOfRange) ∨
    (n < s.buf.length ∧ (toWord 5 (s.len + incr) = n →
      ∃ s', s.sdsIncrLen incr = .ok s' ∧ s'.Valid ∧ s'.contents = s.buf.take s'.len ∧
        s'.len = toWord s.type.bits (s.len + incr))) := by
  have hsmall := h.small
  have hstep : s.sdsIncrLen incr = (writeBytes s.buf n [0]).bind fun buf =>
      .ok { s with len := toWord s.type.bits (s.len + incr), buf := buf } := by
    unfold sdsIncrLen
    simp only [hallowed, Bool.not_true, Bool.false_eq_true, ↓reduceIte, if_pos h5, hn]
    rfl
  rw [hstep]
  rcases Nat.lt_or_ge n s.buf.length with hin | hout
  · refine .inr ⟨hin, ?_⟩
    intro hword
    have hwrite : n + [(0 : UInt8)].length ≤ s.buf.length := hin
    have hlen : toWord s.type.bits (s.len + incr) = n := by rw [h5]; exact hword
    have hlt : n < 2 ^ s.type.bits := by
      rw [h5, ← hword]
      simp only [toWord, SdsType.bits]
      omega
    have hlength : (overwrite s.buf n [0]).length = s.buf.length := length_overwrite hwrite
    have hcap : ({ s with len := n, buf := overwrite s.buf n [0] } : Sds).sdsalloc = n :=
      if_pos h5
    rw [writeBytes_eq hwrite, hlen]
    refine ⟨_, rfl, ⟨⟨?_, ?_, ?_, ?_, ?_⟩, ?_⟩, ?_, rfl⟩
    · rw [hcap]
      exact hlt
    · exact hcap.ge
    · rw [hcap]
      exact hin.trans_eq hlength.symm
    · exact fun hne => absurd h5 hne
    · exact hlength.symm ▸ hsmall
    · exact getElem?_overwrite (j := 0) (by omega) Nat.zero_lt_one
    · exact take_overwrite_of_le (le_refl n) (by omega)
  · refine .inl ⟨hout, ?_⟩
    have hfull : ¬ n + [(0 : UInt8)].length ≤ s.buf.length :=
      Nat.not_le.mpr (Nat.lt_succ_of_le hout)
    rw [writeBytes, if_neg hfull]
    rfl

/-- `sdsIncrLen` keeps a string valid whenever it returns, also with an increment that a cast in an
assertion cuts down. Behind a header of type 5 its zero can miss the block: the assertion compares
an increment with no capacity, and of a decrement it sees only the remainder modulo `2 ^ 32`. The
increments left out are `-2 ^ 63`, which has no negation, and those with which the sum of the
length and the increment is no `ssize_t`. -/
theorem incrLen_exact (h : s.Valid) {incr : ℤ} (hlow : -2 ^ 63 < incr)
    (hhigh : s.len + incr < 2 ^ 63) (hsmall : s.buf.length < 2 ^ 63) :
    (s.sdsIncrLen incr = .error .outOfRange ↔ s.type = .type5 ∧
      (0 < incr ∧ s.buf.length ≤ s.len + incr ∧ s.len + incr < 32 ∨
        incr ≤ -2 ^ 32 ∧ -incr % 2 ^ 32 ≤ s.len)) ∧
    ∀ s', s.sdsIncrLen incr = .ok s' → s'.Valid ∧ s'.contents = s.buf.take s'.len ∧
      (s'.len : ℤ) = (s.len + incr) % 2 ^ s.type.bits := by
  have hlen := h.len_le
  have hroom := h.room
  have hfits := h.fits
  have hword := natCast_toWord s.type.bits (s.len + incr)
  by_cases hallowed : s.incrAllowed incr = true
  · by_cases h5 : s.type = .type5
    · have hcap : s.sdsalloc = s.len := if_pos h5
      have hcase := (incrAllowed_type5 h5).mp hallowed
      rw [hcap, h5] at hfits
      change s.len < 2 ^ 5 at hfits
      rw [hcap] at hroom
      obtain ⟨n, hn⟩ : ∃ n, toSize (s.len + incr) = n := ⟨_, rfl⟩
      have hplace : (n : ℤ) = (s.len + incr) % 2 ^ 64 := hn ▸ natCast_toWord 64 _
      rcases h.incrLen_type5 h5 hallowed hn with ⟨hout, herr⟩ | ⟨hin, hok⟩
      · refine ⟨iff_of_true herr ⟨h5, ?_⟩, ?_⟩
        · omega
        · intro s' hs'
          cases herr.symm.trans hs'
      · have hmod := natCast_toWord 5 (s.len + incr)
        have hsame : toWord 5 (s.len + incr) = n := by
          omega
        obtain ⟨t, ht, hvalid, hc, htlen⟩ := hok hsame
        refine ⟨iff_of_false (by simp [ht]) ?_, ?_⟩
        · rintro ⟨-, hfar⟩
          omega
        · intro s' hs'
          obtain rfl := Except.ok.inj (ht.symm.trans hs')
          exact ⟨hvalid, hc, htlen ▸ hword⟩
    · have hle := h.incrAllowed_le h5 hallowed
      obtain ⟨t, ht, hvalid, hc, -⟩ := h.incremented hallowed rfl (fun h5' => absurd h5' h5) hle
      refine ⟨iff_of_false (by simp [ht]) (fun h5' => h5 h5'.1), ?_⟩
      intro s' hs'
      obtain rfl := Except.ok.inj (ht.symm.trans hs')
      have htlen : t.len = toWord s.type.bits (s.len + incr) := by
        rw [← hvalid.length_contents, hc, List.length_take_of_le (by omega)]
      exact ⟨hvalid, htlen ▸ hc, htlen ▸ hword⟩
  · have herr : s.sdsIncrLen incr = .error .assertion := by
      unfold sdsIncrLen
      rw [if_pos (by simpa using hallowed)]
    refine ⟨iff_of_false (by simp [herr]) ?_, ?_⟩
    · rintro ⟨h5, hcase⟩
      apply hallowed
      rw [incrAllowed_type5 h5]
      omega
    · intro s' hs'
      cases herr.symm.trans hs'

/-- Two letters behind a header of type 5. -/
def shortPair : Sds := ⟨.type5, 2, 0, [65, 66, 0]⟩

theorem incrLen_exact_pair : shortPair.sdsIncrLen (-2 ^ 32 - 1) = .error .outOfRange ∧
    ∃ s', shortPair.sdsIncrLen (-1) = .ok s' ∧ s'.Valid ∧
      s'.contents = shortPair.buf.take s'.len ∧
      (s'.len : ℤ) = (shortPair.len + -1) % 2 ^ shortPair.type.bits := by
  have hvalid : shortPair.Valid :=
    ⟨⟨by decide, by decide, by decide, fun hne => absurd rfl hne, by decide⟩, rfl⟩
  constructor
  · have hfar := (incrLen_exact hvalid (show -2 ^ 63 < -2 ^ 32 - 1 by decide) (by decide)
      (by decide)).1
    exact hfar.mpr ⟨rfl, .inr ⟨by decide, by decide⟩⟩
  · have hstep : shortPair.sdsIncrLen (-1) = .ok ⟨.type5, 1, 0, [65, 0, 0]⟩ := by decide
    exact ⟨_, hstep, (incrLen_exact hvalid (by decide) (by decide) (by decide)).2 _ hstep⟩

end SysExploration.Sds
