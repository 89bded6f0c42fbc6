import Mathlib.Data.List.DropRight
import Mathlib.Data.List.GetD
import SysExploration.Sds.Operations

/-! The operations that change a string in its block, and the comparison of two strings. -/
namespace SysExploration.Sds

variable {s s' t : Sds} {b c cset : Bytes} {n i j : ℕ}

/-- `strchr` finds the zero at the end of the set as well. -/
def strchr (cset : Bytes) (c : UInt8) : Bool := c = 0 ∨ c ∈ cset.takeWhile (· ≠ 0)

/-- `while (sp <= end && strchr(cset, *sp)) sp++`; the fuel is `end - sp + 1`. -/
def trimFront (cset b : Bytes) : (fuel sp : ℕ) → ℕ
  | 0, sp => sp
  | fuel + 1, sp => if strchr cset (b.getD sp 0) then trimFront cset b fuel (sp + 1) else sp

/-- `while (ep > sp && strchr(cset, *ep)) ep--`, on the index behind `ep`. -/
def trimBack (cset b : Bytes) (sp : ℕ) : ℕ → ℕ
  | 0 => 0
  | ep + 1 => if sp < ep ∧ strchr cset (b.getD ep 0) then trimBack cset b sp ep else ep + 1

/-- `memmove` to the front of the string. -/
def moveFront (buf : Bytes) (i n : ℕ) : Except SdsFault Bytes := do
  let bytes ← readBytes buf i n
  writeBytes buf 0 bytes

def sdstrim (s : Sds) (cset : Bytes) : Except SdsFault Sds := do
  let b ← readBytes s.buf 0 s.sdslen
  let sp := trimFront cset b s.sdslen 0
  let len := toSize (trimBack cset b sp s.sdslen - sp)
  let buf ← (if sp ≠ 0 then moveFront s.buf sp len else .ok s.buf)
  let buf ← writeBytes buf len [0]
  .ok ({ s with buf := buf }.sdssetlen len)

/-- An index of `sdsrange`, which counts from the end when it is negative. -/
def rangeIndex (len : ℕ) (i : ℤ) : ℤ :=
  if i < 0 then
    let i := toSsize (toSize (len + i))
    if i < 0 then 0 else i
  else i

/-- `(start > end) ? 0 : (end-start)+1`, where the sum is a `ssize_t`. -/
def rangeSize (start last : ℤ) : Except SdsFault ℕ :=
  if last < start then .ok 0
  else if 2 ^ 63 ≤ last - start + 1 then .error .overflow
  else .ok (toSize (last - start + 1))

def sdsrange (s : Sds) (start last : ℤ) : Except SdsFault Sds :=
  let len := s.sdslen
  if len = 0 then .ok s
  else
    let start := rangeIndex len start
    let last := rangeIndex len last
    do
      let newlen ← rangeSize start last
      let newlen :=
        if newlen = 0 then 0
        else if toSsize len ≤ start then 0
        else if toSsize len ≤ last then toSize (toSsize (toSize (len - 1)) - start + 1)
        else newlen
      let buf ← (if start ≠ 0 ∧ newlen ≠ 0 then moveFront s.buf start.toNat newlen
        else .ok s.buf)
      let buf ← writeBytes buf newlen [0]
      .ok ({ s with buf := buf }.sdssetlen newlen)

/-- A loop that replaces every byte of the string. -/
def mapBytes (f : UInt8 → UInt8) (s : Sds) : Except SdsFault Sds := do
  let b ← readBytes s.buf 0 s.sdslen
  let buf ← writeBytes s.buf 0 (b.map f)
  .ok { s with buf := buf }

/-- `tolower` and `toupper` in the C locale, which no program here leaves. -/
def tolower (c : UInt8) : UInt8 := if 65 ≤ c ∧ c ≤ 90 then c + 32 else c

def toupper (c : UInt8) : UInt8 := if 97 ≤ c ∧ c ≤ 122 then c - 32 else c

def sdstolower (s : Sds) : Except SdsFault Sds := mapBytes tolower s

def sdstoupper (s : Sds) : Except SdsFault Sds := mapBytes toupper s

/-- The inner loop of `sdsmapchars`, which stops at the first match. -/
def mapChar (c : UInt8) : List (UInt8 × UInt8) → UInt8
  | [] => c
  | (x, y) :: rest => if c = x then y else mapChar c rest

/-- Both sets have `setlen` bytes. -/
def sdsmapchars (s : Sds) (src dst : Bytes) (setlen : ℕ) : Except SdsFault Sds := do
  let src ← readBytes src 0 setlen
  let dst ← readBytes dst 0 setlen
  mapBytes (mapChar · (src.zip dst)) s

/-- `memcmp`; only the sign of its result is fixed. -/
def memcmp : Bytes → Bytes → ℤ
  | x :: xs, y :: ys => if x < y then -1 else if y < x then 1 else memcmp xs ys
  | _, _ => 0

def sdscmp (s1 s2 : Sds) : Except SdsFault ℤ := do
  let l1 := s1.sdslen
  let l2 := s2.sdslen
  let minlen := if l1 < l2 then l1 else l2
  let b1 ← readBytes s1.buf 0 minlen
  let b2 ← readBytes s2.buf 0 minlen
  let cmp := memcmp b1 b2
  if cmp = 0 then .ok (if l2 < l1 then 1 else if l1 < l2 then -1 else 0) else .ok cmp

theorem Valid.read_contents (h : s.Valid) : readBytes s.buf 0 s.len = .ok s.contents := by
  have hlt := h.len_lt_length
  rw [readBytes_eq (by omega), slice, List.drop_zero]
  rfl

/-- The part of a string that is moved to its front. -/
theorem Valid.cut (h : s.Valid) (hin : i + n ≤ s.len) :
    ∃ s', (do
        let buf ← (if i ≠ 0 ∧ n ≠ 0 then moveFront s.buf i n else .ok s.buf)
        let buf ← writeBytes buf n [0]
        .ok ({ s with buf := buf }.sdssetlen n)) = .ok s' ∧ s'.Valid ∧
      s'.contents = slice s.contents i n := by
  have hlt := h.len_lt_length
  have hbytes : (slice s.buf i n).length = n := length_slice (by omega)
  have hslice : slice s.contents i n = slice s.buf i n := by
    rw [Sds.contents, slice, slice, List.drop_take, List.take_take, Nat.min_eq_left (by omega)]
  obtain ⟨buf, hmove, hlength, htake⟩ : ∃ buf,
      (if i ≠ 0 ∧ n ≠ 0 then moveFront s.buf i n else .ok s.buf) = .ok buf ∧
        buf.length = s.buf.length ∧ buf.take n = slice s.buf i n := by
    split_ifs with hmoves
    · have hwrite : 0 + (slice s.buf i n).length ≤ s.buf.length := by omega
      refine ⟨overwrite s.buf 0 (slice s.buf i n), ?_, length_overwrite hwrite, ?_⟩
      · rw [moveFront, readBytes_eq (by omega)]
        exact writeBytes_eq hwrite
      · have hstored := take_overwrite s.buf (slice s.buf i n)
        rw [hbytes] at hstored
        exact hstored
    · refine ⟨s.buf, rfl, rfl, ?_⟩
      rw [not_and_or, not_not, not_not] at hmoves
      rcases hmoves with rfl | rfl
      · rw [slice, List.drop_zero]
      · rw [slice_zero, List.take_zero]
  have hwrite : n + [(0 : UInt8)].length ≤ buf.length := by
    rw [hlength, List.length_singleton]
    omega
  have hroom : n ≤ s.sdsalloc := by
    have hle := h.len_le
    omega
  have hzero : (overwrite buf n [0])[n]? = some (0 : UInt8) :=
    getElem?_overwrite (j := 0) (by omega) Nat.zero_lt_one
  refine ⟨_, ?_, h.rewrite ((length_overwrite hwrite).trans hlength) hroom hzero, ?_⟩
  · rw [hmove]
    change (writeBytes buf n [0]).bind _ = _
    rw [writeBytes_eq hwrite]
    rfl
  · rw [h.contents_rewrite hroom, take_overwrite_of_le (le_refl n) (by omega), htake, hslice]

theorem trimFront_eq {sp fuel : ℕ} (hfuel : sp + fuel = b.length) :
    trimFront cset b fuel sp = sp + ((b.drop sp).takeWhile (strchr cset)).length := by
  induction fuel generalizing sp with
  | zero =>
    have hall : b.drop sp = [] := List.drop_eq_nil_of_le (by omega)
    rw [trimFront, hall]
    rfl
  | succ fuel ih =>
    have hlt : sp < b.length := by omega
    rw [trimFront, List.getD_eq_getElem _ _ hlt, List.drop_eq_getElem_cons hlt]
    split_ifs with hset
    · rw [ih (by omega), List.takeWhile_cons_of_pos hset, List.length_cons]
      omega
    · rw [List.takeWhile_cons_of_neg hset]
      rfl

/-- The second loop stops in front of `sp` even if that byte is in the set. -/
theorem trimBack_eq {sp ep : ℕ} (hlt : sp < ep) (hle : ep ≤ b.length)
    (hfirst : ¬ strchr cset (b.getD sp 0)) :
    trimBack cset b sp ep = sp + ((slice b sp (ep - sp)).rdropWhile (strchr cset)).length := by
  induction ep with
  | zero => omega
  | succ ep ih =>
    have hget : b[ep]? = some (b.getD ep 0) := by
      rw [List.getD_eq_getElem _ _ (by omega)]
      exact List.getElem?_eq_getElem (by omega)
    have hlast : slice b sp (ep + 1 - sp) = slice b sp (ep - sp) ++ [b.getD ep 0] := by
      have hone : slice b ep 1 = [b.getD ep 0] := by
        rw [slice, List.take_one, List.head?_drop, hget]
        rfl
      rw [show ep + 1 - sp = (ep - sp) + 1 by omega, slice_add, show sp + (ep - sp) = ep by omega,
        hone]
    have hlength : (slice b sp (ep - sp)).length = ep - sp := length_slice (by omega)
    rw [trimBack, hlast]
    split_ifs with hgo
    · rw [ih hgo.1 (by omega), List.rdropWhile_concat_pos _ _ _ hgo.2]
    · have hkeep : ¬ strchr cset (b.getD ep 0) := by
        intro hset
        by_cases hsp : sp < ep
        · exact hgo ⟨hsp, hset⟩
        · exact hfirst ((show sp = ep by omega) ▸ hset)
      rw [List.rdropWhile_concat_neg _ _ _ hkeep, List.length_append, hlength,
        List.length_singleton]
      omega

/-- The first loop stops at the end or in front of a byte that is not in the set. -/
theorem trimFront_stop {sp fuel : ℕ} (hfuel : sp + fuel = b.length)
    (hlt : trimFront cset b fuel sp < b.length) :
    ¬ strchr cset (b.getD (trimFront cset b fuel sp) 0) := by
  induction fuel generalizing sp with
  | zero =>
    rw [trimFront] at hlt
    omega
  | succ fuel ih =>
    rw [trimFront] at hlt ⊢
    split_ifs at hlt ⊢ with hset
    · exact ih (by omega) hlt
    · exact hset

/-- What the two loops leave between them, also when that is nothing. -/
theorem trim_between (cset b : Bytes) : ∃ sp n, trimFront cset b b.length 0 = sp ∧
    trimBack cset b sp b.length = sp + n ∧ sp + n ≤ b.length ∧
    slice b sp n = (b.dropWhile (strchr cset)).rdropWhile (strchr cset) := by
  obtain ⟨sp, hsp⟩ : ∃ sp, trimFront cset b b.length 0 = sp := ⟨_, rfl⟩
  have hfront : sp = (b.takeWhile (strchr cset)).length := by
    rw [← hsp, trimFront_eq (Nat.zero_add _), List.drop_zero, Nat.zero_add]
  have hle : sp ≤ b.length := by
    rw [hfront]
    exact (List.takeWhile_prefix _).length_le
  have hdrop : b.drop sp = b.dropWhile (strchr cset) := by
    have hsplit := List.takeWhile_append_dropWhile (p := strchr cset) (l := b)
    have hcut : (b.takeWhile (strchr cset) ++ b.dropWhile (strchr cset)).drop sp =
        b.dropWhile (strchr cset) := List.drop_left' hfront.symm
    rwa [hsplit] at hcut
  have hshort := (List.rdropWhile_prefix (strchr cset) (b.drop sp)).length_le
  rw [List.length_drop] at hshort
  refine ⟨sp, ((b.drop sp).rdropWhile (strchr cset)).length, hsp, ?_, by omega, ?_⟩
  · by_cases hall : sp = b.length
    · have hnone : b.drop sp = [] := List.drop_eq_nil_of_le (by omega)
      rw [hnone, List.rdropWhile_nil, List.length_nil, Nat.add_zero, ← hall]
      cases sp with
      | zero => rfl
      | succ n => rw [trimBack, if_neg (by omega)]
    · have hkeep : ¬ strchr cset (b.getD sp 0) := by
        rw [← hsp] at hall ⊢
        exact trimFront_stop (Nat.zero_add _) (by omega)
      have hslice : slice b sp (b.length - sp) = b.drop sp := by
        rw [slice, List.take_of_length_le]
        rw [List.length_drop]
      rw [trimBack_eq (by omega) (le_refl _) hkeep, hslice]
  · rw [slice, ← hdrop]
    exact (List.prefix_iff_eq_take.mp (List.rdropWhile_prefix _ _)).symm

/-- `sdstrim` takes the bytes of the set, and zeros, from both ends. -/
theorem Valid.trim (h : s.Valid) (cset : Bytes) :
    ∃ s', s.sdstrim cset = .ok s' ∧ s'.Valid ∧
      s'.contents = (s.contents.dropWhile (strchr cset)).rdropWhile (strchr cset) := by
  have hlt := h.len_lt_length
  have hsmall := h.small
  obtain ⟨sp, n, hsp, hep, hin, hslice⟩ := trim_between cset s.contents
  rw [h.length_contents] at hsp hep hin
  have hsize : toSize ((sp + n : ℕ) - (sp : ℤ)) = n := by
    have hsub : ((sp + n : ℕ) : ℤ) - sp = (n : ℤ) := by omega
    rw [hsub]
    exact toSize_of_lt (by omega)
  obtain ⟨s', hs', hvalid, hcontents⟩ := h.cut hin
  have hmove : (if sp ≠ 0 then moveFront s.buf sp n else .ok s.buf) =
      if sp ≠ 0 ∧ n ≠ 0 then moveFront s.buf sp n else .ok s.buf := by
    by_cases hzero : n = 0
    · have hsame : moveFront s.buf sp n = .ok s.buf := by
        have hnone : 0 + ([] : Bytes).length ≤ s.buf.length := Nat.zero_le _
        rw [hzero, moveFront, readBytes_eq (by omega), slice_zero]
        exact writeBytes_eq hnone
      rw [hsame, ite_self, ite_self]
    · simp only [ne_eq, hzero, not_false_eq_true, and_true]
  refine ⟨s', ?_, hvalid, hcontents.trans hslice⟩
  rw [← hs', ← hmove]
  simp only [sdstrim, sdslen, h.read_contents, bind, Except.bind, hsp, hep, hsize]

/-- A natural index that an index of `sdsrange` stands for. -/
def position (len : ℕ) (i : ℤ) : ℕ := if i < 0 then (len + i).toNat else i.toNat

theorem rangeIndex_eq {len : ℕ} {i : ℤ} (hlen : len < 2 ^ 63) (hi : -2 ^ 63 ≤ i) :
    rangeIndex len i = position len i := by
  have hconvert : i < 0 → toSsize (toSize (len + i)) = len + i := by
    intro hneg
    simp only [toSsize, toSize, toWord]
    split_ifs <;> omega
  unfold rangeIndex position
  split_ifs with hneg
  · simp only [hconvert hneg]
    split_ifs <;> omega
  · omega

/-- The range from the first byte to `SSIZE_MAX` is the only one whose size is no `ssize_t`. -/
theorem rangeSize_eq {a z : ℕ} (hz : z < 2 ^ 63) (hroom : 0 < a ∨ z < 2 ^ 63 - 1) :
    rangeSize a z = .ok (if (z : ℤ) < a then 0 else toSize ((z : ℤ) - a + 1)) := by
  unfold rangeSize
  split_ifs with hlt hbig
  · rfl
  · omega
  · rfl

/-- `sdsrange` keeps the bytes from one position to another one. An index in front of the string
stands for its first byte, also as the end of the range. -/
theorem Valid.range (h : s.Valid) (hlen : s.len < 2 ^ 63) {start last : ℤ}
    (hstart : -2 ^ 63 ≤ start) (hlast : -2 ^ 63 ≤ last) (hlast' : last < 2 ^ 63)
    (hroom : s.len = 0 ∨ 0 < position s.len start ∨ last < 2 ^ 63 - 1) :
    ∃ s', s.sdsrange start last = .ok s' ∧ s'.Valid ∧
      s'.contents = slice s.contents (position s.len start)
        (position s.len last + 1 - position s.len start) := by
  have hlength := h.length_contents
  unfold sdsrange sdslen
  by_cases hnil : s.len = 0
  · refine ⟨s, if_pos hnil, h, ?_⟩
    have hempty : s.contents = [] := List.eq_nil_of_length_eq_zero (hlength.trans hnil)
    rw [hempty, slice, List.drop_nil, List.take_nil]
  obtain ⟨a, ha⟩ : ∃ a, position s.len start = a := ⟨_, rfl⟩
  obtain ⟨z, hz⟩ : ∃ z, position s.len last = z := ⟨_, rfl⟩
  have hzlt : z < 2 ^ 63 := by
    rw [← hz, position]
    split_ifs <;> omega
  have hsize : rangeSize a z = .ok (if (z : ℤ) < a then 0 else toSize ((z : ℤ) - a + 1)) := by
    apply rangeSize_eq hzlt
    rcases hroom with hzero | hpos | hlt
    · exact absurd hzero hnil
    · exact .inl (ha ▸ hpos)
    · refine .inr ?_
      rw [← hz, position]
      split_ifs <;> omega
  have hlen' : toSsize s.len = s.len := toSsize_of_lt hlen
  have hend : toSsize (toSize ((s.len : ℤ) - 1)) = ((s.len - 1 : ℕ) : ℤ) := by
    have hsub : (s.len : ℤ) - 1 = ((s.len - 1 : ℕ) : ℤ) := by omega
    rw [hsub, toSize_of_lt (by omega), toSsize_of_lt (by omega)]
  obtain ⟨n, hn⟩ : ∃ n, (if a < s.len then min (z + 1 - a) (s.len - a) else 0) = n := ⟨_, rfl⟩
  have hcount : (if (if (z : ℤ) < a then 0 else toSize ((z : ℤ) - a + 1)) = 0 then 0
      else if (s.len : ℤ) ≤ a then 0
      else if (s.len : ℤ) ≤ z then toSize (((s.len - 1 : ℕ) : ℤ) - a + 1)
      else if (z : ℤ) < a then 0 else toSize ((z : ℤ) - a + 1)) = n := by
    rw [← hn]
    unfold toSize toWord
    split_ifs <;> omega
  -- an empty range moves nothing, wherever it begins
  obtain ⟨i, hi⟩ : ∃ i, (if n = 0 then 0 else a) = i := ⟨_, rfl⟩
  have hin : i + n ≤ s.len := by
    rw [← hi, ← hn]
    split_ifs <;> omega
  have hslice : slice s.contents i n = slice s.contents a (z + 1 - a) := by
    by_cases hzero : n = 0
    · rw [hzero, slice_zero, slice, eq_comm, List.take_eq_nil_iff, List.drop_eq_nil_iff, hlength]
      rw [hzero] at hn
      split_ifs at hn <;> omega
    · rw [if_neg hzero] at hi
      have hlt : a < s.len := by
        by_contra hge
        rw [if_neg hge] at hn
        exact hzero hn.symm
      rw [if_pos hlt] at hn
      unfold slice
      rw [← hi, ← hn, ← hlength, ← List.length_drop, ← List.take_eq_take_min]
  have hmove : (if (a : ℤ) ≠ 0 ∧ n ≠ 0 then moveFront s.buf (a : ℤ).toNat n else .ok s.buf) =
      if i ≠ 0 ∧ n ≠ 0 then moveFront s.buf i n else .ok s.buf := by
    by_cases hzero : n = 0
    · simp only [hzero, ne_eq, not_true_eq_false, and_false, ↓reduceIte]
    · rw [if_neg hzero] at hi
      simp only [hi, ne_eq, Int.natCast_eq_zero, Int.toNat_natCast]
  obtain ⟨s', hs', hvalid, hcontents⟩ := h.cut hin
  refine ⟨s', ?_, hvalid, ?_⟩
  · rw [if_neg hnil, ← hs', ← hmove]
    simp only [rangeIndex_eq hlen hstart, rangeIndex_eq hlen hlast, ha, hz, hsize, hlen', hend,
      bind, Except.bind, hcount]
  · rw [hcontents, hslice, ha, hz]

/-- A byte by byte replacement. -/
theorem Valid.mapBytes (h : s.Valid) (f : UInt8 → UInt8) :
    ∃ s', s.mapBytes f = .ok s' ∧ s'.Valid ∧ s'.contents = s.contents.map f := by
  have hlt := h.len_lt_length
  have hmapped : (s.contents.map f).length = s.len := by rw [List.length_map, h.length_contents]
  have hwrite : 0 + (s.contents.map f).length ≤ s.buf.length := by omega
  have hzero : (overwrite s.buf 0 (s.contents.map f))[s.len]? = some 0 := by
    rw [getElem?_overwrite_of_le (by omega) (Nat.zero_le _)]
    exact h.terminated
  obtain ⟨buf, hbuf⟩ : ∃ buf, overwrite s.buf 0 (s.contents.map f) = buf := ⟨_, rfl⟩
  rw [hbuf] at hzero
  have hsame : ({ s with buf := buf } : Sds).sdssetlen s.len = { s with buf := buf } :=
    congrArg (fun n => ({ s with len := n, buf := buf } : Sds)) (Nat.mod_eq_of_lt h.len_lt)
  have hvalid := h.rewrite (hbuf ▸ length_overwrite hwrite) h.len_le hzero
  rw [hsame] at hvalid
  refine ⟨{ s with buf := buf }, ?_, hvalid, ?_⟩
  · simp only [Sds.mapBytes, sdslen, h.read_contents, bind, Except.bind, writeBytes_eq hwrite, hbuf]
  · have htake := take_overwrite s.buf (s.contents.map f)
    rw [hmapped, hbuf] at htake
    exact htake

theorem Valid.mapchars (h : s.Valid) {src dst : Bytes} {setlen : ℕ} (hsrc : setlen ≤ src.length)
    (hdst : setlen ≤ dst.length) :
    ∃ s', s.sdsmapchars src dst setlen = .ok s' ∧ s'.Valid ∧ s'.contents =
      s.contents.map fun c => mapChar c ((src.take setlen).zip (dst.take setlen)) := by
  obtain ⟨s', hs', hvalid, hcontents⟩ :=
    h.mapBytes fun c => mapChar c ((src.take setlen).zip (dst.take setlen))
  refine ⟨s', ?_, hvalid, hcontents⟩
  have hread {b : Bytes} (hb : setlen ≤ b.length) :
      readBytes b 0 setlen = .ok (b.take setlen) := by
    rw [readBytes_eq (by omega), slice, List.drop_zero]
  simp only [sdsmapchars, hread hsrc, hread hdst, bind, Except.bind]
  exact hs'

/-- What `sdscmp` makes of the common front and of the lengths. -/
def compareBytes (xs ys : Bytes) : ℤ :=
  let minlen := if xs.length < ys.length then xs.length else ys.length
  let cmp := memcmp (xs.take minlen) (ys.take minlen)
  if cmp = 0 then (if ys.length < xs.length then 1 else if xs.length < ys.length then -1 else 0)
  else cmp

theorem memcmp_cons (x y : UInt8) (xs ys : Bytes) : memcmp (x :: xs) (y :: ys) =
    if x < y then -1 else if y < x then 1 else memcmp xs ys := by rw [memcmp]

theorem compareBytes_cons (x y : UInt8) (xs ys : Bytes) :
    compareBytes (x :: xs) (y :: ys) =
      if x < y then -1 else if y < x then 1 else compareBytes xs ys := by
  have hmin : (if (x :: xs).length < (y :: ys).length then (x :: xs).length
      else (y :: ys).length) = (if xs.length < ys.length then xs.length else ys.length) + 1 := by
    simp only [List.length_cons]
    split_ifs <;> omega
  simp only [compareBytes, hmin, List.take_succ_cons, memcmp_cons]
  simp only [List.length_cons, Nat.add_lt_add_iff_right]
  by_cases hxy : x < y
  · simp only [hxy, ↓reduceIte, Int.reduceNeg, Int.reduceEq]
  · by_cases hyx : y < x
    · simp only [hxy, hyx, ↓reduceIte, Int.reduceEq]
    · simp only [hxy, hyx, ↓reduceIte]

theorem compareBytes_spec (xs ys : Bytes) : (compareBytes xs ys < 0 ↔ xs < ys) ∧
    (compareBytes xs ys = 0 ↔ xs = ys) ∧ (0 < compareBytes xs ys ↔ ys < xs) := by
  induction xs generalizing ys with
  | nil => cases ys <;> simp [compareBytes, memcmp]
  | cons x xs ih =>
    cases ys with
    | nil => simp [compareBytes, memcmp]
    | cons y ys =>
      obtain ⟨hlt, heq, hgt⟩ := ih ys
      rw [compareBytes_cons, List.cons_lt_cons_iff, List.cons_lt_cons_iff, List.cons_eq_cons]
      by_cases hxy : x < y
      · have hne : x ≠ y := UInt8.ne_of_lt hxy
        have hnot : ¬ y < x := UInt8.lt_asymm hxy
        simp [hxy, hne, hnot, hne.symm]
      · by_cases hyx : y < x
        · have hne : y ≠ x := UInt8.ne_of_lt hyx
          simp [hxy, hyx, hne, hne.symm]
        · have hsame : x = y := UInt8.le_antisymm (UInt8.not_lt.mp hyx) (UInt8.not_lt.mp hxy)
          subst hsame
          simp only [hxy, ↓reduceIte, hlt, heq, hgt, false_or, true_and]

/-- `sdscmp` orders strings as dictionaries do, by unsigned bytes. -/
theorem Valid.cmp (h : s.Valid) (ht : t.Valid) : ∃ r, s.sdscmp t = .ok r ∧
    (r < 0 ↔ s.contents < t.contents) ∧ (r = 0 ↔ s.contents = t.contents) ∧
      (0 < r ↔ t.contents < s.contents) := by
  refine ⟨compareBytes s.contents t.contents, ?_, compareBytes_spec _ _⟩
  have hs := h.len_lt_length
  have hlt := ht.len_lt_length
  have hread {u : Sds} (hu : u.Valid) {m : ℕ} (hm : m ≤ u.len) :
      readBytes u.buf 0 m = .ok (u.contents.take m) := by
    have hin := hu.len_lt_length
    rw [readBytes_eq (by omega), slice, List.drop_zero, Sds.contents, List.take_take,
      Nat.min_eq_left hm]
  have hslen : s.contents.length = s.sdslen := h.length_contents
  have htlen : t.contents.length = t.sdslen := ht.length_contents
  obtain ⟨m, hm⟩ : ∃ m, (if s.sdslen < t.sdslen then s.sdslen else t.sdslen) = m := ⟨_, rfl⟩
  have hmin : m ≤ s.sdslen ∧ m ≤ t.sdslen := by
    rw [← hm]
    split_ifs <;> omega
  simp only [sdscmp, compareBytes, hslen, htlen, hm, hread h hmin.1, hread ht hmin.2, bind,
    Except.bind]
  split_ifs <;> rfl

end SysExploration.Sds
