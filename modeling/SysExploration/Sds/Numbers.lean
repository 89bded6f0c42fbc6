import SysExploration.Library.Numerals
import SysExploration.Library.Reversal
import SysExploration.Sds.Operations

/-! Numbers as decimal strings. -/
namespace SysExploration.Sds

variable {s : Sds} {buf b : Bytes} {p v : ℕ} {value : ℤ}

def sdsLlstrSize : ℕ := 21

/-- `do { *p++ = '0' + v % 10; v /= 10; } while (v)`. The fuel is the number of rounds after which
a byte would be written behind the buffer. -/
def digitLoop : (fuel : ℕ) → Bytes → (p v : ℕ) → Except SdsFault (Bytes × ℕ)
  | 0, _, _, _ => .error .outOfRange
  | fuel + 1, buf, p, v => do
    let buf ← writeBytes buf p [.ofNat (48 + v % 10)]
    if v / 10 = 0 then .ok (buf, p + 1) else digitLoop fuel buf (p + 1) (v / 10)

/-- The terminator, and the reversal of the bytes in front of it. -/
def finishNumber (buf : Bytes) (p : ℕ) : Except SdsFault (Bytes × ℕ) := do
  let buf ← writeBytes buf p [0]
  .ok (reverseEnds buf 0 (p - 1), p)

/-- The buffer behind `s`, and the length that is returned. -/
def sdsll2str (s : Bytes) (value : ℤ) : Except SdsFault (Bytes × ℕ) := do
  let v := if value < 0 then (if value ≠ -2 ^ 63 then (-value).toNat else 2 ^ 63 - 1 + 1)
    else value.toNat
  let digits ← digitLoop (s.length + 1) s 0 v
  let signed ← (if value < 0 then do
      let buf ← writeBytes digits.1 digits.2 [45]
      .ok (buf, digits.2 + 1)
    else .ok digits)
  finishNumber signed.1 signed.2

def sdsull2str (s : Bytes) (v : ℕ) : Except SdsFault (Bytes × ℕ) := do
  let digits ← digitLoop (s.length + 1) s 0 v
  finishNumber digits.1 digits.2

/-- `buf` is an array of `SDS_LLSTR_SIZE` bytes that is not initialised. -/
def sdsfromlonglong (value : ℤ) (buf : Bytes) (mem : Malloc) : Except SdsFault (Option Sds) := do
  let r ← sdsll2str buf value
  sdsnewlen (.data r.1) r.2 mem

theorem writeBytes_append {pre rest bytes : Bytes}
    (h : bytes.length ≤ rest.length) :
    writeBytes (pre ++ rest) pre.length bytes = .ok (pre ++ bytes ++ rest.drop bytes.length) := by
  rw [writeBytes_eq (by rw [List.length_append]; omega), overwrite, List.take_left' rfl,
    List.drop_append, List.drop_eq_nil_of_le (by omega), List.nil_append, Nat.add_sub_cancel_left]

/-- The loop writes the digits, the lowest one first, by induction on the room for them. -/
theorem digitLoop_eq {ds : List ℕ} {fuel : ℕ} {pre rest : Bytes} {n : ℕ}
    (hds : (if n = 0 then [0] else Nat.digits 10 n) = ds) (hroom : ds.length ≤ rest.length)
    (hfuel : ds.length ≤ fuel) :
    digitLoop fuel (pre ++ rest) pre.length n =
      .ok (pre ++ ds.map digitByte ++ rest.drop ds.length, pre.length + ds.length) := by
  induction fuel generalizing ds pre rest n with
  | zero =>
    have hpos : ds ≠ [] := by
      rw [← hds]
      split_ifs with hzero
      · exact List.cons_ne_nil _ _
      · exact Nat.digits_ne_nil_iff_ne_zero.mpr hzero
    exact absurd (List.eq_nil_of_length_eq_zero (by omega)) hpos
  | succ fuel ih =>
    obtain ⟨tail, htail⟩ : ∃ tail, ds = n % 10 :: tail ∧
        (tail = [] ∧ n / 10 = 0 ∨ n / 10 ≠ 0 ∧ tail = Nat.digits 10 (n / 10)) := by
      rw [← hds]
      split_ifs with hzero
      · exact ⟨[], by rw [hzero], .inl ⟨rfl, by rw [hzero]⟩⟩
      · rw [Nat.digits_def' (by decide) (Nat.pos_of_ne_zero hzero)]
        refine ⟨_, rfl, ?_⟩
        by_cases hlast : n / 10 = 0
        · exact .inl ⟨by rw [hlast, Nat.digits_zero], hlast⟩
        · exact .inr ⟨hlast, rfl⟩
    obtain ⟨rfl, hcase⟩ := htail
    obtain ⟨x, rest, rfl⟩ : ∃ x r, rest = x :: r := by
      cases rest with
      | nil => simp at hroom
      | cons x r => exact ⟨x, r, rfl⟩
    simp only [List.length_cons, Nat.add_le_add_iff_right] at hroom hfuel
    have hwrite : writeBytes (pre ++ x :: rest) pre.length [.ofNat (48 + n % 10)] =
        .ok ((pre ++ [digitByte (n % 10)]) ++ rest) :=
      writeBytes_append (by simp)
    rw [digitLoop, hwrite]
    change (if n / 10 = 0 then _ else _) = _
    rcases hcase with ⟨rfl, hlast⟩ | ⟨hmore, rfl⟩
    · rw [if_pos hlast]
      simp
    · obtain ⟨tail, htail⟩ : ∃ tail, Nat.digits 10 (n / 10) = tail := ⟨_, rfl⟩
      have hrest : digitLoop fuel ((pre ++ [digitByte (n % 10)]) ++ rest)
          (pre ++ [digitByte (n % 10)]).length (n / 10) =
            .ok ((pre ++ [digitByte (n % 10)]) ++ tail.map digitByte ++ rest.drop tail.length,
              (pre ++ [digitByte (n % 10)]).length + tail.length) :=
        ih ((if_neg hmore).trans htail) (htail ▸ hroom) (htail ▸ hfuel)
      rw [List.length_append, List.length_singleton] at hrest
      rw [htail, if_neg hmore, hrest]
      simp [Nat.add_assoc, Nat.add_comm 1]

theorem numeral_eq (n : ℕ) :
    numeral n = ((if n = 0 then [0] else Nat.digits 10 n).map digitByte).reverse := by
  unfold numeral
  split_ifs <;> rfl

theorem digitLoop_first (buf : Bytes) {ds : List ℕ}
    (hds : (if v = 0 then [0] else Nat.digits 10 v) = ds) (hroom : ds.length ≤ buf.length) :
    digitLoop (buf.length + 1) buf 0 v =
      .ok (ds.map digitByte ++ buf.drop ds.length, ds.length) := by
  have hloop : digitLoop (buf.length + 1) ([] ++ buf) ([] : Bytes).length v =
      .ok ([] ++ ds.map digitByte ++ buf.drop ds.length, ([] : Bytes).length + ds.length) :=
    digitLoop_eq hds hroom (Nat.le_succ_of_le hroom)
  rw [List.nil_append, List.length_nil, List.nil_append, Nat.zero_add] at hloop
  exact hloop

theorem finishNumber_eq (written : Bytes) {rest : Bytes} (h : rest ≠ []) :
    finishNumber (written ++ rest) written.length =
      .ok (written.reverse ++ 0 :: rest.drop 1, written.length) := by
  have hone : [(0 : UInt8)].length ≤ rest.length := List.length_pos_iff.mpr h
  have hreverse := reverseEnds_eq [] written (0 :: rest.drop 1)
  rw [List.length_nil, Nat.zero_add, List.nil_append, List.nil_append] at hreverse
  rw [finishNumber, writeBytes_append hone]
  change Except.ok (reverseEnds (written ++ [0] ++ rest.drop 1) 0 (written.length - 1), _) = _
  rw [List.append_assoc, List.singleton_append, hreverse]

/-- `sdsull2str` leaves the numeral of every 64-bit number and a zero in its buffer. -/
theorem sdsull2str_eq (hv : v < 2 ^ 64) (hbuf : sdsLlstrSize ≤ buf.length) :
    (numeral v).length ≤ 20 ∧ sdsull2str buf v =
      .ok (numeral v ++ 0 :: buf.drop ((numeral v).length + 1), (numeral v).length) := by
  have hlength : (numeral v).length ≤ 20 := length_numeral_le (hv.trans (by decide)) (by decide)
  obtain ⟨ds, hds⟩ : ∃ ds, (if v = 0 then [0] else Nat.digits 10 v) = ds := ⟨_, rfl⟩
  have hnumeral : numeral v = (ds.map digitByte).reverse := by rw [numeral_eq, hds]
  have hsame : (numeral v).length = ds.length := by
    rw [hnumeral, List.length_reverse, List.length_map]
  unfold sdsLlstrSize at hbuf
  have hloop := digitLoop_first buf hds (by omega)
  have hrest : buf.drop ds.length ≠ [] := by
    rw [ne_eq, List.drop_eq_nil_iff]
    omega
  have hfinish := finishNumber_eq (ds.map digitByte) hrest
  rw [List.length_map, ← hnumeral, List.drop_drop] at hfinish
  refine ⟨hlength, ?_⟩
  rw [sdsull2str, hloop, hsame]
  exact hfinish

/-- `sdsll2str` does so for every signed one, the smallest one included. -/
theorem sdsll2str_eq (hlow : -2 ^ 63 ≤ value) (hhigh : value < 2 ^ 63)
    (hbuf : sdsLlstrSize ≤ buf.length) :
    (signedNumeral value).length ≤ 20 ∧ sdsll2str buf value =
      .ok (signedNumeral value ++ 0 :: buf.drop ((signedNumeral value).length + 1),
        (signedNumeral value).length) := by
  obtain ⟨v, hv⟩ : ∃ v, value.natAbs = v := ⟨_, rfl⟩
  have hlength : (numeral v).length ≤ 19 := by
    apply length_numeral_le _ (by decide)
    have hten : (10 : ℕ) ^ 19 = 10000000000000000000 := by decide
    omega
  obtain ⟨ds, hds⟩ : ∃ ds, (if v = 0 then [0] else Nat.digits 10 v) = ds := ⟨_, rfl⟩
  have hnumeral : numeral v = (ds.map digitByte).reverse := by rw [numeral_eq, hds]
  have hsame : (numeral v).length = ds.length := by
    rw [hnumeral, List.length_reverse, List.length_map]
  unfold sdsLlstrSize at hbuf
  have hloop := digitLoop_first buf hds (by omega)
  -- the absolute value, also where the negation would overflow
  have habs : (if value < 0 then (if value ≠ -2 ^ 63 then (-value).toNat else 2 ^ 63 - 1 + 1)
      else value.toNat) = v := by
    rw [← hv]
    split_ifs <;> omega
  unfold sdsll2str signedNumeral
  rw [habs, hv]
  by_cases hneg : value < 0
  · have hwrite : writeBytes (ds.map digitByte ++ buf.drop ds.length) ds.length [45] =
        .ok (ds.map digitByte ++ [45] ++ (buf.drop ds.length).drop 1) := by
      have happend : writeBytes (ds.map digitByte ++ buf.drop ds.length)
          (ds.map digitByte).length [45] =
            .ok (ds.map digitByte ++ [45] ++ (buf.drop ds.length).drop 1) :=
        writeBytes_append (by rw [List.length_drop, List.length_singleton]; omega)
      rwa [List.length_map] at happend
    have hrest : (buf.drop ds.length).drop 1 ≠ [] := by
      rw [ne_eq, List.drop_drop, List.drop_eq_nil_iff]
      omega
    have hfinish := finishNumber_eq (ds.map digitByte ++ [45]) hrest
    rw [List.length_append, List.length_map, List.length_singleton, List.reverse_append,
      ← hnumeral] at hfinish
    simp only [hneg, ↓reduceIte, hloop, bind, Except.bind, hwrite]
    refine ⟨by rw [List.length_cons]; omega, hfinish.trans ?_⟩
    rw [List.length_cons, hsame, List.drop_drop, List.drop_drop]
    rfl
  · have hrest : buf.drop ds.length ≠ [] := by
      rw [ne_eq, List.drop_eq_nil_iff]
      omega
    have hfinish := finishNumber_eq (ds.map digitByte) hrest
    rw [List.length_map, ← hnumeral, List.drop_drop] at hfinish
    simp only [hneg, ↓reduceIte, hloop, bind, Except.bind]
    refine ⟨by omega, hfinish.trans ?_⟩
    rw [hsame]

/-- A number that was made a string is read back from it, for every `long long` and whatever was
in the buffer. -/
theorem numbers_read_back (hlow : -2 ^ 63 ≤ value) (hhigh : value < 2 ^ 63)
    (hbuf : buf.length = sdsLlstrSize) (garbage : ℕ → UInt8) :
    ∃ s, sdsfromlonglong value buf (some garbage) = .ok (some s) ∧ s.Valid ∧
      s.contents = signedNumeral value ∧ readSigned s.contents = value ∧
      s.contents.length ≤ 20 := by
  obtain ⟨hlength, hnumber⟩ := sdsll2str_eq hlow hhigh hbuf.ge
  obtain ⟨b, hb⟩ : ∃ b,
      signedNumeral value ++ 0 :: buf.drop ((signedNumeral value).length + 1) = b := ⟨_, rfl⟩
  have hle : (signedNumeral value).length ≤ b.length := by
    rw [← hb, List.length_append]
    omega
  have hsmall : (signedNumeral value).length + 18 < 2 ^ 64 := by omega
  obtain ⟨s, hs, hvalid, hc⟩ := sdsnewlen_data hle hsmall garbage
  have hcontents : s.contents = signedNumeral value := by
    rw [hc, ← hb, List.take_left' rfl]
  refine ⟨s, ?_, hvalid, hcontents, ?_, ?_⟩
  · rw [sdsfromlonglong, hnumber, hb]
    exact hs
  · rw [hcontents]
    exact readSigned_signedNumeral value
  · rw [hcontents]
    exact hlength

theorem numbers_read_back_min :
    ∃ s, sdsfromlonglong (-2 ^ 63) (List.replicate 21 7) (some fun _ => 0) = .ok (some s) ∧
      s.Valid ∧ s.contents = signedNumeral (-2 ^ 63) ∧ readSigned s.contents = -2 ^ 63 ∧
      s.contents.length ≤ 20 :=
  numbers_read_back (by decide) (by decide) List.length_replicate _

end SysExploration.Sds
