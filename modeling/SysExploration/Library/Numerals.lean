import Mathlib.Data.Nat.Digits.Lemmas

/-! Decimal numerals as bytes of ASCII, and the numbers they are read as. -/
namespace SysExploration

def digitByte (d : ℕ) : UInt8 := .ofNat (48 + d)

/-- The numeral of a number, without leading zeros. -/
def numeral (n : ℕ) : List UInt8 :=
  if n = 0 then [digitByte 0] else ((Nat.digits 10 n).map digitByte).reverse

def signedNumeral (z : ℤ) : List UInt8 :=
  if z < 0 then 45 :: numeral z.natAbs else numeral z.natAbs

def readNumeral (b : List UInt8) : ℕ := b.foldl (fun n c => 10 * n + (c.toNat - 48)) 0

def readSigned : List UInt8 → ℤ
  | [] => 0
  | c :: b => if c = 45 then -readNumeral b else readNumeral (c :: b)

theorem toNat_digitByte {d : ℕ} (h : d < 10) : (digitByte d).toNat = 48 + d := by
  rw [digitByte, UInt8.toNat_ofNat']
  omega

theorem readNumeral_reverse_map {ds : List ℕ} (h : ∀ d ∈ ds, d < 10) :
    readNumeral (ds.map digitByte).reverse = Nat.ofDigits 10 ds := by
  induction ds with
  | nil => rfl
  | cons d ds ih =>
    have hd : d < 10 := h d List.mem_cons_self
    have hrest := ih fun e he => h e (List.mem_cons_of_mem d he)
    unfold readNumeral at hrest ⊢
    rw [List.map_cons, List.reverse_cons, List.foldl_append, hrest, List.foldl_cons, List.foldl_nil,
      toNat_digitByte hd, Nat.ofDigits_cons]
    omega

theorem readNumeral_numeral (n : ℕ) : readNumeral (numeral n) = n := by
  unfold numeral
  split_ifs with hzero
  · rw [hzero]
    rfl
  · rw [readNumeral_reverse_map fun d hd => Nat.digits_lt_base (by decide) hd,
      Nat.ofDigits_digits]

/-- Every byte of a numeral is a digit. -/
theorem isDigit_of_mem_numeral {n : ℕ} {c : UInt8} (h : c ∈ numeral n) : 48 ≤ c ∧ c ≤ 57 := by
  have hbyte {d : ℕ} (hd : d < 10) : 48 ≤ digitByte d ∧ digitByte d ≤ 57 := by
    rw [UInt8.le_iff_toNat_le, UInt8.le_iff_toNat_le, toNat_digitByte hd]
    constructor
    · exact Nat.le_add_right 48 d
    · exact Nat.add_le_add_left (Nat.le_of_lt_succ hd) 48
  unfold numeral at h
  split_ifs at h with hzero
  · obtain rfl := List.mem_singleton.mp h
    exact hbyte (by decide)
  · obtain ⟨d, hd, rfl⟩ := List.mem_map.mp (List.mem_reverse.mp h)
    exact hbyte (Nat.digits_lt_base (by decide) hd)

theorem numeral_ne_nil (n : ℕ) : numeral n ≠ [] := by
  unfold numeral
  split_ifs with hzero
  · exact List.cons_ne_nil _ _
  · simpa [Nat.digits_ne_nil_iff_ne_zero] using hzero

theorem length_numeral_le {n k : ℕ} (h : n < 10 ^ k) (hk : 0 < k) : (numeral n).length ≤ k := by
  unfold numeral
  split_ifs with hzero
  · exact hk
  · rw [List.length_reverse, List.length_map]
    exact (Nat.digits_length_le_iff (by decide) n).mpr h

theorem readSigned_signedNumeral (z : ℤ) : readSigned (signedNumeral z) = z := by
  unfold signedNumeral
  split_ifs with hneg
  · rw [readSigned, if_pos rfl, readNumeral_numeral]
    omega
  · obtain ⟨c, b, hcons⟩ := List.exists_cons_of_ne_nil (numeral_ne_nil z.natAbs)
    have hdigit : 48 ≤ c ∧ c ≤ 57 := by
      apply isDigit_of_mem_numeral (n := z.natAbs)
      rw [hcons]
      exact List.mem_cons_self
    have hminus : c ≠ 45 := by
      rintro rfl
      exact absurd hdigit.1 (by decide)
    rw [hcons, readSigned, if_neg hminus, ← hcons, readNumeral_numeral]
    omega

end SysExploration
