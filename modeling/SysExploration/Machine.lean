import Mathlib.Algebra.Ring.Int.Defs
import Mathlib.Algebra.Ring.Nat
import SysExploration.Library.Slice

/-! The C machine under the programs: byte strings, the conversions between the 64-bit
`size_t` and `ssize_t`, and the ways a call can fail to return. -/
namespace SysExploration

abbrev Bytes := List UInt8

/-- A call that returns no value. Reading or writing outside an allocated object and handing
`NULL` to an sds function are undefined in C; `endless` marks a loop that is still running
after every value of its index has been tried; `exit` is `exit(EXIT_FAILURE)`. -/
inductive Fault where
  | outOfRange | nullString | endless | exit
  deriving DecidableEq, Repr

/-- Conversion to an unsigned type of `w` bits. Sums and differences of unsigned operands are
converted once, at the end: conversion commutes with the wrapping operations. -/
def toWord (w : ℕ) (z : ℤ) : ℕ := (z % 2 ^ w).toNat

theorem toWord_of_lt {w n : ℕ} (h : n < 2 ^ w) : toWord w n = n := by
  unfold toWord
  exact_mod_cast Nat.mod_eq_of_lt h

/-- Conversion to `size_t`. -/
abbrev toSize : ℤ → ℕ := toWord 64

/-- Conversion of a `size_t` to `ssize_t`. -/
def toSsize (n : ℕ) : ℤ := if n < 2 ^ 63 then n else (n : ℤ) - 2 ^ 64

theorem toSize_of_lt {n : ℕ} (h : n < 2 ^ 64) : toSize n = n := toWord_of_lt h

theorem toSsize_of_lt {n : ℕ} (h : n < 2 ^ 63) : toSsize n = n := by
  simp only [toSsize, h, ↓reduceIte]

/-- The outcome of a `malloc`: `NULL`, or memory with some contents. -/
abbrev Malloc := Option (ℕ → UInt8)

/-- A block of `n` bytes. -/
def block (n : ℕ) (garbage : ℕ → UInt8) : Bytes := (List.range n).map garbage

@[simp] theorem length_block (n : ℕ) (garbage : ℕ → UInt8) : (block n garbage).length = n := by
  simp [block]

/-- Reading `n` bytes at index `i` of a block. -/
def loadBytes (data : Option Bytes) (i n : ℕ) : Except Fault Bytes :=
  match data with
  | none => .error .outOfRange
  | some b => if i + n ≤ b.length then .ok (slice b i n) else .error .outOfRange

def storeBytes (data : Option Bytes) (i : ℕ) (bytes : Bytes) : Except Fault (Option Bytes) :=
  match data with
  | none => .error .outOfRange
  | some b =>
    if i + bytes.length ≤ b.length then .ok (some (overwrite b i bytes)) else .error .outOfRange

/-- The natural number `n` rounded to binary64: 53 significant bits, ties to even. -/
def roundToDouble (n : ℕ) : ℕ :=
  let shift := n.log2 - 52
  let q := n / 2 ^ shift
  let r := n % 2 ^ shift
  (if 2 * r < 2 ^ shift then q else if 2 ^ shift < 2 * r then q + 1 else q + q % 2) * 2 ^ shift

/-- `(size_t)(n * 0.4)`. The constant `0.4` is the double `3602879701896397 / 2 ^ 53`; both
the operand and the product are rounded. -/
def truncMul04 (n : ℕ) : ℕ := roundToDouble (roundToDouble n * 3602879701896397) / 2 ^ 53

example : [1, 2, 3, 5, 64000].map truncMul04 = [0, 0, 1, 2, 25600] := by decide +kernel

end SysExploration
