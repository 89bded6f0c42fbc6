import Mathlib.Data.List.TakeWhile
import SysExploration.Sds.Operations

/-! `sdssplitargs`, and the grammar of the lines it accepts. -/
namespace SysExploration

/-- The variables `inq` and `insq`. -/
inductive Quote where
  | none | double | single
  deriving DecidableEq, Repr

/-- What a round of the loop over a token does, and by how much it moves `p`. -/
inductive Lexeme where
  | err
  | done (n : ℕ)
  | quote (q : Quote) (n : ℕ)
  | put (c : UInt8) (n : ℕ)
  deriving DecidableEq, Repr

namespace Sds

/-- In the C locale. -/
def isspace (c : UInt8) : Bool := c = 32 ∨ (9 ≤ c ∧ c ≤ 13)

def isHexDigit (c : UInt8) : Bool :=
  (48 ≤ c ∧ c ≤ 57) ∨ (97 ≤ c ∧ c ≤ 102) ∨ (65 ≤ c ∧ c ≤ 70)

def hexDigitToInt (c : UInt8) : ℕ :=
  if 48 ≤ c ∧ c ≤ 57 then c.toNat - 48
  else if 97 ≤ c ∧ c ≤ 102 then c.toNat - 97 + 10
  else if 65 ≤ c ∧ c ≤ 70 then c.toNat - 65 + 10
  else 0

/-- The byte that `\\c` stands for in double quotes. -/
def unescape (c : UInt8) : UInt8 :=
  if c = 110 then 10
  else if c = 114 then 13
  else if c = 116 then 9
  else if c = 98 then 8
  else if c = 97 then 7
  else c

/-- The byte that `\xab` stands for. -/
def hexByte (a b : UInt8) : UInt8 := .ofNat (hexDigitToInt a * 16 + hexDigitToInt b)

/-- `p[i]`, where `p` points into an object that ends with these bytes. -/
def charAt (p : Bytes) (i : ℕ) : Except SdsFault UInt8 :=
  match p[i]? with
  | none => .error .outOfRange
  | some c => .ok c

def charIs (p : Bytes) (i : ℕ) (f : UInt8 → Bool) : Except SdsFault Bool := do
  let c ← charAt p i
  .ok (f c)

/-- A closing quote must be followed by a space or nothing at all. -/
def closing (p : Bytes) : Except SdsFault Lexeme := do
  if ← charIs p 1 fun c => c ≠ 0 ∧ !isspace c then .ok .err else .ok (.done 1)

/-- A round of the loop over a token. `p` is read as far as the conditions ask for it, and the step
to the next byte reads no further. -/
def lexeme (q : Quote) (p : Bytes) : Except SdsFault Lexeme := do
  let c ← charAt p 0
  match q with
  | .double =>
    if ← charIs p 0 (· = 92) <&&> charIs p 1 (· = 120) <&&> charIs p 2 isHexDigit <&&>
        charIs p 3 isHexDigit then do
      let a ← charAt p 2
      let b ← charAt p 3
      .ok (.put (hexByte a b) 4)
    else if ← charIs p 0 (· = 92) <&&> charIs p 1 (· ≠ 0) then do
      let d ← charAt p 1
      .ok (.put (unescape d) 2)
    else if c = 34 then closing p
    else if c = 0 then .ok .err
    else .ok (.put c 1)
  | .single =>
    if ← charIs p 0 (· = 92) <&&> charIs p 1 (· = 39) then .ok (.put 39 2)
    else if c = 39 then closing p
    else if c = 0 then .ok .err
    else .ok (.put c 1)
  | .none =>
    if c = 32 ∨ c = 10 ∨ c = 13 ∨ c = 9 then .ok (.done 1)
    else if c = 0 then .ok (.done 0)
    else if c = 34 then .ok (.quote .double 1)
    else if c = 39 then .ok (.quote .single 1)
    else .ok (.put c 1)

/-- The loop over a token: the token, what is left of the object and the number of the next call
of the allocator, or `none` for `goto err`. -/
def tokenLoop (mem : ℕ → Malloc) : (fuel : ℕ) → Quote → Bytes → Option Sds → ℕ →
    Except SdsFault (Option (Option Sds × Bytes × ℕ))
  | 0, _, _, _, _ => .error .endless
  | fuel + 1, q, p, current, k => do
    match ← lexeme q p with
    | .err => .ok none
    | .done n => .ok (some (current, p.drop n, k))
    | .quote q n => tokenLoop mem fuel q (p.drop n) current k
    | .put c n => do
      let s ← deref current
      let current ← s.sdscatlen [c] 1 (mem k)
      tokenLoop mem fuel q (p.drop n) current (k + 1)

/-- `while(*p && isspace(*p)) p++;` -/
def skipBlanks : Bytes → Except SdsFault Bytes
  | [] => .error .outOfRange
  | c :: p => if c ≠ 0 ∧ isspace c then skipBlanks p else .ok (c :: p)

/-- The loop over the line: `*argc`, an `int`, and the vector. What `s_realloc` returns is used as
it is. -/
def argsLoop (mem : ℕ → Malloc) : (fuel : ℕ) → Bytes → List (Option Sds) → ℤ → ℕ →
    Except SdsFault (ℤ × Option (List (Option Sds)))
  | 0, _, _, _, _ => .error .endless
  | fuel + 1, p, vector, argc, k => do
    let p ← skipBlanks p
    if ← charIs p 0 (· ≠ 0) then do
      let current ← sdsempty (mem k)
      match ← tokenLoop mem (p.length + 1) .none p current (k + 1) with
      | none => .ok (0, none)
      | some (current, p, k) =>
        if 2 ^ 31 ≤ argc + 1 then .error .overflow
        else
          match mem k with
          | none => .error .nullString
          | some _ => argsLoop mem fuel p (vector ++ [current]) (argc + 1) (k + 1)
    -- even on empty input string return something not NULL
    else if vector = [] then .ok (argc, (mem k).map fun _ => [])
    else .ok (argc, some vector)

/-- What it leaves in `*argc`, and the vector that is returned. -/
def sdssplitargs (line : Bytes) (mem : ℕ → Malloc) :
    Except SdsFault (ℤ × Option (List (Option Sds))) :=
  argsLoop mem (line.length + 1) line [] 0 0

end Sds

/-- The bytes that end an argument outside quotes; not all that `isspace` counts as blank. -/
def separators : List UInt8 := [32, 10, 13, 9]

/-- A closing quote stands at the end of the line or in front of a blank. -/
def EndsArg (rest : Bytes) : Prop := ∀ c ∈ rest.head?, Sds.isspace c

/-- Two hexadecimal digits. -/
def HexAhead (p : Bytes) : Prop :=
  ∃ a b t, p = a :: b :: t ∧ Sds.isHexDigit a ∧ Sds.isHexDigit b

/-- An argument, or what is left of it, at the front of a text: its bytes, and the text behind. -/
inductive Token : Quote → Bytes → Bytes → Bytes → Prop
  | stop {p : Bytes} : (∀ c ∈ p.head?, c ∈ separators) → Token .none p [] (p.drop 1)
  | double {p v rest : Bytes} : Token .double p v rest → Token .none (34 :: p) v rest
  | single {p v rest : Bytes} : Token .single p v rest → Token .none (39 :: p) v rest
  | plain {c : UInt8} {p v rest : Bytes} : c ∉ separators → c ≠ 34 → c ≠ 39 →
      Token .none p v rest → Token .none (c :: p) (c :: v) rest
  | closeDouble {rest : Bytes} : EndsArg rest → Token .double (34 :: rest) [] rest
  | hex {a b : UInt8} {p v rest : Bytes} : Sds.isHexDigit a → Sds.isHexDigit b →
      Token .double p v rest → Token .double (92 :: 120 :: a :: b :: p) (Sds.hexByte a b :: v) rest
  | escape {c : UInt8} {p v rest : Bytes} : ¬ (c = 120 ∧ HexAhead p) → Token .double p v rest →
      Token .double (92 :: c :: p) (Sds.unescape c :: v) rest
  | quoted {c : UInt8} {p v rest : Bytes} : c ≠ 34 → c ≠ 92 → Token .double p v rest →
      Token .double (c :: p) (c :: v) rest
  | closeSingle {rest : Bytes} : EndsArg rest → Token .single (39 :: rest) [] rest
  | apostrophe {p v rest : Bytes} : Token .single p v rest →
      Token .single (92 :: 39 :: p) (39 :: v) rest
  | literal {c : UInt8} {p v rest : Bytes} : c ≠ 39 → ¬ (c = 92 ∧ p.head? = some 39) →
      Token .single p v rest → Token .single (c :: p) (c :: v) rest

/-- A line and its arguments. -/
inductive Args : Bytes → List Bytes → Prop
  | done {blanks : Bytes} : (∀ c ∈ blanks, Sds.isspace c) → Args blanks []
  | arg {blanks p v rest : Bytes} {args : List Bytes} : (∀ c ∈ blanks, Sds.isspace c) →
      (∃ c ∈ p.head?, ¬ Sds.isspace c) → Token .none p v rest → Args rest args →
      Args (blanks ++ p) (v :: args)

namespace Sds

variable {p v rest tail : Bytes} {c : UInt8}

@[simp] theorem charIs_zero (c : UInt8) (p : Bytes) (f : UInt8 → Bool) :
    charIs (c :: p) 0 f = .ok (f c) := rfl

@[simp] theorem charIs_succ (c : UInt8) (p : Bytes) (i : ℕ) (f : UInt8 → Bool) :
    charIs (c :: p) (i + 1) f = charIs p i f := rfl

/-- The second condition of `&&` is looked at only if the first one holds. -/
@[simp] theorem ok_andM (b : Bool) (out : Except SdsFault Bool) :
    ((.ok b : Except SdsFault Bool) <&&> out) = if b then out else .ok false := by
  cases b <;> rfl

/-- What a round says about the argument at the front of the text. -/
def Reads (q : Quote) (p : Bytes) : Except SdsFault Lexeme → Prop
  | .error _ => False
  | .ok .err => ∀ v rest, ¬ Token q p v rest
  | .ok (.done n) => n ≤ p.length ∧ ∀ v rest, Token q p v rest ↔ v = [] ∧ rest = p.drop n
  | .ok (.quote q' n) =>
    0 < n ∧ n ≤ p.length ∧ ∀ v rest, Token q p v rest ↔ Token q' (p.drop n) v rest
  | .ok (.put c n) => 0 < n ∧ n ≤ p.length ∧
    ∀ v rest, Token q p v rest ↔ ∃ v', v = c :: v' ∧ Token q (p.drop n) v' rest

theorem reads_none (h0 : 0 ∉ p) : Reads .none p (lexeme .none (p ++ 0 :: tail)) := by
  cases p with
  | nil =>
    have hlex : lexeme .none ([] ++ 0 :: tail) = .ok (.done 0) := rfl
    rw [hlex]
    refine ⟨le_refl _, ?_⟩
    intro v rest
    constructor
    · intro h
      cases h
      exact ⟨rfl, rfl⟩
    · rintro ⟨rfl, rfl⟩
      exact .stop (p := []) (by simp)
  | cons c p =>
    have hc : c ≠ 0 := by
      rintro rfl
      exact h0 List.mem_cons_self
    have hmem : c ∈ separators ↔ c = 32 ∨ c = 10 ∨ c = 13 ∨ c = 9 := by simp [separators]
    have hlex : lexeme .none (c :: p ++ 0 :: tail) =
        if c = 32 ∨ c = 10 ∨ c = 13 ∨ c = 9 then .ok (.done 1)
        else if c = 0 then .ok (.done 0)
        else if c = 34 then .ok (.quote .double 1)
        else if c = 39 then .ok (.quote .single 1)
        else .ok (.put c 1) := rfl
    rw [hlex]
    by_cases hsep : c = 32 ∨ c = 10 ∨ c = 13 ∨ c = 9
    · rw [if_pos hsep]
      refine ⟨by simp, ?_⟩
      intro v rest
      constructor
      · intro h
        cases h with
        | stop _ => exact ⟨rfl, rfl⟩
        | double _ => simp at hsep
        | single _ => simp at hsep
        | plain hplain _ _ _ => exact absurd (hmem.mpr hsep) hplain
      · rintro ⟨rfl, rfl⟩
        exact .stop (by simpa using hmem.mpr hsep)
    rw [if_neg hsep, if_neg hc]
    by_cases hdouble : c = 34
    · subst hdouble
      rw [if_pos rfl]
      refine ⟨Nat.one_pos, by simp, ?_⟩
      intro v rest
      constructor
      · intro h
        cases h with
        | stop hstop => simp [separators] at hstop
        | double h => exact h
        | plain _ hne _ _ => exact absurd rfl hne
      · exact .double
    by_cases hsingle : c = 39
    · subst hsingle
      rw [if_neg hdouble, if_pos rfl]
      refine ⟨Nat.one_pos, by simp, ?_⟩
      intro v rest
      constructor
      · intro h
        cases h with
        | stop hstop => simp [separators] at hstop
        | single h => exact h
        | plain _ _ hne _ => exact absurd rfl hne
      · exact .single
    rw [if_neg hdouble, if_neg hsingle]
    refine ⟨Nat.one_pos, by simp, ?_⟩
    intro v rest
    constructor
    · intro h
      cases h with
      | stop hstop => exact absurd (hmem.mp (hstop c (by simp))) hsep
      | double _ => exact absurd rfl hdouble
      | single _ => exact absurd rfl hsingle
      | plain _ _ _ h => exact ⟨_, rfl, h⟩
    · rintro ⟨v', rfl, h⟩
      exact .plain (fun hin => hsep (hmem.mp hin)) hdouble hsingle h

/-- What the loop finds out about the byte behind a closing quote. -/
theorem closing_cases (c : UInt8) (tail : Bytes) (h0 : 0 ∉ p) :
    EndsArg p ∧ closing (c :: (p ++ 0 :: tail)) = .ok (.done 1) ∨
      ¬ EndsArg p ∧ closing (c :: (p ++ 0 :: tail)) = .ok .err := by
  cases p with
  | nil => exact .inl ⟨by simp [EndsArg], rfl⟩
  | cons d p =>
    have hd : d ≠ 0 := by
      rintro rfl
      exact h0 List.mem_cons_self
    have hends : EndsArg (d :: p) ↔ isspace d := by simp [EndsArg]
    have hclosing : closing (c :: (d :: p ++ 0 :: tail)) =
        if decide (d ≠ 0 ∧ !isspace d) then .ok .err else .ok (.done 1) := rfl
    rw [hends, hclosing]
    cases isspace d with
    | true => exact .inl ⟨rfl, by simp⟩
    | false => exact .inr ⟨Bool.false_ne_true, by simp [hd]⟩

/-- The zero behind the text is no digit, so that no byte behind it is read. -/
theorem hexAhead_cases :
    HexAhead p ∧ (charIs (p ++ 0 :: tail) 0 isHexDigit <&&>
        charIs (p ++ 0 :: tail) 1 isHexDigit) = .ok true ∨
      ¬ HexAhead p ∧ (charIs (p ++ 0 :: tail) 0 isHexDigit <&&>
        charIs (p ++ 0 :: tail) 1 isHexDigit) = .ok false := by
  have hzero : isHexDigit 0 = false := by decide
  match p with
  | [] =>
    refine .inr ⟨?_, by simp [hzero]⟩
    rintro ⟨a, b, t, heq, -⟩
    cases heq
  | [a] =>
    refine .inr ⟨?_, by simp [hzero]⟩
    rintro ⟨a, b, t, heq, -⟩
    cases heq
  | a :: b :: t =>
    by_cases hhex : isHexDigit a ∧ isHexDigit b
    · exact .inl ⟨⟨a, b, t, rfl, hhex⟩, by simp [hhex]⟩
    · refine .inr ⟨?_, by simpa using hhex⟩
      rintro ⟨a', b', t', heq, hboth⟩
      cases heq
      exact hhex hboth

theorem reads_backslash (h0 : 0 ∉ p) :
    Reads .double (92 :: p) (lexeme .double (92 :: p ++ 0 :: tail)) := by
  cases p with
  | nil =>
    -- a backslash at the end is taken as it is, and then the quotes are not closed
    have hlex : lexeme .double ([92] ++ 0 :: tail) = .ok (.put 92 1) := rfl
    rw [hlex]
    refine ⟨Nat.one_pos, le_refl _, ?_⟩
    intro v rest
    constructor
    · intro h
      cases h with
      | quoted _ hne _ => exact absurd rfl hne
    · rintro ⟨v', rfl, h⟩
      cases h
  | cons d p =>
    have hd : d ≠ 0 := by
      rintro rfl
      exact h0 List.mem_cons_self
    by_cases hhex : d = 120 ∧ HexAhead p
    · obtain ⟨rfl, a, b, t, rfl, ha, hb⟩ := hhex
      have hlex : lexeme .double (92 :: 120 :: a :: b :: t ++ 0 :: tail) =
          .ok (.put (hexByte a b) 4) := by
        simp [lexeme, charAt, bind, Except.bind, ha, hb]
      rw [hlex]
      refine ⟨by decide, by simp, ?_⟩
      intro v rest
      constructor
      · intro h
        cases h with
        | hex _ _ h => exact ⟨_, rfl, h⟩
        | escape hnot _ => exact absurd ⟨rfl, a, b, t, rfl, ha, hb⟩ hnot
        | quoted _ hne _ => exact absurd rfl hne
      · rintro ⟨v', rfl, h⟩
        exact .hex ha hb h
    · have hread : (if d = 120 then charIs (p ++ 0 :: tail) 0 isHexDigit <&&>
          charIs (p ++ 0 :: tail) 1 isHexDigit else .ok false) = .ok false := by
        split_ifs with hx
        · exact (hexAhead_cases.resolve_left fun h => hhex ⟨hx, h.1⟩).2
        · rfl
      have hlex : lexeme .double (92 :: d :: p ++ 0 :: tail) = .ok (.put (unescape d) 2) := by
        simp [lexeme, charAt, bind, Except.bind, hread, hd]
      rw [hlex]
      refine ⟨by decide, by simp, ?_⟩
      intro v rest
      constructor
      · intro h
        cases h with
        | hex ha hb h => exact absurd ⟨rfl, _, _, _, rfl, ha, hb⟩ hhex
        | escape _ h => exact ⟨_, rfl, h⟩
        | quoted _ hne _ => exact absurd rfl hne
      · rintro ⟨v', rfl, h⟩
        exact .escape hhex h

theorem reads_closeDouble (h0 : 0 ∉ p) :
    Reads .double (34 :: p) (lexeme .double (34 :: p ++ 0 :: tail)) := by
  have hlex : lexeme .double (34 :: p ++ 0 :: tail) = closing (34 :: (p ++ 0 :: tail)) := rfl
  rcases closing_cases 34 tail h0 with ⟨hend, hdone⟩ | ⟨hend, herr⟩
  · rw [hlex, hdone]
    refine ⟨by simp, ?_⟩
    intro v rest
    constructor
    · intro h
      cases h with
      | closeDouble _ => exact ⟨rfl, rfl⟩
      | quoted hne _ _ => exact absurd rfl hne
    · rintro ⟨rfl, rfl⟩
      exact .closeDouble hend
  · rw [hlex, herr]
    intro v rest h
    cases h with
    | closeDouble h => exact hend h
    | quoted hne _ _ => exact absurd rfl hne

theorem reads_double (h0 : 0 ∉ p) : Reads .double p (lexeme .double (p ++ 0 :: tail)) := by
  cases p with
  | nil =>
    have hlex : lexeme .double ([] ++ 0 :: tail) = .ok .err := rfl
    rw [hlex]
    intro v rest h
    cases h
  | cons c p =>
    rw [List.mem_cons, not_or] at h0
    obtain ⟨hc, h0⟩ := h0
    by_cases hback : c = 92
    · rw [hback]
      exact reads_backslash h0
    by_cases hclose : c = 34
    · rw [hclose]
      exact reads_closeDouble h0
    have hlex : lexeme .double (c :: p ++ 0 :: tail) = .ok (.put c 1) := by
      simp [lexeme, charAt, bind, Except.bind, hback, hclose, Ne.symm hc]
    rw [hlex]
    refine ⟨Nat.one_pos, by simp, ?_⟩
    intro v rest
    constructor
    · intro h
      cases h with
      | closeDouble _ => exact absurd rfl hclose
      | hex _ _ _ => exact absurd rfl hback
      | escape _ _ => exact absurd rfl hback
      | quoted _ _ h => exact ⟨_, rfl, h⟩
    · rintro ⟨v', rfl, h⟩
      exact .quoted hclose hback h

theorem reads_closeSingle (h0 : 0 ∉ p) :
    Reads .single (39 :: p) (lexeme .single (39 :: p ++ 0 :: tail)) := by
  have hlex : lexeme .single (39 :: p ++ 0 :: tail) = closing (39 :: (p ++ 0 :: tail)) := rfl
  rcases closing_cases 39 tail h0 with ⟨hend, hdone⟩ | ⟨hend, herr⟩
  · rw [hlex, hdone]
    refine ⟨by simp, ?_⟩
    intro v rest
    constructor
    · intro h
      cases h with
      | closeSingle _ => exact ⟨rfl, rfl⟩
      | literal hne _ _ => exact absurd rfl hne
    · rintro ⟨rfl, rfl⟩
      exact .closeSingle hend
  · rw [hlex, herr]
    intro v rest h
    cases h with
    | closeSingle h => exact hend h
    | literal hne _ _ => exact absurd rfl hne

theorem reads_single (h0 : 0 ∉ p) : Reads .single p (lexeme .single (p ++ 0 :: tail)) := by
  cases p with
  | nil =>
    have hlex : lexeme .single ([] ++ 0 :: tail) = .ok .err := rfl
    rw [hlex]
    intro v rest h
    cases h
  | cons c p =>
    rw [List.mem_cons, not_or] at h0
    obtain ⟨hc, h0⟩ := h0
    by_cases hescape : c = 92 ∧ p.head? = some 39
    · obtain ⟨rfl, hhead⟩ := hescape
      obtain ⟨t, rfl⟩ : ∃ t, p = 39 :: t := by
        cases p with
        | nil => cases hhead
        | cons d t => exact ⟨t, by rw [Option.some.inj hhead]⟩
      have hlex : lexeme .single (92 :: 39 :: t ++ 0 :: tail) = .ok (.put 39 2) := rfl
      rw [hlex]
      refine ⟨by decide, by simp, ?_⟩
      intro v rest
      constructor
      · intro h
        cases h with
        | apostrophe h => exact ⟨_, rfl, h⟩
        | literal _ hnot _ => exact absurd ⟨rfl, rfl⟩ hnot
      · rintro ⟨v', rfl, h⟩
        exact .apostrophe h
    by_cases hclose : c = 39
    · rw [hclose]
      exact reads_closeSingle h0
    have hread : (if c = 92 then charIs (p ++ 0 :: tail) 0 (· = 39) else .ok false) =
        .ok false := by
      split_ifs with hback
      · cases p with
        | nil => rfl
        | cons d t =>
          have hd : d ≠ 39 := fun hd => hescape ⟨hback, congrArg some hd⟩
          simp [hd]
      · rfl
    have hlex : lexeme .single (c :: p ++ 0 :: tail) = .ok (.put c 1) := by
      simp [lexeme, charAt, bind, Except.bind, hread, hclose, Ne.symm hc]
    rw [hlex]
    refine ⟨Nat.one_pos, by simp, ?_⟩
    intro v rest
    constructor
    · intro h
      cases h with
      | closeSingle _ => exact absurd rfl hclose
      | apostrophe _ => exact absurd ⟨rfl, rfl⟩ hescape
      | literal _ _ h => exact ⟨_, rfl, h⟩
    · rintro ⟨v', rfl, h⟩
      exact .literal hclose hescape h

/-- Every round of the loop agrees with the grammar, and reads nothing behind the zero. -/
theorem reads_lexeme (q : Quote) (tail : Bytes) (h0 : 0 ∉ p) :
    Reads q p (lexeme q (p ++ 0 :: tail)) := by
  cases q with
  | none => exact reads_none h0
  | double => exact reads_double h0
  | single => exact reads_single h0

theorem token_suffix {q : Quote} (h : Token q p v rest) :
    rest <:+ p ∧ rest.length ≤ p.length - 1 := by
  induction h with
  | stop _ => exact ⟨List.drop_suffix 1 _, by rw [List.length_drop]⟩
  | closeDouble _ => exact ⟨List.suffix_cons _ _, le_refl _⟩
  | closeSingle _ => exact ⟨List.suffix_cons _ _, le_refl _⟩
  | hex _ _ _ ih =>
    refine ⟨ih.1.trans ⟨[92, 120, _, _], rfl⟩, ?_⟩
    simp only [List.length_cons]
    omega
  | escape _ _ ih =>
    refine ⟨ih.1.trans ⟨[92, _], rfl⟩, ?_⟩
    simp only [List.length_cons]
    omega
  | apostrophe _ ih =>
    refine ⟨ih.1.trans ⟨[92, 39], rfl⟩, ?_⟩
    simp only [List.length_cons]
    omega
  | double _ ih | single _ ih | plain _ _ _ _ ih | quoted _ _ _ ih | literal _ _ _ ih =>
    refine ⟨ih.1.trans (List.suffix_cons _ _), ?_⟩
    simp only [List.length_cons]
    omega

variable {mem : ℕ → Malloc} {s : Sds} {q : Quote} {fuel k : ℕ}

/-- With an allocator that never fails the loop appends the argument to its string and ends
behind it, or finds that there is none. -/
theorem tokenLoop_eq (tail : Bytes) (h : s.Valid) (h0 : 0 ∉ p) (hmem : ∀ k, mem k ≠ none)
    (hfuel : p.length < fuel) (hsmall : s.len + p.length + sdsMaxPrealloc + 18 < 2 ^ 64) :
    (∃ v rest s' k', (∀ v' rest', Token q p v' rest' ↔ v' = v ∧ rest' = rest) ∧
      tokenLoop mem fuel q (p ++ 0 :: tail) (some s) k =
        .ok (some (some s', rest ++ 0 :: tail, k')) ∧ s'.Valid ∧
      s'.contents = s.contents ++ v) ∨
    tokenLoop mem fuel q (p ++ 0 :: tail) (some s) k = .ok none ∧
      ∀ v rest, ¬ Token q p v rest := by
  induction fuel generalizing q p s k with
  | zero => omega
  | succ fuel ih =>
    have hreads := reads_lexeme q tail h0
    have hrest (n : ℕ) : 0 ∉ p.drop n := fun hin => h0 (List.mem_of_mem_drop hin)
    have hdrop {n : ℕ} (hle : n ≤ p.length) :
        (p ++ 0 :: tail).drop n = p.drop n ++ 0 :: tail :=
      List.drop_append_of_le_length hle
    rw [tokenLoop]
    cases hlex : lexeme q (p ++ 0 :: tail) with
    | error fault =>
      rw [hlex] at hreads
      exact hreads.elim
    | ok lex =>
      rw [hlex] at hreads
      cases lex with
      | err => exact .inr ⟨rfl, hreads⟩
      | done n =>
        obtain ⟨hle, htoken⟩ := hreads
        refine .inl ⟨[], p.drop n, s, k, htoken, ?_, h, (List.append_nil _).symm⟩
        rw [← hdrop hle]
        rfl
      | quote q' n =>
        obtain ⟨hpos, hle, htoken⟩ := hreads
        have hlength : (p.drop n).length = p.length - n := List.length_drop
        simp only [htoken, bind, Except.bind, hdrop hle]
        exact ih h (hrest n) (by omega) (by omega)
      | put c n =>
        obtain ⟨hpos, hle, htoken⟩ := hreads
        have hlength : (p.drop n).length = p.length - n := List.length_drop
        have hone : 1 ≤ [c].length := le_refl _
        have hout := h.catlen hone (by omega) (mem k)
        change (∃ v rest s' k', _ ∧ (s.sdscatlen [c] 1 (mem k)).bind _ = _ ∧ _) ∨
          (s.sdscatlen [c] 1 (mem k)).bind _ = _ ∧ _
        generalize s.sdscatlen [c] 1 (mem k) = out at hout ⊢
        rw [hdrop hle]
        cases hout with
        | refused hbig => omega
        | null hnull => exact absurd hnull (hmem k)
        | @done u hu huc =>
          have hulen : u.len = s.len + 1 := by
            rw [← hu.length_contents, huc, List.length_append, h.length_contents]
            rfl
          rcases ih (q := q) (k := k + 1) hu (hrest n) (by omega) (by omega) with
            ⟨v, rest, s', k', hv, hloop, hs', hc⟩ | ⟨hloop, hnot⟩
          · refine .inl ⟨c :: v, rest, s', k', ?_, hloop, hs', ?_⟩
            · intro v' rest'
              rw [htoken]
              constructor
              · rintro ⟨w, rfl, hw⟩
                obtain ⟨rfl, rfl⟩ := (hv w rest').mp hw
                exact ⟨rfl, rfl⟩
              · rintro ⟨rfl, rfl⟩
                exact ⟨v, rfl, (hv v rest').mpr ⟨rfl, rfl⟩⟩
            · rw [hc, huc, List.append_assoc]
              rfl
          · refine .inr ⟨hloop, ?_⟩
            intro v' rest' htok
            obtain ⟨w, -, hw⟩ := (htoken v' rest').mp htok
            exact hnot w rest' hw

/-- A line is read from its first byte that is not blank. -/
theorem args_iff {args : List Bytes} : Args p args ↔
    p.dropWhile isspace = [] ∧ args = [] ∨ p.dropWhile isspace ≠ [] ∧ ∃ v rest args',
      args = v :: args' ∧ Token .none (p.dropWhile isspace) v rest ∧ Args rest args' := by
  constructor
  · intro h
    cases h with
    | done hblank =>
      refine .inl ⟨?_, rfl⟩
      rw [List.dropWhile_eq_nil_iff]
      exact hblank
    | @arg blanks t v rest args hblank hhead htoken hargs =>
      obtain ⟨c, hc, hnot⟩ := hhead
      obtain ⟨u, rfl⟩ : ∃ u, t = c :: u := by
        cases t with
        | nil => cases hc
        | cons d u => exact ⟨u, by rw [Option.mem_some_iff.mp hc]⟩
      have hdrop : (blanks ++ c :: u).dropWhile isspace = c :: u := by
        rw [List.dropWhile_append_of_pos hblank, List.dropWhile_cons_of_neg hnot]
      rw [hdrop]
      exact .inr ⟨List.cons_ne_nil _ _, v, rest, args, rfl, htoken, hargs⟩
  · rintro (⟨hnil, rfl⟩ | ⟨hne, v, rest, args', rfl, htoken, hargs⟩)
    · exact .done (List.dropWhile_eq_nil_iff.mp hnil)
    · have hsplit := List.takeWhile_append_dropWhile (p := isspace) (l := p)
      rw [← hsplit]
      refine .arg ?_ ?_ htoken hargs
      · exact fun c hc => List.mem_takeWhile_imp hc
      · refine ⟨(p.dropWhile isspace).head hne, List.head?_eq_some_head hne, ?_⟩
        have hfirst := List.head_dropWhile_not isspace hne
        simpa using hfirst

/-- The first argument can be read in one way only, so it is the first one of every reading. -/
theorem args_cons_iff (hne : p.dropWhile isspace ≠ [])
    (hv : ∀ v' rest', Token .none (p.dropWhile isspace) v' rest' ↔ v' = v ∧ rest' = rest)
    {args : List Bytes} : Args p args ↔ ∃ args', args = v :: args' ∧ Args rest args' := by
  rw [args_iff]
  constructor
  · rintro (⟨hnil, -⟩ | ⟨-, v', rest', args', rfl, htoken, hargs⟩)
    · exact absurd hnil hne
    · obtain ⟨rfl, rfl⟩ := (hv v' rest').mp htoken
      exact ⟨args', rfl, hargs⟩
  · rintro ⟨args', rfl, hargs⟩
    exact .inr ⟨hne, v, rest, args', rfl, (hv v rest).mpr ⟨rfl, rfl⟩, hargs⟩

theorem skipBlanks_eq (h0 : 0 ∉ p) (tail : Bytes) :
    skipBlanks (p ++ 0 :: tail) = .ok (p.dropWhile isspace ++ 0 :: tail) := by
  induction p with
  | nil => rfl
  | cons c p ih =>
    rw [List.mem_cons, not_or] at h0
    by_cases hblank : isspace c
    · rw [List.dropWhile_cons_of_pos hblank, List.cons_append, skipBlanks,
        if_pos ⟨Ne.symm h0.1, hblank⟩]
      exact ih h0.2
    · rw [List.dropWhile_cons_of_neg hblank, List.cons_append, skipBlanks,
        if_neg fun h => hblank h.2]

/-- How the loop ends, with the arguments of the vector and then those of the text `p`. -/
inductive ArgsEnd (p : Bytes) (vector : List (Option Sds)) :
    Except SdsFault (ℤ × Option (List (Option Sds))) → Prop
  | accepted {tokens : List Sds} : (∀ t ∈ tokens, t.Valid) →
      vector.length + tokens.length < 2 ^ 31 →
      (∀ args, Args p args ↔ args = tokens.map contents) →
      ArgsEnd p vector (.ok ((vector.length + tokens.length : ℕ), some (vector ++ tokens.map some)))
  | rejected : (∀ args, ¬ Args p args) → ArgsEnd p vector (.ok (0, none))
  | overflow : 2 ^ 31 ≤ vector.length + p.length →
      (∀ args, Args p args → 2 ^ 31 ≤ vector.length + args.length) →
      ArgsEnd p vector (.error .overflow)

/-- An argument in front of a text. -/
theorem ArgsEnd.cons {vector : List (Option Sds)} {t : Sds}
    {out : Except SdsFault (ℤ × Option (List (Option Sds)))}
    (h : ArgsEnd rest (vector ++ [some t]) out) (ht : t.Valid) (hlen : rest.length < p.length)
    (hargs : ∀ args, Args p args ↔ ∃ args', args = t.contents :: args' ∧ Args rest args') :
    ArgsEnd p vector out := by
  have hlength : (vector ++ [some t]).length = vector.length + 1 := List.length_append
  cases h with
  | @accepted tokens hvalid hcount hreads =>
    have hp (args : List Bytes) : Args p args ↔ args = (t :: tokens).map contents := by
      rw [hargs, List.map_cons]
      constructor
      · rintro ⟨args', rfl, h⟩
        rw [(hreads args').mp h]
      · rintro rfl
        exact ⟨_, rfl, (hreads _).mpr rfl⟩
    have hsum : (vector ++ [some t]).length + tokens.length =
        vector.length + (t :: tokens).length := by
      rw [hlength, List.length_cons]
      omega
    rw [hsum] at hcount ⊢
    rw [List.append_assoc]
    exact .accepted (List.forall_mem_cons.mpr ⟨ht, hvalid⟩) hcount hp
  | rejected hnone =>
    refine .rejected fun args h => ?_
    obtain ⟨args', -, h'⟩ := (hargs args).mp h
    exact hnone args' h'
  | overflow hlong hcount =>
    refine .overflow (by omega) fun args h => ?_
    obtain ⟨args', rfl, h'⟩ := (hargs args).mp h
    have hle := hcount args' h'
    rw [List.length_cons]
    omega

theorem argsLoop_end (tail : Bytes) (h0 : 0 ∉ p) (hmem : ∀ k, mem k ≠ none)
    (hfuel : p.length < fuel) (hsmall : p.length + sdsMaxPrealloc + 18 < 2 ^ 64)
    {vector : List (Option Sds)} (hvector : vector.length < 2 ^ 31) :
    ArgsEnd p vector (argsLoop mem fuel (p ++ 0 :: tail) vector vector.length k) := by
  induction fuel generalizing p vector k with
  | zero => omega
  | succ fuel ih =>
    have hsuffix := List.dropWhile_suffix (p := isspace) (l := p)
    have h0' : 0 ∉ p.dropWhile isspace := fun hin => h0 (hsuffix.subset hin)
    have hshort := hsuffix.length_le
    simp only [argsLoop, skipBlanks_eq h0 tail, bind, Except.bind]
    by_cases hnil : p.dropWhile isspace = []
    · have hargs (args : List Bytes) : Args p args ↔ args = ([] : List Sds).map contents := by
        rw [args_iff]
        simp [hnil]
      have hend : ArgsEnd p vector (.ok ((vector.length + ([] : List Sds).length : ℕ),
          some (vector ++ ([] : List Sds).map some))) :=
        .accepted (by simp) hvector hargs
      rw [hnil, List.nil_append, charIs_zero]
      simp only [ne_eq, not_true_eq_false, decide_false, Bool.false_eq_true, if_false]
      obtain ⟨garbage, hg⟩ := Option.ne_none_iff_exists'.mp (hmem k)
      split_ifs with hempty
      · rw [hg, hempty]
        rw [hempty] at hend
        exact hend
      · simpa using hend
    obtain ⟨c, t, ht⟩ := List.exists_cons_of_ne_nil hnil
    have hc : c ≠ 0 := by
      rintro rfl
      exact h0' (ht ▸ List.mem_cons_self)
    have hfirst : charIs (p.dropWhile isspace ++ 0 :: tail) 0 (· ≠ 0) = .ok true := by
      rw [ht, List.cons_append, charIs_zero, decide_eq_true hc]
    obtain ⟨garbage, hg⟩ := Option.ne_none_iff_exists'.mp (hmem k)
    obtain ⟨s, hnew, hvalid, hempty⟩ := sdsempty_eq garbage
    have hlen : s.len = 0 := by rw [← hvalid.length_contents, hempty, List.length_nil]
    simp only [hfirst, if_true, hg, hnew]
    have hfuel' : (p.dropWhile isspace).length <
        (p.dropWhile isspace ++ 0 :: tail).length + 1 := by
      rw [List.length_append]
      omega
    rcases tokenLoop_eq tail (q := .none) (k := k + 1) hvalid h0' hmem hfuel'
      (by omega) with ⟨v, rest, s', k', hv, hloop, hs', hcontents⟩ | ⟨hloop, hnot⟩
    · have htoken : Token .none (p.dropWhile isspace) v rest := (hv v rest).mpr ⟨rfl, rfl⟩
      obtain ⟨hrest, hless⟩ := token_suffix htoken
      have hpos : 0 < (p.dropWhile isspace).length := List.length_pos_iff.mpr hnil
      obtain ⟨garbage', hg'⟩ := Option.ne_none_iff_exists'.mp (hmem k')
      have hvalue : s'.contents = v := by
        rw [hcontents, hempty, List.nil_append]
      have hargs (args : List Bytes) :
          Args p args ↔ ∃ args', args = s'.contents :: args' ∧ Args rest args' := by
        rw [hvalue]
        exact args_cons_iff hnil hv
      simp only [hloop, hg']
      by_cases hfull : 2 ^ 31 ≤ vector.length + 1
      · rw [if_pos (by exact_mod_cast hfull)]
        refine .overflow (by omega) fun args h => ?_
        obtain ⟨args', rfl, -⟩ := (hargs args).mp h
        rw [List.length_cons]
        omega
      · rw [if_neg (by exact_mod_cast hfull)]
        have hroom : (vector ++ [some s']).length < 2 ^ 31 := by
          rw [List.length_append, List.length_singleton]
          omega
        have hend := ih (p := rest) (k := k' + 1) (fun hin => h0' (hrest.subset hin)) (by omega)
          (by omega) hroom
        rw [List.length_append, List.length_singleton, Nat.cast_add, Nat.cast_one] at hend
        exact hend.cons hs' (by omega) hargs
    · simp only [hloop]
      refine .rejected fun args h => ?_
      rcases args_iff.mp h with ⟨hno, -⟩ | ⟨-, v, rest, args', -, htoken, -⟩
      · exact hnil hno
      · exact hnot v rest htoken

/-- As long as no allocation fails, `sdssplitargs` accepts the lines of the grammar and no others,
and a line has one reading: the strings it returns hold the arguments, and `*argc` is their number.
On any other line it returns `NULL`, and `*argc` is 0. It reads nothing behind the zero that ends
the line, writes only to its own strings, and ends. The third case is that `*argc` overflows, on a
line of at least `2 ^ 31` bytes that has as many arguments, if it has a reading. -/
theorem splitargs_accepts (h0 : 0 ∉ p) (tail : Bytes) (hmem : ∀ k, mem k ≠ none)
    (hsmall : p.length + sdsMaxPrealloc + 18 < 2 ^ 64) :
    (∃ tokens : List Sds, (∀ t ∈ tokens, t.Valid) ∧ tokens.length < 2 ^ 31 ∧
      sdssplitargs (p ++ 0 :: tail) mem = .ok (tokens.length, some (tokens.map some)) ∧
      ∀ args, Args p args ↔ args = tokens.map contents) ∨
    (sdssplitargs (p ++ 0 :: tail) mem = .ok (0, none) ∧ ∀ args, ¬ Args p args) ∨
    (sdssplitargs (p ++ 0 :: tail) mem = .error .overflow ∧ 2 ^ 31 ≤ p.length ∧
      ∀ args, Args p args → 2 ^ 31 ≤ args.length) := by
  have hfuel : p.length < (p ++ 0 :: tail).length + 1 := by
    rw [List.length_append]
    omega
  have hzero : ([] : List (Option Sds)).length < 2 ^ 31 := by decide
  have hend := argsLoop_end tail (k := 0) h0 hmem hfuel hsmall hzero
  change ArgsEnd p [] (sdssplitargs (p ++ 0 :: tail) mem) at hend
  generalize sdssplitargs (p ++ 0 :: tail) mem = out at hend
  cases hend with
  | @accepted tokens hvalid hcount hreads =>
    rw [List.length_nil, Nat.zero_add] at hcount ⊢
    exact .inl ⟨tokens, hvalid, hcount, rfl, hreads⟩
  | rejected hnone => exact .inr (.inl ⟨rfl, hnone⟩)
  | overflow hlong hcount =>
    rw [List.length_nil, Nat.zero_add] at hlong
    simp only [List.length_nil, Nat.zero_add] at hcount
    exact .inr (.inr ⟨rfl, hlong, hcount⟩)

/-- A word and a quoted one with an escape. -/
def escapedLine : Bytes := [102, 111, 32, 9, 34, 97, 92, 110, 34]

theorem splitargs_accepts_escaped : ∃ tokens : List Sds,
    sdssplitargs (escapedLine ++ [0]) (fun _ => some fun _ => 7) =
        .ok (2, some (tokens.map some)) ∧
      ∀ args, Args escapedLine args ↔ args = [[102, 111], [97, 10]] := by
  have hval : (sdssplitargs (escapedLine ++ [0]) fun _ => some fun _ => 7).map
      (fun out => (out.1, out.2.map (List.map (Option.map contents)))) =
        .ok (2, some [some [102, 111], some [97, 10]]) := by
    decide +kernel
  have hmem (k : ℕ) : (fun _ => some fun _ => 7 : ℕ → Malloc) k ≠ none := by simp
  rcases splitargs_accepts (p := escapedLine) (by decide) [] hmem (by decide) with
    ⟨tokens, -, -, hargs, hreads⟩ | ⟨hnull, -⟩ | ⟨hover, -⟩
  · rw [hargs] at hval
    obtain ⟨hcount, hlist⟩ : (tokens.length : ℤ) = 2 ∧ _ := Prod.mk.inj (Except.ok.inj hval)
    have hmap : (tokens.map contents).map some = [[102, 111], [97, 10]].map some := by
      simpa [Function.comp_def] using hlist
    have htokens := List.map_injective_iff.mpr (fun _ _ => Option.some.inj) hmap
    rw [hcount] at hargs
    exact ⟨tokens, hargs, htokens ▸ hreads⟩
  · rw [hnull] at hval
    cases hval
  · rw [hover] at hval
    cases hval

end Sds
end SysExploration
