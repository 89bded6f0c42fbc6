import SysExploration.Sds.Operations

/-! `sdscatrepr`, which writes bytes as a quoted string. -/
namespace SysExploration.Sds

variable {s s' : Sds} {p t : Bytes} {k : ℕ} {mem : ℕ → Malloc} {out : Except SdsFault (Option Sds)}

/-- In the C locale. -/
def isprint (c : UInt8) : Bool := 32 ≤ c ∧ c ≤ 126

/-- A digit of `%02x`. -/
def hexDigit (d : ℕ) : UInt8 := .ofNat (if d < 10 then 48 + d else 87 + d)

/-- What the body of the loop appends for a byte. -/
def reprByte (c : UInt8) : Bytes :=
  if c = 92 ∨ c = 34 then [92, c]
  else if c = 10 then [92, 110]
  else if c = 13 then [92, 114]
  else if c = 9 then [92, 116]
  else if c = 7 then [92, 97]
  else if c = 8 then [92, 98]
  else if isprint c then [c]
  else [92, 120, hexDigit (c.toNat / 16), hexDigit (c.toNat % 16)]

/-- The loop of `sdscatrepr` and the closing quote. What `sdscatprintf` formats fits the array on
its stack and goes to `sdscatlen` as well; no call looks at what the one before returned. -/
def reprLoop (mem : ℕ → Malloc) : Bytes → (k : ℕ) → Option Sds → Except SdsFault (Option Sds)
  | [], k, s => do
    let s ← deref s
    s.sdscatlen [34] 1 (mem k)
  | c :: p, k, s => do
    let s ← deref s
    let s ← s.sdscatlen (reprByte c) (reprByte c).length (mem k)
    reprLoop mem p (k + 1) s

def sdscatrepr (s : Sds) (p : Bytes) (len : ℕ) (mem : ℕ → Malloc) :
    Except SdsFault (Option Sds) := do
  let s ← s.sdscatlen [34] 1 (mem 0)
  let p ← readBytes p 0 len
  reprLoop mem p 1 s

/-- A string in quotes. -/
def quoted (b : Bytes) : Bytes := 34 :: (b.flatMap reprByte ++ [34])

/-- How a chain of appends ends that is to leave the bytes `b`: as it should, with `NULL`, or by
using the `NULL` that one of the calls returned. -/
inductive Chained (mem : ℕ → Malloc) (b : Bytes) : Except SdsFault (Option Sds) → Prop
  | done {s : Sds} : s.Valid → s.contents = b → Chained mem b (.ok (some s))
  | null : (∃ k, mem k = none) → Chained mem b (.ok none)
  | used : (∃ k, mem k = none) → Chained mem b (.error .nullString)

/-- An append, and the calls after it. -/
theorem Outcome.chain {required : ℕ} {c b : Bytes} (hout : Outcome (mem k) required c out)
    (hsmall : required + sdsMaxPrealloc + 18 < 2 ^ 64)
    {next : Option Sds → Except SdsFault (Option Sds)} (hnull : next none = .error .nullString)
    (hnext : ∀ s : Sds, s.Valid → s.contents = c → Chained mem b (next (some s))) :
    Chained mem b (out.bind next) := by
  cases hout with
  | refused hbig => omega
  | null hmem =>
    change Chained mem b (next none)
    rw [hnull]
    exact .used ⟨k, hmem⟩
  | done hvalid hc => exact hnext _ hvalid hc

/-- The last append. -/
theorem Outcome.chained {required : ℕ} {b : Bytes} (hout : Outcome (mem k) required b out)
    (hsmall : required + sdsMaxPrealloc + 18 < 2 ^ 64) : Chained mem b out := by
  cases hout with
  | refused hbig => omega
  | null hmem => exact .null ⟨k, hmem⟩
  | done hvalid hc => exact .done hvalid hc

theorem reprLoop_null (mem : ℕ → Malloc) (p : Bytes) (k : ℕ) :
    reprLoop mem p k none = .error .nullString := by
  cases p <;> rfl

theorem Valid.reprLoop (h : s.Valid) (mem : ℕ → Malloc)
    (hsmall : s.len + (p.flatMap reprByte).length + 1 + sdsMaxPrealloc + 18 < 2 ^ 64) :
    Chained mem (s.contents ++ p.flatMap reprByte ++ [34]) (reprLoop mem p k (some s)) := by
  induction p generalizing s k with
  | nil =>
    have hone : 1 ≤ ([34] : Bytes).length := le_refl _
    have hout := h.catlen hone (by omega) (mem k)
    rw [List.flatMap_nil, List.append_nil]
    exact hout.chained (by omega)
  | cons c p ih =>
    rw [List.flatMap_cons, List.length_append] at hsmall
    have hout := h.catlen (le_refl (reprByte c).length) (by omega) (mem k)
    rw [List.take_length] at hout
    change Chained mem _ ((s.sdscatlen (reprByte c) (reprByte c).length (mem k)).bind _)
    apply hout.chain (by omega) (reprLoop_null mem p (k + 1))
    intro u hu huc
    have hlen : u.len = s.len + (reprByte c).length := by
      rw [← hu.length_contents, huc, List.length_append, h.length_contents]
    have hrest := ih hu (k := k + 1) (by omega)
    rw [huc] at hrest
    rw [List.flatMap_cons, ← List.append_assoc]
    exact hrest

/-- `sdscatrepr` appends the string in quotes, unless the allocator fails. -/
theorem Valid.catrepr (h : s.Valid) (mem : ℕ → Malloc) {len : ℕ} (hlen : len ≤ p.length)
    (hsmall : s.len + (quoted (p.take len)).length + sdsMaxPrealloc + 18 < 2 ^ 64) :
    Chained mem (s.contents ++ quoted (p.take len)) (s.sdscatrepr p len mem) := by
  rw [quoted, List.length_cons, List.length_append, List.length_singleton] at hsmall
  have hone : 1 ≤ ([34] : Bytes).length := le_refl _
  have hout := h.catlen hone (by omega) (mem 0)
  have hread : readBytes p 0 len = .ok (p.take len) := by
    rw [readBytes_eq (by omega), slice, List.drop_zero]
  change Chained mem _ ((s.sdscatlen [34] 1 (mem 0)).bind _)
  apply hout.chain (by omega)
  · rw [hread]
    exact reprLoop_null mem _ 1
  · intro u hu huc
    rw [hread]
    have hulen : u.len = s.len + 1 := by
      rw [← hu.length_contents, huc, List.length_append, h.length_contents]
      rfl
    have hrest := hu.reprLoop (p := p.take len) mem (k := 1) (by omega)
    rw [huc, List.append_assoc, List.append_assoc] at hrest
    exact hrest

end SysExploration.Sds
