import SysExploration.Sds.Numbers

/-! `sdscatfmt`. -/
namespace SysExploration

/-- A variadic argument, by the type it was passed with. -/
inductive FmtArg where
  | str (b : Bytes)
  | sds (s : Sds)
  | int (z : ℤ)
  | longlong (z : ℤ)
  | unsigned (n : ℕ)
  | ulonglong (n : ℕ)
  deriving DecidableEq, Repr

namespace FmtArg

/-- What an argument is written as. -/
def text : FmtArg → Bytes
  | str b => b.takeWhile (· ≠ 0)
  | sds s => s.contents
  | int z => signedNumeral z
  | longlong z => signedNumeral z
  | unsigned n => numeral n
  | ulonglong n => numeral n

/-- The letter of the conversion for an argument. -/
def letter : FmtArg → UInt8
  | str _ => 115
  | sds _ => 83
  | int _ => 105
  | longlong _ => 73
  | unsigned _ => 117
  | ulonglong _ => 85

/-- A value of the type. -/
def Proper : FmtArg → Prop
  | str _ => True
  | sds s => s.Valid
  | int z => -2 ^ 31 ≤ z ∧ z < 2 ^ 31
  | longlong z => -2 ^ 63 ≤ z ∧ z < 2 ^ 63
  | unsigned n => n < 2 ^ 32
  | ulonglong n => n < 2 ^ 64

end FmtArg

def fmtLetters : List UInt8 := [115, 83, 105, 73, 117, 85]

/-- What a format stands for, if the arguments are of the types it asks for. A `%` in front of
another letter is left out, and so is one at the end. -/
def render : Bytes → List FmtArg → Option Bytes
  | [], _ => some []
  | c :: f, args =>
    if c = 37 then
      match f with
      | [] => some []
      | next :: f =>
        if next ∈ fmtLetters then
          match args with
          | [] => none
          | a :: args => if a.letter = next then (render f args).map (a.text ++ ·) else none
        else (render f args).map (next :: ·)
    else (render f args).map (c :: ·)

namespace Sds

variable {s s' : Sds} {bytes b r fmt : Bytes} {args : List FmtArg} {l k i : ℕ} {c : UInt8}
  {mem : ℕ → Malloc}

/-- `if (sdsavail(s) < l) s = sdsMakeRoomFor(s, l)`; the next use of `s` is not far. -/
def roomFor (s : Sds) (l : ℕ) (mem : Malloc) : Except SdsFault Sds :=
  if s.sdsavail < l then (s.sdsMakeRoomFor l mem).bind deref else .ok s

/-- `memcpy(s+i, bytes, l)` and `sdsinclen(s, l)`. -/
def put (s : Sds) (i : ℕ) (bytes : Bytes) : Except SdsFault Sds := do
  let buf ← writeBytes s.buf i bytes
  .ok ({ s with buf := buf }.sdsinclen bytes.length)

/-- The array that `sdsll2str` and `sdsull2str` write to. -/
def llstr : Bytes := List.replicate sdsLlstrSize 0

/-- What the conversion `%next` appends, and the arguments after it: `none` where it is no
conversion. A `va_arg` of another type is undefined. -/
def conversion (next : UInt8) (args : List FmtArg) :
    Option (Except SdsFault (Bytes × List FmtArg)) :=
  -- `s`, `S`, `i`, `I`, `u` and `U`
  if next = 115 then
    some <| match args with
      | .str b :: args => .ok (b.take (strlen b), args)
      | _ => .error .outOfRange
  else if next = 83 then
    some <| match args with
      | .sds t :: args => (readBytes t.buf 0 t.sdslen).map fun b => (b, args)
      | _ => .error .outOfRange
  else if next = 105 then
    some <| match args with
      | .int z :: args => (sdsll2str llstr z).map fun b => (b.1.take b.2, args)
      | _ => .error .outOfRange
  else if next = 73 then
    some <| match args with
      | .longlong z :: args => (sdsll2str llstr z).map fun b => (b.1.take b.2, args)
      | _ => .error .outOfRange
  else if next = 117 then
    some <| match args with
      | .unsigned n :: args => (sdsull2str llstr n).map fun b => (b.1.take b.2, args)
      | _ => .error .outOfRange
  else if next = 85 then
    some <| match args with
      | .ulonglong n :: args => (sdsull2str llstr n).map fun b => (b.1.take b.2, args)
      | _ => .error .outOfRange
  else none

/-- The loop, on what is left of the format. The calls of the allocator are numbered, two for
every round. -/
def fmtLoop (mem : ℕ → Malloc) : Bytes → (k : ℕ) → Sds → (i : ℕ) → List FmtArg →
    Except SdsFault Sds
  | [], _, s, i, _ => do
    let buf ← writeBytes s.buf i [0]
    .ok { s with buf := buf }
  | c :: f, k, s, i, args => do
    -- make sure there is always space for at least 1 char
    let s ← s.roomFor 1 (mem k)
    if c = 37 then
      match f with
      | [] => fmtLoop mem [] (k + 2) s i args
      | next :: f =>
        match conversion next args with
        | some r => do
          let r ← r
          let s ← s.roomFor r.1.length (mem (k + 1))
          let s ← s.put i r.1
          fmtLoop mem f (k + 2) s (i + r.1.length) r.2
        | none => do
          let s ← s.put i [next]
          fmtLoop mem f (k + 2) s (i + 1) args
    else do
      let s ← s.put i [c]
      fmtLoop mem f (k + 2) s (i + 1) args

def sdscatfmt (s : Sds) (fmt : Bytes) (args : List FmtArg) (mem : ℕ → Malloc) :
    Except SdsFault Sds := do
  let initlen := s.sdslen
  let s ← (s.sdsMakeRoomFor (toSize (initlen + strlen fmt * 2)) (mem 0)).bind deref
  fmtLoop mem (fmt.take (strlen fmt)) 1 s initlen args

theorem conversion_letter {a : FmtArg} (ha : a.Proper) (args : List FmtArg) :
    conversion a.letter (a :: args) = some (.ok (a.text, args)) := by
  have hsigned {z : ℤ} (hlow : -2 ^ 63 ≤ z) (hhigh : z < 2 ^ 63) :
      (sdsll2str llstr z).map (fun b => (b.1.take b.2, args)) = .ok (signedNumeral z, args) := by
    have hlength : llstr.length = sdsLlstrSize := List.length_replicate
    rw [(sdsll2str_eq hlow hhigh hlength.ge).2]
    change Except.ok (List.take _ _, args) = _
    rw [List.take_left' rfl]
  have hunsigned {n : ℕ} (hn : n < 2 ^ 64) :
      (sdsull2str llstr n).map (fun b => (b.1.take b.2, args)) = .ok (numeral n, args) := by
    have hlength : llstr.length = sdsLlstrSize := List.length_replicate
    rw [(sdsull2str_eq hn hlength.ge).2]
    change Except.ok (List.take _ _, args) = _
    rw [List.take_left' rfl]
  cases a with
  | str b => exact congrArg (fun b => some (Except.ok (b, args))) (take_strlen b)
  | sds s =>
    have hread : readBytes s.buf 0 s.sdslen = .ok s.contents := by
      have hlt := Shaped.len_lt_length ha.toShaped
      rw [sdslen, readBytes_eq (by omega), slice, List.drop_zero]
      rfl
    exact congrArg (fun x : Except SdsFault Bytes => some (x.map fun b => (b, args))) hread
  | int z => exact congrArg some (hsigned (by have := ha.1; omega) (by have := ha.2; omega))
  | longlong z => exact congrArg some (hsigned ha.1 ha.2)
  | unsigned n => exact congrArg some (hunsigned (Nat.lt_trans ha (by decide)))
  | ulonglong n => exact congrArg some (hunsigned ha)

theorem conversion_none {next : UInt8} (h : next ∉ fmtLetters) (args : List FmtArg) :
    conversion next args = none := by
  simp only [fmtLetters, List.mem_cons, List.not_mem_nil, or_false, not_or] at h
  obtain ⟨hs, hS, hi, hI, hu, hU⟩ := h
  simp only [conversion, hs, hS, hi, hI, hu, hU, ↓reduceIte]

/-- There is room for `l` more bytes afterwards, or the allocator has failed. -/
theorem Shaped.roomFor (h : s.Shaped) (hsmall : s.len + l + sdsMaxPrealloc + 18 < 2 ^ 64)
    (m : Malloc) :
    (∃ s', s.roomFor l m = .ok s' ∧ s'.Shaped ∧ s'.len = s.len ∧ s'.contents = s.contents ∧
      s.len + l ≤ s'.sdsalloc) ∨ s.roomFor l m = .error .nullString ∧ m = none := by
  have havail := h.sdsavail_eq
  have hle := h.len_le
  unfold Sds.roomFor
  split_ifs with hshort
  · have hsum : s.len + l < 2 ^ 64 := by omega
    have hout := h.makeRoom hsum m
    generalize s.sdsMakeRoomFor l m = out at hout ⊢
    cases hout with
    | enough henough => omega
    | refused _ hbig => omega
    | null _ _ hmem => exact .inr ⟨rfl, hmem⟩
    | moved _ _ _ hmoved =>
      refine .inl ⟨_, rfl, hmoved.shaped, hmoved.len, hmoved.contents, ?_⟩
      rw [hmoved.alloc]
      exact le_preallocated (by omega)
  · exact .inl ⟨s, rfl, h, rfl, rfl, by omega⟩

theorem Shaped.put (h : s.Shaped) (hroom : s.len + bytes.length ≤ s.sdsalloc) :
    ∃ s', s.put s.len bytes = .ok s' ∧ s'.Shaped ∧ s'.len = s.len + bytes.length ∧
      s'.contents = s.contents ++ bytes := by
  have hin := h.room
  have hwrite : s.len + bytes.length ≤ s.buf.length := by omega
  obtain ⟨hshaped, hlen⟩ := h.resize (length_overwrite hwrite) hroom
  refine ⟨_, ?_, hshaped, hlen, ?_⟩
  · rw [Sds.put, writeBytes_eq hwrite]
    rfl
  · rw [h.contents_rewrite hroom, take_overwrite_append (by omega)]
    rfl

/-- How the function ends that is to leave the bytes `b`. -/
inductive Formatted (mem : ℕ → Malloc) (b : Bytes) : Except SdsFault Sds → Prop
  | done {s' : Sds} : s'.Valid → s'.contents = b → Formatted mem b (.ok s')
  | null : (∃ k, mem k = none) → Formatted mem b (.error .nullString)

/-- A round of the loop that appends bytes, and the rounds after it. -/
theorem Shaped.round (h : s.Shaped) (hroom : s.len + bytes.length ≤ s.sdsalloc)
    {next : Sds → Except SdsFault Sds}
    (hnext : ∀ s', s'.Shaped → s'.len = s.len + bytes.length →
      s'.contents = s.contents ++ bytes → Formatted mem b (next s')) :
    Formatted mem b ((s.put s.len bytes).bind next) := by
  obtain ⟨s', hs', hshaped, hlen, hc⟩ := h.put hroom
  rw [hs']
  exact hnext s' hshaped hlen hc

/-- The terminator is written at the end. -/
theorem Shaped.terminate (h : s.Shaped) : Formatted mem s.contents (do
    let buf ← writeBytes s.buf s.len [0]
    .ok { s with buf := buf }) := by
  have hlt := h.len_lt_length
  have hwrite : s.len + [(0 : UInt8)].length ≤ s.buf.length := hlt
  have hzero : (overwrite s.buf s.len [0])[s.len]? = some (0 : UInt8) :=
    getElem?_overwrite (j := 0) (by omega) Nat.zero_lt_one
  have hsame (buf : Bytes) :
      ({ s with buf := buf } : Sds).sdssetlen s.len = { s with buf := buf } :=
    congrArg (fun n => ({ s with len := n, buf := buf } : Sds)) (Nat.mod_eq_of_lt h.len_lt)
  have hvalid := h.rewrite (length_overwrite hwrite) h.len_le hzero
  have hc : ({ s with buf := overwrite s.buf s.len [0] }.sdssetlen s.len).contents =
      (overwrite s.buf s.len [0]).take s.len := h.contents_rewrite h.len_le
  rw [hsame] at hvalid hc
  rw [writeBytes_eq hwrite]
  exact .done hvalid (hc.trans (take_overwrite_of_le (le_refl _) (by omega)))

/-- The loop appends what is left of the format, by induction on its length. -/
theorem Shaped.fmtLoop (h : s.Shaped) (mem : ℕ → Malloc) (hr : render fmt args = some r)
    (hargs : ∀ a ∈ args, a.Proper) (hsmall : s.len + r.length + sdsMaxPrealloc + 19 < 2 ^ 64) :
    Formatted mem (s.contents ++ r) (fmtLoop mem fmt k s s.len args) := by
  induction hn : fmt.length using Nat.strongRecOn generalizing fmt k s r args with
  | ind n ih =>
    subst hn
    cases fmt with
    | nil =>
      obtain rfl := Option.some.inj hr
      rw [List.append_nil]
      exact h.terminate
    | cons c f =>
      rw [Sds.fmtLoop]
      rcases h.roomFor (l := 1) (by omega) (mem k) with ⟨t, ht, hshaped, hlen, hc, hroom⟩ |
        ⟨hnull, hk⟩
      case inr =>
        rw [hnull]
        exact .null ⟨k, hk⟩
      rw [ht, ← hlen, ← hc]
      rw [← hlen] at hsmall hroom
      -- one byte is written, whichever it is
      have hbyte (x : UInt8) (f' : Bytes) (hf : f'.length < (c :: f).length)
          (hx : (render f' args).map (x :: ·) = some r) :
          Formatted mem (t.contents ++ r) ((t.put t.len [x]).bind fun s =>
            Sds.fmtLoop mem f' (k + 2) s (t.len + 1) args) := by
        obtain ⟨r', hr', rfl⟩ := Option.map_eq_some_iff.mp hx
        rw [List.length_cons] at hsmall
        have hone : t.len + [x].length ≤ t.sdsalloc := hroom
        apply hshaped.round hone
        intro u hu hulen huc
        have hrest := ih f'.length hf hu hr' hargs (by rw [hulen, List.length_singleton]; omega)
          (k := k + 2) rfl
        rw [huc, hulen, List.append_assoc] at hrest
        exact hrest
      change Formatted mem _ (if c = 37 then _ else _)
      unfold render at hr
      by_cases hpercent : c = 37
      case neg =>
        rw [if_neg hpercent] at hr ⊢
        exact hbyte c f (by simp) hr
      rw [if_pos hpercent] at hr ⊢
      cases f with
      | nil =>
        obtain rfl := Option.some.inj hr
        rw [List.append_nil]
        exact hshaped.terminate
      | cons next f =>
        by_cases hletter : next ∈ fmtLetters
        case neg =>
          simp only [conversion_none hletter]
          simp only [if_neg hletter] at hr
          exact hbyte next f (by simp) hr
        simp only [if_pos hletter] at hr
        cases args with
        | nil => cases hr
        | cons a args =>
          simp only at hr
          split_ifs at hr with hfits
          obtain ⟨r', hr', rfl⟩ := Option.map_eq_some_iff.mp hr
          rw [List.length_append] at hsmall
          rw [← hfits]
          simp only [conversion_letter (hargs a List.mem_cons_self)]
          change Formatted mem _ ((t.roomFor a.text.length (mem (k + 1))).bind _)
          rcases hshaped.roomFor (l := a.text.length) (by omega) (mem (k + 1)) with
            ⟨u, hu, hushaped, hulen, huc, huroom⟩ | ⟨hnull, hk⟩
          case inr =>
            rw [hnull]
            exact .null ⟨k + 1, hk⟩
          rw [hu, ← hulen, ← huc]
          apply hushaped.round (by rw [hulen]; exact huroom)
          intro v hv hvlen hvc
          change v.len = u.len + a.text.length at hvlen
          have hrest := ih f.length (by simp) hv hr'
            (fun b hb => hargs b (List.mem_cons_of_mem a hb)) (by rw [hvlen, hulen]; omega)
            (k := k + 2) rfl
          rw [hvc, hvlen, List.append_assoc] at hrest
          exact hrest

/-- What `sdscatfmt` appends is what its format stands for, whatever the lengths of the arguments
and however often the string has to move: nothing is written behind the capacity. The only other
end is that it uses `NULL`, and then the allocator has returned it. The bound on the sizes leaves
room for what it asks for at first, twice the format, and for a mebibyte and a header more. -/
theorem catfmt_renders (h : s.Valid) (hr : render (fmt.take (strlen fmt)) args = some r)
    (hargs : ∀ a ∈ args, a.Proper)
    (hsmall : 2 * s.len + 2 * strlen fmt + r.length + sdsMaxPrealloc + 19 < 2 ^ 64) :
    Formatted mem (s.contents ++ r) (s.sdscatfmt fmt args mem) := by
  have hsize : toSize (s.len + strlen fmt * 2) = s.len + strlen fmt * 2 := by
    exact_mod_cast toSize_of_lt (n := s.len + strlen fmt * 2) (by omega)
  simp only [sdscatfmt, sdslen, hsize]
  have hsum : s.len + (s.len + strlen fmt * 2) < 2 ^ 64 := by omega
  have hout := h.makeRoom hsum (mem 0)
  generalize s.sdsMakeRoomFor (s.len + strlen fmt * 2) (mem 0) = out at hout ⊢
  cases hout with
  | enough => exact h.fmtLoop mem hr hargs (by omega)
  | refused _ hbig => omega
  | null _ _ hmem => exact .null ⟨0, hmem⟩
  | moved _ _ _ hmoved =>
    have hrest := hmoved.shaped.fmtLoop mem (k := 1) hr hargs (by rw [hmoved.len]; omega)
    rw [hmoved.contents, hmoved.len] at hrest
    exact hrest

/-- `Hello %s World %I,%I--` -/
def helloFmt : Bytes :=
  [72, 101, 108, 108, 111, 32, 37, 115, 32, 87, 111, 114, 108, 100, 32, 37, 73, 44, 37, 73, 45,
    45]

def helloArgs : List FmtArg := [.str [72, 105, 33], .longlong (-2 ^ 63), .longlong (2 ^ 63 - 1)]

/-- `Hello Hi! World -9223372036854775808,9223372036854775807--` -/
def helloText : Bytes :=
  [72, 101, 108, 108, 111, 32, 72, 105, 33, 32, 87, 111, 114, 108, 100, 32, 45, 57, 50, 50, 51,
    51, 55, 50, 48, 51, 54, 56, 53, 52, 55, 55, 53, 56, 48, 56, 44, 57, 50, 50, 51, 51, 55, 50,
    48, 51, 54, 56, 53, 52, 55, 55, 53, 56, 48, 55, 45, 45]

theorem catfmt_renders_hello : Formatted (fun _ => some fun _ => 0)
    ((⟨.type5, 2, 0, [45, 45, 0]⟩ : Sds).contents ++ helloText)
    ((⟨.type5, 2, 0, [45, 45, 0]⟩ : Sds).sdscatfmt helloFmt helloArgs
      fun _ => some fun _ => 0) := by
  have hvalid : (⟨.type5, 2, 0, [45, 45, 0]⟩ : Sds).Valid :=
    ⟨⟨by decide, by decide, by decide, by decide, by decide⟩, rfl⟩
  have hrender : render (helloFmt.take (strlen helloFmt)) helloArgs = some helloText := by
    decide +kernel
  have hproper : ∀ a ∈ helloArgs, a.Proper := by
    simp [helloArgs, FmtArg.Proper]
  exact catfmt_renders hvalid hrender hproper (by decide)

end Sds
end SysExploration
