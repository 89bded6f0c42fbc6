import SysExploration.Machine

/-! The sds library: byte strings with a header in front of them. Strings are values here: an
operation that may move its argument takes the old string and returns the new one, or `NULL`, and
then the old one is still as it was. Every call of the allocator is an argument. -/
namespace SysExploration

/-- A call that returns no value: an access outside a block, the use of `NULL` and an `int` that
overflows, all undefined in C, a failed `assert`, or a loop that is still running after its last
step. -/
inductive SdsFault where
  | outOfRange | nullString | overflow | assertion | endless
  deriving DecidableEq, Repr

/-- The three low bits of the flags byte. -/
inductive SdsType where
  | type5 | type8 | type16 | type32 | type64
  deriving DecidableEq, Repr

/-- The width of the length in the header; in type 5 it is the rest of the flags byte. -/
def SdsType.bits : SdsType → ℕ
  | type5 => 5
  | type8 => 8
  | type16 => 16
  | type32 => 32
  | type64 => 64

def sdsHdrSize : SdsType → ℕ
  | .type5 => 1
  | .type8 => 3
  | .type16 => 5
  | .type32 => 9
  | .type64 => 17

def sdsReqType (stringSize : ℕ) : SdsType :=
  if stringSize < 2 ^ 5 then .type5
  else if stringSize < 2 ^ 8 then .type8
  else if stringSize < 2 ^ 16 then .type16
  else if stringSize < 2 ^ 32 then .type32
  else .type64

/-- The header of a string and the bytes of its block behind it. Type 5 has no `alloc`: nothing
reads or writes it there. -/
structure Sds where
  type : SdsType
  len : ℕ
  alloc : ℕ
  buf : Bytes
  deriving DecidableEq, Repr

/-- `memcpy` and single accesses; the source and the target do not overlap. -/
def readBytes (b : Bytes) (i n : ℕ) : Except SdsFault Bytes :=
  if i + n ≤ b.length then .ok (slice b i n) else .error .outOfRange

def writeBytes (b : Bytes) (i : ℕ) (bytes : Bytes) : Except SdsFault Bytes :=
  if i + bytes.length ≤ b.length then .ok (overwrite b i bytes) else .error .outOfRange

/-- `strlen` of the string that starts with these bytes; a zero follows them. -/
def strlen (b : Bytes) : ℕ := (b.takeWhile (· ≠ 0)).length

/-- What is behind the header of a new block of `hdrlen + n + 1` bytes, a `size_t`. -/
def newBlock (hdrlen n : ℕ) (garbage : ℕ → UInt8) : Except SdsFault Bytes :=
  let size := toSize (hdrlen + n + 1)
  if hdrlen ≤ size then .ok (block (size - hdrlen) garbage) else .error .outOfRange

/-- `realloc` keeps the bytes that both blocks have. -/
def reallocBlock (hdrlen n : ℕ) (buf : Bytes) (garbage : ℕ → UInt8) : Except SdsFault Bytes := do
  let new ← newBlock hdrlen n garbage
  .ok (overwrite new 0 (buf.take new.length))

/-- The `init` of `sdsnewlen`: `NULL`, `SDS_NOINIT`, or an object with these bytes. -/
inductive SdsInit where
  | null
  | noinit
  | data (bytes : Bytes)
  deriving DecidableEq, Repr

/-- The `memset` or `memcpy` with which a new string is filled. -/
def SdsInit.fill (init : SdsInit) (initlen : ℕ) (buf : Bytes) : Except SdsFault Bytes :=
  match init with
  | .null => writeBytes buf 0 (List.replicate buf.length 0)
  | .noinit => .ok buf
  | .data bytes => do
    let bytes ← readBytes bytes 0 initlen
    writeBytes buf 0 bytes

namespace Sds

def sdslen (s : Sds) : ℕ := s.len

/-- Below type 32 the difference is an `int`. -/
def sdsavail (s : Sds) : ℕ :=
  match s.type with
  | .type5 => 0
  | .type32 => toWord 32 (s.alloc - s.len)
  | _ => toSize (s.alloc - s.len)

def sdssetlen (s : Sds) (newlen : ℕ) : Sds := { s with len := newlen % 2 ^ s.type.bits }

def sdsinclen (s : Sds) (inc : ℕ) : Sds := { s with len := (s.len + inc) % 2 ^ s.type.bits }

def sdsalloc (s : Sds) : ℕ := if s.type = .type5 then s.len else s.alloc

def sdssetalloc (s : Sds) (newlen : ℕ) : Sds :=
  if s.type = .type5 then s else { s with alloc := newlen % 2 ^ s.type.bits }

/-- A block with a new header. -/
def headed (type : SdsType) (len alloc : ℕ) (buf : Bytes) : Sds :=
  ((⟨type, 0, 0, buf⟩ : Sds).sdssetlen len).sdssetalloc alloc

/-- The string in a block for `n` bytes that `realloc` returned. -/
def reallocated (s : Sds) (n : ℕ) (garbage : ℕ → UInt8) : Except SdsFault Sds := do
  let buf ← reallocBlock (sdsHdrSize s.type) n s.buf garbage
  .ok ({ s with buf := buf }.sdssetalloc n)

/-- The string in a new block for `n` bytes, behind a header of another size. -/
def copied (s : Sds) (type : SdsType) (n : ℕ) (garbage : ℕ → UInt8) : Except SdsFault Sds := do
  let buf ← newBlock (sdsHdrSize type) n garbage
  let bytes ← readBytes s.buf 0 (s.sdslen + 1)
  let buf ← writeBytes buf 0 bytes
  .ok (headed type s.sdslen n buf)

def sdsnewlen (init : SdsInit) (initlen : ℕ) (mem : Malloc) : Except SdsFault (Option Sds) :=
  let type := if sdsReqType initlen = .type5 ∧ initlen = 0 then .type8 else sdsReqType initlen
  match mem with
  | none => .ok none
  | some garbage => do
    let buf ← newBlock (sdsHdrSize type) initlen garbage
    let buf ← init.fill initlen buf
    let buf ← writeBytes buf initlen [0]
    .ok (some (headed type initlen initlen buf))

def sdsempty (mem : Malloc) : Except SdsFault (Option Sds) := sdsnewlen (.data []) 0 mem

def sdsnew (init : Option Bytes) (mem : Malloc) : Except SdsFault (Option Sds) :=
  match init with
  | none => sdsnewlen .null 0 mem
  | some b => sdsnewlen (.data b) (strlen b) mem

def sdsdup (s : Sds) (mem : Malloc) : Except SdsFault (Option Sds) :=
  sdsnewlen (.data s.buf) s.sdslen mem

def sdsupdatelen (s : Sds) : Except SdsFault Sds :=
  if 0 ∈ s.buf then .ok (s.sdssetlen (strlen s.buf)) else .error .outOfRange

def sdsclear (s : Sds) : Except SdsFault Sds := do
  let s := s.sdssetlen 0
  let buf ← writeBytes s.buf 0 [0]
  .ok { s with buf := buf }

def sdsMaxPrealloc : ℕ := 1024 * 1024

/-- The capacity for a string that needs `reqlen` bytes. -/
def preallocated (reqlen : ℕ) : ℕ :=
  if reqlen < sdsMaxPrealloc then toSize (reqlen * 2) else toSize (reqlen + sdsMaxPrealloc)

/-- Type 5 is not used when a string grows. -/
def roomType (newlen : ℕ) : SdsType :=
  if sdsReqType newlen = .type5 then .type8 else sdsReqType newlen

def sdsMakeRoomFor (s : Sds) (addlen : ℕ) (mem : Malloc) : Except SdsFault (Option Sds) :=
  if addlen ≤ s.sdsavail then .ok (some s)
  else
    let len := s.sdslen
    let reqlen := toSize (len + addlen)
    let newlen := preallocated reqlen
    let type := roomType newlen
    let hdrlen := sdsHdrSize type
    if ¬ reqlen < toSize (hdrlen + newlen + 1) then .error .assertion
    else
      match mem with
      | none => .ok none
      | some garbage =>
        (if s.type = type then s.reallocated newlen garbage
          else s.copied type newlen garbage).map some

def sdsRemoveFreeSpace (s : Sds) (mem : Malloc) : Except SdsFault (Option Sds) :=
  let len := s.sdslen
  if s.sdsavail = 0 then .ok (some s)
  else
    let type := sdsReqType len
    match mem with
    | none => .ok none
    | some garbage =>
      -- `type > SDS_TYPE_8`
      (if s.type = type ∨ (type ≠ .type5 ∧ type ≠ .type8) then s.reallocated len garbage
        else s.copied type len garbage).map some

def sdsAllocSize (s : Sds) : ℕ := toSize (sdsHdrSize s.type + s.sdsalloc + 1)

/-- What `sdsIncrLen` asserts. Up to type 16 the free space is compared as an `int`, and up to
type 32 the absolute value of a negative increment as an `unsigned int`. -/
def incrAllowed (s : Sds) (incr : ℤ) : Bool :=
  match s.type with
  | .type5 => (0 < incr ∧ s.len + incr < 32) ∨ (incr < 0 ∧ toWord 32 (-incr) ≤ s.len)
  | .type8 | .type16 =>
    (0 ≤ incr ∧ incr ≤ s.alloc - s.len) ∨ (incr < 0 ∧ toWord 32 (-incr) ≤ s.len)
  | .type32 =>
    (0 ≤ incr ∧ toWord 32 incr ≤ toWord 32 (s.alloc - s.len)) ∨
      (incr < 0 ∧ toWord 32 (-incr) ≤ s.len)
  | .type64 =>
    (0 ≤ incr ∧ toSize incr ≤ toSize (s.alloc - s.len)) ∨ (incr < 0 ∧ toSize (-incr) ≤ s.len)

def sdsIncrLen (s : Sds) (incr : ℤ) : Except SdsFault Sds :=
  if !s.incrAllowed incr then .error .assertion
  else
    let newlen := toWord s.type.bits (s.len + incr)
    let len := if s.type = .type5 then toSize (s.len + incr) else newlen
    do
      let buf ← writeBytes s.buf len [0]
      .ok { s with len := newlen, buf := buf }

/-- What follows `if (s == NULL) return NULL;`. -/
def orNull (s : Except SdsFault (Option Sds)) (k : Sds → Except SdsFault Sds) :
    Except SdsFault (Option Sds) :=
  s.bind fun s => s.elim (.ok none) fun s => (k s).map some

/-- The use of a pointer. -/
def deref : Option Sds → Except SdsFault Sds
  | none => .error .nullString
  | some s => .ok s

def sdsgrowzero (s : Sds) (len : ℕ) (mem : Malloc) : Except SdsFault (Option Sds) :=
  let curlen := s.sdslen
  if len ≤ curlen then .ok (some s)
  else
    orNull (s.sdsMakeRoomFor (len - curlen) mem) fun s => do
      let buf ← writeBytes s.buf curlen (List.replicate (len - curlen + 1) 0)
      .ok ({ s with buf := buf }.sdssetlen len)

/-- `t` is an object of its own, not a part of `s`. -/
def sdscatlen (s : Sds) (t : Bytes) (len : ℕ) (mem : Malloc) : Except SdsFault (Option Sds) :=
  let curlen := s.sdslen
  orNull (s.sdsMakeRoomFor len mem) fun s => do
    let bytes ← readBytes t 0 len
    let buf ← writeBytes s.buf curlen bytes
    let buf ← writeBytes buf (toSize (curlen + len)) [0]
    .ok ({ s with buf := buf }.sdssetlen (toSize (curlen + len)))

def sdscat (s : Sds) (t : Bytes) (mem : Malloc) : Except SdsFault (Option Sds) :=
  s.sdscatlen t (strlen t) mem

def sdscatsds (s t : Sds) (mem : Malloc) : Except SdsFault (Option Sds) :=
  s.sdscatlen t.buf t.sdslen mem

def sdscpylen (s : Sds) (t : Bytes) (len : ℕ) (mem : Malloc) : Except SdsFault (Option Sds) :=
  orNull (if s.sdsalloc < len then s.sdsMakeRoomFor (toSize (len - s.sdslen)) mem
    else .ok (some s)) fun s => do
    let bytes ← readBytes t 0 len
    let buf ← writeBytes s.buf 0 bytes
    let buf ← writeBytes buf len [0]
    .ok ({ s with buf := buf }.sdssetlen len)

def sdscpy (s : Sds) (t : Bytes) (mem : Malloc) : Except SdsFault (Option Sds) :=
  s.sdscpylen t (strlen t) mem

end Sds
end SysExploration
