import SysExploration.Commons.LineStream
import SysExploration.Library.Occurrences

/-! The fixed-string search of `fgrep`, line by line. -/
namespace SysExploration

/-- The bytes in front of the terminating zero. -/
structure CString where
  bytes : Bytes
  noZero : 0 ∉ bytes

def strnlen (s : CString) (maxlen : ℕ) : ℕ := min s.bytes.length maxlen

/-- `memmem`, as an index into the haystack. -/
def memmem (haystack needle : Bytes) : Option ℕ := firstOccurrence needle haystack

def LSErrorCode.number : LSErrorCode → ℕ
  | .none => 0
  | .initFailed => 1
  | .allocFailed => 2
  | .readFailed => 3
  | .eof => 4
  | .nullArg => 5

namespace Fgrep

/-- What a run wrote, and whether it ended in `exit(1)`. -/
structure Output where
  stdout : Bytes
  stderr : String
  failed : Bool

def colon : UInt8 := 58

def decimal (n : ℕ) : Bytes := (Nat.toDigits 10 n).map fun c => UInt8.ofNat c.toNat

/-- `printf("%ld:%ld:", ..)`, `fwrite` and `fputc('\n', ..)` -/
def printRecord (lineno column : ℕ) (text : Bytes) : Bytes :=
  decimal lineno ++ colon :: decimal column ++ colon :: text ++ [newline]

/-- `pattern_search` on `textLen` bytes from index `off` of a string on. -/
def patternSearch (pattern : CString) (patternLen : ℕ) (ls : LineStream) (line : LSString)
    (off textLen : ℕ) : Except Fault (Option ℕ) := do
  let haystack ← ls.load line off textLen
  .ok (memmem haystack (pattern.bytes.take patternLen))

/-- The inner `while` of `stream_line_and_search`. Every round moves `off` forward, unless the
pattern is empty. -/
def searchLine (pattern : CString) (patternLen : ℕ) (ls : LineStream) (line : LSString)
    (lineno : ℕ) : ℕ → ℕ → Except Fault Bytes
  | 0, _ => .error .endless
  | fuel + 1, off =>
    if off < line.size then do
      match ← patternSearch pattern patternLen ls line off line.size with
      | some i => do
        let found := off + i
        let text ← ls.load line found patternLen
        let rest ← searchLine pattern patternLen ls line lineno fuel (found + patternLen)
        .ok (printRecord (lineno + 1) (found + 1) text ++ rest)
      | none => searchLine pattern patternLen ls line lineno fuel line.size
    else .ok []

/-- The outer `while` of `stream_line_and_search`. -/
def searchLines (k : LSKernel) (pattern : CString) (patternLen : ℕ) :
    ℕ → LineStream → ℕ → Except Fault (Bytes × LSError)
  | 0, _, _ => .error .endless
  | fuel + 1, ls, lineno => do
    match ← ls.next k with
    | (.ok line, ls) => do
      let records ← searchLine pattern patternLen ls line lineno (line.size + 1) 0
      let (rest, err) ← searchLines k pattern patternLen fuel ls (lineno + 1)
      .ok (records ++ rest, err)
    | (.error err, _) => .ok ([], err)

/-- After `allocFailed` the source prints the message through a pointer that dangles; see
`LSError`. -/
def errorReport (err : LSError) : String :=
  "SOMETHING WENT WRONG WHILE READING.. DEETS below\n" ++
    "code = " ++ toString err.code.number ++ ", message = " ++ err.message

/-- `stream_line_and_search`. Every line takes a byte from the file or from the buffer. -/
def streamLineAndSearch (k : LSKernel) (fd : OpenFile) (pattern : CString) (pageSize : ℕ)
    (alloc calloc : Bool) (malloc : Malloc) : Except Fault Output :=
  let patternLen := strnlen pattern (1 * 1024)
  if 1 * 1024 - 1 < patternLen then
    .ok ⟨[], "pattern length should be less than 1024 characters", true⟩
  else
    match LineStream.create fd pageSize alloc calloc malloc with
    | .error _ => .ok ⟨[], "linestream__create(): " ++ k.strerror ++ "\n", true⟩
    | .ok ls => do
      let (stdout, err) ← searchLines k pattern patternLen (fd.rest.length + 1) ls 0
      .ok ⟨stdout, if err.code ≠ .eof then errorReport err else "", false⟩

end Fgrep
end SysExploration
