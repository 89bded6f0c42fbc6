import SysExploration.Library.Loops
import SysExploration.Search.Fgrep

/-! The searches of a whole file that `fgrep` is compared with: through a mapping of the file,
and through a block that is refilled. -/
namespace SysExploration.Fgrep

def kib : ℕ := 1024

def mib : ℕ := 1024 * 1024

/-- What a pointer points into. -/
inductive Object where
  | null | block
  deriving DecidableEq, Repr

/-- An index from `NULL` or from the front of a block on. -/
structure Pointer where
  object : Object
  index : ℕ
  deriving DecidableEq, Repr

namespace Pointer

def null : Pointer := ⟨.null, 0⟩

def add (p : Pointer) (n : ℕ) : Pointer := { p with index := p.index + n }

/-- Reading `n` bytes. No bytes can be read through any pointer. -/
def load (b : Bytes) (p : Pointer) (n : ℕ) : Except Fault Bytes :=
  match p.object with
  | .null => if n = 0 then .ok [] else .error .outOfRange
  | .block => loadBytes (some b) p.index n

end Pointer

def storeBlock (b : Bytes) (i : ℕ) (bytes : Bytes) : Except Fault Bytes :=
  if i + bytes.length ≤ b.length then .ok (overwrite b i bytes) else .error .outOfRange

/-- `pattern_search` on `textLen` bytes from `text` on. `memmem` returns its haystack for an
empty needle, without reading it. -/
def searchBlock (pattern : CString) (patternLen : ℕ) (b : Bytes) (text : Pointer) (textLen : ℕ) :
    Except Fault (Option Pointer) :=
  let needle := pattern.bytes.take patternLen
  if needle = [] then .ok (if text = .null then none else some text)
  else do
    let haystack ← text.load b textLen
    .ok ((memmem haystack needle).map text.add)

/-- `fwrite` of what was found, and `fputc('\n', ..)`. -/
def printMatch (b : Bytes) (found : Pointer) (patternLen : ℕ) (stdout : Bytes) :
    Except Fault Bytes := do
  let text ← found.load b patternLen
  .ok (stdout ++ text ++ [newline])

/-- `struct running_buffer` -/
structure RunningBuffer where
  cursor : Pointer
  len : ℕ
  deriving DecidableEq, Repr

/-- The variables of `read_and_search`, and what it has written. -/
structure ReadSearch where
  buf : Bytes
  chunk : RunningBuffer
  fd : OpenFile
  stdout : Bytes

def bytesToRead : ℕ := 4 * mib

def bufLen : ℕ := bytesToRead + 1 * kib

/-- The chunk from a cursor behind its own on, up to the same end. -/
def RunningBuffer.advance (chunk : RunningBuffer) (newCursor : Pointer) : RunningBuffer :=
  ⟨newCursor, toSize ((chunk.cursor.index + chunk.len : ℕ) - newCursor.index)⟩

/-- The branch of `read_and_search` that searches the chunk. -/
def searchChunk (pattern : CString) (patternLen : ℕ) (s : ReadSearch) :
    Except Fault ReadSearch := do
  match ← searchBlock pattern patternLen s.buf s.chunk.cursor s.chunk.len with
  | some foundIdx => do
    let stdout ← printMatch s.buf foundIdx patternLen s.stdout
    .ok { s with chunk := s.chunk.advance (foundIdx.add patternLen), stdout := stdout }
  | none =>
    let newCursor := s.chunk.cursor.add (s.chunk.len - patternLen + 1)
    .ok { s with chunk := s.chunk.advance newCursor }

/-- The branch that moves the chunk to the front of the block and reads behind it. -/
def refillChunk (k : LSKernel) (s : ReadSearch) : Except Fault (Output ⊕ ReadSearch) := do
  let backlog ← s.chunk.cursor.load s.buf s.chunk.len
  let buf ← storeBlock s.buf 0 backlog
  match s.fd.read k bytesToRead with
  | (some [], _) => .ok (.inl ⟨s.stdout, "", false⟩)
  | (none, _) => .ok (.inl ⟨s.stdout, "read(): " ++ k.strerror ++ "\n", true⟩)
  | (some bytes, fd) => do
    let buf ← storeBlock buf s.chunk.len bytes
    let len := toSize ((s.chunk.len + bytes.length : ℕ) : ℤ)
    .ok (.inr { s with buf := buf, chunk := ⟨⟨.block, 0⟩, len⟩, fd := fd })

/-- The body of the `while` of `read_and_search`. -/
def readRound (k : LSKernel) (pattern : CString) (patternLen : ℕ) (s : ReadSearch) :
    Except Fault (Output ⊕ ReadSearch) :=
  if patternLen ≤ s.chunk.len then Sum.inr <$> searchChunk pattern patternLen s
  else refillChunk k s

def ReadSearch.init (fd : OpenFile) : ReadSearch :=
  ⟨block bufLen fun _ => 0, ⟨.null, 0⟩, fd, []⟩

/-- `read_and_search`. Unless the pattern is empty every round takes a byte off the file or
off the chunk. -/
def readAndSearch (k : LSKernel) (fd : OpenFile) (pattern : CString) (malloc : Malloc) :
    Except Fault Output :=
  let patternLen := strnlen pattern (1 * kib)
  if 1 * kib - 1 < patternLen then
    .ok ⟨[], "pattern length should be less than 1024 characters", true⟩
  else
    match malloc with
    | none => .error .outOfRange
    | some _ => loop .endless (readRound k pattern patternLen) (2 * fd.rest.length + 1) (.init fd)

/-- The variables of `read_and_search_mmap`, and what it has written. -/
structure MmapSearch where
  cursor : ℕ
  remaining : ℕ
  stdout : Bytes

/-- The body of the `while` of `read_and_search_mmap`. -/
def mmapRound (pattern : CString) (patternLen : ℕ) (file : Bytes) (s : MmapSearch) :
    Except Fault (Output ⊕ MmapSearch) :=
  if patternLen ≤ s.remaining then do
    match ← searchBlock pattern patternLen file ⟨.block, s.cursor⟩ s.remaining with
    | none => .ok (.inl ⟨s.stdout, "", false⟩)
    | some found => do
      let stdout ← printMatch file found patternLen s.stdout
      let consumed := toSize ((found.index : ℤ) - s.cursor + patternLen)
      .ok (.inr ⟨s.cursor + consumed, toSize ((s.remaining : ℤ) - consumed), stdout⟩)
  else .ok (.inl ⟨s.stdout, "", false⟩)

/-- `read_and_search_mmap`; the flags are the outcomes of `fstat` and `mmap`, the message is
the one of `perror`. -/
def readAndSearchMmap (strerror : String) (file : Bytes) (pattern : CString) (fstat mmap : Bool) :
    Except Fault Output :=
  let patternLen := strnlen pattern (1 * kib)
  if 1 * kib - 1 < patternLen then
    .ok ⟨[], "pattern length should be less than 1024 characters", true⟩
  else if !fstat then .ok ⟨[], "fstat(): " ++ strerror ++ "\n", true⟩
  else if file.length = 0 then .ok ⟨[], "", false⟩
  else if !mmap then .ok ⟨[], "mmap(): " ++ strerror ++ "\n", true⟩
  else loop .endless (mmapRound pattern patternLen file) (file.length + 1) ⟨0, file.length, []⟩

end SysExploration.Fgrep
