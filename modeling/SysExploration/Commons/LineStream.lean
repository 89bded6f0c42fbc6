import SysExploration.Commons.ReadBuffer

/-! The line stream over a file descriptor. `size_t` has 64 bits; pointers are not `NULL`. -/
namespace SysExploration

/-- `READ_BUFFERING_SIZE` -/
def readBufferingSize : ℕ := 4 * (1024 * 1024)

def newline : UInt8 := 10

/-- A view into the storage of the buffer, as an index into `data` and a size. -/
structure LSString where
  cursor : Option ℕ
  size : ℕ
  deriving DecidableEq, Repr

inductive LSErrorCode where
  | none | initFailed | allocFailed | readFailed | eof | nullArg
  deriving DecidableEq, Repr

/-- With `allocFailed` the source's message points into a local variable of `linestream__next` and
dangles when it returns; here it is the text that stood there. -/
structure LSError where
  message : String
  code : LSErrorCode
  deriving DecidableEq, Repr

abbrev ResultString := Except LSError LSString

/-- What the kernel and the allocator answer, by the number of the call: how many bytes
`read` returns, as far as the file and the count asked for allow, or `none` for -1, and the
outcome of a `malloc`. -/
structure LSKernel where
  read : ℕ → Option ℕ
  malloc : ℕ → Malloc
  strerror : String

/-- The file behind the descriptor: the bytes not read yet, and the counts of the reads made. -/
structure OpenFile where
  rest : Bytes
  asked : List ℕ

/-- `read(2)` -/
def OpenFile.read (k : LSKernel) (file : OpenFile) (count : ℕ) : Option Bytes × OpenFile :=
  match k.read file.asked.length with
  | none => (none, { file with asked := file.asked ++ [count] })
  | some n =>
    let n := min (max 1 n) (min count file.rest.length)
    (some (file.rest.take n), { rest := file.rest.drop n, asked := file.asked ++ [count] })

/-- The stream, with the number of calls of `readbuffer__assure` made. -/
structure LineStream where
  fd : OpenFile
  readBuffer : ReadBuffer
  assured : ℕ

namespace LineStream

/-- `linestream__create`; the flags are the outcomes of its own `malloc` and of the `calloc` of
the buffer. -/
def create (fd : OpenFile) (pageSize : ℕ) (alloc calloc : Bool) (malloc : Malloc) :
    Except LSError LineStream :=
  if !alloc then .error ⟨"linestream__create: malloc failed", .initFailed⟩
  else
    match ReadBuffer.init pageSize calloc malloc with
    | none => .error ⟨"linestream__create: readbuffer__init failed", .initFailed⟩
    | some rb => .ok ⟨fd, rb, 0⟩

/-- The `memchr` of `linestream__next`: the index in the view of the first newline at or
behind `scanned`. -/
def findNewline (rb : ReadBuffer) (scanned : ℕ) : Except Fault (Option ℕ) :=
  let rbview := rb.getReadView
  if scanned < rbview.size then do
    let bytes ← loadBytes rb.data (rb.offset + scanned) (toSize (rbview.size - scanned))
    .ok ((bytes.findIdx? (· = newline)).map (scanned + ·))
  else .ok none

/-- The `while` of `linestream__next`. -/
def nextLoop (k : LSKernel) : ℕ → LineStream → ℕ → Except Fault (ResultString × LineStream)
  | 0, _, _ => .error .endless
  | fuel + 1, ls, scanned => do
    let rbview := ls.readBuffer.getReadView
    match ← findNewline ls.readBuffer scanned with
    | some lineLen =>
      .ok (.ok ⟨rbview.cursor, lineLen⟩,
        { ls with readBuffer := (ls.readBuffer.consume 64 (lineLen + 1)).2 })
    | none =>
      let scanned := if scanned < rbview.size then rbview.size else scanned
      let (ar, rb) ← ls.readBuffer.assure 64 readBufferingSize (k.malloc ls.assured)
      let ls := { ls with readBuffer := rb, assured := ls.assured + 1 }
      if !ar.ok then .ok (.error ⟨ar.errorMessage, .allocFailed⟩, ls)
      else
        match ls.fd.read k (rb.getWriteCursorLimit 64) with
        | (none, fd) => .ok (.error ⟨k.strerror, .readFailed⟩, { ls with fd := fd })
        | (some [], fd) =>
          let rbview := rb.getReadView
          if 0 < rbview.size then
            .ok (.ok ⟨rbview.cursor, rbview.size⟩,
              { ls with fd := fd, readBuffer := (rb.consume 64 rbview.size).2 })
          else .ok (.error ⟨"linestream__next: end of file", .eof⟩, { ls with fd := fd })
        | (some bytes, fd) => do
          let rb ← rb.fill bytes
          let (cr, rb) := rb.commitWrite 64 bytes.length
          let ls := { ls with fd := fd, readBuffer := rb }
          if !cr.ok then .ok (.error ⟨cr.errorMessage, .allocFailed⟩, ls)
          else nextLoop k fuel ls scanned

/-- `linestream__next`. Every round but the last one takes at least one byte from the file. -/
def next (k : LSKernel) (ls : LineStream) : Except Fault (ResultString × LineStream) :=
  nextLoop k (ls.fd.rest.length + 1) ls 0

/-- Reading `n` bytes at index `off` of a string that `next` returned with this stream. -/
def load (ls : LineStream) (s : LSString) (off n : ℕ) : Except Fault Bytes :=
  match s.cursor with
  | none => .error .outOfRange
  | some cursor => loadBytes ls.readBuffer.data (cursor + off) n

def text (ls : LineStream) (s : LSString) : Except Fault Bytes := ls.load s 0 s.size

/-- The results of `n` calls of `next`, each string read before the next call. -/
def nextAll (k : LSKernel) :
    ℕ → LineStream → Except Fault (List (Except LSError Bytes) × LineStream)
  | 0, ls => .ok ([], ls)
  | n + 1, ls => do
    let (r, ls) ← ls.next k
    let line ←
      match r with
      | .error e => .ok (.error e)
      | .ok s => Except.ok <$> ls.text s
    let (lines, ls) ← nextAll k n ls
    .ok (line :: lines, ls)

end LineStream
end SysExploration
