import SysExploration.Machine

/-! The file follower `tail -f`, with the writers of the file and the kernel between them. -/
namespace SysExploration

/-- `struct inotify_event` of a watch for `IN_MODIFY` -/
structure InotifyEvent where
  wd : ℕ
  deriving DecidableEq, Repr

/-- The system call that comes next, with the variables that live around it. -/
inductive TailPhase where
  | addWatch
  | openFile
  | seekEnd
  | readEvent
  | fstat
  | seekCur (stSize : ℕ)
  | seekSet
  | readFile
  | writing (buf : Bytes) (bytesWritten : ℕ)
  | exited
  deriving DecidableEq, Repr

/-- The file, the changes of it whose event is not queued yet, the events queued, and the
follower. -/
structure Tail where
  file : Bytes
  announcing : ℕ
  queue : List InotifyEvent
  inotifyWd : Option ℕ
  offset : ℕ
  returnedIdx : Option ℕ
  phase : TailPhase
  stdout : Bytes
  deriving DecidableEq, Repr

/-- A step of a writer, of the kernel, or of the follower. The answer of a system call is
`none` for -1, and for `read` and `write` how many bytes it moves, as far as there are any. -/
inductive TailEvent where
  | append (bytes : Bytes)
  | truncate
  | notify (merge : Bool)
  | follow (answer : Option ℕ)
  deriving DecidableEq, Repr

namespace Tail

/-- `PAGE_SIZE` -/
def pageSize : ℕ := 4096

def start (file : Bytes) : Tail := ⟨file, 0, [], none, 0, none, .addWatch, []⟩

/-- The data is visible before its event is queued. -/
def append (s : Tail) (bytes : Bytes) : Tail :=
  { s with file := s.file ++ bytes, announcing := s.announcing + 1 }

def truncate (s : Tail) : Tail := { s with file := [], announcing := s.announcing + 1 }

/-- One of the changes is announced, if the file is watched. An event can be merged with one
that is pending. -/
def notify (s : Tail) (merge : Bool) : Option Tail :=
  match s.announcing with
  | 0 => none
  | n + 1 =>
    match s.inotifyWd with
    | none => some { s with announcing := n }
    | some wd =>
      if merge ∧ ⟨wd⟩ ∈ s.queue then some { s with announcing := n }
      else some { s with announcing := n, queue := s.queue ++ [⟨wd⟩] }

/-- `main`, `write_till_eof` and `defensive_write`, one system call at a time; `none` while the
follower is blocked or gone. -/
def follow (s : Tail) (answer : Option ℕ) : Option Tail :=
  match s.phase, answer with
  | .exited, _ => none
  | .addWatch, some wd => some { s with inotifyWd := some wd, phase := .openFile }
  | .openFile, some _ => some { s with offset := 0, phase := .seekEnd }
  | .seekEnd, some _ => some { s with
      offset := s.file.length, returnedIdx := some s.file.length, phase := .readEvent }
  | .readEvent, some _ =>
    match s.queue with
    | [] => none
    | ine :: queue => some { s with
        queue := queue, phase := if some ine.wd = s.inotifyWd then .fstat else .readEvent }
  | .fstat, some _ => some { s with phase := .seekCur s.file.length }
  -- the descriptor stays open and `seekEnd` has shown that it can be sought: -1 is not an answer
  | .seekCur stSize, _ =>
    some { s with phase := if stSize < s.offset then .seekSet else .readFile }
  | .seekSet, _ => some { s with offset := 0, phase := .readFile }
  | .readFile, some n =>
    let nReadBytes := min (max 1 n) (min pageSize (s.file.length - s.offset))
    if nReadBytes = 0 then some { s with phase := .readEvent }
    else some { s with
      offset := s.offset + nReadBytes, phase := .writing (slice s.file s.offset nReadBytes) 0 }
  | .writing buf bytesWritten, some n =>
    let res := min (max 1 n) (buf.length - bytesWritten)
    some { s with
      stdout := s.stdout ++ slice buf bytesWritten res
      phase := if bytesWritten + res < buf.length then .writing buf (bytesWritten + res)
        else .readFile }
  | _, none => some { s with phase := .exited }

def step (s : Tail) : TailEvent → Option Tail
  | .append bytes => some (s.append bytes)
  | .truncate => some s.truncate
  | .notify merge => s.notify merge
  | .follow answer => s.follow answer

def Steps (s : Tail) (e : TailEvent) (s' : Tail) : Prop := s.step e = some s'

end Tail
end SysExploration
