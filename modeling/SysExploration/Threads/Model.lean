import SysExploration.Library.Tables
import SysExploration.Copying.Echo

/-! The threaded server: the main thread accepts connections and starts a detached thread for
each of them. The threads share the heap and the descriptors of the process; the steps are
their calls, in any order. -/
namespace SysExploration

/-- What `handle_client_request` keeps in its frame, and what it has reported. -/
structure Handler where
  recvbuf : Bytes
  perrors : List String
  phase : EchoPhase
  deriving DecidableEq, Repr

/-- A connection: how many of its client's bytes have been received, and what was sent back. -/
structure Peer where
  arrived : ℕ
  sent : Bytes
  exchanges : List Transfer
  deriving DecidableEq, Repr

def Handler.start : Handler := ⟨[], [], .recv⟩

def Peer.fresh : Peer := ⟨0, [], []⟩

/-- A handler and the connection it serves. -/
def Peer.joined (p : Peer) (h : Handler) : Echo :=
  ⟨p.arrived, h.recvbuf, p.sent, p.exchanges, h.perrors, h.phase⟩

def Echo.handler (s : Echo) : Handler := ⟨s.recvbuf, s.perrors, s.phase⟩

def Echo.peer (s : Echo) : Peer := ⟨s.arrived, s.sent, s.exchanges⟩

@[simp] theorem Echo.joined_eq (s : Echo) : s.peer.joined s.handler = s := rfl

/-- One call of `handle_client_request` on a descriptor: on the connection it names, or, when it
is not open, a failed one. -/
def handlerCall (client : ℕ → ℕ → UInt8) (descriptors : Table ℤ ℕ) (peers : ℕ → Peer)
    (clientSocketfd : ℤ) (h : Handler) (answer : Option ℕ) : Option ((ℕ → Peer) × Handler) :=
  match descriptors.lookup clientSocketfd with
  | none =>
    (Echo.handleClientRequest (fun _ => 0) (Peer.fresh.joined h) none).map fun s =>
      (peers, s.handler)
  | some id =>
    (Echo.handleClientRequest (client id) ((peers id).joined h) answer).map fun s =>
      (Function.update peers id s.peer, s.handler)

/-- Where the main thread is in `server_loop` and `pthread_impl`, with the values of its
variables. A `client_thread_args_t` is known by its address. -/
inductive MainPhase where
  | accept
  | malloc (clientSocketfd : ℤ)
  | pthreadCreate (args : ℕ) (clientSocketfd : ℤ)
  | close (clientSocketfd : ℤ)
  deriving DecidableEq, Repr

/-- Where a thread is in `thread_worker`. -/
inductive WorkerPhase where
  | load (args : ℕ)
  | free (args : ℕ) (csockfd : ℤ)
  | handle (csockfd : ℤ) (h : Handler)
  | returned (h : Handler)
  deriving DecidableEq, Repr

/-- A thread, with the number of the connection it was started for, which no call reads. -/
structure Worker where
  conn : ℕ
  phase : WorkerPhase
  deriving DecidableEq, Repr

/-- The process. Connections are numbered in the order in which they are accepted. -/
structure Threaded where
  main : MainPhase
  workers : List Worker
  /-- The `client_socket_fd` of every allocated `client_thread_args_t`. -/
  heap : Table ℕ ℤ
  /-- The connection that each open descriptor names; the listening socket is left out. -/
  descriptors : Table ℤ ℕ
  accepted : ℕ
  peers : ℕ → Peer
  perrors : List String

/-- A call and its outcome: one of the main thread, or the next one of a thread. -/
inductive ThreadEvent where
  | accept (clientSocketfd : ℤ)
  | malloc (args : Option ℕ)
  | pthreadCreate (created : Bool)
  | close
  | worker (i : ℕ) (answer : Option ℕ)
  deriving DecidableEq, Repr

namespace Threaded

def start : Threaded := ⟨.accept, [], ∅, ∅, 0, fun _ => .fresh, []⟩

/-- `free`; releasing what is not allocated is undefined. -/
def freeArgs (heap : Table ℕ ℤ) (args : ℕ) : Except Fault (Table ℕ ℤ) :=
  if args ∈ heap then .ok (heap.erase args) else .error .outOfRange

def setWorker (s : Threaded) (i : ℕ) (w : Worker) (phase : WorkerPhase) : Threaded :=
  { s with workers := s.workers.set i { w with phase := phase } }

/-- The next call of `thread_worker`. -/
def workerCall (client : ℕ → ℕ → UInt8) (s : Threaded) (i : ℕ) (w : Worker)
    (answer : Option ℕ) : Except Fault (Option Threaded) :=
  match w.phase with
  | .load args =>
    match s.heap.lookup args with
    | none => .error .outOfRange
    | some csockfd => .ok (some (s.setWorker i w (.free args csockfd)))
  | .free args csockfd => do
    let heap ← freeArgs s.heap args
    .ok (some { s.setWorker i w (.handle csockfd .start) with heap := heap })
  | .handle csockfd h =>
    if h.phase = .ended then
      .ok (some { s.setWorker i w (.returned h) with descriptors := s.descriptors.erase csockfd })
    else
      .ok ((handlerCall client s.descriptors s.peers csockfd h answer).map fun r =>
        { s.setWorker i w (.handle csockfd r.2) with peers := r.1 })
  | .returned _ => .ok none

/-- One call; `none` when it is not the next one of its thread. -/
def call (client : ℕ → ℕ → UInt8) (s : Threaded) : ThreadEvent → Except Fault (Option Threaded)
  | .accept fd =>
    match s.main with
    | .accept =>
      if fd = -1 then .ok (some { s with perrors := s.perrors ++ ["accept"] })
      else .ok (some { s with
        descriptors := s.descriptors.insert fd s.accepted
        accepted := s.accepted + 1
        main := .malloc fd })
    | _ => .ok none
  | .malloc args =>
    match s.main, args with
    -- `pthread_impl` returns without closing the client
    | .malloc _, none => .ok (some { s with perrors := s.perrors ++ ["malloc"], main := .accept })
    | .malloc fd, some a =>
      .ok (some { s with heap := s.heap.insert a fd, main := .pthreadCreate a fd })
    | _, _ => .ok none
  | .pthreadCreate created =>
    match s.main, created with
    | .pthreadCreate args _, true =>
      .ok (some { s with workers := s.workers ++ [⟨s.accepted - 1, .load args⟩], main := .accept })
    | .pthreadCreate args fd, false => do
      let heap ← freeArgs s.heap args
      .ok (some { s with
        heap := heap, perrors := s.perrors ++ ["pthread_create"], main := .close fd })
    | _, _ => .ok none
  | .close =>
    match s.main with
    | .close fd => .ok (some { s with descriptors := s.descriptors.erase fd, main := .accept })
    | _ => .ok none
  | .worker i answer =>
    match s.workers[i]? with
    | none => .ok none
    | some w => workerCall client s i w answer

/-- The kernel returns a descriptor that is not open, or -1, and the allocator a block that is
not allocated. -/
def Fresh (s : Threaded) : ThreadEvent → Prop
  | .accept fd => fd = -1 ∨ fd ∉ s.descriptors
  | .malloc (some args) => args ∉ s.heap
  | _ => True

def Step (client : ℕ → ℕ → UInt8) (s : Threaded) (event : ThreadEvent) (s' : Threaded) : Prop :=
  s.Fresh event ∧ s.call client event = .ok (some s')

end Threaded
end SysExploration
