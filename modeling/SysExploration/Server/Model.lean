import SysExploration.MessageQueue.Model

/-! The polling chat server: the table of watched descriptors, the handlers, and the event
loop as a transition system whose steps are the calls the loop makes. -/
namespace SysExploration
open MessageQueue

/-! Bits of the `events` and `revents` of a `struct pollfd`. -/

def pollin : BitVec 16 := 0x0001
def pollerr : BitVec 16 := 0x0008
def pollhup : BitVec 16 := 0x0010
def pollnval : BitVec 16 := 0x0020
def pollrdhup : BitVec 16 := 0x2000

structure Pollfd where
  fd : ℤ
  events : BitVec 16
  revents : BitVec 16
  deriving DecidableEq, Repr

def Pollfd.reports (event : Pollfd) (mask : BitVec 16) : Bool := event.revents &&& mask != 0

/-- `fds` is the array up to `length`, which is the length of the list. -/
structure Fds where
  capacity : ℕ
  fds : List Pollfd
  deriving DecidableEq, Repr

namespace Fds

/-- `fd_state__watch`; `-fd - 1` is `~fd`. -/
def watch (state : Fds) (fd : ℤ) : ℤ × Fds :=
  if state.capacity ≤ state.fds.length then (-1, state)
  else if state.fds.any fun e => e.fd = fd ∨ e.fd = -fd - 1 then (0, state)
  else (0, { state with fds := state.fds ++ [⟨fd, pollin ||| pollrdhup, 0⟩] })

/-- `fd_state__unwatch`: the last entry is moved into the place of the first one of the fd. -/
def unwatch (state : Fds) (fd : ℤ) : ℤ × Fds :=
  match state.fds.findIdx? (·.fd = fd), state.fds.getLast? with
  | some i, some last => (0, { state with fds := (state.fds.set i last).dropLast })
  | _, _ => (0, state)

/-- What `ppoll` stores in the table. -/
def poll (state : Fds) (revents : ℕ → BitVec 16) : Fds :=
  { state with fds := state.fds.mapIdx fun i e => { e with revents := revents i } }

end Fds

/-- What `read` into the buffer of `MAX_MESSAGE_LENGTH` bytes returned; no byte at all is the
end of the file. -/
inductive ReadResult where
  | error
  | bytes (readbuf : { b : Bytes // b.length ≤ maxMessageLength })

/-- What the kernel and the allocator answer to the calls made in one step. -/
structure Kernel where
  /-- The `revents` reported for each entry; `none` when `ppoll` returned -1. -/
  ppoll : Option (ℕ → BitVec 16)
  accept : ℤ
  read : ReadResult
  write : WriteOracle
  alloc : Bool
  /-- The outcome of the allocation of a second `q`. -/
  allocAgain : Bool

/-- What the handlers change, `opened` being the kernel's: the descriptors the server has. -/
structure World where
  fdstate : Fds
  mq : MessageQueue
  opened : List ℤ

/-- A client is unwatched, unregistered and closed. -/
def World.removeClient (w : World) (clientfd : ℤ) : World where
  fdstate := (w.fdstate.unwatch clientfd).2
  mq := (w.mq.unregisterClient clientfd).2
  opened := w.opened.filter (· ≠ clientfd)

/-- The last checks of `handle_client_event` on the result of `message_queue__q`. -/
def World.enqueued (w : World) (mqErr : ℤ) (mq : MessageQueue) : Except Fault (ℤ × World) :=
  if mqErr = mqerrAllocFail then .ok (-3, { w with mq := mq })
  else if mqErr = mqerrMessageTooLong then .error .exit
  else .ok (0, { w with mq := mq })

def handleClientEvent (event : Pollfd) (w : World) (k : Kernel) : Except Fault (ℤ × World) :=
  if event.reports pollin then
    match k.read with
    | .error => .ok (0, w.removeClient event.fd)
    | .bytes readbuf =>
      if readbuf.val = [] then .ok (0, w.removeClient event.fd)
      else do
        let (mqErr, mq) ← w.mq.q readbuf.val k.alloc
        if mqErr = mqerrNullPointer then .ok (-2, { w with mq := mq })
        else if mqErr = mqerrFull then do
          let (mqErr, mq) ← mq.dropSlowConsumers.q readbuf.val k.allocAgain
          if mqErr = mqerrFull then .ok (-55, { w with mq := mq })
          else w.enqueued mqErr mq
        else w.enqueued mqErr mq
  else if event.reports (pollhup ||| pollrdhup) then .ok (0, w.removeClient event.fd)
  else .ok (0, w)

/-- The descriptor `accept` returned, if it did, is open. -/
def World.opening (w : World) (fd : ℤ) : World :=
  { w with opened := if 0 ≤ fd then fd :: w.opened else w.opened }

/-- The branches for `POLLOUT` and for a hang-up only write to standard error. -/
def handleServerEvent (event : Pollfd) (w : World) (k : Kernel) : ℤ × World :=
  if event.reports (pollerr ||| pollnval) then (-1, w)
  else if event.reports pollin then
    let (rv, fdstate) := w.fdstate.watch k.accept
    if rv = -1 then (-2, w.opening k.accept)
    else
      let (rv, mq) := w.mq.registerClient k.accept k.alloc
      if rv = -1 then (-3, { w.opening k.accept with fdstate := fdstate })
      else (0, { w.opening k.accept with fdstate := fdstate, mq := mq })
  else (0, w)

/-- Where `poll_server_impl` is: before `ppoll`, before one of the calls of the two loops over
the table, or behind the `while`. -/
inductive Phase where
  | polling
  | serverEvent
  | clientEvents (i : ℕ)
  | flushes (i : ℕ)
  | stopped
  deriving DecidableEq, Repr

structure Server extends World where
  phase : Phase

namespace Server

/-- The state in which `poll_server_impl` enters its loop, for a queue of `c` slots and a
table of `capacity` entries, both allocated. -/
def start (c capacity : ℕ) (serverFd : ℤ) : Server where
  fdstate := ((Fds.mk capacity []).watch serverFd).2
  mq := MessageQueue.fresh c
  opened := [serverFd]
  phase := if ((Fds.mk capacity []).watch serverFd).1 = -1 then .stopped else .polling

/-- The next call of the event loop. After a timeout of `ppoll` the handlers run as well. -/
def step (s : Server) (k : Kernel) : Except Fault Server :=
  match s.phase with
  | .polling =>
    match k.ppoll with
    | none => .ok { s with phase := .stopped }
    | some revents => .ok { s with fdstate := s.fdstate.poll revents, phase := .serverEvent }
  | .serverEvent =>
    match s.fdstate.fds with
    | [] => .error .outOfRange
    | event :: _ =>
      let (rv, w) := handleServerEvent event s.toWorld k
      .ok ⟨w, if rv = -1 then .stopped else .clientEvents 1⟩
  | .clientEvents i =>
    match s.fdstate.fds[i]? with
    | none => .ok { s with phase := .flushes 1 }
    | some event => do
      let (_, w) ← handleClientEvent event s.toWorld k
      .ok ⟨w, .clientEvents (i + 1)⟩
  | .flushes i =>
    match s.fdstate.fds[i]? with
    | none => .ok { s with phase := .polling }
    | some event => do
      let (_, _, mq) ← s.mq.flush event.fd k.write
      .ok { s with mq := mq, phase := .flushes (i + 1) }
  | .stopped => .ok s

end Server

/-- `poll_server_impl`, with `MAX_NUM_OF_CLIENTS` slots and `DEFAULT_FDS_CAPACITY` entries. -/
def pollServerImpl (serverFd : ℤ) : Server := Server.start 64000 (64 * 1024) serverFd

end SysExploration
