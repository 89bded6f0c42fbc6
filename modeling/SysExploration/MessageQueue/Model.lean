import Mathlib.Data.List.Basic
import SysExploration.Machine

/-! The broadcast queue of the polling chat server: a ring of message slots, and for each
client the index of the slot it has been flushed up to. -/
namespace SysExploration

/-- What a call hands back. -/
inductive Reply where
  | code (rc : ℤ)
  | string (s : Option Bytes)
  | void
  deriving DecidableEq, Repr

def maxMessageLength : ℕ := 512
def mqEmptySentinel : ℤ := -1
def mqerrFull : ℤ := -40
def mqerrMessageTooLong : ℤ := -41
def mqerrNullPointer : ℤ := -42
def mqerrAllocFail : ℤ := -43

/-- `sizeof(sds)`, the size of one slot. -/
def sizeofSds : ℕ := 8

structure MQClient where
  fd : ℤ
  roff : ℤ
  deriving DecidableEq, Repr

/-- A slot is `none` where the array holds `NULL`. -/
structure MessageQueue where
  capacity : ℕ
  messages : List (Option Bytes)
  start : ℤ
  end_ : ℤ
  clients : List MQClient
  deriving DecidableEq, Repr

/-- `sdsnewlen`; the flag is the outcome of its allocation. -/
def sdsnewlen (init : Bytes) (alloc : Bool) : Option Bytes := if alloc then some init else none

/-- What `sdsfree` releases, nothing when it is handed `NULL`. -/
def sdsfree (s : Option Bytes) : List Bytes := s.toList

/-- `sdsdup` reads the length header in front of its argument. -/
def sdsdup (s : Option Bytes) (alloc : Bool) : Except Fault (Option Bytes) :=
  match s with
  | none => .error .nullString
  | some s => .ok (sdsnewlen s alloc)

def loadSlot (messages : List (Option Bytes)) (i : ℤ) : Except Fault (Option Bytes) :=
  if 0 ≤ i then
    match messages[i.toNat]? with
    | some s => .ok s
    | none => .error .outOfRange
  else .error .outOfRange

def storeSlot (messages : List (Option Bytes)) (i : ℤ) (s : Option Bytes) :
    Except Fault (List (Option Bytes)) :=
  if 0 ≤ i ∧ i.toNat < messages.length then .ok (messages.set i.toNat s) else .error .outOfRange

namespace MessageQueue

/-- The queue `init` returns: `malloc(sizeof(sds) * capacity)` slots, all `NULL`. -/
def fresh (capacity : ℕ) : MessageQueue where
  capacity := capacity
  messages := List.replicate (toSize (sizeofSds * capacity) / sizeofSds) none
  start := mqEmptySentinel
  end_ := 0
  clients := []

/-- `message_queue__init`; the flags are the outcomes of its two allocations. -/
def init (capacity : ℕ) (allocQueue allocSlots : Bool) : Option MessageQueue :=
  if capacity = 0 then none
  else if !allocQueue then none
  else if !allocSlots then none
  else some (fresh capacity)

/-- `message_queue__q`. Pointers are not `NULL` here and below. -/
def q (mq : MessageQueue) (msg : Bytes) (alloc : Bool) : Except Fault (ℤ × MessageQueue) :=
  if mq.end_ = mq.start then .ok (mqerrFull, mq)
  else if maxMessageLength < msg.length then .ok (mqerrMessageTooLong, mq)
  else
    match sdsnewlen msg alloc with
    | none => .ok (mqerrAllocFail, mq)
    | some message => do
      let messages ← storeSlot mq.messages mq.end_ (some message)
      .ok (0, { mq with
        messages := messages
        start := if mq.start = mqEmptySentinel then 0 else mq.start
        end_ := (mq.end_ + 1).tmod (toSsize mq.capacity) })

def getLength (mq : MessageQueue) : ℕ :=
  if mq.start = mqEmptySentinel then 0
  else if mq.start < mq.end_ then toSize (mq.end_ - mq.start)
  else if mq.start = mq.end_ then mq.capacity
  else toSize (mq.capacity - mq.start + mq.end_)

/-- `message_queue__get` -/
def get (mq : MessageQueue) (index : ℕ) (alloc : Bool) : Except Fault (Option Bytes) :=
  if mq.start = mqEmptySentinel then .ok none
  else if mq.getLength ≤ index then .ok none
  else do
    let s ← loadSlot mq.messages (toSize (mq.start + index) % mq.capacity : ℕ)
    sdsdup s alloc

/-- `message_queue__dq` -/
def dq (mq : MessageQueue) (alloc : Bool) : Except Fault (Option Bytes × MessageQueue) :=
  if mq.start = mqEmptySentinel then .ok (none, mq)
  else do
    let message ← loadSlot mq.messages mq.start
    match ← sdsdup message alloc with
    | none => .ok (none, mq)
    | some rvm =>
      let messages ← storeSlot mq.messages mq.start none
      let start := (mq.start + 1).tmod (toSsize mq.capacity)
      .ok (some rvm, { mq with
        messages := messages
        start := if start = mq.end_ then mqEmptySentinel else start })

/-- The loop of `message_queue__free` from slot `start`, with the messages it releases. It stops
only on meeting `end`, so it either does so within `capacity` rounds or never. -/
def freeLoop (mq : MessageQueue) : ℕ → ℤ → Except Fault (List Bytes)
  | 0, _ => .error .endless
  | fuel + 1, start =>
    if start = mq.end_ then .ok []
    else do
      let message ← loadSlot mq.messages start
      let rest ← freeLoop mq fuel ((start + 1).tmod (toSsize mq.capacity))
      .ok (sdsfree message ++ rest)

/-- `message_queue__free`, with the messages it releases in order. -/
def free (mq : MessageQueue) : Except Fault (List Bytes) :=
  if mq.start = mqEmptySentinel then .ok [] else mq.freeLoop mq.capacity mq.start

/-- `message_queue__register_client`: the new client is inserted at the head of the list. -/
def registerClient (mq : MessageQueue) (clientfd : ℤ) (alloc : Bool) : ℤ × MessageQueue :=
  if !alloc then (-1, mq)
  else
    let roff := if mq.start = mqEmptySentinel then 0 else mq.start
    (0, { mq with clients := ⟨clientfd, roff⟩ :: mq.clients })

/-- `message_queue__unregister_client`: only the first entry of the fd is removed. -/
def unregisterClient (mq : MessageQueue) (clientfd : ℤ) : ℤ × MessageQueue :=
  if mq.clients.any (·.fd = clientfd) then
    (0, { mq with clients := mq.clients.eraseP (·.fd = clientfd) })
  else (-1, mq)

/-- One call `write(fd, messages[slot], sdslen(messages[slot]))` and the value it returned. -/
structure Write where
  slot : ℤ
  msg : Bytes
  ret : ℤ
  deriving DecidableEq, Repr

/-- What the kernel answers to the `k`-th `write` of a flush, given the bytes offered. -/
abbrev WriteOracle := ℕ → Bytes → ℤ

structure FlushRun where
  ret : ℤ
  roff : ℤ
  writes : List Write

/-- The loop of `__flush_client_messages` from slot `i`, with `k` writes behind it. It stops
only on meeting `end`, so it either does so within `capacity` rounds or never. -/
def flushLoop (mq : MessageQueue) (write : WriteOracle) : ℕ → ℤ → ℕ → Except Fault FlushRun
  | 0, _, _ => .error .endless
  | fuel + 1, i, k =>
    if i = mq.end_ then .ok ⟨0, mq.end_, []⟩
    else do
      match ← loadSlot mq.messages i with
      | none => flushLoop mq write fuel ((i + 1).tmod (toSsize mq.capacity)) k
      | some msg =>
        let n := write k msg
        if n < 0 then .ok ⟨-1, i, [⟨i, msg, n⟩]⟩
        else
          let rest ← flushLoop mq write fuel ((i + 1).tmod (toSsize mq.capacity)) (k + 1)
          .ok { rest with writes := ⟨i, msg, n⟩ :: rest.writes }

def flushClientMessages (mq : MessageQueue) (client : MQClient) (write : WriteOracle) :
    Except Fault FlushRun :=
  mq.flushLoop write mq.capacity client.roff 0

/-- The assignment `client->roff = roff` to the first entry of the fd. -/
def setRoff (clientfd roff : ℤ) : List MQClient → List MQClient
  | [] => []
  | cl :: rest =>
    if cl.fd = clientfd then { cl with roff := roff } :: rest else cl :: setRoff clientfd roff rest

/-- `message_queue__flush`, with the writes it makes. -/
def flush (mq : MessageQueue) (clientfd : ℤ) (write : WriteOracle) :
    Except Fault (ℤ × List Write × MessageQueue) :=
  if mq.getLength = 0 then .ok (0, [], mq)
  else
    match mq.clients.find? (·.fd = clientfd) with
    | none => .ok (-1, [], mq)
    | some client => do
      let run ← mq.flushClientMessages client write
      .ok (run.ret, run.writes, { mq with clients := setRoff clientfd run.roff mq.clients })

/-- `client_off`, the distance of the client's offset from `start`. -/
def clientOff (mq : MessageQueue) (client : MQClient) : ℕ :=
  toSize (mq.capacity + client.roff - mq.start) % mq.capacity

/-- `message_queue__drop_slow_consumers` -/
def dropSlowConsumers (mq : MessageQueue) : MessageQueue :=
  if mq.start = mqEmptySentinel then mq
  else if mq.getLength < toSize (mq.capacity * 8) / 10 then mq
  else
    let dropBeforeOffset := truncMul04 mq.capacity
    { mq with clients := mq.clients.filter fun cl => !decide (mq.clientOff cl < dropBeforeOffset) }

end MessageQueue
end SysExploration
