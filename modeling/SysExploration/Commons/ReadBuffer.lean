import SysExploration.Machine

/-! The growable byte buffer under the line stream. `w` is the number of bits of `size_t`;
pointers to the buffer are not `NULL`. -/
namespace SysExploration

structure ReadBuffer where
  data : Option Bytes
  capacity : ℕ
  length : ℕ
  offset : ℕ
  deriving DecidableEq, Repr

inductive ReadBufferErrorCode where
  | none | invalidArgument | allocationFailed | overflow | outOfRange
  deriving DecidableEq, Repr

structure ReadBufferResult where
  ok : Bool
  errorCode : ReadBufferErrorCode
  errorMessage : String
  deriving DecidableEq, Repr

def ReadBufferResult.success : ReadBufferResult := ⟨true, .none, ""⟩

def ReadBufferResult.failure (code : ReadBufferErrorCode) (message : String) : ReadBufferResult :=
  ⟨false, code, message⟩

/-- The `String` of the header: a cursor, as an index into `data`, and a size. -/
structure ReadView where
  cursor : Option ℕ
  size : ℕ
  deriving DecidableEq, Repr

/-- The `while` of `next_power_of_two`; `none` when it returns 0. -/
def nextPowerOfTwoLoop (w value : ℕ) : ℕ → ℕ → Except Fault (Option ℕ)
  | 0, _ => .error .endless
  | fuel + 1, capacity =>
    if capacity < value then
      if (2 ^ w - 1) / 2 < capacity then .ok none
      else nextPowerOfTwoLoop w value fuel (toWord w (capacity * 2 : ℕ))
    else .ok (some capacity)

/-- A power of two has at most `w` bits, so the loop has that many rounds or never ends. -/
def nextPowerOfTwo (w value : ℕ) : Except Fault (Option ℕ) :=
  if value = 0 then .ok (some 0) else nextPowerOfTwoLoop w value (w + 1) 1

namespace ReadBuffer

/-- `readbuffer__init`; the flag is the outcome of its `calloc`. -/
def init (initCapacity : ℕ) (calloc : Bool) (malloc : Malloc) : Option ReadBuffer :=
  if !calloc then none
  else if initCapacity ≠ 0 then
    match malloc with
    | none => none
    | some garbage => some ⟨some (block initCapacity garbage), initCapacity, 0, 0⟩
  else some ⟨none, initCapacity, 0, 0⟩

def getReadView (rb : ReadBuffer) : ReadView := ⟨rb.data.map fun _ => rb.offset, rb.length⟩

def getWriteCursor (rb : ReadBuffer) : Option ℕ := rb.data.map fun _ => rb.offset + rb.length

def getWriteCursorLimit (w : ℕ) (rb : ReadBuffer) : ℕ :=
  toWord w (rb.capacity - (rb.offset + rb.length))

/-- The `memcpy` of the view to the front of a new block, left out when the view is empty. -/
def copyView (rb : ReadBuffer) (newData : Bytes) : Except Fault (Option Bytes) :=
  if rb.length ≠ 0 then do
    let bytes ← loadBytes rb.data rb.offset rb.length
    storeBytes (some newData) 0 bytes
  else .ok (some newData)

/-- `readbuffer__assure`: nothing to do, a move to the front, or a larger block. -/
def assure (w : ℕ) (rb : ReadBuffer) (requestedSpace : ℕ) (malloc : Malloc) :
    Except Fault (ReadBufferResult × ReadBuffer) :=
  let trailingSpace := toWord w (rb.capacity - (rb.offset + rb.length))
  if requestedSpace ≤ trailingSpace then .ok (.success, rb)
  else
    let availableSpace := toWord w (rb.capacity - rb.length)
    if requestedSpace ≤ availableSpace then do
      let bytes ← loadBytes rb.data rb.offset rb.length
      let data ← storeBytes rb.data 0 bytes
      .ok (.success, { rb with data := data, offset := 0 })
    else if toWord w (2 ^ w - 1 - rb.length) < requestedSpace then
      .ok (.failure .overflow "requested capacity overflows", rb)
    else do
      let requiredCapacity := toWord w (rb.length + requestedSpace)
      match ← nextPowerOfTwo w requiredCapacity with
      | none => .ok (.failure .overflow "requested capacity overflows", rb)
      | some newCapacity =>
        match malloc with
        | none => .ok (.failure .allocationFailed "allocation failed", rb)
        | some garbage => do
          let newData ← rb.copyView (block newCapacity garbage)
          .ok (.success, { rb with data := newData, capacity := newCapacity, offset := 0 })

def commitWrite (w : ℕ) (rb : ReadBuffer) (bytesWritten : ℕ) : ReadBufferResult × ReadBuffer :=
  if rb.getWriteCursorLimit w < bytesWritten then
    (.failure .outOfRange "write exceeds assured space", rb)
  else (.success, { rb with length := toWord w (rb.length + bytesWritten) })

def consume (w : ℕ) (rb : ReadBuffer) (bytesConsumed : ℕ) : ReadBufferResult × ReadBuffer :=
  if rb.length < bytesConsumed then
    (.failure .outOfRange "consume exceeds readable bytes", rb)
  else
    let length := toWord w (rb.length - bytesConsumed)
    (.success, { rb with
      length := length
      offset := if length = 0 then 0 else toWord w (rb.offset + bytesConsumed) })

/-- The caller stores bytes at the write cursor. -/
def fill (rb : ReadBuffer) (bytes : Bytes) : Except Fault ReadBuffer :=
  match rb.getWriteCursor with
  | none => if bytes = [] then .ok rb else .error .outOfRange
  | some cursor => do
    let data ← storeBytes rb.data cursor bytes
    .ok { rb with data := data }

/-- The bytes under the read view. -/
def view (rb : ReadBuffer) : Bytes := slice (rb.data.getD []) rb.offset rb.length

end ReadBuffer
end SysExploration
