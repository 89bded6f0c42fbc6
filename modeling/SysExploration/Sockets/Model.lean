import SysExploration.Library.Numerals
import SysExploration.Sds.Arguments
import SysExploration.Search.Fgrep

/-! How the three servers start: the port in the argument, the addresses for it and the socket
that listens there. -/
namespace SysExploration

def isDigit (c : UInt8) : Bool := 48 ≤ c ∧ c ≤ 57

/-- `strtol` with base 10: the number, cut down to a `long`, and what it has not read. -/
def strtol (arg : Bytes) : ℤ × Bytes :=
  let p := arg.dropWhile Sds.isspace
  let negative := p.head? = some 45
  let p := if p.head? = some 45 ∨ p.head? = some 43 then p.drop 1 else p
  let n : ℤ := readNumeral (p.takeWhile isDigit)
  if p.takeWhile isDigit = [] then (0, arg)
  else (max (-2 ^ 63) (min (if negative then -n else n) (2 ^ 63 - 1)), p.dropWhile isDigit)

/-- How the set-up of a server ends. -/
inductive SetupEnd where
  | exited (message : String)
  | returned (socketfd : ℤ)
  deriving DecidableEq, Repr

/-- What a server has got from the kernel and the resolver while it starts. -/
structure Sockets where
  /-- The number of addresses in the list of `getaddrinfo`, until it is freed. -/
  servinfo : Option ℕ
  opened : List ℤ
  /-- Descriptors with the places of their addresses in the list. -/
  bound : List (ℤ × ℕ)
  listening : List ℤ
  deriving DecidableEq, Repr

/-- The answers to a server that starts. -/
structure SetupKernel where
  getaddrinfo : Bytes → Option ℕ
  /-- The answer for each address in the list. -/
  socket : ℕ → ℤ
  bind : Bool
  listen : Bool

/-- `socket` returns -1 or a descriptor that is not open. -/
def SetupKernel.Fresh (k : SetupKernel) : Prop :=
  ∀ i, k.socket i = -1 ∨ 0 ≤ k.socket i ∧ ∀ j < i, k.socket j ≠ k.socket i

namespace Sockets

def start : Sockets := ⟨none, [], [], []⟩

/-- A list that has been freed may not be freed again. -/
def freeaddrinfo (s : Sockets) : Except Fault Sockets :=
  match s.servinfo with
  | none => .error .outOfRange
  | some _ => .ok { s with servinfo := none }

/-- `bind` reads the address from the list. -/
def bind (s : Sockets) (k : SetupKernel) (socketfd : ℤ) (validaddr : ℕ) :
    Except Fault (ℤ × Sockets) :=
  match s.servinfo with
  | none => .error .outOfRange
  | some n =>
    if n ≤ validaddr then .error .outOfRange
    else if k.bind then .ok (0, { s with bound := (socketfd, validaddr) :: s.bound })
    else .ok (-1, s)

/-- `listen`, and the end of the program if it fails. -/
def listen (s : Sockets) (k : SetupKernel) (socketfd : ℤ) : SetupEnd × Sockets :=
  if k.listen then (.returned socketfd, { s with listening := socketfd :: s.listening })
  else (.exited "listen", s)

/-- The loop over the addresses from place `i` on: the last answer of `socket`, and `validaddr`.
Descriptor 0 does not end it. -/
def socketLoop (socket : ℕ → ℤ) : (left i : ℕ) → ℤ → Sockets → ℤ × Option ℕ × Sockets
  | 0, _, socketfd, s => (socketfd, none, s)
  | left + 1, i, _, s =>
    let socketfd := socket i
    let s := if 0 ≤ socketfd then { s with opened := socketfd :: s.opened } else s
    if 0 < socketfd then (socketfd, some i, s) else socketLoop socket left (i + 1) socketfd s

/-- `get_tcp_server_socket` as far as both copies agree. -/
def boundSocket (noAddress : String) (k : SetupKernel) (service : Bytes) :
    Except Fault (SetupEnd × Sockets) :=
  match k.getaddrinfo service with
  | none => .ok (.exited "gai error", start)
  | some n =>
    match socketLoop k.socket n 0 (-1) { start with servinfo := some n } with
    | (_, none, s) => do
      let s ← s.freeaddrinfo
      .ok (.exited noAddress, s)
    | (socketfd, some validaddr, s) => do
      let (rv, s) ← s.bind k socketfd validaddr
      let s ← s.freeaddrinfo
      .ok (if rv = -1 then .exited "bind" else .returned socketfd, s)

/-- `get_tcp_server_socket` of the polling server. -/
def pollingSocket (k : SetupKernel) (service : Bytes) : Except Fault (SetupEnd × Sockets) := do
  let (e, s) ← boundSocket "failed to assign a valid address\n" k service
  match e with
  | .exited message => .ok (.exited message, s)
  | .returned socketfd => .ok (s.listen k socketfd)

/-- `get_tcp_server_socket` of the threaded server, and `listen` in its `server_loop`. -/
def pthreadsSocket (k : SetupKernel) (service : Bytes) : Except Fault (SetupEnd × Sockets) := do
  let (e, s) ← boundSocket "failed to assign a valid address" k service
  match e with
  | .exited message => .ok (.exited message, s)
  | .returned socketfd =>
    if socketfd < 0 then do
      -- the list is freed already
      let s ← s.freeaddrinfo
      .ok (.exited "socketfd < 0. Failed to socket() to valid address", s)
    else .ok (s.listen k socketfd)

/-- `server_loop` of the single-connection server up to its loop. -/
def singleSocket (k : SetupKernel) (service : Bytes) : Except Fault (SetupEnd × Sockets) :=
  match k.getaddrinfo service with
  | none => .ok (.exited "gai error", start)
  | some n =>
    let (socketfd, validaddr, s) :=
      socketLoop k.socket n 0 (-1) { start with servinfo := some n }
    if socketfd < 0 then do
      let s ← s.freeaddrinfo
      .ok (.exited "socket failed to connect", s)
    else
      match validaddr with
      | none => do
        let s ← s.freeaddrinfo
        .ok (.exited "failed to assign a valid address", s)
      | some validaddr => do
        let (rv, s) ← s.bind k socketfd validaddr
        if rv < 0 then do
          let s ← s.freeaddrinfo
          .ok (.exited "bind", s)
        else .ok (s.listen k socketfd)

end Sockets

/-- The programs that listen on a port. -/
inductive TcpServer where
  | polling | pthreads | single
  deriving DecidableEq, Repr

namespace TcpServer

/-- `main` of the polling server: what it passes to `get_tcp_server_socket`. -/
def pollingService : List CString → Except String Bytes
  | [] => .error "Usage: %s <port>>\n"
  | arg :: _ =>
    let (portno, endptr) := strtol arg.bytes
    if endptr ≠ [] ∨ portno ≤ 1024 ∨ portno ≥ 65535 then
      .error "Error: port number should be 1024 < port < 65535\n"
    else .ok arg.bytes

/-- `main` of the other two, and `snprintf` to `portno` in `server_loop`. -/
def numberedService (usage : String) : List CString → Except String Bytes
  | [arg] =>
    let port := (strtol arg.bytes).1
    if port = 0 then .error "strtoul: port number not converted to number"
    else if port < 1024 ∨ port > 65535 then
      .error "port number should be 1024 <= port <= 65535"
    else .ok ((numeral (toWord 16 port)).take 5)
  | _ => .error usage

/-- What `getaddrinfo` is asked for. -/
def service : TcpServer → List CString → Except String Bytes
  | polling => pollingService
  | pthreads => numberedService "Usage: ./%s <portno>\n"
  | single => numberedService "usage: ./tcp_single <port>"

def socket : TcpServer → SetupKernel → Bytes → Except Fault (SetupEnd × Sockets)
  | polling => Sockets.pollingSocket
  | pthreads => Sockets.pthreadsSocket
  | single => Sockets.singleSocket

/-- `main` until the server accepts connections. -/
def start (p : TcpServer) (k : SetupKernel) (args : List CString) :
    Except Fault (SetupEnd × Sockets) :=
  match p.service args with
  | .error message => .ok (.exited message, .start)
  | .ok service => p.socket k service

end TcpServer
end SysExploration
