import SysExploration.Library.Runs
import SysExploration.Library.Transfers
import SysExploration.Machine

/-! The echo servers: one connection of the threaded server and one of the single-connection
server, and what of the client's bytes they send back. -/
namespace SysExploration

/-- The call on the client's socket that comes next. -/
inductive EchoPhase where
  | greeting
  | recv
  | send (bytesRecv : ℕ)
  | ended
  deriving DecidableEq, Repr

structure Echo where
  /-- How many bytes `recv` has returned. -/
  arrived : ℕ
  recvbuf : Bytes
  /-- The bytes the loop's `send` has taken; the greeting is not counted. -/
  sent : Bytes
  /-- What each `send` of the loop was offered and took. No call reads this record. -/
  exchanges : List Transfer
  /-- The calls `perror` reported. -/
  perrors : List String
  phase : EchoPhase
  deriving DecidableEq, Repr

namespace Echo

/-- `sizeof(recvbuf)` -/
def recvbufSize : ℕ := 4096

/-- The bytes received from a client that sends the bytes `client 0, client 1, ..`. -/
def received (client : ℕ → UInt8) (s : Echo) : Bytes := (List.range s.arrived).map client

/-- The zeroed buffer after `recv` has put the next bytes of the client there. -/
def fillRecvbuf (client : ℕ → UInt8) (s : Echo) (bytesRecv : ℕ) : Bytes :=
  overwrite (List.replicate recvbufSize 0) 0 ((List.range' s.arrived bytesRecv).map client)

def start (phase : EchoPhase) : Echo := ⟨0, [], [], [], [], phase⟩

/-- The loop of both servers, one system call at a time; `none` when it has ended. The answer
of a call is `none` for -1, and how many bytes it moves, as far as there are any; a `recv` of 0
bytes tells that the client has closed. A failed `send` leads to `afterFailure`. -/
def echoLoop (afterFailure : EchoPhase) (client : ℕ → UInt8) (s : Echo) (answer : Option ℕ) :
    Option Echo :=
  match s.phase, answer with
  | .recv, some n =>
    let bytesRecv := min n recvbufSize
    if bytesRecv = 0 then some { s with phase := .ended }
    else some { s with
      arrived := s.arrived + bytesRecv
      recvbuf := s.fillRecvbuf client bytesRecv
      phase := .send bytesRecv }
  | .recv, none => some { s with perrors := s.perrors ++ ["recv"], phase := .ended }
  | .send bytesRecv, some n =>
    let bytesSent := Transfer.upTo bytesRecv (max 1 n)
    some { s with
      sent := s.sent ++ s.recvbuf.take bytesSent.taken
      exchanges := s.exchanges ++ [bytesSent]
      phase := .recv }
  | .send bytesRecv, none => some { s with
      exchanges := s.exchanges ++ [.upTo bytesRecv 0]
      perrors := s.perrors ++ ["send"]
      phase := afterFailure }
  | _, _ => none

/-- `handle_client_request` returns when a `send` fails. -/
def handleClientRequest : (ℕ → UInt8) → Echo → Option ℕ → Option Echo := echoLoop .ended

/-- The part of `server_loop` that serves one client: the greeting, then the inner loop, which
goes on when a `send` fails. -/
def serverLoop (client : ℕ → UInt8) (s : Echo) (answer : Option ℕ) : Option Echo :=
  match s.phase, answer with
  | .greeting, some _ => some { s with phase := .recv }
  | .greeting, none => some { s with perrors := s.perrors ++ ["send"], phase := .recv }
  | _, _ => echoLoop .recv client s answer

end Echo

inductive EchoServer where
  | threaded
  | singleConnection

namespace EchoServer
open Echo

/-- The connection when its loop is entered. -/
def start : EchoServer → Echo
  | .threaded => Echo.start .recv
  | .singleConnection => Echo.start .greeting

def step : EchoServer → (ℕ → UInt8) → Echo → Option ℕ → Option Echo
  | .threaded => handleClientRequest
  | .singleConnection => serverLoop

def Steps (server : EchoServer) (client : ℕ → UInt8) (s : Echo) (answer : Option ℕ)
    (s' : Echo) : Prop := server.step client s answer = some s'

end EchoServer

namespace Echo
open Transfer

variable {client : ℕ → UInt8} {s s' t : Echo} {answer : Option ℕ} {server : EchoServer}

/-- What a call can do. -/
inductive Effect (client : ℕ → UInt8) (s : Echo) : Echo → Prop
  | moved (perrors : List String) (phase : EchoPhase) : (∀ n, s.phase ≠ .send n) →
      (∀ n, phase ≠ .send n) → Effect client s { s with perrors := perrors, phase := phase }
  | received (n : ℕ) : s.phase = .recv → Effect client s { s with
      arrived := s.arrived + n, recvbuf := s.fillRecvbuf client n, phase := .send n }
  | exchanged (n k : ℕ) (perrors : List String) (phase : EchoPhase) : s.phase = .send n →
      (∀ n, phase ≠ .send n) →
      Effect client s { s with
        sent := s.sent ++ s.recvbuf.take (upTo n k).taken
        exchanges := s.exchanges ++ [upTo n k]
        perrors := perrors
        phase := phase }

theorem effect_of_echoLoop {afterFailure : EchoPhase} (hafter : ∀ n, afterFailure ≠ .send n)
    (h : echoLoop afterFailure client s answer = some s') : Effect client s s' := by
  unfold echoLoop at h
  split at h
  · next n hphase =>
    dsimp only at h
    split_ifs at h with hclosed
    · cases h
      exact .moved s.perrors .ended (by simp [hphase]) (by simp)
    · cases h
      exact .received (min n recvbufSize) hphase
  · next hphase =>
    cases h
    exact .moved _ .ended (by simp [hphase]) (by simp)
  · next bytesRecv n hphase =>
    cases h
    exact .exchanged bytesRecv (max 1 n) s.perrors .recv hphase (by simp)
  · next bytesRecv hphase =>
    cases h
    have heffect : Effect client s _ :=
      .exchanged bytesRecv 0 (s.perrors ++ ["send"]) afterFailure hphase hafter
    simpa [upTo] using heffect
  · cases h

theorem effect_of_steps (h : server.Steps client s answer s') : Effect client s s' := by
  cases server with
  | threaded => exact effect_of_echoLoop (by simp) h
  | singleConnection =>
    change serverLoop client s answer = some s' at h
    unfold serverLoop at h
    split at h
    · next hphase =>
      cases h
      exact .moved s.perrors .recv (by simp [hphase]) (by simp)
    · next hphase =>
      cases h
      exact .moved _ .recv (by simp [hphase]) (by simp)
    · exact effect_of_echoLoop (by simp) h

/-- How many bytes of the buffer are to be sent. -/
def pending (s : Echo) : ℕ :=
  match s.phase with
  | .send bytesRecv => bytesRecv
  | _ => 0

theorem pending_of_send {n : ℕ} (h : s.phase = .send n) : s.pending = n := by
  rw [pending, h]

theorem pending_of_ne (h : ∀ n, s.phase ≠ .send n) : s.pending = 0 := by
  unfold pending
  split
  · next n hphase => exact absurd hphase (h n)
  · rfl

/-- The buffer holds the bytes received last, and what was sent is what the calls took. -/
structure Consistent (client : ℕ → UInt8) (s : Echo) : Prop where
  relayed : Relayed client s.arrived s.exchanges (s.recvbuf.take s.pending) s.sent
  length : (s.recvbuf.take s.pending).length = s.pending

theorem consistent_start {phase : EchoPhase} (h : ∀ n, phase ≠ .send n) :
    Consistent client (Echo.start phase) := by
  have hpending : (Echo.start phase).pending = 0 := pending_of_ne h
  constructor <;> rw [hpending]
  · exact .start client
  · rfl

theorem take_fillRecvbuf (client : ℕ → UInt8) (s : Echo) (n : ℕ) :
    (s.fillRecvbuf client n).take n = (List.range' s.arrived n).map client := by
  have hread := take_overwrite (List.replicate recvbufSize 0)
    ((List.range' s.arrived n).map client)
  rwa [List.length_map, List.length_range'] at hread

/-- Every call keeps what the connection says about the bytes. -/
theorem Effect.consistent (h : Consistent client s) (he : Effect client s s') :
    Consistent client s' := by
  obtain ⟨hrelayed, hlength⟩ := h
  cases he with
  | moved perrors phase hphase hphase' =>
    rw [pending_of_ne hphase] at hrelayed hlength
    constructor <;> rw [pending_of_ne hphase']
    · exact hrelayed
    · exact hlength
  | received n hphase =>
    have htake := take_fillRecvbuf client s n
    rw [pending_of_ne (by simp [hphase]), List.take_zero] at hrelayed
    constructor <;> rw [pending_of_send rfl, htake]
    · exact hrelayed.fetch n
    · rw [List.length_map, List.length_range']
  | exchanged n k perrors phase hphase hphase' =>
    rw [pending_of_send hphase] at hrelayed hlength
    have hoffer := hrelayed.offer (t := upTo n k) hlength.symm
    have hle : (upTo n k).taken ≤ n := (upTo n k).le
    rw [List.take_take, Nat.min_eq_left hle] at hoffer
    constructor <;> rw [pending_of_ne hphase']
    · exact hoffer
    · rfl

theorem consistent_of_run {answers : List (Option ℕ)}
    (hrun : Run (server.Steps client) server.start answers s) : Consistent client s := by
  apply hrun.invariant
  · cases server with
    | threaded => exact consistent_start (by simp)
    | singleConnection => exact consistent_start (by simp)
  · intro s answer s' h hstep
    exact (effect_of_steps hstep).consistent h

/-- Two connections at the same point, with clients that sent the same number of bytes. -/
structure Alike (s t : Echo) : Prop where
  phase : s.phase = t.phase
  arrived : s.arrived = t.arrived
  exchanges : s.exchanges = t.exchanges

/-- What the servers do does not depend on the bytes. -/
theorem alike_echoLoop {afterFailure : EchoPhase} (client' : ℕ → UInt8) (h : Alike s t)
    (hs : echoLoop afterFailure client s answer = some s') :
    ∃ t', echoLoop afterFailure client' t answer = some t' ∧ Alike s' t' := by
  obtain ⟨hphase, harrived, hexchanges⟩ := h
  unfold echoLoop at hs ⊢
  rw [← hphase]
  split at hs
  · next n hn =>
    dsimp only at hs ⊢
    split_ifs at hs ⊢ with hclosed
    · cases hs
      exact ⟨_, rfl, rfl, harrived, hexchanges⟩
    · cases hs
      exact ⟨_, rfl, rfl, by rw [harrived], hexchanges⟩
  · cases hs
    exact ⟨_, rfl, rfl, harrived, hexchanges⟩
  · cases hs
    exact ⟨_, rfl, rfl, harrived, by rw [hexchanges]⟩
  · cases hs
    exact ⟨_, rfl, rfl, harrived, by rw [hexchanges]⟩
  · cases hs

theorem alike_step (client' : ℕ → UInt8) (h : Alike s t) (hs : server.Steps client s answer s') :
    ∃ t', server.Steps client' t answer t' ∧ Alike s' t' := by
  cases server with
  | threaded => exact alike_echoLoop client' h hs
  | singleConnection =>
    change serverLoop client s answer = some s' at hs
    change ∃ t', serverLoop client' t answer = some t' ∧ Alike s' t'
    unfold serverLoop at hs ⊢
    rw [← h.phase]
    split at hs
    · cases hs
      exact ⟨_, rfl, rfl, h.arrived, h.exchanges⟩
    · cases hs
      exact ⟨_, rfl, rfl, h.arrived, h.exchanges⟩
    · exact alike_echoLoop client' h hs

end Echo

open Echo Transfer

/-- Given how much every `recv` and `send` moves, both servers send back a prefix of what they
have received, whatever the client sends, if and only if no `send` takes bytes after one that
took fewer than it was offered. -/
theorem echo_prefix_iff_gapless (server : EchoServer) {client : ℕ → UInt8}
    {answers : List (Option ℕ)} {s : Echo}
    (hrun : Run (server.Steps client) server.start answers s) :
    (∀ client' s', Run (server.Steps client') server.start answers s' →
      s'.sent <+: s'.received client') ↔ Gapless s.exchanges := by
  have hsame (client' : ℕ → UInt8) :
      ∃ t, Run (server.Steps client') server.start answers t ∧ Alike s t :=
    hrun.simulates ⟨rfl, rfl, rfl⟩ fun _ _ _ _ => alike_step client'
  choose conn hconn halike using hsame
  have hlast (client' : ℕ → UInt8) (s' : Echo)
      (h : Run (server.Steps client') server.start answers s') : s' = conn client' :=
    h.unique (fun _ _ _ _ ht ht' => Option.some.inj (ht.symm.trans ht')) (hconn client')
  have hsent (client' : ℕ → UInt8) :
      (conn client').sent = (takenFrom 0 s.exchanges).map client' := by
    rw [(halike client').exchanges]
    exact (consistent_of_run (hconn client')).relayed.sent_eq
  have : Nontrivial UInt8 := ⟨0, 1, by decide⟩
  rw [← forall_sent_prefix_iff hsent (consistent_of_run hrun).relayed.total_le]
  constructor
  · intro h client'
    rw [(halike client').arrived]
    exact h client' _ (hconn client')
  · intro h client' s' hrun'
    rw [hlast client' s' hrun', received, ← (halike client').arrived]
    exact h client'

/-- A client of the threaded server sends `abc`: one of the first two bytes is taken, and then
the third. -/
theorem echo_prefix_iff_gapless_abc :
    (∀ client' s', Run (EchoServer.threaded.Steps client') EchoServer.threaded.start
        [some 2, some 1, some 1, some 1] s' → s'.sent <+: s'.received client') ↔
      Gapless [⟨2, 1, by decide⟩, ⟨1, 1, by decide⟩] := by
  obtain ⟨s, hrun, hexchanges⟩ : ∃ s,
      Run (EchoServer.threaded.Steps fun i => UInt8.ofNat (97 + i)) EchoServer.threaded.start
        [some 2, some 1, some 1, some 1] s ∧
      s.exchanges = [⟨2, 1, by decide⟩, ⟨1, 1, by decide⟩] :=
    ⟨_, Run.of_foldlM_some rfl, rfl⟩
  rw [← hexchanges]
  exact echo_prefix_iff_gapless .threaded hrun

/-- There the client of either server gets `ac` back. -/
theorem echo_skips_byte :
    let abc : ℕ → UInt8 := fun i => UInt8.ofNat (97 + i)
    (∃ s, Run (EchoServer.threaded.Steps abc) EchoServer.threaded.start
        [some 2, some 1, some 1, some 1] s ∧
      s.sent = [97, 99] ∧ ¬ s.sent <+: s.received abc) ∧
    ∃ s, Run (EchoServer.singleConnection.Steps abc) EchoServer.singleConnection.start
        [some 6, some 2, some 1, some 1, some 1] s ∧
      s.sent = [97, 99] ∧ ¬ s.sent <+: s.received abc :=
  ⟨⟨_, Run.of_foldlM_some rfl, rfl, by decide⟩, ⟨_, Run.of_foldlM_some rfl, rfl, by decide⟩⟩

end SysExploration
