import SysExploration.Library.Tables
import SysExploration.Copying.Echo

/-! The single-connection server, which serves one client after the other. -/
namespace SysExploration

/-- Where `server_loop` is, with its `client_socketfd`. -/
inductive SinglePhase where
  | accept
  | serve (clientSocketfd : ℤ) (e : Echo)
  | exited
  deriving DecidableEq, Repr

/-- The process. Connections are numbered in the order in which they are accepted. -/
structure Single where
  phase : SinglePhase
  /-- The connection that each open descriptor names; the listening socket is left out. -/
  descriptors : Table ℤ ℕ
  /-- The connections the server is done with. No call reads this record. -/
  served : List (ℤ × Echo)

/-- A call and its outcome: `accept`, or the next `send` or `recv` on the client's socket. -/
inductive SingleEvent where
  | accept (clientSocketfd : ℤ)
  | answer (a : Option ℕ)
  deriving DecidableEq, Repr

namespace Single

def start : Single := ⟨.accept, ∅, []⟩

/-- One call, and the `close` behind it; `none` when it is not the next one. -/
def call (client : ℕ → ℕ → UInt8) (s : Single) : SingleEvent → Option Single
  | .accept fd =>
    match s.phase with
    | .accept =>
      if fd = -1 then some { s with phase := .exited }
      else some { s with
        phase := .serve fd (.start .greeting)
        descriptors := s.descriptors.insert fd s.served.length }
    | _ => none
  | .answer a =>
    match s.phase with
    | .serve fd e =>
      (Echo.serverLoop (client s.served.length) e a).map fun e =>
        if e.phase = .ended then
          { phase := .accept
            served := s.served ++ [(fd, e)]
            -- the `break` behind a failed `recv` closes nothing
            descriptors := if a = none then s.descriptors else s.descriptors.erase fd }
        else { s with phase := .serve fd e }
    | _ => none

/-- The kernel returns a descriptor that is not open, or -1. -/
def Fresh (s : Single) : SingleEvent → Prop
  | .accept fd => fd = -1 ∨ fd ∉ s.descriptors
  | .answer _ => True

def Step (client : ℕ → ℕ → UInt8) (s : Single) (event : SingleEvent) (s' : Single) : Prop :=
  s.Fresh event ∧ s.call client event = some s'

variable {client : ℕ → ℕ → UInt8} {s s' : Single} {event : SingleEvent}
  {events : List SingleEvent} {e e' : Echo} {a : Option ℕ} {fd : ℤ} {i : ℕ}

/-- The server reported a `recv` on this connection. -/
def Failed (e : Echo) : Prop := "recv" ∈ e.perrors

instance (e : Echo) : Decidable (Failed e) := inferInstanceAs (Decidable ("recv" ∈ e.perrors))

/-- A connection is left after a failed `recv` or when its client has closed it. -/
theorem serverLoop_failed {client : ℕ → UInt8} (h : Echo.serverLoop client e a = some e')
    (hgood : ¬ Failed e) : (e'.phase = .ended ∧ (Failed e' ↔ a = none)) ∨
      (e'.phase ≠ .ended ∧ ¬ Failed e') := by
  unfold Failed at hgood ⊢
  unfold Echo.serverLoop at h
  split at h
  · cases h
    exact .inr ⟨by simp, hgood⟩
  · cases h
    exact .inr ⟨by simp, by simpa using hgood⟩
  · unfold Echo.echoLoop at h
    split at h
    · dsimp only at h
      split_ifs at h
      · cases h
        exact .inl ⟨rfl, by simpa using hgood⟩
      · cases h
        exact .inr ⟨by simp, hgood⟩
    · cases h
      exact .inl ⟨rfl, by simp⟩
    · cases h
      exact .inr ⟨by simp, hgood⟩
    · cases h
      exact .inr ⟨by simp, by simpa using hgood⟩
    · cases h

/-- The descriptor of the connection that is served, and those that were not closed. -/
def Keeps (s : Single) (fd : ℤ) (i : ℕ) : Prop :=
  (∃ e, s.phase = .serve fd e ∧ i = s.served.length) ∨ ∃ e, s.served[i]? = some (fd, e) ∧ Failed e

/-- The number of connections that are served. -/
def active (s : Single) : ℕ :=
  match s.phase with
  | .serve _ _ => 1
  | _ => 0

/-- A connection that only a server for it alone could have brought where it is. -/
def Alone (client : ℕ → ℕ → UInt8) (i : ℕ) (e : Echo) : Prop :=
  ∃ answers, Run (EchoServer.singleConnection.Steps (client i)) EchoServer.singleConnection.start
    answers e

/-- Every connection is served alone, and the table holds the descriptors that are kept. -/
structure Serial (client : ℕ → ℕ → UInt8) (s : Single) : Prop where
  served : ∀ i fd e, s.served[i]? = some (fd, e) → e.phase = .ended ∧ Alone client i e
  current : ∀ fd e, s.phase = .serve fd e → ¬ Failed e ∧ Alone client s.served.length e
  names : ∀ fd i, s.descriptors.lookup fd = some i ↔ s.Keeps fd i
  count : s.descriptors.keys.length =
    s.active + s.served.countP fun c => Failed c.2

theorem serial_start : Serial client start := by
  constructor <;> simp [start, Keeps, active]

/-- What a call can do. -/
inductive Move (client : ℕ → ℕ → UInt8) (s : Single) : Single → Prop
  | refused : s.phase = .accept → Move client s { s with phase := .exited }
  | accepted {fd : ℤ} : s.phase = .accept → fd ∉ s.descriptors → Move client s { s with
      phase := .serve fd (.start .greeting)
      descriptors := s.descriptors.insert fd s.served.length }
  | continued {fd : ℤ} {e e' : Echo} {a : Option ℕ} : s.phase = .serve fd e →
      Echo.serverLoop (client s.served.length) e a = some e' → e'.phase ≠ .ended →
      Move client s { s with phase := .serve fd e' }
  | failed {fd : ℤ} {e e' : Echo} : s.phase = .serve fd e →
      Echo.serverLoop (client s.served.length) e none = some e' → e'.phase = .ended →
      Move client s { s with phase := .accept, served := s.served ++ [(fd, e')] }
  | closed {fd : ℤ} {e e' : Echo} {a : Option ℕ} : s.phase = .serve fd e →
      Echo.serverLoop (client s.served.length) e a = some e' → e'.phase = .ended → a ≠ none →
      Move client s
        ⟨.accept, s.descriptors.erase fd, s.served ++ [(fd, e')]⟩

theorem Step.move (h : Step client s event s') : Move client s s' := by
  obtain ⟨hfresh, hcall⟩ := h
  cases event with
  | accept fd =>
    simp only [call] at hcall
    split at hcall
    · next hphase =>
      split_ifs at hcall with hfd
      · cases hcall
        exact .refused hphase
      · cases hcall
        exact .accepted hphase (hfresh.resolve_left hfd)
    · cases hcall
  | answer a =>
    simp only [call] at hcall
    split at hcall
    · next fd e hphase =>
      obtain ⟨e', hstep, rfl⟩ := Option.map_eq_some_iff.mp hcall
      by_cases hended : e'.phase = .ended
      · rw [if_pos hended]
        by_cases ha : a = none
        · subst ha
          exact .failed hphase hstep hended
        · rw [if_neg ha]
          exact .closed hphase hstep hended ha
      · rw [if_neg hended]
        exact .continued hphase hstep hended
    · cases hcall

theorem Alone.step (h : Alone client i e) (hstep : Echo.serverLoop (client i) e a = some e') :
    Alone client i e' := by
  obtain ⟨answers, hrun⟩ := h
  exact ⟨answers ++ [a], hrun.snoc hstep⟩

theorem getElem?_concat_iff {α : Type} {l : List α} {x y : α} :
    (l ++ [x])[i]? = some y ↔ l[i]? = some y ∨ i = l.length ∧ x = y := by
  rcases Nat.lt_trichotomy i l.length with hlt | rfl | hgt
  · rw [List.getElem?_append_left hlt]
    simp [Nat.ne_of_lt hlt]
  · simp
  · have hout : l.length ≤ i := Nat.le_of_lt hgt
    simp [List.getElem?_append_right hout, List.getElem?_eq_none hout, Nat.ne_of_gt hgt,
      Nat.sub_ne_zero_of_lt hgt]

/-- A connection joins those the server is done with. -/
theorem Serial.served_concat (h : Serial client s) (hphase : s.phase = .serve fd e)
    (hstep : Echo.serverLoop (client s.served.length) e a = some e') (hended : e'.phase = .ended) :
    ∀ i fd' e'', (s.served ++ [(fd, e')])[i]? = some (fd', e'') →
      e''.phase = .ended ∧ Alone client i e'' := by
  intro i fd' e'' hget
  rcases getElem?_concat_iff.mp hget with hold | ⟨rfl, heq⟩
  · exact h.served i fd' e'' hold
  · cases heq
    exact ⟨hended, (h.current fd e hphase).2.step hstep⟩

theorem Move.serial (h : Serial client s) (hmove : Move client s s') : Serial client s' := by
  have hserved := h.served
  have hcurrent := h.current
  have hnames := h.names
  have hcount := h.count
  cases hmove with
  | refused hphase =>
    simp only [active, hphase] at hcount
    refine ⟨hserved, by simp, ?_, hcount⟩
    intro fd i
    rw [hnames, Keeps, Keeps, hphase]
    simp
  | @accepted fd hphase hfresh =>
    have hsize := Table.size_insert (x := s.served.length) hfresh
    simp only [active, hphase] at hcount
    refine ⟨hserved, ?_, ?_, ?_⟩
    · intro fd' e hserve
      cases hserve
      exact ⟨by simp [Failed, Echo.start], [], .nil⟩
    · intro fd' i
      rw [Table.lookup_insert_iff hfresh, hnames, Keeps, Keeps, hphase]
      simp [eq_comm]
    · simp only [active]
      omega
  | @continued fd e e' a hphase hstep hended =>
    simp only [active, hphase] at hcount
    obtain ⟨hgood, halone⟩ := hcurrent fd e hphase
    refine ⟨hserved, ?_, ?_, hcount⟩
    · intro fd' e'' hserve
      cases hserve
      rcases serverLoop_failed hstep hgood with ⟨hend, -⟩ | ⟨-, hgood'⟩
      · exact absurd hend hended
      · exact ⟨hgood', halone.step hstep⟩
    · intro fd' i
      rw [hnames, Keeps, Keeps, hphase]
      simp
  | @failed fd e e' hphase hstep hended =>
    have hbad : Failed e' := by
      rcases serverLoop_failed hstep (hcurrent fd e hphase).1 with ⟨-, hiff⟩ | ⟨hnot, -⟩
      · exact hiff.mpr rfl
      · exact absurd hended hnot
    simp only [active, hphase] at hcount
    refine ⟨h.served_concat hphase hstep hended, by simp, ?_, ?_⟩
    · intro fd' i
      rw [hnames, Keeps, Keeps, hphase]
      simp only [getElem?_concat_iff]
      constructor
      · rintro (⟨e₁, heq, rfl⟩ | ⟨e₁, hget, hf⟩)
        · cases heq
          exact .inr ⟨e', .inr ⟨rfl, rfl⟩, hbad⟩
        · exact .inr ⟨e₁, .inl hget, hf⟩
      · rintro (⟨e₁, heq, -⟩ | ⟨e₁, hget | ⟨rfl, heq⟩, hf⟩)
        · cases heq
        · exact .inr ⟨e₁, hget, hf⟩
        · cases heq
          exact .inl ⟨e, rfl, rfl⟩
    · simp only [active, List.countP_append, List.countP_singleton, hbad]
      simp only [decide_true, ↓reduceIte]
      omega
  | @closed fd e e' a hphase hstep hended ha =>
    have hgood : ¬ Failed e' := by
      rcases serverLoop_failed hstep (hcurrent fd e hphase).1 with ⟨-, hiff⟩ | ⟨hnot, -⟩
      · exact fun hbad => ha (hiff.mp hbad)
      · exact absurd hended hnot
    have hopen : s.descriptors.lookup fd = some s.served.length :=
      (hnames fd s.served.length).mpr (.inl ⟨e, hphase, rfl⟩)
    have hsize := Table.size_erase (Table.mem_of_lookup hopen)
    simp only [active, hphase] at hcount
    refine ⟨h.served_concat hphase hstep hended, by simp, ?_, ?_⟩
    · intro fd' i
      rw [Table.lookup_erase_iff, hnames, Keeps, Keeps, hphase]
      simp only [getElem?_concat_iff]
      constructor
      · rintro ⟨hne, ⟨e₁, heq, rfl⟩ | ⟨e₁, hget, hf⟩⟩
        · cases heq
          exact absurd rfl hne
        · exact .inr ⟨e₁, .inl hget, hf⟩
      · rintro (⟨e₁, heq, -⟩ | ⟨e₁, hget | ⟨rfl, heq⟩, hf⟩)
        · cases heq
        · refine ⟨?_, .inr ⟨e₁, hget, hf⟩⟩
          rintro rfl
          -- a descriptor names one connection
          have hold := (hnames fd' i).mpr (.inr ⟨e₁, hget, hf⟩)
          obtain rfl := Option.some.inj (hold.symm.trans hopen)
          simp at hget
        · cases heq
          exact absurd hf hgood
    · simp only [active, List.countP_append, List.countP_singleton, hgood]
      simp only [decide_false, Bool.false_eq_true, ↓reduceIte]
      omega

/-- The server brings every connection, in the order in which it accepts them, to where a server
for it alone could have brought it, and begins with the next one only when it has ended. The
descriptors it leaves open are those of the connections on which `recv` has failed. -/
theorem connections_served_in_turn (hrun : Run (Step client) start events s) :
    (∀ i fd e, s.served[i]? = some (fd, e) → e.phase = .ended ∧ Alone client i e) ∧
      (∀ fd e, s.phase = .serve fd e → Alone client s.served.length e) ∧
      (∀ fd i, s.descriptors.lookup fd = some i ↔ s.Keeps fd i) ∧
      s.descriptors.keys.length = s.active + s.served.countP fun c => Failed c.2 := by
  have h := hrun.invariant serial_start fun _ _ _ h hstep => hstep.move.serial h
  exact ⟨h.served, fun fd e hphase => (h.current fd e hphase).2, h.names, h.count⟩

/-- The call of the server, if the kernel may answer so. -/
def next (client : ℕ → ℕ → UInt8) (s : Single) (event : SingleEvent) : Option Single :=
  match event with
  | .accept fd => if fd = -1 ∨ fd ∉ s.descriptors then s.call client (.accept fd) else none
  | .answer a => s.call client (.answer a)

theorem step_of_next (h : s.next client event = some s') : Step client s event s' := by
  unfold next at h
  cases event with
  | accept fd =>
    dsimp only at h
    split_ifs at h with hfresh
    exact ⟨hfresh, h⟩
  | answer a => exact ⟨trivial, h⟩

/-- The first client sends three bytes and resets the connection; the second one closes it. -/
def twoClients : List SingleEvent :=
  [.accept 4, .answer (some 6), .answer (some 3), .answer (some 3), .answer none,
    .accept 5, .answer none, .answer (some 0), .accept 5]

/-- What the clients send. -/
def twoStreams (conn i : ℕ) : UInt8 := .ofNat (16 * conn + i)

theorem connections_served_in_turn_two : ∃ s, Run (Step twoStreams) start twoClients s ∧
    s.served.length = 2 ∧
    (∀ i fd e, s.served[i]? = some (fd, e) → e.phase = .ended ∧ Alone twoStreams i e) ∧
    (∀ fd e, s.phase = .serve fd e → Alone twoStreams s.served.length e) ∧
    (∀ fd i, s.descriptors.lookup fd = some i ↔ s.Keeps fd i) ∧
    s.descriptors.keys.length = s.active + s.served.countP fun c => Failed c.2 := by
  have hrun : Run (Step twoStreams) start twoClients _ :=
    (Run.of_foldlM_some (f := next twoStreams) rfl).mono fun _ _ _ => step_of_next
  exact ⟨_, hrun, rfl, connections_served_in_turn hrun⟩

end Single
end SysExploration
