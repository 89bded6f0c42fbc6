import SysExploration.Library.Runs
import SysExploration.Threads.Model

/-! Which thread owns what. Descriptors and addresses are used again once they are released, yet
every thread works on the connection it was started for, and on the block it was passed. -/
namespace SysExploration

/-- The block a thread still has to release. -/
def WorkerPhase.args : WorkerPhase → Option ℕ
  | .load a => some a
  | .free a _ => some a
  | _ => none

namespace Threaded

variable {client : ℕ → ℕ → UInt8} {s s' : Threaded} {w w' : Worker} {phase : WorkerPhase}
  {i : ℕ} {event : ThreadEvent} {events : List ThreadEvent} {answer : Option ℕ}

/-- The open descriptor names the connection. -/
def Names (s : Threaded) (fd : ℤ) (id : ℕ) : Prop := s.descriptors.lookup fd = some id

/-- A thread has the descriptor of its connection, at first by way of the block it was passed;
once it has returned its connection has none. -/
def Holds (s : Threaded) (w : Worker) : Prop :=
  match w.phase with
  | .load a => ∃ fd, s.heap.lookup a = some fd ∧ s.Names fd w.conn
  | .free a fd => s.heap.lookup a = some fd ∧ s.Names fd w.conn
  | .handle fd _ => s.Names fd w.conn
  | .returned _ => ∀ fd, ¬ s.Names fd w.conn

/-- The main thread has the descriptor of the last connection, until it has passed it on. -/
def MainHolds (s : Threaded) : Prop :=
  match s.main with
  | .accept => True
  | .malloc fd => s.Names fd (s.accepted - 1)
  | .pthreadCreate a fd => s.heap.lookup a = some fd ∧ s.Names fd (s.accepted - 1)
  | .close fd => s.Names fd (s.accepted - 1)

/-- Every block and every descriptor in use has one owner. -/
structure Owned (s : Threaded) : Prop where
  main : s.MainHolds
  workers : ∀ w ∈ s.workers, s.Holds w
  distinct : (s.workers.map Worker.conn).Nodup
  started : ∀ w ∈ s.workers, w.conn < s.accepted
  current : s.main ≠ .accept → 0 < s.accepted ∧ ∀ w ∈ s.workers, w.conn ≠ s.accepted - 1
  named : ∀ fd id, s.Names fd id → id < s.accepted
  injective : ∀ fd fd' id, s.Names fd id → s.Names fd' id → fd = fd'
  args : ∀ w ∈ s.workers, ∀ w' ∈ s.workers, ∀ a, w.phase.args = some a →
    w'.phase.args = some a → w.conn = w'.conn
  mainArgs : ∀ a fd, s.main = .pthreadCreate a fd → ∀ w ∈ s.workers, w.phase.args ≠ some a

theorem owned_start : Owned start := by
  constructor <;> simp [start, MainHolds, Names]

/-- A thread keeps what it has while its block and its descriptor stay as they are. -/
theorem Holds.frame (h : s.Holds w)
    (hheap : ∀ a, w.phase.args = some a → s'.heap.lookup a = s.heap.lookup a)
    (hnames : ∀ fd, s'.Names fd w.conn ↔ s.Names fd w.conn) : s'.Holds w := by
  unfold Holds at h ⊢
  cases hphase : w.phase with
  | load a =>
    rw [hphase] at h
    obtain ⟨fd, hload, hfd⟩ := h
    exact ⟨fd, (hheap a (by rw [hphase]; rfl)).trans hload, (hnames fd).mpr hfd⟩
  | free a fd =>
    rw [hphase] at h
    exact ⟨(hheap a (by rw [hphase]; rfl)).trans h.1, (hnames fd).mpr h.2⟩
  | handle fd hd =>
    rw [hphase] at h
    exact (hnames fd).mpr h
  | returned hd =>
    rw [hphase] at h
    exact fun fd hfd => h fd ((hnames fd).mp hfd)

/-- A thread's block is allocated. -/
theorem Holds.args_mem (h : s.Holds w) {a : ℕ} (ha : w.phase.args = some a) : a ∈ s.heap := by
  unfold Holds at h
  cases hphase : w.phase with
  | load b =>
    rw [hphase] at h ha
    cases ha
    obtain ⟨fd, hload, -⟩ := h
    exact Table.mem_of_lookup hload
  | free b fd =>
    rw [hphase] at h ha
    cases ha
    exact Table.mem_of_lookup h.1
  | handle fd hd =>
    rw [hphase] at ha
    cases ha
  | returned hd =>
    rw [hphase] at ha
    cases ha

/-- The threads after one of them has moved: that one, and the others as they were. -/
theorem mem_setWorker (h : Owned s) (hi : s.workers[i]? = some w)
    (hmem : w' ∈ (s.setWorker i w phase).workers) :
    w' = { w with phase := phase } ∨ w' ∈ s.workers ∧ w'.conn ≠ w.conn := by
  obtain ⟨j, hj⟩ := List.mem_iff_getElem?.mp hmem
  rw [setWorker, List.getElem?_set] at hj
  split_ifs at hj with he hlt
  · exact .inl (Option.some.inj hj).symm
  · refine .inr ⟨List.mem_of_getElem? hj, ?_⟩
    intro heq
    have hlt := (List.getElem?_eq_some_iff.mp hi).1
    have hconns : (s.workers.map Worker.conn)[i]? = (s.workers.map Worker.conn)[j]? := by
      rw [List.getElem?_map, List.getElem?_map, hi, hj, Option.map_some, Option.map_some, heq]
    exact he ((List.getElem?_inj (by simpa using hlt) h.distinct).mp hconns)

theorem conns_setWorker (hi : s.workers[i]? = some w) :
    (s.setWorker i w phase).workers.map Worker.conn = s.workers.map Worker.conn := by
  apply List.ext_getElem?
  intro j
  rw [setWorker, List.getElem?_map, List.getElem?_map, List.getElem?_set]
  split_ifs with he hlt
  · rw [← he, hi]
    rfl
  · exact absurd (List.getElem?_eq_some_iff.mp hi).1 hlt
  · rfl

/-- A move of one thread, which hands nothing to another one. -/
theorem Owned.setWorker (h : Owned s) (hi : s.workers[i]? = some w)
    (hworkers : s'.workers = (s.setWorker i w phase).workers) (hmain : s'.main = s.main)
    (haccepted : s'.accepted = s.accepted) (hholds : s'.Holds { w with phase := phase })
    (hheap : ∀ a, w.phase.args ≠ some a → s'.heap.lookup a = s.heap.lookup a)
    (hnames : ∀ fd id, id ≠ w.conn → (s'.Names fd id ↔ s.Names fd id))
    (hless : ∀ fd id, s'.Names fd id → s.Names fd id)
    (hargs : ∀ a, phase.args = some a → w.phase.args = some a) : Owned s' := by
  have hw : w ∈ s.workers := List.mem_of_getElem? hi
  have hmem {w' : Worker} (hw' : w' ∈ s'.workers) :
      w' = { w with phase := phase } ∨ w' ∈ s.workers ∧ w'.conn ≠ w.conn :=
    mem_setWorker h hi (hworkers ▸ hw')
  have hconns : s'.workers.map Worker.conn = s.workers.map Worker.conn := by
    rw [hworkers, conns_setWorker hi]
  have hconn {w' : Worker} (hw' : w' ∈ s'.workers) : ∃ v ∈ s.workers, v.conn = w'.conn ∧
      ∀ a, w'.phase.args = some a → v.phase.args = some a := by
    rcases hmem hw' with rfl | ⟨hold, -⟩
    · exact ⟨w, hw, rfl, hargs⟩
    · exact ⟨w', hold, rfl, fun _ ha => ha⟩
  have hcurrent (hne : s.main ≠ .accept) : s.accepted - 1 ≠ w.conn :=
    fun he => (h.current hne).2 w hw he.symm
  constructor
  · have hold := h.main
    unfold MainHolds at hold ⊢
    rw [hmain, haccepted]
    cases hphase : s.main with
    | accept => trivial
    | malloc fd =>
      rw [hphase] at hold
      exact (hnames fd _ (hcurrent (by simp [hphase]))).mpr hold
    | pthreadCreate a fd =>
      rw [hphase] at hold
      exact ⟨(hheap a (h.mainArgs a fd hphase w hw)).trans hold.1,
        (hnames fd _ (hcurrent (by simp [hphase]))).mpr hold.2⟩
    | close fd =>
      rw [hphase] at hold
      exact (hnames fd _ (hcurrent (by simp [hphase]))).mpr hold
  · intro w' hw'
    rcases hmem hw' with rfl | ⟨hold, hne⟩
    · exact hholds
    · apply (h.workers w' hold).frame
      · intro a ha
        apply hheap
        intro hwa
        exact hne (h.args w' hold w hw a ha hwa)
      · intro fd
        exact hnames fd w'.conn hne
  · rw [hconns]
    exact h.distinct
  · intro w' hw'
    obtain ⟨v, hv, hvw, -⟩ := hconn hw'
    rw [haccepted, ← hvw]
    exact h.started v hv
  · intro hne
    rw [hmain] at hne
    rw [haccepted]
    refine ⟨(h.current hne).1, ?_⟩
    intro w' hw'
    obtain ⟨v, hv, hvw, -⟩ := hconn hw'
    rw [← hvw]
    exact (h.current hne).2 v hv
  · intro fd id hfd
    rw [haccepted]
    exact h.named fd id (hless fd id hfd)
  · intro fd fd' id hfd hfd'
    exact h.injective fd fd' id (hless fd id hfd) (hless fd' id hfd')
  · intro w₁ hw₁ w₂ hw₂ a ha₁ ha₂
    obtain ⟨v₁, hv₁, hc₁, hva₁⟩ := hconn hw₁
    obtain ⟨v₂, hv₂, hc₂, hva₂⟩ := hconn hw₂
    rw [← hc₁, ← hc₂]
    exact h.args v₁ hv₁ v₂ hv₂ a (hva₁ a ha₁) (hva₂ a ha₂)
  · intro a fd hphase w' hw' ha
    rw [hmain] at hphase
    obtain ⟨v, hv, -, hva⟩ := hconn hw'
    exact h.mainArgs a fd hphase v hv (hva a ha)

theorem Owned.report (h : Owned s) (perrors : List String) :
    Owned { s with perrors := perrors } where
  main := h.main
  workers w hw := (h.workers w hw).frame (fun _ _ => rfl) fun _ => Iff.rfl
  distinct := h.distinct
  started := h.started
  current := h.current
  named := h.named
  injective := h.injective
  args := h.args
  mainArgs := h.mainArgs

/-- The main thread is done with a connection. -/
theorem Owned.idle (h : Owned s) (perrors : List String) :
    Owned { s with perrors := perrors, main := .accept } where
  main := trivial
  workers w hw := (h.workers w hw).frame (fun _ _ => rfl) fun _ => Iff.rfl
  distinct := h.distinct
  started := h.started
  current hne := absurd rfl hne
  named := h.named
  injective := h.injective
  args := h.args
  mainArgs _ _ hmain := by cases hmain

theorem Owned.accept (h : Owned s) {fd : ℤ} (hfresh : fd ∉ s.descriptors) :
    Owned { s with
      descriptors := s.descriptors.insert fd s.accepted
      accepted := s.accepted + 1
      main := .malloc fd } := by
  let t : Threaded := { s with
    descriptors := s.descriptors.insert fd s.accepted
    accepted := s.accepted + 1
    main := .malloc fd }
  have hnames (fd' : ℤ) (id : ℕ) : t.Names fd' id ↔ fd' = fd ∧ id = s.accepted ∨ s.Names fd' id :=
    Table.lookup_insert_iff hfresh
  have hold (fd' : ℤ) {id : ℕ} (hid : id < s.accepted) : t.Names fd' id ↔ s.Names fd' id := by
    rw [hnames]
    exact or_iff_right fun heq => absurd heq.2 (by omega)
  change Owned t
  constructor
  · exact (hnames fd _).mpr (.inl ⟨rfl, Nat.add_sub_cancel _ 1⟩)
  · intro w hw
    exact (h.workers w hw).frame (fun _ _ => rfl) fun fd' => hold fd' (h.started w hw)
  · exact h.distinct
  · exact fun w hw => Nat.lt_succ_of_lt (h.started w hw)
  · intro _
    refine ⟨Nat.succ_pos _, ?_⟩
    intro w hw
    have := h.started w hw
    simp only [t, Nat.add_sub_cancel]
    omega
  · intro fd' id hfd
    rcases (hnames fd' id).mp hfd with ⟨-, rfl⟩ | hfd
    · exact Nat.lt_succ_self _
    · exact Nat.lt_succ_of_lt (h.named fd' id hfd)
  · intro fd₁ fd₂ id h₁ h₂
    rcases (hnames fd₁ id).mp h₁ with ⟨rfl, rfl⟩ | h₁
    · rcases (hnames fd₂ _).mp h₂ with ⟨rfl, -⟩ | h₂
      · rfl
      · exact absurd (h.named fd₂ _ h₂) (Nat.lt_irrefl _)
    · have hid := h.named fd₁ id h₁
      exact h.injective fd₁ fd₂ id h₁ ((hold fd₂ hid).mp h₂)
  · exact h.args
  · intro a fd' hmain
    cases hmain

theorem Owned.malloc (h : Owned s) {fd : ℤ} (hmain : s.main = .malloc fd) {a : ℕ}
    (hfresh : a ∉ s.heap) :
    Owned { s with heap := s.heap.insert a fd, main := .pthreadCreate a fd } := by
  have hother {w : Worker} (hw : w ∈ s.workers) : w.phase.args ≠ some a :=
    fun ha => hfresh ((h.workers w hw).args_mem ha)
  have hmainHolds := h.main
  rw [MainHolds, hmain] at hmainHolds
  refine ⟨⟨AList.lookup_insert _, hmainHolds⟩, ?_, h.distinct, h.started, ?_, h.named,
    h.injective, h.args, ?_⟩
  · intro w hw
    refine (h.workers w hw).frame ?_ fun _ => Iff.rfl
    intro b hb
    apply AList.lookup_insert_ne
    rintro rfl
    exact hother hw hb
  · intro _
    exact h.current (by rw [hmain]; simp)
  · intro b fd' heq w hw
    cases heq
    exact hother hw

/-- The new thread gets what the main thread had. -/
theorem Owned.created (h : Owned s) {a : ℕ} {fd : ℤ} (hmain : s.main = .pthreadCreate a fd) :
    Owned { s with
      workers := s.workers ++ [⟨s.accepted - 1, .load a⟩], main := .accept } := by
  have hmainHolds := h.main
  rw [MainHolds, hmain] at hmainHolds
  obtain ⟨hpos, hcurrent⟩ := h.current (by rw [hmain]; simp)
  have hmem {w : Worker} (hw : w ∈ s.workers ++ [⟨s.accepted - 1, .load a⟩]) :
      w ∈ s.workers ∨ w = ⟨s.accepted - 1, .load a⟩ := by simpa using hw
  refine ⟨trivial, ?_, ?_, ?_, fun hne => absurd rfl hne, h.named, h.injective, ?_, ?_⟩
  · intro w hw
    rcases hmem hw with hw | rfl
    · exact (h.workers w hw).frame (fun _ _ => rfl) fun _ => Iff.rfl
    · exact ⟨fd, hmainHolds⟩
  · rw [List.map_append, List.map_singleton, List.nodup_append]
    refine ⟨h.distinct, List.nodup_cons.mpr ⟨List.not_mem_nil, List.nodup_nil⟩, ?_⟩
    intro id hid id' hid'
    obtain ⟨w, hw, rfl⟩ := List.mem_map.mp hid
    rw [List.mem_singleton.mp hid']
    exact hcurrent w hw
  · intro w hw
    rcases hmem hw with hw | rfl
    · exact h.started w hw
    · exact Nat.sub_lt hpos Nat.one_pos
  · intro w hw w' hw' b hb hb'
    have hnew {v : Worker} (hv : v ∈ s.workers) (hva : v.phase.args = some b) : a ≠ b := by
      rintro rfl
      exact h.mainArgs a fd hmain v hv hva
    rcases hmem hw with hw | rfl
    · rcases hmem hw' with hw' | rfl
      · exact h.args w hw w' hw' b hb hb'
      · exact absurd (Option.some.inj hb') (hnew hw hb)
    · rcases hmem hw' with hw' | rfl
      · exact absurd (Option.some.inj hb) (hnew hw' hb')
      · rfl
  · intro b fd' heq
    cases heq

/-- A thread could not be created: the main thread releases the block. -/
theorem Owned.notCreated (h : Owned s) {a : ℕ} {fd : ℤ} (hmain : s.main = .pthreadCreate a fd)
    (perrors : List String) :
    Owned { s with heap := s.heap.erase a, perrors := perrors, main := .close fd } := by
  have hmainHolds := h.main
  rw [MainHolds, hmain] at hmainHolds
  refine ⟨hmainHolds.2, ?_, h.distinct, h.started, ?_, h.named, h.injective, h.args, ?_⟩
  · intro w hw
    refine (h.workers w hw).frame ?_ fun _ => Iff.rfl
    intro b hb
    apply AList.lookup_erase_ne
    rintro rfl
    exact h.mainArgs b fd hmain w hw hb
  · intro _
    exact h.current (by rw [hmain]; simp)
  · intro b fd' heq
    cases heq

theorem Owned.close (h : Owned s) {fd : ℤ} (hmain : s.main = .close fd) :
    Owned { s with descriptors := s.descriptors.erase fd, main := .accept } := by
  have hfd := h.main
  rw [MainHolds, hmain] at hfd
  have hcurrent := (h.current (by rw [hmain]; simp)).2
  have hless {fd' : ℤ} {id : ℕ} (hn : (s.descriptors.erase fd).lookup fd' = some id) :
      fd' ≠ fd ∧ s.Names fd' id := Table.lookup_erase_iff.mp hn
  refine ⟨trivial, ?_, h.distinct, h.started, fun hne => absurd rfl hne, ?_, ?_, h.args, ?_⟩
  · intro w hw
    refine (h.workers w hw).frame (fun _ _ => rfl) ?_
    intro fd'
    refine Table.lookup_erase_iff.trans (and_iff_right_of_imp ?_)
    rintro hn rfl
    exact hcurrent w hw (Option.some.inj (hn.symm.trans hfd))
  · exact fun fd' id hn => h.named fd' id (hless hn).2
  · exact fun fd₁ fd₂ id h₁ h₂ => h.injective fd₁ fd₂ id (hless h₁).2 (hless h₂).2
  · intro b fd' heq
    cases heq

/-- What a call of a thread can do. -/
inductive WorkerMove (client : ℕ → ℕ → UInt8) (s : Threaded) (i : ℕ) (w : Worker) :
    Threaded → Prop
  | loaded {a : ℕ} {csockfd : ℤ} : w.phase = .load a → s.heap.lookup a = some csockfd →
      WorkerMove client s i w (s.setWorker i w (.free a csockfd))
  | freed {a : ℕ} {csockfd : ℤ} : w.phase = .free a csockfd → a ∈ s.heap →
      WorkerMove client s i w
        { s.setWorker i w (.handle csockfd .start) with heap := s.heap.erase a }
  | called {csockfd : ℤ} {h h' : Handler} {answer : Option ℕ} {peers : ℕ → Peer} :
      w.phase = .handle csockfd h →
      handlerCall client s.descriptors s.peers csockfd h answer = some (peers, h') →
      WorkerMove client s i w { s.setWorker i w (.handle csockfd h') with peers := peers }
  | closed {csockfd : ℤ} {h : Handler} : w.phase = .handle csockfd h → h.phase = .ended →
      WorkerMove client s i w
        { s.setWorker i w (.returned h) with descriptors := s.descriptors.erase csockfd }

/-- What a call can do. -/
inductive Move (client : ℕ → ℕ → UInt8) (s : Threaded) : ThreadEvent → Threaded → Prop
  | refused {fd : ℤ} (perrors : List String) : s.main = .accept →
      Move client s (.accept fd) { s with perrors := perrors }
  | accepted {fd : ℤ} : s.main = .accept → fd ≠ -1 → Move client s (.accept fd) { s with
      descriptors := s.descriptors.insert fd s.accepted
      accepted := s.accepted + 1
      main := .malloc fd }
  | abandoned {fd : ℤ} (perrors : List String) : s.main = .malloc fd →
      Move client s (.malloc none) { s with perrors := perrors, main := .accept }
  | malloced {fd : ℤ} {a : ℕ} : s.main = .malloc fd → Move client s (.malloc (some a)) { s with
      heap := s.heap.insert a fd, main := .pthreadCreate a fd }
  | created {a : ℕ} {fd : ℤ} : s.main = .pthreadCreate a fd →
      Move client s (.pthreadCreate true) { s with
        workers := s.workers ++ [⟨s.accepted - 1, .load a⟩], main := .accept }
  | notCreated {a : ℕ} {fd : ℤ} (perrors : List String) : s.main = .pthreadCreate a fd →
      a ∈ s.heap → Move client s (.pthreadCreate false) { s with
        heap := s.heap.erase a, perrors := perrors, main := .close fd }
  | closed {fd : ℤ} : s.main = .close fd → Move client s .close { s with
      descriptors := s.descriptors.erase fd, main := .accept }
  | worker {i : ℕ} {w : Worker} {answer : Option ℕ} {s' : Threaded} : s.workers[i]? = some w →
      WorkerMove client s i w s' → Move client s (.worker i answer) s'

theorem workerMove_of_call (h : workerCall client s i w answer = .ok (some s')) :
    WorkerMove client s i w s' := by
  unfold workerCall at h
  cases hphase : w.phase with
  | load a =>
    simp only [hphase] at h
    cases hload : s.heap.lookup a with
    | none =>
      rw [hload] at h
      cases h
    | some csockfd =>
      rw [hload] at h
      cases h
      exact .loaded hphase hload
  | free a csockfd =>
    simp only [hphase, freeArgs] at h
    by_cases hmem : a ∈ s.heap
    · rw [if_pos hmem] at h
      cases h
      exact .freed hphase hmem
    · rw [if_neg hmem] at h
      cases h
  | handle csockfd hd =>
    simp only [hphase] at h
    by_cases hended : hd.phase = .ended
    · rw [if_pos hended] at h
      cases h
      exact .closed hphase hended
    · rw [if_neg hended] at h
      cases hcall : handlerCall client s.descriptors s.peers csockfd hd answer with
      | none =>
        rw [hcall] at h
        cases h
      | some r =>
        rw [hcall] at h
        cases h
        exact .called hphase hcall
  | returned hd =>
    simp only [hphase] at h
    cases h

theorem move_of_call (h : s.call client event = .ok (some s')) : Move client s event s' := by
  unfold call at h
  cases event with
  | accept fd =>
    cases hmain : s.main with
    | accept =>
      simp only [hmain] at h
      split_ifs at h with hfd
      · cases h
        rw [← hmain]
        exact .refused _ hmain
      · cases h
        exact .accepted hmain hfd
    | _ =>
      simp only [hmain] at h
      cases h
  | malloc args =>
    cases hmain : s.main with
    | malloc fd =>
      simp only [hmain] at h
      cases args with
      | none =>
        cases h
        exact .abandoned _ hmain
      | some a =>
        cases h
        exact .malloced hmain
    | _ =>
      simp only [hmain] at h
      cases h
  | pthreadCreate created =>
    cases hmain : s.main with
    | pthreadCreate a fd =>
      simp only [hmain] at h
      cases created with
      | true =>
        cases h
        exact .created hmain
      | false =>
        by_cases hmem : a ∈ s.heap
        · simp only [freeArgs, if_pos hmem] at h
          cases h
          exact .notCreated _ hmain hmem
        · simp only [freeArgs, if_neg hmem] at h
          cases h
    | _ =>
      simp only [hmain] at h
      cases h
  | close =>
    cases hmain : s.main with
    | close fd =>
      simp only [hmain] at h
      cases h
      exact .closed hmain
    | _ =>
      simp only [hmain] at h
      cases h
  | worker i answer =>
    cases hi : s.workers[i]? with
    | none =>
      simp only [hi] at h
      cases h
    | some w =>
      simp only [hi] at h
      exact .worker hi (workerMove_of_call h)

theorem WorkerMove.owned (h : Owned s) (hi : s.workers[i]? = some w)
    (hmove : WorkerMove client s i w s') : Owned s' := by
  have hholds := h.workers w (List.mem_of_getElem? hi)
  unfold Holds at hholds
  cases hmove with
  | loaded hphase hload =>
    rw [hphase] at hholds
    obtain ⟨fd, hload', hnames⟩ := hholds
    rw [hload] at hload'
    cases hload'
    exact h.setWorker hi rfl rfl rfl ⟨hload, hnames⟩ (fun _ _ => rfl) (fun _ _ _ => Iff.rfl)
      (fun _ _ hn => hn) (by simp [hphase, WorkerPhase.args])
  | freed hphase hmem =>
    rw [hphase] at hholds
    refine h.setWorker hi rfl rfl rfl hholds.2 ?_ (fun _ _ _ => Iff.rfl) (fun _ _ hn => hn)
      (by simp [WorkerPhase.args])
    intro b hb
    apply AList.lookup_erase_ne
    rintro rfl
    exact hb (by rw [hphase]; rfl)
  | called hphase =>
    rw [hphase] at hholds
    exact h.setWorker hi rfl rfl rfl hholds (fun _ _ => rfl) (fun _ _ _ => Iff.rfl)
      (fun _ _ hn => hn) (by simp [WorkerPhase.args])
  | closed hphase hended =>
    rw [hphase] at hholds
    refine h.setWorker hi rfl rfl rfl ?_ (fun _ _ => rfl) ?_ ?_ (by simp [WorkerPhase.args])
    · intro fd hn
      obtain ⟨hne, hn⟩ := Table.lookup_erase_iff.mp hn
      exact hne (h.injective _ _ _ hn hholds)
    · intro fd id hne
      refine Table.lookup_erase_iff.trans (and_iff_right_of_imp ?_)
      rintro hn rfl
      exact hne (Option.some.inj (hn.symm.trans hholds))
    · exact fun fd id hn => (Table.lookup_erase_iff.mp hn).2

theorem Step.owned (h : Owned s) (hstep : Step client s event s') : Owned s' := by
  obtain ⟨hfresh, hcall⟩ := hstep
  cases move_of_call hcall with
  | refused perrors => exact h.report perrors
  | accepted _ hne => exact h.accept (hfresh.resolve_left hne)
  | abandoned perrors => exact h.idle perrors
  | malloced hmain => exact h.malloc hmain hfresh
  | created hmain => exact h.created hmain
  | notCreated perrors hmain => exact h.notCreated hmain perrors
  | closed hmain => exact h.close hmain
  | worker hi hmove => exact hmove.owned h hi

/-- No call reads or releases a block that is not allocated. -/
theorem Owned.call_returns (h : Owned s) (client : ℕ → ℕ → UInt8) (event : ThreadEvent) :
    ∃ out, s.call client event = .ok out := by
  unfold call
  cases event with
  | accept fd =>
    cases hmain : s.main with
    | accept =>
      simp only
      split_ifs
      · exact ⟨_, rfl⟩
      · exact ⟨_, rfl⟩
    | _ => exact ⟨_, rfl⟩
  | malloc args =>
    cases s.main with
    | malloc fd => cases args <;> exact ⟨_, rfl⟩
    | _ => exact ⟨_, rfl⟩
  | pthreadCreate created =>
    cases hmain : s.main with
    | pthreadCreate a fd =>
      cases created with
      | true => exact ⟨_, rfl⟩
      | false =>
        have hmainHolds := h.main
        rw [MainHolds, hmain] at hmainHolds
        simp only [freeArgs, if_pos (Table.mem_of_lookup hmainHolds.1)]
        exact ⟨_, rfl⟩
    | _ => exact ⟨_, rfl⟩
  | close => cases s.main <;> exact ⟨_, rfl⟩
  | worker i answer =>
    cases hi : s.workers[i]? with
    | none =>
      simp only [hi]
      exact ⟨_, rfl⟩
    | some w =>
      simp only [hi]
      have hholds := h.workers w (List.mem_of_getElem? hi)
      unfold Holds at hholds
      unfold workerCall
      cases hphase : w.phase with
      | load a =>
        rw [hphase] at hholds
        obtain ⟨fd, hload, -⟩ := hholds
        simp only [hload]
        exact ⟨_, rfl⟩
      | free a csockfd =>
        rw [hphase] at hholds
        simp only [freeArgs, if_pos (Table.mem_of_lookup hholds.1)]
        exact ⟨_, rfl⟩
      | handle csockfd hd =>
        dsimp only
        split_ifs
        · exact ⟨_, rfl⟩
        · exact ⟨_, rfl⟩
      | returned hd => exact ⟨_, rfl⟩

end Threaded
end SysExploration
