import SysExploration.MessageQueue.Broadcast

/-! Which clients are dropped as slow. The client list may hold a descriptor more than once,
so what was delivered is recorded for each entry of the list, not for the descriptor. -/
namespace SysExploration
open MessageQueue

/-- The queue and its client list, each entry with the messages written for it since it was
registered. -/
structure Tracked where
  mq : MessageQueue
  record : List (MQClient × List Bytes)

namespace Tracked

/-- A flush moves the offset of the first entry of a descriptor and delivers messages to it. -/
def noteFlush (cl : MQClient) (msgs : List Bytes) :
    List (MQClient × List Bytes) → List (MQClient × List Bytes)
  | [] => []
  | p :: rest => if p.1.fd = cl.fd then (cl, p.2 ++ msgs) :: rest else p :: noteFlush cl msgs rest

def step (t : Tracked) : Call → Except Fault Tracked
  | .q msg alloc => (fun r => { t with mq := r.2 }) <$> t.mq.q msg alloc
  | .dq alloc => (fun r => { t with mq := r.2 }) <$> t.mq.dq alloc
  | .registerClient fd alloc =>
    let (rc, mq) := t.mq.registerClient fd alloc
    .ok ⟨mq, if rc = 0 then mq.clients.head?.toList.map (·, []) ++ t.record else t.record⟩
  | .unregisterClient fd =>
    .ok ⟨(t.mq.unregisterClient fd).2, t.record.eraseP (·.1.fd = fd)⟩
  | .flush fd write => do
    let (_, writes, mq) ← t.mq.flush fd write
    .ok ⟨mq, match mq.clients.find? (·.fd = fd) with
      | none => t.record
      | some cl => noteFlush cl ((successes writes).map Prod.snd) t.record⟩
  | .dropSlowConsumers =>
    .ok ⟨t.mq.dropSlowConsumers, t.record.filter fun p => p.1 ∈ t.mq.dropSlowConsumers.clients⟩

def fresh (c : ℕ) : Tracked := ⟨MessageQueue.fresh c, []⟩

/-- A call other than `dq`, which returns. -/
def FillStep (t : Tracked) (call : Call) (t' : Tracked) : Prop :=
  (∀ alloc, call ≠ .dq alloc) ∧ t.step call = .ok t'

variable {c : ℕ} {L : List Bytes} {t t' : Tracked} {cl : MQClient} {msgs : List Bytes}
  {record : List (MQClient × List Bytes)}

/-- The entry was sent the first `k` messages of the queue and its offset says so. -/
def Caught (c : ℕ) (L : List Bytes) (p : MQClient × List Bytes) : Prop :=
  ∃ k ≤ L.length, p.1.roff = (k % c : ℕ) ∧ p.2 = L.take k

structure Tracking (c : ℕ) (L : List Bytes) (t : Tracked) : Prop where
  holds : t.mq.Holds c 0 L
  clients : t.record.map Prod.fst = t.mq.clients
  caught : ∀ p ∈ t.record, Caught c L p

theorem Caught.concat {p : MQClient × List Bytes} (h : Caught c L p) (m : Bytes) :
    Caught c (L ++ [m]) p := by
  obtain ⟨k, hk, hroff, hsent⟩ := h
  refine ⟨k, ?_, hroff, ?_⟩
  · rw [List.length_append]
    exact Nat.le_add_right_of_le hk
  · rw [List.take_append_of_le_length hk]
    exact hsent

theorem noteFlush_fst (cl : MQClient) (msgs : List Bytes)
    (record : List (MQClient × List Bytes)) :
    (noteFlush cl msgs record).map Prod.fst = setRoff cl.fd cl.roff (record.map Prod.fst) := by
  induction record with
  | nil => rfl
  | cons p rest ih =>
    rw [noteFlush, List.map_cons, setRoff]
    split_ifs with hfd
    · rw [List.map_cons, hfd]
    · rw [List.map_cons, ih]

theorem mem_noteFlush {p : MQClient × List Bytes} (h : p ∈ noteFlush cl msgs record) :
    p ∈ record ∨ ∃ p₀, record.find? (·.1.fd = cl.fd) = some p₀ ∧ p = (cl, p₀.2 ++ msgs) := by
  induction record with
  | nil => cases h
  | cons head rest ih =>
    rw [noteFlush] at h
    split_ifs at h with hfd
    · rcases List.mem_cons.mp h with rfl | hmem
      · exact .inr ⟨head, List.find?_cons_of_pos (by simpa using hfd), rfl⟩
      · exact .inl (List.mem_cons_of_mem _ hmem)
    · rcases List.mem_cons.mp h with rfl | hmem
      · exact .inl List.mem_cons_self
      · rcases ih hmem with hold | ⟨p₀, hfind, heq⟩
        · exact .inl (List.mem_cons_of_mem _ hold)
        · rw [List.find?_cons_of_neg (by simpa using hfd)]
          exact .inr ⟨p₀, hfind, heq⟩

end Tracked

theorem MessageQueue.find_setRoff {fd roff : ℤ} {clients : List MQClient} {client : MQClient}
    (h : clients.find? (·.fd = fd) = some client) :
    (setRoff fd roff clients).find? (·.fd = fd) = some { client with roff := roff } := by
  induction clients with
  | nil => cases h
  | cons head rest ih =>
    rw [setRoff]
    by_cases hfd : head.fd = fd
    · rw [List.find?_cons_of_pos (by simpa using hfd)] at h
      cases h
      rw [if_pos hfd, List.find?_cons_of_pos (by simpa using hfd)]
    · rw [List.find?_cons_of_neg (by simpa using hfd)] at h
      rw [if_neg hfd, List.find?_cons_of_neg (by simpa using hfd)]
      exact ih h

theorem MessageQueue.unregisterClient_clients (mq : MessageQueue) (fd : ℤ) :
    (mq.unregisterClient fd).2.clients = mq.clients.eraseP (·.fd = fd) := by
  unfold unregisterClient
  split_ifs with hany
  · rfl
  · apply Eq.symm
    apply List.eraseP_of_forall_not
    simpa using hany

/-- The clients that are not dropped. -/
def MessageQueue.keeps (mq : MessageQueue) (cl : MQClient) : Bool :=
  mq.start = mqEmptySentinel || mq.getLength < toSize (mq.capacity * 8) / 10 ||
    !decide (mq.clientOff cl < truncMul04 mq.capacity)

theorem MessageQueue.dropSlowConsumers_keeps (mq : MessageQueue) :
    mq.dropSlowConsumers = { mq with clients := mq.clients.filter mq.keeps } := by
  have hall (h : ∀ cl, mq.keeps cl = true) : mq.clients.filter mq.keeps = mq.clients :=
    List.filter_eq_self.mpr fun cl _ => h cl
  unfold dropSlowConsumers
  split_ifs with hempty hshort
  · rw [hall fun cl => by simp [keeps, hempty]]
  · rw [hall fun cl => by simp [keeps, hshort]]
  · have hkeeps : mq.keeps =
        fun cl => !decide (mq.clientOff cl < truncMul04 mq.capacity) := by
      funext cl
      simp [keeps, hempty, hshort]
    rw [hkeeps]

theorem MessageQueue.setRoff_self {fd : ℤ} {clients : List MQClient} {client : MQClient}
    (h : clients.find? (·.fd = fd) = some client) : setRoff fd client.roff clients = clients := by
  induction clients with
  | nil => cases h
  | cons head rest ih =>
    rw [setRoff]
    by_cases hfd : head.fd = fd
    · rw [List.find?_cons_of_pos (by simpa using hfd)] at h
      cases h
      exact if_pos hfd
    · rw [List.find?_cons_of_neg (by simpa using hfd)] at h
      rw [if_neg hfd, ih h]

namespace Tracked

variable {c : ℕ} {L : List Bytes} {t t' : Tracked}

/-- A flush of the first entry of a descriptor. -/
theorem Tracking.note (h : Tracking c L t) {fd roff : ℤ} {client : MQClient} {msgs : List Bytes}
    (hfind : t.mq.clients.find? (·.fd = fd) = some client)
    (hcaught : ∀ sent, Caught c L (client, sent) →
      Caught c L ({ client with roff := roff }, sent ++ msgs)) :
    Tracking c L ⟨{ t.mq with clients := setRoff fd roff t.mq.clients },
      noteFlush { client with roff := roff } msgs t.record⟩ := by
  have hfd : client.fd = fd := by simpa using List.find?_some hfind
  constructor
  · exact h.holds.withClients _
  · rw [noteFlush_fst, h.clients, hfd]
  · intro p hp
    rcases mem_noteFlush hp with hold | ⟨p₀, hfirst, rfl⟩
    · exact h.caught p hold
    · have hclient : p₀.1 = client := by
        rw [← h.clients, List.find?_map] at hfind
        simp only [hfd] at hfirst
        simp only [Function.comp_def, hfirst, Option.map_some] at hfind
        exact Option.some.inj hfind
      apply hcaught
      rw [← hclient]
      exact h.caught p₀ (List.mem_of_find?_eq_some hfirst)

/-- A flush that writes nothing. -/
theorem Tracking.note_nil (h : Tracking c L t) (fd : ℤ) :
    Tracking c L ⟨t.mq, match t.mq.clients.find? (·.fd = fd) with
      | none => t.record
      | some cl => noteFlush cl [] t.record⟩ := by
  cases hfind : t.mq.clients.find? (·.fd = fd) with
  | none => exact h
  | some client =>
    have hnote : Tracking c L ⟨{ t.mq with clients := setRoff fd client.roff t.mq.clients },
        noteFlush client [] t.record⟩ := by
      apply h.note hfind
      intro sent hsent
      rw [List.append_nil]
      exact hsent
    rw [setRoff_self hfind] at hnote
    exact hnote

/-- What the walk of the flush loop delivers to an entry that was sent `k` messages: the next
ones, unless the ring is full and `k` is 0, for then the walk is empty. -/
theorem Caught.flushed (hc : CapacityOk c) (h : t.mq.Holds c 0 L) {client : MQClient}
    {sent : List Bytes} (hcaught : Caught c L (client, sent)) (write : WriteOracle) :
    ∃ run, t.mq.flushClientMessages client write = .ok run ∧
      Caught c L ({ client with roff := run.roff },
        sent ++ (successes run.writes).map Prod.snd) := by
  obtain ⟨k, hk, hroff, rfl⟩ := hcaught
  have hbound := h.slots.bound
  have hlag := Session.lagSlots_zero hc hk hbound
  refine ⟨_, h.flushClientMessages_eq hc write (by omega) hroff, ?_⟩
  obtain ⟨j, hj, hsucc, hout⟩ := offer_spec write 0 (pending c 0 L k)
  have hlen : (pending c 0 L k).length = L.length - (L.length - lagSlots c 0 L k) := by
    rw [pending, List.length_drop, Ring.length_entries]
  have hsent : (successes (offer write 0 (pending c 0 L k)).1).map Prod.snd =
      (L.drop (L.length - lagSlots c 0 L k)).take j := by
    have hentries : (Ring.entries c 0 L).map Prod.snd = L := Ring.map_snd_entries
    have hmap := congrArg (fun M => (M.drop (L.length - lagSlots c 0 L k)).take j) hentries
    simp only [← List.map_drop, ← List.map_take] at hmap
    rw [hsucc, List.map_map]
    exact hmap
  have hstop : (flushRun t.mq.end_ (offer write 0 (pending c 0 L k))).roff =
      ((L.length - lagSlots c 0 L k + j) % c : ℕ) := by
    rcases hout with ⟨hnone, hall⟩ | ⟨hlt, hsome⟩
    · rw [show L.length - lagSlots c 0 L k + j = L.length by omega]
      simp [flushRun, hnone, h.end_eq]
    · simp only [flushRun, hsome]
      simp [pending, Ring.entries]
  rw [flushRun_writes, hsent]
  split_ifs at hlag with hlap
  · obtain ⟨rfl, hfull⟩ := hlap
    obtain rfl : j = 0 := by omega
    refine ⟨0, Nat.zero_le _, ?_, rfl⟩
    rw [hstop, hlag, hfull, Nat.sub_zero, Nat.add_zero, Nat.mod_self, Nat.zero_mod]
  · rw [show L.length - lagSlots c 0 L k = k by omega] at hstop ⊢
    exact ⟨k + j, by omega, hstop, by rw [← List.take_add]⟩

theorem Tracking.flushed (hc : CapacityOk c) (h : Tracking c L t) {fd : ℤ} {write : WriteOracle}
    (hstep : t.step (.flush fd write) = .ok t') : Tracking c L t' := by
  by_cases hL : L = []
  · have hflush : t.mq.flush fd write = .ok (0, [], t.mq) := (hL ▸ h.holds).flush_nil hc fd
    simp only [step, hflush] at hstep
    cases hstep
    exact h.note_nil fd
  by_cases hfd : fd ∈ t.mq.clients.map MQClient.fd
  · obtain ⟨client, hfind, hmem, hclient⟩ := find_client hfd
    obtain ⟨p, hp, rfl⟩ := List.mem_map.mp (h.clients ▸ hmem)
    obtain ⟨run, hrun, -⟩ := (h.caught p hp).flushed hc h.holds write
    simp only [step, h.holds.flush_eq hc hL hfind hrun, bind, Except.bind, find_setRoff hfind]
      at hstep
    cases hstep
    apply h.note hfind
    intro sent hsent
    obtain ⟨run', hrun', hcaught⟩ := hsent.flushed hc h.holds write
    rw [hrun] at hrun'
    cases hrun'
    exact hcaught
  · obtain ⟨rc, hflush⟩ := h.holds.flush_unregistered hc write hfd
    simp only [step, hflush] at hstep
    cases hstep
    exact h.note_nil fd

/-- Entries with equal descriptor and offset are kept or dropped together. -/
theorem Tracking.record_drop (h : Tracking c L t) :
    t.record.filter (fun p => p.1 ∈ t.mq.dropSlowConsumers.clients) =
      t.record.filter (fun p => t.mq.keeps p.1) := by
  apply List.filter_congr
  intro p hp
  have hmem : p.1 ∈ t.mq.clients := h.clients ▸ List.mem_map_of_mem hp
  simp [dropSlowConsumers_keeps, hmem]

theorem FillStep.tracking (hc : CapacityOk c) (h : Tracking c L t) {call : Call}
    (hstep : FillStep t call t') : ∃ L', Tracking c L' t' := by
  obtain ⟨hdq, hs⟩ := hstep
  cases call with
  | q msg alloc =>
    rcases h.holds.q_cases hc msg alloc fun _ => Nat.zero_mod c with
      ⟨rc, -, hq⟩ | ⟨mq', hq, -, hmq', hcl⟩
    · simp only [step, hq] at hs
      cases hs
      exact ⟨L, h⟩
    · simp only [step, hq] at hs
      cases hs
      exact ⟨L ++ [msg], hmq', h.clients.trans hcl.symm, fun p hp => (h.caught p hp).concat msg⟩
  | dq alloc => exact absurd rfl (hdq alloc)
  | registerClient fd alloc =>
    cases alloc with
    | false =>
      cases hs
      exact ⟨L, h⟩
    | true =>
      cases hs
      refine ⟨L, h.holds.withClients _, congrArg _ h.clients, ?_⟩
      intro p hp
      rcases List.mem_cons.mp hp with rfl | hold
      · refine ⟨0, Nat.zero_le _, ?_, rfl⟩
        have hstart := h.holds.start_eq
        rw [Nat.zero_mod] at hstart ⊢
        change (if t.mq.start = mqEmptySentinel then (0 : ℤ) else t.mq.start) = _
        split_ifs at hstart ⊢ with hsentinel
        · rfl
        · rfl
        · exact absurd hstart hsentinel
        · exact hstart
      · exact h.caught p hold
  | unregisterClient fd =>
    cases hs
    obtain ⟨clients, -, hmq⟩ := unregisterClient_eq t.mq fd
    refine ⟨L, hmq ▸ h.holds.withClients clients, ?_, ?_⟩
    · rw [unregisterClient_clients, ← h.clients, List.eraseP_map]
      rfl
    · intro p hp
      exact h.caught p (List.mem_of_mem_eraseP hp)
  | flush fd write => exact ⟨L, h.flushed hc hs⟩
  | dropSlowConsumers =>
    cases hs
    refine ⟨L, ?_, ?_, ?_⟩
    · rw [dropSlowConsumers_keeps]
      exact h.holds.withClients _
    · rw [h.record_drop, dropSlowConsumers_keeps, ← h.clients, List.filter_map]
      rfl
    · intro p hp
      exact h.caught p (List.mem_filter.mp hp).1

theorem tracking_fresh (hc : CapacityOk c) : Tracking c [] (fresh c) :=
  ⟨holds_fresh hc, rfl, nofun⟩

theorem Tracking.of_run (hc : CapacityOk c) {calls : List Call}
    (hrun : Run FillStep (fresh c) calls t) : ∃ L, Tracking c L t :=
  hrun.invariant (I := fun t => ∃ L, Tracking c L t) ⟨[], tracking_fresh hc⟩ fun _ _ _ h hstep => by
    obtain ⟨L, h⟩ := h
    exact hstep.tracking hc h

/-- The code drops by the distance of the offset from `start`, which is 0 both for an entry
that was sent nothing and for one that was sent all of a full ring. -/
theorem keeps_iff (hc : CapacityOk c) (hexact : truncMul04 c = 2 * c / 5) {mq : MessageQueue}
    (h : mq.Holds c 0 L) {cl : MQClient} {k : ℕ} (hroff : cl.roff = (k % c : ℕ)) :
    mq.keeps cl = true ↔ L.length < 8 * c / 10 ∨ 2 * c / 5 ≤ k % c := by
  have hpos := hc.pos
  have hfit := hc.fits
  unfold sizeofSds at hfit
  have hmod : k % c < c := Nat.mod_lt k hpos
  by_cases hL : L = []
  · subst hL
    apply iff_of_true (by simp [keeps, h.start_nil])
    rw [List.length_nil]
    omega
  have hsize : toSize (c * 8) = 8 * c := by
    have hsize := toSize_of_lt hfit
    rw [← hsize, Nat.mul_comm]
    push_cast
    rfl
  have hstart : mq.start = 0 := by
    rw [h.start_of_ne hL, Nat.zero_mod]
    rfl
  have hoff : mq.clientOff cl = k % c := by
    have hsum : c + k % c < 2 ^ 64 := by omega
    have hsum' := toSize_of_lt hsum
    push_cast at hsum'
    rw [clientOff, h.capacity, hroff, hstart, sub_zero]
    push_cast
    rw [hsum', Nat.add_mod_left, Nat.mod_mod]
  simp only [keeps, hstart, mqEmptySentinel, h.getLength_eq hc, h.capacity, hsize, hoff, hexact]
  simp

/-- The queue holds at least `8c/10` messages, of which the entry was sent fewer than `2c/5`. -/
def Lags (c : ℕ) (t : Tracked) (p : MQClient × List Bytes) : Prop :=
  8 * c / 10 ≤ t.mq.contents.length ∧ p.2.length < 2 * c / 5

instance (c : ℕ) (t : Tracked) (p : MQClient × List Bytes) : Decidable (t.Lags c p) :=
  inferInstanceAs (Decidable (_ ∧ _))

/-- The entries that lag are removed, those that do not stay in order, and the ring and the
offsets do not change. In particular an entry that was sent the whole queue stays, and with an
entry go all that were not sent more. -/
structure KicksLaggards (c : ℕ) (t t' : Tracked) : Prop where
  kicked : t'.record = t.record.filter fun p => ¬ t.Lags c p
  ring : t'.mq = { t.mq with clients := t'.record.map Prod.fst }
  spared : ∀ p ∈ t.record, p.2 = t.mq.contents → p ∈ t'.record
  behind : ∀ p ∈ t.record, ∀ p' ∈ t.record, p ∉ t'.record → p'.2.length ≤ p.2.length →
    p' ∉ t'.record

theorem kicksLaggards_iff
    (hring : t'.mq = { t.mq with clients := t'.record.map Prod.fst }) :
    KicksLaggards c t t' ↔ t'.record = t.record.filter fun p => ¬ t.Lags c p := by
  refine ⟨fun hk => hk.kicked, fun hkicked => ⟨hkicked, hring, ?_, ?_⟩⟩
  · intro p hp hall
    rw [hkicked, List.mem_filter]
    refine ⟨hp, ?_⟩
    simp only [Lags, hall, decide_eq_true_eq]
    omega
  · intro p hp p' hp' hgone hle
    simp only [hkicked, List.mem_filter, hp, hp', true_and, decide_eq_true_eq, not_not] at hgone ⊢
    exact ⟨hgone.1, by have := hgone.2; omega⟩

/-- The code and the rule differ on an entry exactly when it was sent all of a full ring. -/
theorem Caught.keeps_iff_not_lags (hc : CapacityOk c) (hexact : truncMul04 c = 2 * c / 5)
    (h : t.mq.Holds c 0 L) {p : MQClient × List Bytes} (hp : Caught c L p) :
    (t.mq.keeps p.1 = true ↔ ¬ t.Lags c p) ↔ ¬ (3 ≤ c ∧ L.length = c ∧ p.2 = L) := by
  obtain ⟨k, hk, hroff, hsent⟩ := hp
  have hbound := h.slots.bound
  have hlen : p.2.length = k := by rw [hsent, List.length_take, Nat.min_eq_left hk]
  have hall : p.2 = L ↔ k = L.length := by
    constructor
    · intro he
      rw [← hlen, he]
    · rintro rfl
      rw [hsent, List.take_length]
  rw [keeps_iff hc hexact h hroff, Lags, h.contents_eq hc, hlen, hall]
  rcases Nat.lt_or_ge k c with hlt | hge
  · rw [Nat.mod_eq_of_lt hlt]
    omega
  · obtain rfl : k = c := Nat.le_antisymm (hk.trans hbound) hge
    rw [Nat.mod_self]
    omega

theorem filter_eq_filter_iff {α : Type*} {p q : α → Bool} {l : List α} :
    l.filter p = l.filter q ↔ ∀ x ∈ l, (p x = true ↔ q x = true) := by
  constructor
  · intro he x hx
    have hmem : x ∈ l.filter p ↔ x ∈ l.filter q := by rw [he]
    simpa [hx] using hmem
  · intro h
    apply List.filter_congr
    intro x hx
    exact Bool.eq_iff_iff.mpr (h x hx)

/-- In every state that calls without `dq` lead to, the drop removes exactly the laggards,
unless a ring of at least three slots is full and some entry was sent all of it. -/
theorem drops_exactly_laggards_iff (hc : CapacityOk c) (hexact : truncMul04 c = 2 * c / 5)
    {calls : List Call} (hrun : Run FillStep (fresh c) calls t) :
    (∀ p ∈ t.record, p.2 <+: t.mq.contents) ∧
      ∃ t', t.step .dropSlowConsumers = .ok t' ∧
        (KicksLaggards c t t' ↔
          ¬ (3 ≤ c ∧ t.mq.getLength = c ∧ ∃ p ∈ t.record, p.2 = t.mq.contents)) := by
  obtain ⟨L, h⟩ := Tracking.of_run hc hrun
  have hL := h.holds.contents_eq hc
  refine ⟨?_, _, rfl, ?_⟩
  · intro p hp
    obtain ⟨k, -, -, hsent⟩ := h.caught p hp
    rw [hL, hsent]
    exact List.take_prefix k L
  rw [h.record_drop, kicksLaggards_iff, filter_eq_filter_iff, hL, h.holds.getLength_eq hc]
  · have hagree (p : MQClient × List Bytes) (hp : p ∈ t.record) :=
      (h.caught p hp).keeps_iff_not_lags hc hexact h.holds
    simp only [decide_eq_true_eq]
    constructor
    · rintro hsame ⟨hthree, hfull, p, hp, hall⟩
      exact (hagree p hp).mp (hsame p hp) ⟨hthree, hfull, hall⟩
    · intro hnone p hp
      apply (hagree p hp).mpr
      rintro ⟨hthree, hfull, hall⟩
      exact hnone ⟨hthree, hfull, p, hp, hall⟩
  · rw [dropSlowConsumers_keeps, ← h.clients, List.filter_map]
    rfl

/-- Runs can be computed. -/
theorem run_of_calls {calls : List Call} (h : calls.foldlM step t = .ok t')
    (hdq : ∀ alloc, .dq alloc ∉ calls) : Run FillStep t calls t' := by
  apply Run.of_foldlM h
  intro s call hmem s' hstep
  refine ⟨?_, hstep⟩
  rintro alloc rfl
  exact hdq alloc hmem

/-- Five slots, four messages, and a client that was sent two of them, which is no laggard. -/
theorem drops_exactly_laggards_iff_five :
    ∃ t, Run FillStep (fresh 5) [.registerClient 7 true, .q [97] true, .q [98] true,
        .flush 7 Session.wholeWrites, .q [99] true, .q [100] true] t ∧
      (∀ p ∈ t.record, p.2 <+: t.mq.contents) ∧
        ∃ t', t.step .dropSlowConsumers = .ok t' ∧
          (KicksLaggards 5 t t' ↔
            ¬ (3 ≤ 5 ∧ t.mq.getLength = 5 ∧ ∃ p ∈ t.record, p.2 = t.mq.contents)) := by
  have hrun : Run FillStep (fresh 5) [.registerClient 7 true, .q [97] true, .q [98] true,
      .flush 7 Session.wholeWrites, .q [99] true, .q [100] true] _ := run_of_calls rfl (by simp)
  exact ⟨_, hrun, drops_exactly_laggards_iff ⟨by decide, by decide⟩ (by decide +kernel) hrun⟩

/-- Three slots hold three messages, all written to the only client; its offset is back at
`start`, so it is dropped. -/
theorem caught_up_client_dropped :
    ∃ t t', Run FillStep (fresh 3) [.registerClient 7 true, .q [97] true, .q [98] true,
        .flush 7 Session.wholeWrites, .q [99] true, .flush 7 Session.wholeWrites] t ∧
      t.mq.contents = [[97], [98], [99]] ∧ t.record = [(⟨7, 0⟩, [[97], [98], [99]])] ∧
      t.step .dropSlowConsumers = .ok t' ∧ t'.record = [] := by
  have hrun : Run FillStep (fresh 3) [.registerClient 7 true, .q [97] true, .q [98] true,
      .flush 7 Session.wholeWrites, .q [99] true, .flush 7 Session.wholeWrites] _ :=
    run_of_calls rfl (by simp)
  exact ⟨_, _, hrun, rfl, rfl, rfl, by decide +kernel⟩

end Tracked
end SysExploration
