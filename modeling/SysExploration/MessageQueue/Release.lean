import SysExploration.MessageQueue.Session

/-! What `free` releases. Its loop walks from `start` and stops on meeting `end`, which is
where a full ring begins; `getLength` and `get` count the slots instead. -/
namespace SysExploration
open MessageQueue

namespace MessageQueue

variable {c S : ℕ} {L : List Bytes} {mq mq' : MessageQueue}

/-- The loop from slot `R` to `end`, `d` slots later, with `d` less than one lap. -/
theorem freeLoop_eq (hc : CapacityOk c) (hcap : mq.capacity = c)
    (hlen : mq.messages.length = c) {d R fuel : ℕ} (hd : d < c) (hfuel : d < fuel)
    (hend : mq.end_ = ((R + d) % c : ℕ)) :
    mq.freeLoop fuel ((R % c : ℕ) : ℤ) =
      .ok ((Ring.visited mq.messages c R d).map Prod.snd) := by
  induction d generalizing R fuel with
  | zero =>
    obtain ⟨fuel, rfl⟩ := Nat.exists_eq_succ_of_ne_zero (show fuel ≠ 0 by omega)
    rw [freeLoop, if_pos (by rw [hend]; rfl)]
    rfl
  | succ d ih =>
    obtain ⟨fuel, rfl⟩ := Nat.exists_eq_succ_of_ne_zero (show fuel ≠ 0 by omega)
    have hne := walk_ne_end hc hd hend
    obtain ⟨message, hslot⟩ := exists_slot hc hlen R
    have hend' : mq.end_ = ((R + 1 + d) % c : ℕ) := by
      rw [hend, show R + (d + 1) = R + 1 + d by omega]
    have hrest := ih (by omega) (show d < fuel by omega) hend'
    rw [freeLoop, if_neg hne, loadSlot_eq hslot, hcap, hc.advance]
    change (freeLoop mq fuel _ >>= _) = _
    rw [hrest, Ring.visited, hslot]
    cases message with
    | none => rfl
    | some msg => rfl

/-- Short of full the walk meets every message once; on a full ring it meets none. -/
theorem Holds.free_eq (hc : CapacityOk c) (h : mq.Holds c S L) :
    mq.free = .ok (if L.length = c then [] else L) := by
  by_cases hL : L = []
  · subst hL
    have hne : ([] : List Bytes).length ≠ c := fun he => absurd hc.pos (by rw [← he]; decide)
    rw [free, if_pos h.start_nil, if_neg hne]
  · have hstart := h.start_of_ne hL
    have hloop {d : ℕ} (hd : d < c) := freeLoop_eq (R := S) hc h.capacity h.slots.length hd hd
    rw [free, if_neg (start_ne_sentinel hstart), hstart, h.capacity]
    by_cases hfull : L.length = c
    · have hend : mq.end_ = ((S + 0) % c : ℕ) := by rw [h.end_eq, hfull, Nat.add_mod_right]; rfl
      rw [if_pos hfull, hloop hc.pos hend]
      rfl
    · have hroom : L.length < c := lt_of_le_of_ne h.slots.bound hfull
      rw [if_neg hfull, hloop hroom h.end_eq, h.slots.visited_eq h.slots.bound rfl, Nat.sub_self,
        List.drop_zero, Ring.map_snd_entries]

/-- The gets report the stored messages in order. -/
theorem Holds.gets_eq (hc : CapacityOk c) (h : mq.Holds c S L) :
    (List.range mq.getLength).map (fun i => mq.get i true) =
      L.map fun msg => .ok (some msg) := by
  apply List.ext_getElem (by simp [h.getLength_eq hc])
  intro i hi hi'
  have hiL : i < L.length := by simpa using hi'
  simp [h.get_eq hc, hiL]

/-- The queue of a session whose ring, if empty, lies at slot 0, where `q` puts `start`. -/
def Refillable (c : ℕ) (mq : MessageQueue) : Prop :=
  ∃ s : Session, s.mq = mq ∧ s.Stored c ∧ (s.queued = [] → s.dequeued % c = 0)

theorem refillable_fresh (hc : CapacityOk c) : Refillable c (fresh c) :=
  ⟨.fresh c, rfl, Session.stored_fresh hc, fun _ => Nat.zero_mod c⟩

/-- A call that returns and, if it is a `dq`, does not remove the last message. -/
def KeepStep (mq : MessageQueue) (call : Call) (mq' : MessageQueue) : Prop :=
  mq.call call = .ok mq' ∧
    ∀ alloc, call = .dq alloc → mq'.start = mqEmptySentinel → mq.start = mqEmptySentinel

theorem KeepStep.refillable (hc : CapacityOk c) (h : Refillable c mq) {call : Call}
    (hstep : KeepStep mq call mq') : Refillable c mq' := by
  obtain ⟨s, rfl, hstored, hrefill⟩ := h
  obtain ⟨hcall, hlast⟩ := hstep
  obtain ⟨reply, s', hs, rfl⟩ := Session.exists_step hcall
  have heffect := hstored.effect hc hrefill hs
  refine ⟨s', rfl, heffect.stored hc hstored, ?_⟩
  cases heffect with
  | accepted msg alloc =>
    intro hempty
    have hconcat := hstored.queued_concat msg
    exact absurd (hconcat.symm.trans hempty) (List.concat_ne_nil msg s.queued)
  | dequeued alloc hL hmq =>
    intro hempty
    -- the message taken would have been the last one
    have hnil := (Session.queued_tail hL).symm.trans hempty
    have hstart := hlast alloc rfl ((hnil ▸ hmq).start_nil)
    exact absurd hstart (start_ne_sentinel ((hL ▸ hstored.holds).start_cons))
  | _ => exact hrefill

end MessageQueue

/-- After any calls of which no `dq` removes the last message, `free` releases exactly what
the gets report, in their order, if and only if the ring is not full. -/
theorem free_releases_gets_iff {c : ℕ} (hc : CapacityOk c) {calls : List Call}
    {mq : MessageQueue} (hrun : Run KeepStep (fresh c) calls mq) :
    ∃ released, mq.free = .ok released ∧
      ((List.range mq.getLength).map (fun i => mq.get i true) =
          released.map (fun msg => .ok (some msg)) ↔ mq.end_ ≠ mq.start) := by
  obtain ⟨s, rfl, ⟨h, -, -⟩, -⟩ :=
    hrun.invariant (refillable_fresh hc) fun _ _ _ h hstep => hstep.refillable hc h
  refine ⟨_, h.free_eq hc, ?_⟩
  rw [h.gets_eq hc, ne_eq, h.end_eq_start_iff hc]
  split_ifs with hfull
  · have hpos := hc.pos
    apply iff_of_false _ (not_not_intro hfull)
    intro he
    have hlen := congrArg List.length he
    simp only [List.length_map, List.length_nil] at hlen
    omega
  · exact iff_of_true rfl hfull

/-- Two slots with one message, in the last one, which `free` releases. -/
theorem free_releases_gets_iff_two :
    ∃ released, MessageQueue.free ⟨2, [none, some [98]], 1, 0, []⟩ = .ok released ∧
      ((List.range (getLength ⟨2, [none, some [98]], 1, 0, []⟩)).map
          (fun i => MessageQueue.get ⟨2, [none, some [98]], 1, 0, []⟩ i true) =
        released.map (fun msg => .ok (some msg)) ↔ (0 : ℤ) ≠ 1) := by
  have hrun : Run KeepStep (fresh 2) ([] ++ [.q [97] true] ++ [.q [98] true] ++ [.dq true])
      ⟨2, [none, some [98]], 1, 0, []⟩ :=
    .snoc (s := ⟨2, [some [97], some [98]], 0, 0, []⟩)
      (.snoc (s := ⟨2, [some [97], none], 0, 1, []⟩)
        (.snoc .nil ⟨rfl, fun _ _ h => absurd h (by decide)⟩)
        ⟨rfl, fun _ _ h => absurd h (by decide)⟩)
      ⟨rfl, fun _ _ h => absurd h (by decide)⟩
  exact free_releases_gets_iff ⟨by decide, by decide⟩ hrun

/-- One slot and one message: the ring is full, `get` reports the message and `free` releases
nothing. -/
theorem full_ring_not_freed :
    Run KeepStep (fresh 1) ([] ++ [.q [97] true]) ⟨1, [some [97]], 0, 0, []⟩ ∧
      MessageQueue.free ⟨1, [some [97]], 0, 0, []⟩ = .ok [] ∧
      (List.range (getLength ⟨1, [some [97]], 0, 0, []⟩)).map
        (fun i => MessageQueue.get ⟨1, [some [97]], 0, 0, []⟩ i true) = [.ok (some [97])] :=
  ⟨.snoc .nil ⟨rfl, fun _ _ h => absurd h (by decide)⟩, rfl, rfl⟩

end SysExploration
