import SysExploration.Library.Runs
import SysExploration.Sds.Editing

/-! A string as its owner sees it: bytes that the calls edit. Any calls may follow each other, and
any call of the allocator may fail. -/
namespace SysExploration

/-- A call on a string. `receive` is `sdsMakeRoomFor`, a `read` of these bytes behind the string
and `sdsIncrLen`, the way the comment of `sdsIncrLen` reads from a descriptor; `shorten` is
`sdsIncrLen` with a negative increment. -/
inductive SdsOp where
  | updatelen
  | clear
  | makeRoom (addlen : ℕ)
  | removeFreeSpace
  | receive (addlen : ℕ) (bytes : Bytes)
  | shorten (n : ℕ)
  | growzero (len : ℕ)
  | cat (t : Bytes) (len : ℕ)
  | cpy (t : Bytes) (len : ℕ)
  | trim (cset : Bytes)
  | range (start last : ℤ)
  | lower
  | upper
  | mapchars (src dst : Bytes) (setlen : ℕ)
  deriving DecidableEq, Repr

namespace SdsOp

/-- The bytes after the call. -/
def effect (b : Bytes) : SdsOp → Bytes
  | updatelen => b.takeWhile (· ≠ 0)
  | clear => []
  | makeRoom _ => b
  | removeFreeSpace => b
  | receive _ bytes => b ++ bytes
  | shorten n => b.take (b.length - n)
  | growzero len => b ++ List.replicate (len - b.length) 0
  | cat t len => b ++ t.take len
  | cpy t len => t.take len
  | trim cset => (b.dropWhile (Sds.strchr cset)).rdropWhile (Sds.strchr cset)
  | range start last =>
    slice b (Sds.position b.length start)
      (Sds.position b.length last + 1 - Sds.position b.length start)
  | lower => b.map Sds.tolower
  | upper => b.map Sds.toupper
  | mapchars src dst setlen =>
    b.map fun c => Sds.mapChar c ((src.take setlen).zip (dst.take setlen))

/-- The capacity the call asks for, on a string of length `len`. -/
def needs (len : ℕ) : SdsOp → ℕ
  | makeRoom addlen => len + addlen
  | receive addlen _ => len + addlen
  | growzero n => max len n
  | cat _ n => len + n
  | cpy _ n => n
  | _ => 0

/-- The arguments are objects with the lengths that are passed, the lengths and their sums are a
`size_t` or a `ssize_t`, and no more is read or cut off than there is. A range from the first byte
to `SSIZE_MAX` has no size. -/
def Permitted (len : ℕ) : SdsOp → Prop
  | makeRoom addlen => len + addlen < 2 ^ 64
  | receive addlen bytes => 0 < addlen ∧ bytes.length ≤ addlen ∧ len + addlen < 2 ^ 64
  | shorten n => 0 < n ∧ n ≤ len
  | growzero n => n < 2 ^ 64
  | cat t n => n ≤ t.length ∧ len + n < 2 ^ 64
  | cpy t n => n ≤ t.length ∧ n < 2 ^ 64
  | range start last =>
    len < 2 ^ 63 ∧ (-2 ^ 63 ≤ start ∧ start < 2 ^ 63) ∧ (-2 ^ 63 ≤ last ∧ last < 2 ^ 63) ∧
      (len = 0 ∨ 0 < Sds.position len start ∨ last < 2 ^ 63 - 1)
  | mapchars src dst setlen => setlen ≤ src.length ∧ setlen ≤ dst.length
  | _ => True

instance (len : ℕ) : ∀ op : SdsOp, Decidable (op.Permitted len)
  | makeRoom addlen => inferInstanceAs (Decidable (len + addlen < 2 ^ 64))
  | receive addlen bytes =>
    inferInstanceAs (Decidable (0 < addlen ∧ bytes.length ≤ addlen ∧ len + addlen < 2 ^ 64))
  | shorten n => inferInstanceAs (Decidable (0 < n ∧ n ≤ len))
  | growzero n => inferInstanceAs (Decidable (n < 2 ^ 64))
  | cat t n => inferInstanceAs (Decidable (n ≤ t.length ∧ len + n < 2 ^ 64))
  | cpy t n => inferInstanceAs (Decidable (n ≤ t.length ∧ n < 2 ^ 64))
  | range start last =>
    inferInstanceAs (Decidable (len < 2 ^ 63 ∧ (-2 ^ 63 ≤ start ∧ start < 2 ^ 63) ∧
      (-2 ^ 63 ≤ last ∧ last < 2 ^ 63) ∧
        (len = 0 ∨ 0 < Sds.position len start ∨ last < 2 ^ 63 - 1)))
  | mapchars src dst setlen =>
    inferInstanceAs (Decidable (setlen ≤ src.length ∧ setlen ≤ dst.length))
  | updatelen => .isTrue trivial
  | clear => .isTrue trivial
  | removeFreeSpace => .isTrue trivial
  | trim _ => .isTrue trivial
  | lower => .isTrue trivial
  | upper => .isTrue trivial

end SdsOp

namespace Sds

def call (s : Sds) (mem : Malloc) : SdsOp → Except SdsFault (Option Sds)
  | .updatelen => s.sdsupdatelen.map some
  | .clear => s.sdsclear.map some
  | .makeRoom addlen => s.sdsMakeRoomFor addlen mem
  | .removeFreeSpace => s.sdsRemoveFreeSpace mem
  | .receive addlen bytes =>
    orNull (s.sdsMakeRoomFor addlen mem) fun s => do
      let buf ← writeBytes s.buf s.sdslen bytes
      ({ s with buf := buf } : Sds).sdsIncrLen bytes.length
  | .shorten n => (s.sdsIncrLen (-n)).map some
  | .growzero len => s.sdsgrowzero len mem
  | .cat t len => s.sdscatlen t len mem
  | .cpy t len => s.sdscpylen t len mem
  | .trim cset => (s.sdstrim cset).map some
  | .range start last => (s.sdsrange start last).map some
  | .lower => s.sdstolower.map some
  | .upper => s.sdstoupper.map some
  | .mapchars src dst setlen => (s.sdsmapchars src dst setlen).map some

variable {s s₀ : Sds} {mem : Malloc} {op : SdsOp} {calls : List (SdsOp × Malloc)}

/-- A call that cannot fail. -/
theorem Outcome.of_ok {required : ℕ} {c : Bytes} {out : Except SdsFault Sds}
    (h : ∃ s', out = .ok s' ∧ s'.Valid ∧ s'.contents = c) :
    Outcome mem required c (out.map some) := by
  obtain ⟨s', rfl, hvalid, hc⟩ := h
  exact .done hvalid hc

/-- A string with room for more than it holds can be told how much was written into it. -/
theorem RoomOutcome.receive {addlen : ℕ} {bytes : Bytes} {out : Except SdsFault (Option Sds)}
    (h : s.Valid) (hpos : 0 < addlen) (hbytes : bytes.length ≤ addlen)
    (hout : RoomOutcome s addlen mem out) :
    Outcome mem (s.len + addlen) (s.contents ++ bytes) (Sds.orNull out fun s => do
      let buf ← writeBytes s.buf s.sdslen bytes
      ({ s with buf := buf } : Sds).sdsIncrLen bytes.length) := by
  have hgo {s' : Sds} (hvalid : s'.Valid) (h5 : s'.type ≠ .type5) (hlen : s'.len = s.len)
      (hc : s'.contents = s.contents) (hroom : s.len + addlen ≤ s'.sdsalloc) :
      Outcome mem (s.len + addlen) (s.contents ++ bytes) (Sds.orNull (.ok (some s')) fun s => do
        let buf ← writeBytes s.buf s.sdslen bytes
        ({ s with buf := buf } : Sds).sdsIncrLen bytes.length) := by
    have hfits : s'.len + bytes.length ≤ s'.sdsalloc := by omega
    obtain ⟨s'', hs'', hfilled, hafter⟩ := hvalid.filled h5 hfits
    change Outcome mem _ _ (Except.map some _)
    rw [← hc]
    exact .of_ok ⟨s'', hs'', hfilled, hafter⟩
  cases hout with
  | enough hle =>
    have havail := h.sdsavail_eq
    have hlen := h.len_le
    have h5 : s.type ≠ .type5 := by
      intro htype
      rw [sdsavail, htype] at hle
      exact absurd hpos (by simpa using hle)
    exact hgo h h5 rfl rfl (by omega)
  | refused _ hbig => exact .refused hbig
  | null _ _ hmem => exact .null hmem
  | moved _ hbig _ hmoved =>
    have hle := le_preallocated (n := s.len + addlen) (by omega)
    apply hgo (hmoved.valid h) _ hmoved.len hmoved.contents (by rw [hmoved.alloc]; exact hle)
    rw [hmoved.type_eq]
    exact roomType_ne _

/-- Every call keeps the invariant and edits the bytes as it should, or returns `NULL` because the
allocator did, or ends in the assertion against sizes that no block can have. -/
theorem Valid.call (h : s.Valid) (hop : op.Permitted s.len) (mem : Malloc) :
    Outcome mem (op.needs s.len) (op.effect s.contents) (s.call mem op) := by
  have hlength := h.length_contents
  cases op with
  | updatelen => exact .of_ok h.updatelen
  | clear => exact .of_ok h.clear
  | makeRoom addlen =>
    have hsum : s.len + addlen < 2 ^ 64 := hop
    have hout := h.makeRoom hsum mem
    change Outcome mem (s.len + addlen) s.contents (s.sdsMakeRoomFor addlen mem)
    generalize s.sdsMakeRoomFor addlen mem = out at hout ⊢
    cases hout with
    | enough => exact .done h rfl
    | refused _ hbig => exact .refused hbig
    | null _ _ hmem => exact .null hmem
    | moved _ _ _ hmoved => exact .done (hmoved.valid h) hmoved.contents
  | removeFreeSpace =>
    change Outcome mem 0 s.contents (s.sdsRemoveFreeSpace mem)
    rcases h.removeFreeSpace mem with ⟨hs, -⟩ | ⟨hs, hmem⟩ | ⟨s', type, hs, hmoved⟩
    · rw [hs]
      exact .done h rfl
    · rw [hs]
      exact .null hmem
    · rw [hs]
      exact .done (hmoved.valid h) hmoved.contents
  | receive addlen bytes =>
    obtain ⟨hpos, hbytes, hsum⟩ := hop
    exact (h.makeRoom hsum mem).receive h hpos hbytes
  | shorten n =>
    obtain ⟨hpos, hn⟩ := hop
    obtain ⟨hallowed, hword, hsize⟩ := h.incrAllowed_sub hn hpos
    have hle := h.len_le
    obtain ⟨s', hs', hvalid, hc, -⟩ := h.incremented hallowed hword (fun _ => hsize) (by omega)
    refine .of_ok ⟨s', hs', hvalid, ?_⟩
    rw [hc, SdsOp.effect, hlength, contents, List.take_take, Nat.min_eq_left (Nat.sub_le _ _)]
  | growzero len =>
    have hlen : len < 2 ^ 64 := hop
    have hout := h.growzero hlen mem
    rw [SdsOp.effect, hlength]
    exact hout
  | cat t len => exact h.catlen hop.1 hop.2 mem
  | cpy t len => exact h.cpylen hop.1 hop.2 mem
  | trim cset => exact .of_ok (h.trim cset)
  | range start last =>
    obtain ⟨hlen, ⟨hstart, -⟩, ⟨hlast, hlast'⟩, hroom⟩ := hop
    rw [SdsOp.effect, hlength]
    exact .of_ok (h.range hlen hstart hlast hlast' hroom)
  | lower => exact .of_ok (h.mapBytes tolower)
  | upper => exact .of_ok (h.mapBytes toupper)
  | mapchars src dst setlen => exact .of_ok (h.mapchars hop.1 hop.2)

/-- A call returns; after `NULL` its caller still has the old string. -/
def Step (s : Sds) (c : SdsOp × Malloc) (s' : Sds) : Prop :=
  c.1.Permitted s.len ∧
    (s.call c.2 c.1 = .ok (some s') ∨ s.call c.2 c.1 = .ok none ∧ s' = s)

/-- The bytes are edited, or left alone when the allocator has failed. -/
def Edits (b : Bytes) (c : SdsOp × Malloc) (b' : Bytes) : Prop :=
  b' = c.1.effect b ∨ c.2 = none ∧ b' = b

theorem Step.edits {c : SdsOp × Malloc} {s' : Sds} (hstep : Step s c s') (h : s.Valid) :
    s'.Valid ∧ Edits s.contents c s'.contents := by
  obtain ⟨hop, hcall | ⟨hcall, rfl⟩⟩ := hstep
  · have hout := h.call hop c.2
    rw [hcall] at hout
    cases hout with
    | done hvalid hc => exact ⟨hvalid, .inl hc⟩
  · have hout := h.call hop c.2
    rw [hcall] at hout
    cases hout with
    | null hmem => exact ⟨h, .inr ⟨hmem, rfl⟩⟩

/-- Whatever permitted calls are made on a new string and whichever allocations fail, its bytes are
the ones it was made of, edited by the calls that returned a string. A call is permitted if the
new length is no more than a `size_t` holds, `sdsIncrLen` cuts off no more than there is or adds no
more than was asked for, and the size of a range is a `ssize_t`. No such call leaves the block or
uses `NULL`; the only one that does not return asks for a size that the assertion of
`sdsMakeRoomFor` refuses. -/
theorem strings_refine_bytes {bytes : Bytes} (hsmall : bytes.length + 18 < 2 ^ 64)
    (hnew : sdsnewlen (.data bytes) bytes.length mem = .ok (some s₀))
    (hrun : Run Step s₀ calls s) :
    s.Valid ∧ Run Edits bytes calls s.contents ∧
      ∀ op mem, op.Permitted s.len →
        Outcome mem (op.needs s.len) (op.effect s.contents) (s.call mem op) := by
  have hstart : s₀.Valid ∧ s₀.contents = bytes := by
    cases mem with
    | none => cases hnew
    | some garbage =>
      obtain ⟨s', hs', hvalid, hc⟩ := sdsnewlen_data (le_refl bytes.length) hsmall garbage
      obtain rfl := Option.some.inj (Except.ok.inj (hs'.symm.trans hnew))
      exact ⟨hvalid, hc.trans List.take_length⟩
  have hsim : ∃ b, Run Edits bytes calls b ∧ s.Valid ∧ b = s.contents :=
    hrun.simulates (R := fun s b => s.Valid ∧ b = s.contents) ⟨hstart.1, hstart.2.symm⟩
      (fun s b c s' hR hstep => by
        obtain ⟨h, rfl⟩ := hR
        obtain ⟨hvalid, hedits⟩ := hstep.edits h
        exact ⟨s'.contents, hedits, hvalid, rfl⟩)
  obtain ⟨b, hb, hvalid, rfl⟩ := hsim
  exact ⟨hvalid, hb, fun op mem hop => hvalid.call hop mem⟩

/-- The string after a call that returns. -/
def next (s : Sds) (c : SdsOp × Malloc) : Option Sds :=
  if c.1.Permitted s.len then
    match s.call c.2 c.1 with
    | .ok s' => some (s'.getD s)
    | .error _ => none
  else none

theorem step_of_next {c : SdsOp × Malloc} {s' : Sds} (h : s.next c = some s') : Step s c s' := by
  unfold next at h
  split_ifs at h with hop
  refine ⟨hop, ?_⟩
  cases hcall : s.call c.2 c.1 with
  | error e =>
    rw [hcall] at h
    cases h
  | ok out =>
    rw [hcall] at h
    cases out with
    | none => exact .inr ⟨rfl, (Option.some.inj h).symm⟩
    | some t => exact .inl (congrArg _ (congrArg _ (Option.some.inj h)))

theorem run_of_next (h : calls.foldlM next s₀ = some s) : Run Step s₀ calls s :=
  (Run.of_foldlM_some h).mono fun _ _ _ => step_of_next

/-- Two letters; the first attempt to read more is refused by the allocator. -/
def editing : List (SdsOp × Malloc) :=
  [(.receive 40 [67, 0, 68, 32], none), (.receive 40 [67, 0, 68, 32], some fun _ => 1),
    (.trim [32], none), (.removeFreeSpace, some fun _ => 2), (.range 1 (-1), none),
    (.lower, none), (.growzero 33, some fun _ => 3), (.updatelen, none)]

theorem strings_refine_bytes_editing : ∃ s : Sds,
    Run Step ⟨.type5, 2, 0, [65, 66, 0]⟩ editing s ∧ s.contents = [98, 99] ∧
      s.Valid ∧ Run Edits [65, 66] editing s.contents ∧
      ∀ op mem, op.Permitted s.len →
        Outcome mem (op.needs s.len) (op.effect s.contents) (s.call mem op) := by
  have hnew : sdsnewlen (.data [65, 66]) [(65 : UInt8), 66].length (some fun _ => 0) =
      .ok (some ⟨.type5, 2, 0, [65, 66, 0]⟩) := rfl
  have hrun : Run Step ⟨.type5, 2, 0, [65, 66, 0]⟩ editing _ := run_of_next rfl
  exact ⟨_, hrun, rfl, strings_refine_bytes (by decide) hnew hrun⟩

end Sds
end SysExploration
