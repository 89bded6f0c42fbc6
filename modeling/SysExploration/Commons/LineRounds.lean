import SysExploration.Commons.ByteQueue
import SysExploration.Commons.LineStream
import SysExploration.Library.Lines

/-! One round of the loop of `next`, for every answer of the kernel and of the allocator. -/
namespace SysExploration.LineStream

variable {k : LSKernel} {ls ls' : LineStream} {rb : ReadBuffer} {scanned : ℕ}

/-- The bytes not delivered yet. -/
def pending (ls : LineStream) : Bytes := ls.readBuffer.view ++ ls.fd.rest

def endOfFile : LSError := ⟨"linestream__next: end of file", .eof⟩

/-- The search looks at the view behind `scanned`. -/
theorem findNewline_eq (h : rb.Valid 64) (hle : scanned ≤ rb.length) :
    findNewline rb scanned = .ok
      (((rb.view.drop scanned).findIdx? (fun b => decide (b = newline))).map (scanned + ·)) := by
  have hfits := h.fits
  have hword : rb.length < 2 ^ 64 := by
    have hcapacity := h.word
    omega
  have hsize : toSize ((rb.getReadView.size : ℤ) - scanned) = rb.length - scanned :=
    toWord_sub hle hword
  unfold findNewline
  by_cases hlt : scanned < rb.getReadView.size
  · change scanned < rb.length at hlt
    have hload := h.loadBytes_slice (j := scanned) (m := rb.length - scanned) (by omega) (by omega)
    rw [slice, List.take_of_length_le (by rw [List.length_drop, h.length_view])] at hload
    rw [if_pos (show scanned < rb.getReadView.size from hlt), hsize, hload]
    rfl
  · have hnil : rb.view.drop scanned = [] :=
      List.drop_of_length_le (by rw [h.length_view]; exact Nat.not_lt.mp hlt)
    rw [if_neg hlt, hnil]
    rfl

/-- The search finds the first newline of the view, or there is none. -/
theorem findNewline_cases (h : rb.Valid 64) (hle : scanned ≤ rb.length)
    (hold : newline ∉ rb.view.take scanned) :
    (∃ i, findNewline rb scanned = .ok (some i) ∧ i < rb.length ∧ newline ∉ rb.view.take i ∧
      rb.view = rb.view.take i ++ newline :: rb.view.drop (i + 1)) ∨
      findNewline rb scanned = .ok none ∧ newline ∉ rb.view := by
  rw [findNewline_eq h hle]
  cases hidx : (rb.view.drop scanned).findIdx? (fun b => decide (b = newline)) with
  | none =>
    refine .inr ⟨rfl, fun hmem => ?_⟩
    rw [← List.take_append_drop scanned rb.view, List.mem_append] at hmem
    rcases hmem with hmem | hmem
    · exact hold hmem
    · exact absurd (List.findIdx?_eq_none_iff.mp hidx newline hmem) (by simp)
  | some i =>
    obtain ⟨hi, hbefore, hrest⟩ := eq_append_of_findIdx? hidx
    rw [List.length_drop, h.length_view] at hi
    rw [List.drop_drop] at hrest
    refine .inl ⟨scanned + i, rfl, by omega, ?_, ?_⟩
    · rw [List.take_add, List.mem_append]
      rintro (hmem | hmem)
      · exact hold hmem
      · exact hbefore hmem
    · rw [List.take_add, List.append_assoc, Nat.add_assoc, ← hrest, List.take_append_drop]

/-- The string handed out points to the front of the view, and the block is left as it is. -/
theorem consume_line (h : rb.Valid 64) {n : ℕ} (hn : n ≤ rb.length) (hpos : 0 < n) :
    ∃ rb', rb.getReadView.cursor = some rb.offset ∧ (rb.consume 64 n).2 = rb' ∧ rb'.Valid 64 ∧
      rb'.view = rb.view.drop n ∧ rb'.data = rb.data ∧ rb'.capacity = rb.capacity := by
  have hfits := h.fits
  have hdata := h.data
  obtain ⟨rb', hconsume, hvalid, hview⟩ := h.consume_eq hn
  refine ⟨rb', ?_, by rw [hconsume], hvalid, hview, ?_⟩
  · cases hb : rb.data with
    | none =>
      rw [ReadBuffer.bytes, hb, Option.getD_none, List.length_nil] at hdata
      omega
    | some b => rw [ReadBuffer.getReadView, hb, Option.map_some]
  · rw [ReadBuffer.consume, if_neg (Nat.not_lt.mpr hn)] at hconsume
    rw [← (Prod.mk.inj hconsume).2]
    exact ⟨rfl, rfl⟩

/-- What is read through the string, also behind its end. -/
theorem load_eq (h : rb.Valid 64) (hcap : rb.capacity ≠ 0)
    (hdata : ls.readBuffer.data = rb.data) (size : ℕ) {off n : ℕ} (hn : off + n ≤ rb.length) :
    ls.load ⟨some rb.offset, size⟩ off n = .ok (slice rb.view off n) := by
  change loadBytes ls.readBuffer.data _ _ = _
  rw [hdata]
  exact h.loadBytes_slice hcap hn

theorem text_eq (h : rb.Valid 64) (hcap : rb.capacity ≠ 0) (hdata : ls.readBuffer.data = rb.data)
    {n : ℕ} (hn : n ≤ rb.length) : ls.text ⟨some rb.offset, n⟩ = .ok (rb.view.take n) :=
  load_eq h hcap hdata n ((Nat.zero_add n).trans_le hn)

/-- `read` fails, or it returns bytes of the file unless none is left. -/
theorem read_cases (k : LSKernel) (file : OpenFile) {count : ℕ} (hcount : 0 < count) :
    k.read file.asked.length = none ∧
        file.read k count = (none, { file with asked := file.asked ++ [count] }) ∨
      ∃ bytes file', file.read k count = (some bytes, file') ∧ bytes ++ file'.rest = file.rest ∧
        file'.asked = file.asked ++ [count] ∧ bytes.length ≤ count ∧
        (bytes = [] → file.rest = []) := by
  unfold OpenFile.read
  cases hread : k.read file.asked.length with
  | none => exact .inl ⟨rfl, rfl⟩
  | some n =>
    refine .inr ⟨_, _, rfl, List.take_append_drop _ _, rfl, ?_, ?_⟩
    · rw [List.length_take]
      omega
    · intro hnil
      have hlen := congrArg List.length hnil
      rw [List.length_take, List.length_nil] at hlen
      exact List.eq_nil_of_length_eq_zero (by omega)

/-- The body of the `while` of `next`: the result of the call, or the stream and `scanned` at
the beginning of the next round. -/
def nextRound (k : LSKernel) (ls : LineStream) (scanned : ℕ) :
    Except Fault (ResultString × LineStream ⊕ LineStream × ℕ) := do
  let rbview := ls.readBuffer.getReadView
  match ← findNewline ls.readBuffer scanned with
  | some lineLen =>
    .ok (.inl (.ok ⟨rbview.cursor, lineLen⟩,
      { ls with readBuffer := (ls.readBuffer.consume 64 (lineLen + 1)).2 }))
  | none =>
    let scanned := if scanned < rbview.size then rbview.size else scanned
    let (ar, rb) ← ls.readBuffer.assure 64 readBufferingSize (k.malloc ls.assured)
    let ls := { ls with readBuffer := rb, assured := ls.assured + 1 }
    if !ar.ok then .ok (.inl (.error ⟨ar.errorMessage, .allocFailed⟩, ls))
    else
      match ls.fd.read k (rb.getWriteCursorLimit 64) with
      | (none, fd) => .ok (.inl (.error ⟨k.strerror, .readFailed⟩, { ls with fd := fd }))
      | (some [], fd) =>
        let rbview := rb.getReadView
        if 0 < rbview.size then
          .ok (.inl (.ok ⟨rbview.cursor, rbview.size⟩,
            { ls with fd := fd, readBuffer := (rb.consume 64 rbview.size).2 }))
        else .ok (.inl (.error endOfFile, { ls with fd := fd }))
      | (some bytes, fd) => do
        let rb ← rb.fill bytes
        let (cr, rb) := rb.commitWrite 64 bytes.length
        let ls := { ls with fd := fd, readBuffer := rb }
        if !cr.ok then .ok (.inl (.error ⟨cr.errorMessage, .allocFailed⟩, ls))
        else .ok (.inr (ls, scanned))

theorem nextLoop_succ (k : LSKernel) (fuel : ℕ) (ls : LineStream) (scanned : ℕ) :
    nextLoop k (fuel + 1) ls scanned =
      (nextRound k ls scanned).bind (Sum.elim .ok (Function.uncurry (nextLoop k fuel))) := by
  rw [nextLoop, nextRound]
  cases findNewline ls.readBuffer scanned with
  | error fault => rfl
  | ok found =>
    cases found with
    | some lineLen => rfl
    | none =>
      simp only [bind, Except.bind]
      cases ls.readBuffer.assure 64 readBufferingSize (k.malloc ls.assured) with
      | error fault => rfl
      | ok result =>
        obtain ⟨ar, rb⟩ := result
        dsimp only
        cases har : ar.ok with
        | false => rfl
        | true =>
          rw [Bool.not_true, if_neg Bool.false_ne_true, if_neg Bool.false_ne_true]
          rcases ls.fd.read k (rb.getWriteCursorLimit 64) with ⟨_ | _ | ⟨b, bs⟩, file⟩
          · rfl
          · dsimp only
            split_ifs <;> rfl
          · dsimp only
            cases rb.fill (b :: bs) with
            | error fault => rfl
            | ok rb₁ =>
              dsimp only
              split_ifs <;> rfl

/-- The stream at the beginning of a round: no newline in front of `scanned`. -/
structure Scanned (ls : LineStream) (scanned : ℕ) : Prop where
  valid : ls.readBuffer.Valid 64
  asked : ∀ n ∈ ls.fd.asked, 0 < n
  le : scanned ≤ ls.readBuffer.length
  old : newline ∉ ls.readBuffer.view.take scanned

/-- Space for a read was found. -/
def Assured (k : LSKernel) (ls : LineStream) (rb : ReadBuffer) : Prop :=
  ReadBuffer.AssureEffect 64 ls.readBuffer readBufferingSize (k.malloc ls.assured) .success rb

/-- What a round does. Only a view without newlines is given more space. -/
inductive RoundEffect (k : LSKernel) (ls : LineStream) :
    ResultString × LineStream ⊕ LineStream × ℕ → Prop
  | line {s : LSString} {line : Bytes} {rb : ReadBuffer} : newline ∉ line →
      ls.readBuffer.view = line ++ newline :: rb.view → rb.Valid 64 →
      rb.capacity = ls.readBuffer.capacity →
      LineStream.text { ls with readBuffer := rb } s = .ok line →
      RoundEffect k ls (.inl (.ok s, { ls with readBuffer := rb }))
  | assureFailed {r : ReadBufferResult} : newline ∉ ls.readBuffer.view →
      ReadBuffer.AssureEffect 64 ls.readBuffer readBufferingSize (k.malloc ls.assured) r
        ls.readBuffer → r.ok = false →
      RoundEffect k ls
        (.inl (.error ⟨r.errorMessage, .allocFailed⟩, { ls with assured := ls.assured + 1 }))
  | readFailed {rb : ReadBuffer} {file : OpenFile} : newline ∉ ls.readBuffer.view →
      Assured k ls rb → k.read ls.fd.asked.length = none → file.rest = ls.fd.rest →
      file.asked = ls.fd.asked ++ [rb.getWriteCursorLimit 64] →
      RoundEffect k ls (.inl (.error ⟨k.strerror, .readFailed⟩, ⟨file, rb, ls.assured + 1⟩))
  | lastLine {s : LSString} {rb rb' : ReadBuffer} {file : OpenFile} :
      newline ∉ ls.readBuffer.view → ls.readBuffer.view ≠ [] → ls.fd.rest = [] →
      Assured k ls rb → file.rest = [] →
      file.asked = ls.fd.asked ++ [rb.getWriteCursorLimit 64] →
      rb'.Valid 64 → rb'.view = [] → rb'.capacity = rb.capacity →
      LineStream.text ⟨file, rb', ls.assured + 1⟩ s = .ok ls.readBuffer.view →
      RoundEffect k ls (.inl (.ok s, ⟨file, rb', ls.assured + 1⟩))
  | ended {rb : ReadBuffer} {file : OpenFile} : ls.readBuffer.view = [] → ls.fd.rest = [] →
      Assured k ls rb → file.rest = [] →
      file.asked = ls.fd.asked ++ [rb.getWriteCursorLimit 64] →
      RoundEffect k ls (.inl (.error endOfFile, ⟨file, rb, ls.assured + 1⟩))
  | filled {bytes : Bytes} {rb rb' : ReadBuffer} {file : OpenFile} :
      newline ∉ ls.readBuffer.view → Assured k ls rb →
      ls.fd.read k (rb.getWriteCursorLimit 64) = (some bytes, file) → bytes ≠ [] →
      bytes ++ file.rest = ls.fd.rest →
      file.asked = ls.fd.asked ++ [rb.getWriteCursorLimit 64] →
      rb'.Valid 64 → rb'.view = ls.readBuffer.view ++ bytes → rb'.capacity = rb.capacity →
      RoundEffect k ls (.inr (⟨file, rb', ls.assured + 1⟩, ls.readBuffer.length))

theorem Assured.valid (ha : Assured k ls rb) (h : ls.readBuffer.Valid 64) :
    rb.Valid 64 ∧ rb.view = ls.readBuffer.view :=
  ReadBuffer.AssureEffect.valid (by decide) h ha

theorem Assured.limit (ha : Assured k ls rb) (h : ls.readBuffer.Valid 64) :
    readBufferingSize ≤ rb.getWriteCursorLimit 64 := by
  rw [(ha.valid h).1.limit_eq]
  exact ReadBuffer.AssureEffect.space ha rfl

theorem Assured.limit_pos (ha : Assured k ls rb) (h : ls.readBuffer.Valid 64) :
    0 < rb.getWriteCursorLimit 64 :=
  Nat.lt_of_lt_of_le (by decide) (ha.limit h)

/-- A newline in the view ends the call. -/
theorem Scanned.round_line (h : ls.Scanned scanned) {i : ℕ}
    (hfind : findNewline ls.readBuffer scanned = .ok (some i)) (hi : i < ls.readBuffer.length)
    (hbefore : newline ∉ ls.readBuffer.view.take i)
    (hview : ls.readBuffer.view =
      ls.readBuffer.view.take i ++ newline :: ls.readBuffer.view.drop (i + 1)) :
    ∃ o, nextRound k ls scanned = .ok o ∧ RoundEffect k ls o := by
  obtain ⟨rb', hcursor, hconsume, hvalid, hview', hdata, hcapacity⟩ :=
    consume_line h.valid hi (Nat.succ_pos i)
  have hfits := h.valid.fits
  refine ⟨.inl (.ok ⟨some ls.readBuffer.offset, i⟩, { ls with readBuffer := rb' }), ?_, ?_⟩
  · rw [nextRound, hfind]
    simp only [bind, Except.bind, hcursor, hconsume]
  · refine .line hbefore ?_ hvalid hcapacity (text_eq h.valid (by omega) hdata (Nat.le_of_lt hi))
    rw [hview']
    exact hview

/-- At the end of the file the rest of the view is the last line, if there is one. -/
theorem Scanned.round_end (h : ls.Scanned scanned)
    (hfind : findNewline ls.readBuffer scanned = .ok none) (hnone : newline ∉ ls.readBuffer.view)
    (hassure : ls.readBuffer.assure 64 readBufferingSize (k.malloc ls.assured) = .ok (.success, rb))
    (ha : Assured k ls rb) {file : OpenFile}
    (hread : ls.fd.read k (rb.getWriteCursorLimit 64) = (some [], file)) (hend : ls.fd.rest = [])
    (hrest : file.rest = []) (hasked : file.asked = ls.fd.asked ++ [rb.getWriteCursorLimit 64]) :
    ∃ o, nextRound k ls scanned = .ok o ∧ RoundEffect k ls o := by
  obtain ⟨hvalid, hview⟩ := ha.valid h.valid
  have hlength := hvalid.length_view
  by_cases hpos : 0 < rb.length
  · obtain ⟨rb', hcursor, hconsume, hvalid', hview', hdata, hcapacity⟩ :=
      consume_line hvalid (Nat.le_refl _) hpos
    have hfits := hvalid.fits
    refine ⟨.inl (.ok ⟨some rb.offset, rb.length⟩, ⟨file, rb', ls.assured + 1⟩), ?_, ?_⟩
    · rw [nextRound, hfind]
      simp only [hassure, bind, Except.bind, ReadBufferResult.success, Bool.not_true, if_false,
        Bool.false_eq_true]
      rw [hread]
      exact (if_pos hpos).trans (by rw [hcursor]; exact congrArg _ (by rw [← hconsume]; rfl))
    · refine .lastLine hnone ?_ hend ha hrest hasked hvalid' ?_ hcapacity ?_
      · rw [← hview, ← List.length_pos_iff, hlength]
        exact hpos
      · rw [hview', ← hlength, List.drop_length]
      · rw [text_eq hvalid (by omega) hdata (Nat.le_refl _), ← hlength, List.take_length, hview]
  · have hempty : ls.readBuffer.view = [] := by
      rw [← hview, ← List.length_eq_zero_iff, hlength]
      exact Nat.eq_zero_of_not_pos hpos
    refine ⟨.inl (.error endOfFile, ⟨file, rb, ls.assured + 1⟩), ?_,
      .ended hempty hend ha hrest hasked⟩
    rw [nextRound, hfind]
    simp only [hassure, bind, Except.bind, ReadBufferResult.success, Bool.not_true, if_false,
      Bool.false_eq_true]
    rw [hread]
    exact if_neg hpos

/-- A read appends to the view, and the next round begins behind what was searched. -/
theorem Scanned.round_filled (h : ls.Scanned scanned)
    (hfind : findNewline ls.readBuffer scanned = .ok none) (hnone : newline ∉ ls.readBuffer.view)
    (hassure : ls.readBuffer.assure 64 readBufferingSize (k.malloc ls.assured) = .ok (.success, rb))
    (ha : Assured k ls rb) {bytes : Bytes} {file : OpenFile}
    (hread : ls.fd.read k (rb.getWriteCursorLimit 64) = (some bytes, file)) (hne : bytes ≠ [])
    (hbytes : bytes ++ file.rest = ls.fd.rest) (hroom : bytes.length ≤ rb.getWriteCursorLimit 64)
    (hasked : file.asked = ls.fd.asked ++ [rb.getWriteCursorLimit 64]) :
    ∃ o, nextRound k ls scanned = .ok o ∧ RoundEffect k ls o := by
  obtain ⟨hvalid, hview⟩ := ha.valid h.valid
  obtain ⟨rb₁, rb₂, hfill, hcommit, hvalid₂, hview₂, hcapacity⟩ := hvalid.write_eq hroom
  rw [hview] at hview₂
  have hscanned : (if scanned < ls.readBuffer.getReadView.size then
      ls.readBuffer.getReadView.size else scanned) = ls.readBuffer.length :=
    ite_eq_left_iff.mpr fun hlt => Nat.le_antisymm h.le (Nat.not_lt.mp hlt)
  refine ⟨.inr (⟨file, rb₂, ls.assured + 1⟩, ls.readBuffer.length), ?_,
    .filled hnone ha hread hne hbytes hasked hvalid₂ hview₂ hcapacity⟩
  rw [nextRound, hfind]
  simp only [hassure, bind, Except.bind, ReadBufferResult.success, Bool.not_true, if_false,
    Bool.false_eq_true]
  rw [hread]
  cases bytes with
  | nil => exact absurd rfl hne
  | cons b bs =>
    simp only [hfill, hcommit, ReadBufferResult.success, Bool.not_true, if_false,
      Bool.false_eq_true, hscanned]

theorem Scanned.round_effect (k : LSKernel) (h : ls.Scanned scanned) :
    ∃ o, nextRound k ls scanned = .ok o ∧ RoundEffect k ls o := by
  rcases findNewline_cases h.valid h.le h.old with
    ⟨i, hfind, hi, hbefore, hview⟩ | ⟨hfind, hnone⟩
  · exact h.round_line hfind hi hbefore hview
  · obtain ⟨r, rb, hassure, he⟩ :=
      h.valid.assure_effect (by decide) readBufferingSize (k.malloc ls.assured)
    cases hok : r.ok with
    | false =>
      obtain rfl := he.failed hok
      refine ⟨_, ?_, .assureFailed hnone he hok⟩
      rw [nextRound, hfind]
      simp only [hassure, bind, Except.bind, hok, Bool.not_false, if_true]
    | true =>
      obtain rfl := he.eq_success hok
      have ha : Assured k ls rb := he
      rcases read_cases k ls.fd (ha.limit_pos h.valid) with
        ⟨hfail, hread⟩ | ⟨bytes, file, hread, hbytes, hasked, hroom, hend⟩
      · refine ⟨.inl (.error ⟨k.strerror, .readFailed⟩,
          ⟨{ ls.fd with asked := ls.fd.asked ++ [rb.getWriteCursorLimit 64] }, rb,
            ls.assured + 1⟩), ?_, .readFailed hnone ha hfail rfl rfl⟩
        rw [nextRound, hfind]
        simp only [hassure, bind, Except.bind, ReadBufferResult.success, Bool.not_true, if_false,
          Bool.false_eq_true]
        rw [hread]
      · by_cases hne : bytes = []
        · subst hne
          exact h.round_end hfind hnone hassure ha hread (hend rfl) (hbytes.trans (hend rfl)) hasked
        · exact h.round_filled hfind hnone hassure ha hread hne hbytes hroom hasked

theorem asked_snoc {counts : List ℕ} (h : ∀ n ∈ counts, 0 < n) {count : ℕ} (hcount : 0 < count) :
    ∀ n ∈ counts ++ [count], 0 < n := by
  intro n hn
  rcases List.mem_append.mp hn with hold | hnew
  · exact h n hold
  · rw [List.mem_singleton.mp hnew]
    exact hcount

/-- After a call the next one begins at the front of the view. -/
theorem Scanned.returned (h : ls.Scanned scanned) {r : ResultString}
    (he : RoundEffect k ls (.inl (r, ls'))) : ls'.Scanned 0 := by
  have hvalid : ls'.readBuffer.Valid 64 := by
    cases he with
    | line _ _ hvalid => exact hvalid
    | assureFailed => exact h.valid
    | readFailed _ ha => exact (ha.valid h.valid).1
    | lastLine _ _ _ _ _ _ hvalid => exact hvalid
    | ended _ _ ha => exact (ha.valid h.valid).1
  have hasked : ∀ n ∈ ls'.fd.asked, 0 < n := by
    cases he with
    | line => exact h.asked
    | assureFailed => exact h.asked
    | readFailed _ ha _ _ hasked => exact hasked ▸ asked_snoc h.asked (ha.limit_pos h.valid)
    | lastLine _ _ _ ha _ hasked => exact hasked ▸ asked_snoc h.asked (ha.limit_pos h.valid)
    | ended _ _ ha _ hasked => exact hasked ▸ asked_snoc h.asked (ha.limit_pos h.valid)
  exact ⟨hvalid, hasked, Nat.zero_le _, by simp⟩

/-- The next round begins behind what this one searched. -/
theorem Scanned.continued (h : ls.Scanned scanned) {n : ℕ}
    (he : RoundEffect k ls (.inr (ls', n))) : ls'.Scanned n := by
  cases he with
  | filled hnone ha _ _ _ hasked hvalid hview =>
    have hlen : ls.readBuffer.view.length = ls.readBuffer.length := h.valid.length_view
    refine ⟨hvalid, hasked ▸ asked_snoc h.asked (ha.limit_pos h.valid), ?_, ?_⟩
    · rw [← hlen, ← hvalid.length_view, hview, List.length_append]
      exact Nat.le_add_right _ _
    · rw [hview, ← hlen, List.take_left]
      exact hnone

end SysExploration.LineStream
