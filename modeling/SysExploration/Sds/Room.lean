import Mathlib.Order.Nat
import SysExploration.Sds.Model

/-! The invariant of an sds string, and the functions that give it a block of another size. -/
namespace SysExploration

theorem SdsType.bits_le (type : SdsType) : type.bits ≤ 64 := by cases type <;> decide

theorem sdsHdrSize_pos (type : SdsType) : 0 < sdsHdrSize type := by cases type <;> decide

theorem sdsHdrSize_le (type : SdsType) : sdsHdrSize type ≤ 17 := by cases type <;> decide

/-- A length fits the header that is chosen for it. -/
theorem lt_two_pow_sdsReqType {n : ℕ} (h : n < 2 ^ 64) : n < 2 ^ (sdsReqType n).bits := by
  unfold sdsReqType
  split_ifs <;> assumption

theorem lt_two_pow_roomType {n : ℕ} (h : n < 2 ^ 64) : n < 2 ^ (Sds.roomType n).bits := by
  unfold Sds.roomType
  split_ifs with h5
  · have hfits := lt_two_pow_sdsReqType h
    rw [h5] at hfits
    exact hfits.trans (by decide)
  · exact lt_two_pow_sdsReqType h

theorem roomType_ne (n : ℕ) : Sds.roomType n ≠ .type5 := by
  unfold Sds.roomType
  split_ifs with h5
  · decide
  · exact h5

theorem newBlock_eq {hdrlen n : ℕ} (h : hdrlen + n + 1 < 2 ^ 64) (garbage : ℕ → UInt8) :
    newBlock hdrlen n garbage = .ok (block (n + 1) garbage) := by
  have hsize : toSize (hdrlen + n + 1) = hdrlen + n + 1 := by exact_mod_cast toSize_of_lt h
  have hrest : hdrlen + n + 1 - hdrlen = n + 1 := by omega
  rw [newBlock, hsize, if_pos (by omega), hrest]

theorem readBytes_eq {b : Bytes} {i n : ℕ} (h : i + n ≤ b.length) :
    readBytes b i n = .ok (slice b i n) := if_pos h

theorem writeBytes_eq {b bytes : Bytes} {i : ℕ} (h : i + bytes.length ≤ b.length) :
    writeBytes b i bytes = .ok (overwrite b i bytes) := if_pos h

namespace Sds

variable {s s' : Sds} {addlen n : ℕ} {mem : Malloc} {buf : Bytes}

/-- What the string holds. -/
def contents (s : Sds) : Bytes := s.buf.take s.len

/-- The length and the capacity are as the header has them, and the block has a byte more than
the capacity. -/
structure Shaped (s : Sds) : Prop where
  fits : s.sdsalloc < 2 ^ s.type.bits
  len_le : s.len ≤ s.sdsalloc
  room : s.sdsalloc < s.buf.length
  full : s.type ≠ .type5 → s.buf.length = s.alloc + 1
  small : sdsHdrSize s.type + s.buf.length < 2 ^ 64

/-- A zero ends the string. -/
structure Valid (s : Sds) : Prop extends Shaped s where
  terminated : s.buf[s.len]? = some 0

theorem sdsalloc_of_ne (h : s.type ≠ .type5) : s.sdsalloc = s.alloc := if_neg h

theorem sdssetlen_len (h : n < 2 ^ s.type.bits) : (s.sdssetlen n).len = n := Nat.mod_eq_of_lt h

theorem Shaped.len_lt (h : s.Shaped) : s.len < 2 ^ s.type.bits := h.len_le.trans_lt h.fits

theorem Shaped.len_lt_length (h : s.Shaped) : s.len < s.buf.length := h.len_le.trans_lt h.room

theorem Shaped.length_contents (h : s.Shaped) : s.contents.length = s.len :=
  List.length_take_of_le h.len_lt_length.le

/-- The free space is what the capacity leaves; type 5 has none. -/
theorem Shaped.sdsavail_eq (h : s.Shaped) : s.sdsavail = s.sdsalloc - s.len := by
  have hle := h.len_le
  have hfits := h.fits
  have h64 : s.sdsalloc < 2 ^ 64 :=
    hfits.trans_le (Nat.pow_le_pow_right (by decide) s.type.bits_le)
  have hword {w : ℕ} (halloc : s.sdsalloc = s.alloc) (hlt : s.sdsalloc < 2 ^ w) :
      toWord w ((s.alloc : ℤ) - s.len) = s.sdsalloc - s.len := by
    have hsub : (s.alloc : ℤ) - s.len = ((s.sdsalloc - s.len : ℕ) : ℤ) := by omega
    rw [hsub]
    exact toWord_of_lt (by omega)
  unfold sdsavail
  cases htype : s.type with
  | type5 => simp [sdsalloc, htype]
  | type32 =>
    rw [htype] at hfits
    exact hword (sdsalloc_of_ne (by rw [htype]; decide)) hfits
  | type8 => exact hword (sdsalloc_of_ne (by rw [htype]; decide)) h64
  | type16 => exact hword (sdsalloc_of_ne (by rw [htype]; decide)) h64
  | type64 => exact hword (sdsalloc_of_ne (by rw [htype]; decide)) h64

/-- New bytes in the same block, with a length that its capacity allows. -/
theorem Shaped.resize (h : s.Shaped) (hbuf : buf.length = s.buf.length) (hn : n ≤ s.sdsalloc) :
    ({ s with buf := buf }.sdssetlen n).Shaped ∧
      ({ s with buf := buf }.sdssetlen n).len = n := by
  have hlt : n < 2 ^ s.type.bits := hn.trans_lt h.fits
  have hlen : ({ s with buf := buf }.sdssetlen n).len = n :=
    sdssetlen_len (s := { s with buf := buf }) hlt
  have halloc : n ≤ ({ s with buf := buf }.sdssetlen n).sdsalloc ∧
      ({ s with buf := buf }.sdssetlen n).sdsalloc ≤ s.sdsalloc := by
    by_cases h5 : s.type = .type5
    · have hself : ({ s with buf := buf }.sdssetlen n).sdsalloc = n := (if_pos h5).trans hlen
      omega
    · have hsame : ({ s with buf := buf }.sdssetlen n).sdsalloc = s.sdsalloc :=
        (if_neg h5).trans (if_neg h5).symm
      omega
  refine ⟨⟨halloc.2.trans_lt h.fits, hlen.symm ▸ halloc.1, ?_, ?_, ?_⟩, hlen⟩
  · exact hbuf.symm ▸ halloc.2.trans_lt h.room
  · intro h5
    exact hbuf.trans (h.full h5)
  · exact hbuf.symm ▸ h.small

theorem Shaped.rewrite (h : s.Shaped) (hbuf : buf.length = s.buf.length) (hn : n ≤ s.sdsalloc)
    (hzero : buf[n]? = some 0) : ({ s with buf := buf }.sdssetlen n).Valid := by
  obtain ⟨hshaped, hlen⟩ := h.resize hbuf hn
  refine ⟨hshaped, ?_⟩
  rw [hlen]
  exact hzero

theorem Shaped.contents_rewrite (h : s.Shaped) (hn : n ≤ s.sdsalloc) :
    ({ s with buf := buf }.sdssetlen n).contents = buf.take n := by
  have hlt : n < 2 ^ s.type.bits := hn.trans_lt h.fits
  rw [contents, sdssetlen_len (s := { s with buf := buf }) hlt]
  rfl

@[simp] theorem headed_type (type : SdsType) (len n : ℕ) (buf : Bytes) :
    (headed type len n buf).type = type := by
  simp only [headed, sdssetalloc]
  split_ifs <;> rfl

@[simp] theorem headed_buf (type : SdsType) (len n : ℕ) (buf : Bytes) :
    (headed type len n buf).buf = buf := by
  simp only [headed, sdssetalloc]
  split_ifs <;> rfl

theorem headed_len {type : SdsType} {len : ℕ} (h : len < 2 ^ type.bits) (n : ℕ) (buf : Bytes) :
    (headed type len n buf).len = len := by
  have hlen : ((⟨type, 0, 0, buf⟩ : Sds).sdssetlen len).len = len := Nat.mod_eq_of_lt h
  simp only [headed, sdssetalloc]
  split_ifs <;> exact hlen

theorem headed_alloc {type : SdsType} (h5 : type ≠ .type5) (h : n < 2 ^ type.bits) (len : ℕ)
    (buf : Bytes) : (headed type len n buf).alloc = n := by
  have hne : ((⟨type, 0, 0, buf⟩ : Sds).sdssetlen len).type ≠ .type5 := h5
  rw [headed, sdssetalloc, if_neg hne]
  exact Nat.mod_eq_of_lt h

/-- A fresh block holds a string when the header has room for its capacity. -/
theorem shaped_headed {type : SdsType} {len : ℕ} (hn : n < 2 ^ type.bits) (hlen : len ≤ n)
    (h5 : type = .type5 → len = n) (hbuf : buf.length = n + 1)
    (hsmall : sdsHdrSize type + (n + 1) < 2 ^ 64) :
    (headed type len n buf).Shaped ∧ (headed type len n buf).len = len ∧
      (headed type len n buf).sdsalloc = n := by
  have hlt : len < 2 ^ type.bits := hlen.trans_lt hn
  have hcap : (headed type len n buf).sdsalloc = n := by
    rw [sdsalloc, headed_type, headed_len hlt]
    split_ifs with htype
    · exact h5 htype
    · exact headed_alloc htype hn len buf
  refine ⟨⟨?_, ?_, ?_, ?_, ?_⟩, headed_len hlt n buf, hcap⟩
  · rw [hcap, headed_type]
    exact hn
  · rw [hcap, headed_len hlt]
    exact hlen
  · rw [hcap, headed_buf, hbuf]
    exact Nat.lt_succ_self n
  · intro hne
    rw [headed_type] at hne
    rw [headed_buf, headed_alloc hne hn, hbuf]
  · rw [headed_type, headed_buf, hbuf]
    exact hsmall

end Sds

/-- There are `n` bytes to copy. -/
def SdsInit.Provides : SdsInit → ℕ → Prop
  | data bytes, n => n ≤ bytes.length
  | _, _ => True

/-- What a new string holds; nothing is known of one that is not initialised. -/
def SdsInit.Gives : SdsInit → ℕ → Bytes → Prop
  | null, n, c => c = List.replicate n 0
  | noinit, _, _ => True
  | data bytes, n, c => c = bytes.take n

theorem SdsInit.fill_eq {init : SdsInit} {n : ℕ} (h : init.Provides n) {buf : Bytes}
    (hbuf : buf.length = n + 1) :
    ∃ b, init.fill n buf = .ok b ∧ b.length = n + 1 ∧ init.Gives n (b.take n) := by
  cases init with
  | null =>
    have hroom : 0 + (List.replicate buf.length (0 : UInt8)).length ≤ buf.length := by simp
    refine ⟨_, writeBytes_eq hroom, (length_overwrite hroom).trans hbuf, ?_⟩
    have htake : (overwrite buf 0 (List.replicate buf.length (0 : UInt8))).take
        (0 + (List.replicate buf.length (0 : UInt8)).length) =
          buf.take 0 ++ List.replicate buf.length (0 : UInt8) :=
      take_overwrite_append (Nat.zero_le buf.length)
    have hall := congrArg (List.take n) htake
    rw [List.take_take, List.length_replicate, hbuf, Nat.min_eq_left (by omega), List.take_zero,
      List.nil_append, List.take_replicate, Nat.min_eq_left (by omega)] at hall
    rw [Gives, hbuf, hall]
  | noinit => exact ⟨buf, rfl, hbuf, trivial⟩
  | data bytes =>
    have hle : n ≤ bytes.length := h
    have hread : readBytes bytes 0 n = .ok (slice bytes 0 n) := readBytes_eq (by omega)
    have hlen : (slice bytes 0 n).length = n := length_slice (by omega)
    have hroom : 0 + (slice bytes 0 n).length ≤ buf.length := by omega
    refine ⟨overwrite buf 0 (slice bytes 0 n), ?_, (length_overwrite hroom).trans hbuf, ?_⟩
    · rw [fill, hread]
      exact writeBytes_eq hroom
    · have htake := take_overwrite buf (slice bytes 0 n)
      rw [hlen] at htake
      rw [Gives, htake, slice, List.drop_zero]

namespace Sds

variable {s s' : Sds} {addlen n : ℕ} {mem : Malloc} {buf : Bytes}

theorem sdsnewlen_null (init : SdsInit) (n : ℕ) : sdsnewlen init n none = .ok none := rfl

theorem sdsnewlen_eq {init : SdsInit} (hinit : init.Provides n) (hsmall : n + 18 < 2 ^ 64)
    (garbage : ℕ → UInt8) :
    ∃ s, sdsnewlen init n (some garbage) = .ok (some s) ∧ s.Valid ∧ s.len = n ∧
      s.sdsalloc = n ∧ init.Gives n s.contents := by
  obtain ⟨type, htype⟩ : ∃ type : SdsType,
      (if sdsReqType n = .type5 ∧ n = 0 then .type8 else sdsReqType n) = type := ⟨_, rfl⟩
  have hfits : n < 2 ^ type.bits := by
    rw [← htype]
    split_ifs with h0
    · rw [h0.2]
      decide
    · exact lt_two_pow_sdsReqType (by omega)
  have hle := sdsHdrSize_le type
  obtain ⟨b, hb, hlength, hgives⟩ := SdsInit.fill_eq hinit (length_block (n + 1) garbage)
  have hzero : n + [(0 : UInt8)].length ≤ b.length := by
    rw [hlength]
    exact le_refl _
  have hend : (overwrite b n [0])[n]? = some 0 :=
    getElem?_overwrite (j := 0) (by omega) Nat.zero_lt_one
  have hnew : (overwrite b n [0]).length = n + 1 := (length_overwrite hzero).trans hlength
  obtain ⟨hshaped, hlen, hcap⟩ := shaped_headed hfits (le_refl n) (fun _ => rfl) hnew (by omega)
  refine ⟨headed type n n (overwrite b n [0]), ?_, ⟨hshaped, ?_⟩, hlen, hcap, ?_⟩
  · simp only [sdsnewlen, htype]
    rw [newBlock_eq (by omega)]
    change (init.fill n (block (n + 1) garbage)).bind _ = _
    rw [hb]
    change (writeBytes b n [0]).bind _ = _
    rw [writeBytes_eq hzero]
    rfl
  · rw [hlen, headed_buf]
    exact hend
  · have htake : (overwrite b n [0]).take n = b.take n :=
      take_overwrite_of_le (le_refl n) (by omega)
    rw [contents, hlen, headed_buf, htake]
    exact hgives

theorem sdsnewlen_data {bytes : Bytes} (hle : n ≤ bytes.length) (hsmall : n + 18 < 2 ^ 64)
    (garbage : ℕ → UInt8) :
    ∃ s, sdsnewlen (.data bytes) n (some garbage) = .ok (some s) ∧ s.Valid ∧
      s.contents = bytes.take n := by
  have hprovides : (SdsInit.data bytes).Provides n := hle
  obtain ⟨s, hs, hvalid, -, -, hgives⟩ := sdsnewlen_eq hprovides hsmall garbage
  exact ⟨s, hs, hvalid, hgives⟩

theorem sdsempty_eq (garbage : ℕ → UInt8) :
    ∃ s, sdsempty (some garbage) = .ok (some s) ∧ s.Valid ∧ s.contents = [] := by
  obtain ⟨s, hs, hvalid, hc⟩ := sdsnewlen_data (Nat.zero_le [].length) (by decide) garbage
  rw [List.take_nil] at hc
  exact ⟨s, hs, hvalid, hc⟩

theorem toSize_wrap {n : ℕ} (h : 2 ^ 64 ≤ n) (h' : n < 2 * 2 ^ 64) : toSize n = n - 2 ^ 64 := by
  unfold toSize toWord
  omega

theorem preallocated_eq (h : n + sdsMaxPrealloc < 2 ^ 64) :
    preallocated n = if n < sdsMaxPrealloc then n * 2 else n + sdsMaxPrealloc := by
  have hdouble : n < sdsMaxPrealloc → toSize (n * 2) = n * 2 := by
    intro hlt
    unfold sdsMaxPrealloc at hlt
    exact_mod_cast toSize_of_lt (n := n * 2) (by omega)
  have hadd : toSize (n + sdsMaxPrealloc) = n + sdsMaxPrealloc := by
    exact_mod_cast toSize_of_lt h
  unfold preallocated
  split_ifs with hlt
  · exact hdouble hlt
  · exact hadd

theorem le_preallocated (h : n + sdsMaxPrealloc < 2 ^ 64) : n ≤ preallocated n := by
  rw [preallocated_eq h]
  split_ifs <;> omega

theorem preallocated_le (h : n + sdsMaxPrealloc < 2 ^ 64) :
    preallocated n ≤ n + sdsMaxPrealloc := by
  rw [preallocated_eq h]
  split_ifs <;> omega

/-- The `assert` of `sdsMakeRoomFor` fails when the size of the block wraps, and for the last few
sizes that would not. -/
theorem room_check (h : n < 2 ^ 64) :
    n < toSize (sdsHdrSize (roomType (preallocated n)) + preallocated n + 1) ↔
      n + sdsMaxPrealloc + 18 < 2 ^ 64 := by
  have hhdr := sdsHdrSize_le (roomType (preallocated n))
  have hpos := sdsHdrSize_pos (roomType (preallocated n))
  have hcast : ((sdsHdrSize (roomType (preallocated n)) : ℤ) + (preallocated n : ℤ) + 1) =
      ((sdsHdrSize (roomType (preallocated n)) + preallocated n + 1 : ℕ) : ℤ) := by
    push_cast
    rfl
  rw [hcast]
  by_cases hsum : n + sdsMaxPrealloc < 2 ^ 64
  · have hle := le_preallocated hsum
    have hge := preallocated_le hsum
    by_cases hfits : n + sdsMaxPrealloc + 18 < 2 ^ 64
    · rw [toSize_of_lt (by omega)]
      exact iff_of_true (by omega) hfits
    · -- the largest header is taken
      have hlarge : preallocated n = n + sdsMaxPrealloc := by
        rw [preallocated_eq hsum, if_neg]
        unfold sdsMaxPrealloc at hfits ⊢
        omega
      have htype : sdsHdrSize (roomType (preallocated n)) = 17 := by
        have hbig : 2 ^ 32 ≤ preallocated n := by
          unfold sdsMaxPrealloc at hfits hlarge
          omega
        have hreq : sdsReqType (preallocated n) = .type64 := by
          unfold sdsReqType
          split_ifs <;> first | rfl | omega
        rw [roomType, hreq]
        rfl
      have hmax : sdsMaxPrealloc = 1048576 := rfl
      rw [htype, hlarge, toSize_wrap (by omega) (by omega)]
      exact iff_of_false (by omega) hfits
  · have hwrapped : preallocated n = n + sdsMaxPrealloc - 2 ^ 64 := by
      have hmax : ¬ n < sdsMaxPrealloc := by
        unfold sdsMaxPrealloc at hsum ⊢
        omega
      have hadd := toSize_wrap (n := n + sdsMaxPrealloc) (by omega)
        (by unfold sdsMaxPrealloc; omega)
      rw [preallocated, if_neg hmax, ← hadd]
      push_cast
      rfl
    unfold sdsMaxPrealloc at hsum hwrapped ⊢
    rw [toSize_of_lt (by omega)]
    exact iff_of_false (by omega) (by omega)

/-- The string is moved to a block with a capacity of `n` bytes, the bytes it holds unchanged,
and the one behind them. -/
structure Moved (s s' : Sds) (type : SdsType) (n : ℕ) : Prop where
  type_eq : s'.type = type
  shaped : s'.Shaped
  len : s'.len = s.len
  contents : s'.contents = s.contents
  last : s'.buf[s.len]? = s.buf[s.len]?
  alloc : s'.sdsalloc = n

theorem Moved.valid {type : SdsType} (h : Moved s s' type n) (hs : s.Valid) : s'.Valid :=
  ⟨h.shaped, h.len.symm ▸ h.last.trans hs.terminated⟩

/-- `realloc` under the same header. -/
theorem Shaped.realloc (h : s.Shaped) (hlen : s.len ≤ n) (hfits : n < 2 ^ s.type.bits)
    (h5 : s.type ≠ .type5) (hsmall : sdsHdrSize s.type + n + 1 < 2 ^ 64) (garbage : ℕ → UInt8) :
    ∃ s', s.reallocated n garbage = .ok s' ∧ Moved s s' s.type n := by
  have hroom : 0 + (s.buf.take (block (n + 1) garbage).length).length ≤
      (block (n + 1) garbage).length := by
    rw [List.length_take, length_block]
    omega
  obtain ⟨b, hb⟩ : ∃ b, overwrite (block (n + 1) garbage) 0
    (s.buf.take (block (n + 1) garbage).length) = b := ⟨_, rfl⟩
  refine ⟨{ s with buf := b }.sdssetalloc n, ?_, ?_⟩
  · unfold reallocated reallocBlock
    rw [newBlock_eq hsmall, ← hb]
    rfl
  have hbuf : b.length = n + 1 := by
    rw [← hb, length_overwrite hroom, length_block]
  have hlt := h.len_lt_length
  have hkept {j : ℕ} (hj : j < s.buf.length) (hjn : j < n + 1) : b[j]? = s.buf[j]? := by
    have hin : j < (s.buf.take (block (n + 1) garbage).length).length := by
      rw [List.length_take, length_block]
      omega
    have hget := getElem?_overwrite (l := block (n + 1) garbage) (Nat.zero_le _) hin
    rw [Nat.zero_add, hb, List.getElem?_take_of_lt (by rw [length_block]; exact hjn)] at hget
    exact hget
  have hnew : ({ s with buf := b }.sdssetalloc n) = { s with buf := b, alloc := n } := by
    rw [sdssetalloc, if_neg (show ({ s with buf := b } : Sds).type ≠ .type5 from h5)]
    exact congrArg (fun m => ({ s with buf := b, alloc := m } : Sds)) (Nat.mod_eq_of_lt hfits)
  have hcap : ({ s with buf := b, alloc := n } : Sds).sdsalloc = n := if_neg h5
  rw [hnew]
  refine ⟨rfl, ⟨hcap.symm ▸ hfits, hcap.symm ▸ hlen, ?_, fun _ => hbuf, ?_⟩, rfl, ?_,
    hkept hlt (by omega), hcap⟩
  · rw [hcap]
    exact hbuf.symm ▸ Nat.lt_succ_self n
  · exact hbuf.symm ▸ hsmall
  · unfold Sds.contents
    apply List.ext_getElem?
    intro j
    simp only [List.getElem?_take]
    split_ifs with hj
    · exact hkept (by omega) (by omega)
    · rfl

/-- A copy under a new header. -/
theorem Shaped.copy (h : s.Shaped) {type : SdsType} (hlen : s.len ≤ n) (hfits : n < 2 ^ type.bits)
    (h5 : type = .type5 → s.len = n) (hsmall : sdsHdrSize type + n + 1 < 2 ^ 64)
    (garbage : ℕ → UInt8) :
    ∃ s', s.copied type n garbage = .ok s' ∧ Moved s s' type n := by
  have hlt := h.len_lt_length
  have hbytes : (slice s.buf 0 (s.len + 1)).length = s.len + 1 := length_slice (by omega)
  have hroom : 0 + (slice s.buf 0 (s.len + 1)).length ≤ (block (n + 1) garbage).length := by
    rw [hbytes, length_block]
    omega
  obtain ⟨b, hb⟩ : ∃ b, overwrite (block (n + 1) garbage) 0 (slice s.buf 0 (s.len + 1)) = b :=
    ⟨_, rfl⟩
  refine ⟨headed type s.len n b, ?_, ?_⟩
  · unfold copied sdslen
    rw [newBlock_eq hsmall, readBytes_eq (by omega)]
    change (writeBytes _ 0 _).bind _ = _
    rw [writeBytes_eq hroom, ← hb]
    rfl
  have htake : b.take (s.len + 1) = s.buf.take (s.len + 1) := by
    have hread := take_overwrite (block (n + 1) garbage) (slice s.buf 0 (s.len + 1))
    rw [hbytes, hb] at hread
    exact hread
  have hlast : b[s.len]? = s.buf[s.len]? := by
    have hget := congrArg (fun l : Bytes => l[s.len]?) htake
    simp only [List.getElem?_take_of_lt (Nat.lt_succ_self s.len)] at hget
    exact hget
  obtain ⟨hshaped, hlen', hcap⟩ := shaped_headed hfits hlen h5
    (hb ▸ (length_overwrite hroom).trans (length_block _ _)) (by omega)
  refine ⟨headed_type _ _ _ _, hshaped, hlen', ?_, (headed_buf _ _ _ b).symm ▸ hlast, hcap⟩
  have hcut := congrArg (List.take s.len) htake
  rw [List.take_take, List.take_take, Nat.min_eq_left (Nat.le_succ _)] at hcut
  rw [Sds.contents, hlen', headed_buf]
  exact hcut

/-- What `sdsMakeRoomFor` does when the sum of the lengths is a `size_t`. -/
inductive RoomOutcome (s : Sds) (addlen : ℕ) (mem : Malloc) :
    Except SdsFault (Option Sds) → Prop
  | enough : addlen ≤ s.sdsavail → RoomOutcome s addlen mem (.ok (some s))
  | refused : s.sdsavail < addlen → 2 ^ 64 ≤ s.len + addlen + sdsMaxPrealloc + 18 →
      RoomOutcome s addlen mem (.error .assertion)
  | null : s.sdsavail < addlen → s.len + addlen + sdsMaxPrealloc + 18 < 2 ^ 64 → mem = none →
      RoomOutcome s addlen mem (.ok none)
  | moved {s' : Sds} {garbage : ℕ → UInt8} : s.sdsavail < addlen →
      s.len + addlen + sdsMaxPrealloc + 18 < 2 ^ 64 → mem = some garbage →
      Moved s s' (roomType (preallocated (s.len + addlen))) (preallocated (s.len + addlen)) →
      RoomOutcome s addlen mem (.ok (some s'))

theorem Shaped.makeRoom (h : s.Shaped) (hsum : s.len + addlen < 2 ^ 64) (mem : Malloc) :
    RoomOutcome s addlen mem (s.sdsMakeRoomFor addlen mem) := by
  have hreq : toSize (s.len + addlen) = s.len + addlen := by exact_mod_cast toSize_of_lt hsum
  have hcheck := room_check hsum
  simp only [sdsMakeRoomFor, sdslen, hreq]
  by_cases henough : addlen ≤ s.sdsavail
  · rw [if_pos henough]
    exact .enough henough
  rw [if_neg henough]
  by_cases hbig : s.len + addlen + sdsMaxPrealloc + 18 < 2 ^ 64
  case neg =>
    rw [if_pos fun hlt => hbig (hcheck.mp hlt)]
    exact .refused (by omega) (by omega)
  rw [if_neg (not_not.mpr (hcheck.mpr hbig))]
  cases mem with
  | none => exact .null (by omega) hbig rfl
  | some garbage =>
    have hle := le_preallocated (n := s.len + addlen) (by omega)
    have hge := preallocated_le (n := s.len + addlen) (by omega)
    have hfits := lt_two_pow_roomType (n := preallocated (s.len + addlen)) (by omega)
    have hhdr := sdsHdrSize_le (roomType (preallocated (s.len + addlen)))
    have hne := roomType_ne (preallocated (s.len + addlen))
    by_cases htype : s.type = roomType (preallocated (s.len + addlen))
    · obtain ⟨s', hs', hmoved⟩ := h.realloc (n := preallocated (s.len + addlen)) (by omega)
        (htype ▸ hfits) (htype ▸ hne) (by rw [htype]; omega) garbage
      simp only [if_pos htype, hs']
      exact .moved (by omega) hbig rfl (htype ▸ hmoved)
    · obtain ⟨s', hs', hmoved⟩ := h.copy (n := preallocated (s.len + addlen)) (by omega) hfits
        (fun h5 => absurd h5 hne) (by omega) garbage
      simp only [if_neg htype, hs']
      exact .moved (by omega) hbig rfl hmoved

/-- `sdsRemoveFreeSpace` leaves the string as it is, or without free space. -/
theorem Shaped.removeFreeSpace (h : s.Shaped) (mem : Malloc) :
    s.sdsRemoveFreeSpace mem = .ok (some s) ∧ s.sdsavail = 0 ∨
      s.sdsRemoveFreeSpace mem = .ok none ∧ mem = none ∨
      ∃ s' type, s.sdsRemoveFreeSpace mem = .ok (some s') ∧ Moved s s' type s.len := by
  have hlt := h.len_lt_length
  have hsmall := h.small
  unfold sdsRemoveFreeSpace sdslen
  by_cases havail : s.sdsavail = 0
  · exact .inl ⟨if_pos havail, havail⟩
  rw [if_neg havail]
  cases mem with
  | none => exact .inr (.inl ⟨rfl, rfl⟩)
  | some garbage =>
    refine .inr (.inr ?_)
    have hne : s.type ≠ .type5 := by
      intro h5
      rw [sdsavail, h5] at havail
      exact havail rfl
    by_cases hsame : s.type = sdsReqType s.len ∨
      (sdsReqType s.len ≠ .type5 ∧ sdsReqType s.len ≠ .type8)
    · obtain ⟨s', hs', hmoved⟩ := h.realloc (le_refl s.len) h.len_lt hne (by omega) garbage
      refine ⟨s', s.type, ?_, hmoved⟩
      simp only [if_pos hsame, hs']
      rfl
    · -- the new header is one of the two smallest
      have hfits := lt_two_pow_sdsReqType (n := s.len) (by omega)
      have hshort : s.len < 2 ^ 8 := by
        have hbits : (sdsReqType s.len).bits ≤ 8 := by
          cases htype : sdsReqType s.len <;> rw [htype] at hsame <;> simp [SdsType.bits] at hsame ⊢
        exact hfits.trans_le (Nat.pow_le_pow_right (by decide) hbits)
      have hhdr := sdsHdrSize_le (sdsReqType s.len)
      obtain ⟨s', hs', hmoved⟩ := h.copy (le_refl s.len) hfits (fun _ => rfl) (by omega) garbage
      refine ⟨s', sdsReqType s.len, ?_, hmoved⟩
      simp only [if_neg hsame, hs']
      rfl

theorem bind_ne_assertion {α β : Type} {x : Except SdsFault α} {f : α → Except SdsFault β}
    (hx : x ≠ .error .assertion) (hf : ∀ a, f a ≠ .error .assertion) :
    x.bind f ≠ .error .assertion := by
  cases x with
  | error e =>
    intro heq
    exact hx (congrArg _ (Except.error.inj heq))
  | ok a => exact hf a

theorem ok_ne_assertion {α : Type} (a : α) : (.ok a : Except SdsFault α) ≠ .error .assertion := by
  intro heq
  cases heq

theorem newBlock_ne_assertion (hdrlen n : ℕ) (garbage : ℕ → UInt8) :
    newBlock hdrlen n garbage ≠ .error .assertion := by
  unfold newBlock
  simp only
  split_ifs <;> simp

theorem reallocated_ne_assertion (s : Sds) (n : ℕ) (garbage : ℕ → UInt8) :
    s.reallocated n garbage ≠ .error .assertion :=
  bind_ne_assertion (bind_ne_assertion (newBlock_ne_assertion _ _ _) fun _ => ok_ne_assertion _)
    fun _ => ok_ne_assertion _

theorem copied_ne_assertion (s : Sds) (type : SdsType) (n : ℕ) (garbage : ℕ → UInt8) :
    s.copied type n garbage ≠ .error .assertion := by
  apply bind_ne_assertion (newBlock_ne_assertion _ _ _)
  intro b
  apply bind_ne_assertion
  · unfold readBytes
    split_ifs <;> simp
  · intro bytes
    apply bind_ne_assertion _ fun _ => ok_ne_assertion _
    unfold writeBytes
    split_ifs <;> simp

/-- `sdsMakeRoomFor` on memory that is there gives the room it is asked for exactly up to a sum of
the lengths that leaves it a mebibyte to reserve and a header. Its assertion, which is to catch an
overflow of `size_t`, catches that of the block but not that of the sum: it looks at the lengths
after their sum has wrapped. -/
theorem makeRoom_exact (h : s.Valid) (hadd : addlen < 2 ^ 64) (garbage : ℕ → UInt8) :
    ((∃ s', s.sdsMakeRoomFor addlen (some garbage) = .ok (some s') ∧ s'.Valid ∧
        s'.contents = s.contents ∧ s.len + addlen ≤ s'.sdsalloc) ↔
      addlen ≤ s.sdsavail ∨ s.len + addlen + sdsMaxPrealloc + 18 < 2 ^ 64) ∧
    (s.sdsMakeRoomFor addlen (some garbage) = .error .assertion ↔
      s.sdsavail < addlen ∧ 2 ^ 64 ≤ (s.len + addlen) % 2 ^ 64 + sdsMaxPrealloc + 18) := by
  have havail := h.sdsavail_eq
  have hlen := h.len_le
  have hlt := h.len_lt_length
  have hsmall := h.small
  by_cases hsum : s.len + addlen < 2 ^ 64
  · have hout := h.makeRoom hsum (some garbage)
    rw [Nat.mod_eq_of_lt hsum]
    generalize s.sdsMakeRoomFor addlen (some garbage) = out at hout ⊢
    cases hout with
    | enough hle =>
      refine ⟨iff_of_true ⟨s, rfl, h, rfl, by omega⟩ (.inl hle), ?_⟩
      exact iff_of_false (ok_ne_assertion _) (by omega)
    | refused hshort hbig =>
      refine ⟨iff_of_false ?_ (by omega), iff_of_true rfl ⟨hshort, hbig⟩⟩
      rintro ⟨s', hs', -⟩
      cases hs'
    | null _ _ hmem => cases hmem
    | moved hshort hbig _ hmoved =>
      have hroom := le_preallocated (n := s.len + addlen) (by omega)
      refine ⟨iff_of_true ⟨_, rfl, hmoved.valid h, hmoved.contents, ?_⟩ (.inr hbig), ?_⟩
      · rw [hmoved.alloc]
        exact hroom
      · exact iff_of_false (ok_ne_assertion _) (by omega)
  · have hwrap : toSize (s.len + addlen) = (s.len + addlen) % 2 ^ 64 := by
      unfold toSize toWord
      omega
    have hmod : (s.len + addlen) % 2 ^ 64 < 2 ^ 64 := Nat.mod_lt _ (by decide)
    have hcheck := room_check hmod
    have hroom := h.room
    have hshort : ¬ addlen ≤ s.sdsavail := by omega
    refine ⟨iff_of_false ?_ (by omega), ?_⟩
    · rintro ⟨s', -, hvalid, -, hin⟩
      have hlt' := hvalid.room
      have hsmall' := hvalid.small
      omega
    · simp only [sdsMakeRoomFor, sdslen, if_neg hshort, hwrap]
      by_cases hbig : (s.len + addlen) % 2 ^ 64 + sdsMaxPrealloc + 18 < 2 ^ 64
      · rw [if_neg (not_not.mpr (hcheck.mpr hbig))]
        refine iff_of_false ?_ (by omega)
        change Except.bind _ _ ≠ _
        apply bind_ne_assertion _ fun _ => ok_ne_assertion _
        split_ifs
        · exact reallocated_ne_assertion _ _ _
        · exact copied_ne_assertion _ _ _ _
      · rw [if_pos fun hok => hbig (hcheck.mp hok)]
        exact iff_of_true rfl ⟨by omega, by omega⟩

/-- Two bytes and no free space: asked for `2 ^ 64 - 1` more, the call returns the string as it is,
and no assertion fails. -/
def twoBytes : Sds := ⟨.type8, 2, 2, [65, 66, 0]⟩

theorem makeRoom_exact_wrap :
    twoBytes.sdsMakeRoomFor (2 ^ 64 - 1) (some fun _ => 0) = .ok (some twoBytes) ∧
    ((∃ s', twoBytes.sdsMakeRoomFor (2 ^ 64 - 1) (some fun _ => 0) = .ok (some s') ∧ s'.Valid ∧
        s'.contents = twoBytes.contents ∧ twoBytes.len + (2 ^ 64 - 1) ≤ s'.sdsalloc) ↔
      2 ^ 64 - 1 ≤ twoBytes.sdsavail ∨
        twoBytes.len + (2 ^ 64 - 1) + sdsMaxPrealloc + 18 < 2 ^ 64) ∧
    (twoBytes.sdsMakeRoomFor (2 ^ 64 - 1) (some fun _ => 0) = .error .assertion ↔
      twoBytes.sdsavail < 2 ^ 64 - 1 ∧
        2 ^ 64 ≤ (twoBytes.len + (2 ^ 64 - 1)) % 2 ^ 64 + sdsMaxPrealloc + 18) := by
  have hvalid : twoBytes.Valid :=
    ⟨⟨by decide, by decide, by decide, fun _ => rfl, by decide⟩, rfl⟩
  exact ⟨by decide +kernel, makeRoom_exact hvalid (by decide) _⟩

end Sds
end SysExploration
