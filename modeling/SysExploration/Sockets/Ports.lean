import SysExploration.Sockets.Model

/-! What becomes of the port in an argument. -/
namespace SysExploration.TcpServer

variable {args : List CString}

theorem isDigit_iff {c : UInt8} : isDigit c = true ↔ 48 ≤ c ∧ c ≤ 57 := by
  rw [isDigit, decide_eq_true_eq]

/-- A digit is no blank and no sign. -/
theorem plain_of_isDigit {c : UInt8} (h : isDigit c) :
    Sds.isspace c = false ∧ c ≠ 45 ∧ c ≠ 43 := by
  obtain ⟨hlow, -⟩ := isDigit_iff.mp h
  rw [UInt8.le_iff_toNat_le] at hlow
  change 48 ≤ c.toNat at hlow
  refine ⟨?_, ?_, ?_⟩
  · rw [Sds.isspace, decide_eq_false_iff_not, UInt8.le_iff_toNat_le, UInt8.le_iff_toNat_le]
    change ¬ (c = 32 ∨ 9 ≤ c.toNat ∧ c.toNat ≤ 13)
    rintro (rfl | ⟨-, hhigh⟩)
    · exact absurd hlow (by decide)
    · omega
  · rintro rfl
    exact absurd hlow (by decide)
  · rintro rfl
    exact absurd hlow (by decide)

theorem strtol_numeral {n : ℕ} (hn : n < 2 ^ 63) : strtol (numeral n) = ((n : ℤ), []) := by
  have hdigits : ∀ c ∈ numeral n, isDigit c := fun c hc =>
    isDigit_iff.mpr (isDigit_of_mem_numeral hc)
  obtain ⟨c, b, hcons⟩ := List.exists_cons_of_ne_nil (numeral_ne_nil n)
  have hfirst := plain_of_isDigit (hdigits c (hcons ▸ List.mem_cons_self))
  have hblank : (numeral n).dropWhile Sds.isspace = numeral n := by
    rw [hcons, List.dropWhile_cons_of_neg (by simp [hfirst.1])]
  have hhead : (numeral n).head? = some c := by rw [hcons, List.head?_cons]
  have htake : (numeral n).takeWhile isDigit = numeral n := List.takeWhile_eq_self_iff.mpr hdigits
  have hdrop : (numeral n).dropWhile isDigit = [] := List.dropWhile_eq_nil_iff.mpr hdigits
  have hminus : ¬ (numeral n).head? = some 45 := by
    rw [hhead, Option.some_inj]
    exact hfirst.2.1
  have hplus : ¬ (numeral n).head? = some 43 := by
    rw [hhead, Option.some_inj]
    exact hfirst.2.2
  simp only [strtol, hblank, hminus, hplus, or_self, ↓reduceIte, htake, hdrop, numeral_ne_nil,
    readNumeral_numeral]
  congr 1
  omega

theorem portString_eq {port : ℤ} (hlow : 0 ≤ port) (hhigh : port ≤ 65535) :
    (numeral (toWord 16 port)).take 5 = numeral port.toNat ∧ (port.toNat : ℤ) = port := by
  have hnat : (port.toNat : ℤ) = port := Int.toNat_of_nonneg hlow
  have hword : toWord 16 port = port.toNat := by
    rw [← hnat]
    exact toWord_of_lt (by omega)
  have hlength : (numeral port.toNat).length ≤ 5 :=
    length_numeral_le (by omega) (by decide)
  rw [hword, List.take_of_length_le hlength]
  exact ⟨rfl, hnat⟩

theorem numberedService_iff {usage : String} {b : Bytes} :
    numberedService usage args = .ok b ↔ ∃ arg, args = [arg] ∧
      (1024 ≤ (strtol arg.bytes).1 ∧ (strtol arg.bytes).1 ≤ 65535) ∧
      b = numeral (strtol arg.bytes).1.toNat := by
  match args with
  | [] => simp [numberedService]
  | [arg] =>
    simp only [numberedService]
    constructor
    · intro h
      split_ifs at h with hzero hrange
      have hlow : 1024 ≤ (strtol arg.bytes).1 := by omega
      have hhigh : (strtol arg.bytes).1 ≤ 65535 := by omega
      have hb := (portString_eq (by omega) hhigh).1
      exact ⟨arg, rfl, ⟨hlow, hhigh⟩, (Except.ok.inj h).symm.trans hb⟩
    · rintro ⟨arg', heq, ⟨hlow, hhigh⟩, rfl⟩
      obtain rfl := List.singleton_inj.mp heq
      rw [if_neg (by omega), if_neg (by omega), (portString_eq (by omega) hhigh).1]
  | _ :: _ :: _ => simp [numberedService]

theorem pollingService_iff {b : Bytes} :
    pollingService args = .ok b ↔ ∃ arg, args.head? = some arg ∧ (strtol arg.bytes).2 = [] ∧
      (1024 < (strtol arg.bytes).1 ∧ (strtol arg.bytes).1 < 65535) ∧ b = arg.bytes := by
  cases args with
  | nil => simp [pollingService]
  | cons arg args =>
    simp only [pollingService, List.head?_cons, Option.some.injEq]
    constructor
    · intro h
      split_ifs at h with hbad
      rw [not_or, not_or, not_not, not_le, not_le] at hbad
      exact ⟨arg, rfl, hbad.1, hbad.2, (Except.ok.inj h).symm⟩
    · rintro ⟨arg', rfl, hend, ⟨hlow, hhigh⟩, rfl⟩
      rw [if_neg]
      rw [not_or, not_or, not_not, not_le, not_le]
      exact ⟨hend, hlow, hhigh⟩

/-- The text is a number as a whole, and it is the port in the first argument. -/
def Names (args : List CString) (b : Bytes) : Prop :=
  ∃ arg, args.head? = some arg ∧ strtol b = ((strtol arg.bytes).1, []) ∧
    1024 ≤ (strtol arg.bytes).1 ∧ (strtol arg.bytes).1 ≤ 65535

theorem numberedService_names {usage : String} {b : Bytes}
    (h : numberedService usage args = .ok b) : Names args b := by
  obtain ⟨arg, rfl, ⟨hlow, hhigh⟩, rfl⟩ := numberedService_iff.mp h
  refine ⟨arg, rfl, ?_, hlow, hhigh⟩
  rw [strtol_numeral (n := (strtol arg.bytes).1.toNat) (by omega),
    (portString_eq (by omega) hhigh).2]

theorem pollingService_names {b : Bytes} (h : pollingService args = .ok b) : Names args b := by
  obtain ⟨arg, hhead, hend, ⟨hlow, hhigh⟩, rfl⟩ := pollingService_iff.mp h
  exact ⟨arg, hhead, by rw [← hend], hlow.le, hhigh.le⟩

theorem numberedService_of_polling (usage : String) {arg : CString} {b : Bytes}
    (h : pollingService [arg] = .ok b) : ∃ b', numberedService usage [arg] = .ok b' := by
  obtain ⟨arg', hhead, -, ⟨hlow, hhigh⟩, -⟩ := pollingService_iff.mp h
  obtain rfl := Option.some.inj hhead
  exact ⟨_, numberedService_iff.mpr ⟨arg, rfl, ⟨hlow.le, hhigh.le⟩, rfl⟩⟩

/-- Whatever the arguments, the resolver is asked for a text that is a number as a whole, the one
in the first argument, and a port: nothing is lost on the way through an `unsigned short` and six
bytes. An argument that the polling server accepts alone is accepted by the others. -/
theorem ports_reach_getaddrinfo (p : TcpServer) (args : List CString) :
    (∀ b, p.service args = .ok b → Names args b) ∧
      ∀ arg b, polling.service [arg] = .ok b → ∃ b', p.service [arg] = .ok b' := by
  cases p with
  | polling => exact ⟨fun _ h => pollingService_names h, fun _ b h => ⟨b, h⟩⟩
  | pthreads =>
    exact ⟨fun _ h => numberedService_names h, fun _ _ h =>
      numberedService_of_polling "Usage: ./%s <portno>\n" h⟩
  | single =>
    exact ⟨fun _ h => numberedService_names h, fun _ _ h =>
      numberedService_of_polling "usage: ./tcp_single <port>" h⟩

/-- The argument " +8080". -/
theorem ports_reach_getaddrinfo_signed :
    pthreads.service [⟨[32, 43, 56, 48, 56, 48], by decide⟩] = .ok [56, 48, 56, 48] ∧
      Names [⟨[32, 43, 56, 48, 56, 48], by decide⟩] [56, 48, 56, 48] ∧
      ∃ b, single.service [⟨[32, 43, 56, 48, 56, 48], by decide⟩] = .ok b := by
  have hservice : pthreads.service [⟨[32, 43, 56, 48, 56, 48], by decide⟩] =
      .ok [56, 48, 56, 48] := by decide +kernel
  have hpolling : polling.service [⟨[32, 43, 56, 48, 56, 48], by decide⟩] =
      .ok [32, 43, 56, 48, 56, 48] := by decide +kernel
  exact ⟨hservice, (ports_reach_getaddrinfo pthreads _).1 _ hservice,
    (ports_reach_getaddrinfo single []).2 _ _ hpolling⟩

end SysExploration.TcpServer
