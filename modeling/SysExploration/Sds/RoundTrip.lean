import SysExploration.Library.Runs
import SysExploration.Sds.Arguments
import SysExploration.Sds.Quoting

/-! A line to which strings were added with `sdscatrepr` is split into these strings. -/
namespace SysExploration.Sds

variable {s s' t u : Sds} {l m p v rest : Bytes} {args : List Bytes} {q : Quote} {c : UInt8}
  {mem : ℕ → Malloc}

theorem hexDigit_spec {d : ℕ} (h : d < 16) :
    isHexDigit (hexDigit d) ∧ hexDigitToInt (hexDigit d) = d ∧ hexDigit d ≠ 0 := by
  revert d
  decide

/-- A byte is read back from what `sdscatrepr` writes for it. -/
theorem token_reprByte (c : UInt8) (h : Token .double p v rest) :
    Token .double (reprByte c ++ p) (c :: v) rest := by
  unfold reprByte
  split_ifs with hquote hn hr ht ha hb hprint
  · rcases hquote with rfl | rfl
    · exact .escape (c := 92) (by simp) h
    · exact .escape (c := 34) (by simp) h
  · subst hn
    exact .escape (c := 110) (by simp) h
  · subst hr
    exact .escape (c := 114) (by simp) h
  · subst ht
    exact .escape (c := 116) (by simp) h
  · subst ha
    exact .escape (c := 97) (by simp) h
  · subst hb
    exact .escape (c := 98) (by simp) h
  · rw [not_or] at hquote
    exact .quoted hquote.2 hquote.1 h
  · have hlt := c.toNat_lt
    obtain ⟨hhigh, hhighval, -⟩ := hexDigit_spec (d := c.toNat / 16) (by omega)
    obtain ⟨hlow, hlowval, -⟩ := hexDigit_spec (d := c.toNat % 16) (by omega)
    have hbyte : hexByte (hexDigit (c.toNat / 16)) (hexDigit (c.toNat % 16)) = c := by
      have hsum : c.toNat / 16 * 16 + c.toNat % 16 = c.toNat := by omega
      rw [hexByte, hhighval, hlowval, hsum, UInt8.ofNat_toNat]
    have hread := Token.hex hhigh hlow h
    rw [hbyte] at hread
    exact hread

theorem zero_notMem_reprByte (c : UInt8) : 0 ∉ reprByte c := by
  unfold reprByte
  split_ifs with hquote hn hr ht ha hb hprint
  · rcases hquote with rfl | rfl <;> simp
  · simp
  · simp
  · simp
  · simp
  · simp
  · have hne : c ≠ 0 := by
      rintro rfl
      exact absurd hprint (by decide)
    simpa using hne.symm
  · have hlt := c.toNat_lt
    obtain ⟨-, -, hhigh⟩ := hexDigit_spec (d := c.toNat / 16) (by omega)
    obtain ⟨-, -, hlow⟩ := hexDigit_spec (d := c.toNat % 16) (by omega)
    simp [hhigh.symm, hlow.symm]

/-- A quoted string is one argument, by induction on the string. -/
theorem token_quoted (p : Bytes) (h : EndsArg rest) : Token .none (quoted p ++ rest) p rest := by
  have hbody : Token .double (p.flatMap reprByte ++ ([34] ++ rest)) p rest := by
    induction p with
    | nil => exact .closeDouble h
    | cons c p ih =>
      rw [List.flatMap_cons, List.append_assoc]
      exact token_reprByte c ih
  rw [quoted, List.cons_append, List.append_assoc]
  exact .double hbody

theorem zero_notMem_quoted (p : Bytes) : 0 ∉ quoted p := by
  simp only [quoted, List.mem_cons, List.mem_append, List.mem_flatMap, List.not_mem_nil, or_false,
    not_or, not_exists, not_and]
  exact ⟨by decide, fun c _ => zero_notMem_reprByte c, by decide⟩

/-- A text to which arguments can be added: it is empty, or a space ends it. -/
def Open (l : Bytes) : Prop := l = [] ∨ l.getLast? = some 32

theorem Open.of_cons (h : Open (c :: l)) (hc : l = [] → c ≠ 32) : Open l ∧ l ≠ [] := by
  rcases h with hnil | hlast
  · cases hnil
  · cases l with
    | nil => exact absurd (Option.some.inj hlast) (hc rfl)
    | cons d l => exact ⟨.inr (by rwa [List.getLast?_cons_cons] at hlast), List.cons_ne_nil d l⟩

theorem head?_append_of_ne (h : l ≠ []) (m : Bytes) : (l ++ m).head? = l.head? := by
  cases l with
  | nil => exact absurd rfl h
  | cons c l => rfl

theorem EndsArg.append (h : EndsArg l) (hne : l ≠ []) (m : Bytes) : EndsArg (l ++ m) := by
  rw [EndsArg, head?_append_of_ne hne]
  exact h

theorem hexAhead_append (h : HexAhead (p ++ m)) (hp : Open p) (hne : p ≠ []) : HexAhead p := by
  obtain ⟨a, b, t, heq, ha, hb⟩ := h
  match p with
  | [] => exact absurd rfl hne
  | [x] =>
    obtain rfl : x = a := (List.cons.inj heq).1
    rcases hp with hnil | hlast
    · cases hnil
    · obtain rfl : x = 32 := Option.some.inj hlast
      exact absurd ha (by decide)
  | x :: y :: w =>
    obtain ⟨hx, heq⟩ := List.cons.inj heq
    obtain ⟨hy, -⟩ := List.cons.inj heq
    exact ⟨x, y, w, rfl, hx ▸ ha, hy ▸ hb⟩

/-- Quotes that are open are closed. -/
theorem Token.ne_nil (h : Token q p v rest) (hq : q ≠ .none) : p ≠ [] := by
  rintro rfl
  cases h with
  | stop _ => exact hq rfl

/-- What follows a text that a space ends does not change its first argument. -/
theorem Token.append (h : Token q l v rest) (hl : Open l) (hne : l ≠ []) (m : Bytes) :
    Token q (l ++ m) v (rest ++ m) ∧ Open rest := by
  induction h with
  | @stop p hstop =>
    cases p with
    | nil => exact absurd rfl hne
    | cons c p =>
      refine ⟨.stop (p := c :: (p ++ m)) hstop, ?_⟩
      cases p with
      | nil => exact .inl rfl
      | cons d p =>
        rcases hl with hnil | hlast
        · cases hnil
        · exact .inr (by rwa [List.getLast?_cons_cons] at hlast)
  | double h ih =>
    obtain ⟨hopen, hne'⟩ := hl.of_cons fun _ => by decide
    exact ⟨.double (ih hopen hne').1, (ih hopen hne').2⟩
  | single h ih =>
    obtain ⟨hopen, hne'⟩ := hl.of_cons fun _ => by decide
    exact ⟨.single (ih hopen hne').1, (ih hopen hne').2⟩
  | @plain c p v rest hsep h34 h39 h ih =>
    have hc : p = [] → c ≠ 32 := by
      rintro - rfl
      exact hsep (by simp [separators])
    obtain ⟨hopen, hne'⟩ := hl.of_cons hc
    exact ⟨.plain hsep h34 h39 (ih hopen hne').1, (ih hopen hne').2⟩
  | closeDouble hend =>
    obtain ⟨hopen, hne'⟩ := hl.of_cons fun _ => by decide
    exact ⟨.closeDouble (EndsArg.append hend hne' m), hopen⟩
  | closeSingle hend =>
    obtain ⟨hopen, hne'⟩ := hl.of_cons fun _ => by decide
    exact ⟨.closeSingle (EndsArg.append hend hne' m), hopen⟩
  | @hex a b p v rest ha hb h ih =>
    obtain ⟨hopen, -⟩ := hl.of_cons fun _ => by decide
    obtain ⟨hopen, -⟩ := hopen.of_cons fun _ => by decide
    obtain ⟨hopen, -⟩ := hopen.of_cons fun _ hc => absurd (hc ▸ ha) (by decide)
    obtain ⟨hopen, hne'⟩ := hopen.of_cons fun _ hc => absurd (hc ▸ hb) (by decide)
    exact ⟨.hex ha hb (ih hopen hne').1, (ih hopen hne').2⟩
  | @escape c p v rest hnot h ih =>
    obtain ⟨hopen, -⟩ := hl.of_cons fun _ => by decide
    have hne' := Token.ne_nil h (by decide)
    have hopen := (hopen.of_cons fun hnil => absurd hnil hne').1
    refine ⟨.escape ?_ (ih hopen hne').1, (ih hopen hne').2⟩
    exact fun hhex => hnot ⟨hhex.1, hexAhead_append hhex.2 hopen hne'⟩
  | quoted h34 h92 h ih =>
    obtain ⟨hopen, hne'⟩ := hl.of_cons fun hnil => absurd hnil (Token.ne_nil h (by decide))
    exact ⟨.quoted h34 h92 (ih hopen hne').1, (ih hopen hne').2⟩
  | apostrophe h ih =>
    obtain ⟨hopen, -⟩ := hl.of_cons fun _ => by decide
    obtain ⟨hopen, hne'⟩ := hopen.of_cons fun _ => by decide
    exact ⟨.apostrophe (ih hopen hne').1, (ih hopen hne').2⟩
  | @literal c p v rest h39 hnot h ih =>
    obtain ⟨hopen, hne'⟩ := hl.of_cons fun hnil => absurd hnil (Token.ne_nil h (by decide))
    refine ⟨.literal h39 ?_ (ih hopen hne').1, (ih hopen hne').2⟩
    change ¬ (c = 92 ∧ (p ++ m).head? = some 39)
    rw [head?_append_of_ne hne']
    exact hnot

theorem Open.of_append {b : Bytes} (h : Open (b ++ l)) (hne : l ≠ []) : Open l := by
  rcases h with hnil | hlast
  · exact absurd (List.append_eq_nil_iff.mp hnil).2 hne
  · exact .inr (by rwa [List.getLast?_append_of_ne_nil b hne] at hlast)

/-- An argument in quotes is added to a line, by induction on its arguments. -/
theorem Args.append_quoted (h : Args l args) (hl : Open l) (p : Bytes) :
    Args (l ++ (quoted p ++ [32])) (args ++ [p]) := by
  have hspace : ∀ c ∈ [(32 : UInt8)], isspace c := by simp [isspace]
  have hends : EndsArg [32] := by
    intro c hc
    exact hspace c (List.mem_of_mem_head? hc)
  induction h with
  | done hblank => exact .arg hblank ⟨34, rfl, by decide⟩ (token_quoted p hends) (.done hspace)
  | @arg blanks t v rest args hblank hhead htoken hargs ih =>
    obtain ⟨c, hc, hnot⟩ := hhead
    have hne : t ≠ [] := by
      rintro rfl
      cases hc
    obtain ⟨htoken, hopen⟩ := Token.append htoken (hl.of_append hne) hne (quoted p ++ [32])
    rw [List.append_assoc]
    refine .arg hblank ⟨c, ?_, hnot⟩ htoken (ih hopen)
    rw [head?_append_of_ne hne]
    exact hc

/-- An argument is added to a line, and a blank behind it. -/
def AddArg (s : Sds) (a : Bytes × (ℕ → Malloc) × Malloc) (u : Sds) : Prop :=
  s.len + (quoted a.1).length + 1 + sdsMaxPrealloc + 18 < 2 ^ 64 ∧
    ∃ t, s.sdscatrepr a.1 a.1.length a.2.1 = .ok (some t) ∧ t.sdscatlen [32] 1 a.2.2 = .ok (some u)

/-- A string that holds a line with these arguments. -/
structure Holds (s : Sds) (args : List Bytes) : Prop where
  valid : s.Valid
  line : Args s.contents args
  ended : Open s.contents
  nonzero : 0 ∉ s.contents

theorem AddArg.contents {a : Bytes × (ℕ → Malloc) × Malloc} (hadd : AddArg s a u) (h : s.Valid) :
    u.Valid ∧ u.contents = s.contents ++ (quoted a.1 ++ [32]) := by
  obtain ⟨hsmall, t, hquoted, hspace⟩ := hadd
  have hchain := h.catrepr (p := a.1) a.2.1 (le_refl _) (by
    rw [List.take_length]
    omega)
  rw [hquoted, List.take_length] at hchain
  cases hchain with
  | done ht htc =>
    have hlen : t.len = s.len + (quoted a.1).length := by
      rw [← ht.length_contents, htc, List.length_append, h.length_contents]
    have hone : 1 ≤ ([32] : Bytes).length := le_refl _
    have hout := ht.catlen hone (by omega) a.2.2
    rw [hspace] at hout
    cases hout with
    | done hu huc => exact ⟨hu, by rw [huc, htc, List.append_assoc]; rfl⟩

theorem AddArg.holds {a : Bytes × (ℕ → Malloc) × Malloc} (hadd : AddArg s a u)
    (h : Holds s args) : Holds u (args ++ [a.1]) := by
  obtain ⟨hu, huc⟩ := hadd.contents h.valid
  constructor
  · exact hu
  · rw [huc]
    exact Args.append_quoted h.line h.ended a.1
  · rw [huc, ← List.append_assoc]
    exact .inr List.getLast?_concat
  · rw [huc]
    have hspace : (0 : UInt8) ∉ [(32 : UInt8)] := by decide
    simp only [List.mem_append, not_or]
    exact ⟨h.nonzero, zero_notMem_quoted a.1, hspace⟩

theorem Holds.run {as : List (Bytes × (ℕ → Malloc) × Malloc)} (h : Holds s args)
    (hrun : Run AddArg s as u) : Holds u (args ++ as.map (·.1)) := by
  induction hrun with
  | nil =>
    rw [List.map_nil, List.append_nil]
    exact h
  | snoc _ hadd ih =>
    rw [List.map_append, ← List.append_assoc]
    exact hadd.holds ih

/-- The zero behind a string, and what is left of its block. -/
theorem Valid.buf_eq (h : s.Valid) : s.buf = s.contents ++ 0 :: s.buf.drop (s.len + 1) := by
  obtain ⟨hlt, hzero⟩ := List.getElem?_eq_some_iff.mp h.terminated
  rw [contents, ← hzero, ← List.drop_eq_getElem_cons, List.take_append_drop]

/-- Whatever bytes the arguments have, as long as there are fewer than `2 ^ 31` of them and no
allocation of `sdssplitargs` fails, a line made of them with `sdscatrepr` is split into these
arguments again. -/
theorem splitargs_catrepr {s₀ : Sds} {m : Malloc} {as : List (Bytes × (ℕ → Malloc) × Malloc)}
    (hnew : sdsempty m = .ok (some s₀)) (hrun : Run AddArg s₀ as s) (hmem : ∀ k, mem k ≠ none)
    (hcount : as.length < 2 ^ 31) (hsmall : s.len + sdsMaxPrealloc + 18 < 2 ^ 64) :
    ∃ tokens : List Sds,
      sdssplitargs s.buf mem = .ok (as.length, some (tokens.map some)) ∧
      tokens.map contents = as.map (·.1) ∧ ∀ t ∈ tokens, t.Valid := by
  have hstart : Holds s₀ [] := by
    cases m with
    | none => cases hnew
    | some garbage =>
      obtain ⟨s', hs', hvalid, hc⟩ := sdsempty_eq garbage
      obtain rfl := Option.some.inj (Except.ok.inj (hs'.symm.trans hnew))
      have hblank : Args [] [] := .done (by simp)
      exact ⟨hvalid, hc ▸ hblank, .inl hc, by simp [hc]⟩
  have hholds := hstart.run hrun
  have hshort : s.contents.length + sdsMaxPrealloc + 18 < 2 ^ 64 := by
    rw [hholds.valid.length_contents]
    exact hsmall
  have hfuel : s.contents.length < s.buf.length + 1 := by
    rw [hholds.valid.length_contents]
    exact Nat.lt_succ_of_lt hholds.valid.len_lt_length
  have hzero : ([] : List (Option Sds)).length < 2 ^ 31 := by decide
  have hend := argsLoop_end (s.buf.drop (s.len + 1)) (k := 0) hholds.nonzero hmem hfuel hshort hzero
  rw [← hholds.valid.buf_eq] at hend
  change ArgsEnd s.contents [] (sdssplitargs s.buf mem) at hend
  generalize sdssplitargs s.buf mem = out at hend ⊢
  cases hend with
  | @accepted tokens hvalid _ hreads =>
    have hcontents : as.map (·.1) = tokens.map contents := (hreads _).mp hholds.line
    have hlength : as.length = tokens.length := by
      simpa using congrArg List.length hcontents
    rw [hlength, List.length_nil, Nat.zero_add]
    exact ⟨tokens, rfl, hcontents.symm, hvalid⟩
  | rejected hnone => exact absurd hholds.line (hnone _)
  | overflow _ hlong =>
    have hle := hlong _ hholds.line
    rw [List.length_nil, List.nil_append, List.length_map] at hle
    omega

/-- A quote and a zero, and an argument without bytes. -/
theorem splitargs_catrepr_zero : ∃ (s : Sds) (tokens : List Sds),
    sdssplitargs s.buf (fun _ => some fun _ => 7) = .ok (2, some (tokens.map some)) ∧
      tokens.map contents = [[34, 0], []] ∧ ∀ t ∈ tokens, t.Valid := by
  have hnew : sdsempty (some fun _ => 7) = .ok (some ⟨.type8, 0, 0, [0]⟩) := rfl
  have hrun : Run AddArg ⟨.type8, 0, 0, [0]⟩
      [([34, 0], fun _ => some fun _ => 7, none), ([], fun _ => none, none)] _ :=
    .snoc (.snoc .nil ⟨by decide, _, rfl, rfl⟩) ⟨by decide, _, rfl, rfl⟩
  exact ⟨_, splitargs_catrepr hnew hrun (by simp) (by decide) (by decide)⟩

end SysExploration.Sds
