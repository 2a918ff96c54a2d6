import Lana.Bpf.Text

/-!
# What the parser of a filter reads

`fb_bpf_proc_write` tests once per instruction whether its pointer is still in the buffer; the four
numbers and the five runs of separators of an instruction end at a byte of another kind only.  Each
step of the parser examines the byte it stops at (`covers_parseInstr`), and the loop goes on as long
as this one lies in the buffer.

What the parser takes for instructions is a grammar of the bytes written (`InstrText`).  The parser
stays in its buffer exactly if the buffer begins with `MAX_INSTR_SIZ` texts of this grammar and has
a byte behind them (`parse_inside_iff`).  A program of that many instructions is refused as too long
(`length_parse_inside`): every program that is not has been read from more than its buffer.
-/

namespace Lana

namespace Bpf

open Scan Numerals

/-! ## The grammar -/

/-- The text `t` is `0x` or `0X`, and `m` behind it. -/
def HexMarked (t m : List UInt8) : Prop := ∃ x, (x = 120 ∨ x = 88) ∧ t = 48 :: x :: m

/-- A number as `simple_strtoul` reads it in base 16: digits, behind `0x` or `0X` if the text begins
with one.  As in all relations here the second text is what follows, and begins with a byte that
does not belong to the number. -/
def HexNumber (t t' : List UInt8) : Prop :=
  (∃ m, HexMarked t m ∧ Span (isDigit 16) m t') ∨
    (∀ m, ¬ HexMarked t m) ∧ Span (isDigit 16) t t'

/-- The text of an instruction: four numbers, between the bytes that the parser skips. -/
def InstrText (t t' : List UInt8) : Prop :=
  ∃ t₁, Span isOpening t t₁ ∧
  ∃ t₂, HexNumber t₁ t₂ ∧
  ∃ t₃, Span isSeparator t₂ t₃ ∧
  ∃ t₄, Span (isDigit 10) t₃ t₄ ∧
  ∃ t₅, Span isSeparator t₄ t₅ ∧
  ∃ t₆, Span (isDigit 10) t₅ t₆ ∧
  ∃ t₇, Span isSeparator t₆ t₇ ∧
  ∃ t₈, HexNumber t₇ t₈ ∧
    Span isClosing t₈ t'

/-- The texts of `n` instructions, one behind the other. -/
def Instrs : ℕ → List UInt8 → List UInt8 → Prop
  | 0, t, t' => t = t'
  | n + 1, t, t' => ∃ t₁, InstrText t t₁ ∧ Instrs n t₁ t'

/-- An instruction ends on a byte. -/
theorem InstrText.ne_nil {t t' : List UInt8} (h : InstrText t t') : t' ≠ [] := by
  obtain ⟨-, -, -, -, -, -, -, -, -, -, -, -, -, -, -, -, l, -, -, b, hb, -⟩ := h
  rintro rfl
  cases hb

theorem Instrs.ne_nil {n : ℕ} {t t' : List UInt8} (ht : t ≠ []) (h : Instrs n t t') : t' ≠ [] := by
  induction n generalizing t with
  | zero => exact h ▸ ht
  | succ n ih =>
    obtain ⟨t₁, ht₁, h⟩ := h
    exact ih ht₁.ne_nil h

/-- A text at which an instruction begins and ends is one instruction after another. -/
theorem Instrs.of_stuck {t : List UInt8} (h : InstrText t t) : ∀ n, Instrs n t t
  | 0 => rfl
  | n + 1 => ⟨t, h, Instrs.of_stuck h n⟩

/-! ## One instruction -/

/-- A `0` at the start is examined twice, and so is the byte behind it unless it is an `x`. -/
theorem covers_skipHexMark_scan (cp : Ptr UInt8) :
    Covers Prod.snd cp (skipHexMark cp >>= scanDigits 16) := by
  obtain ⟨off, rest⟩ := cp
  cases rest with
  | nil => exact .outside _ off
  | cons c m =>
    by_cases hc : c = 48
    · subst hc
      cases m with
      | nil =>
        refine ⟨fun _ => ?_, nofun, nofun⟩
        exact List.mem_cons_of_mem _ List.mem_cons_self
      | cons x m =>
        by_cases hx : x = 120 ∨ x = 88
        · have hmark : (skipHexMark ⟨off, 48 :: x :: m⟩).result = some ⟨off + 2, m⟩ := by
            simp [skipHexMark, hx]
          have hreads : (skipHexMark ⟨off, 48 :: x :: m⟩).reads = [off, off + 1] := by
            simp [skipHexMark, hx]
          rw [Trace.bind_of_some hmark, hreads]
          refine (covers_scanDigits 16 ⟨off + 2, m⟩).before (Nat.le_add_right off 2) ?_ (by simp)
          simp only [Ptr.stop, List.length_cons]
          omega
        · have hmark : (skipHexMark ⟨off, 48 :: x :: m⟩).result = some ⟨off, 48 :: x :: m⟩ := by
            simp [skipHexMark, hx]
          have hreads : (skipHexMark ⟨off, 48 :: x :: m⟩).reads = [off, off + 1] := by
            simp [skipHexMark, hx]
          rw [Trace.bind_of_some hmark, hreads]
          -- the digit `0` is read, and the number goes on behind it
          refine (covers_scanFrom 16 (x :: m) (off + 1) 0).before (l := [off, off + 1, off])
            (Nat.le_succ off) ?_ (by simp)
          simp only [Ptr.stop, List.length_cons]
          omega
    · have hmark : skipHexMark ⟨off, c :: m⟩ = ⟨some ⟨off, c :: m⟩, [off]⟩ := if_pos hc
      rw [hmark]
      exact (Covers.here rfl : Covers id _ _).bind fun a ha => by
        obtain rfl := Option.some.inj ha
        exact covers_scanDigits 16 _

theorem result_skipHexMark_cases (cp : Ptr UInt8) :
    ((skipHexMark cp).result = none ∧ cp.rest <+: [48]) ∨
      ((skipHexMark cp).result = some cp ∧ ∀ m, ¬ HexMarked cp.rest m) ∨
      ∃ m, (skipHexMark cp).result = some ⟨cp.off + 2, m⟩ ∧ HexMarked cp.rest m := by
  obtain ⟨off, rest⟩ := cp
  rcases rest with _ | ⟨c, rest⟩
  · exact .inl ⟨rfl, List.nil_prefix⟩
  by_cases hc : c = 48
  · subst hc
    rcases rest with _ | ⟨x, m⟩
    · exact .inl ⟨rfl, List.prefix_rfl⟩
    by_cases hx : x = 120 ∨ x = 88
    · exact .inr (.inr ⟨m, by simp [skipHexMark, hx], x, hx, rfl⟩)
    · refine .inr (.inl ⟨by simp [skipHexMark, hx], ?_⟩)
      rintro m' ⟨x', hx', heq⟩
      obtain ⟨rfl, -⟩ := List.cons.inj (List.cons.inj heq).2
      exact hx hx'
  · refine .inr (.inl ⟨by simp [skipHexMark, hc], ?_⟩)
    rintro m' ⟨x', -, heq⟩
    exact hc (List.cons.inj heq).1

/-- A number has a byte behind it, so a single `0` is none. -/
theorem not_hexNumber_of_prefix {t t' : List UInt8} (ht : t <+: [48]) : ¬ HexNumber t t' := by
  have hspan : ¬ Span (isDigit 16) t t' := by
    rcases t with _ | ⟨b, t⟩
    · exact not_span_nil
    · obtain ⟨rfl, hnil⟩ := List.cons_prefix_cons.1 ht
      obtain rfl := List.prefix_nil.1 hnil
      rw [span_cons_skip (by decide)]
      exact not_span_nil
  rintro (⟨m, ⟨x, -, rfl⟩, -⟩ | ⟨-, h⟩)
  · exact absurd ht.length_le (by simp)
  · exact hspan h

theorem hexNumber_of_marked {t m : List UInt8} (h : HexMarked t m) :
    HexNumber t = Span (isDigit 16) m := by
  funext t'
  refine propext ⟨?_, fun hm => .inl ⟨m, h, hm⟩⟩
  rintro (⟨m', ⟨x', -, h'⟩, hm⟩ | ⟨hno, -⟩)
  · obtain ⟨x, -, rfl⟩ := h
    obtain ⟨-, rfl⟩ := List.cons.inj (List.cons.inj h').2
    exact hm
  · exact absurd h (hno m)

theorem hexNumber_of_unmarked {t : List UInt8} (h : ∀ m, ¬ HexMarked t m) :
    HexNumber t = Span (isDigit 16) t := by
  funext t'
  refine propext ⟨?_, fun ht => .inr ⟨h, ht⟩⟩
  rintro (⟨m, hm, -⟩ | ⟨-, ht⟩)
  · exact absurd hm (h m)
  · exact ht

theorem follows_strtoul_hex (len : ℕ) (behind : List UInt8) (cp : Ptr UInt8) :
    Follows len behind HexNumber Prod.snd cp (simpleStrtoul 16 cp) := by
  refine ⟨covers_skipHexMark_scan cp, ?_⟩
  rintro t ht rfl
  show StopsAt len behind (HexNumber t)
    ((skipHexMark (Ptr.before len behind t) >>= scanDigits 16).result.map Prod.snd)
  rcases result_skipHexMark_cases (Ptr.before len behind t) with
    ⟨hres, hshort⟩ | ⟨hres, hno⟩ | ⟨m, hres, x, hx, hrest⟩
  · have hno : ∀ t', ¬ HexNumber t t' := fun t' =>
      not_hexNumber_of_prefix ((List.prefix_append t behind).trans hshort)
    rw [Trace.bind_of_none hres]
    exact ⟨fun t' h => absurd h (hno t'), nofun⟩
  · have hno' : ∀ m, ¬ HexMarked t m := by
      rintro m ⟨x, hx, rfl⟩
      exact hno (m ++ behind) ⟨x, hx, rfl⟩
    rw [Trace.result_bind_of_some hres, hexNumber_of_unmarked hno']
    exact (follows_scanDigits 16 len behind _).stops t ht rfl
  · rw [Trace.result_bind_of_some hres]
    -- the mark lies in the buffer, or its end is in the memory behind
    rcases t with _ | ⟨a, _ | ⟨b, t⟩⟩
    · refine .behind_of_covers (covers_scanDigits 16 _) (Nat.le_add_right len 2) fun t' => ?_
      exact not_hexNumber_of_prefix List.nil_prefix
    · obtain ⟨rfl, -⟩ := List.cons.inj hrest
      refine .behind_of_covers (covers_scanDigits 16 _) ?_ fun t' => ?_
      · show len ≤ len - 1 + 2
        omega
      · exact not_hexNumber_of_prefix List.prefix_rfl
    · obtain ⟨rfl, hbm⟩ := List.cons.inj hrest
      obtain ⟨rfl, rfl⟩ := List.cons.inj hbm
      have hoff : (Ptr.before len behind (48 :: b :: t)).off + 2 = len - t.length := by
        simp only [List.length_cons] at ht
        simp only [Ptr.before, List.length_cons]
        omega
      rw [hexNumber_of_marked ⟨b, hx, rfl⟩, hoff]
      exact (follows_scanDigits 16 len behind _).stops t ((Nat.le_add_right _ 2).trans ht) rfl

theorem follows_strtoul_dec (len : ℕ) (behind : List UInt8) (cp : Ptr UInt8) :
    Follows len behind (Span (isDigit 10)) Prod.snd cp (simpleStrtoul 10 cp) :=
  follows_scanDigits 10 len behind cp

/-- The body of the loop takes the text of one instruction. -/
theorem follows_parseInstr (len : ℕ) (behind : List UInt8) (ptr1 : Ptr UInt8) :
    Follows len behind InstrText Prod.snd ptr1 (parseInstr ptr1) := by
  unfold parseInstr InstrText
  refine (follows_skipWhile _ _ _ _).bind fun _ _ => ?_
  refine (follows_strtoul_hex _ _ _).bind fun _ _ => ?_
  refine (follows_skipWhile _ _ _ _).bind fun _ _ => ?_
  refine (follows_strtoul_dec _ _ _).bind fun _ _ => ?_
  refine (follows_skipWhile _ _ _ _).bind fun _ _ => ?_
  refine (follows_strtoul_dec _ _ _).bind fun _ _ => ?_
  refine (follows_skipWhile _ _ _ _).bind fun _ _ => ?_
  refine (follows_strtoul_hex _ _ _).bind fun _ _ => ?_
  exact (follows_skipWhile _ _ _ _).map fun _ => rfl

theorem covers_parseInstr (ptr1 : Ptr UInt8) : Covers Prod.snd ptr1 (parseInstr ptr1) :=
  (follows_parseInstr 0 [] ptr1).covers

/-! ## The loop -/

/-- A loop that is entered ends on the last byte it examined. -/
theorem covers_parseLoop (len : ℕ) : ∀ (n : ℕ) (filter : List SockFilter) (ptr1 : Ptr UInt8),
    ptr1.off < len → Covers Prod.snd ptr1 (parseLoop len (n + 1) filter ptr1) := by
  intro n
  induction n with
  | zero =>
    intro filter ptr1 hlt
    rw [parseLoop, if_pos hlt]
    exact (covers_parseInstr ptr1).bind_or_stay fun r _ => .inr ⟨_, rfl, rfl⟩
  | succ n ih =>
    intro filter ptr1 hlt
    rw [parseLoop, if_pos hlt]
    refine (covers_parseInstr ptr1).bind_or_stay fun r _ => ?_
    by_cases hr : r.2.off < len
    · exact .inl (ih _ r.2 hr)
    · exact .inr ⟨(filter ++ [r.1], r.2), by rw [parseLoop, if_neg hr], rfl⟩

/-- A loop that ends inside the buffer has parsed as many instructions as it may. -/
theorem length_parseLoop {len : ℕ} {ptr1 q : Ptr UInt8} {fp : List SockFilter} :
    ∀ {n : ℕ} {filter : List SockFilter}, (parseLoop len n filter ptr1).result = some (fp, q) →
      q.off < len → fp.length = filter.length + n := by
  intro n
  induction n generalizing ptr1 with
  | zero =>
    intro filter h _
    cases h
    rfl
  | succ n ih =>
    intro filter h hq
    rw [parseLoop] at h
    split_ifs at h with hlt
    · cases hr : (parseInstr ptr1).result with
      | none => rw [Trace.bind_of_none hr] at h; cases h
      | some r =>
        rw [Trace.result_bind_of_some hr] at h
        have := ih h hq
        rw [List.length_append, List.length_singleton] at this
        omega
    · cases h
      exact absurd hq hlt

/-- The loop moves forward. -/
theorem off_le_of_parseLoop {len n : ℕ} {filter : List SockFilter} {ptr1 : Ptr UInt8}
    {r : List SockFilter × Ptr UInt8} (h : (parseLoop len n filter ptr1).result = some r) :
    ptr1.off ≤ r.2.off := by
  cases n with
  | zero =>
    cases h
    exact le_rfl
  | succ n =>
    by_cases hlt : ptr1.off < len
    · exact ((covers_parseLoop len n filter ptr1 hlt).forward r h).1
    · rw [parseLoop, if_neg hlt] at h
      cases h
      exact le_rfl

/-- In the buffer the loop takes the texts of `n` instructions. -/
theorem stopsAt_parseLoop {len : ℕ} (behind : List UInt8) (n : ℕ) :
    ∀ (filter : List SockFilter) (t : List UInt8), t ≠ [] → t.length ≤ len →
      StopsAt len behind (Instrs n t)
        ((parseLoop len n filter (Ptr.before len behind t)).result.map Prod.snd) := by
  induction n with
  | zero =>
    intro filter t _ _
    refine ⟨fun t' ht' => ?_, fun q hq _ => ⟨t, rfl, (Option.some.inj hq).symm⟩⟩
    obtain rfl : t = t' := ht'
    rfl
  | succ n ih =>
    intro filter t hne ht
    have hpos : 0 < t.length := List.length_pos_iff.2 hne
    have hlt : len > (Ptr.before len behind t).off := Nat.sub_lt (hpos.trans_le ht) hpos
    rw [parseLoop, if_pos hlt]
    have hinstr := follows_parseInstr len behind (Ptr.before len behind t)
    refine (hinstr.stops t ht rfl).bind (fun r _ r' hr' => off_le_of_parseLoop hr') ?_
    rintro ⟨i, q⟩ t₁ hr ht₁ rfl
    exact ih _ t₁ ht₁.ne_nil (hinstr.length_le ht rfl hr rfl)

theorem covers_parse {code : List UInt8} (hcode : code ≠ []) (behind : List UInt8) :
    Covers Prod.snd ⟨0, code ++ behind⟩ (parse (code ++ behind) code.length) :=
  covers_parseLoop code.length 511 [] _ (List.length_pos_iff.2 hcode)

/-- A byte of no kind that the parser knows is an instruction without digits. -/
theorem instrText_stuck : InstrText [122] [122] := by
  have hspan : ∀ c : UInt8 → Bool, c 122 = false → Span c [122] [122] := fun c hc =>
    (span_cons_stop hc).2 rfl
  have hhex : HexNumber [122] [122] := by
    rw [hexNumber_of_unmarked (by rintro m ⟨x, -, h⟩; cases h)]
    exact hspan _ (by decide)
  exact ⟨_, hspan _ (by decide), _, hhex, _, hspan _ (by decide), _, hspan _ (by decide), _,
    hspan _ (by decide), _, hspan _ (by decide), _, hspan _ (by decide), _, hhex,
    hspan _ (by decide)⟩

theorem instrText_line : InstrText (ascii "6,0,0,1\nz") [122] := by
  have hone : ∀ {c : UInt8 → Bool} {b b' : UInt8} {t : List UInt8}, c b = true → c b' = false →
      Span c (b :: b' :: t) (b' :: t) := fun hb hb' =>
    (span_cons_skip hb).2 ((span_cons_stop hb').2 rfl)
  have hhex : ∀ {b b' : UInt8} {t : List UInt8}, b ≠ 48 → isDigit 16 b = true →
      isDigit 16 b' = false → HexNumber (b :: b' :: t) (b' :: t) := by
    intro b b' t hne hb hb'
    rw [hexNumber_of_unmarked (by rintro m ⟨x, -, h⟩; exact hne (List.cons.inj h).1)]
    exact hone hb hb'
  show InstrText [54, 44, 48, 44, 48, 44, 49, 10, 122] [122]
  exact ⟨_, (span_cons_stop (by decide)).2 rfl, _, hhex (by decide) (by decide) (by decide), _,
    hone (by decide) (by decide), _, hone (by decide) (by decide), _, hone (by decide) (by decide),
    _, hone (by decide) (by decide), _, hone (by decide) (by decide), _,
    hhex (by decide) (by decide) (by decide), hone (by decide) (by decide)⟩

/-- **Bounds.** The parser examines bytes of its buffer only exactly if the bytes written begin with
the texts of `MAX_INSTR_SIZ` instructions, behind which there is a byte that ends the last one.
`behind` is what lies in memory behind the buffer. -/
theorem parse_inside_iff (code : List UInt8) (hcode : code ≠ []) (behind : List UInt8) :
    (∀ i ∈ (parse (code ++ behind) code.length).reads, i < code.length) ↔
      ∃ rest, Instrs maxInstrSiz code rest := by
  have hpos : 0 < code.length := List.length_pos_iff.2 hcode
  have hstart : Ptr.before code.length behind code = ⟨0, code ++ behind⟩ := by
    rw [Ptr.before, Nat.sub_self]
  have hstops : StopsAt code.length behind (Instrs maxInstrSiz code)
      ((parse (code ++ behind) code.length).result.map Prod.snd) := by
    unfold parse
    rw [← hstart]
    exact stopsAt_parseLoop behind maxInstrSiz [] code hcode le_rfl
  have hstop : code.length ≤ (⟨0, code ++ behind⟩ : Ptr UInt8).stop := by
    rw [← hstart, Ptr.stop_before le_rfl]
    exact Nat.le_add_right _ _
  rw [(covers_parse hcode behind).reads_lt_iff hstop]
  constructor
  · rintro ⟨r, hres, hlt⟩
    obtain ⟨rest, hrest, -⟩ := hstops.only r.2 (by rw [hres]; rfl) hlt
    exact ⟨rest, hrest⟩
  · rintro ⟨rest, hrest⟩
    obtain ⟨r, hres, hr⟩ := Option.map_eq_some_iff.1 (hstops.reach rest hrest)
    refine ⟨r, hres, ?_⟩
    have hne : 0 < rest.length := List.length_pos_iff.2 (Instrs.ne_nil hcode hrest)
    rw [hr]
    exact Nat.sub_lt hpos hne

/-- The line `6,0,0,1` and a `z` behind it, at which the parser stays. -/
theorem parse_inside_stuck :
    ascii "6,0,0,1\nz" ≠ [] ∧
      ∀ i ∈ (parse (ascii "6,0,0,1\nz" ++ [0]) (ascii "6,0,0,1\nz").length).reads, i < 9 :=
  ⟨by decide, (parse_inside_iff (ascii "6,0,0,1\nz") (by decide) [0]).2
    ⟨[122], [122], instrText_line, Instrs.of_stuck instrText_stuck 511⟩⟩

/-- A parser that stays in its buffer has parsed a program that is refused as too long. -/
theorem length_parse_inside {code : List UInt8} (hcode : code ≠ []) {behind : List UInt8}
    (h : ∀ i ∈ (parse (code ++ behind) code.length).reads, i < code.length) :
    ∃ r, (parse (code ++ behind) code.length).result = some r ∧ r.1.length = maxInstrSiz := by
  obtain ⟨⟨fp, q⟩, hres, hq⟩ :=
    ((covers_parse hcode behind).reads_lt_iff (by simp [Ptr.stop])).1 h
  exact ⟨(fp, q), hres, by simpa using length_parseLoop hres hq⟩

/-- A buffer with the digit `1` in it: the byte behind it is examined. -/
theorem parse_outside : ¬ ∀ i ∈ (parse ([49] ++ [0]) [49].length).reads, i < [49].length := by
  decide

end Bpf

end Lana
