import Lana.Fblock.State
import Lana.Library.Numerals

/-!
# The text of a filter

The proc file of a bpf block: `fb_bpf_proc_show_filter` prints the instructions of the filter, one a
line, and `fb_bpf_proc_write` parses such lines.  The line buffer of the printer has 32 bytes, and
the longest lines have 33: what is cut off is the end of the closing ` }` and newline, never a digit
(`showInstr_eq`).  The parser skips what is left of it like the whole, so it reads back what was
printed (`show_parse`).

The memory behind the text is part of the model, since the parser has no other end of a number or of
a run of separators than a byte of another kind.  The result of `simple_strtoul` is cut to 32 bits
or less, so that its own width does not matter.
-/

namespace Lana

namespace Bpf

open Scan Numerals

/-! ## The printer -/

/-- The line of an instruction: `"{ 0x%x, %u, %u, 0x%x }\n"`. -/
def instrLine (i : SockFilter) : List UInt8 :=
  ascii "\x7b 0x" ++ numeral 16 i.code.toNat ++ ascii ", " ++ numeral 10 i.jt.toNat ++ ascii ", " ++
    numeral 10 i.jf.toNat ++ ascii ", 0x" ++ numeral 16 i.k.toNat ++ ascii " \x7d\n"

/-- `sizeof(sline)`. -/
def slineSize : ℕ := 32

/-- What `fb_bpf_proc_show_filter` prints of an instruction. -/
def showInstr (i : SockFilter) : List UInt8 := snprintf slineSize (instrLine i)

/-- The lines of a list of instructions. -/
def showInstrs (insns : List SockFilter) : List UInt8 := insns.flatMap showInstr

/-- `fb_bpf_proc_show_filter`; `bpf_func` is always `sk_run_filter`. -/
def fbBpfProcShowFilter : Option (List SockFilter) → List UInt8
  | none => []
  | some insns => ascii "bpf jit: 0\n" ++ ascii "code:\n" ++ showInstrs insns

/-! ## The parser -/

/-- The `0x` that `simple_strtoul` passes over in base 16; `cp[1]` is examined behind a `0` only. -/
def skipHexMark (cp : Ptr UInt8) : Trace (Ptr UInt8) :=
  match cp.rest with
  | [] => ⟨none, [cp.off]⟩
  | c :: m =>
    if c ≠ 48 then ⟨some cp, [cp.off]⟩
    else
      match m with
      | [] => ⟨none, [cp.off, cp.off + 1]⟩
      | x :: m =>
        if x = 120 ∨ x = 88 then ⟨some ⟨cp.off + 2, m⟩, [cp.off, cp.off + 1]⟩
        else ⟨some cp, [cp.off, cp.off + 1]⟩

/-- `simple_strtoul(cp, &endp, base)`. -/
def simpleStrtoul (base : ℕ) (cp : Ptr UInt8) : Trace (ℕ × Ptr UInt8) :=
  if base = 16 then skipHexMark cp >>= scanDigits base else scanDigits base cp

/-- The bytes before an instruction. -/
def isOpening (b : UInt8) : Bool := b = 32 ∨ b = 123

/-- The bytes between two fields. -/
def isSeparator (b : UInt8) : Bool := b = 32 ∨ b = 44

/-- The bytes behind an instruction. -/
def isClosing (b : UInt8) : Bool := b = 32 ∨ b = 44 ∨ b = 125 ∨ b = 10

/-- The body of the loop: one instruction from `ptr1` on. -/
def parseInstr (ptr1 : Ptr UInt8) : Trace (SockFilter × Ptr UInt8) := do
  let ptr1 ← skipWhile isOpening ptr1
  let (code, ptr2) ← simpleStrtoul 16 ptr1
  let ptr2 ← skipWhile isSeparator ptr2
  let (jt, ptr1) ← simpleStrtoul 10 ptr2
  let ptr1 ← skipWhile isSeparator ptr1
  let (jf, ptr2) ← simpleStrtoul 10 ptr1
  let ptr2 ← skipWhile isSeparator ptr2
  let (k, ptr1) ← simpleStrtoul 16 ptr2
  (fun ptr1 => (⟨.ofNat code, .ofNat jt, .ofNat jf, .ofNat k⟩, ptr1)) <$> skipWhile isClosing ptr1

/-- The loop of `fb_bpf_proc_write` for `n` instructions more, with those parsed so far. -/
def parseLoop (len : ℕ) : ℕ → List SockFilter → Ptr UInt8 → Trace (List SockFilter × Ptr UInt8)
  | 0, filter, ptr1 => pure (filter, ptr1)
  | n + 1, filter, ptr1 =>
    if len > ptr1.off then
      parseInstr ptr1 >>= fun r => parseLoop len n (filter ++ [r.1]) r.2
    else pure (filter, ptr1)

/-- `MAX_INSTR_SIZ`. -/
def maxInstrSiz : ℕ := 512

/-- The instructions in the first `len` bytes of the memory `mem`, and where the parser stops. -/
def parse (mem : List UInt8) (len : ℕ) : Trace (List SockFilter × Ptr UInt8) :=
  parseLoop len maxInstrSiz [] ⟨0, mem⟩

/-! ## Numbers -/

theorem result_strtoul_dec (n : ℕ) {b : UInt8} (hb : digitVal b = none) (m : List UInt8) (off : ℕ) :
    (simpleStrtoul 10 ⟨off, numeral 10 n ++ b :: m⟩).result =
      some (n, ⟨off + (numeral 10 n).length, b :: m⟩) :=
  result_scanDigits_numeral (by decide) (by decide) n (isDigit_of_none hb 10) m off

theorem result_strtoul_hex (n : ℕ) {b : UInt8} (hb : digitVal b = none) (m : List UInt8) (off : ℕ) :
    (simpleStrtoul 16 ⟨off, 48 :: 120 :: (numeral 16 n ++ b :: m)⟩).result =
      some (n, ⟨off + 2 + (numeral 16 n).length, b :: m⟩) :=
  result_scanDigits_numeral (by decide) (by decide) n (isDigit_of_none hb 16) m (off + 2)

theorem digitByte_not_separator : ∀ {d : ℕ}, d < 10 → isSeparator (digitByte d) = false := by
  decide

/-- Comma and blank before a decimal number. -/
theorem result_skip_dec (n : ℕ) (m : List UInt8) (off : ℕ) :
    (skipWhile isSeparator ⟨off, 44 :: 32 :: (numeral 10 n ++ m)⟩).result =
      some ⟨off + 2, numeral 10 n ++ m⟩ := by
  obtain ⟨d, ds, hd, hn⟩ := numeral_cons (show 1 < 10 by decide) n
  rw [hn]
  exact result_skipWhile (l := [44, 32]) (by simp [isSeparator]) (digitByte_not_separator hd)
    (ds ++ m) off

/-- The bytes before a line's first number, which are followed by the `0` of its `0x`. -/
theorem result_skip_opening (m : List UInt8) (off : ℕ) :
    (skipWhile isOpening ⟨off, 123 :: 32 :: 48 :: m⟩).result = some ⟨off + 2, 48 :: m⟩ := rfl

/-- Comma and blank before a hexadecimal number. -/
theorem result_skip_hex (m : List UInt8) (off : ℕ) :
    (skipWhile isSeparator ⟨off, 44 :: 32 :: 48 :: m⟩).result = some ⟨off + 2, 48 :: m⟩ := rfl

/-! ## The lines -/

/-- The line of an instruction up to its last digit. -/
def fields (i : SockFilter) (m : List UInt8) : List UInt8 :=
  123 :: 32 :: 48 :: 120 :: (numeral 16 i.code.toNat ++ 44 :: 32 :: (numeral 10 i.jt.toNat ++
    44 :: 32 :: (numeral 10 i.jf.toNat ++ 44 :: 32 :: 48 :: 120 :: (numeral 16 i.k.toNat ++ m))))

theorem instrLine_eq (i : SockFilter) : instrLine i = fields i [] ++ [32, 125, 10] := by
  have hopen : ascii "\x7b 0x" = [123, 32, 48, 120] := rfl
  have hsep : ascii ", " = [44, 32] := rfl
  have hhex : ascii ", 0x" = [44, 32, 48, 120] := rfl
  have hclose : ascii " \x7d\n" = [32, 125, 10] := rfl
  unfold instrLine fields
  rw [hopen, hsep, hhex, hclose]
  simp only [List.append_assoc, List.cons_append, List.nil_append, List.append_nil]

theorem fields_append (i : SockFilter) (l m : List UInt8) : fields i l ++ m = fields i (l ++ m) := by
  simp only [fields, List.append_assoc, List.cons_append]

/-- 16, 8, 8 and 32 bits take at most 4, 3, 3 and 8 digits. -/
theorem length_fields_le (i : SockFilter) : (fields i []).length ≤ 30 := by
  have hcode : (numeral 16 i.code.toNat).length ≤ 4 :=
    length_numeral_le (by decide) (by decide) i.code.toNat_lt
  have hjt : (numeral 10 i.jt.toNat).length ≤ 3 :=
    length_numeral_le (by decide) (by decide) (i.jt.toNat_lt.trans (by decide))
  have hjf : (numeral 10 i.jf.toNat).length ≤ 3 :=
    length_numeral_le (by decide) (by decide) (i.jf.toNat_lt.trans (by decide))
  have hk : (numeral 16 i.k.toNat).length ≤ 8 :=
    length_numeral_le (by decide) (by decide) i.k.toNat_lt
  simp only [fields, List.length_cons, List.length_append, List.length_nil]
  omega

/-- What the line buffer cuts off stands behind the blank that ends the last number. -/
theorem showInstr_eq (i : SockFilter) :
    ∃ l, (∀ b ∈ l, isClosing b = true) ∧ showInstr i = fields i (32 :: l) := by
  have hlen := length_fields_le i
  have hshow : showInstr i = fields i [] ++ [32, 125, 10].take (31 - (fields i []).length) := by
    unfold showInstr snprintf
    rw [instrLine_eq, List.take_append, List.take_of_length_le (by unfold slineSize; omega)]
    rfl
  obtain ⟨k, hk⟩ : ∃ k, 31 - (fields i []).length = k + 1 := ⟨30 - (fields i []).length, by omega⟩
  refine ⟨[125, 10].take k, fun b hb => ?_, ?_⟩
  · have hall : ∀ b ∈ ([125, 10] : List UInt8), isClosing b = true := by
      simp [isClosing]
    exact hall b (List.mem_of_mem_take hb)
  · rw [hshow, hk, fields_append]
    rfl

/-! ## The round trip -/

/-- One line is read back, whatever kind of byte comes next that does not belong to it. -/
theorem result_parseInstr_show (i : SockFilter) {b : UInt8} (hb : isClosing b = false)
    (m : List UInt8) (off : ℕ) :
    (parseInstr ⟨off, showInstr i ++ b :: m⟩).result =
      some (i, ⟨off + (showInstr i).length, b :: m⟩) := by
  obtain ⟨l, hl, hshow⟩ := showInstr_eq i
  rw [hshow, fields_append, List.cons_append]
  unfold parseInstr fields
  rw [Trace.result_bind_of_some (result_skip_opening _ _),
    Trace.result_bind_of_some (result_strtoul_hex _ rfl _ _),
    Trace.result_bind_of_some (result_skip_dec _ _ _),
    Trace.result_bind_of_some (result_strtoul_dec _ rfl _ _),
    Trace.result_bind_of_some (result_skip_dec _ _ _),
    Trace.result_bind_of_some (result_strtoul_dec _ rfl _ _),
    Trace.result_bind_of_some (result_skip_hex _ _),
    Trace.result_bind_of_some (result_strtoul_hex _ rfl _ _), Trace.result_map, ← List.cons_append,
    result_skipWhile (List.forall_mem_cons.2 ⟨rfl, hl⟩) hb, Option.map_some, UInt16.ofNat_toNat,
    UInt8.ofNat_toNat, UInt8.ofNat_toNat, UInt32.ofNat_toNat]
  congr 3
  simp only [List.length_cons, List.length_append]
  omega

/-- Behind a line comes another line or the end of the text. -/
theorem showInstrs_append_zero (insns : List SockFilter) (m : List UInt8) :
    ∃ b m', isClosing b = false ∧ showInstrs insns ++ 0 :: m = b :: m' := by
  cases insns with
  | nil => exact ⟨0, m, rfl, rfl⟩
  | cons i insns =>
    obtain ⟨l, -, hshow⟩ := showInstr_eq i
    rw [showInstrs, List.flatMap_cons, hshow]
    exact ⟨123, _, rfl, rfl⟩

theorem length_showInstr_pos (i : SockFilter) : 0 < (showInstr i).length := by
  obtain ⟨l, -, hshow⟩ := showInstr_eq i
  rw [hshow]
  exact Nat.succ_pos _

/-- The loop reads line after line, up to the end of the text. -/
theorem result_parseLoop_show {len : ℕ} (m : List UInt8) (insns : List SockFilter) :
    ∀ {n : ℕ} {filter : List SockFilter} {off : ℕ}, insns.length ≤ n →
      off + (showInstrs insns).length = len →
      (parseLoop len n filter ⟨off, showInstrs insns ++ 0 :: m⟩).result =
        some (filter ++ insns, ⟨len, 0 :: m⟩) := by
  induction insns with
  | nil =>
    intro n filter off _ hlen
    obtain rfl : off = len := hlen
    cases n with
    | zero => simp [parseLoop, showInstrs]
    | succ n => simp [parseLoop, showInstrs]
  | cons i insns ih =>
    intro n filter off hn hlen
    obtain ⟨n, rfl⟩ : ∃ n', n = n' + 1 := ⟨n - 1, by simp at hn; omega⟩
    have hcons : showInstrs (i :: insns) = showInstr i ++ showInstrs insns := List.flatMap_cons
    obtain ⟨b, m', hb, hnext⟩ := showInstrs_append_zero insns m
    rw [hcons, List.length_append] at hlen
    have hpos := length_showInstr_pos i
    have hgo : len > off := by omega
    have hinstr := result_parseInstr_show i hb m' off
    rw [← hnext, ← List.append_assoc, ← hcons] at hinstr
    rw [parseLoop, if_pos hgo, Trace.result_bind_of_some hinstr, ih (by simpa using hn) (by omega),
      List.append_assoc, List.singleton_append]

/-- **Round trip.** What is printed of fewer than `MAX_INSTR_SIZ` instructions is parsed into the
same instructions, and the parser stops at the end of the text. -/
theorem show_parse (insns : List SockFilter) (h : insns.length < maxInstrSiz) (m : List UInt8) :
    (parse (showInstrs insns ++ 0 :: m) (showInstrs insns).length).result =
      some (insns, ⟨(showInstrs insns).length, 0 :: m⟩) :=
  result_parseLoop_show m insns h.le (Nat.zero_add _)

/-- Two lines, of which the first one loses its brace and its newline. -/
theorem show_parse_cut :
    (showInstr ⟨0xffff, 255, 255, 0xffffffff⟩).length = 31 ∧
      (parse (showInstrs [⟨0xffff, 255, 255, 0xffffffff⟩, ⟨6, 0, 0, 0⟩] ++ [0])
          (showInstrs [⟨0xffff, 255, 255, 0xffffffff⟩, ⟨6, 0, 0, 0⟩]).length).result =
        some ([⟨0xffff, 255, 255, 0xffffffff⟩, ⟨6, 0, 0, 0⟩],
          ⟨(showInstrs [⟨0xffff, 255, 255, 0xffffffff⟩, ⟨6, 0, 0, 0⟩]).length, [0]⟩) :=
  ⟨by decide, show_parse _ (by decide) []⟩

end Bpf

end Lana
