import Mathlib.Data.Nat.Digits.Lemmas
import Mathlib.Data.UInt
import Lana.Library.Scan

/-!
# Numerals

Numbers written with the digits `0` to `9` and `a` to `f`, most significant digit first and without
leading zeros (`numeral`), and read digit by digit up to the first byte that is none
(`scanDigits`).  What is read of a numeral is its number (`result_scanDigits_numeral`).
-/

namespace Numerals

open Scan

/-- The byte of a digit. -/
def digitByte (d : ℕ) : UInt8 := UInt8.ofNat (if d < 10 then 48 + d else 87 + d)

/-- The value of a byte in base 16, in upper or lower case. -/
def digitVal (b : UInt8) : Option ℕ :=
  if 48 ≤ b ∧ b ≤ 57 then some (b.toNat - 48)
  else if 97 ≤ b ∧ b ≤ 102 then some (b.toNat - 87)
  else if 65 ≤ b ∧ b ≤ 70 then some (b.toNat - 55)
  else none

theorem digitVal_digitByte : ∀ {d : ℕ}, d < 16 → digitVal (digitByte d) = some d := by
  decide

/-- A byte is a digit in base `base`. -/
def isDigit (base : ℕ) (b : UInt8) : Bool := (digitVal b).any (· < base)

theorem isDigit_of_none {b : UInt8} (h : digitVal b = none) (base : ℕ) : isDigit base b = false := by
  unfold isDigit
  rw [h]
  rfl

/-- The number `n` in base `base`. -/
def numeral (base n : ℕ) : List UInt8 :=
  (if n = 0 then [0] else (Nat.digits base n).reverse).map digitByte

/-! ## Shape -/

theorem length_numeral_le {base n k : ℕ} (hbase : 1 < base) (hk : 0 < k) (h : n < base ^ k) :
    (numeral base n).length ≤ k := by
  unfold numeral
  rw [List.length_map]
  split_ifs with hn
  · exact hk
  · rw [List.length_reverse]
    exact (Nat.digits_length_le_iff hbase n).2 h

theorem numeral_cons {base : ℕ} (hbase : 1 < base) (n : ℕ) :
    ∃ d m, d < base ∧ numeral base n = digitByte d :: m := by
  unfold numeral
  split_ifs with hn
  · exact ⟨0, [], by omega, rfl⟩
  · cases hds : (Nat.digits base n).reverse with
    | nil => exact absurd (List.reverse_eq_nil_iff.1 hds) (Nat.digits_ne_nil_iff_ne_zero.2 hn)
    | cons d ds =>
      have hmem : d ∈ Nat.digits base n := by
        rw [← List.mem_reverse, hds]
        exact List.mem_cons_self
      exact ⟨d, ds.map digitByte, Nat.digits_lt_base hbase hmem, rfl⟩

theorem digitByte_ne_zero : ∀ {d : ℕ}, d < 16 → digitByte d ≠ 0 := by
  decide

theorem zero_notMem_numeral {base : ℕ} (hbase : 1 < base) (h16 : base ≤ 16) (n : ℕ) :
    0 ∉ numeral base n := by
  unfold numeral
  rw [List.mem_map]
  rintro ⟨d, hd, h0⟩
  refine digitByte_ne_zero ?_ h0
  split_ifs at hd
  · obtain rfl := List.mem_singleton.1 hd
    decide
  · exact (Nat.digits_lt_base hbase (List.mem_reverse.1 hd)).trans_le h16

/-! ## Reading -/

/-- `scanDigits` from an offset on, with the number read so far. -/
def scanFrom (base : ℕ) : List UInt8 → ℕ → ℕ → Trace (ℕ × Ptr UInt8)
  | [], off, _ => ⟨none, [off]⟩
  | b :: m, off, acc =>
    if isDigit base b then
      (scanFrom base m (off + 1) (acc * base + (digitVal b).getD 0)).examined off
    else ⟨some (acc, ⟨off, b :: m⟩), [off]⟩

/-- Read digits in base `base` up to the first byte that is none. -/
def scanDigits (base : ℕ) (p : Ptr UInt8) : Trace (ℕ × Ptr UInt8) := scanFrom base p.rest p.off 0

theorem covers_scanFrom (base : ℕ) (m : List UInt8) (off acc : ℕ) :
    Covers Prod.snd ⟨off, m⟩ (scanFrom base m off acc) := by
  induction m generalizing off acc with
  | nil => exact .outside _ off
  | cons b m ih =>
    unfold scanFrom
    split_ifs
    · exact (ih _ _).examined
    · exact .here rfl

theorem covers_scanDigits (base : ℕ) (p : Ptr UInt8) : Covers Prod.snd p (scanDigits base p) :=
  covers_scanFrom base p.rest p.off 0

/-- The pointer moves as in a loop that skips the digits. -/
theorem snd_result_scanFrom (base : ℕ) (m : List UInt8) (off acc : ℕ) :
    (scanFrom base m off acc).result.map Prod.snd = (skipFrom (isDigit base) m off).result := by
  induction m generalizing off acc with
  | nil => rfl
  | cons b m ih =>
    unfold scanFrom skipFrom
    split_ifs
    · exact ih (off + 1) _
    · rfl

/-- A number in a buffer ends behind a span of digits. -/
theorem follows_scanDigits (base len : ℕ) (behind : List UInt8) (p : Ptr UInt8) :
    Follows len behind (Span (isDigit base)) Prod.snd p (scanDigits base p) := by
  refine ⟨covers_scanDigits base p, fun t ht hp => ?_⟩
  have hskip : (scanDigits base p).result.map Prod.snd =
      (skipWhile (isDigit base) p).result.map id := by
    rw [scanDigits, snd_result_scanFrom, Option.map_id_apply, skipWhile]
  rw [hskip]
  exact (follows_skipWhile (isDigit base) len behind p).stops t ht hp

/-- The number that digits stand for, behind the number read before them. -/
def value (base : ℕ) (acc : ℕ) (ds : List ℕ) : ℕ := ds.foldl (fun a d => a * base + d) acc

theorem value_reverse (base : ℕ) (ds : List ℕ) : value base 0 ds.reverse = Nat.ofDigits base ds := by
  unfold value
  rw [List.foldl_reverse]
  induction ds with
  | nil => rfl
  | cons d ds ih =>
    rw [List.foldr_cons, ih, Nat.ofDigits_cons]
    ring

section Base

variable {base : ℕ} (hle : base ≤ 16)

include hle

theorem result_scanFrom {ds : List ℕ} (hds : ∀ d ∈ ds, d < base) {b : UInt8}
    (hb : isDigit base b = false) (m : List UInt8) (off acc : ℕ) :
    (scanFrom base (ds.map digitByte ++ b :: m) off acc).result =
      some (value base acc ds, ⟨off + ds.length, b :: m⟩) := by
  induction ds generalizing off acc with
  | nil => simp [scanFrom, hb, value]
  | cons d ds ih =>
    have hd : d < base := hds d List.mem_cons_self
    have hval := digitVal_digitByte (hd.trans_le hle)
    have hdig : isDigit base (digitByte d) = true := by simp [isDigit, hval, hd]
    have := ih (fun e he => hds e (List.mem_cons_of_mem _ he)) (off + 1) (acc * base + d)
    simp only [List.map_cons, List.cons_append, scanFrom, hdig, if_true, hval, Option.getD_some,
      Trace.result_examined, this, value, List.foldl_cons, List.length_cons]
    congr 3
    omega

/-- **Numerals.** What is read of a numeral is its number. -/
theorem result_scanDigits_numeral (hbase : 1 < base) (n : ℕ) {b : UInt8}
    (hb : isDigit base b = false) (m : List UInt8) (off : ℕ) :
    (scanDigits base ⟨off, numeral base n ++ b :: m⟩).result =
      some (n, ⟨off + (numeral base n).length, b :: m⟩) := by
  have hds : ∀ d ∈ (if n = 0 then [0] else (Nat.digits base n).reverse), d < base := by
    intro d hd
    split_ifs at hd
    · rw [List.mem_singleton.1 hd]
      omega
    · exact Nat.digits_lt_base hbase (List.mem_reverse.1 hd)
  have hval : value base 0 (if n = 0 then [0] else (Nat.digits base n).reverse) = n := by
    split_ifs with hn
    · simp [value, hn]
    · rw [value_reverse, Nat.ofDigits_digits]
  unfold scanDigits numeral
  rw [result_scanFrom hle hds hb, hval, List.length_map]

/-- A text that begins with a numeral begins with one numeral only. -/
theorem numeral_append_inj (hbase : 1 < base) {n n' : ℕ} {b b' : UInt8} {m m' : List UInt8}
    (hb : isDigit base b = false) (hb' : isDigit base b' = false)
    (h : numeral base n ++ b :: m = numeral base n' ++ b' :: m') : n = n' ∧ b :: m = b' :: m' := by
  have hscan := result_scanDigits_numeral hle hbase n hb m 0
  rw [h, result_scanDigits_numeral hle hbase n' hb' m' 0] at hscan
  simp only [Option.some.injEq, Prod.mk.injEq, Ptr.mk.injEq] at hscan
  exact ⟨hscan.1.symm, hscan.2.2.symm⟩

end Base

end Numerals
