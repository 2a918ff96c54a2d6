import Mathlib.Data.List.GetD
import Mathlib.Tactic

/-!
# Return values and strings

What the modelled kernel code shares: `0` or `-errno` return values and NUL-terminated strings.
-/

namespace Lana

/-- The error numbers the modelled functions return. -/
inductive Errno where
  | EINVAL
  | EEXIST
  | ENOMEM
  | ENOENT
  | EBUSY
  deriving DecidableEq, Repr

/-- The `int` result of a kernel function: `0`, or `-e`. -/
inductive Ret where
  | ok
  | err (e : Errno)
  deriving DecidableEq, Repr

/-- A NUL-terminated string: the bytes before the terminator. -/
structure CStr where
  bytes : List UInt8
  nonzero : ∀ b ∈ bytes, b ≠ 0
  len_lt : bytes.length < 2 ^ 32
  deriving DecidableEq

namespace CStr

/-- `strlen(s)`. -/
def strlen (s : CStr) : ℕ := s.bytes.length

/-- The byte `s[i]`, the terminator included. -/
def get (s : CStr) (i : ℕ) : ℕ := (s.bytes.getD i 0).toNat

theorem get_lt (s : CStr) (i : ℕ) : s.get i < 256 := UInt8.toNat_lt _

theorem get_of_strlen_le {s : CStr} {i : ℕ} (h : s.strlen ≤ i) : s.get i = 0 := by
  unfold get
  rw [List.getD_eq_default _ _ h]
  rfl

theorem get_pos {s : CStr} {i : ℕ} (h : i < s.strlen) : 0 < s.get i := by
  unfold get
  rw [List.getD_eq_getElem _ _ h]
  have hne := s.nonzero _ (List.getElem_mem h)
  rw [Nat.pos_iff_ne_zero]
  intro h0
  exact hne (UInt8.toNat_inj.1 h0)

/-- The terminator is the first zero byte. -/
theorem get_eq_zero_iff {s : CStr} {i : ℕ} : s.get i = 0 ↔ s.strlen ≤ i := by
  refine ⟨fun h => ?_, get_of_strlen_le⟩
  by_contra hlt
  have := get_pos (not_le.1 hlt)
  omega

theorem strlen_eq_of_get {s t : CStr} (h : ∀ i, s.get i = t.get i) : s.strlen = t.strlen := by
  refine le_antisymm ?_ ?_
  · rw [← get_eq_zero_iff, h]; exact get_of_strlen_le le_rfl
  · rw [← get_eq_zero_iff, ← h]; exact get_of_strlen_le le_rfl

/-- Strings with the same bytes up to and beyond the terminator are equal. -/
theorem ext_get {s t : CStr} (h : ∀ i, s.get i = t.get i) : s = t := by
  have hlen := strlen_eq_of_get h
  have hb : s.bytes = t.bytes := by
    refine List.ext_getElem hlen fun i hs ht => ?_
    have hi := h i
    unfold get at hi
    rw [List.getD_eq_getElem _ _ hs, List.getD_eq_getElem _ _ ht] at hi
    exact UInt8.toNat_inj.1 hi
  cases s
  cases t
  cases hb
  rfl

end CStr

/-- The bytes of an ASCII string. -/
def ascii (s : String) : List UInt8 := s.toList.map fun c => UInt8.ofNat c.toNat

/-- `snprintf(buf, size, ..)`: what of the text is in the buffer, before the terminator. -/
def snprintf (size : ℕ) (text : List UInt8) : List UInt8 := text.take (size - 1)

end Lana
