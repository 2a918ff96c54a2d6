import Lana.Critbit.Basic
import Lana.Library.BitTree
import Mathlib.Data.Nat.Bitwise

/-!
# Bytes, `otherbits` and bit positions

A string is a stream of bits, the most significant bit of each byte first (`bitAt`).  An inner node
`(byte, otherbits)` whose `otherbits` has all bits but one set tests one bit of that stream
(`position`), and the order in which `linkNode` compares nodes is the order of these positions.
`toTree` forgets the encoding; under it the walks of the source are those of `BitTree`.
-/

namespace Lana

open BitTree

/-- Bit `n` of a string, zero beyond the terminator. -/
def bitAt (s : CStr) (n : ℕ) : Bool := (s.get (n / 8)).testBit (7 - n % 8)

/-- The position an inner node tests. -/
def position (byte otherbits : ℕ) : ℕ := 8 * byte + (7 - Nat.log2 (255 - otherbits))

theorem bitAt_mul_add (s : CStr) (byte : ℕ) {b : ℕ} (hb : b < 8) :
    bitAt s (8 * byte + (7 - b)) = (s.get byte).testBit b := by
  have hdiv : (8 * byte + (7 - b)) / 8 = byte := by omega
  have hmod : (8 * byte + (7 - b)) % 8 = 7 - b := by omega
  have hsub : 7 - (7 - b) = b := by omega
  unfold bitAt
  rw [hdiv, hmod, hsub]

/-! ## One bit of one byte -/

theorem byteOf_eq (u : CStr) (byte : ℕ) : byteOf u byte = u.get byte := by
  unfold byteOf
  split_ifs with h
  · rfl
  · exact (CStr.get_of_strlen_le (not_lt.1 h)).symm

/-- With every bit but `b` set in `otherbits`, the carry out of the byte is bit `b`. -/
theorem direction_eq {b c : ℕ} (hb : b < 8) (hc : c < 256) :
    direction (255 - 2 ^ b) c = if c.testBit b then 1 else 0 := by
  have key : ∀ b : Fin 8, ∀ c : Fin 256,
      direction (255 - 2 ^ b.val) c.val = if c.val.testBit b.val then 1 else 0 := by
    decide +kernel
  exact key ⟨b, hb⟩ ⟨c, hc⟩

theorem log2_sub_otherbits {b : ℕ} (hb : b < 8) : Nat.log2 (255 - (255 - 2 ^ b)) = b := by
  have hle : 2 ^ b ≤ 2 ^ 7 := Nat.pow_le_pow_right (by norm_num) (by omega)
  rw [Nat.sub_sub_self (by omega)]
  exact Nat.log2_two_pow

theorem position_eq (byte : ℕ) {b : ℕ} (hb : b < 8) :
    position byte (255 - 2 ^ b) = 8 * byte + (7 - b) := by
  unfold position
  rw [log2_sub_otherbits hb]

/-- A larger `otherbits` stands for a less significant bit. -/
theorem otherbits_lt_iff {b b' : ℕ} (hb : b < 8) (hb' : b' < 8) :
    255 - 2 ^ b < 255 - 2 ^ b' ↔ b' < b := by
  have h1 : 2 ^ b ≤ 2 ^ 7 := Nat.pow_le_pow_right (by norm_num) (by omega)
  have h2 : 2 ^ b' ≤ 2 ^ 7 := Nat.pow_le_pow_right (by norm_num) (by omega)
  have h3 : 2 ^ b' < 2 ^ b ↔ b' < b := Nat.pow_lt_pow_iff_right (by norm_num)
  rw [← h3]
  omega

/-- The comparisons of the second walk order the nodes by position. -/
theorem position_lt_iff {byte newbyte b b' : ℕ} (hb : b < 8) (hb' : b' < 8) :
    position newbyte (255 - 2 ^ b) < position byte (255 - 2 ^ b') ↔
      byte > newbyte ∨ byte = newbyte ∧ 255 - 2 ^ b' > 255 - 2 ^ b := by
  rw [position_eq newbyte hb, position_eq byte hb', gt_iff_lt, gt_iff_lt, otherbits_lt_iff hb hb']
  omega

/-! ## The new position -/

/-- The loop keeps the most significant bit. -/
theorem highestBit_eq {x : ℕ} (hx : x < 256) (h0 : x ≠ 0) : highestBit 8 x = 2 ^ Nat.log2 x := by
  have key : ∀ x : Fin 256, x.val ≠ 0 → highestBit 8 x.val = 2 ^ Nat.log2 x.val := by
    decide +kernel
  exact key ⟨x, hx⟩ h0

theorem xor_255 {b : ℕ} (hb : b < 8) : 2 ^ b ^^^ 255 = 255 - 2 ^ b := by
  have key : ∀ b : Fin 8, 2 ^ b.val ^^^ 255 = 255 - 2 ^ b.val := by decide
  exact key ⟨b, hb⟩

theorem log2_lt_eight {x : ℕ} (hx : x < 256) : Nat.log2 x < 8 := by
  by_cases h0 : x = 0
  · subst h0; decide
  · exact (Nat.log2_lt h0).2 hx

/-- What the comparison loop finds, from a `newbyte` up to which the strings agree. -/
theorem differingByte_eq_some {u p : CStr} {n newbyte i x : ℕ} (hn : newbyte + n = u.strlen)
    (hag : ∀ j < newbyte, p.get j = u.get j) (h : differingByte u p n newbyte = some (i, x)) :
    (∀ j < i, p.get j = u.get j) ∧ p.get i ≠ u.get i ∧ x = p.get i ^^^ u.get i := by
  induction n generalizing newbyte with
  | zero =>
    unfold differingByte at h
    split_ifs at h with hp
    simp only [Option.some.injEq, Prod.mk.injEq] at h
    obtain ⟨rfl, rfl⟩ := h
    have hu : u.get newbyte = 0 := CStr.get_of_strlen_le (by omega)
    exact ⟨hag, by rwa [hu], by rw [hu, Nat.xor_zero]⟩
  | succ n ih =>
    unfold differingByte at h
    split_ifs at h with hp
    · simp only [Option.some.injEq, Prod.mk.injEq] at h
      obtain ⟨rfl, rfl⟩ := h
      exact ⟨hag, hp, rfl⟩
    · refine ih (by omega) (fun j hj => ?_) h
      rcases Nat.lt_succ_iff_lt_or_eq.1 hj with hj | rfl
      · exact hag j hj
      · exact not_not.1 hp

theorem differingByte_eq_none {u p : CStr} {n newbyte : ℕ} (hn : newbyte + n = u.strlen)
    (hag : ∀ j < newbyte, p.get j = u.get j) (h : differingByte u p n newbyte = none) : u = p := by
  induction n generalizing newbyte with
  | zero =>
    unfold differingByte at h
    split_ifs at h with hp
    have hle : p.strlen ≤ newbyte := CStr.get_eq_zero_iff.1 (not_not.1 hp)
    refine CStr.ext_get fun j => ?_
    by_cases hj : j < newbyte
    · exact (hag j hj).symm
    · rw [CStr.get_of_strlen_le (by omega), CStr.get_of_strlen_le (by omega)]
  | succ n ih =>
    unfold differingByte at h
    split_ifs at h with hp
    refine ih (by omega) (fun j hj => ?_) h
    rcases Nat.lt_succ_iff_lt_or_eq.1 hj with hj | rfl
    · exact hag j hj
    · exact not_not.1 hp

theorem differingByte_self (u : CStr) (n newbyte : ℕ) (hn : newbyte + n = u.strlen) :
    differingByte u u n newbyte = none := by
  induction n generalizing newbyte with
  | zero =>
    unfold differingByte
    rw [if_neg (not_not.2 (CStr.get_of_strlen_le (by omega)))]
  | succ n ih =>
    unfold differingByte
    rw [if_neg (not_not.2 rfl), ih _ (by omega)]

/-- The loop ends in `-EEXIST` exactly on equal strings. -/
theorem differingByte_none_iff {u p : CStr} : differingByte u p u.strlen 0 = none ↔ u = p := by
  refine ⟨differingByte_eq_none (by omega) (fun j hj => absurd hj (Nat.not_lt_zero j)), ?_⟩
  rintro rfl
  exact differingByte_self u _ _ (by omega)

/-- The position of `newnode` is the first one at which the two strings differ. -/
theorem first_difference {u p : CStr} {i x : ℕ}
    (h : differingByte u p u.strlen 0 = some (i, x)) :
    ∃ b < 8, highestBit 8 x ^^^ 255 = 255 - 2 ^ b ∧
      (∀ n < 8 * i + (7 - b), bitAt p n = bitAt u n) ∧
      (p.get i).testBit b ≠ (u.get i).testBit b := by
  obtain ⟨hag, hne, rfl⟩ :=
    differingByte_eq_some (by omega) (fun j hj => absurd hj (Nat.not_lt_zero j)) h
  have hx0 : p.get i ^^^ u.get i ≠ 0 := by
    intro h0
    have hc := Nat.xor_xor_cancel_left (p.get i) (u.get i)
    rw [h0, Nat.xor_zero] at hc
    exact hne hc
  have hx : p.get i ^^^ u.get i < 256 := Nat.xor_lt_two_pow (n := 8) (p.get_lt i) (u.get_lt i)
  have hb := log2_lt_eight hx
  have htop := Nat.testBit_log2 hx0
  have hhigh : ∀ c, Nat.log2 (p.get i ^^^ u.get i) < c →
      (p.get i ^^^ u.get i).testBit c = false := fun c hc =>
    Nat.testBit_lt_two_pow (lt_of_lt_of_le Nat.lt_log2_self
      (Nat.pow_le_pow_right (by norm_num) hc))
  generalize hbdef : Nat.log2 (p.get i ^^^ u.get i) = b at hb htop hhigh
  refine ⟨b, hb, ?_, fun n hn => ?_, ?_⟩
  · rw [highestBit_eq hx hx0, hbdef, xor_255 hb]
  · unfold bitAt
    by_cases hni : n / 8 = i
    · -- same byte, a more significant bit
      have hbit := hhigh (7 - n % 8) (by omega)
      rw [Nat.testBit_xor, ← hni] at hbit
      simpa using hbit
    · rw [hag (n / 8) (by omega)]
  · rw [Nat.testBit_xor] at htop
    simpa using htop

/-! ## The tree without its encoding -/

/-- The critical-bit tree a node represents. -/
def toTree {α : Type*} : CritbitNode α → Tree ℕ α
  | .elem a => .leaf a
  | .node byte otherbits c0 c1 => .node (position byte otherbits) (toTree c0) (toTree c1)

/-- Every inner node tests a single bit. -/
def Encoded {α : Type*} : CritbitNode α → Prop
  | .elem _ => True
  | .node _ otherbits c0 c1 => (∃ b < 8, otherbits = 255 - 2 ^ b) ∧ Encoded c0 ∧ Encoded c1

theorem direction_byteOf (u : CStr) (byte : ℕ) {b : ℕ} (hb : b < 8) :
    direction (255 - 2 ^ b) (byteOf u byte) = 0 ↔
      ¬ bitAt u (position byte (255 - 2 ^ b)) = true := by
  rw [byteOf_eq, direction_eq hb (u.get_lt byte), position_eq byte hb, bitAt_mul_add u byte hb]
  split_ifs with h <;> simp [h]

theorem walk_toTree {α : Type*} (u : CStr) {p : CritbitNode α} (hp : Encoded p) :
    walk u p = (toTree p).walk (bitAt u) := by
  induction p with
  | elem a => rfl
  | node byte otherbits c0 c1 ih0 ih1 =>
    obtain ⟨⟨b, hb, rfl⟩, h0, h1⟩ := hp
    have hd := direction_byteOf u byte hb
    unfold walk toTree Tree.walk
    by_cases hx : bitAt u (position byte (255 - 2 ^ b)) = true
    · rw [if_neg (by rw [hd]; exact not_not.2 hx), if_pos hx, ih1 h1]
    · rw [if_pos (hd.2 hx), if_neg hx, ih0 h0]

theorem encoded_newnode {α : Type*} {newbyte newdirection b : ℕ} (hb : b < 8) (a : α)
    {old : CritbitNode α} (hold : Encoded old) :
    Encoded (linkNode.newnode newbyte (255 - 2 ^ b) newdirection a old) := by
  unfold linkNode.newnode
  split_ifs
  · exact ⟨⟨b, hb, rfl⟩, hold, trivial⟩
  · exact ⟨⟨b, hb, rfl⟩, trivial, hold⟩

theorem encoded_linkNode {α : Type*} {u : CStr} {newbyte newdirection b : ℕ} (hb : b < 8) (a : α)
    {p : CritbitNode α} (hp : Encoded p) :
    Encoded (linkNode u newbyte (255 - 2 ^ b) newdirection a p) := by
  induction p with
  | elem c => exact encoded_newnode hb a trivial
  | node byte otherbits c0 c1 ih0 ih1 =>
    unfold linkNode
    split_ifs
    · exact encoded_newnode hb a hp
    · exact encoded_newnode hb a hp
    · exact ⟨hp.1, ih0 hp.2.1, hp.2.2⟩
    · exact ⟨hp.1, hp.2.1, ih1 hp.2.2⟩

theorem newnode_toTree {α : Type*} {u : CStr} {newbyte newdirection otherbits : ℕ} {a : α}
    (hd : newdirection = 0 ↔ bitAt u (position newbyte otherbits) = true) (old : CritbitNode α) :
    toTree (linkNode.newnode newbyte otherbits newdirection a old) =
      Tree.fork (bitAt u) (position newbyte otherbits) a (toTree old) := by
  unfold linkNode.newnode Tree.fork
  by_cases hx : bitAt u (position newbyte otherbits) = true
  · rw [if_pos (hd.2 hx), if_pos hx]; rfl
  · rw [if_neg (fun h => hx (hd.1 h)), if_neg hx]; rfl

/-- The second walk of an insertion grafts the new element at its position. -/
theorem linkNode_toTree {α : Type*} {u : CStr} {newbyte newdirection b : ℕ} (hb : b < 8) {a : α}
    (hd : newdirection = 0 ↔ bitAt u (position newbyte (255 - 2 ^ b)) = true)
    {p : CritbitNode α} (hp : Encoded p) :
    toTree (linkNode u newbyte (255 - 2 ^ b) newdirection a p) =
      (toTree p).graft (bitAt u) (position newbyte (255 - 2 ^ b)) a := by
  induction p with
  | elem c => exact newnode_toTree hd (.elem c)
  | node byte otherbits c0 c1 ih0 ih1 =>
    obtain ⟨⟨b', hb', rfl⟩, h0, h1⟩ := hp
    have hlt := @position_lt_iff byte newbyte _ _ hb hb'
    have hdir := direction_byteOf u byte hb'
    unfold linkNode
    rw [toTree, Tree.graft]
    by_cases hgt : byte > newbyte
    · rw [if_pos hgt, if_pos (hlt.2 (Or.inl hgt))]
      exact newnode_toTree hd _
    rw [if_neg hgt]
    by_cases heq : byte = newbyte ∧ 255 - 2 ^ b' > 255 - 2 ^ b
    · rw [if_pos heq, if_pos (hlt.2 (Or.inr heq))]
      exact newnode_toTree hd _
    rw [if_neg heq, if_neg (fun h => (hlt.1 h).elim hgt heq)]
    by_cases hx : bitAt u (position byte (255 - 2 ^ b')) = true
    · rw [if_neg (by rw [hdir]; exact not_not.2 hx), if_pos hx, toTree, ih1 h1]
    · rw [if_pos (hdir.2 hx), if_neg hx, toTree, ih0 h0]

/-- The deletion walk prunes. -/
theorem unlinkNode_toTree {α : Type*} {u : CStr} {p : CritbitNode α} (hp : Encoded p) :
    (unlinkNode u p).map toTree = (toTree p).prune (bitAt u) := by
  induction p with
  | elem a => rfl
  | node byte otherbits c0 c1 ih0 ih1 =>
    obtain ⟨⟨b, hb, rfl⟩, h0, h1⟩ := hp
    have hdir := direction_byteOf u byte hb
    unfold unlinkNode
    rw [toTree, Tree.prune]
    by_cases hx : bitAt u (position byte (255 - 2 ^ b)) = true
    · rw [if_neg (by rw [hdir]; exact not_not.2 hx), if_pos hx, ← ih1 h1]
      cases unlinkNode u c1 <;> rfl
    · rw [if_pos (hdir.2 hx), if_neg hx, ← ih0 h0]
      cases unlinkNode u c0 <;> rfl

theorem encoded_unlinkNode {α : Type*} {u : CStr} {p p' : CritbitNode α} (hp : Encoded p)
    (h : unlinkNode u p = some p') : Encoded p' := by
  induction p generalizing p' with
  | elem a => cases h
  | node byte otherbits c0 c1 ih0 ih1 =>
    unfold unlinkNode at h
    split_ifs at h
    · split at h <;> cases h
      · exact hp.2.2
      · rename_i c hc
        exact ⟨hp.1, ih0 hp.2.1 hc, hp.2.2⟩
    · split at h <;> cases h
      · exact hp.2.1
      · rename_i c hc
        exact ⟨hp.1, hp.2.1, ih1 hp.2.2 hc⟩

end Lana
