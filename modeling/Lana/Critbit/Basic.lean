import Lana.Base

/-!
# The crit-bit tree of `xt_critbit.c`

A tree is `NULL` or a node; a node is an inner node `(byte, otherbits, child[2])` or, untagged, a
reference to an element.  References have an arbitrary type `α`; `str a` is the string `a` points
to.  Every reference is cacheline aligned (`__critbit_insert` traps on any other), so the tag bit
of a child pointer tells the two kinds of node apart.

The walks stop at the first untagged pointer; the two stores of an insertion or a deletion are the
pointer at `*wherep`, resp. `*whereq`, so here the path to it is rebuilt.
-/

namespace Lana

/-- A non-`NULL` child pointer. -/
inductive CritbitNode (α : Type*) where
  | elem (a : α)
  | node (byte otherbits : ℕ) (child0 child1 : CritbitNode α)
  deriving DecidableEq

/-- `tree->root`, `none` for `NULL`. -/
abbrev CritbitTree (α : Type*) := Option (CritbitNode α)

/-- `c = 0; if (byte < ulen) c = ubytes[byte];` -/
def byteOf (u : CStr) (byte : ℕ) : ℕ := if byte < u.strlen then u.get byte else 0

/-- `(1 + (otherbits | c)) >> 8`. -/
def direction (otherbits c : ℕ) : ℕ := (1 + (otherbits ||| c)) >>> 8

/-- The first loop of all four functions: the element that `u` leads to. -/
def walk {α : Type*} (u : CStr) : CritbitNode α → α
  | .elem a => a
  | .node byte otherbits c0 c1 =>
    if direction otherbits (byteOf u byte) = 0 then walk u c0 else walk u c1

/-- The comparison loop of `__critbit_insert` from `newbyte` on, with `n = ulen - newbyte`: the
first differing byte of `u` and the found string `p` with the initial `newotherbits`, `none` when
the strings are equal. -/
def differingByte (u p : CStr) : ℕ → ℕ → Option (ℕ × ℕ)
  | 0, newbyte => if p.get newbyte ≠ 0 then some (newbyte, p.get newbyte) else none
  | n + 1, newbyte =>
    if p.get newbyte ≠ u.get newbyte then some (newbyte, p.get newbyte ^^^ u.get newbyte)
    else differingByte u p n (newbyte + 1)

/-- `while (x & (x - 1)) x &= x - 1;` for at most `n` rounds. -/
def highestBit : ℕ → ℕ → ℕ
  | 0, x => x
  | n + 1, x => if x &&& (x - 1) ≠ 0 then highestBit n (x &&& (x - 1)) else x

/-- The second walk of `__critbit_insert`: `newnode` is linked above the first node beyond
`(newbyte, newotherbits)`. -/
def linkNode {α : Type*} (u : CStr) (newbyte newotherbits newdirection : ℕ) (a : α) :
    CritbitNode α → CritbitNode α
  | .elem b => newnode (.elem b)
  | .node byte otherbits c0 c1 =>
    if byte > newbyte then newnode (.node byte otherbits c0 c1)
    else if byte = newbyte ∧ otherbits > newotherbits then newnode (.node byte otherbits c0 c1)
    else if direction otherbits (byteOf u byte) = 0 then
      .node byte otherbits (linkNode u newbyte newotherbits newdirection a c0) c1
    else .node byte otherbits c0 (linkNode u newbyte newotherbits newdirection a c1)
where
  /-- `newnode->child[newdirection] = *wherep; newnode->child[1 - newdirection] = elem`. -/
  newnode (old : CritbitNode α) : CritbitNode α :=
    if newdirection = 0 then .node newbyte newotherbits old (.elem a)
    else .node newbyte newotherbits (.elem a) old

/-- The deletion walk: the leaf `u` leads to is dropped and its parent replaced by the other
child; `none` when that leaf is the root. -/
def unlinkNode {α : Type*} (u : CStr) : CritbitNode α → Option (CritbitNode α)
  | .elem _ => none
  | .node byte otherbits c0 c1 =>
    if direction otherbits (byteOf u byte) = 0 then
      match unlinkNode u c0 with
      | none => some c1
      | some c => some (.node byte otherbits c c1)
    else
      match unlinkNode u c1 with
      | none => some c0
      | some c => some (.node byte otherbits c0 c)

section Operations

variable {α : Type*} (str : α → CStr)

/-- `critbit_contains`. -/
def critbitContains (tree : CritbitTree α) (u : CStr) : Bool :=
  match tree with
  | none => false
  | some p => u = str (walk u p)

/-- `critbit_get`. -/
def critbitGet (tree : CritbitTree α) (u : CStr) : Option α :=
  match tree with
  | none => none
  | some p => if u = str (walk u p) then some (walk u p) else none

/-- `critbit_insert`; `alloc` is the outcome of `critbit_alloc_node_aligned`. -/
def critbitInsert (alloc : Bool) (tree : CritbitTree α) (a : α) : Ret × CritbitTree α :=
  match tree with
  | none => (.ok, some (.elem a))
  | some p =>
    let leaf := str (walk (str a) p)
    match differingByte (str a) leaf (str a).strlen 0 with
    | none => (.err .EEXIST, tree)
    | some (newbyte, x) =>
      let newotherbits := highestBit 8 x ^^^ 255
      let newdirection := direction newotherbits (leaf.get newbyte)
      if alloc then (.ok, some (linkNode (str a) newbyte newotherbits newdirection a p))
      else (.err .ENOMEM, tree)

/-- `critbit_delete`. -/
def critbitDelete (tree : CritbitTree α) (u : CStr) : Ret × CritbitTree α :=
  match tree with
  | none => (.ok, none)
  | some p => if u ≠ str (walk u p) then (.err .ENOENT, tree) else (.ok, unlinkNode u p)

end Operations

end Lana
