import Mathlib.Data.List.GetD
import Mathlib.Tactic

/-!
# Printing into a memory

Text is written into a memory from an offset on, with a zero behind it, and the length of the text
is added to a count.  When each text is written where the count stands, the counted cells hold the
texts one after another (`Out.text_print`, `Out.text_foldl`).  A text that is written one cell
earlier replaces the last cell, but it is counted in full: its terminating zero is counted with it
(`Out.text_print_back`).
-/

namespace Printing

variable {α β : Type*}

/-! ## The memory -/

section Memory

variable [Zero β]

/-- The text, and a zero behind it, are written from `off` on. -/
def write (m : ℕ → β) (off : ℕ) (text : List β) : ℕ → β := fun i =>
  if off ≤ i ∧ i ≤ off + text.length then text.getD (i - off) 0 else m i

theorem write_of_lt (m : ℕ → β) {off i : ℕ} (text : List β) (h : i < off) :
    write m off text i = m i := by
  unfold write
  rw [if_neg (by omega)]

theorem write_of_le (m : ℕ → β) (off : ℕ) {i : ℕ} {text : List β} (h : i ≤ text.length) :
    write m off text (off + i) = text.getD i 0 := by
  unfold write
  rw [if_pos (by omega), Nat.add_sub_cancel_left]

end Memory

/-- The first `len` cells. -/
def cells (m : ℕ → β) (len : ℕ) : List β := (List.range len).map m

theorem cells_succ (m : ℕ → β) (len : ℕ) : cells m (len + 1) = cells m len ++ [m len] := by
  unfold cells
  rw [List.range_succ, List.map_append, List.map_singleton]

theorem cells_congr {m m' : ℕ → β} {len : ℕ} (h : ∀ i < len, m i = m' i) :
    cells m len = cells m' len :=
  List.map_congr_left fun i hi => h i (List.mem_range.1 hi)

theorem length_cells (m : ℕ → β) (len : ℕ) : (cells m len).length = len := by
  unfold cells
  rw [List.length_map, List.length_range]

theorem cells_write_take [Zero β] (m : ℕ → β) (off : ℕ) (text : List β) :
    ∀ k ≤ text.length, cells (write m off text) (off + k) = cells m off ++ text.take k := by
  intro k
  induction k with
  | zero =>
    intro _
    rw [List.take_zero, List.append_nil]
    exact cells_congr fun i hi => write_of_lt m text hi
  | succ k ih =>
    intro hk
    rw [← Nat.add_assoc, cells_succ, ih (by omega), write_of_le m off (by omega),
      List.getD_eq_getElem _ _ hk, List.append_assoc, List.take_concat_get' _ _ hk]

theorem cells_write [Zero β] (m : ℕ → β) (off : ℕ) (text : List β) :
    cells (write m off text) (off + text.length) = cells m off ++ text := by
  rw [cells_write_take m off text _ le_rfl, List.take_length]

/-- The terminator stands behind the text. -/
theorem cells_write_succ [Zero β] (m : ℕ → β) (off : ℕ) (text : List β) :
    cells (write m off text) (off + text.length + 1) = cells m off ++ text ++ [0] := by
  rw [cells_succ, cells_write, write_of_le m off le_rfl, List.getD_eq_default _ _ le_rfl]

/-! ## Counted output -/

/-- A memory and the number of cells counted as written. -/
structure Out (β : Type*) where
  mem : ℕ → β
  len : ℕ

namespace Out

/-- The counted cells. -/
def text (o : Out β) : List β := cells o.mem o.len

/-- Before anything is printed. -/
def start (m : ℕ → β) : Out β := ⟨m, 0⟩

@[simp] theorem text_start (m : ℕ → β) : (start m).text = [] := rfl

/-- A loop whose passes add to the text. -/
theorem text_foldl {f : Out β → α → Out β} {w : α → List β}
    (hf : ∀ o a, (f o a).text = o.text ++ w a) (l : List α) (o : Out β) :
    (l.foldl f o).text = o.text ++ l.flatMap w := by
  induction l generalizing o with
  | nil => rw [List.foldl_nil, List.flatMap_nil, List.append_nil]
  | cons a l ih => rw [List.foldl_cons, ih, hf, List.append_assoc, List.flatMap_cons]

variable [Zero β]

/-- `len += sprintf(mem + len - back, text)`. -/
def print (o : Out β) (back : ℕ) (text : List β) : Out β :=
  ⟨write o.mem (o.len - back) text, o.len + text.length⟩

@[simp] theorem text_print (o : Out β) (t : List β) : (o.print 0 t).text = o.text ++ t :=
  cells_write o.mem o.len t

/-- The last cell is overwritten, and the terminator is counted. -/
theorem text_print_back {o : Out β} {l : List β} {b : β} (h : o.text = l ++ [b]) (t : List β) :
    (o.print 1 t).text = l ++ t ++ [0] := by
  have hlen : o.len = l.length + 1 := by
    rw [← length_cells o.mem o.len, show cells o.mem o.len = l ++ [b] from h, List.length_append,
      List.length_singleton]
  have hl : cells o.mem l.length = l := by
    have h' : cells o.mem (l.length + 1) = l ++ [b] := hlen ▸ h
    rw [cells_succ] at h'
    exact (List.append_inj h' (length_cells _ _)).1
  show cells (write o.mem (o.len - 1) t) (o.len + t.length) = _
  rw [hlen, Nat.add_sub_cancel, Nat.add_right_comm, cells_write_succ, hl]

end Out

/-! ## Separators -/

/-- Items with a separator behind each are the joined items with one separator at the end. -/
theorem flatMap_separated (w : α → List β) (c : β) (a : α) (l : List α) :
    (a :: l).flatMap (fun x => w x ++ [c]) = [c].intercalate ((a :: l).map w) ++ [c] := by
  induction l generalizing a with
  | nil => simp
  | cons b l ih =>
    rw [List.flatMap_cons, ih b]
    simp only [List.map_cons, List.intercalate_cons_cons, List.append_assoc]

theorem mem_intercalate_map {w : α → List β} {c b : β} {l : List α}
    (h : b ∈ [c].intercalate (l.map w)) : b = c ∨ ∃ x ∈ l, b ∈ w x := by
  cases l with
  | nil => simp at h
  | cons a l =>
    have hb : b ∈ (a :: l).flatMap fun x => w x ++ [c] := by
      rw [flatMap_separated]
      exact List.mem_append_left _ h
    obtain ⟨x, hx, hbx⟩ := List.mem_flatMap.1 hb
    rcases List.mem_append.1 hbx with hbx | hbc
    · exact .inr ⟨x, hx, hbx⟩
    · exact .inl (List.mem_singleton.1 hbc)

end Printing
