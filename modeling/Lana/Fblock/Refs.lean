import Lana.Fblock.Core

/-!
# References

`get_fblock` and `put_fblock` as additions to the counts.  `addRefs` adds a function of counts;
additions combine, and commute with whatever else happens to the state.  A `put_fblock` that does
not reach 0 is an addition as well (`putFblock_eq`), so that the references a handler takes and
gives back cancel.
-/

namespace Lana

/-- One reference to `a`. -/
def ref (a : Addr) : Addr → ℤ := Pi.single a 1

theorem ref_apply (a b : Addr) : ref a b = if b = a then 1 else 0 := by
  unfold ref
  rw [Pi.single_apply]

@[simp] theorem ref_self (a : Addr) : ref a a = 1 := by rw [ref_apply, if_pos rfl]

theorem ref_of_ne {a b : Addr} (h : b ≠ a) : ref a b = 0 := by rw [ref_apply, if_neg h]

theorem ref_nonneg (a b : Addr) : 0 ≤ ref a b := by
  rw [ref_apply]
  split_ifs <;> norm_num

namespace State

/-- Add `δ` to the counts. -/
def addRefs (s : State) (δ : Addr → ℤ) : State := { s with refcnt := s.refcnt + δ }

@[simp] theorem addRefs_refcnt (s : State) (δ : Addr → ℤ) (a : Addr) :
    (s.addRefs δ).refcnt a = s.refcnt a + δ a := rfl

theorem addRefs_addRefs (s : State) (δ ε : Addr → ℤ) :
    (s.addRefs δ).addRefs ε = s.addRefs (δ + ε) := by
  unfold addRefs
  simp only [add_assoc]

theorem addRefs_zero (s : State) : s.addRefs 0 = s := by
  unfold addRefs
  rw [add_zero]

@[simp] theorem lookup_addRefs (s : State) (δ : Addr → ℤ) (n : CStr) :
    (s.addRefs δ).lookup n = s.lookup n := rfl

end State

open State

theorem getFblock_eq (s : State) (a : Addr) : getFblock s a = s.addRefs (ref a) := by
  have h : Function.update s.refcnt a (s.refcnt a + 1) = s.refcnt + ref a := by
    funext b
    by_cases hb : b = a
    · subst hb; simp
    · simp [hb, ref_of_ne hb]
  unfold getFblock addRefs
  rw [h]

theorem update_sub_one (s : State) (a : Addr) :
    { s with refcnt := Function.update s.refcnt a (s.refcnt a - 1) } = s.addRefs (-ref a) := by
  have h : Function.update s.refcnt a (s.refcnt a - 1) = s.refcnt + -ref a := by
    funext b
    by_cases hb : b = a
    · subst hb; simp [sub_eq_add_neg]
    · simp [hb, ref_of_ne hb]
  unfold addRefs
  rw [h]

/-- A `put_fblock` above the last reference. -/
theorem putFblock_eq {s : State} {a : Addr} (h : s.refcnt a ≠ 1) :
    putFblock s a = s.addRefs (-ref a) := by
  have hne : Function.update s.refcnt a (s.refcnt a - 1) a ≠ 0 := by
    rw [Function.update_self]
    omega
  rw [← update_sub_one]
  exact if_pos hne

/-- The last `put_fblock` releases the block. -/
theorem putFblock_release {s : State} {a : Addr} {f : Factory} (h : s.refcnt a = 1)
    (hf : s.factory a = some f) :
    putFblock s a = (f.dtorOutsideRcu (s.addRefs (-ref a)) a).logRelease a := by
  have hz : ¬ Function.update s.refcnt a (s.refcnt a - 1) a ≠ 0 := by
    rw [Function.update_self]
    omega
  rw [← update_sub_one]
  unfold putFblock
  refine (if_neg hz).trans ?_
  rw [hf]

/-- Without a factory nothing is released. -/
theorem putFblock_of_no_factory {s : State} {a : Addr} (h : s.factory a = none) :
    putFblock s a = s.addRefs (-ref a) := by
  rw [← update_sub_one]
  unfold putFblock
  simp only [h, ite_self]

/-! ## Lookups -/

theorem searchFblockN_eq (s : State) (n : CStr) :
    searchFblockN s n = match s.lookup n with
      | none => (none, s)
      | some a => (some a, s.addRefs (ref a)) := by
  unfold searchFblockN searchFblockRaw State.lookup
  rcases s.fblmap (getFblockNamespaceMapping s n) with _ | a
  · rfl
  · simp only [getFblock_eq]

theorem searchFblockN_none {s : State} {n : CStr} (h : s.lookup n = none) :
    searchFblockN s n = (none, s) := by
  rw [searchFblockN_eq, h]

theorem searchFblockN_some {s : State} {n : CStr} {a : Addr} (h : s.lookup n = some a) :
    searchFblockN s n = (some a, s.addRefs (ref a)) := by
  rw [searchFblockN_eq, h]

end Lana
