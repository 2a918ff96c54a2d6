import Lana.Fblock.Binding
import Mathlib.Logic.Equiv.Basic

/-!
# Migration

`fblock_migrate_p` exchanges the private areas of two blocks, `fblock_migrate_r` copies name and
idp across and exchanges notifier lists, subscriber chains and counts.
-/

namespace Lana

open State

section Swap

variable {β : Type*} {f : Addr → β} {dst src : Addr}

theorem swapField_dst : swapField f dst src dst = f src := by
  unfold swapField
  by_cases h : dst = src
  · rw [h, Function.update_self]
  · rw [Function.update_of_ne h, Function.update_self]

theorem swapField_src : swapField f dst src src = f dst := Function.update_self ..

theorem swapField_of_ne {a : Addr} (h1 : a ≠ dst) (h2 : a ≠ src) :
    swapField f dst src a = f a := by
  unfold swapField
  rw [Function.update_of_ne h2, Function.update_of_ne h1]

theorem swapField_eq_swap (f : Addr → β) (dst src a : Addr) :
    swapField f dst src a = f (Equiv.swap dst src a) := by
  by_cases hs : a = src
  · rw [hs, swapField_src, Equiv.swap_apply_right]
  · by_cases hd : a = dst
    · rw [hd, swapField_dst, Equiv.swap_apply_left]
    · rw [swapField_of_ne hd hs, Equiv.swap_apply_of_ne_of_ne hd hs]

theorem swapField_comp {γ : Type*} (g : β → γ) (a : Addr) :
    g (swapField f dst src a) = swapField (fun x => g (f x)) dst src a := by
  unfold swapField
  simp only [Function.update_apply]
  split_ifs <;> rfl

/-- Equal additions on both sides go through the exchange. -/
theorem swapField_add_refs {f : Addr → ℤ} :
    swapField (f + (ref dst + ref src)) dst src = swapField f dst src + (ref dst + ref src) := by
  have heq : (ref dst + ref src) dst = (ref dst + ref src) src := by
    by_cases h : dst = src
    · rw [h]
    · simp [ref_of_ne h, ref_of_ne (Ne.symm h)]
  funext a
  by_cases hs : a = src
  · subst hs
    rw [Pi.add_apply, swapField_src, swapField_src, Pi.add_apply, heq]
  · by_cases hd : a = dst
    · subst hd
      rw [Pi.add_apply, swapField_dst, swapField_dst, Pi.add_apply, heq]
    · rw [Pi.add_apply, swapField_of_ne hd hs, swapField_of_ne hd hs]
      rfl

end Swap

/-! ## Private areas -/

theorem Copies.swap {s : State} {P : Addr → Ports} (h : Copies s P) (dst src : Addr) :
    Copies (s.withPriv (swapField s.privateData dst src)) (swapField P dst src) := by
  intro a c hc
  show ((swapField s.privateData dst src a) c).ports = swapField P dst src a
  have hf : (fun x => (s.privateData x c).ports) = P := funext fun x => h x c hc
  rw [swapField_comp (fun p : Cpu → Priv => (p c).ports), hf]

theorem migrateP_eq (s : State) (dst src : Addr) :
    fblockMigrateP s dst src = putFblock (putFblock
      ((s.withPriv (swapField s.privateData dst src)).addRefs (ref dst + ref src)) dst) src := by
  unfold fblockMigrateP
  rw [getFblock_eq, getFblock_eq, addRefs_addRefs]
  rfl

@[simp] theorem registry_migrateP (s : State) (dst src : Addr) :
    (fblockMigrateP s dst src).registry = s.registry := by
  rw [migrateP_eq]
  simp only [registry_putFblock, registry_addRefs, registry_withPriv]

@[simp] theorem lists_migrateP (s : State) (dst src : Addr) :
    (fblockMigrateP s dst src).lists = s.lists := by
  rw [migrateP_eq]
  simp only [lists_putFblock, lists_addRefs, lists_withPriv]

theorem refcnt_migrateP (s : State) (dst src : Addr) :
    (fblockMigrateP s dst src).refcnt = s.refcnt := by
  rw [migrateP_eq, refcnt_putFblock, refcnt_putFblock]
  show s.refcnt + (ref dst + ref src) - ref dst - ref src = s.refcnt
  abel

theorem Copies.migrateP {s : State} {P : Addr → Ports} (h : Copies s P) (dst src : Addr) :
    Copies (fblockMigrateP s dst src) (swapField P dst src) := by
  rw [migrateP_eq]
  exact (((h.swap dst src).addRefs _).putFblock dst).putFblock src

/-! ## The rest -/

theorem updateSelfref_eq (l : List NodeAddr) (a : Addr) : ∀ s : State,
    fblockUpdateSelfref s l a = { s with self := fun n => if n ∈ l then a else s.self n } := by
  induction l with
  | nil =>
    intro s
    simp only [fblockUpdateSelfref, List.not_mem_nil, if_false]
  | cons n l ih =>
    intro s
    have h : (fun m => if m ∈ l then a else Function.update s.self n a m) =
        fun m => if m ∈ n :: l then a else s.self m := by
      funext m
      rw [Function.update_apply]
      by_cases hm : m ∈ l
      · rw [if_pos hm, if_pos (List.mem_cons_of_mem _ hm)]
      · by_cases hn : m = n
        · rw [if_neg hm, if_pos hn, if_pos (hn ▸ List.mem_cons_self)]
        · rw [if_neg hm, if_neg hn, if_neg (by simp [hm, hn])]
    rw [fblockUpdateSelfref, ih]
    simp only [h]

/-- `fblock_migrate_r` on the lists. -/
def Lists.migrate (l : Lists) (dst src : Addr) : Lists :=
  { l with
    notifiers := swapField l.notifiers dst src
    subscribers := swapField l.subscribers dst src
    self := fun n => if n ∈ swapField l.notifiers dst src src then src
      else if n ∈ swapField l.notifiers dst src dst then dst else l.self n }

/-- `fblock_migrate_r` on names and idps. -/
def Registry.migrate (r : Registry) (dst src : Addr) : Registry :=
  { r with
    idp := Function.update r.idp dst (r.idp src)
    name := Function.update r.name dst (strlcpy (r.name src) fbnamsiz) }

/-- `fblock_migrate_r` without its references. -/
def State.migrateR (s : State) (dst src : Addr) : State :=
  { s with
    idp := Function.update s.idp dst (s.idp src)
    name := Function.update s.name dst (strlcpy (s.name src) fbnamsiz)
    notifiers := swapField s.notifiers dst src
    subscribers := swapField s.subscribers dst src
    self := (s.lists.migrate dst src).self
    refcnt := swapField s.refcnt dst src }

theorem migrateR_eq (s : State) (dst src : Addr) :
    fblockMigrateR s dst src =
      putFblock (putFblock ((s.migrateR dst src).addRefs (ref dst + ref src)) dst) src := by
  have hcnt : ∀ f : Addr → ℤ, Function.update (Function.update f src (f dst)) dst (f src) =
      swapField f dst src := fun f => by
    unfold swapField
    by_cases h : dst = src
    · rw [h]
    · rw [Function.update_comm h]
  unfold fblockMigrateR
  rw [getFblock_eq, getFblock_eq, addRefs_addRefs]
  simp only [updateSelfref_eq, hcnt]
  refine congrArg (fun t => putFblock (putFblock t dst) src) ?_
  unfold State.migrateR addRefs Lists.migrate
  simp only
  rw [swapField_add_refs]
  rfl

theorem registry_migrateR (s : State) (dst src : Addr) :
    (fblockMigrateR s dst src).registry = s.registry.migrate dst src := by
  rw [migrateR_eq]
  simp only [registry_putFblock, registry_addRefs]
  rfl

theorem lists_migrateR (s : State) (dst src : Addr) :
    (fblockMigrateR s dst src).lists = s.lists.migrate dst src := by
  rw [migrateR_eq]
  simp only [lists_putFblock, lists_addRefs]
  rfl

theorem refcnt_migrateR (s : State) (dst src : Addr) :
    (fblockMigrateR s dst src).refcnt = swapField s.refcnt dst src := by
  rw [migrateR_eq, refcnt_putFblock, refcnt_putFblock]
  show swapField s.refcnt dst src + (ref dst + ref src) - ref dst - ref src = _
  abel

theorem Copies.migrateR {s : State} {P : Addr → Ports} (hP : Copies s P) (dst src : Addr) :
    Copies (fblockMigrateR s dst src) P := by
  have hm : Copies (s.migrateR dst src) P := hP
  rw [migrateR_eq]
  exact ((hm.addRefs _).putFblock dst).putFblock src

end Lana
