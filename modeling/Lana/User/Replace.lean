import Lana.User.Effects

/-!
# Replacement of a block

The state after `userctl_replace` on two live blocks, the second one unreferenced.  All references
taken on the way cancel; what is left is the exchange of the two blocks, the entry of the second
one, and the release of the first.
-/

namespace Lana

open State

/-- Two references to live blocks taken and given back. -/
theorem put_two_cancel {t : State} {a b : Addr} (ha : 1 ≤ t.refcnt a) (hb : 1 ≤ t.refcnt b) :
    putFblock (putFblock (t.addRefs (ref a + ref b)) a) b = t := by
  have h1 : (t.addRefs (ref a + ref b)).refcnt a ≠ 1 := by
    have := ref_nonneg b a
    rw [addRefs_refcnt, Pi.add_apply, ref_self]
    omega
  have h2 : ((t.addRefs (ref a + ref b)).addRefs (-ref a)).refcnt b ≠ 1 := by
    rw [addRefs_refcnt, addRefs_refcnt, Pi.add_apply, Pi.neg_apply, ref_self]
    omega
  have hzero : ref a + ref b + (-ref a + -ref b) = 0 := by abel
  rw [putFblock_eq h1, putFblock_eq h2, addRefs_addRefs, addRefs_addRefs, hzero, addRefs_zero]

section Steps

variable {s : State} {fb1 fb2 : Addr}

theorem enter_enter (s : State) (i : Idp) (e e' : Option Addr) :
    (s.enter i e).enter i e' = s.enter i e' := by
  unfold State.enter
  simp only [Function.update_idem]

theorem exchangePriv_eq (h1 : 1 ≤ s.refcnt fb1) (h2 : 1 ≤ s.refcnt fb2) (exch : Bool) :
    exchangePriv s fb1 fb2 exch =
      s.withPriv (if exch then swapField s.privateData fb2 fb1 else s.privateData) := by
  cases exch
  · rfl
  · show fblockMigrateP s fb2 fb1 = _
    rw [migrateP_eq]
    exact put_two_cancel (t := s.withPriv (swapField s.privateData fb2 fb1)) h2 h1

theorem migrateR_live (h1 : 1 ≤ s.refcnt fb1) (h2 : 1 ≤ s.refcnt fb2) :
    fblockMigrateR s fb2 fb1 = s.migrateR fb2 fb1 := by
  rw [migrateR_eq]
  refine put_two_cancel (t := s.migrateR fb2 fb1) ?_ ?_
  · show 1 ≤ swapField s.refcnt fb2 fb1 fb2
    rwa [swapField_dst]
  · show 1 ≤ swapField s.refcnt fb2 fb1 fb1
    rwa [swapField_src]

theorem migrateR_addRefs (t : State) :
    (t.addRefs (ref fb2 + ref fb1)).migrateR fb2 fb1 =
      (t.migrateR fb2 fb1).addRefs (ref fb2 + ref fb1) := by
  unfold migrateR addRefs
  simp only [swapField_add_refs]
  rfl

/-- The second block in the place of the first one, before the release. -/
def State.replaced (s : State) (fb1 fb2 : Addr) (exch : Bool) : State :=
  (((unregisterFblockNamespaceNoRcu s fb2).withPriv
    (if exch then swapField s.privateData fb2 fb1 else s.privateData)).migrateR fb2 fb1).enter
    (s.idp fb1) (some fb2)

/-- The release of a block. -/
def State.release (s : State) (a : Addr) (f : Factory) : State :=
  (f.dtorOutsideRcu (s.addRefs (-ref a)) a).logRelease a

theorem release_addRefs (s : State) (a : Addr) (f : Factory) (δ : Addr → ℤ) :
    (s.addRefs δ).release a f = (s.release a f).addRefs δ := by
  have h : (s.addRefs δ).addRefs (-ref a) = (s.addRefs (-ref a)).addRefs δ := by
    rw [addRefs_addRefs, addRefs_addRefs, add_comm]
  unfold release
  rw [h]
  cases f <;> rfl

theorem replaceSteps_eq (h : fb2 ≠ fb1) (h1 : 1 ≤ s.refcnt fb1) (h2 : s.refcnt fb2 = 1)
    (exch : Bool) :
    (replaceSteps (s.addRefs (ref fb2 + ref fb1)) fb1 fb2 exch).enter (s.idp fb1) (some fb2) =
      (s.replaced fb1 fb2 exch).addRefs (ref fb2) := by
  obtain ⟨tr, m, hu⟩ := unregisterNoRcu_frame s fb2
  set u := unregisterFblockNamespaceNoRcu s fb2 with hudef
  have hcnt : ∀ a, (u.addRefs (ref fb2 + ref fb1)).refcnt a =
      s.refcnt a + (ref fb2 + ref fb1) a := fun a => by rw [hu]; rfl
  have hlive1 : 1 ≤ (u.addRefs (ref fb2 + ref fb1)).refcnt fb1 := by
    rw [hcnt, Pi.add_apply, ref_self, ref_of_ne h.symm]
    omega
  have hlive2 : 1 ≤ (u.addRefs (ref fb2 + ref fb1)).refcnt fb2 := by
    rw [hcnt, Pi.add_apply, ref_self, ref_of_ne h]
    omega
  have hpriv : u.privateData = s.privateData := by rw [hu]
  have hidp : u.idp = s.idp := by rw [hu]
  unfold replaceSteps
  rw [unregisterNoRcu_addRefs, ← hudef, exchangePriv_eq hlive1 hlive2]
  set pd := if exch then swapField (u.addRefs (ref fb2 + ref fb1)).privateData fb2 fb1
    else (u.addRefs (ref fb2 + ref fb1)).privateData with hpd
  have hpd' : pd = if exch then swapField s.privateData fb2 fb1 else s.privateData := by
    rw [hpd, show (u.addRefs (ref fb2 + ref fb1)).privateData = s.privateData from hpriv]
  have hm : fblockMigrateR ((u.addRefs (ref fb2 + ref fb1)).withPriv pd) fb2 fb1 =
      ((u.withPriv pd).migrateR fb2 fb1).addRefs (ref fb2 + ref fb1) := by
    rw [migrateR_live (s := (u.addRefs (ref fb2 + ref fb1)).withPriv pd) hlive1 hlive2]
    exact migrateR_addRefs (u.withPriv pd)
  rw [hm]
  set v := (u.withPriv pd).migrateR fb2 fb1 with hv
  have hvidp : v.idp fb1 = s.idp fb1 := by
    show Function.update u.idp fb2 (u.idp fb1) fb1 = _
    rw [Function.update_of_ne h.symm, hidp]
  have hvcnt : v.refcnt fb1 = 1 := by
    show swapField u.refcnt fb2 fb1 fb1 = 1
    rw [swapField_src, hu]
    exact h2
  have hput : putFblock (radixTreeDelete (v.addRefs (ref fb2 + ref fb1)) (s.idp fb1)) fb1 =
      (v.enter (s.idp fb1) none).addRefs (ref fb2) := by
    have hne : (radixTreeDelete (v.addRefs (ref fb2 + ref fb1)) (s.idp fb1)).refcnt fb1 ≠ 1 := by
      show v.refcnt fb1 + (ref fb2 + ref fb1) fb1 ≠ 1
      rw [hvcnt, Pi.add_apply, ref_self, ref_of_ne h.symm]
      omega
    rw [putFblock_eq hne]
    show ((v.enter (s.idp fb1) none).addRefs (ref fb2 + ref fb1)).addRefs (-ref fb1) = _
    rw [addRefs_addRefs, add_neg_cancel_right]
  unfold unregisterFblock
  rw [show (v.addRefs (ref fb2 + ref fb1)).idp fb1 = s.idp fb1 from hvidp, hput]
  show ((v.enter (s.idp fb1) none).enter (s.idp fb1) (some fb2)).addRefs (ref fb2) = _
  rw [enter_enter, hv, hpd']
  rfl

theorem registry_replaced (s : State) (fb1 fb2 : Addr) (exch : Bool) (f : Factory) :
    ((s.replaced fb1 fb2 exch).release fb1 f).registry =
      ((unregisterFblockNamespaceNoRcu s fb2).registry.migrate fb2 fb1).enter (s.idp fb1)
        (some fb2) := by
  cases f <;> rfl

theorem lists_replaced (s : State) (fb1 fb2 : Addr) (exch : Bool) (f : Factory) :
    ((s.replaced fb1 fb2 exch).release fb1 f).lists = s.lists.migrate fb2 fb1 := by
  obtain ⟨tr, m, hu⟩ := unregisterNoRcu_frame s fb2
  have hrel : ((s.replaced fb1 fb2 exch).release fb1 f).lists =
      (unregisterFblockNamespaceNoRcu s fb2).lists.migrate fb2 fb1 := by
    cases f <;> rfl
  rw [hrel, hu]
  rfl

theorem refcnt_replaced (s : State) (fb1 fb2 : Addr) (exch : Bool) (f : Factory) :
    ((s.replaced fb1 fb2 exch).release fb1 f).refcnt = swapField s.refcnt fb2 fb1 - ref fb1 := by
  obtain ⟨tr, m, hu⟩ := unregisterNoRcu_frame s fb2
  have hrel : ((s.replaced fb1 fb2 exch).release fb1 f).refcnt =
      swapField (unregisterFblockNamespaceNoRcu s fb2).refcnt fb2 fb1 + -ref fb1 := by
    cases f <;> rfl
  rw [hrel, hu, sub_eq_add_neg]

theorem released_replaced (s : State) (fb1 fb2 : Addr) (exch : Bool) (f : Factory) :
    ((s.replaced fb1 fb2 exch).release fb1 f).released =
      ⟨fb1, (s.replaced fb1 fb2 exch).fblmap⟩ :: s.released := by
  obtain ⟨tr, m, hu⟩ := unregisterNoRcu_frame s fb2
  have hrel : ((s.replaced fb1 fb2 exch).release fb1 f).released =
      ⟨fb1, (s.replaced fb1 fb2 exch).fblmap⟩ ::
        (unregisterFblockNamespaceNoRcu s fb2).released := by
    cases f <;> rfl
  rw [hrel, hu]

end Steps

/-- `userctl_replace` of a live block by an unreferenced one.  Without memory for the entry the
second block has taken the place of the first one everywhere but in `fblmap`. -/
theorem userctlReplace_release {s : State} {n1 n2 : Name} {fb1 fb2 : Addr} {f1 f2 : Factory}
    (h1 : s.lookup n1 = some fb1) (h2 : s.lookup n2 = some fb2) (hf1 : s.factory fb1 = some f1)
    (hf2 : s.factory fb2 = some f2) (hne : fb2 ≠ fb1) (hlive : 1 ≤ s.refcnt fb1)
    (hcnt : s.refcnt fb2 = 1) (al : Alloc) (dropPriv : Bool) :
    userctlReplace al s n1 n2 dropPriv =
      (if al.radix then .ok else .err .ENOMEM,
        ((s.replaced fb1 fb2 (exchanges f1 f2 dropPriv)).enter (s.idp fb1)
          (if al.radix then some fb2 else none)).release fb1 f1) := by
  have hle : (s.addRefs (ref fb1 + ref fb2)).refcnt fb2 ≤ 2 := by
    rw [addRefs_refcnt, Pi.add_apply, ref_self, ref_of_ne hne, hcnt]
    rfl
  have hsteps := congrArg
    (fun t : State => t.enter (s.idp fb1) (if al.radix then some fb2 else none))
    (replaceSteps_eq hne hlive hcnt (exchanges f1 f2 dropPriv))
  rw [enter_enter] at hsteps
  rw [userctlReplace_eq h1 h2 hf1 hf2 hle al dropPriv]
  dsimp only
  rw [registerFblock_replaceSteps, add_comm (ref fb1),
    show (s.addRefs (ref fb2 + ref fb1)).idp fb1 = s.idp fb1 from rfl, hsteps]
  set t := (s.replaced fb1 fb2 (exchanges f1 f2 dropPriv)).enter (s.idp fb1)
    (if al.radix then some fb2 else none) with ht
  obtain ⟨tr, m, hu⟩ := unregisterNoRcu_frame s fb2
  have hcnt1 : t.refcnt fb1 = 1 := by
    show swapField (unregisterFblockNamespaceNoRcu s fb2).refcnt fb2 fb1 fb1 = 1
    rw [swapField_src, hu]
    exact hcnt
  have hcnt2 : t.refcnt fb2 = s.refcnt fb1 := by
    show swapField (unregisterFblockNamespaceNoRcu s fb2).refcnt fb2 fb1 fb2 = _
    rw [swapField_dst, hu]
  have hfac : (t.addRefs (ref fb2)).factory fb1 = some f1 := by
    show (unregisterFblockNamespaceNoRcu s fb2).factory fb1 = some f1
    rw [hu]
    exact hf1
  have hlast : (t.addRefs (ref fb2)).refcnt fb1 = 1 := by
    rw [addRefs_refcnt, hcnt1, ref_of_ne hne.symm, add_zero]
  have hmore : ((t.addRefs (ref fb2)).release fb1 f1).refcnt fb2 ≠ 1 := by
    have hrel : ((t.addRefs (ref fb2)).release fb1 f1).refcnt = t.refcnt + ref fb2 + -ref fb1 := by
      cases f1 <;> rfl
    rw [hrel, Pi.add_apply, Pi.add_apply, Pi.neg_apply, hcnt2, ref_self, ref_of_ne hne]
    omega
  show (_, putFblock (putFblock (t.addRefs (ref fb2)) fb1) fb2) = _
  rw [putFblock_release hlast hfac]
  show (_, putFblock ((t.addRefs (ref fb2)).release fb1 f1) fb2) = _
  rw [putFblock_eq hmore, release_addRefs, addRefs_addRefs, add_neg_cancel, addRefs_zero]

theorem userctlReplace_live {s : State} {n1 n2 : Name} {fb1 fb2 : Addr} {f1 f2 : Factory}
    (h1 : s.lookup n1 = some fb1) (h2 : s.lookup n2 = some fb2) (hf1 : s.factory fb1 = some f1)
    (hf2 : s.factory fb2 = some f2) (hne : fb2 ≠ fb1) (hlive : 1 ≤ s.refcnt fb1)
    (hcnt : s.refcnt fb2 = 1) {al : Alloc} (hal : al.radix = true) (dropPriv : Bool) :
    userctlReplace al s n1 n2 dropPriv =
      (.ok, (s.replaced fb1 fb2 (exchanges f1 f2 dropPriv)).release fb1 f1) := by
  rw [userctlReplace_release h1 h2 hf1 hf2 hne hlive hcnt al dropPriv, hal, if_pos rfl, if_pos rfl]
  unfold replaced
  rw [enter_enter]

/-- `userctl_remove` of a block with one reference releases it. -/
theorem removed_eq {s : State} {a : Addr} {f : Factory} (hf : s.factory a = some f)
    (hone : s.refcnt a = 1) :
    putFblock (unregisterFblockNamespace (getFblock s a) a) a =
      (unregisterFblockNamespaceNoRcu s a).release a f := by
  obtain ⟨t, m, heq⟩ := unregisterNoRcu_frame s a
  unfold unregisterFblockNamespace
  rw [getFblock_eq, unregisterNoRcu_addRefs]
  set u := unregisterFblockNamespaceNoRcu s a with hu
  have hcnt : u.refcnt a = 1 := by
    rw [heq]
    exact hone
  have hfac : u.factory a = some f := by
    rw [heq]
    exact hf
  have htwo : (u.addRefs (ref a)).refcnt a ≠ 1 := by
    rw [addRefs_refcnt, ref_self]
    omega
  rw [putFblock_eq htwo, addRefs_addRefs, add_neg_cancel, addRefs_zero, putFblock_release hcnt hfac]
  rfl

/-- The blocks released between two states. -/
def newReleases (s t : State) : List Addr :=
  (t.released.take (t.released.length - s.released.length)).map Release.fb

theorem newReleases_self (s : State) : newReleases s s = [] := by
  unfold newReleases
  rw [Nat.sub_self]
  rfl

theorem newReleases_release {s t : State} (h : t.released = s.released) (a : Addr) (f : Factory) :
    newReleases s (t.release a f) = [a] := by
  have hrel : (t.release a f).released = ⟨a, t.fblmap⟩ :: s.released := by
    rw [← h]
    cases f <;> rfl
  unfold newReleases
  rw [hrel, List.length_cons, Nat.add_sub_cancel_left]
  rfl

end Lana
