import Lana.Library.Transition
import Lana.User.Registration
import Lana.User.Replace

/-!
# Block objects and their lives

`fblock_cache` is a slab with a constructor: `ctor_fblock` runs when an object is first handed out,
and an object that has been freed keeps its contents until it is handed out again.  `init_fblock`
takes the lock of the object and resets the fields except `notifiers`, so it relies on the previous
life to have left the lock free and the list empty.  Two exits do not: `init_fblock` itself returns
with the lock held when `others` cannot be allocated, and the destroy functions of the blocks
without a factory free a block that still has notifiers.  Without those every life starts clean
(`recycled_clean`).

The cache may hand out any free object, or a new one.
-/

namespace Lana

open State

/-- A call of `init_fblock`: the lock it found, and the notifiers of the block if the block was
built. -/
structure Life where
  fb : Addr
  lockHeld : Bool
  notifiers : Option (List NodeAddr)
  deriving DecidableEq

/-- The lock was free, and a new block has no notifiers. -/
def Life.Clean (l : Life) : Prop := l.lockHeld = false ∧ ∀ ns, l.notifiers = some ns → ns = []

/-- The blocks in use, the objects in the cache and the calls of `init_fblock` so far. -/
structure Slab where
  state : State
  live : List Addr
  free : List Addr
  /-- `fb->lock` is held. -/
  locked : Addr → Bool
  /-- The first object that has not been handed out yet. -/
  fresh : Addr
  lives : List Life

def Slab.init (online : OnlineCpus) : Slab :=
  { state := State.init online, live := [], free := [], locked := fun _ => false, fresh := 0,
    lives := [] }

inductive SlabAct where
  /-- A constructor, with the object the cache is to hand out. -/
  | create (m : Maker) (pick : Option Addr) (name : CStr) (al : Alloc)
  /-- `subscribe_to_remote_fblock` -/
  | subscribe (us remote : Addr) (alloc : Bool)
  /-- The end of a block: `userctl_remove`, or the destroy function of its type. -/
  | destroy (a : Addr)

/-- The factory that `build_fblock_object` records; the other constructors set none. -/
def Maker.recorded : Maker → Option Factory
  | .factory f => some f
  | _ => none

namespace Slab

/-- The object that `kmem_cache_alloc` returns. -/
def handsOut (w : Slab) : Option Addr → Addr
  | some a => if a ∈ w.free then a else w.fresh
  | none => w.fresh

/-- The cache after the object `fb` has been handed out. -/
def without (w : Slab) (fb : Addr) : Slab :=
  { w with free := w.free.erase fb, fresh := max w.fresh (fb + 1) }

/-- `kfree_fblock`. -/
def kfreeFblock (w : Slab) (fb : Addr) : Slab := { w with free := fb :: w.free }

/-- A constructor on the object `fb`. -/
def construct (w : Slab) (m : Maker) (fb : Addr) (name : CStr) (al : Alloc) : Slab :=
  if !al.percpu then w.kfreeFblock fb
  -- the lock is never given back, and the call does not return
  else if w.locked fb then { w with lives := ⟨fb, true, none⟩ :: w.lives }
  else if !al.others then
    -- the error exit of `init_fblock` leaves the lock held
    { w with locked := Function.update w.locked fb true
             lives := ⟨fb, false, none⟩ :: w.lives }.kfreeFblock fb
  else
    match m.build al { w.state with nextFblock := fb } name with
    | (none, s) => { w with state := s, lives := ⟨fb, false, none⟩ :: w.lives }.kfreeFblock fb
    | (some fb, s) =>
      { w with state := { s with factory := Function.update s.factory fb m.recorded }
               live := fb :: w.live
               lives := ⟨fb, false, some (s.notifiers fb)⟩ :: w.lives }

/-- The end of the block `a`.  A block with a factory is removed by `userctl_remove` and freed when
its count reaches 0; `fb_eth_stop_hook_dev` and `fb_ethvlink_rm_dev` refuse while others use the
block, the release of a socket does not. -/
def destroy (w : Slab) (a : Addr) : Slab :=
  match w.state.factory a with
  | some _ =>
    let s := getFblock w.state a
    if s.refcnt a > 2 then { w with state := putFblock s a }
    else
      let t := putFblock (unregisterFblockNamespace s a) a
      { w with state := t, live := w.live.erase a, free := newReleases w.state t ++ w.free }
  | none =>
    if w.state.ops a ≠ .pflana ∧ w.state.refcnt a > 2 then w
    else { w with state := destroyFblock w.state a, live := w.live.erase a }.kfreeFblock a

end Slab

/-- One action; subscriptions and destructions are of blocks in use. -/
def SlabAct.step (w : Slab) : SlabAct → Slab
  | .create m pick name al =>
    if !al.fblock then w else (w.without (w.handsOut pick)).construct m (w.handsOut pick) name al
  | .subscribe us remote alloc =>
    if us ∈ w.live ∧ remote ∈ w.live then
      { w with state := (subscribeToRemoteFblock alloc w.state us remote).2 }
    else w
  | .destroy a => if a ∈ w.live then w.destroy a else w

/-- The allocation in `init_fblock` succeeds, and a block without a factory is not destroyed while
it has notifiers. -/
def SlabAct.LeavesClean (w : Slab) : SlabAct → Prop
  | .create _ _ _ al => al.fblock = true → al.percpu = true → al.others = true
  | .subscribe _ _ _ => True
  | .destroy a => a ∈ w.live → w.state.factory a = none →
      (w.state.ops a ≠ .pflana → w.state.refcnt a ≤ 2) → w.state.notifiers a = []

instance (w : Slab) (act : SlabAct) : Decidable (act.LeavesClean w) := by
  cases act
  · exact inferInstanceAs (Decidable (_ → _ → _))
  · exact inferInstanceAs (Decidable True)
  · exact inferInstanceAs (Decidable (_ → _ → _ → _))

/-! ## What a constructor does to the other blocks -/

theorem register_keeps (al : Alloc) (s : State) (p : Addr) :
    (registerFblockNamespace al s p).2.notifiers = s.notifiers ∧
      (registerFblockNamespace al s p).2.refcnt = s.refcnt := by
  obtain ⟨t, heq | ⟨-, heq⟩⟩ := registerFblockNamespace_frame al s p
  · rw [heq]
    exact ⟨rfl, rfl⟩
  · rw [heq]
    exact ⟨rfl, rfl⟩

theorem fbCtor_keeps (ops : FbType) (proc : Bool) (area : Priv) (al : Alloc) (s : State)
    (name : CStr) :
    (fbCtor ops proc area al s name).2.notifiers = s.notifiers ∧
      (∀ a, a ≠ s.nextFblock → (fbCtor ops proc area al s name).2.refcnt a = s.refcnt a) ∧
      ∀ fb, (fbCtor ops proc area al s name).1 = some fb →
        fb = s.nextFblock ∧ (fbCtor ops proc area al s name).2.refcnt fb = 1 := by
  have hcon : ∀ a, a ≠ s.nextFblock → (s.constructed name area ops).refcnt a = s.refcnt a :=
    fun a ha => (constructed_keep s name area ops ha).2.2.2.2.1
  obtain ⟨hn, hr⟩ := register_keeps al (s.constructed name area ops) s.nextFblock
  obtain ⟨t, heq, -, rfl | rfl | rfl⟩ | ⟨e, t, ht, heq⟩ | ⟨t, ht, heq⟩ :=
    fbCtor_cases ops proc area al s name
  · rw [heq]
    exact ⟨rfl, fun _ _ => rfl, nofun⟩
  · rw [heq]
    exact ⟨rfl, fun _ _ => rfl, nofun⟩
  · rw [heq]
    exact ⟨rfl, hcon, nofun⟩
  · rw [ht] at hn hr
    rw [heq]
    exact ⟨hn, fun a ha => (congrFun hr a).trans (hcon a ha), nofun⟩
  · rw [ht] at hn hr
    rw [heq]
    refine ⟨hn, fun a ha => (congrFun hr a).trans (hcon a ha), fun fb hfb => ?_⟩
    obtain rfl := Option.some.inj hfb
    exact ⟨rfl, (congrFun hr _).trans (constructed_new s name area ops).2.2.1⟩

theorem Maker.build_keeps (m : Maker) (al : Alloc) (s : State) (name : CStr) :
    (m.build al s name).2.notifiers = s.notifiers ∧
      (∀ a, a ≠ s.nextFblock → (m.build al s name).2.refcnt a = s.refcnt a) ∧
      ∀ fb, (m.build al s name).1 = some fb →
        fb = s.nextFblock ∧ (m.build al s name).2.refcnt fb = 1 := by
  have hctor := fbCtor_keeps m.ops m.proc m.area al s name
  obtain heq | ⟨fb, t, hr, heq⟩ := m.build_eq al s name
  · rw [heq]
    exact hctor
  · rw [hr] at hctor
    obtain ⟨u, v, hu⟩ := unregisterNoRcu_frame t fb
    rw [heq, hu]
    exact ⟨hctor.1, hctor.2.1, nofun⟩

/-! ## Every life starts clean -/

/-- An object outside the blocks in use has no notifiers; a block in use has a reference for each
of its notifiers and one more. -/
structure Slab.Tidy (w : Slab) : Prop where
  nodup : (w.live ++ w.free).Nodup
  below : ∀ a ∈ w.live ++ w.free, a < w.fresh
  unlocked : ∀ a, w.locked a = false
  idle : ∀ a, a ∉ w.live → w.state.notifiers a = []
  counted : ∀ a ∈ w.live, 1 + ((w.state.notifiers a).length : ℤ) ≤ w.state.refcnt a
  clean : ∀ l ∈ w.lives, l.Clean

namespace Slab.Tidy

variable {w : Slab} {fb : Addr}

theorem init (online : OnlineCpus) : (Slab.init online).Tidy where
  nodup := List.nodup_nil
  below := nofun
  unlocked := fun _ => rfl
  idle := fun _ _ => rfl
  counted := nofun
  clean := nofun

theorem without (h : w.Tidy) (fb : Addr) : (w.without fb).Tidy where
  nodup := h.nodup.sublist (List.erase_sublist.append_left w.live)
  below := by
    intro a ha
    have hmem : a ∈ w.live ++ w.free := (List.erase_sublist.append_left w.live).subset ha
    exact lt_of_lt_of_le (h.below a hmem) (le_max_left _ _)
  unlocked := h.unlocked
  idle := h.idle
  counted := h.counted
  clean := h.clean

/-- The object handed out is outside the blocks in use. -/
theorem handsOut_fresh (h : w.Tidy) (pick : Option Addr) :
    w.handsOut pick ∉ w.live ++ (w.without (w.handsOut pick)).free := by
  have hfresh : w.fresh ∉ w.live ++ w.free := fun hmem => lt_irrefl _ (h.below _ hmem)
  have hnew : w.handsOut pick = w.fresh ∨ w.handsOut pick ∈ w.free := by
    unfold handsOut
    rcases pick with _ | a
    · exact .inl rfl
    · dsimp only
      split_ifs with ha
      · exact .inr ha
      · exact .inl rfl
  obtain ⟨-, hfree, hdisj⟩ := List.nodup_append.1 h.nodup
  rw [List.mem_append, not_or]
  obtain heq | hmem := hnew
  · rw [heq]
    rw [List.mem_append, not_or] at hfresh
    exact ⟨hfresh.1, fun hmem => hfresh.2 (List.mem_of_mem_erase hmem)⟩
  · exact ⟨fun hlive => hdisj _ hlive _ hmem rfl, hfree.not_mem_erase⟩

theorem kfreeFblock (h : w.Tidy) (hout : fb ∉ w.live ++ w.free) (hlt : fb < w.fresh) :
    (w.kfreeFblock fb).Tidy where
  nodup := (List.perm_middle.nodup_iff).2 (List.nodup_cons.2 ⟨hout, h.nodup⟩)
  below := by
    intro a ha
    obtain rfl | ha := List.mem_cons.1 (List.perm_middle.mem_iff.1 ha)
    · exact hlt
    · exact h.below a ha
  unlocked := h.unlocked
  idle := h.idle
  counted := h.counted
  clean := h.clean

theorem log (h : w.Tidy) {l : Life} (hl : l.Clean) : ({ w with lives := l :: w.lives }).Tidy where
  nodup := h.nodup
  below := h.below
  unlocked := h.unlocked
  idle := h.idle
  counted := h.counted
  clean := by
    intro l' hmem
    obtain rfl | hmem := List.mem_cons.1 hmem
    · exact hl
    · exact h.clean l' hmem

/-- A change of state that keeps the notifiers and the counts of the blocks in use. -/
theorem restate (h : w.Tidy) {s : State} (hn : s.notifiers = w.state.notifiers)
    (hr : ∀ a ∈ w.live, s.refcnt a = w.state.refcnt a) : ({ w with state := s }).Tidy where
  nodup := h.nodup
  below := h.below
  unlocked := h.unlocked
  idle := fun a ha => (congrFun hn a).trans (h.idle a ha)
  counted := by
    intro a ha
    show 1 + ((s.notifiers a).length : ℤ) ≤ s.refcnt a
    rw [hn, hr a ha]
    exact h.counted a ha
  clean := h.clean

/-- A block is taken into use with no notifiers and one reference. -/
theorem enliven (h : w.Tidy) (hout : fb ∉ w.live ++ w.free) (hlt : fb < w.fresh)
    (hn : w.state.notifiers fb = []) (hr : w.state.refcnt fb = 1) :
    ({ w with live := fb :: w.live }).Tidy where
  nodup := List.nodup_cons.2 ⟨hout, h.nodup⟩
  below := by
    intro a ha
    obtain rfl | ha := List.mem_cons.1 ha
    · exact hlt
    · exact h.below a ha
  unlocked := h.unlocked
  idle := fun a ha => h.idle a fun hmem => ha (List.mem_cons_of_mem fb hmem)
  counted := by
    intro a ha
    obtain rfl | ha := List.mem_cons.1 ha
    · show 1 + ((w.state.notifiers a).length : ℤ) ≤ w.state.refcnt a
      rw [hn, hr]
      simp
    · exact h.counted a ha
  clean := h.clean

theorem construct (h : w.Tidy) (hout : fb ∉ w.live ++ w.free) (hlt : fb < w.fresh) (m : Maker)
    (name : CStr) {al : Alloc} (hal : al.percpu = true → al.others = true) :
    (w.construct m fb name al).Tidy := by
  have hlive : fb ∉ w.live := fun hmem => hout (List.mem_append_left _ hmem)
  have hfailed : (⟨fb, false, none⟩ : Life).Clean := ⟨rfl, nofun⟩
  unfold Slab.construct
  by_cases hp : al.percpu = true
  swap
  · rw [if_pos (by simp [hp])]
    exact h.kfreeFblock hout hlt
  rw [if_neg (by simp [hp]), if_neg (by simp [h.unlocked fb]), if_neg (by simp [hal hp])]
  obtain ⟨hn, hr, hnew⟩ := m.build_keeps al { w.state with nextFblock := fb } name
  have hkeep : ∀ a ∈ w.live, (m.build al { w.state with nextFblock := fb } name).2.refcnt a =
      w.state.refcnt a := fun a ha => hr a (ne_of_mem_of_not_mem ha hlive)
  rcases hb : m.build al { w.state with nextFblock := fb } name with ⟨_ | b, s⟩
  · rw [hb] at hn hkeep
    exact ((h.restate hn hkeep).log hfailed).kfreeFblock hout hlt
  · rw [hb] at hn hkeep hnew
    obtain ⟨rfl, hone⟩ := hnew b rfl
    have hnil : s.notifiers b = [] := (congrFun hn b).trans (h.idle b hlive)
    have hnow : ({ w with state := { s with factory := Function.update s.factory b m.recorded } }
        : Slab).Tidy := h.restate hn hkeep
    exact (hnow.log (l := ⟨b, false, some (s.notifiers b)⟩)
      ⟨rfl, fun ns hns => (Option.some.inj hns).symm.trans hnil⟩).enliven hout hlt hnil hone

theorem subscribe (h : w.Tidy) (alloc : Bool) {us : Addr} (hus : us ∈ w.live) (remote : Addr) :
    ({ w with state := (subscribeToRemoteFblock alloc w.state us remote).2 }).Tidy := by
  rcases alloc with _ | _
  · rw [subscribe_no_memory]
    exact h
  rw [subscribe_eq]
  have hnot : ∀ a, ((w.state.link us remote).addRefs (ref us + ref remote)).notifiers a =
      if a = us then w.state.nextNode :: w.state.notifiers us else w.state.notifiers a := by
    intro a
    show Function.update w.state.notifiers us _ a = _
    rw [Function.update_apply]
  refine ⟨h.nodup, h.below, h.unlocked, fun a ha => ?_, fun a ha => ?_, h.clean⟩
  · have hne : a ≠ us := (ne_of_mem_of_not_mem hus ha).symm
    rw [hnot, if_neg hne]
    exact h.idle a ha
  · have hc := h.counted a ha
    have hrem := ref_nonneg remote a
    show 1 + ((((w.state.link us remote).addRefs (ref us + ref remote)).notifiers a).length : ℤ) ≤
      w.state.refcnt a + (ref us a + ref remote a)
    rw [hnot]
    by_cases hau : a = us
    · subst hau
      rw [if_pos rfl, ref_self, List.length_cons]
      push_cast
      omega
    · rw [if_neg hau]
      have := ref_nonneg us a
      omega

/-- A block without notifiers is taken out of use and freed. -/
theorem retire (h : w.Tidy) (hfb : fb ∈ w.live) (hn : w.state.notifiers fb = []) :
    ({ w with live := w.live.erase fb, free := fb :: w.free }).Tidy := by
  have hperm : (w.live.erase fb ++ fb :: w.free).Perm (w.live ++ w.free) :=
    List.perm_middle.trans ((List.perm_cons_erase hfb).symm.append_right w.free)
  refine ⟨hperm.nodup_iff.2 h.nodup, fun a ha => h.below a (hperm.mem_iff.1 ha), h.unlocked,
    fun a ha => ?_, fun a ha => h.counted a (List.mem_of_mem_erase ha), h.clean⟩
  by_cases hab : a = fb
  · rw [hab]
    exact hn
  · exact h.idle a fun hmem => ha ((List.mem_erase_of_ne hab).2 hmem)

theorem not_mem_erase (h : w.Tidy) : fb ∉ w.live.erase fb :=
  (h.nodup.sublist (List.sublist_append_left _ _)).not_mem_erase

end Slab.Tidy

theorem removed_keeps (s : State) (a : Addr) (f : Factory) :
    ((unregisterFblockNamespaceNoRcu s a).release a f).notifiers = s.notifiers ∧
      ((unregisterFblockNamespaceNoRcu s a).release a f).refcnt = s.refcnt - ref a ∧
      (unregisterFblockNamespaceNoRcu s a).released = s.released := by
  obtain ⟨t, m, heq⟩ := unregisterNoRcu_frame s a
  rw [heq, sub_eq_add_neg]
  cases f <;> exact ⟨rfl, rfl, rfl⟩

namespace Slab.Tidy

variable {w : Slab} {a : Addr}

/-- A block in use that `userctl_remove` frees has no notifiers: each would hold a reference. -/
theorem destroy (h : w.Tidy) (ha : a ∈ w.live) (hok : (SlabAct.destroy a).LeavesClean w) :
    (w.destroy a).Tidy := by
  unfold Slab.destroy
  rcases hf : w.state.factory a with _ | f
  · dsimp only
    split_ifs with hrefused
    · exact h
    · have hnil : w.state.notifiers a = [] :=
        hok ha hf fun hops => not_lt.1 fun hcnt => hrefused ⟨hops, hcnt⟩
      obtain ⟨t, m, heq⟩ := unregisterNoRcu_frame w.state a
      have hstate : (destroyFblock w.state a).notifiers = w.state.notifiers ∧
          (destroyFblock w.state a).refcnt = w.state.refcnt := by
        unfold destroyFblock
        rw [heq]
        exact ⟨rfl, rfl⟩
      exact (h.retire ha hnil).restate hstate.1 fun b _ => congrFun hstate.2 b
  · dsimp only
    rw [getFblock_eq, addRefs_refcnt, ref_self, ← getFblock_eq]
    split_ifs with hrefused
    · have hquiet := quiet_get_put w.state a
      rw [← getFblock_eq] at hquiet
      exact h.restate (congrArg Lists.notifiers hquiet.lists) fun b _ => congrFun hquiet.refcnt b
    · have hcounted := h.counted a ha
      have hnil : w.state.notifiers a = [] := List.length_eq_zero_iff.1 (by omega)
      have hone : w.state.refcnt a = 1 := by
        rw [hnil, List.length_nil] at hcounted
        omega
      obtain ⟨hn, hr, hrel⟩ := removed_keeps w.state a f
      rw [removed_eq hf hone, newReleases_release hrel]
      refine (h.retire ha hnil).restate hn fun b hb => ?_
      have hne : b ≠ a := ne_of_mem_of_not_mem hb h.not_mem_erase
      show (State.release _ a f).refcnt b = w.state.refcnt b
      rw [hr, Pi.sub_apply, ref_of_ne hne, sub_zero]

/-- Every allowed action keeps the objects tidy. -/
theorem step (h : w.Tidy) (act : SlabAct) (hok : act.LeavesClean w) : (act.step w).Tidy := by
  cases act with
  | create m pick name al =>
    simp only [SlabAct.step]
    by_cases hal : al.fblock = true
    · rw [if_neg (by simp [hal])]
      have hlt : w.handsOut pick < (w.without (w.handsOut pick)).fresh :=
        lt_of_lt_of_le (Nat.lt_succ_self _) (le_max_right _ _)
      exact (h.without _).construct (h.handsOut_fresh pick) hlt m name (hok hal)
    · rw [if_pos (by simp [hal])]
      exact h
  | subscribe us remote alloc =>
    simp only [SlabAct.step]
    split_ifs with hlive
    · exact h.subscribe alloc hlive.1 remote
    · exact h
  | destroy a =>
    simp only [SlabAct.step]
    split_ifs with ha
    · exact h.destroy ha hok
    · exact h

end Slab.Tidy

/-- **Recycled objects are clean.**  In a run in which the allocation in `init_fblock` succeeds and
no block without a factory is destroyed while it has notifiers, every call of `init_fblock` finds
the lock free and every new block has no notifiers. -/
theorem recycled_clean (online : OnlineCpus) (acts : List SlabAct)
    (h : Transition.Allowed SlabAct.step (fun w act => act.LeavesClean w) (Slab.init online) acts) :
    ∀ l ∈ (acts.foldl SlabAct.step (Slab.init online)).lives, l.Clean :=
  (Transition.invariant_of_allowed (I := Slab.Tidy) (fun _ act hw hok => hw.step act hok)
    (Slab.Tidy.init online) h).clean

/-- A device is hooked, watched by a dummy block and unhooked; its object serves a counter next. -/
def recycledRun : List SlabAct :=
  [.create (.eth 0) none nameA {}, .create (.factory .dummy) none nameB {}, .subscribe 1 0 true,
    .destroy 0, .create (.factory .counter) (some 0) nameC {}]

theorem recycled_clean_counter :
    (recycledRun.foldl SlabAct.step (Slab.init oneCpu)).lives.map Life.fb = [0, 1, 0] ∧
      ∀ l ∈ (recycledRun.foldl SlabAct.step (Slab.init oneCpu)).lives, l.Clean :=
  ⟨by decide, recycled_clean oneCpu recycledRun (by decide)⟩

/-- After a failed allocation in `init_fblock` the object is handed out with its lock held; after a
hooked device that watched a block is unhooked, the next block on its object starts with the
notifier of the old one. -/
theorem recycled_unclean :
    (([.create (.factory .dummy) none nameA { others := false },
        .create (.factory .dummy) (some 0) nameA {}] : List SlabAct).foldl SlabAct.step
          (Slab.init oneCpu)).lives = [⟨0, true, none⟩, ⟨0, false, none⟩] ∧
      (([.create (.eth 0) none nameA {}, .create (.factory .dummy) none nameB {},
          .subscribe 0 1 true, .destroy 0, .create (.factory .counter) (some 0) nameC {}] :
        List SlabAct).foldl SlabAct.step (Slab.init oneCpu)).lives =
          [⟨0, false, some [0]⟩, ⟨1, false, some []⟩, ⟨0, false, some []⟩] := by
  decide

end Lana
