import Lana.Fblock.Lists
import Lana.Library.Transition
import Lana.User.Replace

/-!
# Every reachable state

What holds between any two actions: every command of the model, and whatever packets and procfs
writes do to the private areas.  The insertion of a replacement is taken to succeed.
-/

namespace Lana

open State

/-! ## Owners of nodes -/

/-- A node is on the list of its owner only. -/
structure Lists.Owned (l : Lists) : Prop where
  allocated : l.Allocated
  owner : ∀ u, ∀ n ∈ l.notifiers u, l.self n = u

namespace Lists.Owned

variable {l : Lists}

theorem link (h : l.Owned) (i : Idp) (us remote : Addr) : (l.link i us remote).Owned := by
  refine ⟨h.allocated.link _ _ _, fun u n hn => ?_⟩
  have hn' : n ∈ Function.update l.notifiers us (l.nextNode :: l.notifiers us) u := hn
  show Function.update l.self l.nextNode us n = u
  have hold : ∀ v, n ∈ l.notifiers v → Function.update l.self l.nextNode us n = v := by
    intro v hv
    rw [Function.update_of_ne (ne_of_lt (h.allocated v n hv))]
    exact h.owner v n hv
  rw [Function.update_apply] at hn'
  split_ifs at hn' with hu
  · rcases List.mem_cons.1 hn' with rfl | hn'
    · rw [Function.update_self, hu]
    · rw [hold us hn', hu]
  · exact hold u hn'

theorem unlink (h : l.Owned) (i : Idp) (us remote : Addr) : (l.unlink i us remote).Owned := by
  refine ⟨h.allocated.unlink _ _ _, fun u n hn => ?_⟩
  rw [(l.unlink_nodes i us remote).2.1]
  exact h.owner u n (l.unlink_subset i us remote u hn)

/-- The exchange of two lists, whose nodes then get new owners. -/
theorem migrate_self (dst src : Addr) (n : NodeAddr) :
    (l.migrate dst src).self n =
      if n ∈ l.notifiers dst then src else if n ∈ l.notifiers src then dst else l.self n := by
  show (if n ∈ swapField l.notifiers dst src src then src
    else if n ∈ swapField l.notifiers dst src dst then dst else l.self n) = _
  rw [swapField_src, swapField_dst]

theorem migrate_of_mem (h : l.Owned) (dst src : Addr) {u : Addr} {n : NodeAddr}
    (hn : n ∈ l.notifiers u) :
    (l.migrate dst src).self n = if u = dst then src else if u = src then dst else u := by
  have howner := h.owner u n hn
  have hiff : ∀ v, n ∈ l.notifiers v ↔ u = v := fun v =>
    ⟨fun hv => howner.symm.trans (h.owner v n hv), fun huv => huv ▸ hn⟩
  rw [migrate_self]
  simp only [hiff, howner]

theorem migrate (h : l.Owned) (dst src : Addr) : (l.migrate dst src).Owned := by
  have hmem : ∀ u n, n ∈ (l.migrate dst src).notifiers u →
      n ∈ l.notifiers (if u = src then dst else if u = dst then src else u) := by
    intro u n hn
    have hn' : n ∈ swapField l.notifiers dst src u := hn
    split_ifs with hs hd
    · rwa [hs, swapField_src] at hn'
    · rwa [hd, swapField_dst] at hn'
    · rwa [swapField_of_ne hd hs] at hn'
  refine ⟨fun u n hn => h.allocated _ n (hmem u n hn), fun u n hn => ?_⟩
  rw [h.migrate_of_mem dst src (hmem u n hn)]
  by_cases hs : u = src
  · rw [if_pos hs, if_pos rfl, hs]
  · by_cases hd : u = dst
    · rw [if_neg hs, if_pos hd, if_neg fun e => hs (hd.trans e.symm), if_pos rfl, hd]
    · rw [if_neg hs, if_neg hd, if_neg hd, if_neg hs]

end Lists.Owned

/-! ## The invariant -/

/-- What `vlinks` and the factories say about the tables. -/
structure Registry.Sound (r : Registry) : Prop where
  tables : Tables r
  vlinks : r.vlinks.Nodup
  kept : ∀ fb ∈ r.vlinks, r.Has fb ∧ r.factory fb = none
  fresh : ∀ a, r.nextFblock ≤ a → r.factory a = none

/-- The invariant of every run. -/
structure Sound (s : State) : Prop where
  registry : s.registry.Sound
  lists : s.lists.Owned

theorem Sound.prims {s t : State} (h : Sound s) (hp : Prims s t) : Sound t := by
  refine ⟨hp.registry ▸ h.registry, ?_⟩
  induction hp with
  | refl => exact h.lists
  | get a _ ih => exact ih
  | put a _ ih => exact (lists_putFblock _ a).symm ▸ ih
  | priv pd _ ih => exact ih
  | link us remote _ ih => exact ih.link _ us remote
  | unlink us remote _ ih => exact (lists_unlink _ us remote).symm ▸ ih.unlink _ us remote
  | panic _ ih => exact ih

/-! ## Commands -/

section Commands

variable {s : State}

/-- A block that no owner keeps is taken out of the tables. -/
theorem Sound.unregister (h : Sound s) {a : Addr} (ha : s.registry.Has a) :
    let t := unregisterFblockNamespaceNoRcu s a
    (a ∉ s.vlinks → Sound t) ∧ Sound { t with vlinks := t.vlinks.erase a } := by
  have hT := tables_unregister h.registry.tables ha
  obtain ⟨tr, heq, -, -⟩ := unregisterNoRcu_spec h.registry.tables.wf a
  intro t
  have ht : t = { s with fblmap := Function.update s.fblmap (s.idp a) none, idpmap := tr } := heq
  rw [show unregisterFblockNamespaceNoRcu s a = t from rfl, ht] at hT
  rw [ht]
  have hkeep : ∀ fb ∈ s.vlinks, fb ≠ a → ∃ i, Function.update s.fblmap (s.idp a) none i = some fb ∧
      s.factory fb = none := by
    intro fb hfb hne
    obtain ⟨⟨i, hi⟩, hf⟩ := h.registry.kept fb hfb
    refine ⟨i, ?_, hf⟩
    rw [Function.update_of_ne]
    · exact hi
    · intro heq'
      have hidp : s.idp fb = i := (h.registry.tables.stored i fb hi).1
      exact hne (h.registry.tables.idp_inj ⟨i, hi⟩ ha (hidp.trans heq'))
  constructor
  · intro hout
    refine ⟨⟨hT, h.registry.vlinks, fun fb hfb => ?_, h.registry.fresh⟩, h.lists⟩
    have hne : fb ≠ a := by
      rintro rfl
      exact hout hfb
    obtain ⟨i, hi, hf⟩ := hkeep fb hfb hne
    exact ⟨⟨i, hi⟩, hf⟩
  · refine ⟨⟨⟨hT.wf, hT.short, hT.named, hT.stored⟩, h.registry.vlinks.erase a, fun fb hfb => ?_,
      h.registry.fresh⟩, h.lists⟩
    obtain ⟨hne, hfb'⟩ := (h.registry.vlinks.mem_erase_iff).1 hfb
    obtain ⟨i, hi, hf⟩ := hkeep fb hfb' hne
    exact ⟨⟨i, hi⟩, hf⟩

theorem Sound.created {s' : State} {area : Priv} {ops : FbType} (h : Sound s)
    (hC : Created s s' area ops) : Sound s' := by
  have hlists : s'.lists.notifiers = s.lists.notifiers ∧ s'.lists.self = s.lists.self ∧
      s'.lists.nextNode = s.lists.nextNode := ⟨hC.notifiers, hC.nodes.1, hC.nodes.2.2⟩
  refine ⟨⟨hC.tables, ?_, fun fb hfb => ?_, fun a ha => ?_⟩, ⟨fun a n hn => ?_, fun u n hn => ?_⟩⟩
  · show s'.vlinks.Nodup
    rw [hC.vlinks]
    exact h.registry.vlinks
  · have hfb' : fb ∈ s.vlinks := hC.vlinks ▸ hfb
    obtain ⟨⟨i, hi⟩, hf⟩ := h.registry.kept fb hfb'
    refine ⟨⟨i, hC.old i fb hi⟩, ?_⟩
    show s'.factory fb = none
    rw [hC.factory]
    exact hf
  · show s'.factory a = none
    rw [hC.factory]
    exact h.registry.fresh a (hC.next.trans ha)
  · rw [hlists.2.2]
    exact h.lists.allocated a n (hlists.1 ▸ hn)
  · rw [hlists.2.1]
    exact h.lists.owner u n (hlists.1 ▸ hn)

theorem Sound.add (h : Sound s) (al : Alloc) (n : Name) (type : CStr) :
    Sound (userctlAdd al s n type).2 := by
  rcases userctlAdd_result h.registry.tables al n type with ⟨-, -, ⟨a, -, heq⟩ | ⟨-, heq⟩⟩ |
    ⟨f, -, -, -, hC, -⟩ | ⟨f, -, t, -, -, hC, hfree, hmap, -, -, -, heq⟩
  · rw [heq]
    exact h.prims ((Prims.refl.get a).put a)
  · rw [heq]
    exact h
  · exact h.created hC
  · have ht := h.created hC
    have hent : t.fblmap s.nextIdp = some s.nextFblock := by rw [hmap, Function.update_self]
    have hlt : s.nextFblock < t.nextFblock := (hC.tables.stored _ _ hent).2
    rw [heq]
    refine ⟨⟨⟨ht.registry.tables.wf, ht.registry.tables.short, ht.registry.tables.named,
      ht.registry.tables.stored⟩, ht.registry.vlinks, fun fb hfb => ?_, fun a ha => ?_⟩, ht.lists⟩
    · obtain ⟨hhas, hf⟩ := ht.registry.kept fb hfb
      refine ⟨hhas, ?_⟩
      show Function.update t.factory s.nextFblock (some f) fb = none
      -- the blocks kept by their owners are older
      have hfb' : fb ∈ s.vlinks := hC.vlinks ▸ hfb
      obtain ⟨⟨i, hi⟩, -⟩ := h.registry.kept fb hfb'
      have hne : fb ≠ s.nextFblock := ne_of_lt (h.registry.tables.stored i fb hi).2
      rw [Function.update_of_ne hne]
      exact hf
    · have hne : a ≠ s.nextFblock := by
        rintro rfl
        exact absurd hlt (not_lt.2 ha)
      show Function.update t.factory s.nextFblock (some f) a = none
      rw [Function.update_of_ne hne]
      exact ht.registry.fresh a ha

theorem Sound.remove (h : Sound s) (n : Name) : Sound (userctlRemove s n).2 := by
  unfold userctlRemove
  rcases hl : s.lookup n with _ | a
  · rw [searchFblockN_none hl]
    exact h
  rw [searchFblockN_some hl]
  dsimp only
  rw [show (s.addRefs (ref a)).factory a = s.factory a from rfl]
  have hget := Prims.get a (Prims.refl (s := s))
  rcases hf : s.factory a with _ | f
  · exact h.prims (hget.put a)
  dsimp only
  split_ifs
  · exact h.prims (hget.put a)
  · have ha : (s.addRefs (ref a)).registry.Has a := has_of_lookup hl
    have hout : a ∉ (s.addRefs (ref a)).vlinks := by
      intro hin
      have hnone : s.factory a = none := (h.registry.kept a hin).2
      exact absurd (hf.symm.trans hnone) (Option.some_ne_none f)
    have hun := ((h.prims hget).unregister ha).1 hout
    exact hun.prims ((Prims.refl.put a).put a)

theorem Sound.keepVlink {t : State} {fb : Addr} (h : Sound t) (hfb : t.registry.Has fb)
    (hf : t.factory fb = none) (hout : fb ∉ t.vlinks) : Sound (keepVlink (some fb, t)) := by
  refine ⟨⟨⟨h.registry.tables.wf, h.registry.tables.short, h.registry.tables.named,
    h.registry.tables.stored⟩, List.nodup_cons.2 ⟨hout, h.registry.vlinks⟩, fun b hb => ?_,
    h.registry.fresh⟩, h.lists⟩
  rcases List.mem_cons.1 hb with rfl | hb
  · exact ⟨hfb, hf⟩
  · exact h.registry.kept b hb

/-- A block without a factory is built, and kept by its owner. -/
theorem Sound.build (h : Sound s) {ops : FbType} {area : Priv} {al : Alloc} {n : CStr} {fb : Addr}
    {t : State} (hr : fbCtor ops false area al s n = (some fb, t)) :
    Sound t ∧ t.registry.Has fb ∧ t.factory fb = none ∧ fb ∉ t.vlinks := by
  have hC : Created s (fbCtor ops false area al s n).2 area ops :=
    fbCtor_created h.registry.tables false al
  rw [hr] at hC
  obtain ⟨rfl, -, hmap, -⟩ := fbCtor_some h.registry.tables hr
  have hent : t.fblmap s.nextIdp = some s.nextFblock := by rw [hmap, Function.update_self]
  refine ⟨h.created hC, ⟨_, hent⟩, ?_, fun hin => ?_⟩
  · rw [hC.factory]
    exact h.registry.fresh _ le_rfl
  · rw [hC.vlinks] at hin
    obtain ⟨⟨i, hi⟩, -⟩ := h.registry.kept _ hin
    exact h.registry.tables.not_has_next i hi

theorem Sound.buildVlink (h : Sound s) (ops : FbType) (area : Priv) (al : Alloc) (n : CStr) :
    Sound (Lana.keepVlink (fbCtor ops false area al s n)) := by
  rcases hr : fbCtor ops false area al s n with ⟨_ | fb, t⟩
  · have hC : Created s (fbCtor ops false area al s n).2 area ops :=
      fbCtor_created h.registry.tables false al
    rw [hr] at hC
    exact h.created hC
  · obtain ⟨ht, hfb, hf, hout⟩ := h.build hr
    exact ht.keepVlink hfb hf hout

theorem Sound.hookEth (h : Sound s) (al : Alloc) (n : CStr) (dev : ℕ) :
    Sound (fbEthStartHookDev al s n dev) := by
  unfold fbEthStartHookDev fbEthBuildFblock
  rcases hr : fbCtor .eth false (Priv.init dev 0) al s n with ⟨_ | fb, t⟩
  · have hC : Created s (fbCtor .eth false (Priv.init dev 0) al s n).2 (Priv.init dev 0) .eth :=
      fbCtor_created h.registry.tables false al
    rw [hr] at hC
    exact h.created hC
  · obtain ⟨ht, hfb, hf, hout⟩ := h.build hr
    dsimp only
    cases al.rxHandler
    · exact (ht.unregister hfb).1 hout
    · exact ht.keepVlink hfb hf hout

theorem Sound.destroy (h : Sound s) {fb : Addr} (hin : fb ∈ s.vlinks) :
    Sound (destroyFblock s fb) :=
  (h.unregister (h.registry.kept fb hin).1).2

/-- The state after a refused replacement. -/
theorem ReplaceRefused.prims {t : State} (h : ReplaceRefused s t) : Prims s t := by
  cases h with
  | unknown => exact .refl
  | leak a => exact Prims.refl.get a
  | second a => exact (Prims.refl.get a).put a
  | leakSecond a b => exact (Prims.refl.get_two a b).put a
  | busy a b => exact ((Prims.refl.get_two a b).put a).put b

/-- A replacement exchanges two blocks that have factories. -/
theorem Sound.replaced {t : State} (h : Sound s) {fb1 fb2 : Addr} {f1 f2 : Factory}
    (h1 : s.registry.Has fb1) (h2 : s.registry.Has fb2) (hf1 : s.factory fb1 = some f1)
    (hf2 : s.factory fb2 = some f2)
    (hreg : t.registry = ((unregisterFblockNamespaceNoRcu s fb2).registry.migrate fb2 fb1).enter
      (s.idp fb1) (some fb2))
    (hlists : t.lists = s.lists.migrate fb2 fb1) : Sound t := by
  have hT := tables_replaced h.registry.tables h1 h2
  have hR := replaced_tables h.registry.tables hreg
  refine ⟨⟨hreg.symm ▸ hT, ?_, fun fb hfb => ?_, fun a ha => ?_⟩, hlists ▸ h.lists.migrate fb2 fb1⟩
  · rw [hR.vlinks]
    exact h.registry.vlinks
  · rw [hR.vlinks] at hfb
    obtain ⟨⟨i, hi⟩, hf⟩ := h.registry.kept fb hfb
    rw [hR.factory]
    refine ⟨⟨i, ?_⟩, hf⟩
    have hidp : s.idp fb = i := (h.registry.tables.stored i fb hi).1
    have hother : ∀ {b : Addr} {f : Factory}, s.registry.Has b → s.factory b = some f →
        i ≠ s.idp b := by
      intro b f hb hbf heq
      obtain rfl := h.registry.tables.idp_inj ⟨i, hi⟩ hb (hidp.trans heq)
      exact absurd (hbf.symm.trans hf) (Option.some_ne_none f)
    rw [hR.fblmap, if_neg (hother h1 hf1), if_neg (hother h2 hf2)]
    exact hi
  · rw [hR.factory]
    rw [hR.nextFblock] at ha
    exact h.registry.fresh a ha

theorem Sound.replace (h : Sound s) {al : Alloc} (hal : al.radix = true) (n1 n2 : Name)
    (dropPriv : Bool) : Sound (userctlReplace al s n1 n2 dropPriv).2 := by
  rcases userctlReplace_cases al s n1 n2 dropPriv with
    ⟨-, hrefused⟩ | ⟨fb1, fb2, f1, f2, h1, h2, hf1, hf2, hcnt⟩
  · exact h.prims hrefused.prims
  · obtain ⟨hreg, hlists⟩ := userctlReplace_frame h1 h2 hf1 hf2 hcnt al dropPriv
    rw [hal, if_pos rfl] at hreg
    exact h.replaced (has_of_lookup h1) (has_of_lookup h2) hf1 hf2 hreg hlists

end Commands

/-! ## Runs -/

/-- A command, or a change of the private areas by packets and procfs writes. -/
inductive Action where
  | cmd (c : Cmd)
  | areas (pd : Addr → Cpu → Priv)

def Action.exec (s : State) : Action → State
  | .cmd c => c.exec s
  | .areas pd => s.withPriv pd

/-- The insertion of a replacement into `fblmap` does not fail. -/
def Action.Inserts : Action → Prop
  | .cmd (.replace _ _ _ al) => al.radix = true
  | _ => True

instance : ∀ a : Action, Decidable a.Inserts
  | .cmd (.replace _ _ _ al) => inferInstanceAs (Decidable (al.radix = true))
  | .cmd (.add ..) | .cmd (.rm ..) | .cmd (.bind ..) | .cmd (.unbind ..) | .cmd (.subscribe ..)
  | .cmd (.unsubscribe ..) | .cmd (.hookEth ..) | .cmd (.addEthvlink ..) | .cmd (.openSock ..)
  | .cmd (.stopVlink ..) | .cmd (.closeSock ..) | .areas _ => inferInstanceAs (Decidable True)

/-- **Step.** Every action keeps the invariant. -/
theorem sound_exec {s : State} (h : Sound s) {a : Action} (ha : a.Inserts) :
    Sound (a.exec s) := by
  cases a with
  | areas pd => exact h.prims (Prims.refl.priv pd)
  | cmd c =>
    cases c with
    | add n type al => exact h.add al n type
    | rm n => exact h.remove n
    | bind n1 n2 al => exact h.prims (Prims.withTuple s n1 n2 fun a b hp => hp.bind al a b)
    | unbind n1 n2 => exact h.prims (Prims.withTuple s n1 n2 fun a b hp => hp.unbind a b)
    | replace n1 n2 dropPriv al => exact h.replace ha n1 n2 dropPriv
    | subscribe n1 n2 al =>
      exact h.prims (Prims.withTuple s n1 n2 fun a b hp => hp.subscribe al.fn1 b a)
    | unsubscribe n1 n2 =>
      exact h.prims (Prims.withTuple s n1 n2 fun a b hp => hp.unsubscribe b a)
    | hookEth n dev al => exact h.hookEth al n dev
    | addEthvlink n vdev al => exact h.buildVlink _ _ al n
    | openSock n sock al => exact h.buildVlink _ _ al n
    | stopVlink fb =>
      show Sound (removeVlink s fb)
      unfold removeVlink
      split_ifs with hin
      · exact h
      · exact h.destroy hin
      · exact h
    | closeSock fb cpu =>
      show Sound (lanaSkFree cpu s fb)
      unfold lanaSkFree
      split_ifs with hin
      · have hp := Prims.skFree cpu s fb
        refine (h.prims hp).destroy ?_
        show fb ∈ (State.registry _).vlinks
        rw [hp.registry]
        exact hin
      · exact h

theorem sound_init (online : OnlineCpus) : Sound (State.init online) where
  registry := ⟨tables_init online, List.nodup_nil, fun fb hfb => (by cases hfb), fun _ _ => rfl⟩
  lists := ⟨fun a n hn => (by cases hn), fun u n hn => (by cases hn)⟩

/-- **Run.** The invariant holds in every state reached. -/
theorem sound_run (online : OnlineCpus) {acts : List Action} (hok : ∀ a ∈ acts, a.Inserts) :
    Sound (acts.foldl Action.exec (State.init online)) :=
  List.foldlRecOn acts Action.exec (sound_init online) fun _ hs a ha => sound_exec hs (hok a ha)

/-! ## Replacement -/

/-- The private areas after the exchange and the release. -/
theorem privateData_replaced (s : State) (fb1 fb2 : Addr) (f : Factory) :
    let t := (s.replaced fb1 fb2 true).release fb1 f
    (∀ a, a ≠ fb1 → t.privateData a = swapField s.privateData fb2 fb1 a) ∧
      ∀ cpu, t.privateData fb1 cpu = s.privateData fb2 cpu ∨
        t.privateData fb1 cpu = { s.privateData fb2 cpu with filter := none } := by
  intro t
  have hpre : (s.replaced fb1 fb2 true).privateData = swapField s.privateData fb2 fb1 := rfl
  have hother : ∀ a, a ≠ fb1 → t.privateData a = swapField s.privateData fb2 fb1 a := by
    intro a ha
    cases f with
    | bpf => exact Function.update_of_ne ha ..
    | _ => rfl
  refine ⟨hother, fun cpu => ?_⟩
  have hold : swapField s.privateData fb2 fb1 fb1 = s.privateData fb2 := swapField_src
  cases f with
  | bpf =>
    have hself : t.privateData fb1 = fun c =>
        if c ∈ (s.replaced fb1 fb2 true).online.cpus then
          { swapField s.privateData fb2 fb1 fb1 c with filter := none }
        else swapField s.privateData fb2 fb1 fb1 c := Function.update_self ..
    rw [hself, hold]
    by_cases hc : cpu ∈ (s.replaced fb1 fb2 true).online.cpus
    · exact .inr (if_pos hc)
    · exact .inl (if_neg hc)
  | _ => exact .inl (congrFun hold cpu)

/-- **Replacement.** In every reachable state, a replacement of `fb1`, which is not yet released, by
another block `fb2` of the same type that is otherwise unreferenced succeeds: `fb2` takes the name,
the idp, the private data, the lists and the count of `fb1`, which is released once and left with
what `fb2` had; nothing else changes. -/
theorem replace_transparent (online : OnlineCpus) (acts : List Action)
    (hok : ∀ a ∈ acts, a.Inserts) (s : State)
    (hs : s = acts.foldl Action.exec (State.init online))
    (n1 n2 : Name) (idp1 idp2 : Idp) (fb1 fb2 : Addr) (f1 f2 : Factory) (al : Alloc)
    (hn1 : s.registry.names n1 = some idp1) (h1 : s.fblmap idp1 = some fb1)
    (hn2 : s.registry.names n2 = some idp2) (h2 : s.fblmap idp2 = some fb2) (hne : fb1 ≠ fb2)
    (hf1 : s.factory fb1 = some f1) (hf2 : s.factory fb2 = some f2) (htype : f1.type = f2.type)
    (hcnt : s.refcnt fb2 = 1) (hal : al.radix = true) (hpos : 1 ≤ s.refcnt fb1) :
    let r := userctlReplace al s n1 n2 false
    let t := r.2
    r.1 = .ok ∧
    -- the tables
    (t.registry.names n1 = some idp1 ∧ t.fblmap idp1 = some fb2 ∧ t.registry.names n2 = none ∧
      t.fblmap idp2 = none ∧ (∀ n, n ≠ n2.1 → t.registry.names n = s.registry.names n) ∧
      ∀ i, i ≠ idp1 → i ≠ idp2 → t.fblmap i = s.fblmap i) ∧
    -- the new block
    (t.name fb2 = n1 ∧ t.idp fb2 = idp1 ∧ t.privateData fb2 = s.privateData fb1 ∧
      t.notifiers fb2 = s.notifiers fb1 ∧ (∀ n ∈ t.notifiers fb2, t.self n = fb2) ∧
      t.subscribers fb2 = s.subscribers fb1 ∧ t.refcnt fb2 = s.refcnt fb1) ∧
    -- the old one
    (t.refcnt fb1 = 0 ∧ (∃ m, t.released = ⟨fb1, m⟩ :: s.released) ∧
      (∀ cpu, t.privateData fb1 cpu = s.privateData fb2 cpu ∨
        t.privateData fb1 cpu = { s.privateData fb2 cpu with filter := none }) ∧
      t.notifiers fb1 = s.notifiers fb2 ∧ t.subscribers fb1 = s.subscribers fb2) ∧
    -- all others
    ∀ a, a ≠ fb1 → a ≠ fb2 → t.name a = s.name a ∧ t.idp a = s.idp a ∧
      t.privateData a = s.privateData a ∧ t.refcnt a = s.refcnt a ∧
      t.notifiers a = s.notifiers a ∧ (∀ n ∈ t.notifiers a, t.self n = a) ∧
      t.subscribers a = s.subscribers a := by
  have h : Sound s := hs ▸ sound_run online hok
  have hT := h.registry.tables
  obtain ⟨a, hl1, ha, hname1, hidp1⟩ := lookup_of_named hT hn1
  obtain rfl : a = fb1 := Option.some.inj (ha.symm.trans h1)
  obtain ⟨b, hl2, hb, hname2, hidp2⟩ := lookup_of_named hT hn2
  obtain rfl : b = fb2 := Option.some.inj (hb.symm.trans h2)
  have hnames : n1.1 ≠ n2.1 := by
    intro heq
    rw [heq, hn2] at hn1
    obtain rfl := Option.some.inj hn1
    exact hne (Option.some.inj (h1.symm.trans h2))
  have hidps : idp2 ≠ idp1 := by
    rintro rfl
    exact hne (Option.some.inj (h1.symm.trans h2))
  have hexch : exchanges f1 f2 false = true := decide_eq_true ⟨htype, rfl⟩
  intro r t
  have hr : r = (.ok, (s.replaced a b true).release a f1) := by
    rw [← hexch]
    exact userctlReplace_live hl1 hl2 hf1 hf2 hne.symm hpos hcnt hal false
  have ht : t = (s.replaced a b true).release a f1 := congrArg Prod.snd hr
  have hlists : t.lists = s.lists.migrate b a := ht ▸ lists_replaced s a b true f1
  have hnot : t.notifiers = swapField s.notifiers b a := congrArg Lists.notifiers hlists
  have hsub : t.subscribers = swapField s.subscribers b a := congrArg Lists.subscribers hlists
  have hself : ∀ u n, n ∈ t.notifiers u → t.self n = u := by
    have howned := h.lists.migrate b a
    rw [← hlists] at howned
    exact howned.owner
  have href : t.refcnt = swapField s.refcnt b a - ref a := ht ▸ refcnt_replaced s a b true f1
  obtain ⟨hpriv, hpriv1⟩ := privateData_replaced s a b f1
  rw [← ht] at hpriv hpriv1
  obtain ⟨hnames', hmap, hname, hidp, -⟩ :=
    replaced_tables hT (ht ▸ registry_replaced s a b true f1)
  rw [hidp1, hidp2] at hmap
  have hname' : t.name = Function.update s.name b (s.name a) := hname
  have hidp' : t.idp = Function.update s.idp b (s.idp a) := hidp
  refine ⟨congrArg Prod.fst hr, ⟨?_, ?_, ?_, ?_, fun n hn => ?_, fun i hi1 hi2 => ?_⟩,
    ⟨?_, ?_, ?_, ?_, hself b, ?_, ?_⟩, ⟨?_, ?_, hpriv1, ?_, ?_⟩, fun c hca hcb => ?_⟩
  · rw [hnames', hname2, if_neg hnames, hn1]
  · exact (hmap idp1).trans (if_pos rfl)
  · rw [hnames', hname2, if_pos rfl]
  · exact (hmap idp2).trans ((if_neg hidps).trans (if_pos rfl))
  · rw [hnames', hname2, if_neg hn]
  · exact (hmap i).trans ((if_neg hi1).trans (if_neg hi2))
  · rw [hname', Function.update_self, hname1]
  · rw [hidp', Function.update_self, hidp1]
  · rw [hpriv b hne.symm, swapField_dst]
  · rw [hnot, swapField_dst]
  · rw [hsub, swapField_dst]
  · rw [href, Pi.sub_apply, swapField_dst, ref_of_ne hne.symm, sub_zero]
  · rw [href, Pi.sub_apply, swapField_src, ref_self, hcnt, sub_self]
  · exact ⟨_, ht ▸ released_replaced s a b true f1⟩
  · rw [hnot, swapField_src]
  · rw [hsub, swapField_src]
  · refine ⟨?_, ?_, ?_, ?_, ?_, hself c, ?_⟩
    · rw [hname', Function.update_of_ne hcb]
    · rw [hidp', Function.update_of_ne hcb]
    · rw [hpriv c hca, swapField_of_ne hcb hca]
    · rw [href, Pi.sub_apply, swapField_of_ne hcb hca, ref_of_ne hca, sub_zero]
    · rw [hnot, swapField_of_ne hcb hca]
    · rw [hsub, swapField_of_ne hcb hca]

/-- A bound block, one that is subscribed to it, and a spare one of its type. -/
def spareRun : List Action :=
  [.cmd (.add nameA Factory.bpf.type .ok), .cmd (.add nameB Factory.bpf.type .ok),
    .cmd (.add nameC Factory.counter.type .ok), .cmd (.bind nameA nameC .ok),
    .cmd (.subscribe nameA nameC .ok)]

theorem replace_transparent_spare :
    let s := spareRun.foldl Action.exec (State.init oneCpu)
    let r := userctlReplace .ok s nameA nameB false
    r.1 = .ok ∧ r.2.fblmap 1 = some 1 ∧ r.2.refcnt 1 = 5 ∧ r.2.refcnt 0 = 0 := by
  intro s r
  have hcnt : s.refcnt 0 = 5 := by decide
  obtain ⟨hret, ⟨-, hmap, -⟩, ⟨-, -, -, -, -, -, hnew⟩, ⟨hold, -⟩, -⟩ :=
    replace_transparent oneCpu spareRun (by decide) s rfl nameA nameB 1 2 0 1 .bpf .bpf
      .ok (by decide) (by decide) (by decide) (by decide) (by decide) (by decide) (by decide)
      (by decide) (by decide) (by decide) (by decide)
  exact ⟨hret, hmap, hnew.trans hcnt, hold⟩

/-- `b` is subscribed to `a` twice and unsubscribes from `c` twice. -/
def strayActs : List Action :=
  [.cmd (.add nameA Factory.dummy.type .ok), .cmd (.add nameB Factory.dummy.type .ok),
    .cmd (.add nameC Factory.dummy.type .ok), .cmd (.add nameS Factory.dummy.type .ok),
    .cmd (.subscribe nameA nameB .ok), .cmd (.subscribe nameA nameB .ok),
    .cmd (.unsubscribe nameC nameB), .cmd (.unsubscribe nameC nameB)]

/-- The stray unsubscriptions have released `c`, which is still entered.  Its replacement releases
it twice more. -/
theorem replaced_after_release :
    (∀ a ∈ strayActs, a.Inserts) ∧
    let s := strayActs.foldl Action.exec (State.init oneCpu)
    let r := userctlReplace .ok s nameC nameS false
    s.registry.names nameC = some 3 ∧ s.fblmap 3 = some 2 ∧ s.registry.names nameS = some 4 ∧
      s.fblmap 4 = some 3 ∧ s.factory 2 = some .dummy ∧ s.factory 3 = some .dummy ∧
      s.refcnt 3 = 1 ∧ r.1 = .ok ∧
      (r.2.released.map (·.fb)).count 2 = (s.released.map (·.fb)).count 2 + 2 := by
  decide

end Lana
