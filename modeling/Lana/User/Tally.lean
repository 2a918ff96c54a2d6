import Lana.User.Chains

/-!
# What commands build and release

The commands take references to blocks in the tables and put them, and a few of them build a block
or take one out of the tables.

1. Rules for commands that only work on blocks in the tables (`SteadyOn.exec`), and for those that
   give up on the way (`SteadyOn.rm_cases`, `SteadyOn.replace_cases`).
2. With the references of `Held`, a command releases at most one block, and takes that one out of
   the tables (`Held.continues`, `Held.continues_replace`).
3. So each block of a factory is released at most once, and is in no table from then on (`Tally`).
-/

namespace Lana

open State

/-! ## Commands by their parts -/

namespace SteadyOn

variable {A : Addr → Prop} {I : State → Prop} {s : State}

theorem get_put (h : SteadyOn A s.registry.Has I) (hs : I s) {n : CStr} {a : Addr}
    (ha : s.lookup n = some a) : I (putFblock (s.addRefs (ref a)) a) :=
  h.put (has_of_lookup ha) (h.get (has_of_lookup ha) hs)

theorem get_two (h : SteadyOn A s.registry.Has I) (hs : I s) {a b : Addr} (ha : s.registry.Has a)
    (hb : s.registry.Has b) : I (s.addRefs (ref a + ref b)) := by
  rw [← addRefs_addRefs]
  exact h.get hb (h.get ha hs)

/-- The frame of the commands with two names. -/
theorem withTuple (h : SteadyOn A s.registry.Has I) (hs : I s) (n1 n2 : Name)
    {f : State → Addr → Addr → Ret × State}
    (hf : ∀ {t a b}, s.registry.Has a → s.registry.Has b → I t → I (f t a b).2) :
    I (withTuple s n1 n2 f).2 := by
  unfold Lana.withTuple
  rcases h1 : s.lookup n1 with _ | a
  · rw [searchFblockN_none h1]
    exact hs
  rw [searchFblockN_some h1]
  dsimp only
  rcases h2 : s.lookup n2 with _ | b
  · rw [searchFblockN_none (show (s.addRefs (ref a)).lookup n2 = none from h2)]
    exact h.get_put hs h1
  · rw [searchFblockN_some (show (s.addRefs (ref a)).lookup n2 = some b from h2)]
    have ha := has_of_lookup h1
    have hb := has_of_lookup h2
    exact h.put hb (h.put ha (hf ha hb (h.get hb (h.get ha hs))))

/-- The commands that change neither of the tables. -/
theorem exec (h : SteadyOn (fun _ => True) s.registry.Has I) (hs : I s) {c : Cmd} (hc : c.Finds s)
    (hadd : c.creates = false) (hrm : ∀ n, c ≠ .rm n) : I (c.exec s) := by
  cases c with
  | bind n1 n2 al => exact h.withTuple hs n1 n2 fun ha hb => h.bind al trivial trivial ha hb
  | unbind n1 n2 => exact h.withTuple hs n1 n2 fun ha hb => h.unbind ha hb
  | subscribe n1 n2 al =>
    exact h.withTuple hs n1 n2 fun ha hb => h.subscribe al.fn1 trivial hb ha
  | unsubscribe n1 n2 => exact h.withTuple hs n1 n2 fun ha hb => h.unsubscribe hb ha
  | add n type al => cases hadd
  | rm n => exact absurd rfl (hrm n)
  | _ => exact absurd hc id

/-- A removal that gives up, or that of a block with no more than its own reference. -/
theorem rm_cases (h : SteadyOn A s.registry.Has I) (hs : I s) (n : Name) :
    I (userctlRemove s n).2 ∨ ∃ a f, s.lookup n = some a ∧ s.factory a = some f ∧ s.refcnt a ≤ 1 ∧
      (userctlRemove s n).2 = putFblock (unregisterFblockNamespace (getFblock s a) a) a := by
  unfold userctlRemove
  rcases ha : s.lookup n with _ | a
  · rw [searchFblockN_none ha]
    exact .inl hs
  rw [searchFblockN_some ha]
  dsimp only
  rw [show (s.addRefs (ref a)).factory a = s.factory a from rfl]
  rcases hf : s.factory a with _ | f
  · exact .inl (h.get_put hs ha)
  dsimp only
  split_ifs with hcnt
  · exact .inl (h.get_put hs ha)
  · rw [addRefs_refcnt, ref_self] at hcnt
    refine .inr ⟨a, f, rfl, hf, by omega, ?_⟩
    rw [getFblock_eq]

/-- A replacement that gives up, or that by a block with no more than its own reference. -/
theorem replace_cases (h : SteadyOn A s.registry.Has I) (hs : I s) (al : Alloc) (n1 n2 : Name)
    (dropPriv : Bool) :
    I (userctlReplace al s n1 n2 dropPriv).2 ∨
      ∃ fb1 fb2 f1 f2, s.lookup n1 = some fb1 ∧ s.lookup n2 = some fb2 ∧
        s.factory fb1 = some f1 ∧ s.factory fb2 = some f2 ∧
        (s.addRefs (ref fb1 + ref fb2)).refcnt fb2 ≤ 2 := by
  rcases h1 : s.lookup n1 with _ | fb1
  · rw [userctlReplace_unknown h1]
    exact .inl hs
  have hin1 := has_of_lookup h1
  rcases hf1 : s.factory fb1 with _ | f1
  · rw [userctlReplace_noFactory h1 hf1]
    exact .inl (h.get hin1 hs)
  rcases h2 : s.lookup n2 with _ | fb2
  · rw [userctlReplace_second h1 hf1 h2]
    exact .inl (h.get_put hs h1)
  have hin2 := has_of_lookup h2
  have htwo := h.get_two hs hin1 hin2
  rcases hf2 : s.factory fb2 with _ | f2
  · rw [userctlReplace_secondNoFactory h1 hf1 h2 hf2]
    exact .inl (h.put hin1 htwo)
  by_cases hbusy : (s.addRefs (ref fb1 + ref fb2)).refcnt fb2 > 2
  · rw [userctlReplace_busy h1 hf1 h2 hf2 hbusy]
    exact .inl (h.put hin2 (h.put hin1 htwo))
  · exact .inr ⟨fb1, fb2, f1, f2, rfl, rfl, hf1, hf2, not_lt.1 hbusy⟩

end SteadyOn

/-! ## Releases by commands -/

/-- The tables are as in `s`, and what has been released meanwhile was in them. -/
structure KeepsLog (s t : State) : Prop where
  registry : t.registry = s.registry
  log : ∃ new : List Addr, t.released = new.map (fun a => ⟨a, s.fblmap⟩) ++ s.released ∧
    ∀ a ∈ new, s.registry.Has a

namespace KeepsLog

variable {s t : State}

theorem refl (s : State) : KeepsLog s s := ⟨rfl, [], rfl, fun _ h => absurd h List.not_mem_nil⟩

theorem congr (h : KeepsLog s t) {u : State} (hreg : u.registry = t.registry)
    (hrel : u.released = t.released) : KeepsLog s u :=
  ⟨hreg.trans h.registry, hrel ▸ h.log⟩

theorem put (h : KeepsLog s t) {a : Addr} (ha : s.registry.Has a) : KeepsLog s (putFblock t a) := by
  have hreg := registry_putFblock t a
  by_cases hone : t.refcnt a = 1
  · rcases hf : t.factory a with _ | f
    · exact h.congr hreg (by rw [putFblock_of_no_factory hf]; rfl)
    · obtain ⟨new, hnew, hin⟩ := h.log
      refine ⟨hreg.trans h.registry, a :: new, ?_, List.forall_mem_cons.2 ⟨ha, hin⟩⟩
      have hrel : (putFblock t a).released = ⟨a, t.fblmap⟩ :: t.released := by
        rw [putFblock_release hone hf]
        cases f <;> rfl
      rw [hrel, hnew, show t.fblmap = s.fblmap from congrArg Registry.fblmap h.registry]
      rfl
  · exact h.congr hreg (by rw [putFblock_eq hone]; rfl)

theorem unsubscribe (h : KeepsLog s t) {us remote : Addr} (hus : s.registry.Has us)
    (hr : s.registry.Has remote) : KeepsLog s (unsubscribeFromRemoteFblock t us remote) := by
  by_cases hnil : t.notifiers us = []
  · rw [unsubscribe_eq_of_nil remote hnil]
    exact h
  · rw [unsubscribe_eq_of_ne_nil remote hnil]
    exact ((h.congr (registry_unlink ..) (released_unlink ..)).put hus).put hr

theorem subscribe (h : KeepsLog s t) (alloc : Bool) (us remote : Addr) :
    KeepsLog s (subscribeToRemoteFblock alloc t us remote).2 := by
  refine h.congr (registry_subscribe ..) ?_
  cases alloc
  · rfl
  · rw [subscribe_eq]
    rfl

/-- Bindings put no references but to the two blocks. -/
theorem steadyOn (s : State) : SteadyOn (fun _ => True) s.registry.Has (KeepsLog s) where
  get := fun _ h => h.congr rfl rfl
  put := fun ha h => h.put ha
  event := fun _ _ h => h.congr rfl rfl
  subscribe := fun alloc _ _ _ _ _ h => h.subscribe alloc _ _
  unsubscribe := fun hus hr h => h.unsubscribe hus hr
  panic := fun h => h.congr rfl rfl

/-- No block in the tables is released, so that nothing is. -/
theorem released_eq (h : KeepsLog s t) {P : Addr → Ports} {δ : Addr → ℤ} (ht : Held t P δ) :
    t.released = s.released := by
  obtain ⟨new, hnew, hin⟩ := h.log
  cases new with
  | nil => exact hnew
  | cons a new =>
    obtain ⟨i, hi⟩ := hin a List.mem_cons_self
    have hmem : (⟨a, s.fblmap⟩ : Release) ∈ t.released := by
      rw [hnew]
      exact List.mem_cons_self
    exact absurd hi (ht.safe _ hmem i)

end KeepsLog

/-- At most one block of a factory leaves the tables on the way from `s` to `t`, and it is released;
new entries are of new objects, which have no factory. -/
structure Continues (s t : State) : Prop where
  factory : t.factory = s.factory
  ops : ∀ a, s.factory a ≠ none → t.ops a = s.ops a
  next : s.nextFblock ≤ t.nextFblock
  has : ∀ a, t.registry.Has a → s.registry.Has a ∨ s.nextFblock ≤ a
  log : t.released = s.released ∨ ∃ a m, s.factory a ≠ none ∧ s.registry.Has a ∧
    ¬ t.registry.Has a ∧ t.released = ⟨a, m⟩ :: s.released

theorem KeepsLog.continues {s t : State} (h : KeepsLog s t) {P : Addr → Ports} {δ : Addr → ℤ}
    (ht : Held t P δ) : Continues s t where
  factory := congrArg Registry.factory h.registry
  ops := fun a _ => congrFun (congrArg Registry.ops h.registry) a
  next := (congrArg Registry.nextFblock h.registry).ge
  has := fun _ ha => .inl (h.registry ▸ ha)
  log := .inl (h.released_eq ht)

section Commands

variable {s : State} {P : Addr → Ports}

theorem released_removed (s : State) (a : Addr) (f : Factory) :
    ((unregisterFblockNamespaceNoRcu s a).release a f).released =
      ⟨a, (unregisterFblockNamespaceNoRcu s a).fblmap⟩ :: s.released := by
  obtain ⟨tr, m, hu⟩ := unregisterNoRcu_frame s a
  rw [hu]
  cases f <;> rfl

/-- A replacement that goes through releases the first block. -/
theorem Held.released_replace (h : Held s P 0) {al : Alloc} (hal : al.radix = true) {n1 n2 : Name}
    {fb1 fb2 : Addr} {f1 f2 : Factory} (h1 : s.lookup n1 = some fb1) (h2 : s.lookup n2 = some fb2)
    (hf1 : s.factory fb1 = some f1) (hf2 : s.factory fb2 = some f2)
    (hle : (s.addRefs (ref fb1 + ref fb2)).refcnt fb2 ≤ 2) (dropPriv : Bool) :
    fb2 ≠ fb1 ∧ s.refcnt fb2 = 1 ∧ ∃ m,
      (userctlReplace al s n1 n2 dropPriv).2.released = ⟨fb1, m⟩ :: s.released := by
  have hpos1 : 1 ≤ s.refcnt fb1 := h.pos (has_of_lookup h1)
  have hpos2 : 1 ≤ s.refcnt fb2 := h.pos (has_of_lookup h2)
  obtain ⟨hne, hle'⟩ := unreferenced_of_le_two hpos2 hle
  have hone := le_antisymm hle' hpos2
  refine ⟨hne, hone, (s.replaced fb1 fb2 (exchanges f1 f2 dropPriv)).fblmap, ?_⟩
  rw [userctlReplace_live h1 h2 hf1 hf2 hne hpos1 hone hal dropPriv]
  exact released_replaced s fb1 fb2 _ f1

theorem Held.continues_rm (h : Held s P 0) (n : Name) : Continues s (userctlRemove s n).2 := by
  obtain hquiet | ⟨a, f, ha, hf, hle, heq⟩ := (KeepsLog.steadyOn s).rm_cases (.refl s) n
  · exact hquiet.continues (h.remove n)
  have hin := has_of_lookup ha
  have hone : s.refcnt a = 1 := le_antisymm hle (h.pos hin)
  rw [removed_eq hf hone] at heq
  obtain ⟨tr, m, hu⟩ := unregisterNoRcu_frame s a
  have hreg : ((unregisterFblockNamespaceNoRcu s a).release a f).registry =
      (unregisterFblockNamespaceNoRcu s a).registry := by
    cases f <;> rfl
  have hrel := released_removed s a f
  have hmap := fblmap_unregisterNoRcu s a
  rw [heq]
  refine ⟨?_, fun b _ => ?_, ?_, fun b hb => .inl ?_, .inr ⟨a, _, by simp [hf], hin, ?_, hrel⟩⟩
  · exact (congrArg Registry.factory hreg).trans (by rw [hu]; rfl)
  · exact (congrFun (congrArg Registry.ops hreg) b).trans (by rw [hu]; rfl)
  · exact ((congrArg Registry.nextFblock hreg).trans (by rw [hu]; rfl)).ge
  · rw [hreg] at hb
    obtain ⟨i, hi⟩ := hb
    change (unregisterFblockNamespaceNoRcu s a).fblmap i = some b at hi
    rw [hmap, Function.update_apply] at hi
    split_ifs at hi
    exact ⟨i, hi⟩
  · rw [hreg]
    exact (h.unregister hin).2

theorem Held.continues_replace (h : Held s P 0) {al : Alloc} (hal : al.radix = true) (n1 n2 : Name)
    (dropPriv : Bool) : Continues s (userctlReplace al s n1 n2 dropPriv).2 := by
  obtain ⟨P', hheld⟩ := h.replace hal n1 n2 dropPriv
  obtain hquiet | ⟨fb1, fb2, f1, f2, h1, h2, hf1, hf2, hle⟩ :=
    (KeepsLog.steadyOn s).replace_cases (.refl s) al n1 n2 dropPriv
  · exact hquiet.continues hheld
  have hin1 := has_of_lookup h1
  have hin2 := has_of_lookup h2
  obtain ⟨hne, -, m, hrel⟩ := h.released_replace hal h1 h2 hf1 hf2 hle dropPriv
  obtain ⟨hreg, -⟩ := userctlReplace_frame h1 h2 hf1 hf2 hle al dropPriv
  rw [hal, if_pos rfl] at hreg
  have hR := replaced_tables h.tables hreg
  refine ⟨hR.factory, fun a _ => congrFun hR.ops a, hR.nextFblock.ge, fun a ha => .inl ?_,
    .inr ⟨fb1, _, by simp [hf1], hin1, fun ha => ?_, hrel⟩⟩
  · obtain ⟨rfl, -⟩ | ⟨-, -, hold, -⟩ := has_replaced h.tables hreg ha
    · exact hin2
    · exact hold
  · obtain ⟨heq, -⟩ | ⟨hneq, -⟩ := has_replaced h.tables hreg ha
    · exact hne heq.symm
    · exact hneq rfl

/-- What a command other than an addition comes to. -/
theorem Held.continues (h : Held s P 0) {c : Cmd} (hc : c.Finds s) (hadd : c.creates = false) :
    Continues s (c.exec s) := by
  obtain ⟨P', hheld⟩ := held_exec h hc fun hcr => by
    rw [hadd] at hcr
    cases hcr
  by_cases hrm : ∃ n, c = .rm n
  · obtain ⟨n, rfl⟩ := hrm
    exact h.continues_rm n
  · have hlog := (KeepsLog.steadyOn s).exec (.refl s) hc hadd fun n hn => hrm ⟨n, hn⟩
    exact hlog.continues hheld

end Commands

/-! ## The blocks of the factories -/

/-- Each block of a factory has the functions of that factory; a block that was released had one,
was released once, and is in no table. -/
structure Tally (s : State) : Prop where
  once : (s.released.map Release.fb).Nodup
  out : ∀ a ∈ s.released.map Release.fb, ¬ s.registry.Has a
  built : ∀ a ∈ s.released.map Release.fb, s.factory a ≠ none
  fresh : ∀ a, s.nextFblock ≤ a → s.factory a = none
  named : ∀ a f, s.factory a = some f → s.ops a = f.ops

namespace Tally

variable {s t : State}

theorem init (online : OnlineCpus) : Tally (State.init online) where
  once := List.nodup_nil
  out := fun _ h => absurd h List.not_mem_nil
  built := fun _ h => absurd h List.not_mem_nil
  fresh := fun _ _ => rfl
  named := fun _ _ h => by cases h

theorem continues (h : Tally s) (hst : Continues s t) : Tally t := by
  have hold : ∀ a ∈ s.released.map Release.fb, ¬ t.registry.Has a := by
    intro a ha hin
    obtain hin | hnew := hst.has a hin
    · exact h.out a ha hin
    · exact h.built a ha (h.fresh a hnew)
  have hfresh : ∀ a, t.nextFblock ≤ a → t.factory a = none := by
    intro a ha
    rw [hst.factory]
    exact h.fresh a (hst.next.trans ha)
  have hnamed : ∀ a f, t.factory a = some f → t.ops a = f.ops := by
    intro a f hf
    rw [hst.factory] at hf
    rw [hst.ops a (by simp [hf])]
    exact h.named a f hf
  obtain hlog | ⟨a, m, hfac, hin, hout, hlog⟩ := hst.log
  · exact ⟨hlog ▸ h.once, hlog ▸ hold, by rw [hlog, hst.factory]; exact h.built, hfresh, hnamed⟩
  · refine ⟨?_, ?_, ?_, hfresh, hnamed⟩
    · rw [hlog, List.map_cons]
      exact List.nodup_cons.2 ⟨fun hmem => h.out a hmem hin, h.once⟩
    · rw [hlog, List.map_cons]
      exact List.forall_mem_cons.2 ⟨hout, hold⟩
    · rw [hlog, List.map_cons, hst.factory]
      exact List.forall_mem_cons.2 ⟨hfac, h.built⟩

/-- A constructor that fails leaves no block of a factory. -/
theorem raised (h : Tally s) {area : Priv} {ops : FbType} (hC : Created s t area ops) :
    Continues s t where
  factory := hC.factory
  ops := fun a ha => by
    refine (hC.keep a ?_).2.2.1
    rintro rfl
    exact ha (h.fresh _ le_rfl)
  next := hC.next
  has := fun a ⟨i, hi⟩ => by
    obtain hold | ⟨rfl, -⟩ := hC.new i a hi
    · exact .inl ⟨i, hold⟩
    · exact .inr le_rfl
  log := .inl hC.released

/-- A new block of the factory `f`. -/
theorem enrolled (h : Tally s) (hT : Tables s.registry) {area : Priv} {f : Factory}
    (hC : Created s t area f.ops) (hin : t.registry.Has s.nextFblock) :
    Tally { t with factory := Function.update t.factory s.nextFblock (some f) } := by
  have hraised := h.continues (h.raised hC)
  have hne : ∀ a ∈ t.released.map Release.fb, a ≠ s.nextFblock := by
    rintro a ha rfl
    exact hraised.out _ ha hin
  obtain ⟨i, hi⟩ := hin
  have hlt : s.nextFblock < t.nextFblock := (hC.tables.stored i _ hi).2
  refine ⟨hraised.once, hraised.out, fun a ha => ?_, fun a ha => ?_, fun a g hg => ?_⟩
  · show Function.update t.factory s.nextFblock (some f) a ≠ none
    rw [Function.update_of_ne (hne a ha)]
    exact hraised.built a ha
  · show Function.update t.factory s.nextFblock (some f) a = none
    rw [Function.update_of_ne (hlt.trans_le ha).ne']
    exact hraised.fresh a ha
  · change Function.update t.factory s.nextFblock (some f) a = some g at hg
    show t.ops a = g.ops
    by_cases ha : a = s.nextFblock
    · subst ha
      rw [Function.update_self] at hg
      obtain rfl := Option.some.inj hg
      obtain hold | ⟨-, -, -, -, -, -, hops, -⟩ := hC.new i _ hi
      · exact absurd hold (hT.not_has_next i)
      · exact hops
    · rw [Function.update_of_ne ha] at hg
      exact hraised.named a g hg

end Tally

end Lana
