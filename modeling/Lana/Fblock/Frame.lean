import Lana.Fblock.Refs

/-!
# What the operations leave alone

The state falls into the registry (the tables and the identity of the blocks), the notifier lists,
the private areas and the counts.  References, events, subscriptions and bindings leave the
registry as it is; references and events leave the lists as they are.  What a removal and a
`put_fblock` write is said once (`unlink_shape`, `putFblock_shape`), and each operation has one
equation per part it keeps.  A property that the parts of `__fblock_bind` and `__fblock_unbind` keep
is kept by the two functions (`Steady.bind`, `Steady.unbind`).
-/

namespace Lana

open State

/-- The tables and the identity of the blocks. -/
structure Registry where
  name : Addr → CStr
  ops : Addr → FbType
  factory : Addr → Option Factory
  idp : Addr → Idp
  idpmap : CritbitTree IdpElem
  fblmap : Idp → Option Addr
  idpCounter : ℕ
  online : OnlineCpus
  vlinks : List Addr
  nextFblock : Addr

/-- The notifier nodes and the lists they are on. -/
structure Lists where
  notifiers : Addr → List NodeAddr
  subscribers : Addr → List NodeAddr
  self : NodeAddr → Addr
  remote : NodeAddr → Idp
  nextNode : NodeAddr

namespace Lists

/-- A new node of `us` on the chain of `remote`, whose idp is `i`. -/
def link (l : Lists) (i : Idp) (us remote : Addr) : Lists :=
  { nextNode := l.nextNode + 1
    self := Function.update l.self l.nextNode us
    remote := Function.update l.remote l.nextNode i
    notifiers := Function.update l.notifiers us (l.nextNode :: l.notifiers us)
    subscribers := Function.update l.subscribers remote (l.subscribers remote ++ [l.nextNode]) }

/-- The removal of a node of `us` for `remote`, whose idp is `i`. -/
def unlink (l : Lists) (i : Idp) (us remote : Addr) : Lists :=
  match l.notifiers us with
  | [] => l
  | fn :: rest =>
    if l.remote fn = i then { l with notifiers := Function.update l.notifiers us rest }
    else
      match rest.find? (fun f1 => l.remote f1 = i) with
      | none => l
      | some f1 =>
        { l with
          notifiers := Function.update l.notifiers us (fn :: rest.erase f1)
          subscribers := Function.update l.subscribers remote ((l.subscribers remote).erase f1) }

end Lists

namespace State

def registry (s : State) : Registry :=
  { name := s.name, ops := s.ops, factory := s.factory, idp := s.idp, idpmap := s.idpmap,
    fblmap := s.fblmap, idpCounter := s.idpCounter, online := s.online, vlinks := s.vlinks,
    nextFblock := s.nextFblock }

def lists (s : State) : Lists :=
  { notifiers := s.notifiers, subscribers := s.subscribers, self := s.self, remote := s.remote,
    nextNode := s.nextNode }

/-- The state with other private areas. -/
def withPriv (s : State) (pd : Addr → Cpu → Priv) : State := { s with privateData := pd }

/-- The list part of `subscribe_to_remote_fblock`. -/
def link (s : State) (us remote : Addr) : State :=
  { s with
    nextNode := s.nextNode + 1
    self := Function.update s.self s.nextNode us
    remote := Function.update s.remote s.nextNode (s.idp remote)
    notifierCall := Function.update s.notifierCall s.nextNode (s.ops us)
    notifiers := Function.update s.notifiers us (s.nextNode :: s.notifiers us)
    subscribers := Function.update s.subscribers remote (s.subscribers remote ++ [s.nextNode]) }

/-- The list part of `unsubscribe_from_remote_fblock`. -/
def unlink (s : State) (us remote : Addr) : State :=
  match s.notifiers us with
  | [] => s
  | fn :: rest => unlinkNotifier s us remote fn rest

end State

/-! ## What is written -/

/-- A removal writes the two lists of the node and nothing else. -/
theorem unlink_shape (s : State) (us remote : Addr) :
    ∃ ns ss, s.unlink us remote = { s with notifiers := ns, subscribers := ss } := by
  unfold State.unlink
  split
  · exact ⟨_, _, rfl⟩
  · unfold unlinkNotifier
    split_ifs
    · exact ⟨_, _, rfl⟩
    · split <;> exact ⟨_, _, rfl⟩

/-- With or without a release, `put_fblock` takes one off the count; a release also writes the
private areas and the record. -/
theorem putFblock_shape (s : State) (a : Addr) :
    ∃ pd rel, putFblock s a =
      { s with refcnt := s.refcnt - ref a, privateData := pd, released := rel } := by
  rw [sub_eq_add_neg]
  by_cases h : s.refcnt a = 1
  · rcases hf : s.factory a with _ | f
    · exact ⟨_, _, putFblock_of_no_factory hf⟩
    · rw [putFblock_release h hf]
      cases f <;> exact ⟨_, _, rfl⟩
  · exact ⟨_, _, putFblock_eq h⟩

/-! ## The registry -/

@[simp] theorem registry_addRefs (s : State) (δ : Addr → ℤ) :
    (s.addRefs δ).registry = s.registry := rfl

@[simp] theorem registry_withPriv (s : State) (pd : Addr → Cpu → Priv) :
    (s.withPriv pd).registry = s.registry := rfl

@[simp] theorem registry_link (s : State) (us remote : Addr) :
    (s.link us remote).registry = s.registry := rfl

@[simp] theorem registry_getFblock (s : State) (a : Addr) :
    (getFblock s a).registry = s.registry := rfl

@[simp] theorem registry_putFblock (s : State) (a : Addr) :
    (putFblock s a).registry = s.registry := by
  obtain ⟨pd, rel, h⟩ := putFblock_shape s a
  rw [h]
  rfl

@[simp] theorem registry_unlink (s : State) (us remote : Addr) :
    (s.unlink us remote).registry = s.registry := by
  obtain ⟨ns, ss, h⟩ := unlink_shape s us remote
  rw [h]
  rfl

@[simp] theorem registry_eventRx (s : State) (fb : Addr) (ev : FbEvent) :
    (eventRx s fb ev).2.registry = s.registry := rfl

/-! ## The lists -/

@[simp] theorem lists_addRefs (s : State) (δ : Addr → ℤ) : (s.addRefs δ).lists = s.lists := rfl

@[simp] theorem lists_withPriv (s : State) (pd : Addr → Cpu → Priv) :
    (s.withPriv pd).lists = s.lists := rfl

@[simp] theorem lists_link (s : State) (us remote : Addr) :
    (s.link us remote).lists = s.lists.link (s.idp remote) us remote := rfl

@[simp] theorem lists_unlink (s : State) (us remote : Addr) :
    (s.unlink us remote).lists = s.lists.unlink (s.idp remote) us remote := by
  have hn : s.lists.notifiers us = s.notifiers us := rfl
  have hr : s.lists.remote = s.remote := rfl
  unfold State.unlink Lists.unlink unlinkNotifier
  rw [hn, hr]
  rcases s.notifiers us with _ | ⟨fn, rest⟩
  · rfl
  · by_cases hfn : s.remote fn = s.idp remote
    · simp only [if_pos hfn]
      rfl
    · simp only [if_neg hfn]
      rcases rest.find? (fun f1 => s.remote f1 = s.idp remote) with _ | f1 <;> rfl

@[simp] theorem lists_putFblock (s : State) (a : Addr) : (putFblock s a).lists = s.lists := by
  obtain ⟨pd, rel, h⟩ := putFblock_shape s a
  rw [h]
  rfl

@[simp] theorem lists_eventRx (s : State) (fb : Addr) (ev : FbEvent) :
    (eventRx s fb ev).2.lists = s.lists := rfl

/-! ## The counts -/

/-- With or without a release, `put_fblock` takes one off the count. -/
theorem refcnt_putFblock (s : State) (a : Addr) : (putFblock s a).refcnt = s.refcnt - ref a := by
  obtain ⟨pd, rel, h⟩ := putFblock_shape s a
  rw [h]

@[simp] theorem refcnt_eventRx (s : State) (fb : Addr) (ev : FbEvent) :
    (eventRx s fb ev).2.refcnt = s.refcnt := rfl

@[simp] theorem refcnt_withPriv (s : State) (pd : Addr → Cpu → Priv) :
    (s.withPriv pd).refcnt = s.refcnt := rfl

@[simp] theorem refcnt_link (s : State) (us remote : Addr) :
    (s.link us remote).refcnt = s.refcnt := rfl

@[simp] theorem refcnt_unlink (s : State) (us remote : Addr) :
    (s.unlink us remote).refcnt = s.refcnt := by
  obtain ⟨ns, ss, h⟩ := unlink_shape s us remote
  rw [h]

@[simp] theorem privateData_unlink (s : State) (us remote : Addr) :
    (s.unlink us remote).privateData = s.privateData := by
  obtain ⟨ns, ss, h⟩ := unlink_shape s us remote
  rw [h]

@[simp] theorem released_unlink (s : State) (us remote : Addr) :
    (s.unlink us remote).released = s.released := by
  obtain ⟨ns, ss, h⟩ := unlink_shape s us remote
  rw [h]

/-! ## Subscriptions in parts -/

theorem subscribe_eq (s : State) (us remote : Addr) :
    subscribeToRemoteFblock true s us remote =
      (.ok, (s.link us remote).addRefs (ref us + ref remote)) := by
  have h : (getFblock (getFblock s us) remote).refcnt = s.refcnt + (ref us + ref remote) := by
    rw [getFblock_eq, getFblock_eq, addRefs_addRefs]
    rfl
  unfold subscribeToRemoteFblock addRefs link
  simp only [getFblock, Function.update_self, List.headD_cons] at h ⊢
  rw [h]
  rfl

theorem subscribe_no_memory (s : State) (us remote : Addr) :
    subscribeToRemoteFblock false s us remote = (.err .ENOMEM, s) := rfl

theorem unsubscribe_eq_of_nil {s : State} {us : Addr} (remote : Addr) (h : s.notifiers us = []) :
    unsubscribeFromRemoteFblock s us remote = s := by
  unfold unsubscribeFromRemoteFblock
  rw [h]

theorem unsubscribe_eq_of_ne_nil {s : State} {us : Addr} (remote : Addr)
    (h : s.notifiers us ≠ []) :
    unsubscribeFromRemoteFblock s us remote =
      putFblock (putFblock (s.unlink us remote) us) remote := by
  unfold unsubscribeFromRemoteFblock State.unlink
  rcases hl : s.notifiers us with _ | ⟨fn, rest⟩
  · contradiction
  · simp only

@[simp] theorem registry_unsubscribe (s : State) (us remote : Addr) :
    (unsubscribeFromRemoteFblock s us remote).registry = s.registry := by
  by_cases h : s.notifiers us = []
  · rw [unsubscribe_eq_of_nil remote h]
  · rw [unsubscribe_eq_of_ne_nil remote h]
    simp only [registry_putFblock, registry_unlink]

@[simp] theorem lists_unsubscribe (s : State) (us remote : Addr) :
    (unsubscribeFromRemoteFblock s us remote).lists =
      s.lists.unlink (s.idp remote) us remote := by
  rw [← lists_unlink]
  by_cases h : s.notifiers us = []
  · rw [unsubscribe_eq_of_nil remote h]
    unfold State.unlink
    rw [h]
  · rw [unsubscribe_eq_of_ne_nil remote h]
    simp only [lists_putFblock]

theorem refcnt_unsubscribe (s : State) (us remote : Addr) :
    (unsubscribeFromRemoteFblock s us remote).refcnt =
      if s.notifiers us = [] then s.refcnt else s.refcnt - ref us - ref remote := by
  split_ifs with h
  · rw [unsubscribe_eq_of_nil remote h]
  · rw [unsubscribe_eq_of_ne_nil remote h, refcnt_putFblock, refcnt_putFblock, refcnt_unlink]

@[simp] theorem registry_subscribe (al : Bool) (s : State) (us remote : Addr) :
    (subscribeToRemoteFblock al s us remote).2.registry = s.registry := by
  cases al
  · rfl
  · rw [subscribe_eq]
    rfl

/-! ## What the functions are made of -/

/-- A property of states that is kept by what `__fblock_bind` and `__fblock_unbind` are made of,
where subscriptions are made by the blocks in `A` and references are to the blocks in `B` only. -/
structure SteadyOn (A B : Addr → Prop) (I : State → Prop) : Prop where
  get : ∀ {t : State} {a : Addr}, B a → I t → I (t.addRefs (ref a))
  put : ∀ {t : State} {a : Addr}, B a → I t → I (putFblock t a)
  event : ∀ {t : State} (fb : Addr) (ev : FbEvent), I t → I (eventRx t fb ev).2
  subscribe : ∀ {t : State} (alloc : Bool) {us remote : Addr}, A us → B us → B remote → I t →
    I (subscribeToRemoteFblock alloc t us remote).2
  unsubscribe : ∀ {t : State} {us remote : Addr}, B us → B remote → I t →
    I (unsubscribeFromRemoteFblock t us remote)
  panic : ∀ {t : State}, I t → I { t with panicked := true }

namespace SteadyOn

variable {A B : Addr → Prop} {I : State → Prop} {t : State}

theorem of_event (h : SteadyOn A B I) {fb : Addr} {ev : FbEvent} {r : Notify} {u : State}
    (he : eventRx t fb ev = (r, u)) (ht : I t) : I u := by
  obtain rfl := (Prod.mk.inj he).2
  exact h.event fb ev ht

theorem unbind (h : SteadyOn A B I) {fb1 fb2 : Addr} (hB1 : B fb1) (hB2 : B fb2) (ht : I t) :
    I (fblockUnbind t fb1 fb2).2 := by
  unfold fblockUnbind
  split
  · rename_i u e
    exact h.of_event e ht
  rename_i u e
  have hu := h.of_event e ht
  split
  · rename_i v e'
    exact h.put hB1 (h.of_event e' hu)
  · rename_i v e'
    have hv := h.unsubscribe hB2 hB1 (h.unsubscribe hB1 hB2 (h.of_event e' hu))
    exact h.put hB1 (h.put hB2 hv)

theorem bind (h : SteadyOn A B I) (al : Alloc) {fb1 fb2 : Addr} (hA1 : A fb1) (hA2 : A fb2)
    (hB1 : B fb1) (hB2 : B fb2) (ht : I t) : I (fblockBind al t fb1 fb2).2 := by
  have h0 : I (getFblock (getFblock t fb1) fb2) := by
    rw [getFblock_eq, getFblock_eq]
    exact h.get hB2 (h.get hB1 ht)
  unfold fblockBind
  simp only
  generalize getFblock (getFblock t fb1) fb2 = t0 at h0 ⊢
  split
  · rename_i u e
    exact h.put hB2 (h.put hB1 (h.of_event e h0))
  rename_i t1 e1
  have h1 := h.of_event e1 h0
  split
  · rename_i t2 e2
    have h2 := h.of_event e2 h1
    split
    · rename_i t3 e3
      exact h.panic (h.of_event e3 h2)
    · rename_i t3 e3
      exact h.put hB2 (h.put hB1 (h.of_event e3 h2))
  rename_i t2 e2
  have h3 := h.subscribe al.fn1 hA1 hB1 hB2 (h.of_event e2 h1)
  split
  · rename_i t3 e3
    rw [e3] at h3
    exact h.unbind hB1 hB2 h3
  rename_i t3 e3
  rw [e3] at h3
  have h4 := h.subscribe al.fn2 hA2 hB2 hB1 h3
  split
  · rename_i t4 e4
    rw [e4] at h4
    exact h.unbind hB1 hB2 h4
  · rename_i t4 e4
    rw [e4] at h4
    exact h4

end SteadyOn

/-- A property of states that is kept by what `__fblock_bind` and `__fblock_unbind` are made of,
where subscriptions are made by the blocks in `A` only. -/
structure Steady (A : Addr → Prop) (I : State → Prop) : Prop where
  get : ∀ {t : State} (a : Addr), I t → I (t.addRefs (ref a))
  put : ∀ {t : State} (a : Addr), I t → I (putFblock t a)
  event : ∀ {t : State} (fb : Addr) (ev : FbEvent), I t → I (eventRx t fb ev).2
  subscribe : ∀ {t : State} (alloc : Bool) {us : Addr} (remote : Addr), A us → I t →
    I (subscribeToRemoteFblock alloc t us remote).2
  unsubscribe : ∀ {t : State} (us remote : Addr), I t → I (unsubscribeFromRemoteFblock t us remote)
  panic : ∀ {t : State}, I t → I { t with panicked := true }

namespace Steady

variable {A : Addr → Prop} {I : State → Prop} {t : State}

theorem steadyOn (h : Steady A I) : SteadyOn A (fun _ => True) I where
  get := fun {_ a} _ => h.get a
  put := fun {_ a} _ => h.put a
  event := h.event
  subscribe := fun {_} alloc {_ remote} hus _ _ => h.subscribe alloc remote hus
  unsubscribe := fun {_ us remote} _ _ => h.unsubscribe us remote
  panic := h.panic

theorem unbind (h : Steady A I) (fb1 fb2 : Addr) (ht : I t) : I (fblockUnbind t fb1 fb2).2 :=
  h.steadyOn.unbind trivial trivial ht

theorem bind (h : Steady A I) (al : Alloc) {fb1 fb2 : Addr} (hA1 : A fb1) (hA2 : A fb2) (ht : I t) :
    I (fblockBind al t fb1 fb2).2 :=
  h.steadyOn.bind al hA1 hA2 trivial trivial ht

end Steady

/-- `t` comes from `s` by references, port changes and list operations. -/
inductive Prims (s : State) : State → Prop
  | refl : Prims s s
  | get {t : State} (a : Addr) (h : Prims s t) : Prims s (t.addRefs (ref a))
  | put {t : State} (a : Addr) (h : Prims s t) : Prims s (putFblock t a)
  | priv {t : State} (pd : Addr → Cpu → Priv) (h : Prims s t) : Prims s (t.withPriv pd)
  | link {t : State} (us remote : Addr) (h : Prims s t) : Prims s (t.link us remote)
  | unlink {t : State} (us remote : Addr) (h : Prims s t) : Prims s (t.unlink us remote)
  | panic {t : State} (h : Prims s t) : Prims s { t with panicked := true }

namespace Prims

variable {s t : State}

theorem trans {u : State} (h : Prims s t) (h' : Prims t u) : Prims s u := by
  induction h' with
  | refl => exact h
  | get a _ ih => exact ih.get a
  | put a _ ih => exact ih.put a
  | priv pd _ ih => exact ih.priv pd
  | link us remote _ ih => exact ih.link us remote
  | unlink us remote _ ih => exact ih.unlink us remote
  | panic _ ih => exact ih.panic

theorem get_two (h : Prims s t) (a b : Addr) : Prims s (t.addRefs (ref a + ref b)) := by
  rw [← addRefs_addRefs]
  exact (h.get a).get b

theorem registry (h : Prims s t) : t.registry = s.registry := by
  induction h with
  | refl => rfl
  | get a _ ih => exact ih
  | put a _ ih => rw [registry_putFblock, ih]
  | priv pd _ ih => exact ih
  | link us remote _ ih => exact ih
  | unlink us remote _ ih => rw [registry_unlink, ih]
  | panic _ ih => exact ih

theorem subscribe (h : Prims s t) (alloc : Bool) (us remote : Addr) :
    Prims s (subscribeToRemoteFblock alloc t us remote).2 := by
  cases alloc
  · exact h
  · rw [subscribe_eq]
    exact (h.link us remote).get_two us remote

theorem unsubscribe (h : Prims s t) (us remote : Addr) :
    Prims s (unsubscribeFromRemoteFblock t us remote) := by
  by_cases hn : t.notifiers us = []
  · rwa [unsubscribe_eq_of_nil remote hn]
  · rw [unsubscribe_eq_of_ne_nil remote hn]
    exact ((h.unlink us remote).put us).put remote

theorem steady (s : State) : Steady (fun _ => True) (Prims s) where
  get := fun a h => h.get a
  put := fun a h => h.put a
  event := fun _ _ h => h.priv _
  subscribe := fun alloc us remote _ h => h.subscribe alloc us remote
  unsubscribe := fun us remote h => h.unsubscribe us remote
  panic := fun h => h.panic

theorem unbind (h : Prims s t) (fb1 fb2 : Addr) : Prims s (fblockUnbind t fb1 fb2).2 :=
  (steady s).unbind fb1 fb2 h

theorem bind (h : Prims s t) (al : Alloc) (fb1 fb2 : Addr) :
    Prims s (fblockBind al t fb1 fb2).2 :=
  (steady s).bind al trivial trivial h

end Prims

@[simp] theorem registry_fblockUnbind (s : State) (fb1 fb2 : Addr) :
    (fblockUnbind s fb1 fb2).2.registry = s.registry :=
  (Prims.refl.unbind fb1 fb2).registry

@[simp] theorem registry_fblockBind (al : Alloc) (s : State) (fb1 fb2 : Addr) :
    (fblockBind al s fb1 fb2).2.registry = s.registry :=
  (Prims.refl.bind al fb1 fb2).registry

end Lana
