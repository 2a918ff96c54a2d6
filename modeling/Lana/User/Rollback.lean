import Lana.Fblock.Rollback
import Lana.User.Closed

/-!
# What failed bindings leave behind

In every reachable state the CPUs agree on the ports (`calm_run`), so what `__fblock_bind` and
`__fblock_unbind` leave behind when they fail depends on the ports and the notifier lists of the
two blocks: `rejected_bind`, `bind_out_of_memory` and `refused_unbind` say exactly when nothing has
changed.
-/

namespace Lana

open State

/-- No panic, and the CPUs agree on the ports. -/
structure Calm (s : State) : Prop where
  panicked : s.panicked = false
  copies : ∃ P, Copies s P

theorem panicked_unlink (s : State) (us remote : Addr) :
    (s.unlink us remote).panicked = s.panicked := by
  obtain ⟨ns, ss, h⟩ := unlink_shape s us remote
  rw [h]

theorem panicked_unsubscribe (s : State) (us remote : Addr) :
    (unsubscribeFromRemoteFblock s us remote).panicked = s.panicked := by
  by_cases h : s.notifiers us = []
  · rw [unsubscribe_eq_of_nil remote h]
  · rw [unsubscribe_eq_of_ne_nil remote h, panicked_putFblock, panicked_putFblock, panicked_unlink]

theorem panicked_unbind (s : State) (fb1 fb2 : Addr) :
    (fblockUnbind s fb1 fb2).2.panicked = s.panicked := by
  unfold fblockUnbind
  split
  · rename_i u he
    exact (congrArg (fun r => r.2.panicked) he).symm
  rename_i u he
  have hu : u.panicked = s.panicked := (congrArg (fun r => r.2.panicked) he).symm
  split
  · rename_i v he'
    exact (panicked_putFblock ..).trans ((congrArg (fun r => r.2.panicked) he').symm.trans hu)
  · rename_i v he'
    have hv : v.panicked = s.panicked := (congrArg (fun r => r.2.panicked) he').symm.trans hu
    dsimp only
    rw [panicked_putFblock, panicked_putFblock, panicked_unsubscribe, panicked_unsubscribe, hv]

/-- Only the rejection of a binding could panic. -/
theorem panicked_bind (al : Alloc) (s : State) (fb1 fb2 : Addr) :
    (fblockBind al s fb1 fb2).1 = .err .EBUSY ∨
      (fblockBind al s fb1 fb2).2.panicked = s.panicked := by
  unfold fblockBind
  simp only [getFblock_eq, addRefs_addRefs]
  split
  · exact .inl rfl
  rename_i u hu
  have hup : u.panicked = s.panicked := (congrArg (fun r => r.2.panicked) hu).symm
  split
  · split <;> exact .inl rfl
  rename_i v hv
  have hvp : v.panicked = s.panicked := (congrArg (fun r => r.2.panicked) hv).symm.trans hup
  have hsub : ∀ (alloc : Bool) (t : State) (a b : Addr),
      (subscribeToRemoteFblock alloc t a b).2.panicked = t.panicked := by
    intro alloc t a b
    cases alloc <;> rfl
  right
  split
  · rename_i w hw
    rw [panicked_unbind, ← hvp, ← hsub al.fn1 v fb1 fb2, hw]
  · rename_i w hw
    have hwp : w.panicked = s.panicked := by rw [← hvp, ← hsub al.fn1 v fb1 fb2, hw]
    split
    · rename_i x hx
      rw [panicked_unbind, ← hwp, ← hsub al.fn2 w fb2 fb1, hx]
    · rename_i x hx
      rw [← hwp, ← hsub al.fn2 w fb2 fb1, hx]

/-- After an unbinding, whatever its outcome, the CPUs still agree. -/
theorem Copies.unbind {s : State} {P : Addr → Ports} (hP : Copies s P) (fb1 fb2 : Addr) :
    ∃ P', Copies (fblockUnbind s fb1 fb2).2 P' := by
  obtain ⟨-, -, hP', -⟩ | ⟨Q1, -, -, -, hP', -⟩ | ⟨Q1, Q2, -, -, -, hP', -⟩ :=
    fblockUnbind_result hP fb1 fb2
  · exact ⟨_, hP'⟩
  · exact ⟨_, hP'⟩
  · exact ⟨_, hP'⟩

namespace Calm

variable {s : State}

theorem addRefs (h : Calm s) (δ : Addr → ℤ) : Calm (s.addRefs δ) := ⟨h.panicked, h.copies⟩

theorem put (h : Calm s) (a : Addr) : Calm (putFblock s a) := by
  obtain ⟨P, hP⟩ := h.copies
  exact ⟨(panicked_putFblock s a).trans h.panicked, P, hP.putFblock a⟩

theorem subscribe (h : Calm s) (alloc : Bool) (us remote : Addr) :
    Calm (subscribeToRemoteFblock alloc s us remote).2 := by
  cases alloc
  · exact h
  · rw [subscribe_eq]
    exact ⟨h.panicked, h.copies⟩

theorem unsubscribe (h : Calm s) (us remote : Addr) :
    Calm (unsubscribeFromRemoteFblock s us remote) := by
  obtain ⟨P, hP⟩ := h.copies
  exact ⟨(panicked_unsubscribe s us remote).trans h.panicked, P, hP.unsubscribe us remote⟩

theorem unbind (h : Calm s) (fb1 fb2 : Addr) : Calm (fblockUnbind s fb1 fb2).2 := by
  obtain ⟨P, hP⟩ := h.copies
  exact ⟨(panicked_unbind s fb1 fb2).trans h.panicked, hP.unbind fb1 fb2⟩

theorem bind (h : Calm s) (al : Alloc) (fb1 fb2 : Addr) : Calm (fblockBind al s fb1 fb2).2 := by
  obtain ⟨P, hP⟩ := h.copies
  have hpanic : (fblockBind al s fb1 fb2).2.panicked = s.panicked := by
    obtain hbusy | heq := panicked_bind al s fb1 fb2
    · obtain ⟨Q, -, -, -, hpanic, -⟩ := fblockBind_rejected hP hbusy
      exact hpanic
    · exact heq
  refine ⟨hpanic.trans h.panicked, ?_⟩
  obtain (⟨P', -, hP', -⟩ | ⟨Q1, Q2, -, -, -, hP', -⟩) | hfail := fblockBind_cases hP al fb1 fb2
  · exact ⟨_, hP'⟩
  · exact ⟨_, hP'⟩
  · obtain ⟨Q1, Q2, v, -, -, hv, -, -, -, heq⟩ := hfail.undone
    rw [heq]
    split_ifs
    · have hu : Copies ((v.link fb1 fb2).addRefs (ref fb1 + ref fb2)) _ := hv
      exact hu.unbind fb1 fb2
    · exact hv.unbind fb1 fb2

/-- A constructor writes the area of the fresh object alone. -/
theorem ctor (h : Calm s) (ops : FbType) (proc : Bool) (area : Priv) (al : Alloc) (n : CStr) :
    Calm (fbCtor ops proc area al s n).2 := by
  obtain ⟨P, hP⟩ := h.copies
  have hcon : Calm (s.constructed n area ops) := by
    refine ⟨h.panicked, Function.update P s.nextFblock area.ports, fun a c hc => ?_⟩
    by_cases ha : a = s.nextFblock
    · rw [ha, (constructed_new s n area ops).2.1, Function.update_self]
    · rw [(constructed_keep s n area ops ha).2.2.2.1, Function.update_of_ne ha]
      exact hP a c hc
  exact fbCtor_rule h ⟨h.panicked, h.copies⟩ hcon ⟨hcon.panicked, hcon.copies⟩
    (fun _ _ => ⟨hcon.panicked, hcon.copies⟩) proc al

theorem unregister (h : Calm s) (a : Addr) : Calm (unregisterFblockNamespaceNoRcu s a) := by
  obtain ⟨t, m, heq⟩ := unregisterNoRcu_frame s a
  rw [heq]
  exact ⟨h.panicked, h.copies⟩

theorem migrateP (h : Calm s) (dst src : Addr) : Calm (fblockMigrateP s dst src) := by
  obtain ⟨P, hP⟩ := h.copies
  refine ⟨?_, _, hP.migrateP dst src⟩
  rw [migrateP_eq, panicked_putFblock, panicked_putFblock]
  exact h.panicked

theorem migrateR (h : Calm s) (dst src : Addr) : Calm (fblockMigrateR s dst src) := by
  obtain ⟨P, hP⟩ := h.copies
  refine ⟨?_, _, hP.migrateR dst src⟩
  rw [migrateR_eq, panicked_putFblock, panicked_putFblock]
  exact h.panicked

theorem closed : Closed Calm where
  refs := fun δ h => h.addRefs δ
  put := fun a h => h.put a
  subscribe := by
    intro s alloc us remote _ h
    exact h.subscribe alloc us remote
  unsubscribe := fun us remote h => h.unsubscribe us remote
  bind := by
    intro s al fb1 fb2 _ _ h
    exact h.bind al fb1 fb2
  unbind := fun fb1 fb2 h => h.unbind fb1 fb2
  ctor := fun ops proc area al n h => h.ctor ops proc area al n
  unregister := fun a h => h.unregister a
  relabel := fun _ _ h => ⟨h.panicked, h.copies⟩

theorem replace (h : Calm s) (al : Alloc) (n1 n2 : Name) (dropPriv : Bool) :
    Calm (userctlReplace al s n1 n2 dropPriv).2 := by
  obtain ⟨-, hrefused⟩ | ⟨fb1, fb2, f1, f2, h1, h2, hf1, hf2, hcnt⟩ :=
    userctlReplace_cases al s n1 n2 dropPriv
  · exact closed.replaceRefused hrefused h
  · rw [userctlReplace_eq h1 h2 hf1 hf2 hcnt al dropPriv]
    dsimp only
    rw [registerFblock_replaceSteps]
    refine Calm.put (Calm.put ?_ fb1) fb2
    have hex : Calm (exchangePriv (unregisterFblockNamespaceNoRcu (s.addRefs (ref fb1 + ref fb2)) fb2)
        fb1 fb2 (exchanges f1 f2 dropPriv)) := by
      unfold exchangePriv
      split_ifs
      · exact ((h.addRefs _).unregister fb2).migrateP fb2 fb1
      · exact (h.addRefs _).unregister fb2
    have hdel : ∀ i, Calm (radixTreeDelete (fblockMigrateR _ fb2 fb1) i) := fun i =>
      ⟨(hex.migrateR fb2 fb1).panicked, (hex.migrateR fb2 fb1).copies⟩
    have hsteps : Calm (replaceSteps (s.addRefs (ref fb1 + ref fb2)) fb1 fb2
        (exchanges f1 f2 dropPriv)) := (hdel _).put fb1
    exact ⟨hsteps.panicked, hsteps.copies⟩

/-- No command panics or makes the CPUs disagree. -/
theorem exec (h : Calm s) (c : Cmd) : Calm (c.exec s) :=
  closed.exec c h fun n1 n2 dropPriv al _ => h.replace al n1 n2 dropPriv

end Calm

theorem calm_run (online : OnlineCpus) (cmds : List Cmd) : Calm (run (State.init online) cmds) := by
  have hinit : Calm (State.init online) := ⟨rfl, fun _ => Ports.free, fun _ _ _ => rfl⟩
  exact List.foldlRecOn cmds Cmd.exec hinit fun s hs c _ => hs.exec c

/-! ## On the ports of all CPUs -/

/-- On every CPU the event that binds `idp` fills the clone port of the tee, and the event that
takes it back clears the other port. -/
def State.Misplaces (s : State) (fb : Addr) (dir : PathType) (idp : Idp) : Prop :=
  s.ops fb = .tee ∧ idp ≠ idpUnknown ∧ ∀ c ∈ s.online.cpus,
    (s.privateData fb c).port dir = idp ∧ (s.privateData fb c).portClone = idpUnknown

instance (s : State) (fb : Addr) (dir : PathType) (idp : Idp) : Decidable (s.Misplaces fb dir idp) :=
  inferInstanceAs (Decidable (_ ∧ _ ∧ _))

/-- On every CPU a slot that answers for the direction holds the idp. -/
def State.Holds (s : State) (fb : Addr) (dir : PathType) (idp : Idp) : Prop :=
  ∀ c ∈ s.online.cpus, (s.privateData fb c).port dir = idp ∨
    s.ops fb = .tee ∧ (s.privateData fb c).portClone = idp

instance (s : State) (fb : Addr) (dir : PathType) (idp : Idp) : Decidable (s.Holds fb dir idp) :=
  inferInstanceAs (Decidable (∀ c ∈ s.online.cpus, _))

section Agree

variable {s : State} {P : Addr → Ports}

/-- What holds of the ports on every CPU holds of the ports they agree on. -/
theorem Copies.forall_iff (hP : Copies s P) (fb : Addr) (p : Ports → Prop) :
    (∀ c ∈ s.online.cpus, p (s.privateData fb c).ports) ↔ p (P fb) := by
  refine ⟨fun h => ?_, fun h c hc => (hP fb c hc).symm ▸ h⟩
  obtain ⟨c, hc⟩ := List.exists_mem_of_ne_nil _ s.online.nonempty
  exact hP fb c hc ▸ h c hc

theorem Copies.misplaces_iff (hP : Copies s P) (fb : Addr) (dir : PathType) (idp : Idp) :
    s.Misplaces fb dir idp ↔ (P fb).Misplaces (s.ops fb) dir idp := by
  unfold State.Misplaces Ports.Misplaces
  rw [← hP.forall_iff fb fun p => p.port dir = idp ∧ p.clone = idpUnknown]
  rfl

theorem Copies.holds_iff (hP : Copies s P) (fb : Addr) (dir : PathType) (idp : Idp) :
    s.Holds fb dir idp ↔ (P fb).Holds (s.ops fb) dir idp :=
  hP.forall_iff fb fun p => p.Holds (s.ops fb) dir idp

end Agree

/-! ## The three ways to fail -/

/-- **Rejected bindings.** In every reachable state, a binding that returns `-EBUSY` has not
panicked, and it has left all ports, counts and notifier lists as they were exactly if the first
block is not a tee that holds the idp of the second block already and has its clone port free. -/
theorem rejected_bind (online : OnlineCpus) (cmds : List Cmd) (al : Alloc) (fb1 fb2 : Addr)
    (h : (fblockBind al (run (State.init online) cmds) fb1 fb2).1 = .err .EBUSY) :
    let s := run (State.init online) cmds
    (fblockBind al s fb1 fb2).2.panicked = false ∧
      (Unchanged s (fblockBind al s fb1 fb2).2 ↔ ¬ s.Misplaces fb1 .egress (s.idp fb2)) := by
  intro s
  have hcalm := calm_run online cmds
  obtain ⟨P, hP⟩ := hcalm.copies
  refine ⟨(hcalm.bind al fb1 fb2).panicked, ?_⟩
  rw [hP.misplaces_iff]
  exact unchanged_rejected_iff hP h

/-- Two blocks bound to each other, and a third one. -/
def boundRun (type : CStr) : List Cmd :=
  [.add nameA type .ok, .add nameB Factory.dummy.type .ok, .add nameC Factory.dummy.type .ok,
    .bind nameA nameB .ok]

/-- A third block is rejected. -/
theorem rejected_bind_third :
    let s := run (State.init oneCpu) (boundRun Factory.dummy.type)
    Unchanged s (fblockBind .ok s 2 1).2 := by
  intro s
  exact (rejected_bind oneCpu (boundRun Factory.dummy.type) .ok 2 1 (by decide)).2.2 (by decide)

/-- A tee is bound to a block a second time: the block refuses, and the tee loses the port that held
it, not the clone port. -/
theorem rejected_bind_tee :
    let s := run (State.init oneCpu) (boundRun Factory.tee.type)
    let r := fblockBind .ok s 0 1
    r.1 = .err .EBUSY ∧
      (s.privateData 0 0).port .egress = s.idp 1 ∧ (s.privateData 0 0).portClone = idpUnknown ∧
      (r.2.privateData 0 0).port .egress = idpUnknown ∧ (r.2.privateData 0 0).portClone = s.idp 1 := by
  decide

/-- **Bindings out of memory.** In every reachable state, a binding that both blocks accept and
that has no memory for one of its nodes returns `-ENOMEM`, and everything is as before exactly if it
was the first node, neither block had notifiers and neither is a tee that misplaces the idp. -/
theorem bind_out_of_memory (online : OnlineCpus) (cmds : List Cmd) (al : Alloc) (fb1 fb2 : Addr)
    (hb : binds (run (State.init online) cmds) fb1 fb2)
    (hm : al.fn1 = false ∨ al.fn2 = false) :
    let s := run (State.init online) cmds
    (fblockBind al s fb1 fb2).1 = .err .ENOMEM ∧
      (Restored s (fblockBind al s fb1 fb2).2 ↔
        al.fn1 = false ∧ s.notifiers fb1 = [] ∧ s.notifiers fb2 = [] ∧
          ¬ s.Misplaces fb1 .egress (s.idp fb2) ∧ ¬ s.Misplaces fb2 .ingress (s.idp fb1)) := by
  intro s
  obtain ⟨P, hP⟩ := (calm_run online cmds).copies
  rw [hP.misplaces_iff, hP.misplaces_iff]
  exact (bindFailed_of_binds hP hb hm).restored_iff hP rfl

/-- Without other bindings, the failure of the first node is undone. -/
theorem bind_out_of_memory_first :
    let s := run (State.init oneCpu)
      [.add nameA Factory.dummy.type .ok, .add nameB Factory.dummy.type .ok]
    Restored s (fblockBind { fn1 := false } s 0 1).2 := by
  intro s
  exact (bind_out_of_memory oneCpu _ { fn1 := false } 0 1 (by decide) (.inl rfl)).2.2 (by decide)

/-- The failure of the first node takes references of an earlier binding; the failure of the second
leaves the first on the chain of the other block. -/
theorem bind_out_of_memory_changes :
    let s := run (State.init oneCpu) (boundRun Factory.dummy.type)
    let r1 := fblockBind { fn1 := false } s 1 2
    let r2 := fblockBind { fn2 := false } s 1 2
    r1.1 = .err .ENOMEM ∧ r1.2.refcnt 2 = s.refcnt 2 - 1 ∧
      r2.1 = .err .ENOMEM ∧ s.subscribers 2 = [] ∧ r2.2.subscribers 2 ≠ [] := by
  decide

/-- **Refused unbindings.** In every reachable state, an unbinding that returns an error has left
all ports, counts and notifier lists as they were exactly if the first block does not hold the idp
of the second. -/
theorem refused_unbind (online : OnlineCpus) (cmds : List Cmd) (fb1 fb2 : Addr) (e : Errno)
    (h : (fblockUnbind (run (State.init online) cmds) fb1 fb2).1 = .err e) :
    let s := run (State.init online) cmds
    Unchanged s (fblockUnbind s fb1 fb2).2 ↔ ¬ s.Holds fb1 .egress (s.idp fb2) := by
  intro s
  obtain ⟨P, hP⟩ := (calm_run online cmds).copies
  rw [hP.holds_iff]
  exact unchanged_refused_iff hP h

/-- Blocks that are not bound to each other. -/
theorem refused_unbind_unbound :
    let s := run (State.init oneCpu) (boundRun Factory.dummy.type)
    Unchanged s (fblockUnbind s 1 2).2 := by
  intro s
  exact (refused_unbind oneCpu (boundRun Factory.dummy.type) 1 2 .EBUSY (by decide)).2 (by decide)

/-- The second block has been replaced without its private data: it refuses after the first has
given up its port and a reference. -/
theorem refused_unbind_replaced :
    let s := run (State.init oneCpu)
      (boundRun Factory.dummy.type ++ [.replace nameB nameC true .ok])
    let r := fblockUnbind s 0 2
    s.fblmap (s.idp 0) = some 0 ∧ s.fblmap (s.idp 2) = some 2 ∧ r.1 = .err .EBUSY ∧
      (s.privateData 0 0).port .egress = s.idp 2 ∧
      (r.2.privateData 0 0).port .egress = idpUnknown ∧ r.2.refcnt 0 = s.refcnt 0 - 1 := by
  decide

end Lana
