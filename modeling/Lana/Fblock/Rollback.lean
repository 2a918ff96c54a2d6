import Lana.Fblock.Binding

/-!
# Bindings that are taken back

A binding is taken back by value: `FBLOCK_UNBIND_IDP` names the idp, not the slot that
`FBLOCK_BIND_IDP` has filled.  For a tee whose port already holds that idp the two differ
(`Ports.Misplaces`).  `__fblock_bind` takes back one half with one event (`fblockBind_rejected`),
and a whole binding with `__fblock_unbind` when a notifier cannot be allocated.
-/

namespace Lana

open State

namespace Ports

/-- The clone port takes the idp and the other port, which holds it already, gives it up. -/
def Misplaces (t : FbType) (dir : PathType) (idp : Idp) (p : Ports) : Prop :=
  t = .tee ∧ idp ≠ idpUnknown ∧ p.port dir = idp ∧ p.clone = idpUnknown

variable {t t1 t2 : FbType} {dir : PathType} {idp : Idp} {p q r : Ports}

/-- An event followed by its opposite gives the ports back, unless it misplaces the idp. -/
theorem unbind_bind_iff (hb : p.bind t dir idp = some q) (hu : q.unbind t dir idp = some r) :
    r = p ↔ ¬ p.Misplaces t dir idp := by
  obtain ⟨hfree, rfl⟩ | ⟨hfree, htee, hclone, rfl⟩ := bind_cases hb
  · -- the port was free and is free again
    rw [unbind_of_port (set_self p dir idp), Option.some.injEq, set_set, ← hfree, set_port] at hu
    exact ⟨fun _ hm => hm.2.1 (hm.2.2.1.symm.trans hfree), fun _ => hu.symm⟩
  · obtain ⟨hport, rfl⟩ | ⟨hport, -, -, rfl⟩ := unbind_cases hu
    · -- the port is cleared in place of the clone
      refine ⟨fun heq => ?_, fun hm => ?_⟩
      · have hcleared := congrArg (fun x => x.port dir) heq
        rw [set_self] at hcleared
        exact absurd hcleared.symm hfree
      · exact absurd ⟨htee, fun h0 => hfree (hport.trans h0), hport, hclone⟩ hm
    · rw [← hclone]
      exact ⟨fun _ hm => hport hm.2.2.1, fun _ => rfl⟩

theorem set_comm (p : Ports) {d e : PathType} (h : d ≠ e) (i j : Idp) :
    (p.set d i).set e j = (p.set e j).set d i := by
  unfold set
  rw [Function.update_comm h]

theorem set_of_ne (p : Ports) {d e : PathType} (h : d ≠ e) (i : Idp) :
    (p.set e i).port d = p.port d := Function.update_of_ne h ..

/-- The binding of one direction does not look at the other port. -/
theorem bind_set_of_ne {d e : PathType} (h : d ≠ e) {i : Idp}
    (hb : (p.set e i).bind t d idp = some r) :
    ∃ q, p.bind t d idp = some q ∧ q.port e = p.port e ∧ r = q.set e i := by
  obtain ⟨hfree, rfl⟩ | ⟨hfree, htee, hclone, rfl⟩ := bind_cases hb
  · rw [set_of_ne p h] at hfree
    exact ⟨_, bind_of_free hfree t idp, set_of_ne p h.symm idp, set_comm p h.symm i idp⟩
  · rw [set_of_ne p h] at hfree
    exact ⟨_, bind_of_clone hfree htee hclone idp, rfl, rfl⟩

/-- The two halves of a binding of a block to itself, taken back in the same order. -/
theorem undo_self (h1 : p.bind t .egress idp = some q) (h2 : q.bind t .ingress idp = some r) :
    ∃ q' r', r.unbind t .egress idp = some q' ∧ q'.unbind t .ingress idp = some r' ∧
      (r' = p ↔ ¬ p.Misplaces t .egress idp ∧ ¬ p.Misplaces t .ingress idp) := by
  have hne : (PathType.ingress) ≠ .egress := by decide
  obtain ⟨hfree, rfl⟩ | ⟨hfree, htee, hclone, rfl⟩ := bind_cases h1
  · -- egress is bound and unbound around the ingress half
    obtain ⟨q', hq', hport, rfl⟩ := bind_set_of_ne hne h2
    obtain ⟨r', hr'⟩ := unbind_of_bind hq'
    refine ⟨q', r', ?_, hr', ?_⟩
    · rw [unbind_of_port (set_self q' .egress idp), set_set, ← hfree, ← hport, set_port]
    · rw [unbind_bind_iff hq' hr']
      exact ⟨fun h => ⟨fun hm => hm.2.1 (hm.2.2.1.symm.trans hfree), h⟩, And.right⟩
  have hself : ({ p with clone := idpUnknown } : Ports) = p := by rw [← hclone]
  obtain ⟨hin, rfl⟩ | ⟨hin, -, hidp, rfl⟩ := bind_cases h2
  · let c : Ports := { p with clone := idp }
    have hegress : (c.set .ingress idp).port .egress = p.port .egress := set_of_ne c hne.symm idp
    by_cases he : p.port .egress = idp
    · -- the egress port loses the idp it had before
      have hingress : ((c.set .ingress idp).set .egress idpUnknown).port .ingress = idp :=
        (set_of_ne _ hne idpUnknown).trans (set_self c .ingress idp)
      refine ⟨_, _, unbind_of_port (hegress.trans he) t, unbind_of_port hingress t, fun heq => ?_,
        fun h => absurd ⟨htee, fun h0 => hfree (he.trans h0), he, hclone⟩ h.1⟩
      have hcleared := congrArg (fun x => x.port .egress) heq
      rw [set_of_ne _ hne.symm, set_self] at hcleared
      exact absurd hcleared.symm hfree
    · have hingress : ({ c.set .ingress idp with clone := idpUnknown } : Ports).port .ingress = idp :=
        set_self c .ingress idp
      refine ⟨_, _, unbind_of_clone (fun h => he (hegress.symm.trans h)) htee rfl,
        unbind_of_port hingress t, fun _ => ⟨fun hm => he hm.2.2.1, fun hm => ?_⟩, fun _ => ?_⟩
      · exact hm.2.1 (hm.2.2.1.symm.trans hin)
      · show ({ p with clone := idpUnknown }.set .ingress idp).set .ingress idpUnknown = p
        have hin' : p.port .ingress = idpUnknown := hin
        rw [hself, set_set, ← hin', set_port]
  · -- the clone port takes both, so the idp is 0
    obtain rfl : idp = idpUnknown := hidp
    rw [hself]
    have hegress := (unbind_of_clone hfree htee hclone).trans (congrArg some hself)
    have hingress := (unbind_of_clone hin htee rfl).trans (congrArg some hself)
    rw [hself] at hingress
    exact ⟨p, p, hegress, hingress, fun _ => ⟨fun hm => hm.2.1 rfl, fun hm => hm.2.1 rfl⟩,
      fun _ => rfl⟩

theorem bind_of_misplaces (h : p.Misplaces t dir idp) :
    p.bind t dir idp = some { p with clone := idp } :=
  bind_of_clone (fun h0 => h.2.1 (h.2.2.1.symm.trans h0)) h.1 h.2.2.2 idp

end Ports

/-- A binding taken back by an unbinding: both halves go through, and the ports are as before
unless one of them misplaces its idp. -/
theorem undo_ports {P : Addr → Ports} {ops : Addr → FbType} {idp : Addr → Idp} {fb1 fb2 : Addr}
    {Q1 Q2 : Ports} (h1 : (P fb1).bind (ops fb1) .egress (idp fb2) = some Q1)
    (h2 : (Function.update P fb1 Q1 fb2).bind (ops fb2) .ingress (idp fb1) = some Q2) :
    let P2 := Function.update (Function.update P fb1 Q1) fb2 Q2
    ∃ Q3 Q4, (P2 fb1).unbind (ops fb1) .egress (idp fb2) = some Q3 ∧
      (Function.update P2 fb1 Q3 fb2).unbind (ops fb2) .ingress (idp fb1) = some Q4 ∧
      (Function.update (Function.update P2 fb1 Q3) fb2 Q4 = P ↔
        ¬ (P fb1).Misplaces (ops fb1) .egress (idp fb2) ∧
          ¬ (P fb2).Misplaces (ops fb2) .ingress (idp fb1)) := by
  intro P2
  by_cases hne : fb2 = fb1
  · subst hne
    rw [Function.update_self] at h2
    obtain ⟨Q3, Q4, h3, h4, hiff⟩ := Ports.undo_self h1 h2
    have hP2 : P2 = Function.update P fb2 Q2 := Function.update_idem ..
    refine ⟨Q3, Q4, ?_, ?_, ?_⟩
    · rw [hP2, Function.update_self]
      exact h3
    · rw [Function.update_self]
      exact h4
    · rw [hP2, Function.update_idem, Function.update_idem, Function.update_eq_self_iff]
      exact hiff
  · rw [Function.update_of_ne hne] at h2
    obtain ⟨Q3, h3⟩ := Ports.unbind_of_bind h1
    obtain ⟨Q4, h4⟩ := Ports.unbind_of_bind h2
    have hP2 : P2 fb1 = Q1 := by
      show Function.update (Function.update P fb1 Q1) fb2 Q2 fb1 = Q1
      rw [Function.update_of_ne (Ne.symm hne), Function.update_self]
    refine ⟨Q3, Q4, hP2 ▸ h3, ?_, ?_⟩
    · rw [Function.update_of_ne hne]
      show (Function.update (Function.update P fb1 Q1) fb2 Q2 fb2).unbind _ _ _ = _
      rw [Function.update_self]
      exact h4
    · rw [← Ports.unbind_bind_iff h1 h3, ← Ports.unbind_bind_iff h2 h4]
      have hP4 : Function.update (Function.update P2 fb1 Q3) fb2 Q4 =
          Function.update (Function.update P fb1 Q3) fb2 Q4 := by
        funext x
        simp only [P2, Function.update_apply]
        split_ifs <;> rfl
      rw [hP4]
      refine ⟨fun heq => ⟨?_, ?_⟩, fun ⟨hq3, hq4⟩ => ?_⟩
      · have := congrFun heq fb1
        rwa [Function.update_of_ne (Ne.symm hne), Function.update_self] at this
      · have := congrFun heq fb2
        rwa [Function.update_self] at this
      · rw [hq3, Function.update_eq_self, hq4, Function.update_eq_self]

/-! ## CPUs that are not online -/

theorem forEachOnlineCpu_offline (f : Priv → Option Priv) {c : Cpu} :
    ∀ {cpus : List Cpu}, c ∉ cpus → ∀ priv, (forEachOnlineCpu f cpus priv).2 c = priv c := by
  intro cpus
  induction cpus with
  | nil => exact fun _ _ => rfl
  | cons d cpus ih =>
    intro hc priv
    rw [List.mem_cons, not_or] at hc
    unfold forEachOnlineCpu
    split
    · rfl
    · rw [ih hc.2, Function.update_of_ne hc.1]

/-- An event leaves the areas of the other CPUs alone. -/
theorem eventRx_offline (s : State) (fb : Addr) (ev : FbEvent) (a : Addr) {c : Cpu}
    (hc : c ∉ s.online.cpus) : (eventRx s fb ev).2.privateData a c = s.privateData a c := by
  have hev : ((s.ops fb).event ev s.online.cpus (s.privateData fb)).2 c = s.privateData fb c := by
    cases ev
    case bindIdp dir idp =>
      rw [event_bind]
      exact forEachOnlineCpu_offline _ hc _
    case unbindIdp dir idp =>
      rw [event_unbind]
      exact forEachOnlineCpu_offline _ hc _
    all_goals cases s.ops fb <;> rfl
  show Function.update s.privateData fb _ a c = _
  by_cases ha : a = fb
  · subst ha
    rw [Function.update_self]
    exact hev
  · rw [Function.update_of_ne ha]

/-- The areas of CPUs that are not online are the same. -/
def SameOffline (s t : State) : Prop :=
  ∀ a, ∀ c ∉ s.online.cpus, (t.privateData a c).ports = (s.privateData a c).ports

namespace SameOffline

variable {s t u : State}

theorem refl (s : State) : SameOffline s s := fun _ _ _ => rfl

theorem put (h : SameOffline s t) (a : Addr) : SameOffline s (putFblock t a) := fun b c hc =>
  (ports_putFblock t a b c).trans (h b c hc)

theorem event (h : SameOffline s t) (ho : t.online = s.online) (fb : Addr) (ev : FbEvent) :
    SameOffline s (eventRx t fb ev).2 := fun a c hc => by
  rw [eventRx_offline t fb ev a (ho ▸ hc)]
  exact h a c hc

theorem unlink (h : SameOffline s t) (us remote : Addr) : SameOffline s (t.unlink us remote) :=
  fun a c hc => by
    rw [privateData_unlink]
    exact h a c hc

theorem unsubscribe (h : SameOffline s t) (us remote : Addr) :
    SameOffline s (unsubscribeFromRemoteFblock t us remote) := by
  by_cases hn : t.notifiers us = []
  · rwa [unsubscribe_eq_of_nil remote hn]
  · rw [unsubscribe_eq_of_ne_nil remote hn]
    exact ((h.unlink us remote).put us).put remote

theorem subscribe (h : SameOffline s t) (alloc : Bool) (us remote : Addr) :
    SameOffline s (subscribeToRemoteFblock alloc t us remote).2 := by
  cases alloc
  · exact h
  · rw [subscribe_eq]
    exact h

theorem steady (s : State) :
    Steady (fun _ => True) fun t => t.online = s.online ∧ SameOffline s t where
  get := fun _ h => h
  put := fun {t} a h =>
    ⟨(congrArg Registry.online (registry_putFblock t a)).trans h.1, h.2.put a⟩
  event := fun fb ev h => ⟨h.1, h.2.event h.1 fb ev⟩
  subscribe := fun {t} alloc us remote _ h =>
    ⟨(congrArg Registry.online (registry_subscribe alloc t us remote)).trans h.1,
      h.2.subscribe alloc us remote⟩
  unsubscribe := fun {t} us remote h =>
    ⟨(congrArg Registry.online (registry_unsubscribe t us remote)).trans h.1,
      h.2.unsubscribe us remote⟩
  panic := fun h => h

theorem unbind (s : State) (fb1 fb2 : Addr) : SameOffline s (fblockUnbind s fb1 fb2).2 :=
  ((steady s).unbind fb1 fb2 ⟨rfl, refl s⟩).2

theorem bind (s : State) (al : Alloc) (fb1 fb2 : Addr) :
    SameOffline s (fblockBind al s fb1 fb2).2 :=
  ((steady s).bind al trivial trivial ⟨rfl, refl s⟩).2

end SameOffline

/-! ## A binding that is rejected -/

@[simp] theorem panicked_putFblock (s : State) (a : Addr) :
    (putFblock s a).panicked = s.panicked := by
  obtain ⟨pd, rel, h⟩ := putFblock_shape s a
  rw [h]

section Rejected

variable {s : State} {P : Addr → Ports} {fb1 fb2 : Addr} {al : Alloc}

/-- The ports of all blocks on all CPUs, the counts and the notifier lists are the same. -/
structure Unchanged (s t : State) : Prop where
  ports : ∀ a c, (t.privateData a c).ports = (s.privateData a c).ports
  refcnt : t.refcnt = s.refcnt
  notifiers : t.notifiers = s.notifiers

/-- The ports are the same if the CPUs agree on the same ports as before. -/
theorem Copies.ports_iff {t : State} {P' : Addr → Ports} (hP : Copies s P) (ht : Copies t P')
    (ho : t.online = s.online) (hoff : SameOffline s t) :
    (∀ a c, (t.privateData a c).ports = (s.privateData a c).ports) ↔ P' = P := by
  refine ⟨fun h => funext fun a => ?_, ?_⟩
  · obtain ⟨c, hc⟩ := List.exists_mem_of_ne_nil _ s.online.nonempty
    rw [← hP a c hc, ← ht a c (ho ▸ hc), h]
  · rintro rfl a c
    by_cases hc : c ∈ s.online.cpus
    · rw [hP a c hc, ht a c (ho ▸ hc)]
    · exact hoff a c hc

/-- The state after a rejected binding: the first block refuses, or it accepts and takes the event
back after the second has refused. -/
theorem fblockBind_rejected (hP : Copies s P) (h : (fblockBind al s fb1 fb2).1 = .err .EBUSY) :
    ∃ Q, Copies (fblockBind al s fb1 fb2).2 (Function.update P fb1 Q) ∧
      (fblockBind al s fb1 fb2).2.lists = s.lists ∧
      (fblockBind al s fb1 fb2).2.refcnt = s.refcnt ∧
      (fblockBind al s fb1 fb2).2.panicked = s.panicked ∧
      ((P fb1).bind (s.ops fb1) .egress (s.idp fb2) = none ∧ Q = P fb1 ∨
        ∃ Q1, (P fb1).bind (s.ops fb1) .egress (s.idp fb2) = some Q1 ∧
          Q1.unbind (s.ops fb1) .egress (s.idp fb2) = some Q) := by
  unfold fblockBind at h ⊢
  simp only [getFblock_eq, addRefs_addRefs] at h ⊢
  set t := s.addRefs (ref fb1 + ref fb2) with ht
  have hPt : Copies t P := hP
  -- the references of the call cancel
  have hput : ∀ pd, (putFblock (putFblock (t.withPriv pd) fb1) fb2).refcnt = s.refcnt := by
    intro pd
    rw [refcnt_putFblock, refcnt_putFblock]
    show s.refcnt + (ref fb1 + ref fb2) - ref fb1 - ref fb2 = s.refcnt
    abel
  obtain ⟨h1, e1⟩ | ⟨Q1, pd1, h1, e1, hP1, -⟩ := eventRx_bind hPt fb1 .egress (t.idp fb2)
  · rw [e1]
    refine ⟨P fb1, ?_, by simp [ht], hput t.privateData, ?_, .inl ⟨h1, rfl⟩⟩
    · rw [Function.update_eq_self]
      exact (hPt.putFblock fb1).putFblock fb2
    · dsimp only
      rw [panicked_putFblock, panicked_putFblock]
      rfl
  rw [e1] at h ⊢
  dsimp only at h ⊢
  obtain ⟨h2, e2⟩ | ⟨Q2, pd2, h2, e2, hP2, -⟩ :=
    eventRx_bind hP1 fb2 .ingress ((t.withPriv pd1).idp fb1)
  · rw [e2]
    dsimp only
    obtain ⟨Q, hQ⟩ := Ports.unbind_of_bind h1
    obtain ⟨h3, -⟩ | ⟨Q3, pd3, h3, e3, hP3, -⟩ :=
      eventRx_unbind hP1 fb1 .egress ((t.withPriv pd1).idp fb2)
    · -- the port just bound can be unbound
      rw [Function.update_self] at h3
      exact absurd (h3.symm.trans hQ) nofun
    · rw [e3]
      rw [Function.update_self] at h3
      rw [Function.update_idem] at hP3
      refine ⟨Q3, (hP3.putFblock fb1).putFblock fb2, by simp [ht], hput pd3, ?_,
        .inr ⟨Q1, h1, h3⟩⟩
      dsimp only
      rw [panicked_putFblock, panicked_putFblock]
      rfl
  · rw [e2] at h
    dsimp only at h
    split at h
    · cases h
    · split at h <;> cases h

/-- A rejected binding changes nothing exactly if it does not misplace the idp of the second
block. -/
theorem unchanged_rejected_iff (hP : Copies s P) (h : (fblockBind al s fb1 fb2).1 = .err .EBUSY) :
    Unchanged s (fblockBind al s fb1 fb2).2 ↔
      ¬ (P fb1).Misplaces (s.ops fb1) .egress (s.idp fb2) := by
  obtain ⟨Q, hQ, hlists, href, -, hhow⟩ := fblockBind_rejected hP h
  have hports := hP.ports_iff hQ (congrArg Registry.online (registry_fblockBind al s fb1 fb2))
    (SameOffline.bind s al fb1 fb2)
  have hiff : Unchanged s (fblockBind al s fb1 fb2).2 ↔ Q = P fb1 := by
    rw [Function.update_eq_self_iff] at hports
    rw [← hports]
    exact ⟨Unchanged.ports, fun hp => ⟨hp, href, congrArg Lists.notifiers hlists⟩⟩
  rw [hiff]
  obtain ⟨hnone, rfl⟩ | ⟨Q1, hb, hu⟩ := hhow
  · refine ⟨fun _ hm => ?_, fun _ => rfl⟩
    rw [Ports.bind_of_misplaces hm] at hnone
    cases hnone
  · exact Ports.unbind_bind_iff hb hu

end Rejected

/-! ## A binding that runs out of memory -/

/-- The ports, counts, notifier lists and subscriber chains of all blocks are the same. -/
structure Restored (s t : State) : Prop extends Unchanged s t where
  subscribers : t.subscribers = s.subscribers

/-- The removal of a node leaves everything alone, or shortens the list. -/
theorem Lists.unlink_eq_or_shorter (l : Lists) (i : Idp) (us remote : Addr) :
    l.unlink i us remote = l ∨
      ((l.unlink i us remote).notifiers us).length < (l.notifiers us).length := by
  unfold Lists.unlink
  rcases hl : l.notifiers us with _ | ⟨fn, rest⟩
  · exact .inl rfl
  · dsimp only
    split_ifs
    · right
      dsimp only
      rw [Function.update_self]
      exact Nat.lt_succ_self _
    · split
      · exact .inl rfl
      · rename_i f1 hf
        right
        have hmem := List.mem_of_find?_eq_some hf
        have := List.length_erase_of_mem hmem
        have := List.length_pos_of_mem hmem
        dsimp only
        rw [Function.update_self, List.length_cons, List.length_cons]
        omega

section OutOfMemory

variable {s : State} {P : Addr → Ports} {fb1 fb2 : Addr} {al : Alloc} {r : Ret × State}

/-- The failed binding restores everything: the first node could not be allocated, neither block has
nodes that the unbinding would take for it, and no idp is misplaced. -/
def Restores (al : Alloc) (s : State) (P : Addr → Ports) (fb1 fb2 : Addr) : Prop :=
  al.fn1 = false ∧ s.notifiers fb1 = [] ∧ s.notifiers fb2 = [] ∧
    ¬ (P fb1).Misplaces (s.ops fb1) .egress (s.idp fb2) ∧
    ¬ (P fb2).Misplaces (s.ops fb2) .ingress (s.idp fb1)

/-- The lists after a failed binding whose second node could not be allocated differ. -/
theorem not_restored_of_link {l l' : Lists} {i1 i2 : Idp}
    (h : l' = ((l.link i2 fb1 fb2).unlink i2 fb1 fb2).unlink i1 fb2 fb1) :
    ¬ (l'.notifiers = l.notifiers ∧ l'.subscribers = l.subscribers) := by
  rintro ⟨hn, hs⟩
  rw [Lists.unlink_link] at h
  obtain heq | hlt := Lists.unlink_eq_or_shorter
    { l.link i2 fb1 fb2 with notifiers := l.notifiers } i1 fb2 fb1
  · -- the first node is still on the chain of the second block
    have hsub : l'.subscribers fb2 = l.subscribers fb2 ++ [l.nextNode] := by
      rw [h, heq]
      exact Function.update_self ..
    have := congrArg List.length hsub
    rw [hs, List.length_append] at this
    exact absurd this (by simp)
  · rw [← h, hn] at hlt
    exact lt_irrefl _ hlt

/-- The references that an unbinding gives back beyond those of the call. -/
theorem refcnt_undone_iff {f : Addr → ℤ} {a b : Addr} {p q : Prop} [Decidable p] [Decidable q] :
    f + (ref a + ref b) - ref a - ref b - (if p then 0 else ref a + ref b) -
      (if q then 0 else ref a + ref b) = f ↔ p ∧ q := by
  have hpos : 1 ≤ (ref a + ref b) a := by
    rw [Pi.add_apply, ref_self]
    have := ref_nonneg b a
    omega
  have hsub : f + (ref a + ref b) - ref a - ref b = f := by abel
  rw [hsub]
  refine ⟨fun h => ?_, fun ⟨hp, hq⟩ => by rw [if_pos hp, if_pos hq, sub_zero, sub_zero]⟩
  have ha := congrFun h a
  simp only [Pi.sub_apply] at ha
  by_cases hp : p
  · by_cases hq : q
    · exact ⟨hp, hq⟩
    · rw [if_pos hp, if_neg hq, Pi.zero_apply] at ha
      omega
  · rw [if_neg hp] at ha
    split_ifs at ha
    · rw [Pi.zero_apply] at ha
      omega
    · omega

/-- The unbinding that takes a whole binding back goes through. -/
theorem unbind_undoes {u : State} {Q1 Q2 : Ports} (hreg : u.registry = s.registry)
    (hu : Copies u (Function.update (Function.update P fb1 Q1) fb2 Q2))
    (hb1 : (P fb1).bind (s.ops fb1) .egress (s.idp fb2) = some Q1)
    (hb2 : (Function.update P fb1 Q1 fb2).bind (s.ops fb2) .ingress (s.idp fb1) = some Q2) :
    ∃ P', Copies (fblockUnbind u fb1 fb2).2 P' ∧
      (fblockUnbind u fb1 fb2).2.lists =
        (u.lists.unlink (s.idp fb2) fb1 fb2).unlink (s.idp fb1) fb2 fb1 ∧
      (fblockUnbind u fb1 fb2).2.refcnt = u.refcnt - ref fb1 - ref fb2 -
        (if u.notifiers fb1 = [] then 0 else ref fb1 + ref fb2) -
        (if (u.lists.unlink (s.idp fb2) fb1 fb2).notifiers fb2 = [] then 0
          else ref fb1 + ref fb2) ∧
      (P' = P ↔ ¬ (P fb1).Misplaces (s.ops fb1) .egress (s.idp fb2) ∧
        ¬ (P fb2).Misplaces (s.ops fb2) .ingress (s.idp fb1)) := by
  have hidp : u.idp = s.idp := congrArg Registry.idp hreg
  have hops : u.ops = s.ops := congrArg Registry.ops hreg
  obtain ⟨Q3, Q4, hu3, hu4, hiff⟩ := undo_ports hb1 hb2
  have hresult := fblockUnbind_result hu fb1 fb2
  obtain ⟨hx, -⟩ | ⟨Q, hx1, hx2, -⟩ | ⟨Q, Q', hx1, hx2, -, hP', hl', href'⟩ := hresult
  · rw [hops, hidp] at hx
    cases hx.symm.trans hu3
  · rw [hops, hidp] at hx1 hx2
    cases hx1.symm.trans hu3
    cases hx2.symm.trans hu4
  · rw [hops, hidp] at hx1 hx2
    rw [hidp] at hl' href'
    cases hx1.symm.trans hu3
    cases hx2.symm.trans hu4
    exact ⟨_, hP', hl', href', hiff⟩

/-- The unbinding puts references that the call has not taken, unless neither block has nodes. -/
theorem refcnt_restored_iff {t : State}
    (href : t.refcnt = s.refcnt + (ref fb1 + ref fb2) - ref fb1 - ref fb2 -
      (if s.notifiers fb1 = [] then 0 else ref fb1 + ref fb2) -
      (if (s.lists.unlink (s.idp fb2) fb1 fb2).notifiers fb2 = [] then 0 else ref fb1 + ref fb2)) :
    t.refcnt = s.refcnt ↔ s.notifiers fb1 = [] ∧ s.notifiers fb2 = [] := by
  rw [href, refcnt_undone_iff]
  refine and_congr_right fun hn1 => ?_
  rw [Lists.unlink_of_nil hn1]
  rfl

theorem BindFailed.restored_iff (h : BindFailed al s P fb1 fb2 r) (hP : Copies s P)
    (hr : r = fblockBind al s fb1 fb2) :
    r.1 = .err .ENOMEM ∧ (Restored s r.2 ↔ Restores al s P fb1 fb2) := by
  have hoff : SameOffline s r.2 := hr ▸ SameOffline.bind s al fb1 fb2
  have ho : r.2.online = s.online :=
    congrArg Registry.online (hr ▸ registry_fblockBind al s fb1 fb2)
  obtain ⟨Q1, Q2, v, hb1, hb2, hv, hreg, hlists, href, hundo⟩ := h.undone
  refine ⟨congrArg Prod.fst hundo, ?_⟩
  rcases hfn1 : al.fn1
  · rw [hfn1, if_neg Bool.false_ne_true] at hundo
    obtain ⟨P', hP', hl', href', hiff⟩ := unbind_undoes hreg hv hb1 hb2
    have hn : v.notifiers = s.notifiers := congrArg Lists.notifiers hlists
    rw [hlists, ← congrArg Prod.snd hundo] at hl'
    rw [hlists, href, hn, ← congrArg Prod.snd hundo] at href'
    rw [← congrArg Prod.snd hundo] at hP'
    rw [← hP.ports_iff hP' ho hoff] at hiff
    have hcnt := refcnt_restored_iff href'
    constructor
    · intro hR
      obtain ⟨hn1, hn2⟩ := hcnt.1 hR.refcnt
      exact ⟨hfn1, hn1, hn2, hiff.1 hR.ports⟩
    · rintro ⟨-, hn1, hn2, hmis⟩
      have hfirst : s.lists.unlink (s.idp fb2) fb1 fb2 = s.lists := Lists.unlink_of_nil hn1 ..
      have hsame : r.2.lists = s.lists := by
        rw [hl', hfirst]
        exact Lists.unlink_of_nil hn2 ..
      exact ⟨⟨hiff.2 hmis, hcnt.2 ⟨hn1, hn2⟩, congrArg Lists.notifiers hsame⟩,
        congrArg Lists.subscribers hsame⟩
  · rw [hfn1, if_pos rfl] at hundo
    have hu : Copies ((v.link fb1 fb2).addRefs (ref fb1 + ref fb2)) _ := hv
    obtain ⟨P', -, hl', -⟩ :=
      unbind_undoes (u := (v.link fb1 fb2).addRefs (ref fb1 + ref fb2)) hreg hu hb1 hb2
    have hidp : v.idp = s.idp := congrArg Registry.idp hreg
    rw [lists_addRefs, lists_link, hlists, hidp, ← congrArg Prod.snd hundo] at hl'
    refine ⟨fun hR => absurd ⟨hR.notifiers, hR.subscribers⟩ (not_restored_of_link hl'), ?_⟩
    rintro ⟨hfn, -⟩
    cases hfn.symm.trans hfn1

/-- A binding that both blocks accept and that has no memory for a node returns `-ENOMEM`. -/
theorem fblockBind_no_memory (hb : binds s fb1 fb2) (hm : al.fn1 = false ∨ al.fn2 = false) :
    (fblockBind al s fb1 fb2).1 = .err .ENOMEM := by
  unfold fblockBind
  simp only [getFblock_eq, addRefs_addRefs]
  set t := s.addRefs (ref fb1 + ref fb2)
  obtain ⟨h1, h2⟩ : binds t fb1 fb2 := hb
  rcases he1 : eventRx t fb1 (.bindIdp .egress (t.idp fb2)) with ⟨_ | _, u⟩
  · dsimp only
    have hu : u.idp fb1 = t.idp fb1 := by
      rw [show u = (eventRx t fb1 (.bindIdp .egress (t.idp fb2))).2 from (congrArg Prod.snd he1).symm]
      rfl
    rw [he1, ← hu] at h2
    rcases he2 : eventRx u fb2 (.bindIdp .ingress (u.idp fb1)) with ⟨_ | _, v⟩
    · dsimp only
      split
      · rfl
      · rename_i w hw
        split
        · rfl
        · -- both nodes would have been allocated
          rename_i x hx
          obtain hfn | hfn := hm
          · rw [hfn] at hw
            cases hw
          · rw [hfn] at hx
            cases hx
    · rw [he2] at h2
      cases h2
  · rw [he1] at h1
    cases h1

theorem bindFailed_of_binds (hP : Copies s P) (hb : binds s fb1 fb2)
    (hm : al.fn1 = false ∨ al.fn2 = false) :
    BindFailed al s P fb1 fb2 (fblockBind al s fb1 fb2) := by
  have hret := fblockBind_no_memory hb hm
  obtain h | h := fblockBind_cases hP al fb1 fb2
  · obtain ⟨-, hbusy, -⟩ | ⟨-, -, -, -, hok, -⟩ := h
    · cases hbusy.symm.trans hret
    · cases hok.symm.trans hret
  · exact h

end OutOfMemory

/-! ## An unbinding that is refused -/

section Refused

variable {s : State} {P : Addr → Ports} {fb1 fb2 : Addr}

/-- A slot that answers for the direction holds the idp. -/
def Ports.Holds (t : FbType) (dir : PathType) (idp : Idp) (p : Ports) : Prop :=
  p.port dir = idp ∨ t = .tee ∧ p.clone = idp

theorem Ports.unbind_eq_none_iff {t : FbType} {dir : PathType} {idp : Idp} {p : Ports} :
    p.unbind t dir idp = none ↔ ¬ p.Holds t dir idp := by
  unfold unbind Holds
  split_ifs with h1 h2
  · exact ⟨nofun, fun h => absurd (.inl h1) h⟩
  · exact ⟨nofun, fun h => absurd (.inr h2) h⟩
  · exact ⟨fun _ h => h.elim h1 h2, fun _ => rfl⟩

/-- An unbinding that returns an error changes nothing exactly if it is the first block that
refuses. -/
theorem unchanged_refused_iff (hP : Copies s P) {e : Errno}
    (h : (fblockUnbind s fb1 fb2).1 = .err e) :
    Unchanged s (fblockUnbind s fb1 fb2).2 ↔ ¬ (P fb1).Holds (s.ops fb1) .egress (s.idp fb2) := by
  rw [← Ports.unbind_eq_none_iff]
  have ho : (fblockUnbind s fb1 fb2).2.online = s.online :=
    congrArg Registry.online (registry_fblockUnbind s fb1 fb2)
  have hoff := SameOffline.unbind s fb1 fb2
  obtain ⟨h1, -, hP', hlists, href⟩ | ⟨Q1, h1, -, -, -, -, href⟩ | ⟨Q1, Q2, -, -, hok, -⟩ :=
    fblockUnbind_result hP fb1 fb2
  · refine ⟨fun _ => h1, fun _ => ⟨(hP.ports_iff hP' ho hoff).2 rfl, href, ?_⟩⟩
    exact congrArg Lists.notifiers hlists
  · refine ⟨fun hU => ?_, fun hnone => absurd (hnone.symm.trans h1) nofun⟩
    have := congrFun (href.symm.trans hU.refcnt) fb1
    rw [Pi.sub_apply, ref_self] at this
    omega
  · cases hok.symm.trans h

end Refused

end Lana
