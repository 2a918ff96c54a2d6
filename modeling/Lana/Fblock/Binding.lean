import Lana.Fblock.Lists
import Lana.Fblock.Tables

/-!
# Binding and unbinding

What `__fblock_bind` and `__fblock_unbind` do to the ports, the lists and the counts, on a state
whose CPUs agree on the ports.  An unbinding may be refused by the second block after the first
has already given up its port (`UnbindResult.half`).
-/

namespace Lana

open State

variable {s : State} {P : Addr → Ports} {fb1 fb2 : Addr}

/-- The outcomes of `__fblock_unbind`. -/
inductive UnbindResult (s : State) (P : Addr → Ports) (fb1 fb2 : Addr) (r : Ret × State) : Prop
  | refused (h1 : (P fb1).unbind (s.ops fb1) .egress (s.idp fb2) = none)
      (hret : r.1 = .err .EBUSY) (hP : Copies r.2 P) (hlists : r.2.lists = s.lists)
      (href : r.2.refcnt = s.refcnt)
  | half (Q1 : Ports) (h1 : (P fb1).unbind (s.ops fb1) .egress (s.idp fb2) = some Q1)
      (h2 : (Function.update P fb1 Q1 fb2).unbind (s.ops fb2) .ingress (s.idp fb1) = none)
      (hret : r.1 = .err .EBUSY) (hP : Copies r.2 (Function.update P fb1 Q1))
      (hlists : r.2.lists = s.lists) (href : r.2.refcnt = s.refcnt - ref fb1)
  | done (Q1 Q2 : Ports) (h1 : (P fb1).unbind (s.ops fb1) .egress (s.idp fb2) = some Q1)
      (h2 : (Function.update P fb1 Q1 fb2).unbind (s.ops fb2) .ingress (s.idp fb1) = some Q2)
      (hret : r.1 = .ok) (hP : Copies r.2 (Function.update (Function.update P fb1 Q1) fb2 Q2))
      (hlists : r.2.lists =
        (s.lists.unlink (s.idp fb2) fb1 fb2).unlink (s.idp fb1) fb2 fb1)
      (href : r.2.refcnt = s.refcnt - ref fb1 - ref fb2 -
        (if s.notifiers fb1 = [] then 0 else ref fb1 + ref fb2) -
        (if (s.lists.unlink (s.idp fb2) fb1 fb2).notifiers fb2 = [] then 0 else ref fb1 + ref fb2))

theorem fblockUnbind_result (hP : Copies s P) (fb1 fb2 : Addr) :
    UnbindResult s P fb1 fb2 (fblockUnbind s fb1 fb2) := by
  unfold fblockUnbind
  rcases eventRx_unbind hP fb1 .egress (s.idp fb2) with ⟨h1, e1⟩ | ⟨Q1, pd1, h1, e1, hP1, -⟩
  · rw [e1]
    exact .refused h1 rfl hP rfl rfl
  rw [e1]
  rcases eventRx_unbind hP1 fb2 .ingress (s.idp fb1) with ⟨h2, e2⟩ | ⟨Q2, pd2, h2, e2, hP2, -⟩
  · simp only [show ((s.withPriv pd1).idp fb1) = s.idp fb1 from rfl, e2]
    refine .half Q1 h1 h2 rfl (hP1.putFblock fb1) (by simp) ?_
    rw [refcnt_putFblock]
    rfl
  · simp only [show ((s.withPriv pd1).idp fb1) = s.idp fb1 from rfl, e2]
    have hidp : ∀ t : State, t.registry = s.registry → t.idp = s.idp := fun t h =>
      congrArg Registry.idp h
    set u := (s.withPriv pd1).withPriv pd2
    have hu : u.registry = s.registry := rfl
    have hul : u.lists = s.lists := rfl
    have hv := registry_unsubscribe u fb1 fb2
    have hvl := lists_unsubscribe u fb1 fb2
    rw [hul, hidp u hu] at hvl
    have hvn : (unsubscribeFromRemoteFblock u fb1 fb2).notifiers =
        (s.lists.unlink (s.idp fb2) fb1 fb2).notifiers := congrArg Lists.notifiers hvl
    refine .done Q1 Q2 h1 h2 rfl ?_ ?_ ?_
    · exact (((hP2.unsubscribe fb1 fb2).unsubscribe fb2 fb1).putFblock fb2).putFblock fb1
    · simp only [lists_putFblock, lists_unsubscribe]
      rw [hidp _ (hv.trans hu), hidp u hu, hul]
    · simp only [refcnt_putFblock, refcnt_unsubscribe]
      rw [hvn, show u.notifiers = s.notifiers from rfl, show u.refcnt = s.refcnt from rfl]
      split_ifs <;> abel

/-- The outcomes of `__fblock_bind` when the notifiers can be allocated. -/
inductive BindResult (s : State) (P : Addr → Ports) (fb1 fb2 : Addr) (r : Ret × State) : Prop
  | refused (P' : Addr → Ports) (hret : r.1 = .err .EBUSY) (hP : Copies r.2 P')
      (hcount : s.idp fb2 ≠ idpUnknown → ∀ a, (P' a).count = (P a).count)
      (htwo : ∀ a, s.ops a ≠ .tee → P' a = P a)
      (hlists : r.2.lists = s.lists) (href : r.2.refcnt = s.refcnt)
  | done (Q1 Q2 : Ports) (h1 : (P fb1).bind (s.ops fb1) .egress (s.idp fb2) = some Q1)
      (h2 : (Function.update P fb1 Q1 fb2).bind (s.ops fb2) .ingress (s.idp fb1) = some Q2)
      (hret : r.1 = .ok) (hP : Copies r.2 (Function.update (Function.update P fb1 Q1) fb2 Q2))
      (hlists : r.2.lists = (s.lists.link (s.idp fb2) fb1 fb2).link (s.idp fb1) fb2 fb1)
      (href : r.2.refcnt = s.refcnt + 3 • (ref fb1 + ref fb2))

/-- The rollback of a half-made binding gives the ports back. -/
theorem rollback_ports {t : FbType} {dir : PathType} {idp : Idp} {p q r : Ports}
    (hb : p.bind t dir idp = some q) (hu : q.unbind t dir idp = some r) :
    (idp ≠ idpUnknown → r.count = p.count) ∧ (t ≠ .tee → r = p) := by
  refine ⟨fun hi => ?_, fun ht => ?_⟩
  · have h1 := Ports.count_bind hb hi
    have h2 := Ports.count_unbind hu hi
    omega
  · rw [Ports.bind_two ht] at hb
    rw [Ports.unbind_two ht] at hu
    split_ifs at hb with hp
    obtain rfl := Option.some.inj hb
    rw [Ports.set_self, if_pos rfl] at hu
    obtain rfl := Option.some.inj hu
    rw [Ports.set_set, ← hp, Ports.set_port]

/-- Both blocks accept the events of a binding. -/
def binds (s : State) (fb1 fb2 : Addr) : Prop :=
  let r := eventRx s fb1 (.bindIdp .egress (s.idp fb2))
  r.1 = .ok ∧ (eventRx r.2 fb2 (.bindIdp .ingress (s.idp fb1))).1 = .ok

instance (s : State) (fb1 fb2 : Addr) : Decidable (binds s fb1 fb2) :=
  inferInstanceAs (Decidable (_ ∧ _))

/-- A binding that both blocks accept and for which a notifier cannot be allocated: it is undone by
`__fblock_unbind` from a state with the ports in use and, maybe, the first of the two nodes. -/
structure BindFailed (al : Alloc) (s : State) (P : Addr → Ports) (fb1 fb2 : Addr)
    (r : Ret × State) : Prop where
  binds : binds s fb1 fb2
  memory : al.fn1 = false ∨ al.fn2 = false
  undone : ∃ Q1 Q2 v, (P fb1).bind (s.ops fb1) .egress (s.idp fb2) = some Q1 ∧
    (Function.update P fb1 Q1 fb2).bind (s.ops fb2) .ingress (s.idp fb1) = some Q2 ∧
    Copies v (Function.update (Function.update P fb1 Q1) fb2 Q2) ∧ v.registry = s.registry ∧
    v.lists = s.lists ∧ v.refcnt = s.refcnt + (ref fb1 + ref fb2) ∧
    r = (.err .ENOMEM, (fblockUnbind
      (if al.fn1 then (v.link fb1 fb2).addRefs (ref fb1 + ref fb2) else v) fb1 fb2).2)

theorem fblockBind_cases (hP : Copies s P) (al : Alloc) (fb1 fb2 : Addr) :
    BindResult s P fb1 fb2 (fblockBind al s fb1 fb2) ∨
      BindFailed al s P fb1 fb2 (fblockBind al s fb1 fb2) := by
  unfold fblockBind
  simp only [getFblock_eq, addRefs_addRefs]
  set t := s.addRefs (ref fb1 + ref fb2) with ht
  have hPt : Copies t P := hP
  have htr : t.refcnt = s.refcnt + (ref fb1 + ref fb2) := rfl
  rcases eventRx_bind hPt fb1 .egress (t.idp fb2) with ⟨h1, e1⟩ | ⟨Q1, pd1, h1, e1, hP1, -⟩
  · rw [e1]
    refine .inl (.refused P rfl ((hPt.putFblock fb1).putFblock fb2) (fun _ _ => rfl)
      (fun _ _ => rfl) (by simp [ht]) ?_)
    simp only [refcnt_putFblock, htr]
    abel
  rw [e1]
  rcases eventRx_bind hP1 fb2 .ingress (t.idp fb1) with ⟨h2, e2⟩ | ⟨Q2, pd2, h2, e2, hP2, -⟩
  · simp only [show ((t.withPriv pd1).idp fb1) = t.idp fb1 from rfl, e2]
    rcases eventRx_unbind hP1 fb1 .egress (t.idp fb2) with ⟨h3, e3⟩ | ⟨Q3, pd3, h3, e3, hP3, -⟩
    · -- the port just bound can be unbound
      obtain ⟨Q3, hQ3⟩ := Ports.unbind_of_bind h1
      rw [Function.update_self] at h3
      exact absurd (h3.symm.trans hQ3) (Option.some_ne_none Q3).symm
    · simp only [show ((t.withPriv pd1).idp fb2) = t.idp fb2 from rfl, e3]
      rw [Function.update_self] at h3
      obtain ⟨hc, htwo⟩ := rollback_ports h1 h3
      rw [Function.update_idem] at hP3
      refine .inl (.refused _ rfl ((hP3.putFblock fb1).putFblock fb2) (fun hi a => ?_)
        (fun a ha => ?_) (by simp [ht]) ?_)
      · by_cases haf : a = fb1
        · subst haf
          rw [Function.update_self]
          exact hc hi
        · rw [Function.update_of_ne haf]
      · by_cases haf : a = fb1
        · subst haf
          rw [Function.update_self]
          exact htwo ha
        · rw [Function.update_of_ne haf]
      · simp only [refcnt_putFblock, refcnt_withPriv, htr]
        abel
  · have hacc : Lana.binds t fb1 fb2 := by
      unfold Lana.binds
      rw [e1]
      exact ⟨rfl, congrArg Prod.fst e2⟩
    simp only [show ((t.withPriv pd1).idp fb1) = t.idp fb1 from rfl, e2]
    rcases hfn1 : al.fn1
    · rw [subscribe_no_memory]
      exact .inr ⟨hacc, .inl hfn1, Q1, Q2, _, h1, h2, hP2, rfl, rfl, rfl, by rw [hfn1]; rfl⟩
    rcases hfn2 : al.fn2
    · simp only [subscribe_eq, subscribe_no_memory]
      exact .inr ⟨hacc, .inr hfn2, Q1, Q2, _, h1, h2, hP2, rfl, rfl, rfl, by rw [hfn1]; rfl⟩
    · simp only [subscribe_eq]
      refine .inl (.done Q1 Q2 h1 h2 rfl hP2 rfl ?_)
      show s.refcnt + (ref fb1 + ref fb2) + (ref fb1 + ref fb2) + (ref fb2 + ref fb1) = _
      rw [succ_nsmul, two_nsmul]
      abel

theorem fblockBind_result (hP : Copies s P) {al : Alloc} (hal1 : al.fn1 = true)
    (hal2 : al.fn2 = true) (fb1 fb2 : Addr) :
    BindResult s P fb1 fb2 (fblockBind al s fb1 fb2) := by
  rcases fblockBind_cases hP al fb1 fb2 with h | h
  · exact h
  · rcases h.memory with hfn | hfn
    · exact absurd (hal1.symm.trans hfn) (by decide)
    · exact absurd (hal2.symm.trans hfn) (by decide)

/-! ## Out of memory -/

/-- An out of memory binding meets no nodes of earlier bindings when it is undone. -/
def RollsBack (al : Alloc) (s : State) (fb1 fb2 : Addr) : Prop :=
  binds s fb1 fb2 → (al.fn1 = false → s.notifiers fb1 = []) ∧
    (al.fn1 = false ∨ al.fn2 = false → s.notifiers fb2 = [])

instance (al : Alloc) (s : State) (fb1 fb2 : Addr) : Decidable (RollsBack al s fb1 fb2) :=
  inferInstanceAs (Decidable (_ → _))

/-- The ports, the nodes in use and the counts are as before. -/
structure Undone (s s' : State) (P : Addr → Ports) : Prop where
  copies : Copies s' P
  notifiers : s'.notifiers = s.notifiers
  remotes : ∀ a, s'.lists.remotes a = s.lists.remotes a
  allocated : s'.lists.Allocated
  refcnt : s'.refcnt = s.refcnt

/-- The port `dir` of one block set to `i`. -/
theorem port_update_set (P : Addr → Ports) (a x : Addr) (dir d : PathType) (i : Idp) :
    (Function.update P a ((P a).set dir i) x).port d =
      if x = a ∧ d = dir then i else (P x).port d := by
  by_cases hx : x = a
  · subst hx
    rw [Function.update_self]
    show Function.update (P x).port dir i d = _
    rw [Function.update_apply]
    simp
  · rw [Function.update_of_ne hx, if_neg fun h => hx h.1]

theorem clone_update_set (P : Addr → Ports) (a x : Addr) (dir : PathType) (i : Idp) :
    (Function.update P a ((P a).set dir i) x).clone = (P x).clone := by
  by_cases hx : x = a
  · subst hx
    rw [Function.update_self]
    rfl
  · rw [Function.update_of_ne hx]

/-- The node just linked is the one that is unlinked. -/
theorem Lists.unlink_link (l : Lists) (i : Idp) (us remote : Addr) :
    (l.link i us remote).unlink i us remote =
      { l.link i us remote with notifiers := l.notifiers } := by
  have hlist : (l.link i us remote).notifiers us = l.nextNode :: l.notifiers us :=
    Function.update_self ..
  have hnode : (l.link i us remote).remote l.nextNode = i := Function.update_self ..
  unfold Lists.unlink
  rw [hlist]
  dsimp only
  rw [if_pos hnode]
  congr 1
  show Function.update (Function.update l.notifiers us _) us (l.notifiers us) = l.notifiers
  rw [Function.update_idem, Function.update_eq_self]

theorem Lists.unlink_of_nil {l : Lists} {us : Addr} (h : l.notifiers us = []) (i : Idp)
    (remote : Addr) : l.unlink i us remote = l := by
  unfold Lists.unlink
  rw [h]

section Undo

variable {al : Alloc} {r : Ret × State}

/-- Two ports in use that were free before are free again. -/
theorem undone_ports {i1 i2 : Idp} {Q1 Q2 : Ports} {P2 : Addr → Ports}
    (hp1 : (P fb1).port .egress = idpUnknown) (hp2 : (P fb2).port .ingress = idpUnknown)
    (hP2 : ∀ x, (P2 x).clone = (P x).clone ∧ ∀ d, (P2 x).port d =
      if x = fb2 ∧ d = .ingress then i1 else if x = fb1 ∧ d = .egress then i2 else (P x).port d)
    (hQ1 : Q1 = (P2 fb1).set .egress idpUnknown)
    (hQ2 : Q2 = (Function.update P2 fb1 Q1 fb2).set .ingress idpUnknown) :
    Function.update (Function.update P2 fb1 Q1) fb2 Q2 = P := by
  subst hQ1 hQ2
  funext x
  refine Ports.ext (funext fun d => ?_) ?_
  · rw [port_update_set, port_update_set, (hP2 x).2]
    split_ifs with h1 h2
    · rw [h1.1, h1.2, hp2]
    · rw [h2.1, h2.2, hp1]
    · rfl
  · rw [clone_update_set, clone_update_set, (hP2 x).1]

/-- The unbinding that undoes a binding, with the lists and the counts it leaves. -/
theorem undone_of_unbind {u : State} (hA : s.lists.Allocated)
    (h1 : s.ops fb1 ≠ .tee) (h2 : s.ops fb2 ≠ .tee)
    (hp1 : (P fb1).port .egress = idpUnknown) (hp2 : (P fb2).port .ingress = idpUnknown)
    (hu : Copies u (Function.update (Function.update P fb1 ((P fb1).set .egress (s.idp fb2))) fb2
      ((Function.update P fb1 ((P fb1).set .egress (s.idp fb2)) fb2).set .ingress (s.idp fb1))))
    (hreg : u.registry = s.registry) (hnil : s.notifiers fb2 = [])
    (hlists : u.lists = s.lists ∧ s.notifiers fb1 = [] ∧
        u.refcnt = s.refcnt + (ref fb1 + ref fb2) ∨
      u.lists = s.lists.link (s.idp fb2) fb1 fb2 ∧
        u.refcnt = s.refcnt + (ref fb1 + ref fb2) + (ref fb1 + ref fb2)) :
    Undone s (fblockUnbind u fb1 fb2).2 P := by
  have hidp : u.idp = s.idp := congrArg Registry.idp hreg
  have hops : u.ops = s.ops := congrArg Registry.ops hreg
  -- the nodes in use after the first unsubscription, and what it gives back
  have hfirst : ∃ l, u.lists.unlink (s.idp fb2) fb1 fb2 = l ∧ l.notifiers = s.notifiers ∧
      (∀ a, l.remotes a = s.lists.remotes a) ∧ l.Allocated ∧
      u.refcnt - (if u.notifiers fb1 = [] then 0 else ref fb1 + ref fb2) =
        s.refcnt + (ref fb1 + ref fb2) := by
    rcases hlists with ⟨hl, hnil1, href⟩ | ⟨hl, href⟩
    · have hn : u.notifiers fb1 = [] := (congrFun (congrArg Lists.notifiers hl) fb1).trans hnil1
      refine ⟨s.lists, ?_, rfl, fun _ => rfl, hA, ?_⟩
      · rw [hl]
        exact Lists.unlink_of_nil hnil1 _ _
      · rw [if_pos hn, href, sub_zero]
    · have hn : u.notifiers fb1 ≠ [] := by
        rw [show u.notifiers fb1 = _ from congrFun (congrArg Lists.notifiers hl) fb1]
        show Function.update s.notifiers fb1 _ fb1 ≠ []
        rw [Function.update_self]
        exact List.cons_ne_nil _ _
      have hunlink := Lists.unlink_link s.lists (s.idp fb2) fb1 fb2
      refine ⟨{ s.lists.link (s.idp fb2) fb1 fb2 with notifiers := s.lists.notifiers },
        by rw [hl, hunlink], rfl, fun a => ?_, fun a n hn => ?_, ?_⟩
      · show (((s.notifiers a).map (Function.update s.remote s.nextNode (s.idp fb2)) : List Idp) :
          Multiset Idp) = ((s.notifiers a).map s.remote : List Idp)
        exact congrArg _ (List.map_congr_left fun n hn =>
          Function.update_of_ne (ne_of_lt (hA a n hn)) ..)
      · exact Nat.lt_succ_of_lt (hA a n hn)
      · rw [if_neg hn, href]
        abel
  obtain ⟨l, hl, hnotifiers, hremotes, halloc, href⟩ := hfirst
  have hlnil : l.notifiers fb2 = [] := (congrFun hnotifiers fb2).trans hnil
  set P2 := Function.update (Function.update P fb1 ((P fb1).set .egress (s.idp fb2))) fb2
    ((Function.update P fb1 ((P fb1).set .egress (s.idp fb2)) fb2).set .ingress (s.idp fb1))
    with hP2
  have hport : ∀ x, (P2 x).clone = (P x).clone ∧ ∀ d, (P2 x).port d =
      if x = fb2 ∧ d = .ingress then s.idp fb1 else
        if x = fb1 ∧ d = .egress then s.idp fb2 else (P x).port d := by
    intro x
    rw [hP2]
    refine ⟨by rw [clone_update_set, clone_update_set], fun d => ?_⟩
    rw [port_update_set, port_update_set]
  have hport1 : (P2 fb1).port .egress = s.idp fb2 := by
    rw [(hport fb1).2, if_neg (fun h => by cases h.2), if_pos ⟨rfl, rfl⟩]
  have hport2 : (P2 fb2).port .ingress = s.idp fb1 := by
    rw [(hport fb2).2, if_pos ⟨rfl, rfl⟩]
  have hport2' : (Function.update P2 fb1 ((P2 fb1).set .egress idpUnknown) fb2).port .ingress =
      s.idp fb1 := by
    rw [port_update_set, if_neg (fun h => by cases h.2), hport2]
  rcases fblockUnbind_result hu fb1 fb2 with ⟨hx, -⟩ | ⟨Q1, hx1, hx2, -⟩ |
    ⟨Q1, Q2, hx1, hx2, -, hP', hl', href'⟩
  · rw [hops, hidp, Ports.unbind_two h1, if_pos hport1] at hx
    cases hx
  · rw [hops, hidp, Ports.unbind_two h1, if_pos hport1] at hx1
    obtain rfl := Option.some.inj hx1
    rw [hops, hidp, Ports.unbind_two h2, if_pos hport2'] at hx2
    cases hx2
  · rw [hops, hidp, Ports.unbind_two h1, if_pos hport1] at hx1
    obtain rfl := Option.some.inj hx1
    rw [hops, hidp, Ports.unbind_two h2, if_pos hport2'] at hx2
    obtain rfl := Option.some.inj hx2
    rw [undone_ports hp1 hp2 hport rfl rfl] at hP'
    rw [hidp, hl, Lists.unlink_of_nil hlnil] at hl'
    rw [hidp, hl, if_pos hlnil] at href'
    refine ⟨hP', (congrArg Lists.notifiers hl').trans hnotifiers, hl' ▸ hremotes, hl' ▸ halloc, ?_⟩
    calc (fblockUnbind u fb1 fb2).2.refcnt
        = u.refcnt - (if u.notifiers fb1 = [] then 0 else ref fb1 + ref fb2) -
            (ref fb1 + ref fb2) := by rw [href']; abel
      _ = s.refcnt := by rw [href, add_sub_cancel_right]

/-- A binding that runs out of memory is undone, when it meets no nodes of earlier bindings. -/
theorem BindFailed.undo (h : BindFailed al s P fb1 fb2 r) (hA : s.lists.Allocated)
    (h1 : s.ops fb1 ≠ .tee) (h2 : s.ops fb2 ≠ .tee) (hroll : RollsBack al s fb1 fb2) :
    Undone s r.2 P := by
  obtain ⟨hnil1, hnil2⟩ := hroll h.binds
  obtain ⟨Q1, Q2, v, hb1, hb2, hv, hreg, hlists, href, rfl⟩ := h.undone
  rw [Ports.bind_two h1] at hb1
  rw [Ports.bind_two h2] at hb2
  split_ifs at hb1 hb2 with hp1 hp2
  obtain rfl := Option.some.inj hb1
  obtain rfl := Option.some.inj hb2
  rw [port_update_set, if_neg (fun h => by cases h.2)] at hp2
  have hidp : v.idp = s.idp := congrArg Registry.idp hreg
  rcases hfn1 : al.fn1
  · exact undone_of_unbind hA h1 h2 hp1 hp2 hv hreg (hnil2 h.memory)
      (.inl ⟨hlists, hnil1 hfn1, href⟩)
  · refine undone_of_unbind hA h1 h2 hp1 hp2 hv hreg (hnil2 h.memory) (.inr ⟨?_, ?_⟩)
    · show (v.link fb1 fb2).lists = _
      rw [lists_link, hlists, hidp]
    · show v.refcnt + (ref fb1 + ref fb2) = _
      rw [href]

end Undo

end Lana
