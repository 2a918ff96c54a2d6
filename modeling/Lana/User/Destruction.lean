import Lana.Fblock.Slots
import Lana.User.Counts

/-!
# Destruction of blocks without a factory

`fb_eth_stop_hook_dev`, `fb_ethvlink_rm_dev` and `lana_sk_free` free a block whatever its count.  A
block whose only reference is that of the tables is referred to by nothing
(`destroyed_unreferenced`).  The first two let a second reference pass, and the third one looks at
no count: what is left then names a freed block (`destroyed_referenced`).  The counts are read as
`atomic_read` does, and the runs are too short for one to leave the 32 bits of an `atomic_t`.
-/

namespace Lana

open State

/-! ## The invariant -/

/-- Blocks have the operations of their factory, and blocks without one have two ports. -/
structure Registry.Typed (r : Registry) : Prop where
  factory : ∀ a f, r.factory a = some f → r.ops a = f.ops
  vlinks : ∀ a ∈ r.vlinks, r.ops a ≠ .tee

/-- What the ports of the entered blocks hold, and that those that name `V` are answered. -/
structure Plugged (r : Registry) (P : Addr → Ports) (V : Addr) : Prop where
  clone : ∀ N, r.Has N → r.ops N ≠ .tee → (P N).clone = idpUnknown
  known : ∀ N, r.Has N → ∀ i, i ≠ idpUnknown → 1 ≤ (P N).naming i → i.toNat ≤ r.idpCounter
  answered : V ∈ r.vlinks → Reciprocal r.Has r.idp P V

/-- The invariant, for one block `V` that may come to be without a factory. -/
structure Guarded (s : State) (P : Addr → Ports) (V : Addr) : Prop where
  sound : Sound s
  held : Held s P 0
  typed : s.registry.Typed
  plugged : Plugged s.registry P V
  chains : s.lists.Chains s.nextFblock s.registry.Has
  follows : V ∈ s.vlinks → s.lists.Follows V s.registry.Has s.idp

/-- The ports are determined by any online CPU. -/
theorem Guarded.distinct {s : State} {P : Addr → Ports} {V : Addr} (h : Guarded s P V) :
    Distinct s.registry.Has s.idp :=
  ⟨fun _ _ ha hb heq => h.held.tables.idp_inj ha hb heq, fun _ ha => h.held.idp_ne ha⟩

/-! ## Calls of the backend -/

section Calls

variable {s t u : State} {P P' P'' : Addr → Ports} {V fb1 fb2 : Addr}

/-- `l'` comes from `l` by subscriptions and unsubscriptions of entered blocks, none of which takes
the head of the list of `V`. -/
inductive Lists.Clean (V : Addr) (H : Addr → Prop) (idp : Addr → Idp) (l : Lists) : Lists → Prop
  | refl : Clean V H idp l l
  | link {l' : Lists} {us remote : Addr} (h : Clean V H idp l l') (hu : H us) (hr : H remote) :
      Clean V H idp l (l'.link (idp remote) us remote)
  | unlink {l' : Lists} {us remote : Addr} (h : Clean V H idp l l') (hr : H remote)
      (hhead : us = V → (l'.notifiers us).head?.map l'.remote ≠ some (idp remote)) :
      Clean V H idp l (l'.unlink (idp remote) us remote)

namespace Lists.Clean

variable {H : Addr → Prop} {idp : Addr → Idp} {k : Addr} {l l' l'' : Lists}

theorem trans (h : Clean V H idp l l') (h' : Clean V H idp l' l'') : Clean V H idp l l'' := by
  induction h' with
  | refl => exact h
  | link _ hu hr ih => exact ih.link hu hr
  | unlink _ hr hhead ih => exact ih.unlink hr hhead

theorem chains (h : Clean V H idp l l') (hC : l.Chains k H) (hk : ∀ a, H a → a < k) :
    l'.Chains k H := by
  induction h with
  | refl => exact hC
  | link _ hu hr ih => exact ih.link (hk _ hu) hr
  | unlink _ _ _ ih => exact ih.unlink

theorem follows (h : Clean V H idp l l') (hC : l.Chains k H) (hk : ∀ a, H a → a < k)
    (hD : Distinct H idp) (hF : l.Follows V H idp) : l'.Follows V H idp := by
  induction h with
  | refl => exact hF
  | link h' _ _ ih => exact ih.link (h'.chains hC hk)
  | unlink h' hr hhead ih => exact ih.unlink (h'.chains hC hk) hD.inj hr hhead

/-- The unsubscriptions of an unbinding. -/
theorem unlink_both (h1 : H fb1) (h2 : H fb2) (hc : l.ClearsBoth V idp fb1 fb2) :
    Clean V H idp l ((l.unlink (idp fb2) fb1 fb2).unlink (idp fb1) fb2 fb1) :=
  (Clean.refl.unlink h2 hc.1.2).unlink h1 hc.2.2

end Lists.Clean

/-- `t` comes from `s` by calls on entered blocks. -/
structure Touches (V : Addr) (s t : State) (P P' : Addr → Ports) : Prop where
  registry : t.registry = s.registry
  copies : Copies t P'
  ports : Relation.ReflTransGen (fun Q Q' => ∃ fb1 fb2, s.registry.Has fb1 ∧ s.registry.Has fb2 ∧
    PortStep s.ops s.idp fb1 fb2 Q Q') P P'
  lists : s.lists.Clean V s.registry.Has s.idp t.lists

theorem Touches.trans (h : Touches V s t P P') (h' : Touches V t u P' P'') :
    Touches V s u P P'' := by
  have hidp : t.idp = s.idp := congrArg Registry.idp h.registry
  have hops : t.ops = s.ops := congrArg Registry.ops h.registry
  refine ⟨h'.registry.trans h.registry, h'.copies, h.ports.trans ?_, h.lists.trans ?_⟩
  · have := h'.ports
    rwa [h.registry, hidp, hops] at this
  · have := h'.lists
    rwa [h.registry, hidp] at this

/-- References come and go. -/
theorem Touches.of_quiet (hP : Copies s P) (hreg : t.registry = s.registry)
    (hlists : t.lists = s.lists)
    (hports : ∀ a c, (t.privateData a c).ports = (s.privateData a c).ports) :
    Touches V s t P P :=
  ⟨hreg, hP.of_ports (congrArg Registry.online hreg) hports, .refl, hlists ▸ .refl⟩

theorem Touches.of_addRefs {δ : Addr → ℤ} (h : Touches V (s.addRefs δ) t P P') :
    Touches V s t P P' :=
  ⟨h.registry, h.copies, h.ports, h.lists⟩

theorem Touches.putFblock (h : Touches V s t P P') (a : Addr) :
    Touches V s (putFblock t a) P P' :=
  ⟨(registry_putFblock t a).trans h.registry, h.copies.putFblock a, h.ports,
    (lists_putFblock t a).symm ▸ h.lists⟩

theorem PortSteps.entered {ops : Addr → FbType} {idp : Addr → Idp} {H : Addr → Prop}
    (h : PortSteps ops idp fb1 fb2 P P') (h1 : H fb1) (h2 : H fb2) :
    Relation.ReflTransGen (fun Q Q' => ∃ a b, H a ∧ H b ∧ PortStep ops idp a b Q Q') P P' := by
  induction h with
  | refl => exact .refl
  | tail _ hstep ih => exact ih.tail ⟨fb1, fb2, h1, h2, hstep⟩

theorem unbinds_of_ports (hP : Copies s P) {Q1 Q2 : Ports}
    (h1 : (P fb1).unbind (s.ops fb1) .egress (s.idp fb2) = some Q1)
    (h2 : (Function.update P fb1 Q1 fb2).unbind (s.ops fb2) .ingress (s.idp fb1) = some Q2) :
    unbinds s fb1 fb2 := by
  rcases eventRx_unbind hP fb1 .egress (s.idp fb2) with ⟨hnone, -⟩ | ⟨Q, pd, hQ, e1, hPQ, -⟩
  · exact absurd (h1.symm.trans hnone) (Option.some_ne_none Q1)
  obtain rfl : Q1 = Q := Option.some.inj (h1.symm.trans hQ)
  rcases eventRx_unbind hPQ fb2 .ingress (s.idp fb1) with ⟨hnone, -⟩ | ⟨Q', pd', -, e2, -⟩
  · exact absurd (h2.symm.trans hnone) (Option.some_ne_none Q2)
  unfold unbinds
  rw [e1]
  exact ⟨rfl, congrArg Prod.fst e2⟩

theorem clean_unbind (hP : Copies s P) (h1 : s.registry.Has fb1) (h2 : s.registry.Has fb2)
    (hc : unbinds s fb1 fb2 → s.lists.ClearsBoth V s.idp fb1 fb2) :
    s.lists.Clean V s.registry.Has s.idp (fblockUnbind s fb1 fb2).2.lists := by
  rcases fblockUnbind_result hP fb1 fb2 with ⟨-, -, -, hl, -⟩ | ⟨Q1, -, -, -, -, hl, -⟩ |
    ⟨Q1, Q2, hx1, hx2, -, -, hl, -⟩
  · exact hl ▸ .refl
  · exact hl ▸ .refl
  · rw [hl]
    exact .unlink_both h1 h2 (hc (unbinds_of_ports hP hx1 hx2))

theorem touches_unbind (hP : Copies s P) (h1 : s.registry.Has fb1) (h2 : s.registry.Has fb2)
    (hc : unbinds s fb1 fb2 → s.lists.ClearsBoth V s.idp fb1 fb2) :
    ∃ P', Touches V s (fblockUnbind s fb1 fb2).2 P P' := by
  obtain ⟨P', hP', hsteps⟩ := fblockUnbind_ports hP fb1 fb2
  exact ⟨P', (Prims.refl.unbind fb1 fb2).registry, hP', hsteps.entered h1 h2,
    clean_unbind hP h1 h2 hc⟩

theorem touches_bind (hP : Copies s P) (h1 : s.registry.Has fb1) (h2 : s.registry.Has fb2)
    (al : Alloc) (hc : binds s fb1 fb2 → ¬ (al.fn1 = true ∧ al.fn2 = true) →
      (if al.fn1 then s.lists.link (s.idp fb2) fb1 fb2 else s.lists).ClearsBoth V s.idp fb1 fb2) :
    ∃ P', Touches V s (fblockBind al s fb1 fb2).2 P P' := by
  obtain ⟨P', hP', hsteps⟩ := fblockBind_ports hP al fb1 fb2
  refine ⟨P', (Prims.refl.bind al fb1 fb2).registry, hP', hsteps.entered h1 h2, ?_⟩
  rcases fblockBind_cases hP al fb1 fb2 with
    (⟨-, -, -, -, -, hl, -⟩ | ⟨Q1, Q2, -, -, -, -, hl, -⟩) | hfailed
  · exact hl ▸ .refl
  · rw [hl]
    exact (Lists.Clean.refl.link h1 h2).link h2 h1
  · -- undone from the lists with the first subscription, if it was made
    obtain ⟨Q1, Q2, v, -, -, hv, hreg, hlists, -, heq⟩ := hfailed.undone
    have hidp : v.idp = s.idp := congrArg Registry.idp hreg
    have hmem : ¬ (al.fn1 = true ∧ al.fn2 = true) := by
      rintro ⟨hfn1, hfn2⟩
      rcases hfailed.memory with h | h
      · exact absurd (hfn1.symm.trans h) (by decide)
      · exact absurd (hfn2.symm.trans h) (by decide)
    have hclears := hc hfailed.binds hmem
    rw [heq]
    set w := if al.fn1 then (v.link fb1 fb2).addRefs (ref fb1 + ref fb2) else v with hw
    have hwreg : w.registry = s.registry := by
      rw [hw]
      split_ifs <;> exact hreg
    have hwP : ∃ Q, Copies w Q := by
      rw [hw]
      split_ifs <;> exact ⟨_, hv⟩
    have hwl : w.lists = if al.fn1 then s.lists.link (s.idp fb2) fb1 fb2 else s.lists := by
      rw [hw]
      split_ifs
      · show (v.link fb1 fb2).lists = _
        rw [lists_link, hlists, hidp]
      · exact hlists
    obtain ⟨Q, hQ⟩ := hwP
    have hwidp : w.idp = s.idp := congrArg Registry.idp hwreg
    have hundo := clean_unbind (V := V) hQ (hwreg.symm ▸ h1) (hwreg.symm ▸ h2) fun _ => by
      rw [hwl, hwidp]
      exact hclears
    rw [hwreg, hwidp] at hundo
    refine Lists.Clean.trans ?_ hundo
    rw [hwl]
    split_ifs
    · exact Lists.Clean.refl.link h1 h2
    · exact .refl

theorem touches_subscribe (hP : Copies s P) (alloc : Bool) {us remote : Addr}
    (hu : s.registry.Has us) (hr : s.registry.Has remote) :
    Touches V s (subscribeToRemoteFblock alloc s us remote).2 P P := by
  cases alloc with
  | false => exact .of_quiet hP rfl rfl fun _ _ => rfl
  | true =>
    rw [subscribe_eq]
    exact ⟨rfl, hP, .refl, Lists.Clean.refl.link hu hr⟩

theorem touches_unsubscribe (hP : Copies s P) {us remote : Addr} (hr : s.registry.Has remote)
    (hc : s.lists.Clears V (s.idp remote) us) :
    Touches V s (unsubscribeFromRemoteFblock s us remote) P P := by
  refine ⟨registry_unsubscribe s us remote, hP.unsubscribe us remote, .refl, ?_⟩
  rw [lists_unsubscribe]
  exact Lists.Clean.refl.unlink hr hc.2

/-- The frame of the commands with two names. -/
theorem touches_withTuple (hP : Copies s P) (n1 n2 : Name) {f : State → Addr → Addr → Ret × State}
    (hf : ∀ a b, s.lookup n1 = some a → s.lookup n2 = some b →
      ∃ P', Touches V (s.addRefs (ref a + ref b)) (f (s.addRefs (ref a + ref b)) a b).2 P P') :
    ∃ P', Touches V s (withTuple s n1 n2 f).2 P P' := by
  rcases withTuple_cases s n1 n2 f with ⟨-, hq⟩ | ⟨a, b, ha, hb, heq⟩
  · exact ⟨P, .of_quiet hP hq.registry hq.lists hq.ports⟩
  · obtain ⟨P', hT⟩ := hf a b ha hb
    rw [heq]
    exact ⟨P', (hT.of_addRefs.putFblock a).putFblock b⟩

theorem touches_unbindBound (hP : Copies s P) (cpu : Cpu) (fb : Addr) (dir : PathType)
    {f : State → Addr → Ret × State}
    (hf : ∀ a, s.fblmap ((s.privateData fb cpu).port dir) = some a →
      ∃ P', Touches V (s.addRefs (ref a)) (f (s.addRefs (ref a)) a).2 P P') :
    ∃ P', Touches V s (unbindBound cpu s fb dir f) P P' := by
  rcases unbindBound_cases cpu s fb dir f with heq | ⟨a, ha, heq⟩
  · rw [heq]
    exact ⟨P, .of_quiet hP rfl rfl fun _ _ => rfl⟩
  · obtain ⟨P', hT⟩ := hf a ha
    rw [heq]
    exact ⟨P', hT.of_addRefs.putFblock a⟩

end Calls

/-! ## Ports of the entered blocks -/

section Plugged

variable {r : Registry} {P P' : Addr → Ports} {V fb1 fb2 : Addr}

/-- The third port of a block that is not a tee is not written. -/
theorem PortStep.clone {ops : Addr → FbType} {idp : Addr → Idp}
    (h : PortStep ops idp fb1 fb2 P P') {N : Addr} (hN : ops N ≠ .tee) :
    (P' N).clone = (P N).clone := by
  have hupdate : ∀ {Q : Addr → Ports} {fb : Addr} {R : Ports},
      (ops fb ≠ .tee → R.clone = (Q fb).clone) → (Function.update Q fb R N).clone = (Q N).clone := by
    intro Q fb R hR
    by_cases hfb : N = fb
    · subst hfb
      rw [Function.update_self]
      exact hR hN
    · rw [Function.update_of_ne hfb]
  cases h with
  | bound h1 h2 =>
    exact (hupdate fun ht => Ports.clone_bind ht h2).trans (hupdate fun ht => Ports.clone_bind ht h1)
  | rolled h1 h2 =>
    exact hupdate fun ht => (Ports.clone_unbind ht h2).trans (Ports.clone_bind ht h1)
  | half h1 _ => exact hupdate fun ht => Ports.clone_unbind ht h1
  | unbound h1 h2 =>
    exact (hupdate fun ht => Ports.clone_unbind ht h2).trans
      (hupdate fun ht => Ports.clone_unbind ht h1)

/-- Ports get the idps of the two blocks only. -/
theorem PortStep.naming {ops : Addr → FbType} {idp : Addr → Idp}
    (h : PortStep ops idp fb1 fb2 P P') {N : Addr} {i : Idp} (hi : i ≠ idpUnknown)
    (hN : 1 ≤ (P' N).naming i) : 1 ≤ (P N).naming i ∨ i = idp fb1 ∨ i = idp fb2 := by
  by_contra hnot
  obtain ⟨h0, hne1, hne2⟩ : (P N).naming i = 0 ∧ i ≠ idp fb1 ∧ i ≠ idp fb2 := by
    simpa only [not_or, not_le, Nat.lt_one_iff] using hnot
  have hif1 : ¬ (N = fb1 ∧ idp fb2 = i) := fun h => hne2 h.2.symm
  have hif2 : ¬ (N = fb2 ∧ idp fb1 = i) := fun h => hne1 h.2.symm
  cases h with
  | bound h1 h2 =>
    rw [naming_of_bind h2 hi, naming_of_bind h1 hi, if_neg hif1, if_neg hif2] at hN
    omega
  | @rolled Q R h1 h2 =>
    have hu : (Function.update P fb1 Q fb1).unbind (ops fb1) .egress (idp fb2) = some R := by
      rwa [Function.update_self]
    have h3 := naming_of_unbind hu hi N
    rw [Function.update_idem, naming_of_bind h1 hi, if_neg hif1] at h3
    omega
  | half h1 _ =>
    have h3 := naming_of_unbind h1 hi N
    omega
  | unbound h1 h2 =>
    have h3 := naming_of_unbind h1 hi N
    have h4 := naming_of_unbind h2 hi N
    omega

/-- **Step.** A binding or an unbinding of entered blocks. -/
theorem Plugged.step (h : Plugged r P V) (hD : Distinct r.Has r.idp) (hT : r.Typed)
    (hkept : V ∈ r.vlinks → r.Has V) (hknown : ∀ a, r.Has a → (r.idp a).toNat ≤ r.idpCounter)
    (h1 : r.Has fb1) (h2 : r.Has fb2) (hstep : PortStep r.ops r.idp fb1 fb2 P P') :
    Plugged r P' V := by
  refine ⟨fun N hN ht => (hstep.clone ht).trans (h.clone N hN ht), fun N hN i hi hpos => ?_,
    fun hV => ?_⟩
  · rcases hstep.naming hi hpos with hold | rfl | rfl
    · exact h.known N hN i hi hold
    · exact hknown fb1 h1
    · exact hknown fb2 h2
  · have hR := h.answered hV
    have hVH := hkept hV
    have htwo := hT.vlinks V hV
    cases hstep with
    | bound hb1 hb2 => exact hR.bound hD hVH htwo h1 h2 hb1 hb2
    | rolled hb hu => exact hR.rolled hD hVH htwo hb hu
    | half hu hnone => exact hR.half hD hVH h.clone h2 hu hnone
    | unbound hu1 hu2 => exact hR.unbound hD hVH h1 h2 hu1 hu2

/-- **Run.** Any number of them. -/
theorem Plugged.steps (h : Plugged r P V) (hD : Distinct r.Has r.idp) (hT : r.Typed)
    (hkept : V ∈ r.vlinks → r.Has V) (hknown : ∀ a, r.Has a → (r.idp a).toNat ≤ r.idpCounter)
    (hsteps : Relation.ReflTransGen (fun Q Q' => ∃ fb1 fb2, r.Has fb1 ∧ r.Has fb2 ∧
      PortStep r.ops r.idp fb1 fb2 Q Q') P P') : Plugged r P' V := by
  induction hsteps with
  | refl => exact h
  | tail _ hstep ih =>
    obtain ⟨fb1, fb2, h1, h2, hstep⟩ := hstep
    exact ih.step hD hT hkept hknown h1 h2 hstep

end Plugged

/-! ## Commands -/

section Commands

variable {s t : State} {P P' Q : Addr → Ports} {V : Addr}

theorem Guarded.idp_le (h : Guarded s P V) {a : Addr} (ha : s.registry.Has a) :
    (s.idp a).toNat ≤ s.idpCounter := by
  obtain ⟨i, hi⟩ := ha
  rw [show s.idp a = i from (h.held.tables.stored i a hi).1]
  exact (h.held.numbered.entry i a hi).2

/-- Calls of the backend. -/
theorem Guarded.touches (h : Guarded s P V) (hT : Touches V s t P P') (hS : Sound t)
    (hH : Held t Q 0) : Guarded t P' V := by
  obtain rfl : Q = P' := hT.copies.unique hH.copies
  have hidp : t.idp = s.idp := congrArg Registry.idp hT.registry
  have hnext : t.nextFblock = s.nextFblock := congrArg Registry.nextFblock hT.registry
  have hvl : t.vlinks = s.vlinks := congrArg Registry.vlinks hT.registry
  have hlt : ∀ a, s.registry.Has a → a < s.nextFblock := fun a ha => h.held.lt_next ha
  refine ⟨hS, hH, hT.registry ▸ h.typed, ?_, ?_, fun hV => ?_⟩
  · rw [hT.registry]
    exact h.plugged.steps h.distinct h.typed (fun hV => (h.sound.registry.kept V hV).1)
      (fun _ ha => h.idp_le ha) hT.ports
  · rw [hT.registry, hnext]
    exact hT.lists.chains h.chains hlt
  · rw [hT.registry, hidp]
    exact hT.lists.follows h.chains hlt h.distinct (h.follows (hvl ▸ hV))

/-- Blocks leave the tables, or their owners. -/
theorem Guarded.shrink (h : Guarded s P V) (hS : Sound t) (hH : Held t P 0)
    {m : Idp → Option Addr} {tr : CritbitTree IdpElem} {l : List Addr}
    (hreg : t.registry = { s.registry with idpmap := tr, fblmap := m, vlinks := l })
    (hm : ∀ i a, m i = some a → s.fblmap i = some a) (hl : ∀ a ∈ l, a ∈ s.vlinks)
    (hlists : t.lists = s.lists) : Guarded t P V := by
  have hhas : ∀ a, t.registry.Has a → s.registry.Has a := by
    rw [hreg]
    exact fun a ⟨i, hi⟩ => ⟨i, hm i a hi⟩
  have hidp : t.idp = s.idp := congrArg Registry.idp hreg
  have hnext : t.nextFblock = s.nextFblock := congrArg Registry.nextFblock hreg
  have hvl : t.vlinks = l := congrArg Registry.vlinks hreg
  refine ⟨hS, hH, ?_, ⟨fun N hN => ?_, fun N hN => ?_, fun hV => ?_⟩, ?_, fun hV r hr n hn => ?_⟩
  · rw [hreg]
    exact ⟨h.typed.factory, fun a ha => h.typed.vlinks a (hl a ha)⟩
  · have := h.plugged.clone N (hhas N hN)
    rwa [hreg]
  · have := h.plugged.known N (hhas N hN)
    rwa [hreg]
  · have hold := h.plugged.answered (hl V (hvl ▸ hV))
    rw [show t.registry.idp = s.idp from hidp]
    exact ⟨fun N hN => hold.port N (hhas N hN), fun N hN => hold.naming N (hhas N hN)⟩
  · rw [hlists, hnext]
    exact ⟨fun r hr => h.chains.nodup r (hhas r hr), fun r hr => h.chains.node r (hhas r hr)⟩
  · rw [hlists] at hn ⊢
    rw [hidp]
    exact h.follows (hl V (hvl ▸ hV)) r (hhas r hr) n hn

/-- Other factories, other owners. -/
theorem Guarded.relabel (h : Guarded t P V) {f : Addr → Option Factory} {l : List Addr}
    (hS : Sound { t with factory := f, vlinks := l }) (hH : Held { t with factory := f, vlinks := l } P 0)
    (hT : State.registry { t with factory := f, vlinks := l } |>.Typed)
    (hV : V ∈ l → Reciprocal t.registry.Has t.idp P V ∧ t.lists.Follows V t.registry.Has t.idp) :
    Guarded { t with factory := f, vlinks := l } P V :=
  ⟨hS, hH, hT, ⟨h.plugged.clone, h.plugged.known, fun hin => (hV hin).1⟩,
    ⟨h.chains.nodup, h.chains.node⟩, fun hin => (hV hin).2⟩

theorem naming_free {i : Idp} (hi : i ≠ idpUnknown) : Ports.free.naming i = 0 :=
  Nat.le_zero.1 (Ports.naming_le_count Ports.free hi)

/-- What the construction of a block means for the others: an entry is an old one, which is as
before, or the new block with free ports and an empty chain. -/
structure Grown (s t : State) (P P' : Addr → Ports) : Prop where
  entry : ∀ a, t.registry.Has a → a ≠ s.nextFblock ∧ s.registry.Has a ∨
    a = s.nextFblock ∧ t.idp a = s.nextIdp ∧ P' a = .free ∧ t.subscribers a = []
  keep : ∀ a, a ≠ s.nextFblock →
    P' a = P a ∧ t.idp a = s.idp a ∧ t.ops a = s.ops a ∧ t.subscribers a = s.subscribers a
  counter : s.idpCounter ≤ t.idpCounter
  next : s.nextFblock ≤ t.nextFblock
  factory : t.factory = s.factory
  vlinks : t.vlinks = s.vlinks
  notifiers : t.notifiers = s.notifiers
  nodes : t.self = s.self ∧ t.remote = s.remote ∧ t.nextNode = s.nextNode

theorem Created.grown {area : Priv} {ops : FbType} (hC : Created s t area ops)
    (hT : Tables s.registry) (hP : Copies s P) (harea : area.ports = .free)
    (hwrap : s.idpCounter + 1 < 2 ^ 32) : ∃ P', Copies t P' ∧ Grown s t P P' := by
  obtain ⟨Q, hcopies, hQ⟩ := hC.copies hP
  refine ⟨_, hcopies, fun a ⟨i, hi⟩ => ?_, fun a ha => ?_, ?_, hC.next, hC.factory, hC.vlinks,
    hC.notifiers, hC.nodes⟩
  · rcases hC.new i a hi with hold | ⟨rfl, rfl, hnone, -, -, -, -, hsub⟩
    · refine .inl ⟨?_, i, hold⟩
      rintro rfl
      exact hT.not_has_next i hold
    · refine .inr ⟨rfl, (hC.tables.stored _ _ hi).1, ?_, hsub⟩
      rw [Function.update_self]
      exact (hQ _ hi (by rw [hnone]; simp)).trans harea
  · obtain ⟨-, hidp, hops, -, -, hsub⟩ := hC.keep a ha
    exact ⟨Function.update_of_ne ha .., hidp, hops, hsub⟩
  · rcases hC.counter with hc | hc
    · exact hc.ge
    · rw [hc, Nat.mod_eq_of_lt (by omega)]
      omega

namespace Grown

theorem old (h : Guarded s P V) {a : Addr} (ha : s.registry.Has a) : a ≠ s.nextFblock := by
  obtain ⟨i, hi⟩ := ha
  rintro rfl
  exact h.held.tables.not_has_next i hi

theorem typed (hG : Grown s t P P') (h : Guarded s P V) : t.registry.Typed := by
  refine ⟨fun a f hf => ?_, fun a ha => ?_⟩
  · have hf' : s.factory a = some f := by
      rw [← hG.factory]
      exact hf
    have hne : a ≠ s.nextFblock := by
      rintro rfl
      exact absurd (hf'.symm.trans (h.sound.registry.fresh _ le_rfl)) (Option.some_ne_none f)
    rw [show t.registry.ops a = s.ops a from (hG.keep a hne).2.2.1]
    exact h.typed.factory a f hf'
  · have ha' : a ∈ s.vlinks := by
      rw [← hG.vlinks]
      exact ha
    rw [show t.registry.ops a = s.ops a from
      (hG.keep a (old h (h.sound.registry.kept a ha').1)).2.2.1]
    exact h.typed.vlinks a ha'

/-- A port in use is a port of an old block. -/
theorem named (hG : Grown s t P P') {N : Addr} (hN : t.registry.Has N) {i : Idp}
    (hi : i ≠ idpUnknown) (hpos : 1 ≤ (P' N).naming i) :
    s.registry.Has N ∧ P' N = P N ∧ t.idp N = s.idp N := by
  rcases hG.entry N hN with ⟨hne, hN'⟩ | ⟨-, -, hfree, -⟩
  · exact ⟨hN', (hG.keep N hne).1, (hG.keep N hne).2.1⟩
  · rw [hfree, naming_free hi] at hpos
    omega

/-- The new block is named by no port. -/
theorem unnamed (hG : Grown s t P P') (h : Guarded s P V) (hwrap : s.idpCounter + 1 < 2 ^ 32)
    {N : Addr} (hN : t.registry.Has N) : (P' N).naming s.nextIdp = 0 := by
  have hnext := nextIdp_toNat hwrap
  have hne : s.nextIdp ≠ idpUnknown := by
    intro heq
    have hzero := (congrArg UInt32.toNat heq).symm.trans hnext
    have : idpUnknown.toNat = 0 := rfl
    omega
  by_contra hpos
  obtain ⟨hN', hP, -⟩ := hG.named hN hne (Nat.one_le_iff_ne_zero.2 hpos)
  rw [hP] at hpos
  have := h.plugged.known N hN' _ hne (Nat.one_le_iff_ne_zero.2 hpos)
  rw [hnext] at this
  change s.idpCounter + 1 ≤ s.idpCounter at this
  omega

theorem answered (hG : Grown s t P P') (h : Guarded s P V) (hV : V ∈ s.vlinks) :
    Reciprocal t.registry.Has t.idp P' V := by
  have hVH := (h.sound.registry.kept V hV).1
  have hne := h.held.idp_ne hVH
  obtain ⟨hPV, hidpV, -⟩ := hG.keep V (old h hVH)
  have hR := h.plugged.answered hV
  rw [← hidpV] at hne
  refine ⟨fun N hN d hd => ?_, fun N hN => ?_⟩
  · obtain ⟨hN', hP, hidp⟩ := hG.named hN hne (Ports.naming_pos_of_port hd)
    rw [hPV, hidp]
    rw [hP, hidpV] at hd
    exact hR.port N hN' d hd
  · by_cases hpos : (P' N).naming (t.idp V) = 0
    · rw [hpos]
      exact Nat.zero_le _
    · obtain ⟨hN', hP, hidp⟩ := hG.named hN hne (Nat.one_le_iff_ne_zero.2 hpos)
      rw [hPV, hP, hidp, hidpV]
      exact hR.naming N hN'

theorem answered_new (hG : Grown s t P P') (h : Guarded s P V) (hwrap : s.idpCounter + 1 < 2 ^ 32)
    (hV : V = s.nextFblock) (hVH : t.registry.Has V) : Reciprocal t.registry.Has t.idp P' V := by
  have hidp : t.idp V = s.nextIdp := by
    rcases hG.entry V hVH with ⟨hne, -⟩ | ⟨-, hidp, -⟩
    · exact absurd hV hne
    · exact hidp
  have hnone := fun {N : Addr} => @unnamed s t P P' V hG h hwrap N
  refine ⟨fun N hN d hd => ?_, fun N hN => ?_⟩
  · rw [hidp] at hd
    have := Ports.naming_pos_of_port hd
    rw [hnone hN] at this
    omega
  · rw [hidp, hnone hN]
    exact Nat.zero_le _

theorem plugged (hG : Grown s t P P') (h : Guarded s P V) : Plugged t.registry P' V := by
  refine ⟨fun N hN ht => ?_, fun N hN i hi hpos => ?_, fun hV => hG.answered h ?_⟩
  · rcases hG.entry N hN with ⟨hne, hN'⟩ | ⟨-, -, hfree, -⟩
    · obtain ⟨hP, -, hops, -⟩ := hG.keep N hne
      rw [hP]
      rw [show t.registry.ops N = s.ops N from hops] at ht
      exact h.plugged.clone N hN' ht
    · rw [hfree]
      rfl
  · obtain ⟨hN', hP, -⟩ := hG.named hN hi hpos
    rw [hP] at hpos
    exact (h.plugged.known N hN' i hi hpos).trans hG.counter
  · rw [← hG.vlinks]
    exact hV

/-- A node on a chain was there before. -/
theorem node (hG : Grown s t P P') {r : Addr} (hr : t.registry.Has r) {n : NodeAddr}
    (hn : n ∈ t.subscribers r) : s.registry.Has r ∧ n ∈ s.subscribers r ∧ t.idp r = s.idp r := by
  rcases hG.entry r hr with ⟨hne, hr'⟩ | ⟨-, -, -, hsub⟩
  · obtain ⟨-, hidp, -, hsub⟩ := hG.keep r hne
    exact ⟨hr', hsub ▸ hn, hidp⟩
  · rw [hsub] at hn
    cases hn

theorem chains (hG : Grown s t P P') (h : Guarded s P V) :
    t.lists.Chains t.nextFblock t.registry.Has := by
  refine ⟨fun r hr => ?_, fun r hr n hn => ?_⟩
  · show (t.subscribers r).Nodup
    rcases hG.entry r hr with ⟨hne, hr'⟩ | ⟨-, -, -, hsub⟩
    · rw [(hG.keep r hne).2.2.2]
      exact h.chains.nodup r hr'
    · rw [hsub]
      exact List.nodup_nil
  · obtain ⟨hr', hn', -⟩ := hG.node hr hn
    obtain ⟨hlt, hself⟩ := h.chains.node r hr' n hn'
    show n < t.nextNode ∧ t.self n < t.nextFblock
    rw [hG.nodes.1, hG.nodes.2.2]
    exact ⟨hlt, lt_of_lt_of_le hself hG.next⟩

theorem follows (hG : Grown s t P P') (h : Guarded s P V)
    (hV : V ∈ s.vlinks ∨ V = s.nextFblock) : t.lists.Follows V t.registry.Has t.idp := by
  intro r hr n hn hself
  obtain ⟨hr', hn', hidp⟩ := hG.node hr hn
  have hself' : s.self n = V := by
    rw [← hG.nodes.1]
    exact hself
  rcases hV with hV | rfl
  · obtain ⟨hmem, hrem⟩ := h.follows hV r hr' n hn' hself'
    show n ∈ t.notifiers V ∧ t.remote n = t.idp r
    rw [hG.notifiers, hG.nodes.2.1, hidp]
    exact ⟨hmem, hrem⟩
  · -- the new block owns no node
    have hlt : s.self n < s.nextFblock := (h.chains.node r hr' n hn').2
    exact absurd hself' (ne_of_lt hlt)

end Grown

/-- The construction of a block, which nothing refers to yet. -/
theorem Guarded.created (h : Guarded s P V) {area : Priv} {ops : FbType}
    (hC : Created s t area ops) (harea : area.ports = .free)
    (hwrap : s.idpCounter + 1 < 2 ^ 32) :
    ∃ P', Guarded t P' V ∧ (V = s.nextFblock → t.registry.Has V →
      Reciprocal t.registry.Has t.idp P' V ∧ t.lists.Follows V t.registry.Has t.idp) := by
  obtain ⟨P', hcopies, hG⟩ := hC.grown h.held.tables h.held.copies harea hwrap
  obtain ⟨Q, hH⟩ := h.held.created hC harea hwrap
  obtain rfl := hH.copies.unique hcopies
  refine ⟨_, ⟨h.sound.created hC, hH, hG.typed h, hG.plugged h, hG.chains h, fun hV => ?_⟩,
    fun hV hVH => ⟨hG.answered_new h hwrap hV hVH, hG.follows h (.inr hV)⟩⟩
  exact hG.follows h (.inl (hG.vlinks ▸ hV))

theorem Created.ops_new {area : Priv} {ops : FbType} (hC : Created s t area ops)
    (hT : Tables s.registry) (hmap : t.fblmap = Function.update s.fblmap s.nextIdp
      (some s.nextFblock)) : t.ops s.nextFblock = ops := by
  have hent : t.fblmap s.nextIdp = some s.nextFblock := by rw [hmap, Function.update_self]
  rcases hC.new _ _ hent with hold | ⟨-, -, -, -, -, -, hops, -⟩
  · exact absurd hold (hT.not_has_next _)
  · exact hops

theorem Guarded.add (h : Guarded s P V) (al : Alloc) (n : Name) (type : CStr)
    (hwrap : s.idpCounter + 1 < 2 ^ 32) : ∃ P', Guarded (userctlAdd al s n type).2 P' V := by
  obtain ⟨Q, hH⟩ := h.held.add al n type hwrap
  have hS := h.sound.add al n type
  rcases userctlAdd_result h.held.tables al n type with ⟨-, hq, -⟩ | ⟨f, -, -, -, hC, -⟩ |
    ⟨f, -, t, -, -, hC, -, hmap, -, -, -, heq⟩
  · exact ⟨P, h.touches (.of_quiet h.held.copies hq.registry hq.lists hq.ports) hS hH⟩
  · obtain ⟨P', hP', -⟩ := h.created hC rfl hwrap
    exact ⟨P', hP'⟩
  · obtain ⟨P', hP', -⟩ := h.created hC rfl hwrap
    rw [heq] at hS hH ⊢
    obtain rfl : Q = P' := hP'.held.copies.unique hH.copies
    refine ⟨Q, hP'.relabel hS hH ⟨fun a g hg => ?_, hP'.typed.vlinks⟩ fun hV =>
      ⟨hP'.plugged.answered hV, hP'.follows hV⟩⟩
    have hg' : Function.update t.factory s.nextFblock (some f) a = some g := hg
    rw [Function.update_apply] at hg'
    split_ifs at hg' with ha
    · obtain rfl := Option.some.inj hg'
      rw [ha]
      exact hC.ops_new h.held.tables hmap
    · exact hP'.typed.factory a g hg'

theorem of_update_none {m : Idp → Option Addr} {i j : Idp} {a : Addr}
    (h : Function.update m i none j = some a) : m j = some a := by
  rw [Function.update_apply] at h
  split_ifs at h
  exact h

theorem Guarded.remove (h : Guarded s P V) (n : Name) :
    Guarded (userctlRemove s n).2 P V := by
  have hH := h.held.remove n
  have hS := h.sound.remove n
  rcases userctlRemove_result s n with ⟨-, hq, -⟩ | ⟨a, f, -, -, -, -, hreg, hlists, -, -⟩
  · exact h.touches (.of_quiet h.held.copies hq.registry hq.lists hq.ports) hS hH
  · obtain ⟨tr, heq, -⟩ := unregisterNoRcu_spec h.held.tables.wf a
    rw [heq] at hreg
    exact h.shrink hS hH hreg (fun i b => of_update_none) (fun _ ha => ha) hlists

/-- A block is taken out of the tables, and maybe from its owner. -/
theorem Guarded.unregister (h : Guarded s P V) {fb : Addr} {l : List Addr}
    (hS : Sound { unregisterFblockNamespaceNoRcu s fb with vlinks := l })
    (hH : Held { unregisterFblockNamespaceNoRcu s fb with vlinks := l } P 0)
    (hl : ∀ a ∈ l, a ∈ s.vlinks) :
    Guarded { unregisterFblockNamespaceNoRcu s fb with vlinks := l } P V := by
  obtain ⟨tr, heq, -⟩ := unregisterNoRcu_spec h.held.tables.wf fb
  rw [heq] at hS hH ⊢
  have hreg : ∀ l, State.registry
      { s with fblmap := Function.update s.fblmap (s.idp fb) none, idpmap := tr, vlinks := l } =
      { s.registry with
        fblmap := Function.update s.fblmap (s.idp fb) none, idpmap := tr, vlinks := l } := fun _ => rfl
  exact h.shrink hS hH (hreg l) (fun i b => of_update_none) hl rfl

theorem Guarded.destroy (h : Guarded s P V) {fb : Addr} (hin : fb ∈ s.vlinks) :
    Guarded (destroyFblock s fb) P V := by
  refine h.unregister (h.sound.destroy hin) (h.held.destroy (h.sound.registry.kept fb hin).1)
    fun a ha => ?_
  have hvl : (unregisterFblockNamespaceNoRcu s fb).vlinks = s.vlinks := by
    obtain ⟨tr, m, heq⟩ := unregisterNoRcu_frame s fb
    rw [heq]
  rw [hvl] at ha
  exact List.mem_of_mem_erase ha

/-- A block without a factory is built and kept. -/
theorem Guarded.keepVlink (h : Guarded s P V) {ops : FbType} (hops : ops ≠ .tee) {dev sock : ℕ}
    {al : Alloc} {n : CStr} {fb : Addr}
    (hr : fbCtor ops false (Priv.init dev sock) al s n = (some fb, t))
    (hwrap : s.idpCounter + 1 < 2 ^ 32) : ∃ P', Guarded (keepVlink (some fb, t)) P' V := by
  have hC : Created s (fbCtor ops false (Priv.init dev sock) al s n).2 (Priv.init dev sock) ops :=
    fbCtor_created h.held.tables false al
  rw [hr] at hC
  change Created s t (Priv.init dev sock) ops at hC
  obtain ⟨hSt, hfb, hf, hout⟩ := h.sound.build hr
  obtain ⟨rfl, -, hmap, -⟩ := fbCtor_some h.held.tables hr
  obtain ⟨P', hP', hnew⟩ := h.created hC rfl hwrap
  refine ⟨P', hP'.relabel (hSt.keepVlink hfb hf hout) (hP'.held.withVlinks _)
    ⟨hP'.typed.factory, fun a ha => ?_⟩ fun hV => ?_⟩
  · rcases List.mem_cons.1 ha with rfl | ha
    · show t.ops s.nextFblock ≠ .tee
      rw [hC.ops_new h.held.tables hmap]
      exact hops
    · exact hP'.typed.vlinks a ha
  · rcases List.mem_cons.1 hV with rfl | hV
    · exact hnew rfl hfb
    · exact ⟨hP'.plugged.answered hV, hP'.follows hV⟩

theorem Guarded.buildVlink (h : Guarded s P V) {ops : FbType} (hops : ops ≠ .tee) (dev sock : ℕ)
    (al : Alloc) (n : CStr) (hwrap : s.idpCounter + 1 < 2 ^ 32) :
    ∃ P', Guarded (Lana.keepVlink (fbCtor ops false (Priv.init dev sock) al s n)) P' V := by
  rcases hr : fbCtor ops false (Priv.init dev sock) al s n with ⟨_ | fb, t⟩
  · have hC : Created s (fbCtor ops false (Priv.init dev sock) al s n).2 (Priv.init dev sock) ops :=
      fbCtor_created h.held.tables false al
    rw [hr] at hC
    obtain ⟨P', hP', -⟩ := h.created hC rfl hwrap
    exact ⟨P', hP'⟩
  · exact h.keepVlink hops hr hwrap

theorem Guarded.hookEth (h : Guarded s P V) (al : Alloc) (n : CStr) (dev : ℕ)
    (hwrap : s.idpCounter + 1 < 2 ^ 32) : ∃ P', Guarded (fbEthStartHookDev al s n dev) P' V := by
  have hC : Created s (fbCtor .eth false (Priv.init dev 0) al s n).2 (Priv.init dev 0) .eth :=
    fbCtor_created h.held.tables false al
  obtain ⟨P', hP', -⟩ := h.created hC rfl hwrap
  unfold fbEthStartHookDev fbEthBuildFblock
  rcases hr : fbCtor .eth false (Priv.init dev 0) al s n with ⟨_ | fb, t⟩ <;> rw [hr] at hP'
  · exact ⟨P', hP'⟩
  · dsimp only
    cases al.rxHandler
    · -- the block that could not be attached is taken out again
      obtain ⟨hSt, hfb, -, hout⟩ := h.sound.build hr
      obtain ⟨tr, m, heq⟩ := unregisterNoRcu_frame t fb
      have hvl : { unregisterFblockNamespaceNoRcu t fb with vlinks := t.vlinks } =
          unregisterFblockNamespaceNoRcu t fb := by rw [heq]
      have hun := @Guarded.unregister t P' V hP' fb t.vlinks
        (hvl.symm ▸ (hSt.unregister hfb).1 hout) (hvl.symm ▸ (hP'.held.unregister hfb).1)
        fun _ ha => ha
      rw [hvl] at hun
      exact ⟨P', hun⟩
    · exact h.keepVlink (by decide) hr hwrap

/-- A spare block takes the place of another one; `V` is neither of them. -/
theorem Plugged.replaced (h : Guarded s P V) {r : Registry} {fb1 fb2 : Addr} {f1 f2 : Factory}
    {dropPriv : Bool} (h1 : s.registry.Has fb1) (h2 : s.registry.Has fb2)
    (hf1 : s.factory fb1 = some f1) (hf2 : s.factory fb2 = some f2) (hcnt : s.refcnt fb2 ≤ 1)
    (hr : r = ((unregisterFblockNamespaceNoRcu s fb2).registry.migrate fb2 fb1).enter (s.idp fb1)
      (some fb2)) :
    Plugged r (if exchanges f1 f2 dropPriv then swapField P fb2 fb1 else P) V := by
  have hrep := replaced_tables h.held.tables hr
  have hhas := fun {a : Addr} => @has_replaced s h.held.tables fb1 fb2 r hr a
  have hspare : (P fb2).count = 0 := by
    have := h.held.refs fb2 h2
    rw [Pi.zero_apply] at this
    omega
  set P' := if exchanges f1 f2 dropPriv then swapField P fb2 fb1 else P with hP'
  have hother : ∀ {a : Addr}, a ≠ fb1 → a ≠ fb2 → P' a = P a := by
    intro a ha1 ha2
    rw [hP']
    split_ifs
    · exact swapField_of_ne ha2 ha1
    · rfl
  -- ports in use are those of a block that was entered under the same idp
  have hsource : ∀ {N : Addr} {i : Idp}, r.Has N → i ≠ idpUnknown → 1 ≤ (P' N).naming i →
      ∃ N', s.registry.Has N' ∧ P' N = P N' ∧ r.idp N = s.idp N' := by
    intro N i hN hi hpos
    rcases hhas hN with ⟨rfl, hidpN⟩ | ⟨hne1, hne2, hN', hidpN⟩
    · refine ⟨fb1, h1, ?_, hidpN⟩
      rw [hP'] at hpos ⊢
      split_ifs at hpos ⊢
      · exact swapField_dst
      · have := Ports.naming_le_count (P N) hi
        omega
    · exact ⟨N, hN', hother hne1 hne2, hidpN⟩
  refine ⟨fun N hN ht => ?_, fun N hN i hi hpos => ?_, fun hV => ?_⟩
  · rw [hrep.ops] at ht
    rcases hhas hN with ⟨rfl, -⟩ | ⟨hne1, hne2, hN', -⟩
    · rw [hP']
      split_ifs with hexch
      · -- areas are exchanged between blocks of one type
        obtain rfl := Factory.type_injective (of_decide_eq_true hexch).1
        have hops1 : s.ops fb1 = f1.ops := h.typed.factory fb1 f1 hf1
        have hops2 : s.ops N = f1.ops := h.typed.factory N f1 hf2
        rw [swapField_dst]
        exact h.plugged.clone fb1 h1 fun htee => ht (hops2.trans (hops1.symm.trans htee))
      · exact h.plugged.clone N h2 ht
    · rw [hother hne1 hne2]
      exact h.plugged.clone N hN' ht
  · obtain ⟨N', hN', hPN, -⟩ := hsource hN hi hpos
    rw [hPN] at hpos
    rw [hrep.idpCounter]
    exact h.plugged.known N' hN' i hi hpos
  · have hV' : V ∈ s.vlinks := by
      rw [hrep.vlinks] at hV
      exact hV
    obtain ⟨hVH, hVf⟩ := h.sound.registry.kept V hV'
    have hVne : ∀ {a : Addr} {f : Factory}, s.factory a = some f → V ≠ a := by
      rintro a f hf rfl
      exact absurd (hf.symm.trans hVf) (Option.some_ne_none f)
    have hidpV : r.idp V = s.idp V := by
      rw [hrep.idp]
      exact Function.update_of_ne (hVne hf2) ..
    have hPV : P' V = P V := hother (hVne hf1) (hVne hf2)
    have hne : s.idp V ≠ idpUnknown := h.held.idp_ne hVH
    have hR : Reciprocal s.registry.Has s.idp P V := h.plugged.answered hV'
    refine ⟨fun N hN d hd => ?_, fun N hN => ?_⟩
    · rw [hidpV] at hd
      obtain ⟨N', hN', hPN, hidpN⟩ := hsource hN hne (Ports.naming_pos_of_port hd)
      rw [hPN] at hd
      rw [hPV, hidpN]
      exact hR.port N' hN' d hd
    · rw [hidpV, hPV]
      by_cases hzero : (P' N).naming (s.idp V) = 0
      · rw [hzero]
        exact Nat.zero_le _
      · obtain ⟨N', hN', hPN, hidpN⟩ := hsource hN hne (Nat.one_le_iff_ne_zero.2 hzero)
        rw [hPN, hidpN]
        exact hR.naming N' hN'

theorem Guarded.replace (h : Guarded s P V) {al : Alloc} (hal : al.radix = true) (n1 n2 : Name)
    (dropPriv : Bool) : ∃ P', Guarded (userctlReplace al s n1 n2 dropPriv).2 P' V := by
  obtain ⟨Q, hH⟩ := h.held.replace hal n1 n2 dropPriv
  have hS := h.sound.replace hal n1 n2 dropPriv
  rcases userctlReplace_result h.held.copies (fun a ha => h.held.pos ha) al n1 n2 dropPriv with
    ⟨-, hq⟩ | ⟨a, -, -, hreg, hlists, hports, -⟩ |
    ⟨fb1, fb2, f1, f2, h1, h2, hf1, hf2, hne, hcnt, -, hreg, hlists, hP, -⟩
  · exact ⟨P, h.touches (.of_quiet h.held.copies hq.registry hq.lists hq.ports) hS hH⟩
  · exact ⟨P, h.touches (.of_quiet h.held.copies hreg hlists hports) hS hH⟩
  rw [hal, if_pos rfl] at hreg
  obtain rfl := hP.unique hH.copies
  have hH1 := has_of_lookup h1
  have hH2 := has_of_lookup h2
  have hT := h.held.tables
  have hR := replaced_tables hT hreg
  have hhas := fun {a : Addr} => @has_replaced s hT fb1 fb2 _ hreg a
  have hnext' : (userctlReplace al s n1 n2 dropPriv).2.nextFblock = s.nextFblock := hR.nextFblock
  refine ⟨_, hS, hH, ⟨fun a f hf => ?_, fun a ha => ?_⟩,
    Plugged.replaced h hH1 hH2 hf1 hf2 hcnt hreg, ?_, fun hV => ?_⟩
  · rw [hR.factory] at hf
    rw [hR.ops]
    exact h.typed.factory a f hf
  · rw [hR.vlinks] at ha
    rw [hR.ops]
    exact h.typed.vlinks a ha
  · rw [hlists, hnext']
    refine h.chains.migrate (h.held.lt_next hH2) (h.held.lt_next hH1) hH1 fun r hr => ?_
    rcases hhas hr with ⟨rfl, -⟩ | ⟨hne1, hne2, hr', -⟩
    · exact .inl rfl
    · exact .inr ⟨hne1, hne2, hr'⟩
  · have hV' : V ∈ s.vlinks := by
      rw [← hR.vlinks]
      exact hV
    have hVf : s.factory V = none := (h.sound.registry.kept V hV').2
    have hVne : ∀ {a : Addr} {f : Factory}, s.factory a = some f → V ≠ a := by
      rintro a f hf rfl
      exact absurd (hf.symm.trans hVf) (Option.some_ne_none f)
    rw [hlists]
    exact (h.follows hV').migrate (hVne hf2) (hVne hf1) hH1 fun r hr => hhas hr

end Commands

/-! ## Runs -/

section Runs

variable {s t : State} {P : Addr → Ports} {V : Addr}

/-- The unbindings of `lana_sk_free`. -/
theorem Guarded.skUnbind (h : Guarded s P V) (cpu : Cpu) {fb : Addr} (hin : fb ∈ s.vlinks)
    (hc : (Cmd.closeSock fb cpu).Clears V s) : ∃ P', Guarded (lanaSkUnbind cpu s fb) P' V := by
  have hfb := (h.sound.registry.kept fb hin).1
  obtain ⟨hc1, hc2⟩ := hc hin
  obtain ⟨Q, hH⟩ := h.held.skUnbind cpu hfb hc1 fun a ha hacc => hc2 _ rfl a ha hacc
  obtain ⟨P1, h1⟩ := @touches_unbindBound s P V h.held.copies cpu fb .ingress
    (fun s bound => fblockUnbind s bound fb) fun a ha =>
      touches_unbind (h.held.copies.addRefs (ref a)) ⟨_, ha⟩ hfb (hc1 a ha)
  have hreg : (lanaSkUnbindIngress cpu s fb).registry = s.registry := h1.registry
  obtain ⟨P2, h2⟩ := @touches_unbindBound _ P1 V h1.copies cpu fb .egress
    (fun s bound => fblockUnbind s fb bound) fun a ha =>
      touches_unbind (h1.copies.addRefs (ref a)) (hreg.symm ▸ hfb) ⟨_, ha⟩ (hc2 _ rfl a ha)
  exact ⟨P2, h.touches (h1.trans h2) (h.sound.prims (Prims.skFree cpu s fb)) hH⟩

/-- **Step.** A command whose unsubscriptions are clean keeps the invariant. -/
theorem guarded_exec (h : Guarded s P V) {c : Cmd} (hc : c.Clears V s) (hleft : c.IdpLeft s)
    (hins : (Action.cmd c).Inserts) : ∃ P', Guarded (c.exec s) P' V := by
  obtain ⟨Q, hH⟩ := held_clears h.held h.sound hc hleft hins
  have hS : Sound (c.exec s) := sound_exec h.sound hins
  have hP := h.held.copies
  cases c with
  | add n type al => exact h.add al n type (hleft rfl)
  | rm n => exact ⟨P, h.remove n⟩
  | bind n1 n2 al =>
    obtain ⟨P', hT⟩ := @touches_withTuple s P V hP n1 n2 (fblockBind al) fun a b ha hb =>
      touches_bind (hP.addRefs _) (has_of_lookup ha) (has_of_lookup hb) al (hc a ha b hb)
    exact ⟨P', h.touches hT hS hH⟩
  | unbind n1 n2 =>
    obtain ⟨P', hT⟩ := @touches_withTuple s P V hP n1 n2 fblockUnbind fun a b ha hb =>
      touches_unbind (hP.addRefs _) (has_of_lookup ha) (has_of_lookup hb) (hc a ha b hb)
    exact ⟨P', h.touches hT hS hH⟩
  | replace n1 n2 dropPriv al => exact h.replace hins n1 n2 dropPriv
  | subscribe n1 n2 al =>
    obtain ⟨P', hT⟩ := @touches_withTuple s P V hP n1 n2
      (fun s fb1 fb2 => subscribeToRemoteFblock al.fn1 s fb2 fb1) fun a b ha hb =>
        ⟨P, touches_subscribe (hP.addRefs _) al.fn1 (has_of_lookup hb) (has_of_lookup ha)⟩
    exact ⟨P', h.touches hT hS hH⟩
  | unsubscribe n1 n2 =>
    obtain ⟨P', hT⟩ := @touches_withTuple s P V hP n1 n2
      (fun s fb1 fb2 => (.ok, unsubscribeFromRemoteFblock s fb2 fb1)) fun a b ha hb =>
        ⟨P, touches_unsubscribe (hP.addRefs _) (has_of_lookup ha) (hc a ha b hb)⟩
    exact ⟨P', h.touches hT hS hH⟩
  | hookEth n dev al => exact h.hookEth al n dev (hleft rfl)
  | addEthvlink n vdev al => exact h.buildVlink (by decide) vdev 0 al n (hleft rfl)
  | openSock n sock al => exact h.buildVlink (by decide) 0 sock al n (hleft rfl)
  | stopVlink fb =>
    show ∃ P', Guarded (removeVlink s fb) P' V
    unfold removeVlink
    split_ifs with hin
    · exact ⟨P, h⟩
    · exact ⟨P, h.destroy hin⟩
    · exact ⟨P, h⟩
  | closeSock fb cpu =>
    show ∃ P', Guarded (lanaSkFree cpu s fb) P' V
    unfold lanaSkFree
    split_ifs with hin
    · obtain ⟨P', hP'⟩ := h.skUnbind cpu hin hc
      have hvl : (lanaSkUnbind cpu s fb).vlinks = s.vlinks :=
        congrArg Registry.vlinks (Prims.skFree cpu s fb).registry
      exact ⟨P', hP'.destroy (hvl.symm ▸ hin)⟩
    · exact ⟨P, h⟩

theorem guarded_init (online : OnlineCpus) (V : Addr) :
    Guarded (State.init online) (fun _ => .free) V where
  sound := sound_init online
  held := held_init online
  typed := ⟨fun _ _ hf => (by cases hf), fun _ ha => (by cases ha)⟩
  plugged := ⟨fun _ ⟨_, hi⟩ => (by cases hi), fun _ ⟨_, hi⟩ => (by cases hi), fun hV => (by cases hV)⟩
  chains := ⟨fun _ ⟨_, hi⟩ => (by cases hi), fun _ ⟨_, hi⟩ => (by cases hi)⟩
  follows := fun hV => by cases hV

/-! ## Destruction -/

/-- No port of an entered block and no subscription names `V`, and no chain of an entered block
holds a node of `V`. -/
structure Unreferenced (s : State) (V : Addr) : Prop where
  ports : ∀ N, s.registry.Has N → ∀ c ∈ s.online.cpus,
    (∀ d, (s.privateData N c).port d ≠ s.idp V) ∧ (s.privateData N c).portClone ≠ s.idp V
  nodes : ∀ u, ∀ n ∈ s.notifiers u, s.remote n ≠ s.idp V
  chains : ∀ r, s.registry.Has r → ∀ n ∈ s.subscribers r, s.self n ≠ V

/-- The command destroys `V`, and `t` is the state in which it does. -/
inductive Destroys (s : State) (V : Addr) : Cmd → State → Prop
  | stop (hV : V ∈ s.vlinks) (hcnt : atomicRead (s.refcnt V) ≤ 2) : Destroys s V (.stopVlink V) s
  | close (cpu : Cpu) (hV : V ∈ s.vlinks) (hcpu : cpu ∈ s.online.cpus) :
      Destroys s V (.closeSock V cpu) (lanaSkUnbind cpu s V)

theorem Destroys.mem {c : Cmd} (h : Destroys s V c t) : V ∈ s.vlinks := by
  cases h with
  | stop hV => exact hV
  | close _ hV => exact hV

theorem Destroys.exec {c : Cmd} (h : Destroys s V c t)
    (hread : atomicRead (s.refcnt V) = s.refcnt V) : c.exec s = destroyFblock t V := by
  cases h with
  | stop hV hcnt =>
    show removeVlink s V = _
    rw [hread] at hcnt
    unfold removeVlink
    rw [if_neg (not_not.2 hV), if_neg (not_lt.2 hcnt)]
  | close cpu hV =>
    show lanaSkFree cpu s V = _
    unfold lanaSkFree
    rw [if_neg (not_not.2 hV)]
    rfl

/-- A block with one reference has no port in use and no subscription in either direction. -/
theorem Held.alone (h : Held s P 0) (hV : s.registry.Has V) (hone : s.refcnt V ≤ 1) :
    (P V).count = 0 ∧ s.notifiers V = [] ∧ s.lists.inbound s.nextFblock (s.idp V) = 0 := by
  have hrefs := h.refs V hV
  rw [Pi.zero_apply] at hrefs
  have hcard : (s.lists.remotes V).card = 0 := by omega
  refine ⟨by omega, ?_, by omega⟩
  have hmap : (s.lists.notifiers V).map s.lists.remote = [] :=
    (Multiset.coe_eq_zero _).1 (Multiset.card_eq_zero.1 hcard)
  exact List.map_eq_nil_iff.1 hmap

theorem Guarded.unreferenced (h : Guarded s P V) (hV : V ∈ s.vlinks) (hone : s.refcnt V ≤ 1) :
    Unreferenced s V := by
  have hVH := (h.sound.registry.kept V hV).1
  obtain ⟨hcount, hnil, hin⟩ := h.held.alone hVH hone
  have hR := h.plugged.answered hV
  have hnone : ∀ N, s.registry.Has N → (P N).naming (s.idp V) = 0 := by
    intro N hN
    have h1 : (P N).naming (s.idp V) ≤ (P V).naming (s.idp N) := hR.naming N hN
    have h2 := Ports.naming_le_count (P V) (h.held.idp_ne hN)
    omega
  refine ⟨fun N hN c hc => ⟨fun d hd => ?_, fun hclone => ?_⟩, fun u n hn heq => ?_,
    fun r hr n hn hself => ?_⟩
  · have hport : (P N).port d = s.idp V := by
      rw [← h.held.copies N c hc]
      exact hd
    have := Ports.naming_pos_of_port hport
    rw [hnone N hN] at this
    omega
  · have hport : (P N).clone = s.idp V := by
      rw [← h.held.copies N c hc]
      exact hclone
    have := Ports.naming_pos_of_clone hport
    rw [hnone N hN] at this
    omega
  · have hmem : s.idp V ∈ s.lists.remotes u := heq ▸ Lists.remote_mem hn
    by_cases hu : u < s.nextFblock
    · have := (Finset.sum_eq_zero_iff.1 hin) u (Finset.mem_range.2 hu)
      exact Multiset.count_eq_zero.1 this hmem
    · have hfresh : s.notifiers u = [] := h.held.fresh u (not_lt.1 hu)
      rw [hfresh] at hn
      cases hn
  · have := (h.follows hV r hr n hn hself).1
    rw [show s.lists.notifiers V = [] from hnil] at this
    cases this

/-- The release of a socket whose block has no port in use finds nothing to unbind. -/
theorem lanaSkUnbind_alone (h : Held s P 0) (hcount : (P V).count = 0) {cpu : Cpu}
    (hcpu : cpu ∈ s.online.cpus) : lanaSkUnbind cpu s V = s := by
  have hport : ∀ d, (s.privateData V cpu).port d = idpUnknown := by
    intro d
    by_contra hne
    have hP : (P V).port d = (s.privateData V cpu).port d := by
      rw [← h.copies V cpu hcpu]
      rfl
    have h1 := Ports.naming_pos_of_port hP
    have h2 := Ports.naming_le_count (P V) hne
    omega
  have hnone : ∀ (d : PathType) (f : State → Addr → Ret × State),
      unbindBound cpu s V d f = s := by
    intro d f
    rcases unbindBound_cases cpu s V d f with heq | ⟨a, ha, -⟩
    · exact heq
    · rw [hport, show s.fblmap idpUnknown = none from h.numbered.unknown] at ha
      cases ha
  have hingress : lanaSkUnbindIngress cpu s V = s := hnone ..
  unfold lanaSkUnbind
  rw [hingress]
  exact hnone ..

/-- **Destruction.** In every run of fewer than 2 ^ 26 commands whose unsubscriptions find their
nodes, those of `V` not at the head of its list, in which replacements are entered and idps are
left: when `V` is destroyed while the tables hold the only reference to it, nothing refers to it. -/
theorem destroyed_unreferenced (online : OnlineCpus) (cmds : List Cmd) (V : Addr)
    (hlen : cmds.length < 2 ^ 26)
    (hok : Transition.Allowed Cmd.exec
      (fun s c => c.Clears V s ∧ c.IdpLeft s ∧ (Action.cmd c).Inserts) (State.init online) cmds)
    (c : Cmd) (t : State) (hd : Destroys (run (State.init online) cmds) V c t)
    (hone : atomicRead ((run (State.init online) cmds).refcnt V) ≤ 1) :
    c.exec (run (State.init online) cmds) = destroyFblock t V ∧ Unreferenced t V := by
  have hread := atomicRead_run online hlen V
  rw [hread] at hone
  have hstep : ∀ s (c : Cmd), (∃ P, Guarded s P V) →
      c.Clears V s ∧ c.IdpLeft s ∧ (Action.cmd c).Inserts → ∃ P, Guarded (c.exec s) P V := by
    rintro s c ⟨P, hP⟩ ⟨hc, hleft, hins⟩
    exact guarded_exec hP hc hleft hins
  obtain ⟨P, h⟩ := Transition.invariant_of_allowed (I := fun s => ∃ P, Guarded s P V) hstep
    ⟨_, guarded_init online V⟩ hok
  change Guarded (run (State.init online) cmds) P V at h
  refine ⟨hd.exec hread, ?_⟩
  have hun := h.unreferenced hd.mem hone
  cases hd with
  | stop => exact hun
  | close cpu hV hcpu =>
    have hcount := (h.held.alone (h.sound.registry.kept V hV).1 hone).1
    rw [lanaSkUnbind_alone h.held hcount hcpu]
    exact hun

/-- `a` is subscribed to the block of a hooked device for a while. -/
def hookRun : List Cmd :=
  [.hookEth nameS 7 .ok, .add nameA Factory.dummy.type .ok, .subscribe nameS nameA .ok,
    .unsubscribe nameS nameA]

theorem destroyed_unreferenced_hook :
    (run (State.init oneCpu) hookRun).refcnt 0 = 1 ∧
      Unreferenced (run (State.init oneCpu) hookRun) 0 :=
  ⟨by decide, (destroyed_unreferenced oneCpu hookRun 0 (by decide) (by decide) (.stopVlink 0) _
    (.stop (by decide) (by decide)) (by decide)).2⟩

/-- `a` stays subscribed. -/
def watchedRun : List Cmd :=
  [.hookEth nameS 7 .ok, .add nameA Factory.dummy.type .ok, .subscribe nameS nameA .ok]

/-- A socket is bound to `a`. -/
def sockRun : List Cmd :=
  [.openSock nameS 7 .ok, .add nameA Factory.dummy.type .ok, .bind nameS nameA .ok]

/-- The hook is stopped with a subscription to its block left, and the release of a bound socket
leaves a node of its block on the chain of `a`. -/
theorem destroyed_referenced :
    (∃ t, Destroys (run (State.init oneCpu) watchedRun) 0 (.stopVlink 0) t ∧
      ∃ n ∈ t.notifiers 1, t.remote n = t.idp 0) ∧
    ∃ t, Destroys (run (State.init oneCpu) sockRun) 0 (.closeSock 0 0) t ∧
      t.fblmap 2 = some 1 ∧ ∃ n ∈ t.subscribers 1, t.self n = 0 :=
  ⟨⟨_, .stop (by decide) (by decide), by decide⟩,
    ⟨_, .close 0 (by decide) (by decide), by decide, by decide⟩⟩

end Runs

end Lana
