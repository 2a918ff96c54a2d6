import Lana.Fblock.Lists
import Lana.User.Registry
import Lana.Library.Wiring

/-!
# The wiring of two-port blocks

Over blocks with two ports the bindings form a wiring: every port in use names a registered block
whose opposite port names it back.  `Linked` is the invariant of the commands add, rm, bind,
unbind and same-type replace, beside the creation of device and socket blocks: the wiring, the
notifier nodes (one of each side per binding) and the counts (three references per port in use).
-/

namespace Lana

open State Wiring

/-- The ports of the registered blocks, by idp. -/
def Registry.net (r : Registry) (P : Addr → Ports) : Net Idp PathType :=
  fun i => (r.fblmap i).map fun a => (P a).port

theorem PathType.flip_flip (d : PathType) : d.flip.flip = d := by
  cases d <;> rfl

theorem PathType.flip_ne (d : PathType) : d.flip ≠ d := by
  cases d <;> decide

section Net

variable {r : Registry} {P : Addr → Ports}

theorem net_idp (hT : Tables r) {a : Addr} (ha : r.Has a) :
    r.net P (r.idp a) = some (P a).port := by
  unfold Registry.net
  rw [hT.fblmap_idp ha]
  rfl

/-- A new value of one port, in the net. -/
theorem net_set (hT : Tables r) {a : Addr} (ha : r.Has a) (d : PathType) (j : Idp) :
    r.net (Function.update P a ((P a).set d j)) = setPort (r.net P) (r.idp a) d j := by
  funext i
  rw [setPort_apply]
  unfold Registry.net
  rcases hi : r.fblmap i with _ | x
  · rfl
  · simp only [Option.map_some, Option.some.injEq]
    by_cases hx : x = a
    · subst hx
      rw [Function.update_self, (hT.stored i x hi).1]
      funext e
      show Function.update (P x).port d j e = _
      rw [Function.update_apply]
      simp
    · rw [Function.update_of_ne hx]
      have hne : i ≠ r.idp a := by
        rintro rfl
        exact hx (Option.some.inj (hi.symm.trans (hT.fblmap_idp ha)))
      simp [hne]

end Net

/-! ## Peers -/

/-- The idps in the ports of a two-port block. -/
def Ports.peers (p : Ports) : Multiset Idp :=
  ({p.port .ingress, p.port .egress} : Multiset Idp).filter (· ≠ idpUnknown)

theorem Ports.peers_set_bind {p : Ports} {d : PathType} {j : Idp} (hp : p.port d = idpUnknown)
    (hj : j ≠ idpUnknown) : (p.set d j).peers = j ::ₘ p.peers := by
  cases d
  · have h1 : (p.set .ingress j).port .egress = p.port .egress := rfl
    unfold peers
    rw [set_self, h1, hp]
    simp only [Multiset.insert_eq_cons, ne_eq, Multiset.filter_cons, hj, not_false_eq_true, if_true,
      not_true_eq_false, if_false, zero_add]
    rfl
  · have h1 : (p.set .egress j).port .ingress = p.port .ingress := rfl
    unfold peers
    rw [set_self, h1, hp]
    simp only [Multiset.insert_eq_cons, ne_eq, Multiset.filter_cons, Multiset.filter_singleton, hj,
      not_false_eq_true, if_true, not_true_eq_false, if_false]
    rw [add_comm]
    simp

theorem Ports.peers_set_unbind {p : Ports} {d : PathType} {j : Idp} (hp : p.port d = j)
    (hj : j ≠ idpUnknown) : p.peers = j ::ₘ (p.set d idpUnknown).peers := by
  have h : (p.set d idpUnknown).set d j = p := by rw [Ports.set_set, ← hp, Ports.set_port]
  rw [← peers_set_bind (set_self p d idpUnknown) hj, h]

/-- The nodes of a registered block are those of its ports in use. -/
def Nodes (r : Registry) (l : Lists) (P : Addr → Ports) : Prop :=
  ∀ a, r.Has a → l.remotes a = (P a).peers

section Nodes

variable {r : Registry} {l : Lists} {P : Addr → Ports} {a : Addr} {d : PathType} {j : Idp}

theorem Nodes.link (h : Nodes r l P) (hal : l.Allocated) (hp : (P a).port d = idpUnknown)
    (hj : j ≠ idpUnknown) (remote : Addr) :
    Nodes r (l.link j a remote) (Function.update P a ((P a).set d j)) := by
  intro x hx
  rw [Lists.remotes_link hal]
  split_ifs with hxa
  · subst hxa
    rw [Function.update_self, Ports.peers_set_bind hp hj, h x hx]
  · rw [Function.update_of_ne hxa, h x hx]

theorem Nodes.unlink (h : Nodes r l P) (hp : (P a).port d = j) (hj : j ≠ idpUnknown)
    (remote : Addr) :
    Nodes r (l.unlink j a remote) (Function.update P a ((P a).set d idpUnknown)) := by
  intro x hx
  by_cases hxa : x = a
  · subst hxa
    rw [Lists.remotes_unlink, Function.update_self, h x hx, Ports.peers_set_unbind hp hj,
      Multiset.erase_cons_head]
  · rw [Lists.remotes_unlink_other l j remote hxa, Function.update_of_ne hxa, h x hx]

/-- A port in use comes with a node. -/
theorem Nodes.ne_nil (h : Nodes r l P) (ha : r.Has a) (hp : (P a).port d = j)
    (hj : j ≠ idpUnknown) : l.notifiers a ≠ [] := by
  intro hnil
  have := h a ha
  rw [Ports.peers_set_unbind hp hj] at this
  unfold Lists.remotes at this
  rw [hnil, List.map_nil, Multiset.coe_nil] at this
  exact Multiset.zero_ne_cons this

end Nodes

/-! ## The invariant -/

/-- The wiring, the nodes and the counts of two-port blocks. -/
structure Linked (s : State) (P : Addr → Ports) : Prop where
  tables : Tables s.registry
  numbered : Numbered s.registry
  copies : Copies s P
  wired : Wired PathType.flip idpUnknown (s.registry.net P)
  two : ∀ a, s.registry.Has a → s.registry.ops a ≠ .tee
  unclone : ∀ a, s.registry.Has a → (P a).clone = idpUnknown
  allocated : s.lists.Allocated
  fresh : ∀ a, s.registry.nextFblock ≤ a → s.lists.notifiers a = []
  nodes : Nodes s.registry s.lists P
  refs : ∀ a, s.registry.Has a → 1 + 3 * ((P a).count : ℤ) ≤ s.refcnt a ∧
    (s.registry.factory a ≠ none → s.refcnt a = 1 + 3 * ((P a).count : ℤ))

theorem net_congr {r : Registry} {P P' : Addr → Ports} (h : ∀ a, r.Has a → P' a = P a) :
    r.net P' = r.net P := by
  funext i
  unfold Registry.net
  rcases hi : r.fblmap i with _ | a
  · rfl
  · simp only [Option.map_some, h a ⟨i, hi⟩]

theorem clone_update_two {P : Addr → Ports} {a b x : Addr} {d e : PathType} {i j : Idp} :
    (Function.update (Function.update P a ((P a).set d i)) b
      ((Function.update P a ((P a).set d i) b).set e j) x).clone = (P x).clone := by
  have hone : ∀ y, (Function.update P a ((P a).set d i) y).clone = (P y).clone := fun y => by
    rw [Function.update_apply]
    split_ifs with hy
    · rw [hy, Ports.set_clone]
    · rfl
  rw [Function.update_apply]
  split_ifs with hx
  · rw [Ports.set_clone, hone, hx]
  · exact hone x

namespace Linked

variable {s s' : State} {P P' : Addr → Ports} {a b : Addr} {r : Ret × State}

theorem pos (h : Linked s P) (a : Addr) (ha : s.registry.Has a) : 1 ≤ s.refcnt a := by
  have := (h.refs a ha).1
  omega

theorem idp_ne (h : Linked s P) (ha : s.registry.Has a) : s.idp a ≠ idpUnknown :=
  h.numbered.ne_unknown (h.tables.fblmap_idp ha)

theorem ops_ne (h : Linked s P) (ha : s.registry.Has a) : s.ops a ≠ .tee := h.two a ha

theorem ne_of_fresh (h : Linked s P) (ha : s.registry.Has a) {x : Addr}
    (hx : s.registry.nextFblock ≤ x) : x ≠ a := by
  obtain ⟨i, hi⟩ := ha
  exact ne_of_gt (lt_of_lt_of_le (h.tables.stored i a hi).2 hx)

theorem congr (h : Linked s P) (hreg : s'.registry = s.registry) (hlists : s'.lists = s.lists)
    (href : s'.refcnt = s.refcnt) (hP : Copies s' P')
    (hPP : ∀ a, s.registry.Has a → P' a = P a) : Linked s' P' := by
  refine ⟨hreg ▸ h.tables, hreg ▸ h.numbered, hP, ?_, hreg ▸ h.two, fun a ha => ?_,
    hlists ▸ h.allocated, ?_, fun a ha => ?_, fun a ha => ?_⟩
  · rw [hreg, net_congr hPP]
    exact h.wired
  · rw [hreg] at ha
    rw [hPP a ha]
    exact h.unclone a ha
  · rw [hreg, hlists]
    exact h.fresh
  · rw [hreg] at ha
    rw [hlists, hPP a ha]
    exact h.nodes a ha
  · rw [hreg] at ha
    rw [hreg, href, hPP a ha]
    exact h.refs a ha

theorem quiet (h : Linked s P) (hq : Quiet s s') : Linked s' P :=
  h.congr hq.registry hq.lists hq.refcnt (hq.copies h.copies) fun _ _ => rfl

/-- The ports of two bound blocks name each other. -/
theorem symm (h : Linked s P) (ha : s.registry.Has a) (hb : s.registry.Has b) (d : PathType) :
    (P a).port d = s.idp b ↔ (P b).port d.flip = s.idp a :=
  h.wired.symm PathType.flip_flip (net_idp h.tables ha) (net_idp h.tables hb) d

theorem bind (h : Linked s P) (ha : s.registry.Has a) (hb : s.registry.Has b)
    (hr : BindResult s P a b r) (hreg : r.2.registry = s.registry) : ∃ P', Linked r.2 P' := by
  rcases hr with ⟨P', -, hP, -, htwo, hlists, href⟩ | ⟨Q1, Q2, h1, h2, -, hP, hlists, href⟩
  · exact ⟨P', h.congr hreg hlists href hP fun x hx => htwo x (h.ops_ne hx)⟩
  · have hca := Ports.count_bind h1 (h.idp_ne hb)
    have hcb := Ports.count_bind h2 (h.idp_ne ha)
    have hcount := fun x => count_update_two (k := 1) (P := P) (a := a) (b := b) (x := x)
      (by rw [hca]; push_cast; rfl) (by rw [hcb]; push_cast; rfl)
    rw [Ports.bind_two (h.ops_ne ha)] at h1
    rw [Ports.bind_two (h.ops_ne hb)] at h2
    split_ifs at h1 h2 with hpa hpb
    obtain rfl := Option.some.inj h1
    obtain rfl := Option.some.inj h2
    have hpb' : (P b).port .ingress = idpUnknown := by
      by_cases hba : b = a
      · subst hba
        rw [Function.update_self] at hpb
        exact hpb
      · rwa [Function.update_of_ne hba] at hpb
    refine ⟨_, hreg ▸ h.tables, hreg ▸ h.numbered, hP, ?_, hreg ▸ h.two, fun x hx => ?_, ?_, ?_, ?_,
      ?_⟩
    · rw [hreg, net_set h.tables hb, net_set h.tables ha]
      exact h.wired.connect PathType.flip_flip (PathType.flip_ne _) (net_idp h.tables ha)
        (net_idp h.tables hb) hpa hpb'
    · rw [clone_update_two]
      exact h.unclone x (hreg ▸ hx)
    · rw [hlists]
      exact (h.allocated.link _ _ _).link _ _ _
    · intro x hx
      rw [hreg] at hx
      rw [hlists, Lists.link_other _ _ _ (h.ne_of_fresh hb hx),
        Lists.link_other _ _ _ (h.ne_of_fresh ha hx)]
      exact h.fresh x hx
    · rw [hreg, hlists]
      exact (h.nodes.link h.allocated hpa (h.idp_ne hb) b).link (h.allocated.link _ _ _) hpb
        (h.idp_ne ha) a
    · intro x hx
      rw [hreg] at hx
      rw [hreg, href, hcount x]
      obtain ⟨hle, heq⟩ := h.refs x hx
      have hsum : (s.refcnt + 3 • (ref a + ref b)) x = s.refcnt x + 3 * (ref a x + ref b x) := by
        rw [Pi.add_apply, Pi.smul_apply, Pi.add_apply, nsmul_eq_mul]
        rfl
      rw [hsum]
      refine ⟨by omega, fun hf => ?_⟩
      have := heq hf
      omega

theorem unbind (h : Linked s P) (ha : s.registry.Has a) (hb : s.registry.Has b)
    (hr : UnbindResult s P a b r) (hreg : r.2.registry = s.registry) : ∃ P', Linked r.2 P' := by
  rcases hr with ⟨-, -, hP, hlists, href⟩ | ⟨Q1, h1, h2, -, -, -, -⟩ |
    ⟨Q1, Q2, h1, h2, -, hP, hlists, href⟩
  · exact ⟨P, h.congr hreg hlists href hP fun _ _ => rfl⟩
  · -- the second block names the first back, so that it cannot refuse
    rw [Ports.unbind_two (h.ops_ne ha)] at h1
    rw [Ports.unbind_two (h.ops_ne hb)] at h2
    split_ifs at h1 h2 with hpa hpb
    obtain rfl := Option.some.inj h1
    have hback : (P b).port .ingress = s.idp a := (h.symm ha hb .egress).1 hpa
    refine absurd ?_ hpb
    by_cases hba : b = a
    · subst hba
      rw [Function.update_self]
      exact hback
    · rwa [Function.update_of_ne hba]
  · have hca := Ports.count_unbind h1 (h.idp_ne hb)
    have hcb := Ports.count_unbind h2 (h.idp_ne ha)
    have hcount : ∀ x, ((Function.update (Function.update P a Q1) b Q2 x).count : ℤ) =
        (P x).count + -1 * (ref a x + ref b x) := count_update_two (by omega) (by omega)
    rw [Ports.unbind_two (h.ops_ne ha)] at h1
    rw [Ports.unbind_two (h.ops_ne hb)] at h2
    split_ifs at h1 h2 with hpa hpb
    obtain rfl := Option.some.inj h1
    obtain rfl := Option.some.inj h2
    have hnodes1 : Nodes s.registry (s.lists.unlink (s.idp b) a b) _ :=
      h.nodes.unlink hpa (h.idp_ne hb) b
    have hne1 : s.notifiers a ≠ [] := h.nodes.ne_nil ha hpa (h.idp_ne hb)
    have hne2 : (s.lists.unlink (s.idp b) a b).notifiers b ≠ [] :=
      hnodes1.ne_nil hb hpb (h.idp_ne ha)
    refine ⟨_, hreg ▸ h.tables, hreg ▸ h.numbered, hP, ?_, hreg ▸ h.two, fun x hx => ?_, ?_, ?_, ?_,
      ?_⟩
    · rw [hreg, net_set h.tables hb, net_set h.tables ha]
      exact h.wired.disconnect PathType.flip_flip (net_idp h.tables ha) (net_idp h.tables hb) hpa
    · rw [clone_update_two]
      exact h.unclone x (hreg ▸ hx)
    · rw [hlists]
      exact (h.allocated.unlink _ _ _).unlink _ _ _
    · intro x hx
      rw [hreg] at hx
      rw [hlists, Lists.unlink_other _ _ _ (h.ne_of_fresh hb hx),
        Lists.unlink_other _ _ _ (h.ne_of_fresh ha hx)]
      exact h.fresh x hx
    · rw [hreg, hlists]
      exact hnodes1.unlink hpb (h.idp_ne ha) a
    · intro x hx
      rw [hreg] at hx
      rw [hreg, href, hcount x, if_neg hne1, if_neg hne2]
      obtain ⟨hle, heq⟩ := h.refs x hx
      simp only [Pi.sub_apply, Pi.add_apply]
      refine ⟨by omega, fun hf => ?_⟩
      have := heq hf
      omega

theorem toReferenced (h : Linked s P) : Referenced s P := ⟨h.copies, fun a ha => (h.refs a ha).1⟩

/-- A block with one reference has free ports. -/
theorem ports_free (h : Linked s P) (ha : s.registry.Has a) (hcnt : s.refcnt a ≤ 1)
    (d : PathType) : (P a).port d = idpUnknown := by
  have hzero := h.toReferenced.count_zero ha hcnt
  unfold Ports.count at hzero
  by_contra hne
  have hused := Ports.used_of_ne hne
  cases d <;> omega

theorem remove (h : Linked s P) (ha : s.registry.Has a) (hcnt : s.refcnt a ≤ 1)
    (hreg : s'.registry = (unregisterFblockNamespaceNoRcu s a).registry)
    (hlists : s'.lists = s.lists) (hP : Copies s' P)
    (href : ∀ x, x ≠ a → s'.refcnt x = s.refcnt x) : Linked s' P := by
  have hT := tables_unregister h.tables ha
  obtain ⟨t, heq, -, -⟩ := unregisterNoRcu_spec h.tables.wf a
  rw [← hreg] at hT
  rw [heq] at hreg
  have hmap : s'.registry.fblmap = Function.update s.fblmap (s.idp a) none :=
    congrArg Registry.fblmap hreg
  have hold : ∀ {i x}, s'.registry.fblmap i = some x → s.fblmap i = some x ∧ x ≠ a := by
    intro i x hi
    rw [hmap, Function.update_apply] at hi
    split_ifs at hi with hne
    refine ⟨hi, ?_⟩
    rintro rfl
    exact hne (h.tables.stored i x hi).1.symm
  have hhas : ∀ {x}, s'.registry.Has x → s.registry.Has x ∧ x ≠ a := by
    rintro x ⟨i, hi⟩
    exact ⟨⟨i, (hold hi).1⟩, (hold hi).2⟩
  have hnet : s'.registry.net P = Function.update (s.registry.net P) (s.idp a) none := by
    funext i
    unfold Registry.net
    rw [hmap, Function.update_apply, Function.update_apply]
    split_ifs <;> rfl
  refine ⟨hT, ⟨?_, fun i x hi => ?_⟩, hP, ?_, fun x hx => ?_,
    fun x hx => h.unclone x (hhas hx).1, hlists ▸ h.allocated, ?_, fun x hx => ?_, fun x hx => ?_⟩
  · rw [hreg]
    exact h.numbered.lt
  · rw [show s'.registry.idpCounter = s.idpCounter from congrArg Registry.idpCounter hreg]
    exact h.numbered.entry i x (hold hi).1
  · rw [hnet]
    exact h.wired.erase (net_idp h.tables ha) (h.ports_free ha hcnt)
  · rw [show s'.registry.ops = s.ops from congrArg Registry.ops hreg]
    exact h.two x (hhas hx).1
  · rw [show s'.registry.nextFblock = s.nextFblock from congrArg Registry.nextFblock hreg, hlists]
    exact h.fresh
  · rw [hlists]
    exact h.nodes x (hhas hx).1
  · rw [show s'.registry.factory = s.factory from congrArg Registry.factory hreg,
      href x (hhas hx).2]
    exact h.refs x (hhas hx).1

/-- The net after a constructor: at most one more block, with free ports. -/
theorem wired_created {area : Priv} {ops : FbType} (h : Linked s P) (hC : Created s s' area ops)
    {Q : Ports} (hfree : ∀ i, s'.fblmap i = some s.nextFblock → Q = Ports.free)
    (hwrap : s.idpCounter + 1 < 2 ^ 32) :
    Wired PathType.flip idpUnknown (s'.registry.net (Function.update P s.nextFblock Q)) := by
  have hold : s.registry.net (Function.update P s.nextFblock Q) = s.registry.net P := by
    refine net_congr fun a ⟨i, hi⟩ => Function.update_of_ne ?_ ..
    rintro rfl
    exact h.tables.not_has_next i hi
  rcases hC.fblmap_cases with hmap | ⟨hmap, hnone, -⟩
  · have hsame : s'.registry.net (Function.update P s.nextFblock Q) =
        s.registry.net (Function.update P s.nextFblock Q) := by
      unfold Registry.net
      rw [show s'.registry.fblmap = s.registry.fblmap from hmap]
    rw [hsame, hold]
    exact h.wired
  · have hent : s'.fblmap s.nextIdp = some s.nextFblock := by rw [hmap, Function.update_self]
    have hone : s'.registry.net (Function.update P s.nextFblock Q) =
        Function.update (s.registry.net P) s.nextIdp (some fun _ => idpUnknown) := by
      rw [← hold]
      funext i
      unfold Registry.net
      rw [show s'.registry.fblmap = _ from hmap, Function.update_apply, Function.update_apply]
      split_ifs
      · rw [Option.map_some, Function.update_self, hfree _ hent]
        rfl
      · rfl
    rw [hone]
    refine h.wired.insert ?_ fun e => ?_
    · unfold Registry.net
      rw [show s.registry.fblmap s.nextIdp = none from hnone]
      rfl
    · have hnext := nextIdp_toNat hwrap
      rw [e] at hnext
      exact absurd hnext (Nat.succ_ne_zero _).symm

theorem created {area : Priv} {ops : FbType} (h : Linked s P) (hC : Created s s' area ops)
    (harea : area.ports = Ports.free) (hops : ops ≠ .tee) (hwrap : s.idpCounter + 1 < 2 ^ 32) :
    ∃ P', Linked s' P' ∧ ∀ i, s'.fblmap i = some s.nextFblock → P' s.nextFblock = Ports.free := by
  obtain ⟨Q, hP, hQ⟩ := hC.copies h.copies
  have hlists : s'.lists.notifiers = s.lists.notifiers := hC.notifiers
  have hremote : s'.lists.remote = s.lists.remote := hC.nodes.2.1
  have hremotes : ∀ a, s'.lists.remotes a = s.lists.remotes a := fun a => by
    unfold Lists.remotes
    rw [hlists, hremote]
  have hne : ∀ {i a}, s.fblmap i = some a → a ≠ s.nextFblock := by
    rintro i a hi rfl
    exact h.tables.not_has_next i hi
  have hfree : ∀ i, s'.fblmap i = some s.nextFblock → Q = Ports.free := fun i hi => by
    rw [hQ i hi (fun e => hne e rfl), harea]
  refine ⟨_, ⟨hC.tables, hC.numbered h.numbered hwrap, hP, h.wired_created hC hfree hwrap, ?_, ?_, ?_, ?_, ?_, ?_⟩,
    fun i hi => ?_⟩
  · rintro a ⟨i, hi⟩
    show s'.ops a ≠ .tee
    rcases hC.new i a hi with hi | ⟨rfl, -, -, -, -, -, ho, -⟩
    · rw [(hC.keep a (hne hi)).2.2.1]
      exact h.two a ⟨i, hi⟩
    · rwa [ho]
  · rintro a ⟨i, hi⟩
    rcases hC.new i a hi with hi | ⟨rfl, -⟩
    · rw [Function.update_of_ne (hne hi)]
      exact h.unclone a ⟨i, hi⟩
    · rw [Function.update_self, hfree i hi]
      rfl
  · intro a n hn
    rw [hlists] at hn
    rw [show s'.lists.nextNode = s.lists.nextNode from hC.nodes.2.2]
    exact h.allocated a n hn
  · intro a ha
    rw [hlists]
    exact h.fresh a (hC.next.trans ha)
  · rintro a ⟨i, hi⟩
    rw [hremotes]
    rcases hC.new i a hi with hi | ⟨rfl, -⟩
    · rw [Function.update_of_ne (hne hi)]
      exact h.nodes a ⟨i, hi⟩
    · rw [Function.update_self, hfree i hi]
      have hnil : s.lists.notifiers s.nextFblock = [] := h.fresh _ le_rfl
      unfold Lists.remotes
      rw [hnil]
      rfl
  · rintro a ⟨i, hi⟩
    show 1 + _ ≤ s'.refcnt a ∧ (s'.factory a ≠ none → s'.refcnt a = _)
    rcases hC.new i a hi with hi | ⟨rfl, -, -, -, -, href, -⟩
    · rw [Function.update_of_ne (hne hi), (hC.keep a (hne hi)).2.2.2.2.1, hC.factory]
      exact h.refs a ⟨i, hi⟩
    · rw [Function.update_self, hfree i hi, href, Ports.count_free]
      exact ⟨by norm_num, fun _ => by norm_num⟩
  · rw [Function.update_self, hfree i hi]

/-- The net after a replacement: the second block in the place of the first, with its ports. -/
theorem net_replaced {fb1 fb2 : Addr} {r : Registry} (hT : Tables s.registry)
    (h1 : s.registry.Has fb1) (h2 : s.registry.Has fb2) (hne : fb2 ≠ fb1)
    (hmap : ∀ i, r.fblmap i = if i = s.idp fb1 then some fb2 else if i = s.idp fb2 then none
      else s.fblmap i) (P : Addr → Ports) :
    r.net (swapField P fb2 fb1) = Function.update (s.registry.net P) (s.idp fb2) none := by
  have e1 : s.registry.fblmap (s.idp fb1) = some fb1 := hT.fblmap_idp h1
  have hidp : s.idp fb2 ≠ s.idp fb1 := fun e => hne (hT.idp_inj h2 h1 e)
  funext i
  rw [Function.update_apply]
  unfold Registry.net
  rw [hmap]
  by_cases hi1 : i = s.idp fb1
  · rw [if_pos hi1, if_neg (by rw [hi1]; exact hidp.symm), hi1, e1, Option.map_some,
      Option.map_some, swapField_dst]
  · rw [if_neg hi1]
    split_ifs with hi2
    · rfl
    · rcases hi : s.fblmap i with _ | a
      · rw [show s.registry.fblmap i = none from hi]
        rfl
      · have ha1 : a ≠ fb1 := by
          rintro rfl
          exact hi1 (hT.stored i a hi).1.symm
        have ha2 : a ≠ fb2 := by
          rintro rfl
          exact hi2 (hT.stored i a hi).1.symm
        rw [show s.registry.fblmap i = some a from hi, Option.map_some, Option.map_some,
          swapField_of_ne ha2 ha1]

theorem replace {fb1 fb2 : Addr} (h : Linked s P) (h1 : s.registry.Has fb1)
    (h2 : s.registry.Has fb2) (hne : fb2 ≠ fb1) (hcnt : s.refcnt fb2 ≤ 1)
    (hops : s.ops fb2 ≠ .tee) (hf1 : s.factory fb1 ≠ none)
    (hreg : s'.registry = ((unregisterFblockNamespaceNoRcu s fb2).registry.migrate fb2 fb1).enter
      (s.idp fb1) (some fb2))
    (hlists : s'.lists = s.lists.migrate fb2 fb1) (hP : Copies s' (swapField P fb2 fb1))
    (href : s'.refcnt = swapField s.refcnt fb2 fb1 - ref fb1) :
    Linked s' (swapField P fb2 fb1) := by
  have hR := replaced_tables h.tables hreg
  have e1 : s.fblmap (s.idp fb1) = some fb1 := h.tables.fblmap_idp h1
  have hcases := fun {i a} => @entry_replaced s fb1 fb2 h.tables s'.registry hreg i a
  have hnet := net_replaced h.tables h1 h2 hne hR.fblmap P
  have hremotes : ∀ a, (s.lists.migrate fb2 fb1).remotes a = swapField s.lists.remotes fb2 fb1 a :=
    fun a => (swapField_comp (fun l : List NodeAddr => ((l.map s.remote : List Idp) : Multiset Idp)) a)
  refine ⟨?_, ⟨?_, fun i a hi => ?_⟩, hP, ?_, ?_, ?_, ?_, ?_, ?_, ?_⟩
  · rw [hreg]
    exact tables_replaced h.tables h1 h2
  · rw [hR.idpCounter]
    exact h.numbered.lt
  · rw [hR.idpCounter]
    rcases hcases hi with ⟨-, rfl⟩ | ⟨-, -, hi⟩
    · exact h.numbered.entry _ _ e1
    · exact h.numbered.entry i a hi
  · rw [hnet]
    exact h.wired.erase (net_idp h.tables h2) (h.ports_free h2 hcnt)
  · rintro a ⟨i, hi⟩
    rw [hR.ops]
    rcases hcases hi with ⟨rfl, -⟩ | ⟨-, -, hi⟩
    · exact hops
    · exact h.two a ⟨i, hi⟩
  · rintro a ⟨i, hi⟩
    rcases hcases hi with ⟨rfl, -⟩ | ⟨ha1, ha2, hi⟩
    · rw [swapField_dst]
      exact h.unclone fb1 h1
    · rw [swapField_of_ne ha2 ha1]
      exact h.unclone a ⟨i, hi⟩
  · intro a n hn
    rw [hlists] at hn ⊢
    have hn' : n ∈ swapField s.lists.notifiers fb2 fb1 a := hn
    show n < s.lists.nextNode
    unfold swapField at hn'
    simp only [Function.update_apply] at hn'
    split_ifs at hn' <;> exact h.allocated _ n hn'
  · intro a ha
    rw [hR.nextFblock] at ha
    rw [hlists]
    show swapField s.lists.notifiers fb2 fb1 a = []
    rw [swapField_of_ne (h.ne_of_fresh h2 ha) (h.ne_of_fresh h1 ha)]
    exact h.fresh a ha
  · rintro a ⟨i, hi⟩
    rw [hlists, hremotes]
    rcases hcases hi with ⟨rfl, -⟩ | ⟨ha1, ha2, hi⟩
    · rw [swapField_dst, swapField_dst]
      exact h.nodes fb1 h1
    · rw [swapField_of_ne ha2 ha1, swapField_of_ne ha2 ha1]
      exact h.nodes a ⟨i, hi⟩
  · rintro a ⟨i, hi⟩
    rw [href, Pi.sub_apply, hR.factory]
    rcases hcases hi with ⟨rfl, -⟩ | ⟨ha1, ha2, hi⟩
    · rw [swapField_dst, swapField_dst, ref_of_ne hne, sub_zero]
      exact ⟨(h.refs fb1 h1).1, fun _ => (h.refs fb1 h1).2 hf1⟩
    · rw [swapField_of_ne ha2 ha1, swapField_of_ne ha2 ha1, ref_of_ne ha1, sub_zero]
      exact h.refs a ⟨i, hi⟩

/-- Who owns the blocks matters for the counts alone. -/
theorem setOwners (h : Linked s P) {F : Addr → Option Factory} {V : List Addr}
    (hs' : s' = { s with factory := F, vlinks := V })
    (hF : ∀ a, s.registry.Has a → F a ≠ none → s.refcnt a = 1 + 3 * ((P a).count : ℤ)) :
    Linked s' P := by
  subst hs'
  have hT := h.tables
  exact ⟨⟨hT.wf, hT.short, hT.named, hT.stored⟩, ⟨h.numbered.lt, h.numbered.entry⟩, h.copies,
    h.wired, h.two, h.unclone, h.allocated, h.fresh, h.nodes,
    fun a ha => ⟨(h.refs a ha).1, hF a ha⟩⟩

end Linked

/-! ## Commands -/

/-- The two names stand for blocks of one type, as far as they stand for blocks with a factory. -/
def SameType (s : State) (n1 n2 : Name) : Prop :=
  ∀ f1 ∈ (s.lookup n1).bind s.factory, ∀ f2 ∈ (s.lookup n2).bind s.factory, f1 = f2

instance (s : State) (n1 n2 : Name) : Decidable (SameType s n1 n2) :=
  inferInstanceAs (Decidable (∀ f1 ∈ (s.lookup n1).bind s.factory,
    ∀ f2 ∈ (s.lookup n2).bind s.factory, f1 = f2))

/-- Two blocks with a factory, the second otherwise unreferenced: the first would be replaced. -/
def Replaces (s : State) (n1 n2 : Name) : Prop :=
  ∃ a ∈ s.lookup n1, ∃ b ∈ s.lookup n2, (s.factory a).isSome ∧ (s.factory b).isSome ∧
    s.refcnt b ≤ 1

instance (s : State) (n1 n2 : Name) : Decidable (Replaces s n1 n2) :=
  inferInstanceAs (Decidable (∃ a ∈ s.lookup n1, ∃ b ∈ s.lookup n2, (s.factory a).isSome ∧
    (s.factory b).isSome ∧ s.refcnt b ≤ 1))

/-- The commands over two-port blocks and the blocks of devices and sockets.  A binding out of
memory meets no nodes of earlier bindings, and there is memory for the entry of a replacement. -/
def Cmd.TwoPort (s : State) : Cmd → Prop
  | .add _ type _ => type ≠ Factory.tee.type
  | .rm _ => True
  | .bind n1 n2 al => ∀ a ∈ s.lookup n1, ∀ b ∈ s.lookup n2, RollsBack al s a b
  | .unbind _ _ => True
  | .replace n1 n2 dropPriv al =>
    dropPriv = false ∧ (Replaces s n1 n2 → al.radix = true) ∧ SameType s n1 n2
  | .hookEth .. | .addEthvlink .. | .openSock .. => True
  | _ => False

instance (s : State) : ∀ c : Cmd, Decidable (c.TwoPort s)
  | .add _ type _ => inferInstanceAs (Decidable (type ≠ Factory.tee.type))
  | .rm _ | .unbind .. | .hookEth .. | .addEthvlink .. | .openSock .. =>
    inferInstanceAs (Decidable True)
  | .bind n1 n2 al =>
    inferInstanceAs (Decidable (∀ a ∈ s.lookup n1, ∀ b ∈ s.lookup n2, RollsBack al s a b))
  | .replace n1 n2 dropPriv al => inferInstanceAs (Decidable (dropPriv = false ∧
      (Replaces s n1 n2 → al.radix = true) ∧ SameType s n1 n2))
  | .subscribe .. | .unsubscribe .. | .stopVlink .. | .closeSock .. =>
    inferInstanceAs (Decidable False)

section Commands

variable {s s' : State} {P : Addr → Ports}

/-- The end of the commands that build a block without a factory. -/
theorem Linked.keepVlink {r : Option Addr × State} (h : Linked r.2 P) :
    Linked (keepVlink r) P := by
  obtain ⟨_ | fb, t⟩ := r
  · exact h
  · exact h.setOwners (F := t.factory) rfl fun a ha => (h.refs a ha).2

theorem linked_add (h : Linked s P) (al : Alloc) (n : Name) {type : CStr}
    (htype : type ≠ Factory.tee.type) (hwrap : s.idpCounter + 1 < 2 ^ 32) :
    ∃ P', Linked (userctlAdd al s n type).2 P' := by
  have hops : ∀ f : Factory, f.type = type → f.ops ≠ .tee := by
    rintro (_ | _ | _ | _) hf
    · decide
    · decide
    · decide
    · exact absurd hf.symm htype
  rcases userctlAdd_result h.tables al n type with ⟨-, hq, -⟩ | ⟨f, hf, -, -, hC, -⟩ |
    ⟨f, hf, t, -, -, hC, -, hmap, -, -, -, heq⟩
  · exact ⟨P, h.quiet hq⟩
  · obtain ⟨P', h', -⟩ := h.created hC rfl (hops f hf) hwrap
    exact ⟨P', h'⟩
  · obtain ⟨P', h', hfree⟩ := h.created hC rfl (hops f hf) hwrap
    refine ⟨P', h'.setOwners heq fun a ha hfa => ?_⟩
    by_cases hne : a = s.nextFblock
    · subst hne
      obtain ⟨i, hi⟩ := ha
      rcases hC.new i _ hi with hi' | ⟨-, -, -, -, -, href, -⟩
      · exact absurd hi' (h.tables.not_has_next i)
      · rw [hfree i hi, href, Ports.count_free]
        norm_num
    · rw [Function.update_of_ne hne] at hfa
      exact (h'.refs a ha).2 hfa

theorem linked_remove (h : Linked s P) (n : Name) : Linked (userctlRemove s n).2 P := by
  rcases userctlRemove_result s n with ⟨-, hq, -⟩ |
    ⟨a, f, hlookup, -, hcnt, -, hreg, hlists, hports, href⟩
  · exact h.quiet hq
  · have ha := has_of_lookup hlookup
    obtain ⟨t, heq, -⟩ := unregisterNoRcu_spec h.tables.wf a
    refine h.remove ha hcnt hreg hlists (h.copies.of_ports ?_ hports) fun x hx => ?_
    · refine (congrArg Registry.online hreg).trans ?_
      rw [heq]
      rfl
    · rw [href, Pi.sub_apply, ref_of_ne hx, sub_zero]

theorem linked_replace (h : Linked s P) {al : Alloc} {n1 n2 : Name}
    (hal : Replaces s n1 n2 → al.radix = true) (hsame : SameType s n1 n2) :
    ∃ P', Linked (userctlReplace al s n1 n2 false).2 P' := by
  rcases userctlReplace_result h.copies h.pos al n1 n2 false with ⟨-, hq⟩ |
    ⟨a, -, hf, hreg, hlists, hports, href⟩ |
    ⟨fb1, fb2, f1, f2, h1, h2, hf1, hf2, hne, hcnt, -, hreg, hlists, hP, href⟩
  · exact ⟨P, h.quiet hq⟩
  · -- a lost reference to a block without a factory
    have hT := h.tables
    refine ⟨P, hreg ▸ hT, hreg ▸ h.numbered, h.copies.of_ports (congrArg Registry.online hreg) hports,
      hreg ▸ h.wired, hreg ▸ h.two, hreg ▸ h.unclone, hlists ▸ h.allocated, ?_, ?_, fun x hx => ?_⟩
    · rw [hreg, hlists]
      exact h.fresh
    · rw [hreg, hlists]
      exact h.nodes
    · rw [hreg] at hx
      obtain ⟨hle, heq⟩ := h.refs x hx
      have hnn := ref_nonneg a x
      rw [hreg, href, Pi.add_apply]
      refine ⟨by omega, fun hfx => ?_⟩
      have hxa : x ≠ a := by
        rintro rfl
        exact hfx hf
      rw [ref_of_ne hxa, add_zero]
      exact heq hfx
  · have hff : f1 = f2 := hsame f1 (by rw [h1]; exact hf1) f2 (by rw [h2]; exact hf2)
    have hexch : exchanges f1 f2 false = true := by
      unfold exchanges
      simp [hff]
    have hrepl : Replaces s n1 n2 :=
      ⟨fb1, h1, fb2, h2, by rw [hf1]; rfl, by rw [hf2]; rfl, hcnt⟩
    rw [hal hrepl, if_pos rfl] at hreg
    rw [hexch, if_pos rfl] at hP
    exact ⟨_, h.replace (has_of_lookup h1) (has_of_lookup h2) hne hcnt
      (h.ops_ne (has_of_lookup h2)) (by rw [hf1]; exact Option.some_ne_none _) hreg hlists hP href⟩

/-- A binding that was undone, in the frame of its handler. -/
theorem Linked.undone {a b : Addr} (h : Linked s P)
    (hu : Undone (s.addRefs (ref a + ref b)) s' P) (hreg : s'.registry = s.registry) :
    Linked (putFblock (putFblock s' a) b) P := by
  have hreg' : (putFblock (putFblock s' a) b).registry = s.registry := by
    rw [registry_putFblock, registry_putFblock, hreg]
  have href : (putFblock (putFblock s' a) b).refcnt = s.refcnt :=
    (refcnt_put_two s (Δ := 0) (hu.refcnt.trans (add_zero _).symm)).trans (add_zero _)
  refine ⟨hreg' ▸ h.tables, hreg' ▸ h.numbered, (hu.copies.putFblock a).putFblock b,
    hreg' ▸ h.wired, hreg' ▸ h.two, hreg' ▸ h.unclone, ?_, ?_, ?_, ?_⟩
  · rw [lists_put_two]
    exact hu.allocated
  · rw [lists_put_two, hreg']
    intro x hx
    exact (congrFun hu.notifiers x).trans (h.fresh x hx)
  · rw [lists_put_two, hreg']
    intro x hx
    exact (hu.remotes x).trans (h.nodes x hx)
  · rw [hreg', href]
    exact h.refs

theorem linked_bind (h : Linked s P) (al : Alloc) (n1 n2 : Name)
    (hroll : ∀ a ∈ s.lookup n1, ∀ b ∈ s.lookup n2, RollsBack al s a b) :
    ∃ P', Linked (userctlBind al s n1 n2).2 P' := by
  unfold userctlBind
  rcases withTuple_cases s n1 n2 (fblockBind al) with ⟨-, hq⟩ | ⟨a, b, h1, h2, heq⟩
  · exact ⟨P, h.quiet hq⟩
  have ha := has_of_lookup h1
  have hb := has_of_lookup h2
  have hreg := registry_fblockBind al (s.addRefs (ref a + ref b)) a b
  rw [heq]
  rcases fblockBind_cases (h.copies.addRefs (ref a + ref b)) al a b with hr | hf
  · refine h.bind ha hb hr.tuple ?_
    rw [registry_putFblock, registry_putFblock, hreg]
    rfl
  · exact ⟨P, h.undone (hf.undo h.allocated (h.ops_ne ha) (h.ops_ne hb) (hroll a h1 b h2)) hreg⟩

theorem linked_unbind (h : Linked s P) (n1 n2 : Name) :
    ∃ P', Linked (userctlUnbind s n1 n2).2 P' := by
  rcases userctlUnbind_cases h.copies n1 n2 with hq | ⟨a, b, h1, h2, hr⟩
  · exact ⟨P, h.quiet hq⟩
  · exact h.unbind (has_of_lookup h1) (has_of_lookup h2) hr (registry_userctlUnbind s n1 n2)

/-- A block without a factory is built and kept. -/
theorem linked_build (h : Linked s P) (hwrap : s.idpCounter + 1 < 2 ^ 32) {ops : FbType}
    (hops : ops ≠ .tee) (al : Alloc) (n : CStr) (dev sock : ℕ) :
    ∃ P', Linked (keepVlink (fbCtor ops false (Priv.init dev sock) al s n)) P' := by
  have hC : Created s (fbCtor ops false (Priv.init dev sock) al s n).2 (Priv.init dev sock) ops :=
    fbCtor_created h.tables false al
  obtain ⟨P', h', -⟩ := h.created hC rfl hops hwrap
  exact ⟨P', h'.keepVlink⟩

theorem linked_hookEth (h : Linked s P) (hwrap : s.idpCounter + 1 < 2 ^ 32) (al : Alloc)
    (n : CStr) (dev : ℕ) : ∃ P', Linked (fbEthStartHookDev al s n dev) P' := by
  have hC : Created s (fbCtor .eth false (Priv.init dev 0) al s n).2 (Priv.init dev 0) .eth :=
    fbCtor_created h.tables false al
  obtain ⟨P', h', -⟩ := h.created hC rfl (by decide) hwrap
  unfold fbEthStartHookDev fbEthBuildFblock
  rcases hr : fbCtor .eth false (Priv.init dev 0) al s n with ⟨_ | fb, t⟩ <;> rw [hr] at hC h'
  · exact ⟨P', h'⟩
  · obtain ⟨rfl, -, hmap, -⟩ := fbCtor_some h.tables hr
    dsimp only
    cases al.rxHandler
    · -- the handler cannot be registered: the new block goes again
      have hent : t.fblmap s.nextIdp = some s.nextFblock := by rw [hmap, Function.update_self]
      have hcnt : t.refcnt s.nextFblock ≤ 1 := by
        rcases hC.new _ _ hent with hi | ⟨-, -, -, -, -, href, -⟩
        · exact absurd hi (h.tables.not_has_next _)
        · rw [href]
      obtain ⟨u, v, heq⟩ := unregisterNoRcu_frame t s.nextFblock
      refine ⟨P', h'.remove ⟨_, hent⟩ hcnt rfl ?_ ?_ fun x _ => ?_⟩
      · show (unregisterFblockNamespaceNoRcu t s.nextFblock).lists = t.lists
        rw [heq]
        rfl
      · show Copies (unregisterFblockNamespaceNoRcu t s.nextFblock) P'
        rw [heq]
        exact h'.copies
      · show (unregisterFblockNamespaceNoRcu t s.nextFblock).refcnt x = t.refcnt x
        rw [heq]
    · exact ⟨P', Linked.keepVlink (r := (some s.nextFblock, t)) h'⟩

/-- **Step.** Every command over two-port blocks keeps the wiring. -/
theorem linked_exec (h : Linked s P) {c : Cmd} (hc : c.TwoPort s)
    (hwrap : c.IdpLeft s) : ∃ P', Linked (c.exec s) P' := by
  cases c with
  | add n type al => exact linked_add h al n hc (hwrap rfl)
  | rm n => exact ⟨P, linked_remove h n⟩
  | bind n1 n2 al => exact linked_bind h al n1 n2 hc
  | unbind n1 n2 => exact linked_unbind h n1 n2
  | replace n1 n2 dropPriv al =>
    obtain ⟨rfl, hal, hsame⟩ := hc
    exact linked_replace h hal hsame
  | hookEth n dev al => exact linked_hookEth h (hwrap rfl) al n dev
  | addEthvlink n vdev al => exact linked_build h (hwrap rfl) (by decide) al n vdev 0
  | openSock n sock al => exact linked_build h (hwrap rfl) (by decide) al n 0 sock
  | _ => exact absurd hc id

end Commands

theorem linked_init (online : OnlineCpus) : Linked (State.init online) fun _ => Ports.free where
  tables := tables_init online
  numbered := numbered_init online
  copies := fun _ _ _ => rfl
  wired := ⟨rfl, fun i p d h => by cases h⟩
  two := fun a ⟨i, hi⟩ => by cases hi
  unclone := fun _ _ => rfl
  allocated := fun a n hn => by cases hn
  fresh := fun _ _ => rfl
  nodes := fun a ⟨i, hi⟩ => by cases hi
  refs := fun a ⟨i, hi⟩ => by cases hi

/-- **Run.** The wiring holds after every run of such commands while there are idps left. -/
theorem linked_run {s : State} {cmds : List Cmd} (h : ∃ P, Linked s P)
    (hok : Transition.Allowed Cmd.exec (fun s c => c.TwoPort s ∧ c.IdpLeft s) s cmds) :
    ∃ P, Linked (run s cmds) P := by
  have hstep : ∀ s (c : Cmd), (∃ P, Linked s P) → c.TwoPort s ∧ c.IdpLeft s →
      ∃ P, Linked (c.exec s) P := by
    rintro s c ⟨P, hP⟩ ⟨htwo, hleft⟩
    exact linked_exec hP htwo hleft
  exact Transition.invariant_of_allowed (I := fun s => ∃ P, Linked s P) hstep h hok

end Lana
