import Lana.Fblock.Binding
import Lana.Fblock.Lists

/-!
# Held references

Who holds the references of an entered block: the tables one, each port in use one, each notifier
node one for its owner and one for its remote block, and the function that is running the rest
(`δ`).  `Held` bounds the count from below by this sum.  Every function of the backend gives back
what it took, so that a `put_fblock` with a reference at hand never reaches 0 on a block that is
entered.  The one exception is an unsubscription that finds no node.
-/

namespace Lana

open State

/-! ## References held by nodes -/

/-- The nodes of the blocks below `k` whose remote block has the idp `i`. -/
def Lists.inbound (l : Lists) (k : Addr) (i : Idp) : ℕ :=
  ∑ u ∈ Finset.range k, (l.remotes u).count i

section Inbound

variable {l : Lists} {k us : Addr} {i : Idp}

theorem Lists.inbound_split (l : Lists) (hus : us < k) (j : Idp) :
    l.inbound k j = (l.remotes us).count j +
      ∑ u ∈ (Finset.range k).erase us, (l.remotes u).count j :=
  (Finset.add_sum_erase _ _ (Finset.mem_range.2 hus)).symm

theorem Lists.inbound_link (h : l.Allocated) (hus : us < k) (i : Idp) (remote : Addr) (j : Idp) :
    (l.link i us remote).inbound k j = l.inbound k j + if j = i then 1 else 0 := by
  have hrest : ∑ u ∈ (Finset.range k).erase us, ((l.link i us remote).remotes u).count j =
      ∑ u ∈ (Finset.range k).erase us, (l.remotes u).count j := by
    refine Finset.sum_congr rfl fun u hu => ?_
    rw [remotes_link h, if_neg (Finset.ne_of_mem_erase hu)]
  rw [inbound_split _ hus, inbound_split _ hus, hrest, remotes_link h, if_pos rfl,
    Multiset.count_cons]
  omega

theorem Lists.inbound_unlink (hus : us < k) (hi : i ∈ l.remotes us) (remote : Addr) (j : Idp) :
    (l.unlink i us remote).inbound k j + (if j = i then 1 else 0) = l.inbound k j := by
  have hrest : ∑ u ∈ (Finset.range k).erase us, ((l.unlink i us remote).remotes u).count j =
      ∑ u ∈ (Finset.range k).erase us, (l.remotes u).count j := by
    refine Finset.sum_congr rfl fun u hu => ?_
    rw [remotes_unlink_other l i remote (Finset.ne_of_mem_erase hu)]
  rw [inbound_split _ hus, inbound_split l hus, hrest, remotes_unlink]
  split_ifs with hj
  · have hpos := Multiset.count_pos.2 hi
    rw [hj, Multiset.count_erase_self]
    omega
  · rw [Multiset.count_erase_of_ne hj]
    omega

/-- Blocks without nodes do not count. -/
theorem Lists.inbound_mono (hk : k ≤ us) (h : ∀ u, k ≤ u → l.notifiers u = []) (j : Idp) :
    l.inbound us j = l.inbound k j := by
  refine (Finset.sum_subset (Finset.range_mono hk) fun u _ hu => ?_).symm
  unfold remotes
  rw [h u (by simpa using hu)]
  rfl

end Inbound

/-! ## The accounting -/

/-- The running function holds `δ`. -/
structure Held (s : State) (P : Addr → Ports) (δ : Addr → ℤ) : Prop where
  tables : Tables s.registry
  numbered : Numbered s.registry
  copies : Copies s P
  allocated : s.lists.Allocated
  known : ∀ u, ∀ i ∈ s.lists.remotes u, i.toNat ≤ s.idpCounter
  fresh : ∀ u, s.nextFblock ≤ u → s.lists.notifiers u = []
  refs : ∀ a, s.registry.Has a → 1 + ((P a).count : ℤ) + ((s.lists.remotes a).card : ℤ) +
    (s.lists.inbound s.nextFblock (s.idp a) : ℤ) + δ a ≤ s.refcnt a
  safe : ∀ r ∈ s.released, ∀ i, r.fblmap i ≠ some r.fb

namespace Held

variable {s : State} {P : Addr → Ports} {δ : Addr → ℤ}

theorem pos (h : Held s P δ) {a : Addr} (ha : s.registry.Has a) : 1 + δ a ≤ s.refcnt a := by
  have := h.refs a ha
  omega

theorem lt_next (h : Held s P δ) {a : Addr} (ha : s.registry.Has a) : a < s.nextFblock := by
  obtain ⟨i, hi⟩ := ha
  exact (h.tables.stored i a hi).2

theorem idp_ne (h : Held s P δ) {a : Addr} (ha : s.registry.Has a) : s.idp a ≠ idpUnknown := by
  obtain ⟨i, hi⟩ := ha
  have hidp : s.idp a = i := (h.tables.stored i a hi).1
  rw [hidp]
  exact h.numbered.ne_unknown hi

theorem mono {ε : Addr → ℤ} (h : Held s P δ) (hle : ∀ a, s.registry.Has a → ε a ≤ δ a) :
    Held s P ε := by
  refine { h with refs := fun a ha => ?_ }
  have := h.refs a ha
  have := hle a ha
  omega

theorem addRefs (h : Held s P δ) (ε : Addr → ℤ) : Held (s.addRefs ε) P (δ + ε) := by
  refine ⟨h.tables, h.numbered, h.copies, h.allocated, h.known, h.fresh, fun a ha => ?_, h.safe⟩
  have := h.refs a ha
  show 1 + ((P a).count : ℤ) + ((s.lists.remotes a).card : ℤ) +
    (s.lists.inbound s.nextFblock (s.idp a) : ℤ) + (δ a + ε a) ≤ s.refcnt a + ε a
  omega

/-- `put_fblock` of a block that is not entered, or with a reference at hand. -/
theorem put (h : Held s P δ) {a : Addr} (ha : s.registry.Has a → 1 ≤ δ a) :
    Held (putFblock s a) P (δ - ref a) := by
  by_cases hplain : putFblock s a = s.addRefs (-ref a)
  · rw [hplain, sub_eq_add_neg]
    exact h.addRefs (-ref a)
  have hlast : s.refcnt a = 1 := by
    by_contra hne
    exact hplain (putFblock_eq hne)
  have hout : ¬ s.registry.Has a := by
    intro hin
    have := h.pos hin
    have := ha hin
    omega
  rcases hf : s.factory a with _ | f
  · exact absurd (putFblock_of_no_factory hf) hplain
  have hreg := registry_putFblock s a
  have hlists := lists_putFblock s a
  have hrel : (putFblock s a).released = ⟨a, s.fblmap⟩ :: s.released := by
    rw [putFblock_release hlast hf]
    cases f <;> rfl
  have hnext : (putFblock s a).nextFblock = s.nextFblock := congrArg Registry.nextFblock hreg
  refine ⟨hreg ▸ h.tables, hreg ▸ h.numbered, h.copies.putFblock a, hlists ▸ h.allocated, ?_, ?_,
    fun b hb => ?_, fun r hr i => ?_⟩
  · rw [hlists, show (putFblock s a).idpCounter = s.idpCounter from
      congrArg Registry.idpCounter hreg]
    exact h.known
  · rw [hlists, hnext]
    exact h.fresh
  · have hb' : s.registry.Has b := hreg ▸ hb
    have := h.refs b hb'
    rw [hlists, hnext, refcnt_putFblock, show (putFblock s a).idp = s.idp from
      congrArg Registry.idp hreg, Pi.sub_apply, Pi.sub_apply]
    omega
  · rw [hrel, List.mem_cons] at hr
    rcases hr with rfl | hr
    · exact fun hi => hout ⟨i, hi⟩
    · exact h.safe r hr i

/-- Other ports: what they hold less, the running function holds. -/
theorem withPriv (h : Held s P δ) {P' : Addr → Ports} {ε : Addr → ℤ} {pd : Addr → Cpu → Priv}
    (hP : Copies (s.withPriv pd) P')
    (hle : ∀ a, s.registry.Has a → ((P' a).count : ℤ) + ε a ≤ (P a).count + δ a) :
    Held (s.withPriv pd) P' ε := by
  refine ⟨h.tables, h.numbered, hP, h.allocated, h.known, h.fresh, fun a ha => ?_, h.safe⟩
  have := h.refs a ha
  have := hle a ha
  show 1 + ((P' a).count : ℤ) + ((s.lists.remotes a).card : ℤ) +
    (s.lists.inbound s.nextFblock (s.idp a) : ℤ) + ε a ≤ s.refcnt a
  omega

/-- A port in use takes one of the references at hand. -/
theorem bound (h : Held s P δ) {fb : Addr} {dir : PathType} {idp : Idp} {Q : Ports}
    {pd : Addr → Cpu → Priv} (hQ : (P fb).bind (s.ops fb) dir idp = some Q) (hi : idp ≠ idpUnknown)
    (hP : Copies (s.withPriv pd) (Function.update P fb Q)) :
    Held (s.withPriv pd) (Function.update P fb Q) (δ - ref fb) := by
  refine h.withPriv hP fun a _ => ?_
  rw [Pi.sub_apply]
  by_cases ha : a = fb
  · have := Ports.count_bind hQ hi
    subst ha
    rw [Function.update_self, ref_self]
    omega
  · rw [Function.update_of_ne ha, ref_of_ne ha]
    omega

/-- A port given up leaves its reference at hand. -/
theorem unbound (h : Held s P δ) {fb : Addr} {dir : PathType} {idp : Idp} {Q : Ports}
    {pd : Addr → Cpu → Priv} (hQ : (P fb).unbind (s.ops fb) dir idp = some Q)
    (hi : idp ≠ idpUnknown) (hP : Copies (s.withPriv pd) (Function.update P fb Q)) :
    Held (s.withPriv pd) (Function.update P fb Q) (δ + ref fb) := by
  refine h.withPriv hP fun a _ => ?_
  rw [Pi.add_apply]
  by_cases ha : a = fb
  · have := Ports.count_unbind hQ hi
    subst ha
    rw [Function.update_self, ref_self]
    omega
  · rw [Function.update_of_ne ha, ref_of_ne ha]
    omega

/-- Entered blocks have the idps of each other only if they are one. -/
theorem idp_eq_iff (h : Held s P δ) {a b : Addr} (ha : s.registry.Has a) (hb : s.registry.Has b) :
    s.idp a = s.idp b ↔ a = b :=
  ⟨fun heq => h.tables.idp_inj ha hb heq, fun heq => by rw [heq]⟩

/-- The references of a node, as two `ref`s. -/
theorem node_refs (h : Held s P δ) {a remote : Addr} (us : Addr) (ha : s.registry.Has a)
    (hr : s.registry.Has remote) :
    ref us a + ref remote a =
      (if a = us then 1 else 0) + (if s.idp a = s.idp remote then 1 else 0) := by
  rw [ref_apply, ref_apply]
  simp only [h.idp_eq_iff ha hr]

/-- `subscribe_to_remote_fblock` gives its references to the node. -/
theorem subscribe (h : Held s P δ) {us remote : Addr} (hu : s.registry.Has us)
    (hr : s.registry.Has remote) (alloc : Bool) :
    Held (subscribeToRemoteFblock alloc s us remote).2 P δ := by
  cases alloc with
  | false => exact h
  | true =>
    rw [subscribe_eq]
    have hus := h.lt_next hu
    have hlink := fun a => Lists.remotes_link h.allocated (s.idp remote) us remote a
    refine ⟨h.tables, h.numbered, h.copies, h.allocated.link _ _ _, fun u i hi => ?_, fun u hu' => ?_,
      fun a ha => ?_, h.safe⟩
    · have hi' : i ∈ (s.lists.link (s.idp remote) us remote).remotes u := hi
      rw [hlink] at hi'
      show i.toNat ≤ s.idpCounter
      split_ifs at hi'
      · rcases Multiset.mem_cons.1 hi' with rfl | hi'
        · obtain ⟨j, hj⟩ := hr
          rw [show s.idp remote = j from (h.tables.stored j remote hj).1]
          exact (h.numbered.entry j remote hj).2
        · exact h.known u i hi'
      · exact h.known u i hi'
    · have hne : u ≠ us := fun heq => absurd (lt_of_lt_of_le hus hu') (heq ▸ lt_irrefl _)
      exact (Lists.link_other s.lists (s.idp remote) remote hne).trans (h.fresh u hu')
    · have hold := h.refs a ha
      have hin := Lists.inbound_link h.allocated hus (s.idp remote) remote (s.idp a)
      have hnode := h.node_refs us ha hr
      show 1 + ((P a).count : ℤ) +
        (((s.lists.link (s.idp remote) us remote).remotes a).card : ℤ) +
        ((s.lists.link (s.idp remote) us remote).inbound s.nextFblock (s.idp a) : ℤ) + δ a ≤
        s.refcnt a + (ref us a + ref remote a)
      rw [hin, hlink, hnode]
      by_cases hau : a = us
      · rw [if_pos hau, if_pos hau, Multiset.card_cons]
        split_ifs <;> push_cast <;> omega
      · rw [if_neg hau, if_neg hau]
        split_ifs <;> push_cast <;> omega

end Held

/-! ## Unsubscriptions that find their node -/

/-- With the subscriptions `R`, a subscription to `i` can be removed, or there is none at all. -/
def Finds (R : Multiset Idp) (i : Idp) : Prop := R = 0 ∨ i ∈ R

instance (R : Multiset Idp) (i : Idp) : Decidable (Finds R i) :=
  inferInstanceAs (Decidable (R = 0 ∨ i ∈ R))

/-- Both unsubscriptions of an unbinding find their node; a block bound to itself needs two. -/
def FindsBoth (s : State) (fb1 fb2 : Addr) : Prop :=
  Finds (s.lists.remotes fb1) (s.idp fb2) ∧
    Finds (if fb1 = fb2 then (s.lists.remotes fb1).erase (s.idp fb2) else s.lists.remotes fb2)
      (s.idp fb1)

instance (s : State) (fb1 fb2 : Addr) : Decidable (FindsBoth s fb1 fb2) :=
  inferInstanceAs (Decidable (_ ∧ _))

namespace Held

variable {s : State} {P : Addr → Ports} {δ : Addr → ℤ} {us remote : Addr}

/-- A node that is removed leaves its references at hand. -/
theorem unlink (h : Held s P δ) (hu : s.registry.Has us) (hr : s.registry.Has remote)
    (hi : s.idp remote ∈ s.lists.remotes us) :
    Held (s.unlink us remote) P (δ + (ref us + ref remote)) := by
  have hus := h.lt_next hu
  have hreg := registry_unlink s us remote
  have hnext : (s.unlink us remote).nextFblock = s.nextFblock := congrArg Registry.nextFblock hreg
  have hP : Copies (s.unlink us remote) P :=
    h.copies.of_ports (congrArg Registry.online hreg) fun a c => by rw [privateData_unlink]
  have herase := Lists.remotes_unlink s.lists (s.idp remote) us remote
  have hother := fun a => @Lists.remotes_unlink_other s.lists (s.idp remote) us a remote
  refine ⟨hreg ▸ h.tables, hreg ▸ h.numbered, hP, ?_, fun u i hin => ?_, fun u hu' => ?_,
    fun a ha => ?_, (released_unlink s us remote).symm ▸ h.safe⟩
  · rw [lists_unlink]
    exact h.allocated.unlink _ _ _
  · rw [show (s.unlink us remote).idpCounter = s.idpCounter from congrArg Registry.idpCounter hreg]
    rw [lists_unlink] at hin
    by_cases huu : u = us
    · rw [huu, herase] at hin
      exact h.known us i (Multiset.mem_of_mem_erase hin)
    · rw [hother u huu] at hin
      exact h.known u i hin
  · rw [hnext] at hu'
    have hne : u ≠ us := fun heq => absurd (lt_of_lt_of_le hus hu') (heq ▸ lt_irrefl _)
    rw [lists_unlink, Lists.unlink_other _ _ _ hne]
    exact h.fresh u hu'
  · have ha' : s.registry.Has a := hreg ▸ ha
    have hold := h.refs a ha'
    have hin := Lists.inbound_unlink hus hi remote (s.idp a)
    have hnode := h.node_refs us ha' hr
    rw [lists_unlink, hnext, refcnt_unlink, Pi.add_apply, Pi.add_apply, hnode,
      show (s.unlink us remote).idp = s.idp from congrArg Registry.idp hreg]
    by_cases hau : a = us
    · have hcard := Multiset.card_erase_add_one hi
      subst hau
      rw [herase, if_pos rfl]
      split_ifs at hin ⊢ <;> omega
    · rw [hother a hau, if_neg hau]
      split_ifs at hin ⊢ <;> omega

/-- `unsubscribe_from_remote_fblock` gives back what the node held. -/
theorem unsubscribe (h : Held s P δ) (hδ : ∀ a, 0 ≤ δ a) (hu : s.registry.Has us)
    (hr : s.registry.Has remote) (hfinds : Finds (s.lists.remotes us) (s.idp remote)) :
    Held (unsubscribeFromRemoteFblock s us remote) P δ := by
  by_cases hnil : s.notifiers us = []
  · rwa [unsubscribe_eq_of_nil remote hnil]
  have hi : s.idp remote ∈ s.lists.remotes us := by
    rcases hfinds with hzero | hi
    · have hmap : (s.notifiers us).map s.remote = [] := Multiset.coe_eq_zero _ |>.1 hzero
      exact absurd (List.map_eq_nil_iff.1 hmap) hnil
    · exact hi
  rw [unsubscribe_eq_of_ne_nil remote hnil]
  have h1 := (h.unlink hu hr hi).put (a := us) fun _ => by
    have := hδ us
    have := ref_nonneg remote us
    simp only [Pi.add_apply, ref_self]
    omega
  have h2 := h1.put (a := remote) fun _ => by
    have := hδ remote
    simp only [Pi.sub_apply, Pi.add_apply, ref_self]
    omega
  have heq : δ + (ref us + ref remote) - ref us - ref remote = δ := by abel
  rwa [heq] at h2

end Held

/-! ## Binding and unbinding -/

/-- Both blocks accept the events of an unbinding. -/
def unbinds (s : State) (fb1 fb2 : Addr) : Prop :=
  let r := eventRx s fb1 (.unbindIdp .egress (s.idp fb2))
  r.1 = .ok ∧ (eventRx r.2 fb2 (.unbindIdp .ingress (s.idp fb1))).1 = .ok

instance (s : State) (fb1 fb2 : Addr) : Decidable (unbinds s fb1 fb2) :=
  inferInstanceAs (Decidable (_ ∧ _))

section Binding

variable {s : State} {P : Addr → Ports} {δ : Addr → ℤ} {fb1 fb2 : Addr}

/-- The two unsubscriptions of an unbinding. -/
theorem Held.unsubscribe_both (h : Held s P δ) (hδ : ∀ a, 0 ≤ δ a) (h1 : s.registry.Has fb1)
    (h2 : s.registry.Has fb2) (hfinds : FindsBoth s fb1 fb2) :
    Held (unsubscribeFromRemoteFblock (unsubscribeFromRemoteFblock s fb1 fb2) fb2 fb1) P δ := by
  obtain ⟨hfinds1, hfinds2⟩ := hfinds
  have hreg := registry_unsubscribe s fb1 fb2
  have hlists := lists_unsubscribe s fb1 fb2
  refine (h.unsubscribe hδ h1 h2 hfinds1).unsubscribe hδ (hreg.symm ▸ h2) (hreg.symm ▸ h1) ?_
  rw [hlists, show (unsubscribeFromRemoteFblock s fb1 fb2).idp = s.idp from
    congrArg Registry.idp hreg]
  split_ifs at hfinds2 with heq
  · subst heq
    rwa [Lists.remotes_unlink]
  · rwa [Lists.remotes_unlink_other _ _ _ (Ne.symm heq)]

/-- `__fblock_unbind` gives back the references of the binding. -/
theorem Held.fblockUnbind (h : Held s P δ) (hδ : ∀ a, 0 ≤ δ a) (h1 : s.registry.Has fb1)
    (h2 : s.registry.Has fb2) (hfinds : unbinds s fb1 fb2 → FindsBoth s fb1 fb2) :
    ∃ P', Held (fblockUnbind s fb1 fb2).2 P' δ := by
  unfold Lana.fblockUnbind
  rcases eventRx_unbind h.copies fb1 .egress (s.idp fb2) with
    ⟨-, e1⟩ | ⟨Q1, pd1, hQ1, e1, hP1, -⟩
  · rw [e1]
    exact ⟨P, h⟩
  have hfirst := h.unbound hQ1 (h.idp_ne h2) hP1
  rw [e1]
  rcases eventRx_unbind hP1 fb2 .ingress (s.idp fb1) with ⟨-, e2⟩ | ⟨Q2, pd2, hQ2, e2, hP2, -⟩
  · simp only [show ((s.withPriv pd1).idp fb1) = s.idp fb1 from rfl, e2]
    refine ⟨_, (hfirst.put (a := fb1) fun _ => ?_).mono fun a _ => ?_⟩
    · have := hδ fb1
      simp only [Pi.add_apply, ref_self]
      omega
    · simp only [Pi.sub_apply, Pi.add_apply]
      omega
  · have hacc : unbinds s fb1 fb2 := by
      unfold unbinds
      rw [e1]
      exact ⟨rfl, congrArg Prod.fst e2⟩
    simp only [show ((s.withPriv pd1).idp fb1) = s.idp fb1 from rfl, e2]
    have hboth := hfirst.unbound hQ2 (h.idp_ne h1) hP2
    have hδ' : ∀ a, 0 ≤ (δ + ref fb1 + ref fb2) a := fun a => by
      have := hδ a
      have := ref_nonneg fb1 a
      have := ref_nonneg fb2 a
      simp only [Pi.add_apply]
      omega
    have hun := hboth.unsubscribe_both hδ' h1 h2 (hfinds hacc)
    have hput2 := hun.put (a := fb2) fun _ => by
      have := hδ fb2
      have := ref_nonneg fb1 fb2
      simp only [Pi.add_apply, ref_self]
      omega
    have hput1 := hput2.put (a := fb1) fun _ => by
      have := hδ fb1
      simp only [Pi.sub_apply, Pi.add_apply, ref_self]
      omega
    refine ⟨_, hput1.mono fun a _ => ?_⟩
    simp only [Pi.sub_apply, Pi.add_apply]
    omega

/-- After the first subscription of a binding, the rollback needs the second one only. -/
theorem findsBoth_link (hA : s.lists.Allocated) (h : Finds (s.lists.remotes fb2) (s.idp fb1)) :
    FindsBoth (s.link fb1 fb2) fb1 fb2 := by
  have hlink := fun a => Lists.remotes_link hA (s.idp fb2) fb1 fb2 a
  show Finds ((s.lists.link (s.idp fb2) fb1 fb2).remotes fb1) (s.idp fb2) ∧
    Finds (if fb1 = fb2 then ((s.lists.link (s.idp fb2) fb1 fb2).remotes fb1).erase (s.idp fb2)
      else (s.lists.link (s.idp fb2) fb1 fb2).remotes fb2) (s.idp fb1)
  rw [hlink, hlink, if_pos rfl, Multiset.erase_cons_head]
  refine ⟨.inr (Multiset.mem_cons_self _ _), ?_⟩
  split_ifs with heq hne
  · rwa [heq] at h ⊢
  · exact absurd hne.symm heq
  · exact h

/-- `__fblock_bind` leaves its references to the binding, or gives them back. -/
theorem Held.fblockBind (h : Held s P δ) (hδ : ∀ a, 0 ≤ δ a) (h1 : s.registry.Has fb1)
    (h2 : s.registry.Has fb2) (al : Alloc)
    (hfinds1 : binds s fb1 fb2 → al.fn1 = false → FindsBoth s fb1 fb2)
    (hfinds2 : binds s fb1 fb2 → al.fn1 = true → al.fn2 = false →
      Finds (s.lists.remotes fb2) (s.idp fb1)) :
    ∃ P', Held (fblockBind al s fb1 fb2).2 P' δ := by
  unfold Lana.fblockBind
  simp only [getFblock_eq, addRefs_addRefs]
  have hput : ∀ {t : State} {P' : Addr → Ports}, Held t P' (δ + (ref fb1 + ref fb2)) →
      Held (putFblock (putFblock t fb1) fb2) P' δ := by
    intro t P' ht
    have hput1 := ht.put (a := fb1) fun _ => by
      have := hδ fb1
      have := ref_nonneg fb2 fb1
      simp only [Pi.add_apply, ref_self]
      omega
    have hput2 := hput1.put (a := fb2) fun _ => by
      have := hδ fb2
      simp only [Pi.sub_apply, Pi.add_apply, ref_self]
      omega
    refine hput2.mono fun a _ => ?_
    simp only [Pi.sub_apply, Pi.add_apply]
    omega
  have hget := h.addRefs (ref fb1 + ref fb2)
  have hbinds : binds (s.addRefs (ref fb1 + ref fb2)) fb1 fb2 → binds s fb1 fb2 := id
  set t := s.addRefs (ref fb1 + ref fb2) with ht
  rcases eventRx_bind hget.copies fb1 .egress (t.idp fb2) with
    ⟨-, e1⟩ | ⟨Q1, pd1, hQ1, e1, hP1, -⟩
  · rw [e1]
    exact ⟨P, hput hget⟩
  have hfirst := hget.bound hQ1 (h.idp_ne h2) hP1
  rw [e1]
  rcases eventRx_bind hP1 fb2 .ingress (t.idp fb1) with ⟨-, e2⟩ | ⟨Q2, pd2, hQ2, e2, hP2, -⟩
  · simp only [show ((t.withPriv pd1).idp fb1) = t.idp fb1 from rfl, e2]
    rcases eventRx_unbind hP1 fb1 .egress (t.idp fb2) with
      ⟨hrefused, -⟩ | ⟨Q3, pd3, hQ3, e3, hP3, -⟩
    · -- the port just bound can be unbound
      obtain ⟨Q3, hQ3⟩ := Ports.unbind_of_bind hQ1
      rw [Function.update_self] at hrefused
      exact absurd (hrefused.symm.trans hQ3) (Option.some_ne_none Q3).symm
    · simp only [show ((t.withPriv pd1).idp fb2) = t.idp fb2 from rfl, e3]
      refine ⟨_, hput ((hfirst.unbound hQ3 (h.idp_ne h2) hP3).mono fun a _ => ?_)⟩
      simp only [Pi.sub_apply, Pi.add_apply]
      omega
  · have hacc : binds s fb1 fb2 := hbinds (by
      unfold binds
      rw [e1]
      exact ⟨rfl, congrArg Prod.fst e2⟩)
    have hboth : Held ((t.withPriv pd1).withPriv pd2) _ δ :=
      (hfirst.bound hQ2 (h.idp_ne h1) hP2).mono fun a _ => by
        simp only [Pi.sub_apply, Pi.add_apply]
        omega
    simp only [show ((t.withPriv pd1).idp fb1) = t.idp fb1 from rfl, e2]
    rcases hfn1 : al.fn1
    · rw [subscribe_no_memory]
      exact hboth.fblockUnbind hδ h1 h2 fun _ => hfinds1 hacc hfn1
    have hsub1 := hboth.subscribe h1 h2 true
    rw [subscribe_eq] at hsub1 ⊢
    dsimp only
    rcases hfn2 : al.fn2
    · rw [subscribe_no_memory]
      exact hsub1.fblockUnbind hδ h1 h2 fun _ =>
        findsBoth_link h.allocated (hfinds2 hacc hfn1 hfn2)
    · have hsub2 := hsub1.subscribe h2 h1 true
      rw [subscribe_eq] at hsub2 ⊢
      exact ⟨_, hsub2⟩

end Binding

end Lana