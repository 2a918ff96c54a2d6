import Lana.User.Release
import Lana.User.Sound

/-!
# Chains and counts of every command

For one block `V`: the nodes of `V` on the chains of the entered blocks are on its own list
(`Lists.Follows`), as long as none of the unsubscriptions of `V` matches the head of that list.
Beside it, the accounting of `Held` for the commands that replace blocks, and for those that create
and destroy the blocks without a factory.
-/

namespace Lana

open State

/-! ## Chains -/

/-- The nodes on the chains of the entered blocks `H` are allocated, and owned by blocks below
`k`. -/
structure Lists.Chains (l : Lists) (k : Addr) (H : Addr → Prop) : Prop where
  nodup : ∀ r, H r → (l.subscribers r).Nodup
  node : ∀ r, H r → ∀ n ∈ l.subscribers r, n < l.nextNode ∧ l.self n < k

/-- The nodes of `V` on the chains of the entered blocks are on the list of `V`. -/
def Lists.Follows (l : Lists) (V : Addr) (H : Addr → Prop) (idp : Addr → Idp) : Prop :=
  ∀ r, H r → ∀ n ∈ l.subscribers r, l.self n = V → n ∈ l.notifiers V ∧ l.remote n = idp r

section Chains

variable {l l' : Lists} {k V us remote : Addr} {H : Addr → Prop} {idp : Addr → Idp} {i : Idp}

theorem Lists.unlink_subscribers (l : Lists) (i : Idp) (us remote r : Addr) :
    ((l.unlink i us remote).subscribers r).Sublist (l.subscribers r) := by
  unfold unlink
  split
  · exact List.Sublist.refl _
  · split_ifs
    · exact List.Sublist.refl _
    · split
      · exact List.Sublist.refl _
      · simp only [Function.update_apply]
        split_ifs with hr
        · rw [hr]
          exact List.erase_sublist
        · exact List.Sublist.refl _

/-- A node on a chain after a subscription is an old one, or the new one. -/
theorem Lists.mem_link_subscribers {r : Addr} {n : NodeAddr}
    (hn : n ∈ (l.link i us remote).subscribers r) :
    n ∈ l.subscribers r ∨ r = remote ∧ n = l.nextNode := by
  have hn' : n ∈ Function.update l.subscribers remote
      (l.subscribers remote ++ [l.nextNode]) r := hn
  rw [Function.update_apply] at hn'
  split_ifs at hn' with hr
  · rcases List.mem_append.1 hn' with hn' | hn'
    · exact .inl (hr ▸ hn')
    · exact .inr ⟨hr, List.mem_singleton.1 hn'⟩
  · exact .inl hn'

theorem Lists.Chains.link (h : l.Chains k H) (hus : us < k) (hr : H remote) :
    (l.link i us remote).Chains k H := by
  have hnew : l.nextNode ∉ l.subscribers remote := fun hn =>
    absurd (h.node remote hr _ hn).1 (lt_irrefl _)
  refine ⟨fun r hrH => ?_, fun r hrH n hn => ?_⟩
  · show (Function.update l.subscribers remote (l.subscribers remote ++ [l.nextNode]) r).Nodup
    rw [Function.update_apply]
    split_ifs
    · rw [← List.concat_eq_append]
      exact (h.nodup remote hr).concat hnew
    · exact h.nodup r hrH
  · show n < l.nextNode + 1 ∧ Function.update l.self l.nextNode us n < k
    rcases mem_link_subscribers hn with hn | ⟨-, rfl⟩
    · obtain ⟨hlt, hk⟩ := h.node r hrH n hn
      rw [Function.update_of_ne (ne_of_lt hlt)]
      exact ⟨Nat.lt_succ_of_lt hlt, hk⟩
    · rw [Function.update_self]
      exact ⟨Nat.lt_succ_self _, hus⟩

theorem Lists.Chains.unlink (h : l.Chains k H) : (l.unlink i us remote).Chains k H := by
  obtain ⟨-, hself, hnext⟩ := l.unlink_nodes i us remote
  refine ⟨fun r hr => (h.nodup r hr).sublist (l.unlink_subscribers i us remote r),
    fun r hr n hn => ?_⟩
  rw [hself, hnext]
  exact h.node r hr n ((l.unlink_subscribers i us remote r).subset hn)

theorem Lists.Follows.link (h : l.Follows V H idp) (hC : l.Chains k H) :
    (l.link (idp remote) us remote).Follows V H idp := by
  intro r hr n hn hself
  show n ∈ Function.update l.notifiers us (l.nextNode :: l.notifiers us) V ∧
    Function.update l.remote l.nextNode (idp remote) n = idp r
  have hself' : Function.update l.self l.nextNode us n = V := hself
  rcases mem_link_subscribers hn with hn | ⟨rfl, rfl⟩
  · have hne : n ≠ l.nextNode := ne_of_lt (hC.node r hr n hn).1
    rw [Function.update_of_ne hne] at hself' ⊢
    obtain ⟨hmem, hrem⟩ := h r hr n hn hself'
    refine ⟨?_, hrem⟩
    rw [Function.update_apply]
    split_ifs with hV
    · exact List.mem_cons_of_mem _ (hV ▸ hmem)
    · exact hmem
  · rw [Function.update_self] at hself' ⊢
    subst hself'
    rw [Function.update_self]
    exact ⟨List.mem_cons_self, rfl⟩

/-- The unsubscriptions of other blocks leave the list of `V` alone, and its own ones take a node off
both, unless it is the head. -/
theorem Lists.Follows.unlink (h : l.Follows V H idp) (hC : l.Chains k H)
    (hinj : ∀ a b, H a → H b → idp a = idp b → a = b) (hr : H remote)
    (hhead : us = V → (l.notifiers us).head?.map l.remote ≠ some (idp remote)) :
    (l.unlink (idp remote) us remote).Follows V H idp := by
  intro r hrH n hn hself
  obtain ⟨hrem, hself', -⟩ := l.unlink_nodes (idp remote) us remote
  rw [hself'] at hself
  rw [hrem]
  obtain ⟨hmem, hidp⟩ := h r hrH n ((l.unlink_subscribers (idp remote) us remote r).subset hn) hself
  refine ⟨?_, hidp⟩
  by_cases hV : us = V
  · subst hV
    revert hn
    unfold Lists.unlink
    rcases hl : l.notifiers us with _ | ⟨fn, rest⟩
    · intro _
      exact hmem
    rw [hl] at hmem
    have hne : l.remote fn ≠ idp remote := fun heq => hhead rfl (by rw [hl]; exact congrArg some heq)
    simp only [if_neg hne]
    rcases hf : rest.find? (fun f1 => l.remote f1 = idp remote) with _ | f1
    · intro _
      rw [hl]
      exact hmem
    intro hn
    simp only at hn ⊢
    rw [Function.update_self]
    -- the node is not the one that goes
    have hnf : n ≠ f1 := by
      rintro rfl
      rw [Function.update_apply] at hn
      split_ifs at hn with hrr
      · exact absurd rfl ((hC.nodup remote hr).mem_erase_iff.1 hn).1
      · have hf1 : l.remote n = idp remote := by simpa using List.find?_some hf
        exact hrr (hinj r remote hrH hr (hidp.symm.trans hf1))
    rcases List.mem_cons.1 hmem with rfl | hmem
    · exact List.mem_cons_self
    · exact List.mem_cons_of_mem _ ((List.mem_erase_of_ne hnf).2 hmem)
  · rw [l.unlink_other _ _ (Ne.symm hV)]
    exact hmem

/-- The exchange of two other blocks.  `H'` and `idp'` are the entries after it. -/
theorem Lists.Follows.migrate (h : l.Follows V H idp) {dst src : Addr}
    (hdst : V ≠ dst) (hsrc : V ≠ src) {H' : Addr → Prop} {idp' : Addr → Idp} (hs : H src)
    (hH : ∀ r, H' r → r = dst ∧ idp' r = idp src ∨ r ≠ src ∧ r ≠ dst ∧ H r ∧ idp' r = idp r) :
    (l.migrate dst src).Follows V H' idp' := by
  intro r hr n hn hself
  have hself' : l.self n = V := by
    rw [Lists.Owned.migrate_self] at hself
    split_ifs at hself with h1 h2
    · exact absurd hself.symm hsrc
    · exact absurd hself.symm hdst
    · exact hself
  show n ∈ swapField l.notifiers dst src V ∧ l.remote n = idp' r
  have hn' : n ∈ swapField l.subscribers dst src r := hn
  rw [swapField_of_ne hdst hsrc]
  rcases hH r hr with ⟨rfl, hidp⟩ | ⟨hrs, hrd, hr', hidp⟩
  · rw [swapField_dst] at hn'
    rw [hidp]
    exact h src hs n hn' hself'
  · rw [swapField_of_ne hrd hrs] at hn'
    rw [hidp]
    exact h r hr' n hn' hself'

theorem Lists.Chains.migrate (h : l.Chains k H) {dst src : Addr} (hd : dst < k) (hsk : src < k)
    {H' : Addr → Prop} (hs : H src)
    (hH : ∀ r, H' r → r = dst ∨ r ≠ src ∧ r ≠ dst ∧ H r) : (l.migrate dst src).Chains k H' := by
  have hself : ∀ n, l.self n < k → (l.migrate dst src).self n < k := by
    intro n hn
    rw [Lists.Owned.migrate_self]
    split_ifs
    · exact hsk
    · exact hd
    · exact hn
  have hold : ∀ r, H' r → ∃ r', H r' ∧ (l.migrate dst src).subscribers r = l.subscribers r' := by
    intro r hr
    rcases hH r hr with rfl | ⟨hrs, hrd, hr'⟩
    · exact ⟨src, hs, swapField_dst⟩
    · exact ⟨r, hr', swapField_of_ne hrd hrs⟩
  refine ⟨fun r hr => ?_, fun r hr n hn => ?_⟩
  · obtain ⟨r', hr', heq⟩ := hold r hr
    rw [heq]
    exact h.nodup r' hr'
  · obtain ⟨r', hr', heq⟩ := hold r hr
    rw [heq] at hn
    obtain ⟨hlt, hk⟩ := h.node r' hr' n hn
    exact ⟨hlt, hself n hk⟩

end Chains

/-! ## Counts after a replacement -/

section Migrate

variable {l : Lists} {k dst src : Addr}

theorem Lists.remotes_migrate (l : Lists) (dst src a : Addr) :
    (l.migrate dst src).remotes a = swapField l.remotes dst src a := by
  rw [swapField_eq_swap]
  show (((swapField l.notifiers dst src a).map l.remote : List Idp) : Multiset Idp) = _
  rw [swapField_eq_swap]
  rfl

/-- The subscriptions to a block are as many after the exchange of two lists. -/
theorem Lists.inbound_migrate (hd : dst < k) (hs : src < k) (j : Idp) :
    (l.migrate dst src).inbound k j = l.inbound k j := by
  unfold inbound
  refine Finset.sum_equiv (Equiv.swap dst src) (fun u => ?_) fun u _ => ?_
  · rw [Finset.mem_range, Finset.mem_range, Equiv.swap_apply_def]
    split_ifs with h1 h2
    · rw [h1]
      exact ⟨fun _ => hs, fun _ => hd⟩
    · rw [h2]
      exact ⟨fun _ => hd, fun _ => hs⟩
    · rfl
  · rw [remotes_migrate, swapField_eq_swap]

end Migrate

section Replace

variable {s : State} {P : Addr → Ports}

/-- The state after a refused replacement. -/
theorem Held.refused (h : Held s P 0) {t : State} (ht : ReplaceRefused s t) : Held t P 0 := by
  have hget := fun a b => zero_add (ref a + ref b) ▸ h.addRefs (ref a + ref b)
  have hput := fun a b => (hget a b).put (a := a) fun _ => by
    have := ref_nonneg b a
    simp only [Pi.add_apply, ref_self]
    omega
  cases ht with
  | unknown => exact h
  | leak a =>
    refine (zero_add (ref a) ▸ h.addRefs (ref a)).mono fun b _ => ?_
    exact ref_nonneg a b
  | second a => exact h.get_put a
  | leakSecond a b =>
    refine (hput a b).mono fun x _ => ?_
    rw [add_sub_cancel_left]
    exact ref_nonneg b x
  | busy a b =>
    have hput2 := (hput a b).put (a := b) fun _ => by
      simp only [Pi.sub_apply, Pi.add_apply, ref_self]
      omega
    have heq : ref a + ref b - ref a - ref b = 0 := by abel
    exact heq ▸ hput2

/-- The entries after a replacement: the second block in the place of the first one. -/
theorem has_replaced (hT : Tables s.registry) {fb1 fb2 : Addr} {r : Registry}
    (hr : r = ((unregisterFblockNamespaceNoRcu s fb2).registry.migrate fb2 fb1).enter (s.idp fb1)
      (some fb2)) {a : Addr} (ha : r.Has a) :
    a = fb2 ∧ r.idp a = s.idp fb1 ∨
      a ≠ fb1 ∧ a ≠ fb2 ∧ s.registry.Has a ∧ r.idp a = s.idp a := by
  obtain ⟨i, hi⟩ := ha
  rw [(replaced_tables hT hr).idp]
  obtain ⟨rfl, -⟩ | ⟨hne1, hne2, hold⟩ := entry_replaced hT hr hi
  · exact .inl ⟨rfl, Function.update_self ..⟩
  · exact .inr ⟨hne1, hne2, ⟨i, hold⟩, Function.update_of_ne hne2 ..⟩

/-- A replacement of a block by a spare one hands all references over. -/
theorem Held.replaced (h : Held s P 0) {t : State} {fb1 fb2 : Addr} {exch : Bool}
    (h1 : s.registry.Has fb1) (h2 : s.registry.Has fb2) (hne : fb2 ≠ fb1)
    (hcnt : s.refcnt fb2 ≤ 1)
    (hreg : t.registry = ((unregisterFblockNamespaceNoRcu s fb2).registry.migrate fb2 fb1).enter
      (s.idp fb1) (some fb2))
    (hlists : t.lists = s.lists.migrate fb2 fb1)
    (hP : Copies t (if exch then swapField P fb2 fb1 else P))
    (href : t.refcnt = swapField s.refcnt fb2 fb1 - ref fb1)
    (hrel : t.released = ⟨fb1, t.fblmap⟩ :: s.released) :
    Held t (if exch then swapField P fb2 fb1 else P) 0 := by
  have hR := replaced_tables h.tables hreg
  have hlt1 := h.lt_next h1
  have hlt2 := h.lt_next h2
  have hnext' : t.nextFblock = s.nextFblock := hR.nextFblock
  have hcounter' : t.idpCounter = s.idpCounter := hR.idpCounter
  have hhas := fun {a : Addr} => @has_replaced s h.tables fb1 fb2 t.registry hreg a
  have hremotes := Lists.remotes_migrate s.lists fb2 fb1
  -- the spare block has no port in use
  have hspare : (P fb2).count = 0 := by
    have := h.refs fb2 h2
    rw [Pi.zero_apply] at this
    omega
  refine ⟨hreg ▸ tables_replaced h.tables h1 h2, ⟨hR.idpCounter ▸ h.numbered.lt, fun i a hi => ?_⟩, hP,
    fun u n hn => ?_, fun u i hi => ?_, fun u hu => ?_, fun a ha => ?_, fun r hr i => ?_⟩
  · rw [show t.registry.idpCounter = s.idpCounter from hR.idpCounter]
    obtain ⟨-, rfl⟩ | ⟨-, -, hold⟩ := entry_replaced h.tables hreg hi
    · exact h.numbered.entry _ fb1 (h.tables.fblmap_idp h1)
    · exact h.numbered.entry i a hold
  · rw [hlists] at hn ⊢
    have hn' : n ∈ swapField s.lists.notifiers fb2 fb1 u := hn
    rw [swapField_eq_swap] at hn'
    exact h.allocated _ n hn'
  · rw [hlists, hremotes, swapField_eq_swap] at hi
    rw [hcounter']
    exact h.known _ i hi
  · rw [hnext'] at hu
    rw [hlists]
    show swapField s.lists.notifiers fb2 fb1 u = []
    rw [swapField_of_ne (lt_of_lt_of_le hlt2 hu).ne' (lt_of_lt_of_le hlt1 hu).ne']
    exact h.fresh u hu
  · rw [hlists, hnext', Lists.inbound_migrate hlt2 hlt1, hremotes, href, Pi.sub_apply]
    rcases hhas ha with ⟨rfl, hidp⟩ | ⟨hne1, hne2, ha', hidp⟩
    · have hold := h.refs fb1 h1
      rw [Pi.zero_apply] at hold ⊢
      have hcount : ((if exch then swapField P a fb1 else P) a).count ≤ (P fb1).count := by
        cases exch
        · exact hspare.le.trans (Nat.zero_le _)
        · exact (congrArg Ports.count swapField_dst).le
      rw [show t.idp a = s.idp fb1 from hidp, swapField_dst, swapField_dst, ref_of_ne hne]
      omega
    · have hold := h.refs a ha'
      rw [Pi.zero_apply] at hold ⊢
      have hcount : ((if exch then swapField P fb2 fb1 else P) a).count = (P a).count := by
        cases exch
        · rfl
        · exact congrArg Ports.count (swapField_of_ne hne2 hne1)
      rw [show t.idp a = s.idp a from hidp, swapField_of_ne hne2 hne1, swapField_of_ne hne2 hne1,
        ref_of_ne hne1, hcount]
      omega
  · rw [hrel, List.mem_cons] at hr
    rcases hr with rfl | hr
    · intro hi
      rcases hhas ⟨i, hi⟩ with ⟨heq, -⟩ | ⟨hne1, -⟩
      · exact hne heq.symm
      · exact hne1 rfl
    · exact h.safe r hr i

theorem Held.replace (h : Held s P 0) {al : Alloc} (hal : al.radix = true) (n1 n2 : Name)
    (dropPriv : Bool) : ∃ P', Held (userctlReplace al s n1 n2 dropPriv).2 P' 0 := by
  have hpos : ∀ a, s.registry.Has a → 1 ≤ s.refcnt a := fun a ha => h.pos ha
  rcases userctlReplace_cases al s n1 n2 dropPriv with ⟨-, hrefused⟩ | ⟨a, b, f, g, ha, hb, hf, hg, hle⟩
  · exact ⟨P, h.refused hrefused⟩
  obtain ⟨hba, hle'⟩ := unreferenced_of_le_two (hpos b (has_of_lookup hb)) hle
  have hlive := userctlReplace_live ha hb hf hg hba (hpos a (has_of_lookup ha))
    (le_antisymm hle' (hpos b (has_of_lookup hb))) hal dropPriv
  have hok : (userctlReplace al s n1 n2 dropPriv).1 = .ok := congrArg Prod.fst hlive
  rcases userctlReplace_result h.copies hpos al n1 n2 dropPriv with ⟨hret, -⟩ | ⟨-, hret, -⟩ |
    ⟨fb1, fb2, f1, f2, h1, h2, hf1, hf2, hne, hcnt, -, hreg, hlists, hP, href⟩
  · exact absurd hok hret
  · exact absurd hok hret
  · rw [hal, if_pos rfl] at hreg
    obtain rfl : a = fb1 := Option.some.inj (ha.symm.trans h1)
    obtain rfl : b = fb2 := Option.some.inj (hb.symm.trans h2)
    refine ⟨_, h.replaced (has_of_lookup h1) (has_of_lookup h2) hne hcnt hreg hlists hP href ?_⟩
    have hmap := congrArg Registry.fblmap hreg
    rw [hlive]
    rw [hlive] at hmap
    refine (released_replaced s a b _ f).trans ?_
    rw [show ((s.replaced a b (exchanges f g dropPriv)).release a f).fblmap =
      (s.replaced a b (exchanges f g dropPriv)).fblmap from by cases f <;> rfl]

end Replace

/-! ## Counts of the blocks without a factory -/

section Vlinks

variable {s : State} {P : Addr → Ports}

/-- `Held` does not depend on who keeps a block. -/
theorem Held.withVlinks (h : Held s P 0) (l : List Addr) : Held { s with vlinks := l } P 0 :=
  ⟨⟨h.tables.wf, h.tables.short, h.tables.named, h.tables.stored⟩, ⟨h.numbered.lt, h.numbered.entry⟩,
    h.copies, h.allocated, h.known, h.fresh, h.refs, h.safe⟩

theorem Held.built (h : Held s P 0) (ops : FbType) (al : Alloc) (n : CStr) (dev sock : ℕ)
    (hwrap : s.idpCounter + 1 < 2 ^ 32) :
    ∃ P', Held (fbCtor ops false (Priv.init dev sock) al s n).2 P' 0 :=
  h.created (fbCtor_created h.tables false al) rfl hwrap

theorem Held.buildVlink (h : Held s P 0) (ops : FbType) (al : Alloc) (n : CStr) (dev sock : ℕ)
    (hwrap : s.idpCounter + 1 < 2 ^ 32) :
    ∃ P', Held (keepVlink (fbCtor ops false (Priv.init dev sock) al s n)) P' 0 := by
  obtain ⟨P', hP'⟩ := h.built ops al n dev sock hwrap
  rcases hr : fbCtor ops false (Priv.init dev sock) al s n with ⟨_ | fb, t⟩ <;> rw [hr] at hP'
  · exact ⟨P', hP'⟩
  · exact ⟨P', hP'.withVlinks _⟩

theorem Held.hookEth (h : Held s P 0) (hS : Sound s) (al : Alloc) (n : CStr) (dev : ℕ)
    (hwrap : s.idpCounter + 1 < 2 ^ 32) : ∃ P', Held (fbEthStartHookDev al s n dev) P' 0 := by
  unfold fbEthStartHookDev fbEthBuildFblock
  obtain ⟨P', hP'⟩ := h.built .eth al n dev 0 hwrap
  rcases hr : fbCtor .eth false (Priv.init dev 0) al s n with ⟨_ | fb, t⟩ <;> rw [hr] at hP'
  · exact ⟨P', hP'⟩
  · dsimp only
    cases al.rxHandler
    · exact ⟨P', (hP'.unregister (hS.build hr).2.1).1⟩
    · exact ⟨P', hP'.withVlinks _⟩

theorem Held.destroy (h : Held s P 0) {fb : Addr} (hfb : s.registry.Has fb) :
    Held (destroyFblock s fb) P 0 :=
  (h.unregister hfb).1.withVlinks _

/-- The two outcomes of one half of `lana_sk_free`. -/
theorem unbindBound_cases (cpu : Cpu) (s : State) (fb : Addr) (dir : PathType)
    (f : State → Addr → Ret × State) :
    unbindBound cpu s fb dir f = s ∨
      ∃ a, s.fblmap ((s.privateData fb cpu).port dir) = some a ∧
        unbindBound cpu s fb dir f = putFblock (f (s.addRefs (ref a)) a).2 a := by
  unfold unbindBound getBoundFblock searchFblock searchFblockRaw
  split_ifs
  · exact .inl rfl
  · rcases s.fblmap ((s.privateData fb cpu).port dir) with _ | a
    · exact .inl rfl
    · exact .inr ⟨a, rfl, by rw [← getFblock_eq]⟩

theorem Held.unbindBound (h : Held s P 0) (cpu : Cpu) (fb : Addr) (dir : PathType)
    {f : State → Addr → Ret × State}
    (hf : ∀ a, s.fblmap ((s.privateData fb cpu).port dir) = some a →
      ∃ P', Held (f (s.addRefs (ref a)) a).2 P' (ref a)) :
    ∃ P', Held (unbindBound cpu s fb dir f) P' 0 := by
  rcases unbindBound_cases cpu s fb dir f with heq | ⟨a, ha, heq⟩
  · rw [heq]
    exact ⟨P, h⟩
  · obtain ⟨P', hP'⟩ := hf a ha
    have hput := hP'.put (a := a) fun _ => by rw [ref_self]
    rw [heq]
    exact ⟨P', sub_self (ref a) ▸ hput⟩

end Vlinks

/-! ## Clean unsubscriptions -/

/-- An unsubscription of `us` from the block with idp `i` finds its node, and `V` does not find it at
the head of its list. -/
def Lists.Clears (l : Lists) (V : Addr) (i : Idp) (us : Addr) : Prop :=
  Finds (l.remotes us) i ∧ (us = V → (l.notifiers us).head?.map l.remote ≠ some i)

instance (l : Lists) (V : Addr) (i : Idp) (us : Addr) : Decidable (l.Clears V i us) :=
  inferInstanceAs (Decidable (_ ∧ (_ → _)))

/-- Both unsubscriptions of an unbinding, one after the other. -/
def Lists.ClearsBoth (l : Lists) (V : Addr) (idp : Addr → Idp) (fb1 fb2 : Addr) : Prop :=
  l.Clears V (idp fb2) fb1 ∧ (l.unlink (idp fb2) fb1 fb2).Clears V (idp fb1) fb2

instance (l : Lists) (V : Addr) (idp : Addr → Idp) (fb1 fb2 : Addr) :
    Decidable (l.ClearsBoth V idp fb1 fb2) :=
  inferInstanceAs (Decidable (_ ∧ _))

/-- The first unbinding of `lana_sk_free`. -/
def lanaSkUnbindIngress (cpu : Cpu) (s : State) (fb : Addr) : State :=
  unbindBound cpu s fb .ingress fun s bound => fblockUnbind s bound fb

/-- Both unbindings of `lana_sk_free`: the state in which it destroys the block. -/
def lanaSkUnbind (cpu : Cpu) (s : State) (fb : Addr) : State :=
  unbindBound cpu (lanaSkUnbindIngress cpu s fb) fb .egress fun s bound => fblockUnbind s fb bound

/-- Every unsubscription that the command leads to is clean: the one it asks for, those of an
unbinding that both blocks accept, those of a binding that runs out of memory, and those of the
unbindings of a socket. -/
def Cmd.Clears (V : Addr) (s : State) : Cmd → Prop
  | .bind n1 n2 al => ∀ a ∈ s.lookup n1, ∀ b ∈ s.lookup n2, binds s a b →
      ¬ (al.fn1 = true ∧ al.fn2 = true) →
      (if al.fn1 then s.lists.link (s.idp b) a b else s.lists).ClearsBoth V s.idp a b
  | .unbind n1 n2 => ∀ a ∈ s.lookup n1, ∀ b ∈ s.lookup n2, unbinds s a b →
      s.lists.ClearsBoth V s.idp a b
  | .unsubscribe n1 n2 => ∀ a ∈ s.lookup n1, ∀ b ∈ s.lookup n2, s.lists.Clears V (s.idp a) b
  | .closeSock fb cpu => fb ∈ s.vlinks →
      (∀ a ∈ s.fblmap ((s.privateData fb cpu).port .ingress), unbinds s a fb →
        s.lists.ClearsBoth V s.idp a fb) ∧
      ∀ t, t = lanaSkUnbindIngress cpu s fb →
        ∀ a ∈ t.fblmap ((t.privateData fb cpu).port .egress), unbinds t fb a →
          t.lists.ClearsBoth V t.idp fb a
  | _ => True

instance (V : Addr) (s : State) : ∀ c : Cmd, Decidable (c.Clears V s)
  | .bind n1 n2 al => inferInstanceAs (Decidable (∀ a ∈ s.lookup n1, ∀ b ∈ s.lookup n2,
      binds s a b → ¬ (al.fn1 = true ∧ al.fn2 = true) →
      (if al.fn1 then s.lists.link (s.idp b) a b else s.lists).ClearsBoth V s.idp a b))
  | .unbind n1 n2 => inferInstanceAs (Decidable (∀ a ∈ s.lookup n1, ∀ b ∈ s.lookup n2,
      unbinds s a b → s.lists.ClearsBoth V s.idp a b))
  | .unsubscribe n1 n2 => inferInstanceAs (Decidable (∀ a ∈ s.lookup n1, ∀ b ∈ s.lookup n2,
      s.lists.Clears V (s.idp a) b))
  | .closeSock fb cpu => decidable_of_iff (fb ∈ s.vlinks →
      (∀ a ∈ s.fblmap ((s.privateData fb cpu).port .ingress), unbinds s a fb →
        s.lists.ClearsBoth V s.idp a fb) ∧
      ∀ a ∈ (lanaSkUnbindIngress cpu s fb).fblmap
          (((lanaSkUnbindIngress cpu s fb).privateData fb cpu).port .egress),
        unbinds (lanaSkUnbindIngress cpu s fb) fb a →
          (lanaSkUnbindIngress cpu s fb).lists.ClearsBoth V (lanaSkUnbindIngress cpu s fb).idp fb a)
      (by simp only [Cmd.Clears, forall_eq])
  | .add .. | .rm _ | .replace .. | .subscribe .. | .hookEth .. | .addEthvlink .. | .openSock ..
  | .stopVlink .. => inferInstanceAs (Decidable True)

section Clears

variable {s : State} {P : Addr → Ports} {V fb1 fb2 : Addr}

theorem findsBoth_of_clearsBoth (h : s.lists.ClearsBoth V s.idp fb1 fb2) :
    FindsBoth s fb1 fb2 := by
  refine ⟨h.1.1, ?_⟩
  have h2 := h.2.1
  split_ifs with heq
  · subst heq
    rwa [Lists.remotes_unlink] at h2
  · rwa [Lists.remotes_unlink_other _ _ _ (Ne.symm heq)] at h2

/-- The second unsubscription of a binding that is undone after its first subscription. -/
theorem finds_of_clearsBoth_link (hA : s.lists.Allocated)
    (h : (s.lists.link (s.idp fb2) fb1 fb2).ClearsBoth V s.idp fb1 fb2) :
    Finds (s.lists.remotes fb2) (s.idp fb1) := by
  have h2 := h.2.1
  rw [Lists.unlink_link] at h2
  have heq : Lists.remotes { s.lists.link (s.idp fb2) fb1 fb2 with
      notifiers := s.lists.notifiers } fb2 = s.lists.remotes fb2 := by
    show (((s.notifiers fb2).map (Function.update s.remote s.nextNode (s.idp fb2)) : List Idp) :
      Multiset Idp) = ((s.notifiers fb2).map s.remote : List Idp)
    exact congrArg _ (List.map_congr_left fun n hn =>
      Function.update_of_ne (ne_of_lt (hA fb2 n hn)) ..)
  rwa [heq] at h2

/-- The unbindings of `lana_sk_free`. -/
theorem Held.skUnbind (h : Held s P 0) (cpu : Cpu) {fb : Addr} (hfb : s.registry.Has fb)
    (hc1 : ∀ a ∈ s.fblmap ((s.privateData fb cpu).port .ingress), unbinds s a fb →
      s.lists.ClearsBoth V s.idp a fb)
    (hc2 : ∀ a ∈ (lanaSkUnbindIngress cpu s fb).fblmap
        (((lanaSkUnbindIngress cpu s fb).privateData fb cpu).port .egress),
      unbinds (lanaSkUnbindIngress cpu s fb) fb a →
      (lanaSkUnbindIngress cpu s fb).lists.ClearsBoth V (lanaSkUnbindIngress cpu s fb).idp fb a) :
    ∃ P', Held (lanaSkUnbind cpu s fb) P' 0 := by
  have hget := fun {t : State} {Q : Addr → Ports} (ht : Held t Q 0) (a : Addr) =>
    zero_add (ref a) ▸ ht.addRefs (ref a)
  obtain ⟨P1, h1⟩ := h.unbindBound cpu fb .ingress (f := fun s bound => Lana.fblockUnbind s bound fb)
    fun a ha => (hget h a).fblockUnbind (ref_nonneg a) ⟨_, ha⟩ hfb fun hacc =>
      findsBoth_of_clearsBoth (hc1 a ha hacc)
  have hreg : (lanaSkUnbindIngress cpu s fb).registry = s.registry :=
    (Prims.refl.unbindBound cpu fb .ingress fun a hp => hp.unbind a fb).registry
  exact h1.unbindBound cpu fb .egress (f := fun s bound => Lana.fblockUnbind s fb bound)
    fun a ha => (hget h1 a).fblockUnbind (ref_nonneg a) (hreg.symm ▸ hfb) ⟨_, ha⟩ fun hacc =>
      findsBoth_of_clearsBoth (hc2 a ha hacc)

/-- `Held` is kept by every command whose unsubscriptions are clean. -/
theorem held_clears (h : Held s P 0) (hS : Sound s) {c : Cmd} (hc : c.Clears V s)
    (hleft : c.IdpLeft s) (hins : (Action.cmd c).Inserts) : ∃ P', Held (c.exec s) P' 0 := by
  cases c with
  | add n type al => exact held_exec h (c := .add n type al) trivial hleft
  | rm n => exact held_exec h (c := .rm n) trivial hleft
  | bind n1 n2 al =>
    refine held_exec h (c := .bind n1 n2 al) (fun a ha b hb hacc => ⟨fun hfn1 => ?_, ?_⟩) hleft
    · have hclear := hc a ha b hb hacc fun hfn => by simp [hfn1] at hfn
      rw [hfn1, if_neg Bool.false_ne_true] at hclear
      exact findsBoth_of_clearsBoth hclear
    · intro hfn1 hfn2
      have hclear := hc a ha b hb hacc fun hfn => by simp [hfn2] at hfn
      rw [hfn1, if_pos rfl] at hclear
      exact finds_of_clearsBoth_link h.allocated hclear
  | unbind n1 n2 =>
    exact held_exec h (c := .unbind n1 n2)
      (fun a ha b hb hacc => findsBoth_of_clearsBoth (hc a ha b hb hacc)) hleft
  | replace n1 n2 dropPriv al => exact h.replace hins n1 n2 dropPriv
  | subscribe n1 n2 al => exact held_exec h (c := .subscribe n1 n2 al) trivial hleft
  | unsubscribe n1 n2 =>
    exact held_exec h (c := .unsubscribe n1 n2) (fun a ha b hb => (hc a ha b hb).1) hleft
  | hookEth n dev al => exact h.hookEth hS al n dev (hleft rfl)
  | addEthvlink n vdev al => exact h.buildVlink _ al n vdev 0 (hleft rfl)
  | openSock n sock al => exact h.buildVlink _ al n 0 sock (hleft rfl)
  | stopVlink fb =>
    show ∃ P', Held (removeVlink s fb) P' 0
    unfold removeVlink
    split_ifs with hin
    · exact ⟨P, h⟩
    · exact ⟨P, h.destroy (hS.registry.kept fb hin).1⟩
    · exact ⟨P, h⟩
  | closeSock fb cpu =>
    show ∃ P', Held (lanaSkFree cpu s fb) P' 0
    unfold lanaSkFree
    split_ifs with hin
    · have hfb := (hS.registry.kept fb hin).1
      obtain ⟨hc1, hc2⟩ := hc hin
      obtain ⟨P', hP'⟩ := h.skUnbind cpu hfb hc1 fun a ha hacc => hc2 _ rfl a ha hacc
      have hreg : (lanaSkUnbind cpu s fb).registry = s.registry := (Prims.skFree cpu s fb).registry
      exact ⟨P', hP'.destroy (hreg.symm ▸ hfb)⟩
    · exact ⟨P, h⟩

end Clears

end Lana
