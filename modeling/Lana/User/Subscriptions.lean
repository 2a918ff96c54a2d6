import Lana.Fblock.Lists
import Lana.Library.Transition
import Lana.User.Effects

/-!
# Subscriptions

A subscription is recorded twice: its node is on `us->notifiers` and on the notifier chain of the
remote block.  `subscribe_to_remote_fblock` sets both links.  `unsubscribe_from_remote_fblock`
undoes both when the node is behind the head of the list, but only the first one when it is the head
(`head_stays_chained`).  As long as no head is removed, the two records agree
(`subscriptions_agree`).
-/

namespace Lana

/-! ## Both records -/

/-- The nodes on the lists of the owners are the nodes on the chains of the remote blocks; `H` are
the blocks that are entered, `idp` gives their idps. -/
structure Lists.Chained (l : Lists) (H : Addr → Prop) (idp : Addr → Idp) : Prop where
  allocated : l.Allocated
  nodup : ∀ a, (l.notifiers a).Nodup
  chain_nodup : ∀ r, H r → (l.subscribers r).Nodup
  owner : ∀ u, ∀ n ∈ l.notifiers u, l.self n = u
  chained : ∀ r, H r → ∀ n, n ∈ l.subscribers r ↔ n ∈ l.notifiers (l.self n) ∧ l.remote n = idp r

namespace Lists.Chained

variable {l : Lists} {H : Addr → Prop} {idp : Addr → Idp}

/-- Counted from either side, the subscriptions of `u` to `r` are as many. -/
theorem count_eq (h : l.Chained H idp) {r : Addr} (hr : H r) (u : Addr) :
    (l.notifiers u).countP (fun n => l.remote n = idp r) =
      (l.subscribers r).countP (fun n => l.self n = u) := by
  rw [List.countP_eq_length_filter, List.countP_eq_length_filter]
  refine List.Perm.length_eq ?_
  rw [List.perm_ext_iff_of_nodup ((h.nodup u).filter _) ((h.chain_nodup r hr).filter _)]
  intro n
  simp only [List.mem_filter, decide_eq_true_eq, h.chained r hr]
  constructor
  · rintro ⟨hn, hrem⟩
    have hself := h.owner u n hn
    exact ⟨⟨hself.symm ▸ hn, hrem⟩, hself⟩
  · rintro ⟨⟨hn, hrem⟩, rfl⟩
    exact ⟨hn, hrem⟩

/-- The next node is on no chain yet. -/
theorem next_not_mem (h : l.Chained H idp) {r : Addr} (hr : H r) :
    l.nextNode ∉ l.subscribers r := by
  intro hn
  exact absurd (h.allocated _ _ ((h.chained r hr _).1 hn).1) (lt_irrefl _)

/-- A subscription sets both links. -/
theorem link (h : l.Chained H idp) (hinj : ∀ a b, H a → H b → idp a = idp b → a = b)
    (us : Addr) {remote : Addr} (hr : H remote) :
    (l.link (idp remote) us remote).Chained H idp := by
  have hnext : ∀ a, l.nextNode ∉ l.notifiers a := fun a hn =>
    absurd (h.allocated a _ hn) (lt_irrefl _)
  have hself : ∀ n, n ≠ l.nextNode → (l.link (idp remote) us remote).self n = l.self n :=
    fun n hn => Function.update_of_ne hn ..
  have hremote : ∀ n, n ≠ l.nextNode → (l.link (idp remote) us remote).remote n = l.remote n :=
    fun n hn => Function.update_of_ne hn ..
  have hself' : (l.link (idp remote) us remote).self l.nextNode = us := Function.update_self ..
  have hremote' : (l.link (idp remote) us remote).remote l.nextNode = idp remote :=
    Function.update_self ..
  have hmem : ∀ a n, n ∈ (l.link (idp remote) us remote).notifiers a ↔
      n ∈ l.notifiers a ∨ a = us ∧ n = l.nextNode := by
    intro a n
    show n ∈ Function.update l.notifiers us (l.nextNode :: l.notifiers us) a ↔ _
    rw [Function.update_apply]
    split_ifs with ha
    · rw [ha, List.mem_cons]
      tauto
    · tauto
  refine ⟨h.allocated.link _ _ _, fun a => ?_, fun r hrH => ?_, fun u n hn => ?_,
    fun r hrH n => ?_⟩
  · show (Function.update l.notifiers us (l.nextNode :: l.notifiers us) a).Nodup
    rw [Function.update_apply]
    split_ifs with ha
    · exact List.nodup_cons.2 ⟨hnext us, h.nodup us⟩
    · exact h.nodup a
  · show (Function.update l.subscribers remote (l.subscribers remote ++ [l.nextNode]) r).Nodup
    rw [Function.update_apply]
    split_ifs with hrr
    · rw [← List.concat_eq_append]
      exact (h.chain_nodup remote hr).concat (h.next_not_mem hr)
    · exact h.chain_nodup r hrH
  · rcases (hmem u n).1 hn with hn | ⟨rfl, rfl⟩
    · rw [hself n fun heq => hnext u (heq ▸ hn)]
      exact h.owner u n hn
    · exact hself'
  · show n ∈ Function.update l.subscribers remote (l.subscribers remote ++ [l.nextNode]) r ↔ _
    rw [hmem]
    by_cases hn : n = l.nextNode
    · -- the new node is on the chain of `remote` only
      subst hn
      rw [hself', hremote', Function.update_apply]
      split_ifs with hrr
      · rw [hrr]
        simp
      · have hne : idp remote ≠ idp r := fun heq => hrr (hinj r remote hrH hr heq.symm)
        simp [h.next_not_mem hrH, hne]
    · rw [hself n hn, hremote n hn]
      have hold := h.chained r hrH n
      rw [Function.update_apply]
      split_ifs with hrr
      · subst hrr
        simp only [List.mem_append, List.mem_singleton, hn, or_false, and_false]
        exact hold
      · simp only [hn, and_false, or_false]
        exact hold

/-- An unsubscription that does not match the head undoes both links of a node, or does nothing. -/
theorem unlink (h : l.Chained H idp) (hinj : ∀ a b, H a → H b → idp a = idp b → a = b)
    {us remote : Addr} (hr : H remote)
    (hhead : (l.notifiers us).head?.map l.remote ≠ some (idp remote)) :
    (l.unlink (idp remote) us remote).Chained H idp := by
  unfold Lists.unlink
  rcases hl : l.notifiers us with _ | ⟨fn, rest⟩
  · exact h
  rw [hl] at hhead
  have hne : l.remote fn ≠ idp remote := fun heq => hhead (congrArg some heq)
  simp only [if_neg hne]
  rcases hf : rest.find? (fun f1 => l.remote f1 = idp remote) with _ | f1
  · exact h
  have hf1 : l.remote f1 = idp remote := by simpa using List.find?_some hf
  have hin : f1 ∈ rest := List.mem_of_find?_eq_some hf
  have hnodup : (fn :: rest).Nodup := hl ▸ h.nodup us
  have hrest : rest.Nodup := (List.nodup_cons.1 hnodup).2
  have hfn : fn ≠ f1 := fun heq => (List.nodup_cons.1 hnodup).1 (heq ▸ hin)
  have howner : l.self f1 = us := h.owner us f1 (hl ▸ List.mem_cons_of_mem fn hin)
  have hmem : ∀ a n, n ∈ Function.update l.notifiers us (fn :: rest.erase f1) a ↔
      n ∈ l.notifiers a ∧ n ≠ f1 := by
    intro a n
    rw [Function.update_apply]
    split_ifs with ha
    · rw [ha, hl, List.mem_cons, List.mem_cons, hrest.mem_erase_iff]
      constructor
      · rintro (rfl | ⟨hn, hn'⟩)
        · exact ⟨.inl rfl, hfn⟩
        · exact ⟨.inr hn', hn⟩
      · rintro ⟨rfl | hn, hn'⟩
        · exact .inl rfl
        · exact .inr ⟨hn', hn⟩
    · refine ⟨fun hn => ⟨hn, ?_⟩, And.left⟩
      rintro rfl
      exact ha ((h.owner a n hn).symm.trans howner)
  refine ⟨fun a n hn => h.allocated a n ((hmem a n).1 hn).1, fun a => ?_, fun r hrH => ?_,
    fun u n hn => h.owner u n ((hmem u n).1 hn).1, fun r hrH n => ?_⟩
  · show (Function.update l.notifiers us (fn :: rest.erase f1) a).Nodup
    rw [Function.update_apply]
    split_ifs with ha
    · refine List.nodup_cons.2 ⟨fun hn => ?_, hrest.erase f1⟩
      exact (List.nodup_cons.1 hnodup).1 (List.mem_of_mem_erase hn)
    · exact h.nodup a
  · show (Function.update l.subscribers remote ((l.subscribers remote).erase f1) r).Nodup
    rw [Function.update_apply]
    split_ifs
    · exact (h.chain_nodup remote hr).erase f1
    · exact h.chain_nodup r hrH
  · show n ∈ Function.update l.subscribers remote ((l.subscribers remote).erase f1) r ↔
      n ∈ Function.update l.notifiers us (fn :: rest.erase f1) (l.self n) ∧ l.remote n = idp r
    have hold := h.chained r hrH n
    rw [hmem, Function.update_apply]
    split_ifs with hrr
    · subst hrr
      rw [(h.chain_nodup r hr).mem_erase_iff, hold]
      tauto
    · rw [hold]
      refine ⟨fun hn => ⟨⟨hn.1, ?_⟩, hn.2⟩, fun hn => ⟨hn.1.1, hn.2⟩⟩
      rintro rfl
      exact hrr (hinj r remote hrH hr (hn.2.symm.trans hf1))

end Lists.Chained

/-- What stays the head is not removed. -/
theorem Lists.head_unlink {l : Lists} {i : Idp} {us remote : Addr}
    (hhead : (l.notifiers us).head?.map l.remote ≠ some i) (a : Addr) :
    ((l.unlink i us remote).notifiers a).head? = (l.notifiers a).head? := by
  by_cases ha : a = us
  · subst ha
    unfold Lists.unlink
    rcases hl : l.notifiers a with _ | ⟨fn, rest⟩
    · rw [hl]
    · rw [hl] at hhead
      have hne : l.remote fn ≠ i := fun heq => hhead (congrArg some heq)
      simp only [if_neg hne]
      split
      · rw [hl]
      · simp only [Function.update_self, List.head?_cons]
  · rw [l.unlink_other i remote ha]

/-! ## The calls -/

/-- A call of the backend that touches subscriptions, or the creation of a block. -/
inductive Call where
  | create (c : Cmd)
  | subscribe (us remote : Addr) (alloc : Bool)
  | unsubscribe (us remote : Addr)
  | bind (fb1 fb2 : Addr) (al : Alloc)
  | unbind (fb1 fb2 : Addr)

/-- What a call returns, and the state after it. -/
def Call.perform (s : State) : Call → Ret × State
  | .create c => (.ok, c.exec s)
  | .subscribe us remote alloc => subscribeToRemoteFblock alloc s us remote
  | .unsubscribe us remote => (.ok, unsubscribeFromRemoteFblock s us remote)
  | .bind fb1 fb2 al => fblockBind al s fb1 fb2
  | .unbind fb1 fb2 => fblockUnbind s fb1 fb2

def Call.exec (s : State) (c : Call) : State := (c.perform s).2

/-- The call is made on entered blocks; a creation creates. -/
def Call.Proper (s : State) : Call → Prop
  | .create c => c.creates = true
  | .subscribe a b _ | .unsubscribe a b | .bind a b _ | .unbind a b =>
    s.fblmap (s.idp a) = some a ∧ s.fblmap (s.idp b) = some b

/-- No unsubscription of the call matches the head of the list. -/
def Call.KeepsHeads (s : State) : Call → Prop
  | .unsubscribe us remote => (s.notifiers us).head?.map s.remote ≠ some (s.idp remote)
  | .unbind fb1 fb2 => (s.notifiers fb1).head?.map s.remote ≠ some (s.idp fb2) ∧
      (s.notifiers fb2).head?.map s.remote ≠ some (s.idp fb1)
  | _ => True

theorem subscribe_ok {alloc : Bool} {s t : State} {us remote : Addr}
    (h : subscribeToRemoteFblock alloc s us remote = (.ok, t)) :
    t.registry = s.registry ∧ t.lists = s.lists.link (s.idp remote) us remote := by
  cases alloc with
  | false => cases h
  | true =>
    rw [subscribe_eq] at h
    obtain rfl := (Prod.mk.inj h).2
    exact ⟨rfl, rfl⟩

theorem eventRx_frame {s t : State} {fb : Addr} {ev : FbEvent} {r : Notify}
    (h : eventRx s fb ev = (r, t)) : t.registry = s.registry ∧ t.lists = s.lists := by
  obtain rfl := (Prod.mk.inj h).2
  exact ⟨rfl, rfl⟩

/-- A successful binding makes two subscriptions. -/
theorem lists_fblockBind_ok {al : Alloc} {s : State} {fb1 fb2 : Addr}
    (h : (fblockBind al s fb1 fb2).1 = .ok) :
    (fblockBind al s fb1 fb2).2.lists =
      (s.lists.link (s.idp fb2) fb1 fb2).link (s.idp fb1) fb2 fb1 := by
  have hidp : ∀ {t : State}, t.registry = s.registry → t.idp = s.idp := congrArg Registry.idp
  have h0 : (getFblock (getFblock s fb1) fb2).registry = s.registry ∧
      (getFblock (getFblock s fb1) fb2).lists = s.lists := ⟨rfl, rfl⟩
  revert h
  unfold fblockBind
  simp only
  generalize getFblock (getFblock s fb1) fb2 = t at h0 ⊢
  split
  · exact fun h => by cases h
  rename_i s1 e1
  obtain ⟨hreg1, hlists1⟩ := eventRx_frame e1
  rw [h0.1] at hreg1
  rw [h0.2] at hlists1
  split
  · split
    · exact fun h => by cases h
    · exact fun h => by cases h
  rename_i s2 e2
  obtain ⟨hreg2, hlists2⟩ := eventRx_frame e2
  rw [hreg1] at hreg2
  rw [hlists1] at hlists2
  split
  · exact fun h => by cases h
  rename_i s3 e3
  obtain ⟨hreg3, hlists3⟩ := subscribe_ok e3
  rw [hidp hreg2, hlists2] at hlists3
  rw [hreg2] at hreg3
  split
  · exact fun h => by cases h
  rename_i s4 e4
  obtain ⟨-, hlists4⟩ := subscribe_ok e4
  rw [hidp hreg3, hlists3] at hlists4
  exact fun _ => hlists4

/-- A successful unbinding removes two. -/
theorem lists_fblockUnbind_ok {s : State} {fb1 fb2 : Addr} (h : (fblockUnbind s fb1 fb2).1 = .ok) :
    (fblockUnbind s fb1 fb2).2.lists =
      (s.lists.unlink (s.idp fb2) fb1 fb2).unlink (s.idp fb1) fb2 fb1 := by
  have hidp : ∀ {t : State}, t.registry = s.registry → t.idp = s.idp := congrArg Registry.idp
  revert h
  unfold fblockUnbind
  split
  · exact fun h => by cases h
  rename_i s1 e1
  obtain ⟨hreg1, hlists1⟩ := eventRx_frame e1
  split
  · exact fun h => by cases h
  rename_i s2 e2
  obtain ⟨hreg2, hlists2⟩ := eventRx_frame e2
  rw [hreg1] at hreg2
  rw [hlists1] at hlists2
  intro _
  simp only [lists_putFblock, lists_unsubscribe]
  rw [hidp ((registry_unsubscribe s2 fb1 fb2).trans hreg2), hidp hreg2, hlists2]

/-! ## The invariant -/

/-- The tables are sound, subscriptions are to entered blocks, and their records agree. -/
structure Subscribed (s : State) : Prop where
  tables : Tables s.registry
  known : ∀ u, ∀ i ∈ s.lists.remotes u, s.fblmap i ≠ none
  chained : s.lists.Chained s.registry.Has s.idp

namespace Subscribed

variable {s s' : State}

theorem inj (h : Subscribed s) (a b : Addr) (ha : s.registry.Has a) (hb : s.registry.Has b)
    (heq : s.idp a = s.idp b) : a = b :=
  h.tables.idp_inj ha hb heq

/-- A step of the lists. -/
theorem relist (h : Subscribed s) (hreg : s'.registry = s.registry)
    (hknown : ∀ u, ∀ i ∈ s'.lists.remotes u, s.fblmap i ≠ none)
    (hlists : s'.lists.Chained s.registry.Has s.idp) : Subscribed s' := by
  refine ⟨hreg ▸ h.tables, ?_, ?_⟩
  · rw [show s'.fblmap = s.fblmap from congrArg Registry.fblmap hreg]
    exact hknown
  · rw [hreg, show s'.idp = s.idp from congrArg Registry.idp hreg]
    exact hlists

/-- Entries come and go as long as the blocks subscribed to stay. -/
theorem reenter (h : Subscribed s) (hT : Tables s'.registry) (hn : s'.notifiers = s.notifiers)
    (hnodes : s'.self = s.self ∧ s'.remote = s.remote ∧ s'.nextNode = s.nextNode)
    (hknown : ∀ u, ∀ i ∈ s.lists.remotes u, s'.fblmap i ≠ none)
    (hsub : ∀ r, s'.registry.Has r →
      s.registry.Has r ∧ s'.idp r = s.idp r ∧ s'.subscribers r = s.subscribers r ∨
      s'.subscribers r = [] ∧ ∀ u, s'.idp r ∉ s.lists.remotes u) :
    Subscribed s' := by
  have hn' : s'.lists.notifiers = s.lists.notifiers := hn
  have hself : s'.lists.self = s.lists.self := hnodes.1
  have hrem : s'.lists.remote = s.lists.remote := hnodes.2.1
  refine ⟨hT, ?_, ⟨fun a n hmem => ?_, fun a => ?_, fun r hr => ?_, ?_, fun r hr n => ?_⟩⟩
  · unfold Lists.remotes at hknown ⊢
    rw [hn', hrem]
    exact hknown
  · show n < s'.nextNode
    rw [hnodes.2.2]
    exact h.chained.allocated a n (hn' ▸ hmem)
  · rw [hn']
    exact h.chained.nodup a
  · rcases hsub r hr with ⟨hr', -, hchain⟩ | ⟨hempty, -⟩
    · rw [show s'.lists.subscribers r = _ from hchain]
      exact h.chained.chain_nodup r hr'
    · rw [show s'.lists.subscribers r = _ from hempty]
      exact List.nodup_nil
  · rw [hn', hself]
    exact h.chained.owner
  · rw [hn', hself, hrem]
    rcases hsub r hr with ⟨hr', hidp, hchain⟩ | ⟨hempty, hnone⟩
    · rw [show s'.lists.subscribers r = _ from hchain, hidp]
      exact h.chained.chained r hr' n
    · rw [show s'.lists.subscribers r = _ from hempty]
      simp only [List.not_mem_nil, false_iff, not_and]
      exact fun hmem heq => hnone _ (heq ▸ Lists.remote_mem hmem)

theorem created {area : Priv} {ops : FbType} (h : Subscribed s) (hC : Created s s' area ops) :
    Subscribed s' := by
  refine h.reenter hC.tables hC.notifiers hC.nodes (fun u i hi => ?_) fun r ⟨i, hi⟩ => ?_
  · obtain ⟨r, hr⟩ := Option.ne_none_iff_exists'.1 (h.known u i hi)
    rw [hC.old _ r hr]
    exact Option.some_ne_none r
  · rcases hC.new i r hi with hold | ⟨rfl, rfl, hnone, -, -, -, -, hempty⟩
    · have hne : r ≠ s.nextFblock := by
        rintro rfl
        exact h.tables.not_has_next i hold
      obtain ⟨-, hidp, -, -, -, hchain⟩ := hC.keep r hne
      exact .inl ⟨⟨i, hold⟩, hidp, hchain⟩
    · refine .inr ⟨hempty, fun u hmem => h.known u _ hmem ?_⟩
      rw [show s'.idp s.nextFblock = s.nextIdp from (hC.tables.stored _ _ hi).1, hnone]

/-- A block that nobody is subscribed to is taken out again. -/
theorem unregister (h : Subscribed s) {a : Addr} (ha : s.registry.Has a)
    (hnone : ∀ u, s.idp a ∉ s.lists.remotes u) :
    Subscribed (unregisterFblockNamespaceNoRcu s a) := by
  have hT := tables_unregister h.tables ha
  obtain ⟨t, heq, -, -⟩ := unregisterNoRcu_spec h.tables.wf a
  rw [heq] at hT ⊢
  refine h.reenter hT rfl ⟨rfl, rfl, rfl⟩ (fun u i hi => ?_) fun r ⟨i, hi⟩ => .inl ⟨⟨i, ?_⟩, rfl, rfl⟩
  · show Function.update s.fblmap (s.idp a) none i ≠ none
    have hne : i ≠ s.idp a := fun heq => hnone u (heq ▸ hi)
    rw [Function.update_of_ne hne]
    exact h.known u i hi
  · have hi' : Function.update s.fblmap (s.idp a) none i = some r := hi
    rw [Function.update_apply] at hi'
    split_ifs at hi'
    exact hi'

theorem keepVlink {r : Option Addr × State} (h : Subscribed r.2) : Subscribed (keepVlink r) := by
  obtain ⟨_ | fb, t⟩ := r
  · exact h
  · exact ⟨⟨h.tables.wf, h.tables.short, h.tables.named, h.tables.stored⟩, h.known,
      ⟨h.chained.allocated, h.chained.nodup, h.chained.chain_nodup, h.chained.owner,
        h.chained.chained⟩⟩

theorem quiet (h : Subscribed s) (hq : Quiet s s') : Subscribed s' := by
  refine h.relist hq.registry ?_ (hq.lists ▸ h.chained)
  rw [hq.lists]
  exact h.known

theorem create (h : Subscribed s) {c : Cmd} (hc : c.creates = true) : Subscribed (c.exec s) := by
  cases c with
  | add n type al =>
    rcases userctlAdd_result h.tables al n type with ⟨-, hq, -⟩ | ⟨f, -, -, -, hC, -⟩ |
      ⟨f, -, t, -, -, hC, -, -, -, -, -, heq⟩
    · exact h.quiet hq
    · exact h.created hC
    · have ht := h.created hC
      rw [show Cmd.exec s (.add n type al) = _ from heq]
      exact ⟨⟨ht.tables.wf, ht.tables.short, ht.tables.named, ht.tables.stored⟩, ht.known,
        ⟨ht.chained.allocated, ht.chained.nodup, ht.chained.chain_nodup, ht.chained.owner,
          ht.chained.chained⟩⟩
  | hookEth n dev al =>
    have hC : Created s (fbCtor .eth false (Priv.init dev 0) al s n).2 (Priv.init dev 0) .eth :=
      fbCtor_created h.tables false al
    have h' := h.created hC
    show Subscribed (Lana.keepVlink (fbEthBuildFblock al s n dev))
    unfold fbEthBuildFblock
    rcases hr : fbCtor .eth false (Priv.init dev 0) al s n with ⟨_ | fb, t⟩ <;> rw [hr] at hC h'
    · exact h'
    · obtain ⟨rfl, hfree, hmap, -⟩ := fbCtor_some h.tables hr
      have hent : t.fblmap s.nextIdp = some s.nextFblock := by rw [hmap, Function.update_self]
      dsimp only
      cases al.rxHandler
      · -- the handler cannot be registered: the new block goes again
        refine h'.unregister ⟨_, hent⟩ fun u hmem => ?_
        have hremotes : t.lists.remotes u = s.lists.remotes u := by
          show ((t.notifiers u).map t.remote : Multiset Idp) = (s.notifiers u).map s.remote
          rw [hC.notifiers, hC.nodes.2.1]
        rw [hremotes, show t.idp s.nextFblock = s.nextIdp from
          (hC.tables.stored _ _ hent).1] at hmem
        exact h.known u _ hmem hfree
      · exact keepVlink (r := (some s.nextFblock, t)) h'
  | addEthvlink n vdev al => exact keepVlink (h.created (fbCtor_created h.tables false al))
  | openSock n sock al => exact keepVlink (h.created (fbCtor_created h.tables false al))
  | _ => cases hc

/-- A node more, for an entered block. -/
theorem known_link {l : Lists} {m : Idp → Option Addr} (hA : l.Allocated)
    (h : ∀ u, ∀ i ∈ l.remotes u, m i ≠ none) {j : Idp} (hj : m j ≠ none) (us remote : Addr) :
    ∀ u, ∀ i ∈ (l.link j us remote).remotes u, m i ≠ none := by
  intro u i hi
  rw [Lists.remotes_link hA] at hi
  split_ifs at hi
  · rcases Multiset.mem_cons.1 hi with rfl | hi
    · exact hj
    · exact h u i hi
  · exact h u i hi

theorem known_unlink {l : Lists} {m : Idp → Option Addr} (h : ∀ u, ∀ i ∈ l.remotes u, m i ≠ none)
    (j : Idp) (us remote : Addr) : ∀ u, ∀ i ∈ (l.unlink j us remote).remotes u, m i ≠ none := by
  intro u i hi
  by_cases hu : u = us
  · rw [hu, Lists.remotes_unlink] at hi
    exact h us i (Multiset.mem_of_mem_erase hi)
  · rw [Lists.remotes_unlink_other _ _ _ hu] at hi
    exact h u i hi

/-- **Step.** A successful call that keeps the heads. -/
theorem call (h : Subscribed s) {c : Call} (hc : c.Proper s) (hok : (c.perform s).1 = .ok)
    (hheads : c.KeepsHeads s) : Subscribed (c.exec s) := by
  have hA := h.chained.allocated
  cases c with
  | create c => exact h.create hc
  | subscribe us remote alloc =>
    obtain ⟨hus, hremote⟩ := hc
    obtain ⟨hreg, hlists⟩ := subscribe_ok (Prod.ext hok rfl :
      subscribeToRemoteFblock alloc s us remote = (.ok, _))
    refine h.relist hreg ?_ ?_
    · rw [show (Call.exec s (.subscribe us remote alloc)).lists = _ from hlists]
      exact known_link hA h.known (by rw [hremote]; simp) us remote
    · rw [show (Call.exec s (.subscribe us remote alloc)).lists = _ from hlists]
      exact h.chained.link h.inj us ⟨_, hremote⟩
  | unsubscribe us remote =>
    obtain ⟨hus, hremote⟩ := hc
    have hlists := lists_unsubscribe s us remote
    refine h.relist (registry_unsubscribe s us remote) ?_ ?_
    · rw [show (Call.exec s (.unsubscribe us remote)).lists = _ from hlists]
      exact known_unlink h.known _ us remote
    · rw [show (Call.exec s (.unsubscribe us remote)).lists = _ from hlists]
      exact h.chained.unlink h.inj ⟨_, hremote⟩ hheads
  | bind fb1 fb2 al =>
    obtain ⟨h1, h2⟩ := hc
    have hlists := @lists_fblockBind_ok al s fb1 fb2 hok
    refine h.relist (registry_fblockBind al s fb1 fb2) ?_ ?_
    · rw [show (Call.exec s (.bind fb1 fb2 al)).lists = _ from hlists]
      have hknown := known_link hA h.known (j := s.idp fb2) (by rw [h2]; simp) fb1 fb2
      exact known_link (hA.link _ _ _) hknown (by rw [h1]; simp) fb2 fb1
    · rw [show (Call.exec s (.bind fb1 fb2 al)).lists = _ from hlists]
      exact (h.chained.link h.inj fb1 ⟨_, h2⟩).link h.inj fb2 ⟨_, h1⟩
  | unbind fb1 fb2 =>
    obtain ⟨h1, h2⟩ := hc
    have hlists := lists_fblockUnbind_ok hok
    refine h.relist (registry_fblockUnbind s fb1 fb2) ?_ ?_
    · rw [show (Call.exec s (.unbind fb1 fb2)).lists = _ from hlists]
      exact known_unlink (known_unlink h.known _ fb1 fb2) _ fb2 fb1
    · rw [show (Call.exec s (.unbind fb1 fb2)).lists = _ from hlists]
      refine (h.chained.unlink h.inj ⟨_, h2⟩ hheads.1).unlink h.inj ⟨_, h1⟩ ?_
      rw [Lists.head_unlink hheads.1, (s.lists.unlink_nodes (s.idp fb2) fb1 fb2).1]
      exact hheads.2

end Subscribed

theorem subscribed_init (online : OnlineCpus) : Subscribed (State.init online) where
  tables := tables_init online
  known := fun u i hi => by simp [Lists.remotes, State.init, State.lists] at hi
  chained := ⟨fun a n hn => (by cases hn), fun _ => List.nodup_nil, fun r ⟨i, hi⟩ => (by cases hi),
    fun u n hn => (by cases hn), fun r ⟨i, hi⟩ => (by cases hi)⟩

/-- **Subscriptions.** Whatever sequence of successful calls is made on entered blocks, creations in
between, as long as no unsubscription matches the head of the list: for every block `U` and every
entered block `R`, the nodes of `U` for `R` are as many as the entries of `U` on the chain of
`R`. -/
theorem subscriptions_agree (online : OnlineCpus) (calls : List Call)
    (hok : Transition.Allowed Call.exec
      (fun s c => (c.Proper s ∧ (c.perform s).1 = .ok) ∧ c.KeepsHeads s) (State.init online) calls) :
    let s := calls.foldl Call.exec (State.init online)
    ∀ U R, s.fblmap (s.idp R) = some R →
      (s.notifiers U).countP (fun n => s.remote n = s.idp R) =
        (s.subscribers R).countP (fun n => s.self n = U) := by
  intro s U R hR
  have hstep : ∀ s (c : Call), Subscribed s → (c.Proper s ∧ (c.perform s).1 = .ok) ∧ c.KeepsHeads s →
      Subscribed (c.exec s) := fun s c hs hc => hs.call hc.1.1 hc.1.2 hc.2
  have h := Transition.invariant_of_allowed (I := Subscribed) hstep (subscribed_init online) hok
  exact h.chained.count_eq ⟨_, hR⟩ U

/-- A block that unsubscribes from the one it subscribed to first. -/
def interiorCalls : List Call :=
  [.create (.add nameA Factory.dummy.type .ok), .create (.add nameB Factory.dummy.type .ok),
    .create (.add nameC Factory.dummy.type .ok), .subscribe 0 1 true, .bind 0 2 .ok,
    .unsubscribe 0 1]

instance (s : State) : ∀ c : Call, Decidable (c.Proper s)
  | .create c => inferInstanceAs (Decidable (c.creates = true))
  | .subscribe .. | .unsubscribe .. | .bind .. | .unbind .. =>
    inferInstanceAs (Decidable (_ ∧ _))

instance (s : State) : ∀ c : Call, Decidable (c.KeepsHeads s)
  | .unsubscribe .. => inferInstanceAs (Decidable (_ ≠ _))
  | .unbind .. => inferInstanceAs (Decidable (_ ∧ _))
  | .create _ | .subscribe .. | .bind .. => inferInstanceAs (Decidable True)

theorem subscriptions_agree_interior :
    let s := interiorCalls.foldl Call.exec (State.init oneCpu)
    (s.notifiers 0).countP (fun n => s.remote n = s.idp 2) = 1 ∧
      (s.subscribers 2).countP (fun n => s.self n = 0) = 1 := by
  have h := subscriptions_agree oneCpu interiorCalls (by decide) 0 2 (by decide)
  have hone : ((interiorCalls.foldl Call.exec (State.init oneCpu)).notifiers 0).countP
      (fun n => (interiorCalls.foldl Call.exec (State.init oneCpu)).remote n =
        (interiorCalls.foldl Call.exec (State.init oneCpu)).idp 2) = 1 := by decide
  exact ⟨hone, h.symm.trans hone⟩

/-- A block that unsubscribes from the one it subscribed to last. -/
def headCalls : List Call :=
  [.create (.add nameA Factory.dummy.type .ok), .create (.add nameB Factory.dummy.type .ok),
    .subscribe 0 1 true, .unsubscribe 0 1]

/-- `a` has no subscription left, and its node is still on the chain of `b`. -/
theorem head_stays_chained :
    Transition.Allowed Call.exec (fun s c => c.Proper s ∧ (c.perform s).1 = .ok)
      (State.init oneCpu) headCalls ∧
    let s := headCalls.foldl Call.exec (State.init oneCpu)
    s.fblmap (s.idp 0) = some 0 ∧ s.fblmap (s.idp 1) = some 1 ∧
      (s.notifiers 0).countP (fun n => s.remote n = s.idp 1) = 0 ∧
      (s.subscribers 1).countP (fun n => s.self n = 0) = 1 := by
  decide

end Lana
