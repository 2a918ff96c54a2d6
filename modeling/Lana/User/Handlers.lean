import Lana.Library.Transition
import Lana.User.Closed

/-!
# Handlers of notifiers

A notifier node keeps two facts about the block whose list it is on: the block (`self`) and the
handler of its type (`nb.notifier_call`).  A replacement moves whole lists between two blocks and
refreshes `self` only, so the handler of a node is that of its block in all states of a run exactly
if no replacement moves nodes between blocks of different types (`handlers_own_iff`).
-/

namespace Lana

open State

/-- Every node belongs to the block whose list it is on and calls the handler of that block. -/
def OwnHandlers (s : State) : Prop :=
  ∀ a, ∀ n ∈ s.notifiers a, s.self n = a ∧ s.notifierCall n = s.ops a

/-- Nodes and blocks in use have been allocated, and a block that has not has no nodes. -/
structure Noded (s : State) : Prop where
  allocated : ∀ a, ∀ n ∈ s.notifiers a, n < s.nextNode
  fresh : ∀ a, s.nextFblock ≤ a → s.notifiers a = []
  entries : ∀ i a, s.fblmap i = some a → a < s.nextFblock

structure Handled (s : State) : Prop extends Noded s where
  own : OwnHandlers s

theorem notifierCall_putFblock (s : State) (a : Addr) :
    (putFblock s a).notifierCall = s.notifierCall := by
  obtain ⟨pd, rel, h⟩ := putFblock_shape s a
  rw [h]

theorem notifierCall_unlink (s : State) (us remote : Addr) :
    (s.unlink us remote).notifierCall = s.notifierCall := by
  obtain ⟨ns, ss, h⟩ := unlink_shape s us remote
  rw [h]

/-- A change of tables and of the fresh object: the nodes stay as they are. -/
theorem Noded.of_tables {s t : State} (h : Noded s) (hl : t.notifiers = s.notifiers)
    (hnode : t.nextNode = s.nextNode) (hnext : s.nextFblock ≤ t.nextFblock)
    (hent : ∀ i a, t.fblmap i = some a →
      s.fblmap i = some a ∨ a = s.nextFblock ∧ s.nextFblock < t.nextFblock) : Noded t where
  allocated := fun a n hn => hnode ▸ h.allocated a n (hl ▸ hn)
  fresh := fun a ha => hl ▸ h.fresh a (hnext.trans ha)
  entries := fun i a ha => by
    obtain hold | ⟨rfl, hlt⟩ := hent i a ha
    · exact lt_of_lt_of_le (h.entries i a hold) hnext
    · exact hlt

namespace Handled

variable {s t : State}

theorem of_tables (h : Handled s) (hl : t.notifiers = s.notifiers)
    (hnodes : t.self = s.self ∧ t.notifierCall = s.notifierCall ∧ t.nextNode = s.nextNode)
    (hops : ∀ a, a ≠ s.nextFblock → t.ops a = s.ops a) (hnext : s.nextFblock ≤ t.nextFblock)
    (hent : ∀ i a, t.fblmap i = some a →
      s.fblmap i = some a ∨ a = s.nextFblock ∧ s.nextFblock < t.nextFblock) : Handled t := by
  obtain ⟨hself, hcall, hnode⟩ := hnodes
  refine ⟨h.toNoded.of_tables hl hnode hnext hent, fun a n hn => ?_⟩
  rw [hl] at hn
  have ha : a ≠ s.nextFblock := by
    rintro rfl
    rw [h.fresh _ le_rfl] at hn
    cases hn
  rw [hself, hcall, hops a ha]
  exact h.own a n hn

/-- What leaves the tables, the lists and the handlers alone. -/
theorem congr (h : Handled s) (hreg : t.registry = s.registry) (hl : t.lists = s.lists)
    (hcall : t.notifierCall = s.notifierCall) : Handled t := by
  have hnext : t.nextFblock = s.nextFblock := congrArg Registry.nextFblock hreg
  refine h.of_tables (congrArg Lists.notifiers hl)
    ⟨congrArg Lists.self hl, hcall, congrArg Lists.nextNode hl⟩ (fun a _ => ?_) hnext.ge
    fun i a ha => .inl ?_
  · exact congrFun (congrArg Registry.ops hreg) a
  · rwa [← show t.fblmap = s.fblmap from congrArg Registry.fblmap hreg]

theorem put (h : Handled s) (a : Addr) : Handled (putFblock s a) :=
  h.congr (registry_putFblock s a) (lists_putFblock s a) (notifierCall_putFblock s a)

/-- A new node has the block and its handler. -/
theorem link (h : Handled s) {us : Addr} (hus : us < s.nextFblock) (remote : Addr) :
    Handled (s.link us remote) := by
  have hold : ∀ a, ∀ n ∈ s.notifiers a, n ≠ s.nextNode := fun a n hn => (h.allocated a n hn).ne
  refine ⟨⟨fun a n hn => ?_, fun a ha => ?_, h.entries⟩, fun a n hn => ?_⟩
  · show n < s.nextNode + 1
    change n ∈ Function.update s.notifiers us (s.nextNode :: s.notifiers us) a at hn
    rw [Function.update_apply] at hn
    split_ifs at hn
    · obtain rfl | hn := List.mem_cons.1 hn
      · exact Nat.lt_succ_self _
      · exact Nat.lt_succ_of_lt (h.allocated us n hn)
    · exact Nat.lt_succ_of_lt (h.allocated a n hn)
  · show Function.update s.notifiers us (s.nextNode :: s.notifiers us) a = []
    have hne : a ≠ us := by
      rintro rfl
      exact absurd ha (not_le.2 hus)
    rw [Function.update_of_ne hne]
    exact h.fresh a ha
  · change n ∈ Function.update s.notifiers us (s.nextNode :: s.notifiers us) a at hn
    show Function.update s.self s.nextNode us n = a ∧
      Function.update s.notifierCall s.nextNode (s.ops us) n = s.ops a
    rw [Function.update_apply] at hn
    split_ifs at hn with ha
    · subst ha
      obtain rfl | hn := List.mem_cons.1 hn
      · rw [Function.update_self, Function.update_self]
        exact ⟨rfl, rfl⟩
      · rw [Function.update_of_ne (hold a n hn), Function.update_of_ne (hold a n hn)]
        exact h.own a n hn
    · rw [Function.update_of_ne (hold a n hn), Function.update_of_ne (hold a n hn)]
      exact h.own a n hn

/-- The removal of a node leaves the others alone. -/
theorem unlink (h : Handled s) (us remote : Addr) : Handled (s.unlink us remote) := by
  have hl := lists_unlink s us remote
  have hreg := registry_unlink s us remote
  obtain ⟨-, hself, hnode⟩ := s.lists.unlink_nodes (s.idp remote) us remote
  have hsub : ∀ a, (s.unlink us remote).notifiers a ⊆ s.notifiers a := fun a => by
    rw [show (s.unlink us remote).notifiers = _ from congrArg Lists.notifiers hl]
    exact s.lists.unlink_subset (s.idp remote) us remote a
  have hnext : (s.unlink us remote).nextFblock = s.nextFblock := congrArg Registry.nextFblock hreg
  have hself' : (s.unlink us remote).self = s.self := (congrArg Lists.self hl).trans hself
  have hnode' : (s.unlink us remote).nextNode = s.nextNode :=
    (congrArg Lists.nextNode hl).trans hnode
  refine ⟨⟨fun a n hn => ?_, fun a ha => ?_, fun i a ha => ?_⟩, fun a n hn => ?_⟩
  · rw [hnode']
    exact h.allocated a n (hsub a hn)
  · have := hsub a
    rw [h.fresh a (hnext ▸ ha)] at this
    exact List.subset_nil.1 this
  · rw [hnext]
    exact h.entries i a (by rwa [← show (s.unlink us remote).fblmap = s.fblmap from
      congrArg Registry.fblmap hreg])
  · rw [hself', notifierCall_unlink, show (s.unlink us remote).ops = s.ops from
      congrArg Registry.ops hreg]
    exact h.own a n (hsub a hn)

theorem has_lt (h : Handled s) {a : Addr} (ha : s.registry.Has a) : a < s.nextFblock := by
  obtain ⟨i, hi⟩ := ha
  exact h.entries i a hi

theorem subscribe (h : Handled s) (alloc : Bool) {us : Addr} (hus : us < s.nextFblock)
    (remote : Addr) : Handled (subscribeToRemoteFblock alloc s us remote).2 := by
  cases alloc
  · exact h
  · rw [subscribe_eq]
    exact (h.link hus remote).congr rfl rfl rfl

theorem unsubscribe (h : Handled s) (us remote : Addr) :
    Handled (unsubscribeFromRemoteFblock s us remote) := by
  by_cases hn : s.notifiers us = []
  · rwa [unsubscribe_eq_of_nil remote hn]
  · rw [unsubscribe_eq_of_ne_nil remote hn]
    exact ((h.unlink us remote).put us).put remote

theorem event (h : Handled s) (fb : Addr) (ev : FbEvent) : Handled (eventRx s fb ev).2 :=
  h.congr rfl rfl rfl

/-- Subscriptions are made by blocks that have been allocated. -/
theorem steady (k : Addr) :
    Steady (fun a => a < k) fun t => t.nextFblock = k ∧ Handled t where
  get := fun _ h => ⟨h.1, h.2.congr rfl rfl rfl⟩
  put := fun {t} a h =>
    ⟨(congrArg Registry.nextFblock (registry_putFblock t a)).trans h.1, h.2.put a⟩
  event := fun fb ev h => ⟨h.1, h.2.event fb ev⟩
  subscribe := fun {t} alloc us remote hus h =>
    ⟨(congrArg Registry.nextFblock (registry_subscribe alloc t us remote)).trans h.1,
      h.2.subscribe alloc (h.1 ▸ hus) remote⟩
  unsubscribe := fun {t} us remote h =>
    ⟨(congrArg Registry.nextFblock (registry_unsubscribe t us remote)).trans h.1,
      h.2.unsubscribe us remote⟩
  panic := fun h => ⟨h.1, h.2.congr rfl rfl rfl⟩

theorem unbind (h : Handled s) (fb1 fb2 : Addr) : Handled (fblockUnbind s fb1 fb2).2 :=
  ((steady s.nextFblock).unbind fb1 fb2 ⟨rfl, h⟩).2

theorem bind (h : Handled s) (al : Alloc) {fb1 fb2 : Addr} (h1 : fb1 < s.nextFblock)
    (h2 : fb2 < s.nextFblock) : Handled (fblockBind al s fb1 fb2).2 :=
  ((steady s.nextFblock).bind al h1 h2 ⟨rfl, h⟩).2

/-- A new block has no nodes yet. -/
theorem ctor (h : Handled s) (ops : FbType) (proc : Bool) (area : Priv) (al : Alloc) (n : CStr) :
    Handled (fbCtor ops proc area al s n).2 := by
  have hlt : s.nextFblock < s.nextFblock + 1 := Nat.lt_succ_self _
  have hops : ∀ a, a ≠ s.nextFblock → (s.constructed n area ops).ops a = s.ops a := fun a ha =>
    Function.update_of_ne ha ..
  refine fbCtor_rule h ?_ ?_ ?_ (fun _ m => ?_) proc al
  · exact h.of_tables rfl ⟨rfl, rfl, rfl⟩ (fun _ _ => rfl) hlt.le fun _ _ ha => .inl ha
  · exact h.of_tables rfl ⟨rfl, rfl, rfl⟩ hops hlt.le fun _ _ ha => .inl ha
  · exact h.of_tables rfl ⟨rfl, rfl, rfl⟩ hops hlt.le fun _ _ ha => .inl ha
  · refine h.of_tables rfl ⟨rfl, rfl, rfl⟩ hops hlt.le fun i a ha => ?_
    change Function.update s.fblmap s.nextIdp (some s.nextFblock) i = some a at ha
    rw [Function.update_apply] at ha
    split_ifs at ha
    · exact .inr ⟨(Option.some.inj ha).symm, hlt⟩
    · exact .inl ha

theorem unregister (h : Handled s) (a : Addr) : Handled (unregisterFblockNamespaceNoRcu s a) := by
  obtain ⟨m, f, heq⟩ := unregisterNoRcu_frame s a
  have hmap := fblmap_unregisterNoRcu s a
  rw [heq] at hmap ⊢
  refine h.of_tables rfl ⟨rfl, rfl, rfl⟩ (fun _ _ => rfl) le_rfl fun i b hb => .inl ?_
  change f = _ at hmap
  change f i = some b at hb
  rw [hmap, Function.update_apply] at hb
  split_ifs at hb
  exact hb

theorem closed : Closed Handled where
  refs := fun _ h => h.congr rfl rfl rfl
  put := fun a h => h.put a
  subscribe := by
    intro s alloc us remote hus h
    exact h.subscribe alloc (h.has_lt hus) remote
  unsubscribe := fun us remote h => h.unsubscribe us remote
  bind := by
    intro s al fb1 fb2 h1 h2 h
    exact h.bind al (h.has_lt h1) (h.has_lt h2)
  unbind := fun fb1 fb2 h => h.unbind fb1 fb2
  ctor := fun ops proc area al n h => h.ctor ops proc area al n
  unregister := fun a h => h.unregister a
  relabel := fun _ _ h => h.of_tables rfl ⟨rfl, rfl, rfl⟩ (fun _ _ => rfl) le_rfl
    fun _ _ ha => .inl ha

end Handled

/-! ## Replacements -/

section Replace

variable {s : State}

theorem notifierCall_replaceSteps (fb1 fb2 : Addr) (exch : Bool) :
    (replaceSteps s fb1 fb2 exch).notifierCall = s.notifierCall := by
  obtain ⟨t, m, heq⟩ := unregisterNoRcu_frame s fb2
  unfold replaceSteps unregisterFblock
  rw [notifierCall_putFblock]
  show (fblockMigrateR _ fb2 fb1).notifierCall = _
  rw [migrateR_eq, notifierCall_putFblock, notifierCall_putFblock]
  show (exchangePriv _ fb1 fb2 exch).notifierCall = _
  cases exch
  · rw [heq]
    rfl
  · show (fblockMigrateP _ fb2 fb1).notifierCall = _
    rw [migrateP_eq, notifierCall_putFblock, notifierCall_putFblock, heq]
    rfl

/-- The replacement of `n1` by `n2` goes through, and these are the two blocks. -/
structure GoesThrough (s : State) (n1 n2 : Name) (fb1 fb2 : Addr) : Prop where
  first : s.lookup n1 = some fb1
  second : s.lookup n2 = some fb2
  factory1 : s.factory fb1 ≠ none
  factory2 : s.factory fb2 ≠ none
  unused : (s.addRefs (ref fb1 + ref fb2)).refcnt fb2 ≤ 2

/-- What is not a replacement has given up. -/
theorem replaceRefused_of_not {n1 n2 : Name} (h : ∀ fb1 fb2, ¬ GoesThrough s n1 n2 fb1 fb2)
    (al : Alloc) (dropPriv : Bool) : ReplaceRefused s (userctlReplace al s n1 n2 dropPriv).2 := by
  obtain ⟨-, hrefused⟩ | ⟨fb1, fb2, f1, f2, h1, h2, hf1, hf2, hcnt⟩ :=
    userctlReplace_cases al s n1 n2 dropPriv
  · exact hrefused
  · exact absurd ⟨h1, h2, by rw [hf1]; exact nofun, by rw [hf2]; exact nofun, hcnt⟩ (h fb1 fb2)

/-- A replacement exchanges the lists of the two blocks and leaves the handlers alone. -/
structure Exchanged (s t : State) (fb1 fb2 : Addr) : Prop where
  lists : t.lists = s.lists.migrate fb2 fb1
  notifierCall : t.notifierCall = s.notifierCall
  ops : t.ops = s.ops
  next : t.nextFblock = s.nextFblock
  entries : ∀ i a, t.fblmap i = some a → s.fblmap i = some a ∨ a = fb2

theorem exchanged_replace {n1 n2 : Name} {fb1 fb2 : Addr} (h : GoesThrough s n1 n2 fb1 fb2)
    (al : Alloc) (dropPriv : Bool) :
    Exchanged s (userctlReplace al s n1 n2 dropPriv).2 fb1 fb2 := by
  obtain ⟨f1, hf1⟩ := Option.ne_none_iff_exists'.1 h.factory1
  obtain ⟨f2, hf2⟩ := Option.ne_none_iff_exists'.1 h.factory2
  obtain ⟨hreg, hlists⟩ := userctlReplace_frame h.first h.second hf1 hf2 h.unused al dropPriv
  obtain ⟨m, f, heq⟩ := unregisterNoRcu_frame s fb2
  have hmap := fblmap_unregisterNoRcu s fb2
  rw [heq] at hreg hmap
  refine ⟨hlists, ?_, congrArg Registry.ops hreg, congrArg Registry.nextFblock hreg,
    fun i a ha => ?_⟩
  · rw [userctlReplace_eq h.first h.second hf1 hf2 h.unused al dropPriv]
    dsimp only
    rw [registerFblock_replaceSteps, notifierCall_putFblock, notifierCall_putFblock]
    exact notifierCall_replaceSteps ..
  · rw [show (userctlReplace al s n1 n2 dropPriv).2.fblmap = _ from
      congrArg Registry.fblmap hreg] at ha
    change Function.update f (s.idp fb1) _ i = some a at ha
    change f = _ at hmap
    rw [hmap, Function.update_apply, Function.update_apply] at ha
    split_ifs at ha
    · exact .inr (Option.some.inj ha).symm
    · exact .inl ha

theorem Exchanged.notifiers {t : State} {fb1 fb2 : Addr} (ht : Exchanged s t fb1 fb2) (a : Addr) :
    t.notifiers a = s.notifiers (Equiv.swap fb2 fb1 a) := by
  rw [show t.notifiers = _ from congrArg Lists.notifiers ht.lists]
  exact swapField_eq_swap s.notifiers fb2 fb1 a

/-- The lists of two blocks after the exchange. -/
theorem Noded.exchanged (h : Noded s) {t : State} {fb1 fb2 : Addr} (ht : Exchanged s t fb1 fb2)
    (h1 : fb1 < s.nextFblock) (h2 : fb2 < s.nextFblock) : Noded t := by
  refine ⟨fun a n hin => ?_, fun a ha => ?_, fun i a ha => ?_⟩
  · rw [ht.notifiers] at hin
    rw [show t.nextNode = s.nextNode from congrArg Lists.nextNode ht.lists]
    exact h.allocated _ n hin
  · rw [ht.next] at ha
    rw [ht.notifiers, Equiv.swap_apply_of_ne_of_ne (h2.trans_le ha).ne' (h1.trans_le ha).ne']
    exact h.fresh a ha
  · rw [ht.next]
    obtain hold | rfl := ht.entries i a ha
    · exact h.entries i a hold
    · exact h2

/-- The nodes that were moved belong to the block they were moved to. -/
theorem Handled.self_exchanged (h : Handled s) {t : State} {fb1 fb2 : Addr}
    (ht : Exchanged s t fb1 fb2) {a : Addr} {n : NodeAddr} (hmem : n ∈ t.notifiers a) :
    t.self n = a := by
  have hinj : ∀ b, n ∈ t.notifiers b → b = a := by
    intro b hb
    rw [ht.notifiers] at hb hmem
    exact (Equiv.swap fb2 fb1).injective ((h.own _ n hb).1.symm.trans (h.own _ n hmem).1)
  have hn : t.notifiers = swapField s.notifiers fb2 fb1 := congrArg Lists.notifiers ht.lists
  rw [show t.self = _ from congrArg Lists.self ht.lists]
  show (if n ∈ swapField s.notifiers fb2 fb1 fb1 then fb1
    else if n ∈ swapField s.notifiers fb2 fb1 fb2 then fb2 else s.self n) = a
  rw [← hn]
  split_ifs with h1 h2
  · exact hinj fb1 h1
  · exact hinj fb2 h2
  · -- the list of a third block is the old one
    have ha1 : a ≠ fb1 := by
      rintro rfl
      exact h1 hmem
    have ha2 : a ≠ fb2 := by
      rintro rfl
      exact h2 hmem
    rw [ht.notifiers, Equiv.swap_apply_of_ne_of_ne ha2 ha1] at hmem
    exact (h.own a n hmem).1

/-- After the exchange the nodes have the handlers of their blocks exactly if the two blocks have
the same handler or no nodes. -/
theorem Handled.own_exchanged_iff (h : Handled s) {t : State} {fb1 fb2 : Addr}
    (ht : Exchanged s t fb1 fb2) : OwnHandlers t ↔
      s.ops fb1 = s.ops fb2 ∨ s.notifiers fb1 = [] ∧ s.notifiers fb2 = [] := by
  constructor
  · intro hown
    -- a block with nodes has handed them to one with its handler
    have hops : ∀ b, s.notifiers b ≠ [] → s.ops b = s.ops (Equiv.swap fb2 fb1 b) := by
      intro b hb
      obtain ⟨n, hmem⟩ := List.exists_mem_of_ne_nil _ hb
      have hmoved : n ∈ t.notifiers (Equiv.swap fb2 fb1 b) := by
        rw [ht.notifiers, Equiv.swap_apply_self]
        exact hmem
      have hcall := (hown _ n hmoved).2
      rw [ht.notifierCall, ht.ops, (h.own b n hmem).2] at hcall
      exact hcall
    by_cases h1 : s.notifiers fb1 = []
    · by_cases h2 : s.notifiers fb2 = []
      · exact .inr ⟨h1, h2⟩
      · have heq := hops fb2 h2
        rw [Equiv.swap_apply_left] at heq
        exact .inl heq.symm
    · have heq := hops fb1 h1
      rw [Equiv.swap_apply_right] at heq
      exact .inl heq
  · intro hsame a n hmem
    refine ⟨h.self_exchanged ht hmem, ?_⟩
    rw [ht.notifiers] at hmem
    rw [ht.notifierCall, ht.ops, (h.own _ n hmem).2]
    rw [Equiv.swap_apply_def] at hmem ⊢
    split_ifs at hmem ⊢ with ha2 ha1
    · obtain hops | ⟨hnil, -⟩ := hsame
      · rw [ha2, hops]
      · rw [hnil] at hmem
        cases hmem
    · obtain hops | ⟨-, hnil⟩ := hsame
      · rw [ha1, hops]
      · rw [hnil] at hmem
        cases hmem
    · rfl

end Replace

/-- A replacement that goes through moves no nodes between blocks with different handlers. -/
def Cmd.SameHandler (s : State) : Cmd → Prop
  | .replace n1 n2 _ _ => ∀ fb1 fb2, GoesThrough s n1 n2 fb1 fb2 →
      s.ops fb1 = s.ops fb2 ∨ s.notifiers fb1 = [] ∧ s.notifiers fb2 = []
  | _ => True

/-- A command keeps the handlers of the nodes right exactly if it moves no nodes between blocks
with different handlers. -/
theorem Handled.exec {s : State} (h : Handled s) (c : Cmd) :
    Noded (c.exec s) ∧ (OwnHandlers (c.exec s) ↔ c.SameHandler s) := by
  have hrest : (∀ n1 n2 dropPriv al, c = .replace n1 n2 dropPriv al →
      Handled (userctlReplace al s n1 n2 dropPriv).2) → Handled (c.exec s) :=
    Handled.closed.exec c h
  cases c with
  | replace n1 n2 dropPriv al =>
    show Noded (userctlReplace al s n1 n2 dropPriv).2 ∧
      (OwnHandlers (userctlReplace al s n1 n2 dropPriv).2 ↔ _)
    by_cases hr : ∃ fb1 fb2, GoesThrough s n1 n2 fb1 fb2
    · obtain ⟨fb1, fb2, hr⟩ := hr
      have ht := exchanged_replace hr al dropPriv
      refine ⟨h.toNoded.exchanged ht (h.entries _ _ hr.first) (h.entries _ _ hr.second), ?_⟩
      rw [h.own_exchanged_iff ht]
      refine ⟨fun hsame a b hab => ?_, fun hsame => hsame fb1 fb2 hr⟩
      cases hr.first.symm.trans hab.first
      cases hr.second.symm.trans hab.second
      exact hsame
    · push Not at hr
      have ht := Handled.closed.replaceRefused (replaceRefused_of_not hr al dropPriv) h
      exact ⟨ht.toNoded, fun _ fb1 fb2 hab => absurd hab (hr fb1 fb2), fun _ => ht.own⟩
  | _ =>
    have ht := hrest fun _ _ _ _ he => Cmd.noConfusion he
    exact ⟨ht.toNoded, fun _ => trivial, fun _ => ht.own⟩

theorem handled_init (online : OnlineCpus) : Handled (State.init online) := by
  refine ⟨⟨fun a n h => ?_, fun _ _ => rfl, fun i a h => ?_⟩, fun a n h => ?_⟩
  · cases h
  · cases h
  · cases h

/-- **Handlers of notifiers.** In a run of commands every node belongs to the block whose list it is
on and calls the handler of that block, in every state, exactly if no replacement that goes through
moves nodes between blocks with different handlers. -/
theorem handlers_own_iff (online : OnlineCpus) (cmds : List Cmd) :
    (∀ cs, cs <+: cmds → OwnHandlers (run (State.init online) cs)) ↔
      Transition.Allowed Cmd.exec Cmd.SameHandler (State.init online) cmds :=
  (Transition.allowed_iff_forall_prefix (I := Noded) (M := OwnHandlers)
    (fun _ c h hown => Handled.exec ⟨h, hown⟩ c) (handled_init online).toNoded
    (handled_init online).own).symm

/-- A counter that watches another block is replaced by a block of type `dummy`. -/
def watcherRun : List Cmd :=
  [.add nameA Factory.counter.type .ok, .add nameB Factory.dummy.type .ok,
    .add nameC Factory.dummy.type .ok, .subscribe nameB nameA .ok, .replace nameA nameC false .ok]

/-- The node of the counter is now on the list of the other block and still calls the handler of
the counter. -/
theorem handler_of_other_type :
    let s := run (State.init oneCpu) watcherRun
    s.notifiers 2 = [0] ∧ s.self 0 = 2 ∧ s.notifierCall 0 = .counter ∧ s.ops 2 = .dummy := by
  decide

end Lana
