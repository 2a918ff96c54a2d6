import Lana.Library.Transition
import Lana.User.Closed
import Lana.User.Tally

/-!
# The end of a block

Some time after its last reference was put, a block is cleaned up: `cleanup_fblock` calls every node
on its notifier chain with `FBLOCK_DOWN`, and the block is freed.  A subscription holds references
to both blocks, so that by then nobody is subscribed to the block any more, and the block to nobody
(`down_reaches_none`): a node that is still on the chain is one that
`unsubscribe_from_remote_fblock` took from the head of a list and left on the chain.

1. What a subscription, an unsubscription and the exchange of a replacement do to the chains
   (`Lists.Tied`, `Lists.Quit`).
2. The parts of the commands keep the nodes tied (`tied_closed`) and the ended blocks as they are
   (`KeepsEnds.steadyOn`).
3. Whole runs (`Ended`).
-/

namespace Lana

open State

/-! ## Chains of ended blocks -/

/-- A node on the chain of `r` that is also on a list has `r` as its remote block. -/
structure Lists.Tied (l : Lists) (idp : Addr → Idp) : Prop where
  allocated : l.Allocated
  node : ∀ r, ∀ n ∈ l.subscribers r, n < l.nextNode
  remote : ∀ r, ∀ n ∈ l.subscribers r, ∀ u, n ∈ l.notifiers u → l.remote n = idp r

/-- `a` is subscribed to no block, and no node on its chain is on a list. -/
structure Lists.Quit (l : Lists) (a : Addr) : Prop where
  own : l.notifiers a = []
  chain : ∀ n ∈ l.subscribers a, ∀ u, n ∉ l.notifiers u

section Chains

variable {l : Lists} {idp : Addr → Idp} {a us remote : Addr}

theorem Lists.mem_link_notifiers {i : Idp} {u : Addr} {n : NodeAddr}
    (hn : n ∈ (l.link i us remote).notifiers u) : n ∈ l.notifiers u ∨ n = l.nextNode := by
  have hn' : n ∈ Function.update l.notifiers us (l.nextNode :: l.notifiers us) u := hn
  rw [Function.update_apply] at hn'
  split_ifs at hn' with hu
  · obtain rfl | hn' := List.mem_cons.1 hn'
    · exact .inr rfl
    · exact .inl (hu ▸ hn')
  · exact .inl hn'

theorem Lists.Tied.link (h : l.Tied idp) (us remote : Addr) :
    (l.link (idp remote) us remote).Tied idp := by
  refine ⟨h.allocated.link _ _ _, fun r n hn => ?_, fun r n hn u hu => ?_⟩
  · show n < l.nextNode + 1
    obtain hn | ⟨-, rfl⟩ := Lists.mem_link_subscribers hn
    · exact (h.node r n hn).trans (Nat.lt_succ_self _)
    · exact Nat.lt_succ_self _
  · show Function.update l.remote l.nextNode (idp remote) n = idp r
    obtain hn | ⟨rfl, rfl⟩ := Lists.mem_link_subscribers hn
    · have hne : n ≠ l.nextNode := (h.node r n hn).ne
      rw [Function.update_of_ne hne]
      exact h.remote r n hn u ((Lists.mem_link_notifiers hu).resolve_right hne)
    · rw [Function.update_self]

theorem Lists.Tied.unlink (h : l.Tied idp) (i : Idp) (us remote : Addr) :
    (l.unlink i us remote).Tied idp := by
  obtain ⟨hremote, -, hnode⟩ := l.unlink_nodes i us remote
  have hsub := fun r => (l.unlink_subscribers i us remote r).subset
  refine ⟨h.allocated.unlink i us remote, fun r n hn => ?_, fun r n hn u hu => ?_⟩
  · rw [hnode]
    exact h.node r n (hsub r hn)
  · rw [hremote]
    exact h.remote r n (hsub r hn) u (l.unlink_subset i us remote u hu)

/-- The chains of two blocks are exchanged, and `dst` has the idp of `src`. -/
theorem Lists.Tied.migrate (h : l.Tied idp) {dst src : Addr} (hdst : l.Quit dst) :
    (l.migrate dst src).Tied (Function.update idp dst (idp src)) := by
  have hlists : ∀ u n, n ∈ (l.migrate dst src).notifiers u →
      n ∈ l.notifiers (Equiv.swap dst src u) := by
    intro u n hn
    rw [← swapField_eq_swap l.notifiers]
    exact hn
  have hchain : ∀ r n, n ∈ (l.migrate dst src).subscribers r →
      n ∈ l.subscribers (Equiv.swap dst src r) := by
    intro r n hn
    rw [← swapField_eq_swap l.subscribers]
    exact hn
  refine ⟨fun u n hn => h.allocated _ n (hlists u n hn), fun r n hn => h.node _ n (hchain r n hn),
    fun r n hn u hu => ?_⟩
  have hold := h.remote _ n (hchain r n hn) _ (hlists u n hu)
  show l.remote n = Function.update idp dst (idp src) r
  rw [hold, Function.update_apply]
  split_ifs with hr
  · rw [hr, Equiv.swap_apply_left]
  · by_cases hs : r = src
    · -- nothing on the chain that `src` gets is on a list
      have hn' := hchain r n hn
      rw [hs, Equiv.swap_apply_right] at hn'
      exact absurd (hlists u n hu) (hdst.chain n hn' _)
    · rw [Equiv.swap_apply_of_ne_of_ne hr hs]

theorem Lists.Quit.link (h : l.Quit a) (hl : l.Tied idp) (hus : a ≠ us) (hr : a ≠ remote)
    (i : Idp) : (l.link i us remote).Quit a := by
  refine ⟨?_, fun n hn u hu => ?_⟩
  · show Function.update l.notifiers us (l.nextNode :: l.notifiers us) a = []
    rw [Function.update_of_ne hus]
    exact h.own
  · have hn' := (Lists.mem_link_subscribers hn).resolve_right fun hnew => hr hnew.1
    have hne : n ≠ l.nextNode := (hl.node a n hn').ne
    exact h.chain n hn' u ((Lists.mem_link_notifiers hu).resolve_right hne)

theorem Lists.Quit.unlink (h : l.Quit a) (i : Idp) (us remote : Addr) :
    (l.unlink i us remote).Quit a := by
  refine ⟨?_, fun n hn u hu => ?_⟩
  · have hsub := l.unlink_subset i us remote a
    rw [h.own] at hsub
    exact List.subset_nil.1 hsub
  · exact h.chain n ((l.unlink_subscribers i us remote a).subset hn) u
      (l.unlink_subset i us remote u hu)

/-- What `dst` had is what the block has after the exchange, if it is `src`. -/
theorem Lists.Quit.migrate {dst src : Addr} (h : l.Quit (Equiv.swap dst src a)) :
    (l.migrate dst src).Quit a := by
  refine ⟨(swapField_eq_swap l.notifiers dst src a).trans h.own, fun n hn u hu => ?_⟩
  have hn' : n ∈ swapField l.subscribers dst src a := hn
  have hu' : n ∈ swapField l.notifiers dst src u := hu
  rw [swapField_eq_swap] at hn' hu'
  exact h.chain n hn' _ hu'

end Chains

/-- A block with no more than its own reference is subscribed to nothing, and nothing to it. -/
theorem Held.quit {s : State} {P : Addr → Ports} (h : Held s P 0) (ht : s.lists.Tied s.idp)
    {a : Addr} (ha : s.registry.Has a) (hone : s.refcnt a ≤ 1) : s.lists.Quit a := by
  have hrefs := h.refs a ha
  rw [Pi.zero_apply] at hrefs
  have hcard : (s.lists.remotes a).card = 0 := by omega
  have hinbound : s.lists.inbound s.nextFblock (s.idp a) = 0 := by omega
  refine ⟨?_, fun n hn u hu => ?_⟩
  · rw [Lists.remotes, Multiset.coe_card, List.length_map] at hcard
    exact List.length_eq_zero_iff.1 hcard
  · have hmem : s.idp a ∈ s.lists.remotes u := by
      rw [← ht.remote a n hn u hu]
      exact Lists.remote_mem hu
    by_cases hlt : u < s.nextFblock
    · have hzero := Finset.sum_eq_zero_iff.1 hinbound u (Finset.mem_range.2 hlt)
      exact Multiset.count_eq_zero.1 hzero hmem
    · have hnil := h.fresh u (not_lt.1 hlt)
      rw [hnil] at hu
      cases hu

/-! ## The parts of the commands -/

section Parts

variable {s t : State}

theorem tied_congr (h : s.lists.Tied s.idp) (hl : t.lists = s.lists)
    (hreg : t.registry = s.registry) : t.lists.Tied t.idp := by
  rw [hl, show t.idp = s.idp from congrArg Registry.idp hreg]
  exact h

theorem tied_put (h : s.lists.Tied s.idp) (a : Addr) :
    (putFblock s a).lists.Tied (putFblock s a).idp :=
  tied_congr h (lists_putFblock s a) (registry_putFblock s a)

theorem tied_subscribe (h : s.lists.Tied s.idp) (alloc : Bool) (us remote : Addr) :
    (subscribeToRemoteFblock alloc s us remote).2.lists.Tied
      (subscribeToRemoteFblock alloc s us remote).2.idp := by
  cases alloc
  · exact h
  · rw [subscribe_eq]
    exact h.link us remote

theorem tied_unsubscribe (h : s.lists.Tied s.idp) (us remote : Addr) :
    (unsubscribeFromRemoteFblock s us remote).lists.Tied
      (unsubscribeFromRemoteFblock s us remote).idp := by
  rw [lists_unsubscribe, show (unsubscribeFromRemoteFblock s us remote).idp = s.idp from
    congrArg Registry.idp (registry_unsubscribe s us remote)]
  exact h.unlink _ us remote

theorem tied_steady : Steady (fun _ => True) fun s => s.lists.Tied s.idp where
  get := fun _ h => h
  put := fun a h => tied_put h a
  event := fun _ _ h => h
  subscribe := fun alloc us remote _ h => tied_subscribe h alloc us remote
  unsubscribe := fun us remote h => tied_unsubscribe h us remote
  panic := fun h => h

/-- A new object has nothing on its chain. -/
theorem tied_new (h : s.lists.Tied s.idp) {a : Addr} (hn : t.notifiers = s.notifiers)
    (hr : t.remote = s.remote) (hk : t.nextNode = s.nextNode)
    (hold : ∀ r, r ≠ a → t.subscribers r = s.subscribers r ∧ t.idp r = s.idp r)
    (hnew : t.subscribers a = []) : t.lists.Tied t.idp := by
  have hchain : ∀ r, ∀ n ∈ t.subscribers r, n ∈ s.subscribers r ∧ t.idp r = s.idp r := by
    intro r n hmem
    by_cases hra : r = a
    · rw [hra, hnew] at hmem
      cases hmem
    · obtain ⟨hsub, hidp⟩ := hold r hra
      exact ⟨hsub ▸ hmem, hidp⟩
  refine ⟨fun u n hmem => ?_, fun r n hmem => ?_, fun r n hmem u hu => ?_⟩
  · change n ∈ t.notifiers u at hmem
    show n < t.nextNode
    rw [hn] at hmem
    rw [hk]
    exact h.allocated u n hmem
  · show n < t.nextNode
    rw [hk]
    exact h.node r n (hchain r n hmem).1
  · obtain ⟨hsub, hidp⟩ := hchain r n hmem
    change n ∈ t.notifiers u at hu
    show t.remote n = t.idp r
    rw [hn] at hu
    rw [hr, hidp]
    exact h.remote r n hsub u hu

theorem tied_ctor (h : s.lists.Tied s.idp) (ops : FbType) (proc : Bool) (area : Priv) (al : Alloc)
    (n : CStr) :
    (fbCtor ops proc area al s n).2.lists.Tied (fbCtor ops proc area al s n).2.idp := by
  have hnew : (s.constructed n area ops).subscribers s.nextFblock = [] := Function.update_self ..
  have hold : ∀ r, r ≠ s.nextFblock →
      (s.constructed n area ops).subscribers r = s.subscribers r := fun r hr =>
    Function.update_of_ne hr ..
  refine fbCtor_rule (I := fun s => s.lists.Tied s.idp) h h ?_ ?_ (fun _ m => ?_) proc al
  · exact tied_new h rfl rfl rfl (fun r hr => ⟨hold r hr, rfl⟩) hnew
  · exact tied_new h rfl rfl rfl (fun r hr => ⟨hold r hr, Function.update_of_ne hr ..⟩) hnew
  · exact tied_new h rfl rfl rfl (fun r hr => ⟨hold r hr, Function.update_of_ne hr ..⟩) hnew

/-- The parts of the commands keep the nodes tied to their remote blocks. -/
theorem tied_closed : Closed fun s => s.lists.Tied s.idp where
  refs := fun _ h => h
  put := fun a h => tied_put h a
  subscribe := by
    intro s alloc us remote _ h
    exact tied_subscribe h alloc us remote
  unsubscribe := fun us remote h => tied_unsubscribe h us remote
  bind := by
    intro s al fb1 fb2 _ _ h
    exact tied_steady.bind al trivial trivial h
  unbind := fun fb1 fb2 h => tied_steady.unbind fb1 fb2 h
  ctor := fun ops proc area al n h => tied_ctor h ops proc area al n
  unregister := fun {s} a h => by
    obtain ⟨tr, m, hu⟩ := unregisterNoRcu_frame s a
    rw [hu]
    exact h
  relabel := fun _ _ h => h

/-- The blocks that are in no table have neither subscribed nor been subscribed to meanwhile. -/
structure KeepsEnds (s t : State) : Prop extends KeepsLog s t where
  tied : t.lists.Tied t.idp
  quit : ∀ a, ¬ s.registry.Has a → s.lists.Quit a → t.lists.Quit a

namespace KeepsEnds

theorem refl (h : s.lists.Tied s.idp) : KeepsEnds s s := ⟨.refl s, h, fun _ _ hq => hq⟩

theorem steadyOn (s : State) : SteadyOn (fun _ => True) s.registry.Has (KeepsEnds s) where
  get := fun _ h => ⟨h.toKeepsLog.congr rfl rfl, h.tied, h.quit⟩
  put := fun {t a} ha h => ⟨h.toKeepsLog.put ha, tied_put h.tied a, fun b hb hq => by
    rw [lists_putFblock]
    exact h.quit b hb hq⟩
  event := fun _ _ h => ⟨h.toKeepsLog.congr rfl rfl, h.tied, h.quit⟩
  subscribe := fun {t} alloc {us remote} _ hus hr h =>
    ⟨h.toKeepsLog.subscribe alloc us remote, tied_subscribe h.tied alloc us remote,
      fun b hb hq => by
        cases alloc
        · exact h.quit b hb hq
        · rw [subscribe_eq]
          have hne1 : b ≠ us := fun he => hb (he ▸ hus)
          have hne2 : b ≠ remote := fun he => hb (he ▸ hr)
          exact (h.quit b hb hq).link h.tied hne1 hne2 _⟩
  unsubscribe := fun {t us remote} hus hr h =>
    ⟨h.toKeepsLog.unsubscribe hus hr, tied_unsubscribe h.tied us remote, fun b hb hq => by
      rw [lists_unsubscribe]
      exact (h.quit b hb hq).unlink _ us remote⟩
  panic := fun h => ⟨h.toKeepsLog.congr rfl rfl, h.tied, h.quit⟩

end KeepsEnds

theorem quit_created {area : Priv} {ops : FbType} (hC : Created s t area ops) {a : Addr}
    (ha : a ≠ s.nextFblock) (hq : s.lists.Quit a) : t.lists.Quit a := by
  have hsub : t.subscribers a = s.subscribers a := (hC.keep a ha).2.2.2.2.2
  refine ⟨(congrFun hC.notifiers a).trans hq.own, fun n hn u hu => ?_⟩
  change n ∈ t.subscribers a at hn
  change n ∈ t.notifiers u at hu
  rw [hsub] at hn
  rw [hC.notifiers] at hu
  exact hq.chain n hn u hu

end Parts

/-! ## Runs -/

/-- The command is a replacement with memory for the entry. -/
def Cmd.replaces : Cmd → Bool
  | .replace _ _ _ al => al.radix
  | _ => false

/-- The invariant: the blocks that were released have quit. -/
structure Ended (s : State) : Prop where
  held : ∃ P, Held s P 0
  tally : Tally s
  tied : s.lists.Tied s.idp
  quit : ∀ a ∈ s.released.map Release.fb, s.lists.Quit a

namespace Ended

variable {s t : State}

theorem init (online : OnlineCpus) : Ended (State.init online) where
  held := ⟨_, held_init online⟩
  tally := .init online
  tied := ⟨fun _ _ h => absurd h List.not_mem_nil, fun _ _ h => absurd h List.not_mem_nil,
    fun _ _ h => absurd h List.not_mem_nil⟩
  quit := fun _ h => absurd h List.not_mem_nil

theorem keeps (h : Ended s) (hk : KeepsEnds s t) (hheld : ∃ P, Held t P 0) : Ended t := by
  obtain ⟨P, hP⟩ := hheld
  refine ⟨⟨P, hP⟩, h.tally.continues (hk.toKeepsLog.continues hP), hk.tied, fun a ha => ?_⟩
  rw [hk.toKeepsLog.released_eq hP] at ha
  exact hk.quit a (h.tally.out a ha) (h.quit a ha)

theorem ne_next (h : Ended s) {a : Addr} (ha : a ∈ s.released.map Release.fb) :
    a ≠ s.nextFblock := by
  rintro rfl
  exact h.tally.built _ ha (h.tally.fresh _ le_rfl)

theorem add (h : Ended s) (al : Alloc) (n : Name) (type : CStr)
    (hleft : s.idpCounter + 1 < 2 ^ 32) : Ended (userctlAdd al s n type).2 := by
  obtain ⟨P, hP⟩ := h.held
  have hheld := hP.add al n type hleft
  have htied := tied_closed.add al n type h.tied
  rcases userctlAdd_result hP.tables al n type with ⟨-, -, ⟨a, ha, heq⟩ | ⟨-, heq⟩⟩ |
    ⟨f, -, -, -, hC, -⟩ | ⟨f, -, t, -, -, hC, -, hmap, -, -, -, heq⟩
  · rw [heq] at hheld ⊢
    exact h.keeps ((KeepsEnds.steadyOn s).get_put (.refl h.tied) ha) hheld
  · rw [heq]
    exact h
  · refine ⟨hheld, h.tally.continues (h.tally.raised hC), htied, fun a ha => ?_⟩
    rw [hC.released] at ha
    exact quit_created hC (h.ne_next ha) (h.quit a ha)
  · have hin : t.registry.Has s.nextFblock := by
      refine ⟨s.nextIdp, ?_⟩
      show t.fblmap s.nextIdp = _
      rw [hmap, Function.update_self]
    rw [heq] at hheld htied ⊢
    refine ⟨hheld, h.tally.enrolled hP.tables hC hin, htied, fun a ha => ?_⟩
    have ha' : a ∈ t.released.map Release.fb := ha
    rw [hC.released] at ha'
    exact quit_created hC (h.ne_next ha') (h.quit a ha')

theorem rm (h : Ended s) (n : Name) : Ended (userctlRemove s n).2 := by
  obtain ⟨P, hP⟩ := h.held
  have hheld : ∃ P, Held (userctlRemove s n).2 P 0 := ⟨P, hP.remove n⟩
  obtain hk | ⟨a, f, ha, hf, hle, heq⟩ := (KeepsEnds.steadyOn s).rm_cases (.refl h.tied) n
  · exact h.keeps hk hheld
  have hin := has_of_lookup ha
  rw [removed_eq hf (le_antisymm hle (hP.pos hin))] at heq
  refine ⟨hheld, h.tally.continues (hP.continues_rm n), tied_closed.rm n h.tied, ?_⟩
  have hlists : ((unregisterFblockNamespaceNoRcu s a).release a f).lists = s.lists := by
    obtain ⟨tr, m, hu⟩ := unregisterNoRcu_frame s a
    rw [hu]
    cases f <;> rfl
  rw [heq, released_removed, hlists, List.map_cons]
  exact List.forall_mem_cons.2 ⟨hP.quit h.tied hin hle, h.quit⟩

theorem replace (h : Ended s) {al : Alloc} (hal : al.radix = true) (n1 n2 : Name)
    (dropPriv : Bool) : Ended (userctlReplace al s n1 n2 dropPriv).2 := by
  obtain ⟨P, hP⟩ := h.held
  have hheld := hP.replace hal n1 n2 dropPriv
  obtain hk | ⟨fb1, fb2, f1, f2, h1, h2, hf1, hf2, hle⟩ :=
    (KeepsEnds.steadyOn s).replace_cases (.refl h.tied) al n1 n2 dropPriv
  · exact h.keeps hk hheld
  have hin1 := has_of_lookup h1
  have hin2 := has_of_lookup h2
  obtain ⟨hne, hone, m, hrel⟩ := hP.released_replace hal h1 h2 hf1 hf2 hle dropPriv
  obtain ⟨hreg, hlists⟩ := userctlReplace_frame h1 h2 hf1 hf2 hle al dropPriv
  rw [hal, if_pos rfl] at hreg
  have hidp := (replaced_tables hP.tables hreg).idp
  have hquit := hP.quit h.tied hin2 hone.le
  refine ⟨hheld, h.tally.continues (hP.continues_replace hal n1 n2 dropPriv), ?_, ?_⟩
  · rw [hlists, show (userctlReplace al s n1 n2 dropPriv).2.idp = _ from hidp]
    exact h.tied.migrate hquit
  · rw [hrel, hlists, List.map_cons]
    refine List.forall_mem_cons.2 ⟨Lists.Quit.migrate ?_, fun a ha => Lists.Quit.migrate ?_⟩
    · rw [Equiv.swap_apply_right]
      exact hquit
    · have hne1 : a ≠ fb1 := by
        rintro rfl
        exact h.tally.out a ha hin1
      have hne2 : a ≠ fb2 := by
        rintro rfl
        exact h.tally.out a ha hin2
      rw [Equiv.swap_apply_of_ne_of_ne hne2 hne1]
      exact h.quit a ha

/-- **Step.** -/
theorem step (h : Ended s) {c : Cmd} (hc : c.Finds s ∨ c.replaces = true) (hleft : c.IdpLeft s) :
    Ended (c.exec s) := by
  obtain hc | hc := hc
  · by_cases hadd : c.creates = false
    · by_cases hrm : ∃ n, c = .rm n
      · obtain ⟨n, rfl⟩ := hrm
        exact h.rm n
      · obtain ⟨P, hP⟩ := h.held
        exact h.keeps ((KeepsEnds.steadyOn s).exec (.refl h.tied) hc hadd fun n hn => hrm ⟨n, hn⟩)
          (held_exec hP hc hleft)
    · cases c with
      | add n type al => exact h.add al n type (hleft rfl)
      | hookEth | addEthvlink | openSock => exact absurd hc id
      | _ => exact absurd rfl hadd
  · cases c with
    | replace n1 n2 dropPriv al => exact h.replace hc n1 n2 dropPriv
    | _ => cases hc

end Ended

/-- **The end of a block.**  In every run of add, rm, bind, unbind, subscribe, unsubscribe and
replace in which unsubscriptions find their nodes, and there are idps left and memory for the
entries: a block that was released is subscribed to no block, and no node on its chain, which
`cleanup_fblock` calls, is that of a subscription. -/
theorem down_reaches_none (online : OnlineCpus) (cmds : List Cmd)
    (hok : Transition.Allowed Cmd.exec
      (fun s c => (c.Finds s ∨ c.replaces = true) ∧ c.IdpLeft s) (State.init online) cmds) :
    let s := run (State.init online) cmds
    ∀ r ∈ s.released, s.notifiers r.fb = [] ∧
      ∀ n ∈ s.subscribers r.fb, ∀ u, n ∉ s.notifiers u := by
  intro s r hr
  have hs : Ended s := Transition.invariant_of_allowed (I := Ended)
    (fun _ _ h hc => h.step hc.1 hc.2) (.init online) hok
  have hquit := hs.quit r.fb (List.mem_map_of_mem hr)
  exact ⟨hquit.own, hquit.chain⟩

/-- Two blocks are bound and unbound, and the second one is removed. -/
def unboundRun : List Cmd :=
  [.add nameA Factory.dummy.type .ok, .add nameB Factory.dummy.type .ok, .bind nameA nameB .ok,
    .unbind nameA nameB, .rm nameB]

/-- A node is left on the chain of the block that was released; nobody has it on its list. -/
theorem down_reaches_none_unbound :
    let s := run (State.init oneCpu) unboundRun
    s.released.map Release.fb = [1] ∧ s.subscribers 1 = [0] ∧ ∀ u, 0 ∉ s.notifiers u := by
  intro s
  have hrel : s.released.map Release.fb = [1] := by decide
  have hchain : s.subscribers 1 = [0] := by decide
  obtain ⟨r, hr, hfb⟩ := List.mem_map.1 (hrel ▸ List.mem_singleton_self 1)
  have hquit := (down_reaches_none oneCpu unboundRun (by decide) r hr).2 0
  rw [hfb, hchain] at hquit
  exact ⟨hrel, hchain, hquit (List.mem_singleton_self 0)⟩

end Lana
