import Lana.Engine.Walk
import Lana.User.Sound

/-!
# When the processing of a packet ends

There is no limit on hops: a packet is processed to the end when and only when the bindings lead it
into no cycle.  The ports of a direction and the clone ports of the tee blocks make up the graph
(`Edge`), and a cycle that can be reached keeps the engine busy forever when `skb_copy` always has
memory (`processing_ends_iff`).
-/

namespace Lana

open State Engine Worklist Relation

/-! ## The graph of the bindings -/

/-- A packet in direction `dir` for the block `i`, or a copy of it, goes on to the block `j`. -/
def Edge (s : State) (cpu : Cpu) (dir : PathType) (i j : Idp) : Prop :=
  i ≠ idpUnknown ∧ j ≠ idpUnknown ∧ ∃ a, s.fblmap i = some a ∧
    ((s.ops a).sink = false ∧ (s.privateData a cpu).port dir = j ∨
      s.ops a = .tee ∧ (s.privateData a cpu).portClone = j)

/-- There are no bpf blocks. -/
def NoBpf (s : State) : Prop := (∀ a, s.factory a ≠ some .bpf) ∧ ∀ a, s.ops a ≠ .bpf

theorem NoBpf.filtersKept {s : State} (h : NoBpf s) : FiltersKept s :=
  fun _ a _ hf => absurd hf (h.1 a)

section Graph

variable {k : Kernel} {s : State} {p p' : Pos}

/-- A packet goes along the edges. -/
theorem edge_of_succ (h : Succ (nextPos k s) (spawnedPos k s) p p') :
    Edge s k.cpu p.2 (readNextIdpFromSkb p.1) (readNextIdpFromSkb p'.1) ∧ p'.2 = p.2 := by
  rcases hb : blockAt s p with _ | fb
  · obtain ⟨hnext, hspawned⟩ := visitAt_of_no_block (k := k) hb
    unfold Succ nextPos spawnedPos at h
    rw [hnext, hspawned] at h
    rcases h with h | h <;> cases h
  obtain ⟨hidp, hfb⟩ := blockAt_eq_some.1 hb
  have hvisit := visitAt_of_block (k := k) hb
  rcases h with h | h
  · obtain ⟨skb, hskb, rfl⟩ := Option.map_eq_some_iff.1 h
    rw [hvisit] at hskb
    obtain ⟨hsink, hport, rfl⟩ := visit_next hskb
    exact ⟨⟨hidp, hport, fb, hfb, .inl ⟨hsink, rfl⟩⟩, rfl⟩
  · obtain ⟨skb, hskb, rfl⟩ := List.mem_map.1 h
    rw [hvisit] at hskb
    by_cases htee : s.ops fb = .tee
    · rw [htee, visit_spawned_tee] at hskb
      split_ifs at hskb with hc
      · obtain rfl := List.mem_singleton.1 hskb
        exact ⟨⟨hidp, hc.1, fb, hfb, .inr ⟨htee, rfl⟩⟩, rfl⟩
      · cases hskb
    · rw [visit_spawned_of_ne htee] at hskb
      cases hskb

/-- Along each edge a packet goes, or a copy of it. -/
theorem succ_of_edge (hbpf : NoBpf s) (hcopy : ∀ skb, k.skbCopy skb = true) {j : Idp}
    (h : Edge s k.cpu p.2 (readNextIdpFromSkb p.1) j) :
    ∃ p', Succ (nextPos k s) (spawnedPos k s) p p' ∧ readNextIdpFromSkb p'.1 = j ∧ p'.2 = p.2 := by
  obtain ⟨hidp, hj, fb, hfb, h⟩ := h
  have hvisit := visitAt_of_block (k := k) (blockAt_eq_some.2 ⟨hidp, hfb⟩)
  rcases h with ⟨hsink, rfl⟩ | ⟨htee, rfl⟩
  · refine ⟨(writeNextIdpToSkb p.1 (s.idp fb) ((s.privateData fb k.cpu).port p.2), p.2), .inl ?_,
      rfl, rfl⟩
    have hport : (s.privateData fb k.cpu).still.port p.2 ≠ idpUnknown := hj
    unfold nextPos
    rw [hvisit, visit_next_of hsink (fun h => absurd h (hbpf.2 fb)) hport]
    rfl
  · let next := writeNextIdpToSkb p.1 (s.idp fb) ((s.privateData fb k.cpu).port p.2)
    let copy := writeNextIdpToSkb next.copied (s.idp fb) (s.privateData fb k.cpu).portClone
    refine ⟨(writePathToSkb copy p.2, p.2), .inr ?_, rfl, rfl⟩
    unfold spawnedPos
    rw [hvisit, htee, visit_spawned_tee, if_pos ⟨hj, hcopy _⟩]
    exact List.mem_singleton_self _

/-- A packet whose way along the edges ends is processed to the end. -/
theorem ends_of_acc {i : Idp} {dir : PathType}
    (h : Acc (fun j i => Edge s k.cpu dir i j) i) : ∀ {p : Pos}, readNextIdpFromSkb p.1 = i →
      p.2 = dir → Ends (nextPos k s) (spawnedPos k s) p := by
  induction h with
  | intro i _ ih =>
    rintro p rfl rfl
    refine Acc.intro p fun p' hs => ?_
    obtain ⟨hedge, hdir⟩ := edge_of_succ hs
    exact ih _ hedge rfl hdir

/-- A packet that is processed to the end has seen the end of its way, if `skb_copy` has memory. -/
theorem acc_of_ends (hbpf : NoBpf s) (hcopy : ∀ skb, k.skbCopy skb = true)
    (h : Ends (nextPos k s) (spawnedPos k s) p) :
    Acc (fun j i => Edge s k.cpu p.2 i j) (readNextIdpFromSkb p.1) := by
  induction h with
  | intro p _ ih =>
    refine Acc.intro _ fun j hedge => ?_
    obtain ⟨p', hs, rfl, hdir⟩ := succ_of_edge hbpf hcopy hedge
    rw [← hdir]
    exact ih p' hs

end Graph

/-! ## Runs without bpf blocks -/

/-- Commands that build no bpf block. -/
def Cmd.Unfiltered : Cmd → Prop
  | .add _ type _ => type ≠ Factory.bpf.type
  | _ => True

section Runs

variable {s : State}

theorem NoBpf.congr {t : State} (h : NoBpf s) (hreg : t.registry = s.registry) : NoBpf t := by
  have hf : t.factory = s.factory := congrArg Registry.factory hreg
  have ho : t.ops = s.ops := congrArg Registry.ops hreg
  exact ⟨hf ▸ h.1, ho ▸ h.2⟩

theorem NoBpf.unregister (h : NoBpf s) (a : Addr) : NoBpf (unregisterFblockNamespaceNoRcu s a) := by
  obtain ⟨t, m, heq⟩ := unregisterNoRcu_frame s a
  rw [heq]
  exact h

/-- The tables do not say of what type a block is. -/
theorem NoBpf.register (h : NoBpf s) (al : Alloc) (p : Addr) :
    NoBpf (registerFblockNamespace al s p).2 := by
  rcases radixTreeInsert_cases al.radix (s.numbered p) s.nextIdp p with ⟨e, hr, -⟩ | ⟨-, hr⟩
  · rw [registerFblockNamespace_err hr]
    exact h
  · rw [registerFblockNamespace_ok hr]
    unfold registerToFblockNamespace
    split_ifs <;> exact h

theorem NoBpf.ctor (h : NoBpf s) {ops : FbType} (hops : ops ≠ .bpf) (proc : Bool) (area : Priv)
    (al : Alloc) (n : CStr) : NoBpf (fbCtor ops proc area al s n).2 := by
  have hinit : NoBpf (initFblock (allocFblock s).2 s.nextFblock n area ops) := by
    refine ⟨h.1, fun a => ?_⟩
    show Function.update s.ops s.nextFblock ops a ≠ .bpf
    rw [Function.update_apply]
    split_ifs
    · exact hops
    · exact h.2 a
  have hreg := hinit.register al s.nextFblock
  unfold fbCtor
  dsimp only [allocFblock] at hinit hreg ⊢
  split_ifs
  · exact h
  · exact h
  · exact hinit
  · rcases hr : registerFblockNamespace al _ s.nextFblock with ⟨_ | _, t⟩ <;> rw [hr] at hreg <;>
      exact hreg

theorem NoBpf.destroy (h : NoBpf s) (fb : Addr) : NoBpf (destroyFblock s fb) := h.unregister fb

/-- A replacement moves names and idps, and leaves the type of a block alone. -/
theorem NoBpf.replace (h : NoBpf s) (al : Alloc) (n1 n2 : Name) (dropPriv : Bool) :
    NoBpf (userctlReplace al s n1 n2 dropPriv).2 := by
  obtain ⟨-, hr⟩ | ⟨fb1, fb2, f1, f2, h1, h2, hf1, hf2, hcnt⟩ :=
    userctlReplace_cases al s n1 n2 dropPriv
  · exact h.congr hr.prims.registry
  · have hreg := (userctlReplace_frame h1 h2 hf1 hf2 hcnt al dropPriv).1
    have hun := h.unregister fb2
    have hf : (userctlReplace al s n1 n2 dropPriv).2.factory =
        (unregisterFblockNamespaceNoRcu s fb2).factory := congrArg Registry.factory hreg
    have ho : (userctlReplace al s n1 n2 dropPriv).2.ops =
        (unregisterFblockNamespaceNoRcu s fb2).ops := congrArg Registry.ops hreg
    exact ⟨hf ▸ hun.1, ho ▸ hun.2⟩

theorem NoBpf.keepVlink {r : Option Addr × State} (h : NoBpf r.2) : NoBpf (keepVlink r) := by
  obtain ⟨_ | fb, t⟩ := r <;> exact h

theorem noBpf_add (h : NoBpf s) (al : Alloc) (n : Name) {type : CStr}
    (htype : type ≠ Factory.bpf.type) : NoBpf (userctlAdd al s n type).2 := by
  unfold userctlAdd
  rcases hlookup : s.lookup n with _ | a
  · rw [searchFblockN_none hlookup]
    dsimp only
    unfold buildFblockObject
    rcases hf : critbitGet Factory.type fbmap type with _ | f
    · exact h
    · have hne : f ≠ .bpf := by
        rintro rfl
        exact htype (fbmap_get hf).symm
      have hops : f.ops ≠ .bpf := by
        cases f
        case bpf => exact absurd rfl hne
        all_goals decide
      obtain ⟨proc, hctor⟩ := ctor_eq f
      have ht := h.ctor hops proc (Priv.init 0 0) al n
      dsimp only
      rw [hctor]
      rcases hr : fbCtor f.ops proc (Priv.init 0 0) al s n with ⟨_ | fb, t⟩ <;> rw [hr] at ht
      · exact ht
      · refine ⟨fun a => ?_, ht.2⟩
        show Function.update t.factory fb (some f) a ≠ some .bpf
        rw [Function.update_apply]
        split_ifs
        · exact fun e => hne (Option.some.inj e)
        · exact ht.1 a
  · rw [searchFblockN_some hlookup]
    exact h.congr (registry_putFblock _ a)

theorem noBpf_exec {c : Cmd} (h : NoBpf s) (hc : c.Unfiltered) : NoBpf (c.exec s) := by
  cases c with
  | add n type al => exact noBpf_add h al n hc
  | rm n =>
    rcases userctlRemove_result s n with ⟨-, hq, -⟩ | ⟨a, f, -, -, -, -, hreg, -⟩
    · exact h.congr hq.registry
    · exact (h.unregister a).congr hreg
  | bind n1 n2 al => exact h.congr (registry_userctlBind al s n1 n2)
  | unbind n1 n2 => exact h.congr (registry_userctlUnbind s n1 n2)
  | hookEth n dev al =>
    refine NoBpf.keepVlink ?_
    have hctor : NoBpf (fbCtor .eth false (Priv.init dev 0) al s n).2 :=
      h.ctor (by decide) false (Priv.init dev 0) al n
    unfold fbEthBuildFblock
    rcases hr : fbCtor .eth false (Priv.init dev 0) al s n with ⟨_ | fb, t⟩ <;> rw [hr] at hctor
    · exact hctor
    · dsimp only
      split_ifs
      · exact hctor
      · exact hctor.unregister fb
  | addEthvlink n vdev al => exact (h.ctor (by decide) false (Priv.init vdev 0) al n).keepVlink
  | openSock n sock al => exact (h.ctor (by decide) false (Priv.init 0 sock) al n).keepVlink
  | replace n1 n2 dropPriv al => exact h.replace al n1 n2 dropPriv
  | subscribe n1 n2 al => exact h.congr (registry_userctlSubscribe al s n1 n2)
  | unsubscribe n1 n2 => exact h.congr (registry_userctlUnsubscribe s n1 n2)
  | stopVlink fb =>
    show NoBpf (removeVlink s fb)
    unfold removeVlink
    split_ifs
    · exact h
    · exact h.destroy fb
    · exact h
  | closeSock fb cpu =>
    show NoBpf (lanaSkFree cpu s fb)
    unfold lanaSkFree
    split_ifs
    · exact (h.congr (Prims.skFree cpu s fb).registry).destroy fb
    · exact h

theorem noBpf_run {cmds : List Cmd} (h : NoBpf s) (hc : ∀ c ∈ cmds, c.Unfiltered) :
    NoBpf (run s cmds) := by
  induction cmds generalizing s with
  | nil => exact h
  | cons c cmds ih =>
    obtain ⟨hc, hcs⟩ := List.forall_mem_cons.1 hc
    exact ih (noBpf_exec h hc) hcs

end Runs

theorem noBpf_init (online : OnlineCpus) : NoBpf (State.init online) :=
  ⟨fun _ => (Option.some_ne_none _).symm, fun _ => (by decide : FbType.dummy ≠ .bpf)⟩

/-- **Termination.** Over dummy, counter, tee, eth, ethvlink and PF_LANA blocks a packet sent from
a block is processed to the end, whether or not `skb_copy` has memory, when and only when no cycle
of the bindings can be reached from the port it is sent through. -/
theorem processing_ends_iff (online : OnlineCpus) (cmds : List Cmd) (hc : ∀ c ∈ cmds, c.Unfiltered)
    (cpu : Cpu) (fb : Addr) (dir : PathType) :
    let s := run (State.init online) cmds
    (∀ k : Kernel, k.cpu = cpu → ∀ e : Engine World, e.world.st = s → e.active = false →
      e.backlog = [] → ∀ skb, ∃ n r, sendFrom k n e fb skb dir = some r) ↔
    ∀ i, ReflTransGen (Edge s cpu dir) ((s.privateData fb cpu).port dir) i →
      ¬TransGen (Edge s cpu dir) i i := by
  intro s
  have hbpf : NoBpf s := noBpf_run (noBpf_init online) hc
  rw [← acc_iff_acyclic]
  constructor
  · intro h
    obtain ⟨n, r, hr⟩ := h { roomy with cpu := cpu } rfl (.idle (.of s)) rfl rfl rfl (tenBytes 0)
    have hends := (processPacket_ends_iff (e := .idle (.of s)) hbpf.filtersKept rfl).1 ⟨n, r, hr⟩
    exact acc_of_ends hbpf (fun _ => rfl) (hends _ List.mem_cons_self)
  · rintro h k rfl e he hidle hb skb
    rw [← he] at h hbpf
    refine (processPacket_ends_iff hbpf.filtersKept hidle).2 fun p hp => ?_
    rw [hb] at hp
    obtain rfl := List.mem_singleton.1 hp
    exact ends_of_acc h rfl rfl

/-- A socket bound to a dummy block. -/
def chainRun : List Cmd :=
  [.openSock nameS 7 .ok, .add nameA Factory.dummy.type .ok, .bind nameS nameA .ok]

theorem processing_ends_chain : (∀ c ∈ chainRun, c.Unfiltered) ∧ ∀ k : Kernel, k.cpu = 0 → ∀ skb,
    ∃ n r, sendFrom k n (.idle (.of (run (.init oneCpu) chainRun))) 0 skb .egress = some r := by
  have hc : ∀ c ∈ chainRun, c.Unfiltered := by
    simp only [chainRun, List.forall_mem_cons, Cmd.Unfiltered, List.not_mem_nil]
    exact ⟨trivial, by decide, trivial, fun _ h => absurd h id⟩
  refine ⟨hc, fun k hk skb => ?_⟩
  refine (processing_ends_iff oneCpu chainRun hc 0 0 .egress).2 ?_ k hk _ rfl rfl rfl skb
  -- the dummy block has no next block
  have hlast : ∀ j, ¬Edge (run (.init oneCpu) chainRun) 0 .egress 2 j := by
    rintro j ⟨-, hj, a, ha, ⟨-, hport⟩ | ⟨hops, -⟩⟩
    · obtain rfl : 1 = a := Option.some.inj ha
      exact hj hport.symm
    · obtain rfl : 1 = a := Option.some.inj ha
      cases hops
  intro i hi hcyc
  rcases ReflTransGen.cases_head hi with rfl | ⟨j, hj, -⟩
  · obtain ⟨j, hj, -⟩ := TransGen.head'_iff.1 hcyc
    exact hlast j hj
  · exact hlast j hj

/-- A socket bound to a tee block, whose clone port leads to a dummy block that is bound to it. -/
def loopRun : List Cmd :=
  [.openSock nameS 7 .ok, .add nameA Factory.tee.type .ok, .add nameB Factory.dummy.type .ok,
    .bind nameS nameA .ok, .bind nameB nameA .ok]

/-- Every copy comes back to the tee block and is copied again. -/
theorem loop_never_ends : (∀ c ∈ loopRun, c.Unfiltered) ∧ ¬∃ n r,
    lanaProtoSendmsg roomy n (.idle (.of (run (.init oneCpu) loopRun))) 0 (tenBytes 0) = some r := by
  have hc : ∀ c ∈ loopRun, c.Unfiltered := by
    simp only [loopRun, List.forall_mem_cons, Cmd.Unfiltered, List.not_mem_nil]
    exact ⟨trivial, by decide, by decide, trivial, trivial, fun _ h => absurd h id⟩
  refine ⟨hc, ?_⟩
  rintro ⟨n, r, hr⟩
  obtain ⟨r, hr, -⟩ := Option.map_eq_some_iff.1 hr
  have hbpf := noBpf_run (noBpf_init oneCpu) hc
  have hends := (processPacket_ends_iff (e := .idle (.of (run (.init oneCpu) loopRun)))
    hbpf.filtersKept rfl).1 ⟨n, r, hr⟩
  have hacc := acc_of_ends hbpf (fun _ => rfl) (hends _ List.mem_cons_self)
  have htee : Edge (run (.init oneCpu) loopRun) 0 .egress 2 3 :=
    ⟨by decide, by decide, 1, rfl, .inr ⟨rfl, rfl⟩⟩
  have hdummy : Edge (run (.init oneCpu) loopRun) 0 .egress 3 2 :=
    ⟨by decide, by decide, 2, rfl, .inl ⟨rfl, rfl⟩⟩
  exact acc_iff_acyclic.1 hacc 2 .refl (.head htee (.single hdummy))

end Lana
