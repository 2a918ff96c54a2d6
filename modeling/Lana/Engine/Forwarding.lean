import Lana.Engine.Walk
import Lana.User.Wiring

/-!
# Forwarding along the bindings

Over blocks with two ports, a packet from a source visits the blocks behind the ports of its
direction up to the first sink or the first free port (`forwarding_follows_bindings`).  No block is
visited twice: the wiring makes each direction a partial injection, and the source, which is a sink
itself, is where a way into a cycle would have to come from.
-/

namespace Lana

open State Engine Worklist Wiring

/-! ## Paths -/

/-- The blocks from `i` on, up to the first sink or the first whose port `dir` is free. -/
inductive Path (s : State) (cpu : Cpu) (dir : PathType) : Idp → List Addr → Prop
  | stop {i : Idp} {a : Addr} (h : s.fblmap i = some a)
      (hend : (s.ops a).sink = true ∨ (s.privateData a cpu).port dir = idpUnknown) :
      Path s cpu dir i [a]
  | hop {i : Idp} {a : Addr} {l : List Addr} (h : s.fblmap i = some a)
      (hsink : (s.ops a).sink = false) (hport : (s.privateData a cpu).port dir ≠ idpUnknown)
      (hl : Path s cpu dir ((s.privateData a cpu).port dir) l) : Path s cpu dir i (a :: l)

section Path

variable {s : State} {cpu : Cpu} {dir : PathType} {i : Idp} {l : List Addr}

theorem Path.registered (h : Path s cpu dir i l) : ∀ a ∈ l, ∃ j, s.fblmap j = some a := by
  induction h with
  | stop h _ => exact fun a ha => ⟨_, List.mem_singleton.1 ha ▸ h⟩
  | hop h _ _ _ ih =>
    intro a ha
    rcases List.mem_cons.1 ha with rfl | ha
    · exact ⟨_, h⟩
    · exact ih a ha

/-- A sink can only be the last block. -/
theorem Path.sink_iff (h : Path s cpu dir i l) :
    (∃ a ∈ l, (s.ops a).sink = true) ↔ ∃ a ∈ l.getLast?, (s.ops a).sink = true := by
  induction h with
  | stop h _ => simp
  | @hop i a l _ hsink _ hl ih =>
    have hne : l ≠ [] := by
      cases hl <;> exact List.cons_ne_nil _ _
    rw [List.getLast?_cons_of_ne_nil hne, ← ih]
    simp [hsink]

/-- A path without repetitions is no longer than there are blocks. -/
theorem Path.length_le (h : Path s cpu dir i l) (hnd : l.Nodup) :
    l.length ≤ {a | ∃ j, s.fblmap j = some a}.ncard := by
  have hfin : {a | ∃ j, s.fblmap j = some a}.Finite := by
    refine (Set.finite_range fun j => (s.fblmap j).getD 0).subset ?_
    rintro a ⟨j, hj⟩
    exact ⟨j, by simp only [hj, Option.getD_some]⟩
  calc l.length = l.toFinset.card := (List.toFinset_card_of_nodup hnd).symm
    _ = (l.toFinset : Set Addr).ncard := (Set.ncard_coe_finset _).symm
    _ ≤ _ := Set.ncard_le_ncard (fun a ha => h.registered a (List.mem_toFinset.1 ha)) hfin

end Path

/-! ## Packets on a path -/

section Walk

variable {k : Kernel} {s : State} {p : Pos} {a : Addr} {i : Idp} {l : List Addr} {dir : PathType}

/-- The blocks are no tee blocks and have no filters. -/
def Plain (k : Kernel) (s : State) : Prop :=
  ∀ i a, s.fblmap i = some a → s.ops a ≠ .tee ∧
    (s.ops a = .bpf → (s.privateData a k.cpu).filter = none)

theorem spawnedPos_of_plain (h : Plain k s) (hp : blockAt s p = some a) :
    spawnedPos k s p = [] := by
  have htee := (h _ a (blockAt_eq_some.1 hp).2).1
  unfold spawnedPos
  rw [visitAt_of_block hp, visit_spawned_of_ne htee]
  rfl

theorem nextPos_stop (hp : blockAt s p = some a)
    (hend : (s.ops a).sink = true ∨ (s.privateData a k.cpu).port p.2 = idpUnknown) :
    nextPos k s p = none := by
  rw [Option.eq_none_iff_forall_ne_some]
  intro p' h
  obtain ⟨skb, hskb, -⟩ := Option.map_eq_some_iff.1 h
  rw [visitAt_of_block hp] at hskb
  obtain ⟨hsink, hport, -⟩ := visit_next hskb
  rcases hend with hend | hend
  · rw [hend] at hsink
    cases hsink
  · exact hport hend

theorem nextPos_hop (h : Plain k s) (hp : blockAt s p = some a) (hsink : (s.ops a).sink = false)
    (hport : (s.privateData a k.cpu).port p.2 ≠ idpUnknown) : nextPos k s p =
      some (writeNextIdpToSkb p.1 (s.idp a) ((s.privateData a k.cpu).port p.2), p.2) := by
  have hfilter : s.ops a = .bpf → (s.privateData a k.cpu).still.filter = none :=
    (h _ a (blockAt_eq_some.1 hp).2).2
  have hstill : (s.privateData a k.cpu).still.port p.2 ≠ idpUnknown := hport
  unfold nextPos
  rw [visitAt_of_block hp, visit_next_of hsink hfilter hstill]
  rfl

/-- The processing of a packet on a path ends. -/
theorem Path.ends (hplain : Plain k s) (h : Path s k.cpu dir i l) : ∀ {p : Pos},
    readNextIdpFromSkb p.1 = i → i ≠ idpUnknown → p.2 = dir →
      Ends (nextPos k s) (spawnedPos k s) p := by
  induction h with
  | @stop i a h hend =>
    rintro p rfl hi rfl
    have hp : blockAt s p = some a := blockAt_eq_some.2 ⟨hi, h⟩
    refine Acc.intro p fun p' hs => ?_
    rw [Succ, nextPos_stop hp hend, spawnedPos_of_plain hplain hp] at hs
    rcases hs with hs | hs <;> cases hs
  | @hop i a l h hsink hport _ ih =>
    rintro p rfl hi rfl
    have hp : blockAt s p = some a := blockAt_eq_some.2 ⟨hi, h⟩
    refine Acc.intro p fun p' hs => ?_
    rw [Succ, nextPos_hop hplain hp hsink hport, spawnedPos_of_plain hplain hp] at hs
    rcases hs with hs | hs
    · obtain rfl := Option.some.inj hs
      exact ih rfl hport rfl
    · cases hs

/-- It visits the blocks of the path. -/
theorem Path.visits (hplain : Plain k s) (h : Path s k.cpu dir i l) : ∀ {p : Pos} {ls : List Pos},
    readNextIdpFromSkb p.1 = i → i ≠ idpUnknown → p.2 = dir →
      Drained (nextPos k s) (spawnedPos k s) [p] ls → ls.filterMap (blockAt s) = l := by
  induction h with
  | @stop i a h hend =>
    rintro p _ rfl hi rfl (_ | @⟨_, _, ls, hd⟩)
    have hp : blockAt s p = some a := blockAt_eq_some.2 ⟨hi, h⟩
    rw [nextPos_stop hp hend, spawnedPos_of_plain hplain hp] at hd
    cases hd
    rw [List.filterMap_cons_some hp, List.filterMap_nil]
  | @hop i a l h hsink hport _ ih =>
    rintro p _ rfl hi rfl (_ | @⟨_, _, ls, hd⟩)
    have hp : blockAt s p = some a := blockAt_eq_some.2 ⟨hi, h⟩
    rw [nextPos_hop hplain hp hsink hport, spawnedPos_of_plain hplain hp] at hd
    have hrest : ls.filterMap (blockAt s) = l :=
      ih (p := (writeNextIdpToSkb p.1 (s.idp a) _, p.2)) rfl hport rfl hd
    rw [List.filterMap_cons_some hp, hrest]

end Walk

/-! ## The wiring leads into no cycle -/

section Wired

variable {s : State} {P : Addr → Ports} {cpu : Cpu} {dir : PathType}

/-- The next block, which a sink does not have. -/
def nextIdp (s : State) (P : Addr → Ports) (dir : PathType) (i : Idp) : Option Idp :=
  (s.fblmap i).bind fun a =>
    if (s.ops a).sink = true ∨ (P a).port dir = idpUnknown then none else some ((P a).port dir)

theorem nextIdp_eq_none {i : Idp} {a : Addr} (h : s.fblmap i = some a) :
    nextIdp s P dir i = none ↔ (s.ops a).sink = true ∨ (P a).port dir = idpUnknown := by
  unfold nextIdp
  rw [h, Option.bind_some]
  split_ifs with hend
  · exact ⟨fun _ => hend, fun _ => rfl⟩
  · exact ⟨False.elim, fun h => absurd h hend⟩

theorem nextIdp_eq_some {i j : Idp} (h : nextIdp s P dir i = some j) :
    ∃ a, s.fblmap i = some a ∧ (s.ops a).sink = false ∧ (P a).port dir = j ∧ j ≠ idpUnknown := by
  obtain ⟨a, ha, h⟩ := Option.bind_eq_some_iff.1 h
  split_ifs at h with hend
  obtain rfl := Option.some.inj h
  obtain ⟨hsink, hport⟩ := not_or.1 hend
  exact ⟨a, ha, Bool.eq_false_iff.2 hsink, rfl, hport⟩

/-- It is the block behind the port of the net. -/
theorem next_of_nextIdp {i j : Idp} (h : nextIdp s P dir i = some j) :
    next idpUnknown (s.registry.net P) dir i = some j := by
  obtain ⟨a, ha, -, hport, hj⟩ := nextIdp_eq_some h
  exact next_eq_some.2 ⟨(P a).port, congrArg (Option.map fun a => (P a).port) ha, hport, hj⟩

theorem Linked.port_eq (h : Linked s P) (hcpu : cpu ∈ s.online.cpus) (a : Addr) :
    (s.privateData a cpu).port dir = (P a).port dir :=
  congrFun (congrArg Ports.port (h.copies a cpu hcpu)) dir

/-- Behind a port in use is a block. -/
theorem Linked.peer (h : Linked s P) {i : Idp} {a : Addr} (ha : s.fblmap i = some a)
    (hport : (P a).port dir ≠ idpUnknown) : ∃ b, s.fblmap ((P a).port dir) = some b := by
  obtain ⟨q, hq, -⟩ := h.wired.back i (P a).port dir
    (congrArg (Option.map fun a => (P a).port) ha) hport
  obtain ⟨b, hb, -⟩ := Option.map_eq_some_iff.1 hq
  exact ⟨b, hb⟩

/-- The way of the injection is a path. -/
theorem path_of_orbit (h : Linked s P) (hcpu : cpu ∈ s.online.cpus) {i : Idp} {l : List Idp}
    (ho : Orbit (nextIdp s P dir) i l) : (∃ a, s.fblmap i = some a) →
      ∃ path, Path s cpu dir i path ∧ path.map s.idp = l := by
  induction ho with
  | last hnone =>
    rintro ⟨a, ha⟩
    have hend := (nextIdp_eq_none ha).1 hnone
    rw [← h.port_eq hcpu] at hend
    exact ⟨[a], .stop ha hend, congrArg (· :: []) (h.tables.stored _ a ha).1⟩
  | next hnext _ ih =>
    rintro -
    obtain ⟨a, ha, hsink, rfl, hport⟩ := nextIdp_eq_some hnext
    obtain ⟨path, hpath, hmap⟩ := ih (h.peer ha hport)
    rw [← h.port_eq hcpu] at hport hpath
    refine ⟨a :: path, .hop ha hsink hport hpath, ?_⟩
    rw [List.map_cons, hmap]
    exact congrArg (· :: _) (h.tables.stored _ a ha).1

/-- From a source, which is a sink itself, leads a path without repetitions. -/
theorem exists_path (h : Linked s P) (hcpu : cpu ∈ s.online.cpus) {i : Idp} {fb : Addr}
    (hfb : s.fblmap i = some fb) (hsink : (s.ops fb).sink = true)
    (hport : (s.privateData fb cpu).port dir ≠ idpUnknown) :
    ∃ path, Path s cpu dir ((s.privateData fb cpu).port dir) path ∧ path.Nodup := by
  rw [h.port_eq hcpu] at hport ⊢
  have hinj : ∀ i j k, nextIdp s P dir i = some k → nextIdp s P dir j = some k → i = j :=
    fun i j k hi hj => h.wired.next_inj (next_of_nextIdp hi) (next_of_nextIdp hj)
  -- only the source leads to its peer, and from the source, a sink, no packet goes on
  have hfirst : ∀ j, nextIdp s P dir j ≠ some ((P fb).port dir) := by
    intro j hj
    have hi : next idpUnknown (s.registry.net P) dir i = some ((P fb).port dir) :=
      next_eq_some.2 ⟨(P fb).port, congrArg (Option.map fun a => (P a).port) hfb, rfl, hport⟩
    obtain rfl := h.wired.next_inj (next_of_nextIdp hj) hi
    rw [(nextIdp_eq_none hfb).2 (.inl hsink)] at hj
    cases hj
  have := Fintype.ofFinite Idp
  obtain ⟨l, hl, hnd⟩ := exists_orbit hinj hfirst
  obtain ⟨path, hpath, rfl⟩ := path_of_orbit h hcpu hl (h.peer hfb hport)
  exact ⟨path, hpath, hnd.of_map⟩

end Wired

theorem Linked.filtersKept {s : State} {P : Addr → Ports} (h : Linked s P) : FiltersKept s := by
  intro i fb hfb _ hzero
  have := h.pos fb ⟨i, hfb⟩
  omega

theorem Linked.plain {s : State} {P : Addr → Ports} {k : Kernel} (h : Linked s P)
    (hfilter : ∀ i a, s.fblmap i = some a → s.ops a = .bpf →
      (s.privateData a k.cpu).filter = none) : Plain k s :=
  fun i a ha => ⟨h.ops_ne ⟨i, ha⟩, hfilter i a ha⟩

/-- **Forwarding follows the bindings.** In every state reached by commands over blocks with two
ports and sources, none of which breaks the wiring, a packet that a source sends through a port in
use is processed to the end.  It visits the blocks of the path behind the port, each of them once,
reaches a sink when and only when the path ends in one, and leaves all reference counts as they
were. -/
theorem forwarding_follows_bindings (online : OnlineCpus) (cmds : List Cmd)
    (hok : Transition.Allowed Cmd.exec (fun s c => c.TwoPort s ∧ c.IdpLeft s) (State.init online)
      cmds)
    (s : State) (hs : s = run (State.init online) cmds) (k : Kernel) (hcpu : k.cpu ∈ s.online.cpus)
    (hfilter : ∀ i a, s.fblmap i = some a → s.ops a = .bpf →
      (s.privateData a k.cpu).filter = none)
    (i : Idp) (fb : Addr) (hfb : s.fblmap i = some fb) (hsource : (s.ops fb).sink = true)
    (dir : PathType) (hport : (s.privateData fb k.cpu).port dir ≠ idpUnknown)
    (e : Engine World) (hst : e.world.st = s) (hidle : e.active = false) (hb : e.backlog = [])
    (skb : Skb) :
    ∃ path, Path s k.cpu dir ((s.privateData fb k.cpu).port dir) path ∧
      path.Nodup ∧ path.length ≤ {a | ∃ j, s.fblmap j = some a}.ncard ∧
      (∃ n r, sendFrom k n e fb skb dir = some r) ∧
      ∀ n ret e', sendFrom k n e fb skb dir = some (ret, e') →
        ∃ visited, enters e'.trace = enters e.trace ++ visited ∧ visited = path ∧
          ((∃ a ∈ visited, (s.ops a).sink = true) ↔
            ∃ a ∈ path.getLast?, (s.ops a).sink = true) ∧
          e'.world.st.refcnt = s.refcnt := by
  obtain ⟨P, h⟩ := linked_run ⟨_, linked_init online⟩ hok
  rw [← hs] at h
  subst hst
  obtain ⟨path, hpath, hnd⟩ := exists_path h hcpu hfb hsource hport
  have hplain := h.plain hfilter
  refine ⟨path, hpath, hnd, hpath.length_le hnd, ?_, fun n ret e' hrun => ?_⟩
  · refine (processPacket_ends_iff h.filtersKept hidle).2 fun p hp => ?_
    rw [hb] at hp
    obtain rfl := List.mem_singleton.1 hp
    exact hpath.ends hplain rfl hport rfl
  · obtain ⟨ls, hd, hran, -⟩ := processPacket_drained h.filtersKept hidle hrun
    rw [hb] at hd
    have hvisits := hpath.visits hplain rfl hport rfl hd
    refine ⟨path, ?_, rfl, hpath.sink_iff, hran.same.refcnt⟩
    rw [hran.enters, hvisits]

/-- A socket bound to a dummy block that is bound to a device. -/
def deviceRun : List Cmd :=
  [.openSock nameS 7 .ok, .add nameA Factory.dummy.type .ok, .hookEth nameB 3 .ok,
    .bind nameS nameA .ok, .bind nameA nameB .ok]

theorem forwarding_follows_bindings_device :
    ∃ path, Path (run (.init oneCpu) deviceRun) 0 .egress 2 path ∧ path.Nodup ∧
      ∃ n r, sendFrom roomy n (.idle (.of (run (.init oneCpu) deviceRun))) 0 (tenBytes 0) .egress =
        some r := by
  have hops : (run (.init oneCpu) deviceRun).ops = Function.update (Function.update
      (Function.update (fun _ => .dummy) 0 .pflana) 1 .dummy) 2 .eth := rfl
  have hbpf : ∀ a, (run (.init oneCpu) deviceRun).ops a ≠ .bpf := by
    intro a
    rw [hops, Function.update_apply, Function.update_apply, Function.update_apply]
    split_ifs <;> decide
  obtain ⟨path, hpath, hnd, -, hends, -⟩ := forwarding_follows_bindings oneCpu deviceRun (by decide)
    _ rfl roomy (by decide) (fun _ a _ h => absurd h (hbpf a)) 1 0 rfl rfl .egress (by decide)
    (.idle (.of (run (.init oneCpu) deviceRun))) rfl rfl rfl (tenBytes 0)
  exact ⟨path, hpath, hnd, hends⟩

/-- The block a socket is bound to is replaced, and there is no memory to enter the new one. -/
def brokenRun : List Cmd :=
  [.openSock nameS 7 .ok, .add nameA Factory.dummy.type .ok, .add nameB Factory.dummy.type .ok,
    .bind nameS nameA .ok, .replace nameA nameB false { Alloc.ok with radix := false }]

/-- The port of the socket is in use, but no block is behind it, and the packet visits none. -/
theorem replaced_block_lost :
    let s := run (State.init oneCpu) brokenRun
    SameType (run (State.init oneCpu) (brokenRun.take 4)) nameA nameB ∧
    s.fblmap 1 = some 0 ∧ (s.ops 0).sink = true ∧ (s.privateData 0 0).port .egress = 2 ∧
    ¬(∃ path, Path s 0 .egress 2 path) ∧
    ∃ ret e', sendFrom roomy 5 (.idle (.of s)) 0 (tenBytes 0) .egress = some (ret, e') ∧
      enters e'.trace = [] := by
  refine ⟨by decide, rfl, rfl, rfl, ?_, _, _, rfl, rfl⟩
  rintro ⟨path, hpath⟩
  cases hpath with
  | stop h _ => cases h
  | hop h _ _ _ => cases h

end Lana
