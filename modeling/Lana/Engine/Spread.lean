import Lana.Engine.Termination

/-!
# Copies

A tee block sends a packet on and a copy of it to its clone port.  The copy waits on the backlog, so
that the blocks of several ways are entered in turn.  Entered one way after the other, with the
clone port of a tee block after its port (`Spread`), they are the same blocks, equally often, and
the packets end in the same places (`spread_exact`).
-/

namespace Lana

open State Engine Worklist Relation

/-! ## The ways of a packet and its copies -/

section Ways

variable (s : State) (cpu : Cpu) (dir : PathType)

/-- The blocks to which a packet and a copy of it go on from a block. -/
def exits (a : Addr) : List Idp :=
  (if (s.ops a).sink ∨ (s.privateData a cpu).port dir = idpUnknown then []
    else [(s.privateData a cpu).port dir]) ++
  (if s.ops a = .tee ∧ (s.privateData a cpu).portClone ≠ idpUnknown then
    [(s.privateData a cpu).portClone] else [])

/-- What becomes of a packet that ends at a block. -/
def stops (a : Addr) : List Disposal :=
  match s.ops a with
  | .eth | .ethvlink => [.sent (s.privateData a cpu).dev]
  | .pflana => [.queued (s.privateData a cpu).sockSelf]
  | .dummy | .counter | .bpf | .tee =>
    if (s.privateData a cpu).port dir = idpUnknown then [.freed] else []

/-- Packets for the blocks `is`, one after the other with all its copies: the blocks entered, and
where the packets end. -/
inductive Spread : List Idp → List Addr → List Disposal → Prop
  | nil : Spread [] [] []
  | missing {i : Idp} {is : List Idp} {bs : List Addr} {ds : List Disposal}
      (h : s.fblmap i = none) (hrest : Spread is bs ds) : Spread (i :: is) bs (.freed :: ds)
  | block {i : Idp} {a : Addr} {is : List Idp} {as bs : List Addr} {cs ds : List Disposal}
      (h : s.fblmap i = some a) (hexits : Spread (exits s cpu dir a) as cs)
      (hrest : Spread is bs ds) :
      Spread (i :: is) (a :: as ++ bs) (stops s cpu dir a ++ cs ++ ds)

variable {s cpu dir} in
/-- There is one such walk. -/
theorem Spread.unique {is : List Idp} {bs : List Addr} {ds : List Disposal}
    (h : Spread s cpu dir is bs ds) : ∀ {bs' ds'}, Spread s cpu dir is bs' ds' →
      bs = bs' ∧ ds = ds' := by
  induction h with
  | nil =>
    rintro _ _ ⟨⟩
    exact ⟨rfl, rfl⟩
  | missing h _ ih =>
    rintro _ _ (_ | ⟨-, hrest⟩ | ⟨h', -, -⟩)
    · obtain ⟨rfl, rfl⟩ := ih hrest
      exact ⟨rfl, rfl⟩
    · rw [h] at h'
      cases h'
  | block h _ _ ihe ihr =>
    rintro _ _ (_ | ⟨h', -⟩ | ⟨h', hexits, hrest⟩)
    · rw [h] at h'
      cases h'
    · obtain rfl := Option.some.inj (h.symm.trans h')
      obtain ⟨rfl, rfl⟩ := ihe hexits
      obtain ⟨rfl, rfl⟩ := ihr hrest
      exact ⟨rfl, rfl⟩

end Ways

/-! ## Packets on these ways -/

/-- Copies can be made, and sockets take packets. -/
structure Kernel.Roomy (k : Kernel) : Prop where
  copy : ∀ skb, k.skbCopy skb = true
  sock : ∀ sock skb, k.sockQueueRcvSkb sock skb = true

/-- A packet for a block, in direction `dir`, that nobody else refers to. -/
structure Bound (dir : PathType) (p : Pos) : Prop where
  idp : readNextIdpFromSkb p.1 ≠ idpUnknown
  dir : p.2 = dir
  own : p.1.users = 1

/-- The packet as it goes on, and the packets left on the backlog. -/
def Visit.onward (v : Visit) (dir : PathType) : List Pos :=
  (v.next.map (·, dir)).toList ++ v.spawned.map fun skb => (writePathToSkb skb dir, dir)

/-- At one block, packets go on to the blocks `is` and end as `ds` says. -/
structure Visit.Goes (v : Visit) (dir : PathType) (is : List Idp) (ds : List Disposal) : Prop where
  idps : (v.onward dir).map (fun x => readNextIdpFromSkb x.1) = is
  bound : ∀ x ∈ v.onward dir, Bound dir x
  gone : v.gone.map Prod.snd = ds

section Packets

variable {k : Kernel} {s : State} {dir : PathType} {skb : Skb}

theorem goes_gone (ds : List (PktId × Disposal)) :
    Visit.Goes { gone := ds } dir [] (ds.map Prod.snd) := ⟨rfl, fun _ h => absurd h List.not_mem_nil, rfl⟩

theorem goes_forward (idp : Idp) (priv : Priv) (dir : PathType) (hown : skb.users = 1) :
    (Visit.forward idp priv skb dir).Goes dir
      (if priv.port dir = idpUnknown then [] else [priv.port dir])
      (if priv.port dir = idpUnknown then [.freed] else []) := by
  unfold Visit.forward
  split_ifs with hport
  · exact goes_gone [(skb.id, .freed)]
  · refine ⟨rfl, fun x hx => ?_, rfl⟩
    obtain rfl := List.mem_singleton.1 hx
    exact ⟨hport, rfl, hown⟩

/-- A copy is left on the backlog. -/
theorem Visit.Goes.spawn {v : Visit} {is : List Idp} {ds : List Disposal} (h : v.Goes dir is ds)
    (hspawned : v.spawned = []) {c : Skb} (hidp : readNextIdpFromSkb c ≠ idpUnknown)
    (hown : c.users = 1) (made : List PktId) :
    Visit.Goes { v with spawned := [c], made := made } dir (is ++ [readNextIdpFromSkb c]) ds := by
  have honward : Visit.onward { v with spawned := [c], made := made } dir =
      v.onward dir ++ [(writePathToSkb c dir, dir)] := by
    unfold Visit.onward
    rw [hspawned]
    simp
  refine ⟨?_, fun x hx => ?_, h.gone⟩
  · rw [honward, List.map_append, h.idps]
    rfl
  · rw [honward] at hx
    rcases List.mem_append.1 hx with hx | hx
    · exact h.bound x hx
    · obtain rfl := List.mem_singleton.1 hx
      exact ⟨hidp, rfl, hown⟩

theorem goes_block (hk : k.Roomy) (hbpf : NoBpf s) (hown : skb.users = 1) (a : Addr)
    (dir : PathType) :
    (visit k (s.ops a) (s.idp a) (s.privateData a k.cpu).still skb dir).Goes dir
      (exits s k.cpu dir a) (stops s k.cpu dir a) := by
  have hforward := goes_forward (s.idp a) (s.privateData a k.cpu).still dir hown
  have hstill : (s.privateData a k.cpu).still.port = (s.privateData a k.cpu).port := rfl
  rw [hstill] at hforward
  cases hops : s.ops a with
  | dummy | counter => simpa [visit, exits, stops, hops, FbType.sink] using hforward
  | bpf => exact absurd hops (hbpf.2 a)
  | tee =>
    by_cases hclone : (s.privateData a k.cpu).portClone = idpUnknown
    · have hvisit : visit k .tee (s.idp a) (s.privateData a k.cpu).still skb dir =
          .forward (s.idp a) (s.privateData a k.cpu).still skb dir := if_neg fun h => h.1 hclone
      rw [hvisit]
      simpa [exits, stops, hops, FbType.sink, hclone] using hforward
    · have hexits : exits s k.cpu dir a =
          (if (s.privateData a k.cpu).port dir = idpUnknown then []
            else [(s.privateData a k.cpu).port dir]) ++ [(s.privateData a k.cpu).portClone] := by
        simp [exits, hops, FbType.sink, hclone]
      have hstops : stops s k.cpu dir a =
          if (s.privateData a k.cpu).port dir = idpUnknown then [.freed] else [] := by
        simp [stops, hops]
      rw [hexits, hstops]
      unfold visit
      dsimp only
      rw [if_pos ⟨hclone, hk.copy _⟩]
      exact hforward.spawn forward_spawned (c := writeNextIdpToSkb (Skb.copied _) _ _) hclone rfl _
  | eth | ethvlink =>
    simp only [exits, stops, hops, FbType.sink]
    exact goes_gone [(skb.id, .sent (s.privateData a k.cpu).dev)]
  | pflana =>
    have hshared : skbShared skb = false := by simp [skbShared, hown]
    simp only [exits, stops, hops, FbType.sink]
    unfold visit Visit.deliver
    dsimp only
    rw [hshared, if_neg (by decide), hk.sock, if_pos rfl]
    exact goes_gone [(skb.id, .queued (s.privateData a k.cpu).sockSelf)]

/-- What is worked on depth first is what the bindings spread. -/
theorem spread_of_walked (hk : k.Roomy) (hbpf : NoBpf s) {q ls : List Pos}
    (h : Walked (nextPos k s) (spawnedPos k s) q ls) : (∀ p ∈ q, Bound dir p) →
      Spread s k.cpu dir (q.map fun p => readNextIdpFromSkb p.1) (ls.filterMap (blockAt s))
        (ls.flatMap fun p => (visitAt k s p).gone.map Prod.snd) := by
  induction h with
  | nil => exact fun _ => .nil
  | @cons p q as bs hp _ ihp ihq =>
    intro hq
    obtain ⟨hidp, rfl, hown⟩ := hq p List.mem_cons_self
    have hrest := ihq fun x hx => hq x (List.mem_cons_of_mem p hx)
    rw [List.map_cons, List.cons_append, List.filterMap_cons, List.flatMap_cons,
      List.filterMap_append, List.flatMap_append]
    cases ha : s.fblmap (readNextIdpFromSkb p.1) with
    | none =>
      have hblock : blockAt s p = none := (if_neg hidp).trans ha
      obtain ⟨hnext, hspawned⟩ := visitAt_of_no_block (k := k) hblock
      unfold nextPos spawnedPos at hp
      rw [hnext, hspawned] at hp
      cases hp
      have hvisit : visitAt k s p = { gone := [(p.1.id, .freed)] } := by
        unfold visitAt
        rw [if_neg hidp, ha]
      rw [hblock, hvisit]
      exact .missing ha hrest
    | some a =>
      have hblock : blockAt s p = some a := blockAt_eq_some.2 ⟨hidp, ha⟩
      have hvisit := visitAt_of_block (k := k) hblock
      obtain ⟨hidps, hbound, hgone⟩ := goes_block hk hbpf hown a p.2
      rw [← hvisit] at hidps hbound hgone
      have hexits := ihp hbound
      have hmap : ((nextPos k s p).toList ++ spawnedPos k s p).map (fun x => readNextIdpFromSkb x.1) =
          exits s k.cpu p.2 a := hidps
      rw [hmap] at hexits
      rw [hblock, hgone, ← List.append_assoc]
      exact .block ha hexits hrest

end Packets

/-- **Copies.**  Over dummy, counter, tee, eth, ethvlink and PF_LANA blocks, with memory for the copies
and room in the sockets, a packet sent through a port from which no cycle can be reached is processed
to the end.  It and its copies enter the blocks that the bindings lead to, each as often as ways lead
to it, and end in the same places as if each copy were processed at once. -/
theorem spread_exact (online : OnlineCpus) (cmds : List Cmd) (hc : ∀ c ∈ cmds, c.Unfiltered)
    (s : State) (hs : s = run (State.init online) cmds) (k : Kernel) (hk : k.Roomy) (fb : Addr)
    (dir : PathType) (hport : (s.privateData fb k.cpu).port dir ≠ idpUnknown)
    (hacyclic : ∀ i, ReflTransGen (Edge s k.cpu dir) ((s.privateData fb k.cpu).port dir) i →
      ¬TransGen (Edge s k.cpu dir) i i)
    (e : Engine World) (hst : e.world.st = s) (hidle : e.active = false) (hb : e.backlog = [])
    (skb : Skb) (hown : skb.users = 1) :
    ∃ bs ds, Spread s k.cpu dir [(s.privateData fb k.cpu).port dir] bs ds ∧
      (∃ n r, sendFrom k n e fb skb dir = some r) ∧
      ∀ n ret e', sendFrom k n e fb skb dir = some (ret, e') →
        (∃ visited, enters e'.trace = enters e.trace ++ visited ∧ visited.Perm bs) ∧
        ∃ given, e'.world.ledger = e.world.ledger ++ given ∧ (given.map Prod.snd).Perm ds := by
  have hbpf : NoBpf s := hs ▸ noBpf_run (noBpf_init online) hc
  subst hst
  set p : Pos := (writeNextIdpToSkb skb (e.world.st.idp fb) ((e.world.area k fb).port dir), dir)
    with hpdef
  have hends : Ends (nextPos k e.world.st) (spawnedPos k e.world.st) p :=
    ends_of_acc (acc_iff_acyclic.2 hacyclic) rfl rfl
  have hbound : ∀ x ∈ [p], Bound dir x := by
    intro x hx
    obtain rfl := List.mem_singleton.1 hx
    exact ⟨hport, rfl, hown⟩
  obtain ⟨ws, hw⟩ := exists_walked (q := [p]) fun x hx => List.mem_singleton.1 hx ▸ hends
  refine ⟨_, _, spread_of_walked hk hbpf hw hbound, ?_, fun n ret e' hrun => ?_⟩
  · refine (processPacket_ends_iff hbpf.filtersKept hidle).2 fun x hx => ?_
    rw [hb] at hx
    exact List.mem_singleton.1 hx ▸ hends
  · obtain ⟨ls, hd, hran, -⟩ := processPacket_drained hbpf.filtersKept hidle hrun
    rw [hb] at hd
    have hperm : ls.Perm ws := hd.perm hw
    refine ⟨⟨_, hran.enters, hperm.filterMap _⟩, _, hran.ledger, ?_⟩
    rw [List.map_flatMap]
    exact hperm.flatMap_right _

/-- A socket bound to a tee block that is bound to two devices. -/
def forkRun : List Cmd :=
  [.openSock nameS 7 .ok, .add nameA Factory.tee.type .ok, .hookEth nameB 3 .ok,
    .hookEth nameC 4 .ok, .bind nameS nameA .ok, .bind nameA nameB .ok, .bind nameA nameC .ok]

theorem spread_exact_fork : ∃ n ret e',
    sendFrom roomy n (.idle (.of (run (.init oneCpu) forkRun))) 0 (tenBytes 0) .egress =
      some (ret, e') ∧ (e'.world.ledger.map Prod.snd).Perm [.sent 3, .sent 4] := by
  have hc : ∀ c ∈ forkRun, c.Unfiltered := by
    simp only [forkRun, List.forall_mem_cons, Cmd.Unfiltered, List.not_mem_nil]
    exact ⟨trivial, by decide, trivial, trivial, trivial, trivial, trivial, fun _ h => absurd h id⟩
  -- from the tee block to the devices, and no further
  have htee : ∀ j, Edge (run (.init oneCpu) forkRun) 0 .egress 2 j → j = 3 ∨ j = 4 := by
    rintro j ⟨-, -, a, ha, ⟨-, rfl⟩ | ⟨-, rfl⟩⟩
    · obtain rfl : 1 = a := Option.some.inj ha
      exact .inl rfl
    · obtain rfl : 1 = a := Option.some.inj ha
      exact .inr rfl
  have hdevice : ∀ i, i = 3 ∨ i = 4 → ∀ j, ¬Edge (run (.init oneCpu) forkRun) 0 .egress i j := by
    rintro _ (rfl | rfl) j ⟨-, -, a, ha, ⟨hsink, -⟩ | ⟨hops, -⟩⟩
    · obtain rfl : 2 = a := Option.some.inj ha
      cases hsink
    · obtain rfl : 2 = a := Option.some.inj ha
      cases hops
    · obtain rfl : 3 = a := Option.some.inj ha
      cases hsink
    · obtain rfl : 3 = a := Option.some.inj ha
      cases hops
  have hacyclic : ∀ i, ReflTransGen (Edge (run (.init oneCpu) forkRun) 0 .egress) 2 i →
      ¬TransGen (Edge (run (.init oneCpu) forkRun) 0 .egress) i i := by
    intro i hi hcyc
    obtain ⟨j, hj, hback⟩ := TransGen.head'_iff.1 hcyc
    rcases ReflTransGen.cases_head hi with rfl | ⟨l, hl, hrest⟩
    · have hj' := htee j hj
      rcases ReflTransGen.cases_head hback with rfl | ⟨l, hl, -⟩
      · exact absurd hj' (by decide)
      · exact hdevice j hj' l hl
    · have hl' := htee l hl
      rcases ReflTransGen.cases_head hrest with rfl | ⟨l', hl'', -⟩
      · exact hdevice l hl' j hj
      · exact hdevice l hl' l' hl''
  obtain ⟨bs, ds, hspread, ⟨n, ⟨ret, e'⟩, hrun⟩, hall⟩ := spread_exact oneCpu forkRun hc _ rfl roomy
    ⟨fun _ => rfl, fun _ _ => rfl⟩ 0 .egress (by decide) hacyclic
    (.idle (.of (run (.init oneCpu) forkRun))) rfl rfl rfl (tenBytes 0) rfl
  obtain ⟨-, given, hledger, hperm⟩ := hall n ret e' hrun
  have hlast : Spread (run (.init oneCpu) forkRun) 0 .egress [4] [3] [.sent 4] :=
    @Spread.block _ _ _ 4 3 [] [] [] [] [] rfl .nil .nil
  have hboth : Spread (run (.init oneCpu) forkRun) 0 .egress [3, 4] [2, 3] [.sent 3, .sent 4] :=
    @Spread.block _ _ _ 3 2 [4] [] [3] [] [.sent 4] rfl .nil hlast
  have hwalk : Spread (run (.init oneCpu) forkRun) 0 .egress [2] [1, 2, 3] [.sent 3, .sent 4] :=
    @Spread.block _ _ _ 2 1 [] [2, 3] [] [.sent 3, .sent 4] [] rfl hboth .nil
  obtain ⟨-, rfl⟩ := hspread.unique hwalk
  refine ⟨n, ret, e', hrun, ?_⟩
  rw [hledger]
  exact hperm

end Lana
