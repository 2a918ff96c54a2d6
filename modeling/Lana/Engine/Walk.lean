import Lana.Engine.Blocks
import Lana.Engine.Discipline
import Lana.Fblock.Frame
import Lana.Library.Worklist

/-!
# The ways of the packets

While the engine runs, the tables, the counts and the ports stay as they are: only the counters of
the counter blocks move (`Same`).  What a block does to a packet is therefore a function of the
state before the call (`visit`), and a run of `process_packet` drains the queue of its packet and of
the backlog (`processPacket_drained`, `exists_processPacket`).
-/

namespace Lana

open State Engine Worklist

/-! ## What stays -/

/-- The area without its counters. -/
def Priv.still (p : Priv) : Priv := { p with packets := 0, bytes := 0 }

/-- The states agree up to the counters of the counter blocks and the record of releases. -/
structure Same (s t : State) : Prop where
  registry : t.registry = s.registry
  refcnt : t.refcnt = s.refcnt
  still : ∀ a c, (t.privateData a c).still = (s.privateData a c).still

/-- A filter stays as long as its block is entered. -/
def FiltersKept (s : State) : Prop :=
  ∀ i a, s.fblmap i = some a → s.factory a = some .bpf → s.refcnt a ≠ 0

section Same

variable {s t : State}

theorem Same.refl (s : State) : Same s s := ⟨rfl, rfl, fun _ _ => rfl⟩

theorem Same.fblmap (h : Same s t) : t.fblmap = s.fblmap := congrArg Registry.fblmap h.registry

theorem Same.idp (h : Same s t) : t.idp = s.idp := congrArg Registry.idp h.registry

theorem Same.ops (h : Same s t) : t.ops = s.ops := congrArg Registry.ops h.registry

theorem Same.factory (h : Same s t) : t.factory = s.factory :=
  congrArg Registry.factory h.registry

/-- A release clears the filters of a bpf block and leaves every other area alone. -/
theorem privateData_putFblock {s : State} {b : Addr}
    (h : s.refcnt b = 1 → s.factory b ≠ some .bpf) :
    (putFblock s b).privateData = s.privateData := by
  by_cases hcnt : s.refcnt b = 1
  · rcases hf : s.factory b with _ | f
    · rw [putFblock_of_no_factory hf]
      rfl
    · rw [putFblock_release hcnt hf]
      cases f
      case bpf => exact absurd hf (h hcnt)
      all_goals rfl
  · rw [putFblock_eq hcnt]
    rfl

/-- A block is taken, counters move, and it is put again. -/
theorem Same.visit (hkept : FiltersKept s) (h : Same s t) {i : Idp} {fb : Addr}
    (hfb : s.fblmap i = some fb) {pd : Addr → Cpu → Priv}
    (hpd : ∀ a c, (pd a c).still = (t.privateData a c).still) :
    Same s (putFblock ((getFblock t fb).withPriv pd) fb) := by
  refine ⟨(registry_putFblock _ _).trans h.registry, ?_, fun a c => ?_⟩
  · rw [refcnt_putFblock, getFblock_eq]
    show t.refcnt + ref fb + -ref fb = s.refcnt
    rw [add_neg_cancel_right, h.refcnt]
  · rw [privateData_putFblock]
    · exact (hpd a c).trans (h.still a c)
    · intro hcnt hbpf
      refine hkept i fb hfb (h.factory ▸ hbpf) ?_
      rw [getFblock_eq] at hcnt
      have hone : t.refcnt fb + ref fb fb = 1 := hcnt
      rw [ref_self, h.refcnt] at hone
      omega

end Same

/-! ## What a block does to a packet -/

/-- The way of a packet at one block. -/
structure Visit where
  /-- The packet as it goes on. -/
  next : Option Skb := none
  /-- The packets put on the backlog. -/
  spawned : List Skb := []
  /-- The packets made. -/
  made : List PktId := []
  gone : List (PktId × Disposal) := []

/-- A packet at a block with two ports. -/
def Visit.forward (idp : Idp) (priv : Priv) (skb : Skb) (dir : PathType) : Visit :=
  if priv.port dir = idpUnknown then { gone := [(skb.id, .freed)] }
  else { next := some (writeNextIdpToSkb skb idp (priv.port dir)) }

/-- A packet at a socket. -/
def Visit.deliver (k : Kernel) (sock : ℕ) (skb : Skb) : List (PktId × Disposal) :=
  if k.sockQueueRcvSkb sock skb then [(skb.id, .queued sock)] else []

/-- What the block of type `ops` with the given idp and area does to a packet. -/
def visit (k : Kernel) (ops : FbType) (idp : Idp) (priv : Priv) (skb : Skb) (dir : PathType) :
    Visit :=
  match ops with
  | .dummy | .counter => .forward idp priv skb dir
  | .bpf =>
    match priv.filter with
    | none => .forward idp priv skb dir
    | some filter =>
      if k.skRunFilter filter skb < skb.len then { gone := [(skb.id, .freed)] }
      else .forward idp priv skb dir
  | .tee =>
    let next := writeNextIdpToSkb skb idp (priv.port dir)
    if priv.portClone ≠ idpUnknown ∧ k.skbCopy next then
      { Visit.forward idp priv skb dir with
        spawned := [writeNextIdpToSkb next.copied idp priv.portClone]
        made := [next.copied.id] }
    else .forward idp priv skb dir
  | .eth | .ethvlink => { gone := [(skb.id, .sent priv.dev)] }
  | .pflana =>
    if skbShared skb then
      if k.skbClone skb then
        { made := [skb.cloned.id]
          gone := (skb.id, .freed) :: Visit.deliver k priv.sockSelf skb.cloned }
      else {}
    else { gone := Visit.deliver k priv.sockSelf skb }

/-- The types where packets end. -/
def FbType.sink : FbType → Bool
  | .eth | .ethvlink | .pflana => true
  | _ => false

section Visit

variable {k : Kernel} {ops : FbType} {idp : Idp} {priv : Priv} {skb skb' : Skb} {dir : PathType}

theorem forward_next (h : (Visit.forward idp priv skb dir).next = some skb') :
    priv.port dir ≠ idpUnknown ∧ skb' = writeNextIdpToSkb skb idp (priv.port dir) := by
  unfold Visit.forward at h
  by_cases hp : priv.port dir = idpUnknown
  · rw [if_pos hp] at h
    cases h
  · rw [if_neg hp] at h
    exact ⟨hp, (Option.some.inj h).symm⟩

/-- A packet goes on from a block that is no sink, to the block behind the port. -/
theorem visit_next (h : (visit k ops idp priv skb dir).next = some skb') :
    ops.sink = false ∧ priv.port dir ≠ idpUnknown ∧
      skb' = writeNextIdpToSkb skb idp (priv.port dir) := by
  cases ops with
  | dummy => exact ⟨rfl, forward_next h⟩
  | counter => exact ⟨rfl, forward_next h⟩
  | bpf =>
    refine ⟨rfl, ?_⟩
    unfold visit at h
    dsimp only at h
    rcases hf : priv.filter with _ | filter <;> rw [hf] at h
    · exact forward_next h
    · dsimp only at h
      split_ifs at h
      exact forward_next h
  | tee =>
    refine ⟨rfl, forward_next ?_⟩
    unfold visit at h
    dsimp only at h
    split_ifs at h <;> exact h
  | eth => cases h
  | ethvlink => cases h
  | pflana =>
    unfold visit at h
    dsimp only at h
    split_ifs at h

/-- Without a filter it does go on. -/
theorem visit_next_of (hops : ops.sink = false) (hfilter : ops = .bpf → priv.filter = none)
    (hport : priv.port dir ≠ idpUnknown) : (visit k ops idp priv skb dir).next =
      some (writeNextIdpToSkb skb idp (priv.port dir)) := by
  have hforward : (Visit.forward idp priv skb dir).next =
      some (writeNextIdpToSkb skb idp (priv.port dir)) := by
    unfold Visit.forward
    rw [if_neg hport]
  cases ops with
  | dummy => exact hforward
  | counter => exact hforward
  | bpf =>
    unfold visit
    dsimp only
    rw [hfilter rfl]
    exact hforward
  | tee =>
    unfold visit
    dsimp only
    split_ifs <;> exact hforward
  | eth => cases hops
  | ethvlink => cases hops
  | pflana => cases hops

theorem forward_spawned : (Visit.forward idp priv skb dir).spawned = [] := by
  unfold Visit.forward
  split_ifs <;> rfl

/-- Only a tee block leaves a packet behind. -/
theorem visit_spawned_of_ne (hops : ops ≠ .tee) : (visit k ops idp priv skb dir).spawned = [] := by
  cases ops with
  | dummy => exact forward_spawned
  | counter => exact forward_spawned
  | bpf =>
    unfold visit
    dsimp only
    rcases priv.filter with _ | filter
    · exact forward_spawned
    · dsimp only
      split_ifs
      · rfl
      · exact forward_spawned
  | tee => exact absurd rfl hops
  | eth => rfl
  | ethvlink => rfl
  | pflana =>
    unfold visit
    dsimp only
    split_ifs <;> rfl

theorem visit_spawned_tee : (visit k .tee idp priv skb dir).spawned =
    if priv.portClone ≠ idpUnknown ∧ k.skbCopy (writeNextIdpToSkb skb idp (priv.port dir)) then
      [writeNextIdpToSkb (writeNextIdpToSkb skb idp (priv.port dir)).copied idp priv.portClone]
    else [] := by
  unfold visit
  dsimp only
  split_ifs
  · rfl
  · exact forward_spawned

end Visit

/-- What a `netfb_rx` started in the world `w` does to the engine. -/
structure Performs (v : Visit) (dir : PathType) (w : World) (e e' : Engine World) : Prop where
  active : e'.active = e.active
  backlog : e'.backlog = e.backlog ++ v.spawned.map (writePathToSkb · dir)
  enters : enters e'.trace = enters e.trace
  ledger : e'.world.ledger = w.ledger ++ v.gone
  made : e'.world.made = w.made ++ v.made
  areas : ∃ pd, e'.world.st = w.st.withPriv pd ∧
    ∀ a c, (pd a c).still = (w.st.privateData a c).still

section Netrx

variable {k : Kernel} {w : World} {fb : Addr} {skb : Skb} {dir : PathType} {e : Engine World}

/-- The `netfb_rx` ends in `e'`, and returns the packet as it goes on or `PPE_DROPPED`. -/
def Returns (rx : Rx World) (v : Visit) (dir : PathType) (w : World) (e : Engine World) : Prop :=
  ∃ e', Performs v dir w e e' ∧
    match v.next with
    | none => ∃ skb, ∀ pp, runRx pp rx e = some ((skb, dir, ppeDropped), e')
    | some skb => ∀ pp, runRx pp rx e = some ((skb, dir, ppeSuccess), e')

/-- A `netfb_rx` that returns at once in the world `w'`. -/
theorem Performs.ret {v : Visit} {w' : World} (hspawned : v.spawned = [])
    (hledger : w'.ledger = w.ledger ++ v.gone) (hmade : w'.made = w.made ++ v.made)
    (hst : w'.st = w.st) : Performs v dir w e (e.withWorld w') where
  active := rfl
  backlog := by rw [hspawned]; exact (List.append_nil _).symm
  enters := rfl
  ledger := hledger
  made := hmade
  areas := ⟨w.st.privateData, hst, fun _ _ => rfl⟩

/-- The packet is disposed of as `gone` says, or left, and the engine told to stop. -/
theorem Returns.drop {skb' : Skb} {w' : World} {made : List PktId} {gone : List (PktId × Disposal)}
    (hledger : w'.ledger = w.ledger ++ gone) (hmade : w'.made = w.made ++ made)
    (hst : w'.st = w.st) :
    Returns (.ret w' skb' dir ppeDropped) { made := made, gone := gone } dir w e :=
  ⟨_, .ret rfl hledger hmade hst, skb', fun _ => rfl⟩

theorem forward_returns (priv : Priv) :
    Returns (forward w fb skb dir priv) (.forward (w.st.idp fb) priv.still skb dir) dir w e := by
  have hport : priv.still.port = priv.port := rfl
  unfold forward Visit.forward
  rw [hport]
  dsimp only
  split_ifs with hp
  · exact .drop rfl (List.append_nil _).symm rfl
  · exact ⟨_, .ret rfl (List.append_nil _).symm (List.append_nil _).symm rfl, fun _ => rfl⟩

/-- Counting on the way changes no more than the counters. -/
theorem Returns.count {rx : Rx World} {v : Visit}
    (h : Returns rx v dir (w.setArea k fb ((w.area k fb).count skb)) e) :
    Returns rx v dir w e := by
  obtain ⟨e', hp, hr⟩ := h
  obtain ⟨pd, hst, hstill⟩ := hp.areas
  refine ⟨e', ⟨hp.active, hp.backlog, hp.enters, hp.ledger, hp.made, pd, hst, fun a c => ?_⟩, hr⟩
  rw [hstill]
  show (Function.update w.st.privateData fb
    (Function.update (w.st.privateData fb) k.cpu ((w.area k fb).count skb)) a c).still = _
  by_cases ha : a = fb
  · subst ha
    rw [Function.update_self]
    by_cases hc : c = k.cpu
    · subst hc
      rw [Function.update_self]
      rfl
    · rw [Function.update_of_ne hc]
  · rw [Function.update_of_ne ha]

/-- A copy is made and put on the backlog before the rest. -/
theorem Returns.spawn {rx : World → Rx World} {v : Visit} {made spawned : Skb}
    (hmade : v.made = []) (hspawned : v.spawned = [])
    (h : Returns (rx (w.make made)) v dir (w.make made)
      (engineBacklogTail (e.withWorld (w.make made)) spawned dir)) :
    Returns (.engineBacklogTail (w.make made) spawned dir rx)
      { v with made := [made.id], spawned := [spawned] } dir w e := by
  obtain ⟨e', hp, hr⟩ := h
  refine ⟨e', ⟨hp.active, ?_, ?_, hp.ledger, ?_, hp.areas⟩, hr⟩
  · rw [hp.backlog, hspawned]
    exact List.append_nil _
  · rw [hp.enters]
    exact (enters_append _ _).trans (List.append_nil _)
  · rw [hp.made, hmade]
    exact List.append_nil _

/-- A socket takes the packet or leaves it; nothing else changes. -/
theorem sockQueueRcvSkb_eq (w : World) (sock : ℕ) (skb : Skb) :
    sockQueueRcvSkb k w sock skb = { w with ledger := w.ledger ++ Visit.deliver k sock skb } := by
  unfold sockQueueRcvSkb Visit.deliver
  split_ifs
  · rfl
  · rw [List.append_nil]

theorem fbPflanaNetrx_returns : Returns (fbPflanaNetrx k w fb skb dir)
    (visit k .pflana (w.st.idp fb) (w.area k fb).still skb dir) dir w e := by
  have hsock : (w.area k fb).still.sockSelf = (w.area k fb).sockSelf := rfl
  unfold fbPflanaNetrx visit
  dsimp only
  rw [hsock, sockQueueRcvSkb_eq, sockQueueRcvSkb_eq]
  split_ifs
  · exact .drop (List.append_assoc _ [_] _) rfl rfl
  · exact .drop (List.append_nil _).symm (List.append_nil _).symm rfl
  · exact .drop rfl (List.append_nil _).symm rfl

theorem netfbRx_returns (k : Kernel) (w : World) (fb : Addr) (skb : Skb) (dir : PathType)
    (e : Engine World) : Returns (netfbRx k w fb skb dir)
    (visit k (w.st.ops fb) (w.st.idp fb) (w.area k fb).still skb dir) dir w e := by
  unfold netfbRx
  cases w.st.ops fb with
  | dummy => exact forward_returns _
  | counter => exact Returns.count (forward_returns (w := w.setArea k fb _) (w.area k fb))
  | bpf =>
    have hfilter : (w.area k fb).still.filter = (w.area k fb).filter := rfl
    unfold fbBpfNetrx visit
    dsimp only
    rw [hfilter]
    rcases (w.area k fb).filter with _ | filter
    · exact forward_returns _
    · dsimp only
      split_ifs
      · exact .drop rfl (List.append_nil _).symm rfl
      · exact forward_returns _
  | tee =>
    unfold fbTeeNetrx visit
    dsimp only
    have hclone : (w.area k fb).still.portClone = (w.area k fb).portClone := rfl
    have hport : (w.area k fb).still.port = (w.area k fb).port := rfl
    rw [hclone, hport]
    split_ifs
    · refine Returns.spawn (v := .forward (w.st.idp fb) (w.area k fb).still skb dir) ?_ ?_
        (forward_returns _)
      · unfold Visit.forward
        split_ifs <;> rfl
      · unfold Visit.forward
        split_ifs <;> rfl
    · exact forward_returns _
  | eth => exact .drop rfl (List.append_nil _).symm rfl
  | ethvlink => exact .drop rfl (List.append_nil _).symm rfl
  | pflana => exact fbPflanaNetrx_returns

end Netrx

/-! ## From block to block -/

/-- A packet and the direction it is processed in. -/
abbrev Pos := Skb × PathType

/-- The block a packet is for. -/
def blockAt (s : State) (p : Pos) : Option Addr :=
  if readNextIdpFromSkb p.1 = idpUnknown then none else s.fblmap (readNextIdpFromSkb p.1)

theorem blockAt_eq_some {s : State} {p : Pos} {fb : Addr} : blockAt s p = some fb ↔
    readNextIdpFromSkb p.1 ≠ idpUnknown ∧ s.fblmap (readNextIdpFromSkb p.1) = some fb := by
  unfold blockAt
  split_ifs with hidp
  · exact ⟨False.elim, fun h => absurd hidp h.1⟩
  · exact ⟨fun h => ⟨hidp, h⟩, fun h => h.2⟩

/-- What becomes of a packet: the engine leaves one without a next idp and frees one whose block
does not exist. -/
def visitAt (k : Kernel) (s : State) (p : Pos) : Visit :=
  if readNextIdpFromSkb p.1 = idpUnknown then {}
  else
    match s.fblmap (readNextIdpFromSkb p.1) with
    | none => { gone := [(p.1.id, .freed)] }
    | some fb => visit k (s.ops fb) (s.idp fb) (s.privateData fb k.cpu).still p.1 p.2

theorem visitAt_of_block {k : Kernel} {s : State} {p : Pos} {fb : Addr}
    (h : blockAt s p = some fb) : visitAt k s p =
      visit k (s.ops fb) (s.idp fb) (s.privateData fb k.cpu).still p.1 p.2 := by
  unfold blockAt at h
  unfold visitAt
  split_ifs at h with hidp
  rw [if_neg hidp, h]

/-- Without a block the packet goes nowhere. -/
theorem visitAt_of_no_block {k : Kernel} {s : State} {p : Pos} (h : blockAt s p = none) :
    (visitAt k s p).next = none ∧ (visitAt k s p).spawned = [] := by
  unfold blockAt at h
  unfold visitAt
  split_ifs at h ⊢ with hidp
  · exact ⟨rfl, rfl⟩
  · rw [h]
    exact ⟨rfl, rfl⟩

/-- The packet at its next block. -/
def nextPos (k : Kernel) (s : State) (p : Pos) : Option Pos := (visitAt k s p).next.map (·, p.2)

/-- The packets left on the backlog, as they will be taken up. -/
def spawnedPos (k : Kernel) (s : State) (p : Pos) : List Pos :=
  (visitAt k s p).spawned.map fun skb => (writePathToSkb skb p.2, p.2)

section Walk

variable (k : Kernel) (s : State)

/-- Between `e` and `e'` the engine worked on the packets `ps`. -/
structure Ran (ps : List Pos) (e e' : Engine World) : Prop where
  same : Same s e'.world.st
  ledger : e'.world.ledger = e.world.ledger ++ ps.flatMap fun p => (visitAt k s p).gone
  made : e'.world.made = e.world.made ++ ps.flatMap fun p => (visitAt k s p).made
  enters : enters e'.trace = enters e.trace ++ ps.filterMap (blockAt s)

/-- One packet was worked on. -/
structure Stepped (p : Pos) (e e' : Engine World) : Prop where
  ran : Ran k s [p] e e'
  active : e'.active = e.active
  backlog : pending e'.backlog = pending e.backlog ++ spawnedPos k s p

variable {k s} {e e' e'' : Engine World} {p : Pos}

theorem Ran.nil (h : Same s e'.world.st) (hw : e'.world = e.world)
    (ht : Lana.enters e'.trace = Lana.enters e.trace) : Ran k s [] e e' where
  same := h
  ledger := by rw [hw]; exact (List.append_nil _).symm
  made := by rw [hw]; exact (List.append_nil _).symm
  enters := by rw [ht]; exact (List.append_nil _).symm

theorem Ran.trans {ps qs : List Pos} (h : Ran k s ps e e') (h' : Ran k s qs e' e'') :
    Ran k s (ps ++ qs) e e'' where
  same := h'.same
  ledger := by rw [h'.ledger, h.ledger, List.flatMap_append, List.append_assoc]
  made := by rw [h'.made, h.made, List.flatMap_append, List.append_assoc]
  enters := by rw [h'.enters, h.enters, List.filterMap_append, List.append_assoc]

/-- One turn of the loop over the blocks, at a block that exists. -/
theorem hopLoop_found (hkept : FiltersKept s) (hsame : Same s e.world.st) {fb : Addr}
    (hidp : readNextIdpFromSkb p.1 ≠ idpUnknown)
    (hfb : s.fblmap (readNextIdpFromSkb p.1) = some fb) (ret : ℤ) :
    ∃ e', Stepped k s p e e' ∧ ∀ pp j,
      match nextPos k s p with
      | none => ∃ ret', hopLoop (lana k) pp (j + 1) e p.1 p.2 ret = some (ret', e')
      | some p' => hopLoop (lana k) pp (j + 1) e p.1 p.2 ret =
          hopLoop (lana k) pp j e' p'.1 p'.2 ppeSuccess := by
  let w : World := { e.world with st := getFblock e.world.st fb }
  have hsearch : (lana k).searchFblock e.world (readNextIdpFromSkb p.1) = (some fb, w) := by
    show (_, _) = _
    unfold searchFblockRaw
    rw [hsame.fblmap, hfb]
  have hvisit : visitAt k s p =
      visit k (w.st.ops fb) (w.st.idp fb) (w.area k fb).still p.1 p.2 := by
    unfold visitAt
    rw [if_neg hidp, hfb]
    dsimp only
    rw [← hsame.still, ← hsame.ops, ← hsame.idp]
    rfl
  obtain ⟨e1, hp, hret⟩ := netfbRx_returns k w fb p.1 p.2 ((e.withWorld w).note (.enter fb))
  rw [← hvisit] at hp hret
  refine ⟨leaveFblock (lana k) e1 fb, ⟨⟨?_, ?_, ?_, ?_⟩, hp.active, ?_⟩, fun pp j => ?_⟩
  · obtain ⟨pd, hst, hpd⟩ := hp.areas
    show Same s (putFblock e1.world.st fb)
    rw [hst]
    exact hsame.visit hkept hfb hpd
  · rw [List.flatMap_singleton]
    exact hp.ledger
  · rw [List.flatMap_singleton]
    exact hp.made
  · show enters (e1.trace ++ [.leave fb]) = _
    have hblock : blockAt s p = some fb := (if_neg hidp).trans hfb
    rw [enters_append, hp.enters, List.filterMap_cons_some hblock]
    exact (List.append_nil _).trans (enters_append e.trace [.enter fb])
  · show pending e1.backlog = _
    rw [hp.backlog]
    unfold pending spawnedPos
    rw [List.map_append, List.map_map]
    rfl
  · have hturn : ∀ {skb dir code}, runRx pp ((lana k).netfbRx w fb p.1 p.2)
        ((e.withWorld w).note (.enter fb)) = some ((skb, dir, code), e1) →
        hopLoop (lana k) pp (j + 1) e p.1 p.2 ret =
          if code = ppeDropped then some (ppeDropped, leaveFblock (lana k) e1 fb)
          else hopLoop (lana k) pp j (leaveFblock (lana k) e1 fb) skb dir code := by
      intro skb dir code hrx
      rw [hopLoop, if_neg hidp, hsearch]
      dsimp only
      rw [hrx]
    unfold nextPos
    rcases hn : (visitAt k s p).next with _ | skb <;> rw [hn] at hret
    · obtain ⟨skb, hret⟩ := hret
      exact ⟨ppeDropped, (hturn (hret pp)).trans (if_pos rfl)⟩
    · exact (hturn (hret pp)).trans (if_neg (by decide))

/-- One turn of the loop over the blocks. -/
theorem hopLoop_step (hkept : FiltersKept s) (hsame : Same s e.world.st) (p : Pos) (ret : ℤ) :
    ∃ e', Stepped k s p e e' ∧ ∀ pp j,
      match nextPos k s p with
      | none => ∃ ret', hopLoop (lana k) pp (j + 1) e p.1 p.2 ret = some (ret', e')
      | some p' => hopLoop (lana k) pp (j + 1) e p.1 p.2 ret =
          hopLoop (lana k) pp j e' p'.1 p'.2 ppeSuccess := by
  by_cases hidp : readNextIdpFromSkb p.1 = idpUnknown
  · have hvisit : visitAt k s p = {} := if_pos hidp
    have hblock : blockAt s p = none := if_pos hidp
    refine ⟨e, ⟨⟨hsame, ?_, ?_, ?_⟩, rfl, ?_⟩, fun pp j => ?_⟩
    · rw [List.flatMap_singleton, hvisit, List.append_nil]
    · rw [List.flatMap_singleton, hvisit, List.append_nil]
    · rw [List.filterMap_cons_none hblock, List.filterMap_nil, List.append_nil]
    · unfold spawnedPos
      rw [hvisit, List.map_nil, List.append_nil]
    · unfold nextPos
      rw [hvisit]
      exact ⟨ret, by rw [hopLoop, if_pos hidp]⟩
  rcases hfb : s.fblmap (readNextIdpFromSkb p.1) with _ | fb
  · have hvisit : visitAt k s p = { gone := [(p.1.id, .freed)] } := by
      unfold visitAt
      rw [if_neg hidp, hfb]
    have hblock : blockAt s p = none := (if_neg hidp).trans hfb
    have hsearch : (lana k).searchFblock e.world (readNextIdpFromSkb p.1) = (none, e.world) := by
      show (_, _) = _
      unfold searchFblockRaw
      rw [hsame.fblmap, hfb]
    refine ⟨e.withWorld (kfreeSkb e.world p.1), ⟨⟨hsame, ?_, ?_, ?_⟩, rfl, ?_⟩, fun pp j => ?_⟩
    · rw [List.flatMap_singleton, hvisit]
      rfl
    · rw [List.flatMap_singleton, hvisit, List.append_nil]
      rfl
    · rw [List.filterMap_cons_none hblock, List.filterMap_nil, List.append_nil]
      rfl
    · unfold spawnedPos
      rw [hvisit, List.map_nil, List.append_nil]
      rfl
    · unfold nextPos
      rw [hvisit]
      refine ⟨ppeError, ?_⟩
      rw [hopLoop, if_neg hidp, hsearch]
      rfl
  · exact hopLoop_found hkept hsame hidp hfb ret

/-! ## From packet to packet -/

variable {pp : Engine World → Skb → PathType → Option (ℤ × Engine World)}

/-- The rest of the run from the middle of a packet. -/
def resume (k : Kernel) (pp : Engine World → Skb → PathType → Option (ℤ × Engine World)) (m j : ℕ)
    (e : Engine World) (p : Pos) (ret : ℤ) : Option (ℤ × Engine World) :=
  match hopLoop (lana k) pp j e p.1 p.2 ret with
  | none => none
  | some (ret, e) =>
    match engineBacklogTestReduce e with
    | (some (skb, dir), e) => pktLoop (lana k) pp m e skb dir
    | (none, e) => some (ret, { e with active := false })

theorem pktLoop_succ (m : ℕ) (e : Engine World) (skb : Skb) (dir : PathType) :
    pktLoop (lana k) pp (m + 1) e skb dir =
      resume k pp m m (takeUp e skb dir) (skb, dir) ppeError := by
  rw [pktLoop]
  unfold resume
  rcases hopLoop (lana k) pp m (takeUp e skb dir) skb dir ppeError with _ | ⟨ret, e1⟩
  · rfl
  · dsimp only
    rcases engineBacklogTestReduce e1 with ⟨_ | ⟨_, _⟩, _⟩ <;> rfl

/-- A turn that ends the packet, when nothing is on the backlog. -/
theorem resume_last {m j : ℕ} {ret ret' : ℤ}
    (h : hopLoop (lana k) pp j e p.1 p.2 ret = some (ret', e')) (hb : e'.backlog = []) :
    resume k pp m j e p ret = some (ret', { e' with active := false }) := by
  have hreduce : engineBacklogTestReduce e' = (none, e') := by
    unfold engineBacklogTestReduce
    rw [hb]
  unfold resume
  rw [h]
  dsimp only
  rw [hreduce]

/-- A turn that ends the packet, when another one is on the backlog. -/
theorem resume_next {m j : ℕ} {ret ret' : ℤ} {skb : Skb} {rest : List Skb}
    (h : hopLoop (lana k) pp j e p.1 p.2 ret = some (ret', e')) (hb : e'.backlog = skb :: rest) :
    resume k pp m j e p ret =
      pktLoop (lana k) pp m { e' with backlog := rest } skb (readPathFromSkb skb) := by
  unfold resume
  rw [h]
  dsimp only
  unfold engineBacklogTestReduce
  rw [hb]

theorem resume_hop {m j : ℕ} {ret ret' : ℤ} {p' : Pos}
    (h : hopLoop (lana k) pp (j + 1) e p.1 p.2 ret = hopLoop (lana k) pp j e' p'.1 p'.2 ret') :
    resume k pp m (j + 1) e p ret = resume k pp m j e' p' ret' := by
  unfold resume
  rw [h]

/-- What a run from the label `pkt` on, with fuel `m`, has done when it ends. -/
def PktDrains (k : Kernel) (s : State)
    (pp : Engine World → Skb → PathType → Option (ℤ × Engine World)) (m : ℕ) : Prop :=
  ∀ e e' skb dir ret, Same s e.world.st → pktLoop (lana k) pp m e skb dir = some (ret, e') →
    ∃ ls, Drained (nextPos k s) (spawnedPos k s) ((skb, dir) :: pending e.backlog) ls ∧
      Ran k s ls e e'

theorem resume_drained (hkept : FiltersKept s) {m : ℕ} (hpkt : PktDrains k s pp m) :
    ∀ (j : ℕ) {e e' : Engine World} {p : Pos} {ret ret' : ℤ}, Same s e.world.st →
      resume k pp m j e p ret = some (ret', e') →
      ∃ ls, Drained (nextPos k s) (spawnedPos k s) (p :: pending e.backlog) ls ∧
        Ran k s ls e e' := by
  intro j
  induction j with
  | zero => exact fun _ h => by cases h
  | succ j ih =>
    intro e e' p ret ret' hsame h
    obtain ⟨e1, hst, hturn⟩ := hopLoop_step (k := k) hkept hsame p ret
    specialize hturn pp j
    -- the queue behind `p` is the backlog of `e1`
    have hcons : ∀ {ls}, Drained (nextPos k s) (spawnedPos k s)
        ((nextPos k s p).toList ++ pending e1.backlog) ls →
        Drained (nextPos k s) (spawnedPos k s) (p :: pending e.backlog) (p :: ls) :=
      fun hd => .cons (hst.backlog ▸ hd)
    rcases hn : nextPos k s p with _ | p' <;> rw [hn] at hturn hcons
    · obtain ⟨ret1, hturn⟩ := hturn
      rcases hb : e1.backlog with _ | ⟨skb, rest⟩
      · rw [resume_last hturn hb] at h
        obtain ⟨-, rfl⟩ := Prod.mk.inj (Option.some.inj h)
        rw [hb] at hcons
        exact ⟨[p], hcons .nil, hst.ran.trans (.nil hst.ran.same rfl rfl)⟩
      · rw [resume_next hturn hb] at h
        rw [hb] at hcons
        obtain ⟨ls, hd, hran⟩ := hpkt { e1 with backlog := rest } _ _ _ _ hst.ran.same h
        exact ⟨p :: ls, hcons hd, hst.ran.trans ⟨hran.same, hran.ledger, hran.made, hran.enters⟩⟩
    · rw [resume_hop hturn] at h
      obtain ⟨ls, hd, hran⟩ := ih hst.ran.same h
      exact ⟨p :: ls, hcons hd, hst.ran.trans hran⟩

theorem pktLoop_drained (hkept : FiltersKept s) : ∀ m, PktDrains k s pp m := by
  intro m
  induction m with
  | zero => exact fun e e' skb dir ret _ h => by cases h
  | succ m ih =>
    intro e e' skb dir ret hsame h
    rw [pktLoop_succ] at h
    obtain ⟨ls, hd, hran⟩ := resume_drained hkept ih m (e := takeUp e skb dir) hsame h
    refine ⟨ls, hd, hran.same, hran.ledger, hran.made, hran.enters.trans ?_⟩
    show enters (e.trace ++ [.start skb dir]) ++ _ = _
    rw [enters_append]
    exact congrArg (· ++ _) (List.append_nil _)

/-- A queue that can be drained is drained by enough fuel. -/
theorem exists_resume (hkept : FiltersKept s) {q ls : List Pos}
    (hd : Drained (nextPos k s) (spawnedPos k s) q ls) :
    ∀ {e : Engine World} {p : Pos} (ret : ℤ), q = p :: pending e.backlog → Same s e.world.st →
      ∃ n, ∀ pp m j, n ≤ m → n ≤ j → (resume k pp m j e p ret).isSome := by
  induction hd with
  | nil => exact fun _ h => by cases h
  | @cons p0 q0 ls _ ih =>
    intro e p ret hq hsame
    obtain ⟨rfl, rfl⟩ := List.cons.inj hq
    obtain ⟨e1, hst, hturn⟩ := hopLoop_step (k := k) hkept hsame p0 ret
    rw [← hst.backlog] at ih
    rcases hn : nextPos k s p0 with _ | p' <;> rw [hn] at hturn ih
    · rcases hb : e1.backlog with _ | ⟨skb, rest⟩
      · refine ⟨1, fun pp m j _ hj => ?_⟩
        obtain ⟨j, rfl⟩ := Nat.exists_eq_add_of_le' hj
        obtain ⟨ret1, hturn⟩ := hturn pp j
        rw [resume_last hturn hb]
        rfl
      · rw [hb] at ih
        obtain ⟨n, hn⟩ := ih (e := takeUp { e1 with backlog := rest } skb (readPathFromSkb skb))
          (p := (skb, readPathFromSkb skb)) ppeError rfl hst.ran.same
        refine ⟨n + 1, fun pp m j hm hj => ?_⟩
        obtain ⟨j, rfl⟩ := Nat.exists_eq_add_of_le' (Nat.le_of_add_left_le hj)
        obtain ⟨m, rfl⟩ := Nat.exists_eq_add_of_le' (Nat.le_of_add_left_le hm)
        obtain ⟨ret1, hturn⟩ := hturn pp j
        rw [resume_next hturn hb, pktLoop_succ]
        exact hn pp m m (by omega) (by omega)
    · obtain ⟨n, hn⟩ := ih (e := e1) (p := p') ppeSuccess rfl hst.ran.same
      refine ⟨n + 1, fun pp m j hm hj => ?_⟩
      obtain ⟨j, rfl⟩ := Nat.exists_eq_add_of_le' (Nat.le_of_add_left_le hj)
      rw [resume_hop (hturn pp j)]
      exact hn pp m j (by omega) (by omega)

/-! ## The outermost call -/

variable {n : ℕ} {skb : Skb} {dir : PathType}

/-- A call that ends has worked on the packet, on the backlog and on what they left behind. -/
theorem processPacket_drained (hkept : FiltersKept e.world.st) (hidle : e.active = false) {ret : ℤ}
    (h : processPacket (lana k) n e skb dir = some (ret, e')) :
    ∃ ls, Drained (nextPos k e.world.st) (spawnedPos k e.world.st)
        ((skb, dir) :: pending e.backlog) ls ∧
      Ran k e.world.st ls e e' ∧ e'.backlog = [] := by
  cases n with
  | zero => cases h
  | succ n =>
    rw [processPacket, hidle] at h
    obtain ⟨ls, hd, hran⟩ := pktLoop_drained hkept n e e' skb dir ret (.refl _) h
    obtain ⟨tr, hdone⟩ := pktLoop_completed n h
    exact ⟨ls, hd, hran, hdone.backlog⟩

/-- A call ends when and only when no packet it starts from descends without end. -/
theorem processPacket_ends_iff (hkept : FiltersKept e.world.st) (hidle : e.active = false) :
    (∃ n r, processPacket (lana k) n e skb dir = some r) ↔
      ∀ p ∈ (skb, dir) :: pending e.backlog,
        Ends (nextPos k e.world.st) (spawnedPos k e.world.st) p := by
  rw [← exists_drained_iff]
  constructor
  · rintro ⟨n, ⟨ret, e'⟩, h⟩
    obtain ⟨ls, hd, -⟩ := processPacket_drained hkept hidle h
    exact ⟨ls, hd⟩
  · rintro ⟨ls, hd⟩
    obtain ⟨n, hn⟩ := exists_resume (e := takeUp e skb dir) (p := (skb, dir))
      hkept hd ppeError rfl (.refl _)
    obtain ⟨r, hr⟩ := Option.isSome_iff_exists.1 (hn (processPacket (lana k) (n + 1)) n n le_rfl le_rfl)
    refine ⟨n + 2, r, ?_⟩
    rw [processPacket, hidle]
    exact (pktLoop_succ n e skb dir).trans hr

end Walk

end Lana
