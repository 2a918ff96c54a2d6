import Lana.Engine.Walk
import Lana.User.Commands

/-!
# The owners of the packets

Every packet that a call of `process_packet` works on is given away exactly once, and so is every
packet made meanwhile, unless one is left with nobody to own it: a packet without a next idp, which
the engine does not free, or a packet that a PF_LANA socket does not take, which `fb_pflana_netrx`
does not look at (`disposed_once_iff`).
-/

namespace Lana

open State Engine Worklist Relation

/-! ## Packets without an owner -/

/-- Somebody takes the packet: it has a next idp, and a socket it is for has memory and room. -/
def Taken (k : Kernel) (s : State) (p : Pos) : Prop :=
  readNextIdpFromSkb p.1 ≠ idpUnknown ∧
    ∀ fb, s.fblmap (readNextIdpFromSkb p.1) = some fb → s.ops fb = .pflana →
      (skbShared p.1 → k.skbClone p.1) ∧
      k.sockQueueRcvSkb (s.privateData fb k.cpu).sockSelf
        (if skbShared p.1 then p.1.cloned else p.1)

/-- The packet a socket leaves without an owner. -/
def refused (k : Kernel) (sock : ℕ) (skb : Skb) : List PktId :=
  if skbShared skb then
    if k.skbClone skb then if k.sockQueueRcvSkb sock skb.cloned then [] else [skb.cloned.id]
    else [skb.id]
  else if k.sockQueueRcvSkb sock skb then [] else [skb.id]

/-- The packet left without an owner at `p`. -/
def lost (k : Kernel) (s : State) (p : Pos) : List PktId :=
  if readNextIdpFromSkb p.1 = idpUnknown then [p.1.id]
  else
    match s.fblmap (readNextIdpFromSkb p.1) with
    | none => []
    | some fb =>
      if s.ops fb = .pflana then refused k (s.privateData fb k.cpu).sockSelf p.1 else []

section Balance

variable {k : Kernel} {s : State} {p : Pos} {x : PktId}

theorem refused_eq_nil {sock : ℕ} {skb : Skb} : refused k sock skb = [] ↔
    (skbShared skb → k.skbClone skb) ∧
      k.sockQueueRcvSkb sock (if skbShared skb then skb.cloned else skb) := by
  unfold refused
  split_ifs <;> simp_all

theorem lost_eq_nil : lost k s p = [] ↔ Taken k s p := by
  unfold lost Taken
  by_cases h : readNextIdpFromSkb p.1 = idpUnknown
  · simp [h]
  · rw [if_neg h]
    rcases s.fblmap (readNextIdpFromSkb p.1) with _ | fb
    · simp [h]
    · by_cases hops : s.ops fb = .pflana
      · simp [h, hops, refused_eq_nil]
      · simp [h, hops]

/-- The identity of a packet made from `skb` at its next hop. -/
def Skb.child (skb : Skb) (m : Making) : PktId :=
  { skb.id with path := skb.id.path ++ [(m, skb.hop + 1)] }

/-- What can become of a packet, with the packet that is lost. -/
inductive Shape (skb : Skb) : Visit → List PktId → Prop
  | left : Shape skb {} [skb.id]
  | given (d : Disposal) : Shape skb { gone := [(skb.id, d)] } []
  | on (skb' : Skb) (hid : skb'.id = skb.id) (hhop : skb'.hop = skb.hop + 1) :
      Shape skb { next := some skb' } []
  | copyOn (skb' c : Skb) (hid : skb'.id = skb.id) (hhop : skb'.hop = skb.hop + 1)
      (hc : c.id = skb.child .copy) :
      Shape skb { next := some skb', spawned := [c], made := [c.id] } []
  | copyDrop (c : Skb) (hc : c.id = skb.child .copy) :
      Shape skb { spawned := [c], made := [c.id], gone := [(skb.id, .freed)] } []
  | cloned (d : Disposal) : Shape skb
      { made := [skb.child .clone], gone := [(skb.id, .freed), (skb.child .clone, d)] } []
  | cloneLeft : Shape skb { made := [skb.child .clone], gone := [(skb.id, .freed)] }
      [skb.child .clone]

theorem forward_shape (idp : Idp) (priv : Priv) (skb : Skb) (dir : PathType) :
    Shape skb (.forward idp priv skb dir) [] := by
  unfold Visit.forward
  split_ifs
  · exact .given .freed
  · exact .on _ rfl rfl

theorem visit_shape (k : Kernel) (ops : FbType) (idp : Idp) (priv : Priv) (skb : Skb)
    (dir : PathType) : Shape skb (visit k ops idp priv skb dir)
      (if ops = .pflana then refused k priv.sockSelf skb else []) := by
  cases ops with
  | dummy => exact forward_shape idp priv skb dir
  | counter => exact forward_shape idp priv skb dir
  | bpf =>
    rw [if_neg (by decide)]
    unfold visit
    dsimp only
    rcases priv.filter with _ | filter
    · exact forward_shape idp priv skb dir
    · dsimp only
      split_ifs
      · exact .given .freed
      · exact forward_shape idp priv skb dir
  | tee =>
    rw [if_neg (by decide)]
    unfold visit
    dsimp only
    split_ifs
    · unfold Visit.forward
      split_ifs
      · exact .copyDrop _ rfl
      · exact .copyOn _ _ rfl rfl rfl
    · exact forward_shape idp priv skb dir
  | eth => exact .given _
  | ethvlink => exact .given _
  | pflana =>
    rw [if_pos rfl]
    unfold visit refused Visit.deliver
    dsimp only
    split_ifs
    · exact .cloned _
    · exact .cloneLeft
    · exact .left
    · exact .given _
    · exact .left

theorem visitAt_shape (k : Kernel) (s : State) (p : Pos) :
    Shape p.1 (visitAt k s p) (lost k s p) := by
  unfold visitAt lost
  by_cases h : readNextIdpFromSkb p.1 = idpUnknown
  · rw [if_pos h, if_pos h]
    exact .left
  · rw [if_neg h, if_neg h]
    rcases s.fblmap (readNextIdpFromSkb p.1) with _ | fb
    · exact .given .freed
    · exact visit_shape k (s.ops fb) (s.idp fb) (s.privateData fb k.cpu).still p.1 p.2

/-- The packets that stay in the engine. -/
def Visit.staying (v : Visit) : List Skb := v.next.toList ++ v.spawned

/-- The packet and what is made of it are given away, lost, or stay in the engine. -/
theorem Shape.balance {skb : Skb} {v : Visit} {l : List PktId} (h : Shape skb v l) (x : PktId) :
    (v.gone.map Prod.fst).count x + l.count x + (v.staying.map Skb.id).count x =
      [skb.id].count x + v.made.count x := by
  unfold Visit.staying
  cases h with
  | left => simp
  | given d => simp
  | on skb' hid hhop => simp [hid]
  | copyOn skb' c hid hhop hc => simp [hid, List.count_cons, Nat.add_comm]
  | copyDrop c hc => simp [List.count_cons]
  | cloned d => simp [List.count_cons, Nat.add_comm]
  | cloneLeft => simp

/-! ## Identities -/

/-- `x` is the packet itself, or may still be made from it or from one made from it. -/
def Skb.Begets (skb : Skb) (x : PktId) : Prop :=
  x.root = skb.id.root ∧ ∃ t, x.path = skb.id.path ++ t ∧ ∀ m n t', t = (m, n) :: t' → skb.hop < n

theorem begets_self (skb : Skb) : skb.Begets skb.id :=
  ⟨rfl, [], (List.append_nil _).symm, fun _ _ _ h => by cases h⟩

/-- At the next hop less can be made. -/
theorem Skb.Begets.of_on {skb skb' : Skb} (hid : skb'.id = skb.id) (hhop : skb'.hop = skb.hop + 1)
    (h : skb'.Begets x) : skb.Begets x := by
  obtain ⟨hroot, t, ht, hfirst⟩ := h
  rw [hid] at hroot ht
  refine ⟨hroot, t, ht, fun m n t' e => ?_⟩
  have := hfirst m n t' e
  omega

theorem begets_child (skb : Skb) (m : Making) : skb.Begets (skb.child m) :=
  ⟨rfl, _, rfl, fun _ _ _ h => by cases h; exact Nat.lt_succ_self _⟩

theorem child_ne (skb : Skb) (m : Making) : skb.child m ≠ skb.id := by
  intro h
  have := congrArg (fun i : PktId => i.path.length) h
  simp [Skb.child] at this

section Copy

variable {skb c : Skb}

/-- What is made from a copy is neither the packet nor made from it later. -/
theorem Skb.Begets.of_copy (hc : c.id = skb.child .copy) (h : c.Begets x) (skb' : Skb) :
    skb.Begets x ∧ skb.id ≠ x ∧
      (skb'.id = skb.id → skb'.hop = skb.hop + 1 → ¬skb'.Begets x) := by
  obtain ⟨hroot, t, ht, -⟩ := h
  rw [hc] at hroot ht
  have hpath : x.path = skb.id.path ++ (.copy, skb.hop + 1) :: t :=
    ht.trans (List.append_assoc _ _ _)
  refine ⟨⟨hroot, _, hpath, fun m n t' e => ?_⟩, ?_, ?_⟩
  · cases e
    exact Nat.lt_succ_self _
  · rintro rfl
    simp at hpath
  · rintro hid hhop ⟨-, t', ht', hfirst⟩
    rw [hid, hpath] at ht'
    have := hfirst _ _ _ (List.append_cancel_left ht').symm
    omega

end Copy

open scoped Classical in
/-- The identities in use are at most those a packet begets. -/
theorem Shape.fresh {skb : Skb} {v : Visit} {l : List PktId} (h : Shape skb v l) (x : PktId) :
    [skb.id].count x + v.made.count x + v.staying.countP (·.Begets x) ≤
      [skb].countP (·.Begets x) + (v.staying.map Skb.id).count x := by
  have hself : skb.id = x → skb.Begets x := fun h => h ▸ begets_self skb
  have hclone : skb.child .clone = x → skb.Begets x ∧ skb.id ≠ x :=
    fun h => h ▸ ⟨begets_child skb .clone, (child_ne skb .clone).symm⟩
  unfold Visit.staying
  cases h with
  | left => grind
  | given d => grind
  | on skb' hid hhop =>
    have hon : skb'.Begets x → skb.Begets x := .of_on hid hhop
    grind
  | copyOn skb' c hid hhop hc =>
    have hon : skb'.Begets x → skb.Begets x := .of_on hid hhop
    have hcopy := fun h : c.Begets x => h.of_copy hc skb'
    grind
  | copyDrop c hc =>
    have hcopy := fun h : c.Begets x => h.of_copy hc skb
    grind
  | cloned d => grind
  | cloneLeft => grind

end Balance

/-! ## Whole runs -/

section Drained

variable {k : Kernel} {s : State} {q ls : List Pos}

/-- The identities in the queue behind `p`. -/
theorem count_after (p : Pos) (q : List Pos) (x : PktId) :
    (((nextPos k s p).toList ++ (q ++ spawnedPos k s p)).map (·.1.id)).count x =
      ((visitAt k s p).staying.map Skb.id).count x + (q.map (·.1.id)).count x := by
  have hnext : (nextPos k s p).toList.map (·.1.id) = (visitAt k s p).next.toList.map Skb.id := by
    unfold nextPos
    cases (visitAt k s p).next <;> rfl
  have hspawned : (spawnedPos k s p).map (·.1.id) = (visitAt k s p).spawned.map Skb.id := by
    unfold spawnedPos
    rw [List.map_map]
    rfl
  unfold Visit.staying
  simp only [List.map_append, List.count_append, hnext, hspawned]
  omega

open scoped Classical in
theorem countP_after (p : Pos) (q : List Pos) (x : PktId) :
    ((nextPos k s p).toList ++ (q ++ spawnedPos k s p)).countP (·.1.Begets x) =
      (visitAt k s p).staying.countP (·.Begets x) + q.countP (·.1.Begets x) := by
  have hnext : (nextPos k s p).toList.countP (·.1.Begets x) =
      (visitAt k s p).next.toList.countP (·.Begets x) := by
    unfold nextPos
    cases (visitAt k s p).next <;> rfl
  have hspawned : (spawnedPos k s p).countP (·.1.Begets x) =
      (visitAt k s p).spawned.countP (·.Begets x) := by
    unfold spawnedPos
    rw [List.countP_map]
    rfl
  unfold Visit.staying
  simp only [List.countP_append, hnext, hspawned]
  omega

/-- Every packet is given away or lost. -/
theorem drained_balance (h : Drained (nextPos k s) (spawnedPos k s) q ls) (x : PktId) :
    ((ls.flatMap fun p => (visitAt k s p).gone).map Prod.fst).count x +
      (ls.flatMap (lost k s)).count x =
      (q.map (·.1.id)).count x + (ls.flatMap fun p => (visitAt k s p).made).count x := by
  induction h with
  | nil => rfl
  | @cons p q ls _ ih =>
    have hp := (visitAt_shape k s p).balance x
    rw [count_after] at ih
    simp only [List.flatMap_cons, List.map_append, List.count_append, List.map_cons,
      List.count_cons, List.count_nil] at ih hp ⊢
    omega

open scoped Classical in
/-- No identity is given twice, as long as no two packets of the queue beget it. -/
theorem drained_fresh (h : Drained (nextPos k s) (spawnedPos k s) q ls) (x : PktId) :
    (q.map (·.1.id)).count x + (ls.flatMap fun p => (visitAt k s p).made).count x ≤
      q.countP (·.1.Begets x) := by
  induction h with
  | nil => rfl
  | @cons p q ls _ ih =>
    have hp := (visitAt_shape k s p).fresh x
    rw [count_after, countP_after] at ih
    simp only [List.flatMap_cons, List.count_append, List.map_cons, List.count_cons,
      List.countP_cons, List.count_nil, List.countP_nil] at ih hp ⊢
    omega

open scoped Classical in
/-- Packets handed in from outside beget nothing in common. -/
theorem countP_begets_le_one (hroots : ∀ p ∈ q, p.1.id.path = []) (hids : (q.map (·.1.id)).Nodup)
    (x : PktId) : q.countP (·.1.Begets x) ≤ 1 := by
  calc q.countP (·.1.Begets x) ≤ q.countP (fun p => p.1.id == ⟨x.root, []⟩) := by
        refine List.countP_mono_left fun p hp hx => ?_
        obtain ⟨hroot, -⟩ := of_decide_eq_true hx
        have hpath := hroots p hp
        rw [beq_iff_eq]
        exact PktId.ext hroot.symm hpath
    _ = (q.map (·.1.id)).count ⟨x.root, []⟩ := by
        unfold List.count
        rw [List.countP_map]
        rfl
    _ ≤ 1 := List.nodup_iff_count_le_one.1 hids _

end Drained

/-- A packet handed in from outside, and the backlog, each once. -/
def Fresh (e : Engine World) (skb : Skb) : Prop :=
  (∀ q ∈ skb :: e.backlog, q.id.path = []) ∧ ((skb :: e.backlog).map Skb.id).Nodup ∧
    e.world.ledger = [] ∧ e.world.made = []

/-- The packets a call starts from and those made meanwhile are given away, or on the backlog,
exactly once. -/
def DisposedOnce (e e' : Engine World) (skb : Skb) : Prop :=
  ∀ x ∈ (skb :: e.backlog).map Skb.id ++ e'.world.made,
    (e'.world.ledger.map Prod.fst).count x + (e'.backlog.map Skb.id).count x = 1

section Call

variable {k : Kernel} {n : ℕ} {e e' : Engine World} {skb : Skb} {dir : PathType} {ret : ℤ}

/-- A nested call leaves its packet on the backlog. -/
theorem disposedOnce_of_active (hfresh : Fresh e skb) (hact : e.active = true)
    (h : processPacket (lana k) n e skb dir = some (ret, e')) : DisposedOnce e e' skb := by
  obtain ⟨-, hids, hledger, hmade⟩ := hfresh
  cases n with
  | zero => cases h
  | succ n =>
    rw [processPacket, hact] at h
    obtain ⟨-, rfl⟩ := Prod.mk.inj (Option.some.inj h)
    intro x hx
    have hx' : x ∈ (skb :: e.backlog).map Skb.id ++ e.world.made := hx
    rw [hmade, List.append_nil] at hx'
    show (e.world.ledger.map Prod.fst).count x +
      ((e.backlog ++ [writePathToSkb skb dir]).map Skb.id).count x = 1
    have hone := List.count_eq_one_of_mem hids hx'
    rw [hledger, List.map_append, List.count_append]
    rw [List.map_cons, List.count_cons] at hone
    simp only [List.map_nil, List.count_nil, List.map_cons, List.count_cons]
    exact (Nat.zero_add _).trans (by rw [Nat.zero_add]; exact hone)

/-- An outermost call disposes of each packet once when and only when none is lost. -/
theorem disposedOnce_iff_taken (hkept : FiltersKept e.world.st) (hfresh : Fresh e skb)
    (hidle : e.active = false) (h : processPacket (lana k) n e skb dir = some (ret, e')) :
    DisposedOnce e e' skb ↔ ∀ p ∈ (skb, dir) :: pending e.backlog, ∀ p',
      ReflTransGen (Succ (nextPos k e.world.st) (spawnedPos k e.world.st)) p p' →
        Taken k e.world.st p' := by
  obtain ⟨hroots, hids, hledger, hmade⟩ := hfresh
  obtain ⟨ls, hd, hran, hback⟩ := processPacket_drained hkept hidle h
  have hq : ((skb, dir) :: pending e.backlog).map (·.1.id) = (skb :: e.backlog).map Skb.id := by
    unfold pending
    rw [List.map_cons, List.map_map]
    rfl
  have hpaths : ∀ p ∈ (skb, dir) :: pending e.backlog, p.1.id.path = [] := by
    intro p hp
    have hmem : p.1.id ∈ (skb :: e.backlog).map Skb.id := hq ▸ List.mem_map_of_mem hp
    obtain ⟨skb', hskb', heq⟩ := List.mem_map.1 hmem
    rw [← heq]
    exact hroots skb' hskb'
  -- what is given away and what is lost, together, are the packets, each once
  have hsum : ∀ x, (e'.world.ledger.map Prod.fst).count x +
      (ls.flatMap (lost k e.world.st)).count x =
      ((skb :: e.backlog).map Skb.id ++ e'.world.made).count x := by
    intro x
    rw [hran.ledger, hran.made, hledger, hmade, List.nil_append, List.nil_append,
      List.count_append, ← hq]
    exact drained_balance hd x
  have hle : ∀ x, ((skb :: e.backlog).map Skb.id ++ e'.world.made).count x ≤ 1 := by
    intro x
    rw [hran.made, hmade, List.nil_append, List.count_append, ← hq]
    exact (drained_fresh hd x).trans (countP_begets_le_one hpaths (hq ▸ hids) x)
  have hlost : (ls.flatMap (lost k e.world.st) = []) ↔ ∀ p ∈ (skb, dir) :: pending e.backlog,
      ∀ p', ReflTransGen (Succ (nextPos k e.world.st) (spawnedPos k e.world.st)) p p' →
        Taken k e.world.st p' := by
    rw [List.flatMap_eq_nil_iff]
    constructor
    · intro hall p hp p' hr
      exact lost_eq_nil.1 (hall p' ((hd.mem_iff p').2 ⟨p, hp, hr⟩))
    · intro hall p' hp'
      obtain ⟨p, hp, hr⟩ := (hd.mem_iff p').1 hp'
      exact lost_eq_nil.2 (hall p hp p' hr)
  rw [← hlost]
  unfold DisposedOnce
  rw [hback, List.map_nil]
  constructor
  · intro hall
    rw [List.eq_nil_iff_forall_not_mem]
    intro x hx
    -- a lost packet is one of the packets, and is not given away as well
    have hpos := List.count_pos_iff.2 hx
    have hone := hall x (List.count_pos_iff.1 (by rw [← hsum x]; omega))
    have := hsum x
    have := hle x
    rw [List.count_nil] at hone
    omega
  · intro hnil x hx
    have hpos := List.count_pos_iff.2 hx
    have := hsum x
    have := hle x
    rw [hnil, List.count_nil] at *
    omega

/-- **Ownership of packets.** When a call of `process_packet` ends, each packet it started from and
each packet made meanwhile has been given away once, or is on the backlog, when and only when the
call was a nested one or somebody takes every packet that comes from these. -/
theorem disposed_once_iff (hkept : FiltersKept e.world.st) (hfresh : Fresh e skb)
    (h : processPacket (lana k) n e skb dir = some (ret, e')) :
    DisposedOnce e e' skb ↔ e.active = true ∨ ∀ p ∈ (skb, dir) :: pending e.backlog, ∀ p',
      ReflTransGen (Succ (nextPos k e.world.st) (spawnedPos k e.world.st)) p p' →
        Taken k e.world.st p' := by
  rcases hact : e.active
  · rw [disposedOnce_iff_taken hkept hfresh hact h]
    simp
  · exact iff_of_true (disposedOnce_of_active hfresh hact h) (.inl rfl)

end Call

/-- An idle engine over one dummy block, whose idp is 1. -/
def oneDummy : Engine World :=
  .idle (.of (run (.init oneCpu) [.add nameA Factory.dummy.type .ok]))

/-- A packet for a dummy block without a next block is freed, once. -/
theorem disposed_once_dummy : ∃ ret e',
    processPacket (lana roomy) 4 oneDummy (tenBytes 0) .egress = some (ret, e') ∧
    DisposedOnce oneDummy e' (tenBytes 0) := by
  have hkept : FiltersKept oneDummy.world.st := by
    intro i a _ hf
    have hfactory : oneDummy.world.st.factory = Function.update (fun _ => none) 0 (some .dummy) :=
      rfl
    rw [hfactory, Function.update_apply] at hf
    split_ifs at hf
    cases hf
  have hfresh : Fresh oneDummy (tenBytes 0) :=
    ⟨by simp [oneDummy, Engine.idle, tenBytes], List.nodup_singleton _, rfl, rfl⟩
  obtain ⟨⟨ret, e'⟩, hrun⟩ : ∃ r, processPacket (lana roomy) 4 oneDummy (tenBytes 0) .egress =
    some r := ⟨_, rfl⟩
  refine ⟨ret, e', hrun, (disposed_once_iff hkept hfresh hrun).2 (.inr fun p hp p' hr => ?_)⟩
  obtain rfl := List.mem_singleton.1 hp
  rcases ReflTransGen.cases_head hr with rfl | ⟨p'', hs | hs, -⟩
  · exact ⟨by decide, fun fb hfb hops => by
      obtain rfl : 0 = fb := Option.some.inj hfb
      cases hops⟩
  · cases hs
  · cases hs

/-- An idle engine over a socket that is not bound. -/
def unboundSocket : Engine World := .idle (.of (run (.init oneCpu) [.openSock nameS 7 .ok]))

/-- A packet sent on a socket that is not bound is neither freed nor queued. -/
theorem unbound_send_lost : ∃ skb ret e', Fresh unboundSocket skb ∧
    lanaProtoSendmsg roomy 4 unboundSocket 0 (tenBytes 0) = some e' ∧
    processPacket (lana roomy) 4 unboundSocket skb .egress = some (ret, e') ∧
    ¬DisposedOnce unboundSocket e' skb := by
  refine ⟨writeNextIdpToSkb (tenBytes 0) 1 0, _, _,
    ⟨by simp [unboundSocket, Engine.idle, tenBytes, writeNextIdpToSkb], List.nodup_singleton _,
      rfl, rfl⟩, rfl, rfl, fun h => ?_⟩
  exact absurd (h ⟨0, []⟩ (by decide)) (by decide)

end Lana
