import Lana.Engine.Ownership
import Lana.Engine.Spread

/-!
# Deliveries

A socket without room refuses a packet, and without memory a tee block makes no copy.  What a packet
and its copies come to is then a part of what the bindings spread: each of its deliveries is one of
the walk `Spread`, and with room and memory they are all of them (`sendFrom_given`).  Whatever is
given away goes back to the packet that was sent.
-/

namespace Lana

open State Engine Worklist Relation

/-! ## Where packets come from -/

section Roots

variable {k : Kernel} {s : State} {skb : Skb} {v : Visit} {l : List PktId} {p p' : Pos}

/-- A block passes on, keeps and gives away the packet it is given and packets made from it. -/
theorem Shape.roots (h : Shape skb v l) : (∀ x ∈ v.gone, x.1.root = skb.id.root) ∧
    (∀ x ∈ v.next, x.id.root = skb.id.root) ∧ ∀ x ∈ v.spawned, x.id.root = skb.id.root := by
  cases h with
  | left | cloneLeft | given d | cloned d => simp [Skb.child]
  | on skb' hid _ => simp [hid]
  | copyOn skb' c hid _ hc => simp [hid, hc, Skb.child]
  | copyDrop c hc => simp [hc, Skb.child]

theorem root_of_succ (h : Succ (nextPos k s) (spawnedPos k s) p p') :
    p'.1.id.root = p.1.id.root := by
  obtain ⟨-, hnext, hspawned⟩ := (visitAt_shape k s p).roots
  rcases h with h | h
  · obtain ⟨x, hx, rfl⟩ := Option.map_eq_some_iff.1 h
    exact hnext x hx
  · obtain ⟨x, hx, rfl⟩ := List.mem_map.1 h
    exact hspawned x hx

theorem root_of_reach (h : ReflTransGen (Succ (nextPos k s) (spawnedPos k s)) p p') :
    p'.1.id.root = p.1.id.root := by
  induction h with
  | refl => rfl
  | tail _ hs ih => exact (root_of_succ hs).trans ih

/-- What is given away in the end goes back to the packet it started from. -/
theorem root_of_gone {ls : List Pos} (h : Drained (nextPos k s) (spawnedPos k s) [p] ls)
    {x : PktId × Disposal} (hx : x ∈ ls.flatMap fun p => (visitAt k s p).gone) :
    x.1.root = p.1.id.root := by
  obtain ⟨y, hy, hxy⟩ := List.mem_flatMap.1 hx
  obtain ⟨p0, hp0, hreach⟩ := (h.mem_iff y).1 hy
  obtain rfl := List.mem_singleton.1 hp0
  exact ((visitAt_shape k s y).roots.1 x hxy).trans (root_of_reach hreach)

end Roots

/-! ## A part of the walk -/

section Part

variable {s : State} {cpu : Cpu} {dir : PathType}

/-- Fewer packets end in fewer places. -/
theorem Spread.of_sublist {is : List Idp} {bs : List Addr} {ds : List Disposal}
    (h : Spread s cpu dir is bs ds) : ∀ {is' : List Idp}, is'.Sublist is →
      ∃ bs' ds', Spread s cpu dir is' bs' ds' ∧ ds'.Sublist ds := by
  induction h with
  | nil =>
    intro is' hsub
    rw [List.sublist_nil.1 hsub]
    exact ⟨[], [], .nil, .refl _⟩
  | missing h _ ih =>
    intro is' hsub
    rcases List.sublist_cons_iff.1 hsub with hr | ⟨r, rfl, hr⟩
    · obtain ⟨bs', ds', hs, hds⟩ := ih hr
      exact ⟨bs', ds', hs, hds.cons _⟩
    · obtain ⟨bs', ds', hs, hds⟩ := ih hr
      exact ⟨bs', _, .missing h hs, hds.cons_cons _⟩
  | @block i a is as bs cs ds h hexits _ _ ih =>
    intro is' hsub
    rcases List.sublist_cons_iff.1 hsub with hr | ⟨r, rfl, hr⟩
    · obtain ⟨bs', ds', hs, hds⟩ := ih hr
      exact ⟨bs', ds', hs, hds.trans (List.sublist_append_right _ _)⟩
    · obtain ⟨bs', ds', hs, hds⟩ := ih hr
      exact ⟨_, _, .block h hexits hs, hds.append_left _⟩

/-- At one block, packets go on to some of the blocks `is` and end in some of the places `ds`. -/
structure Visit.Within (v : Visit) (dir : PathType) (is : List Idp) (ds : List Disposal) :
    Prop where
  idps : ((v.onward dir).map fun x => readNextIdpFromSkb x.1).Sublist is
  bound : ∀ x ∈ v.onward dir, Bound dir x
  gone : (v.gone.map Prod.snd).Sublist ds

theorem Visit.Goes.within {v : Visit} {is : List Idp} {ds : List Disposal} (h : v.Goes dir is ds) :
    v.Within dir is ds :=
  ⟨h.idps ▸ .refl _, h.bound, h.gone ▸ .refl _⟩

/-- The kernel, with memory for copies and room in the sockets. -/
def Kernel.roomier (k : Kernel) : Kernel :=
  { k with skbCopy := fun _ => true, sockQueueRcvSkb := fun _ _ => true }

theorem within_block (k : Kernel) (hbpf : NoBpf s) {skb : Skb} (hown : skb.users = 1) (a : Addr)
    (dir : PathType) :
    (visit k (s.ops a) (s.idp a) (s.privateData a k.cpu).still skb dir).Within dir
      (exits s k.cpu dir a) (stops s k.cpu dir a) := by
  have hroomy : k.roomier.Roomy := ⟨fun _ => rfl, fun _ _ => rfl⟩
  have hgoes : (visit k.roomier (s.ops a) (s.idp a) (s.privateData a k.cpu).still skb dir).Goes dir
      (exits s k.cpu dir a) (stops s k.cpu dir a) := goes_block hroomy hbpf hown a dir
  have hstill : (s.privateData a k.cpu).still.port = (s.privateData a k.cpu).port := rfl
  cases hops : s.ops a with
  | dummy | counter | eth | ethvlink =>
    rw [hops] at hgoes
    exact hgoes.within
  | bpf => exact absurd hops (hbpf.2 a)
  | tee =>
    rw [hops] at hgoes
    unfold visit at hgoes ⊢
    dsimp only at hgoes ⊢
    split_ifs with hcopy
    · rw [if_pos ⟨hcopy.1, rfl⟩] at hgoes
      exact hgoes.within
    · -- without the copy the packet itself goes its way
      have hforward := goes_forward (s.idp a) (s.privateData a k.cpu).still dir hown
      rw [hstill] at hforward
      refine ⟨?_, hforward.bound, ?_⟩
      · rw [hforward.idps]
        simp [exits, hops, FbType.sink]
      · rw [hforward.gone]
        simp [stops, hops]
  | pflana =>
    have hshared : skbShared skb = false := by simp [skbShared, hown]
    unfold visit Visit.deliver
    dsimp only
    rw [hshared, if_neg (by decide)]
    refine ⟨List.nil_sublist _, fun _ h => absurd h List.not_mem_nil, ?_⟩
    simp only [stops, hops]
    split_ifs
    · exact .refl _
    · exact List.nil_sublist _

/-- What is worked on depth first ends in some of the places that the bindings spread to. -/
theorem sublist_of_walked {k : Kernel} (hbpf : NoBpf s) {q ls : List Pos}
    (h : Walked (nextPos k s) (spawnedPos k s) q ls) : (∀ p ∈ q, Bound dir p) →
      ∀ {is : List Idp} {bs : List Addr} {ds : List Disposal},
        (q.map fun p => readNextIdpFromSkb p.1).Sublist is → Spread s k.cpu dir is bs ds →
          (ls.flatMap fun p => (visitAt k s p).gone.map Prod.snd).Sublist ds := by
  induction h with
  | nil => exact fun _ _ _ _ _ _ => List.nil_sublist _
  | @cons p q as bs hp _ ihp ihq =>
    intro hq is cs ds hsub hspread
    obtain ⟨hidp, rfl, hown⟩ := hq p List.mem_cons_self
    obtain ⟨cs', ds', hspread', hds⟩ := hspread.of_sublist hsub
    refine List.Sublist.trans ?_ hds
    rw [List.cons_append, List.flatMap_cons, List.flatMap_append]
    rcases hspread' with _ | ⟨hmap, hrest⟩ | ⟨hmap, hexits, hrest⟩
    · have hblock : blockAt s p = none := (if_neg hidp).trans hmap
      obtain ⟨hnext, hspawned⟩ := visitAt_of_no_block (k := k) hblock
      unfold nextPos spawnedPos at hp
      rw [hnext, hspawned] at hp
      cases hp
      have hvisit : visitAt k s p = { gone := [(p.1.id, .freed)] } := by
        unfold visitAt
        rw [if_neg hidp, hmap]
      rw [hvisit]
      exact (ihq (fun x hx => hq x (List.mem_cons_of_mem p hx)) (.refl _) hrest).cons_cons _
    · rename_i a _ _ _ _
      have hblock : blockAt s p = some a := blockAt_eq_some.2 ⟨hidp, hmap⟩
      have hwithin := within_block k hbpf hown a p.2
      rw [← visitAt_of_block hblock] at hwithin
      have has := ihp hwithin.bound hwithin.idps hexits
      have hbs := ihq (fun x hx => hq x (List.mem_cons_of_mem p hx)) (.refl _) hrest
      rw [← List.append_assoc]
      exact (hwithin.gone.append has).append hbs

end Part

/-! ## What a send comes to -/

/-- `n d` packets end in the place `d` when one is sent through the port `dir` of `fb`: none if the
port is free, no more than the bindings spread, and all of these with memory and room. -/
structure Delivers (k : Kernel) (s : State) (fb : Addr) (dir : PathType) (n : Disposal → ℕ) :
    Prop where
  free : (s.privateData fb k.cpu).port dir = idpUnknown → ∀ d, n d = 0
  le : ∀ bs ds, Spread s k.cpu dir [(s.privateData fb k.cpu).port dir] bs ds → ∀ d, n d ≤ ds.count d
  eq : k.Roomy → (s.privateData fb k.cpu).port dir ≠ idpUnknown → ∃ bs ds,
    Spread s k.cpu dir [(s.privateData fb k.cpu).port dir] bs ds ∧ ∀ d, n d = ds.count d

/-- The engine has nothing to do. -/
structure Engine.Idle (e : Engine World) : Prop where
  active : e.active = false
  backlog : e.backlog = []

/-- The engine has worked from `e` on to `e'`, without filters, and has given away the packets
`given`, all of them made from the packet with the number `root`. -/
structure Gives (e e' : Engine World) (root : ℕ) (given : List (PktId × Disposal)) : Prop where
  noBpf : NoBpf e'.world.st
  idle : e'.Idle
  ledger : e'.world.ledger = e.world.ledger ++ given
  root : ∀ x ∈ given, x.1.root = root

section Send

variable {k : Kernel} {e e' : Engine World} {fb : Addr} {skb : Skb} {dir : PathType}

/-- The packet as it is sent. -/
theorem drained_of_sendFrom (hbpf : NoBpf e.world.st) (hidle : e.Idle) {n : ℕ} {ret : ℤ}
    (h : sendFrom k n e fb skb dir = some (ret, e')) :
    ∃ ls, Drained (nextPos k e.world.st) (spawnedPos k e.world.st)
        [(writeNextIdpToSkb skb (e.world.st.idp fb) ((e.world.area k fb).port dir), dir)] ls ∧
      Ran k e.world.st ls e e' ∧ e'.Idle := by
  obtain ⟨ls, hd, hran, hb⟩ := processPacket_drained hbpf.filtersKept hidle.active h
  rw [hidle.backlog] at hd
  refine ⟨ls, hd, hran, ?_, hb⟩
  cases n with
  | zero => cases h
  | succ n =>
    unfold sendFrom at h
    rw [processPacket, hidle.active] at h
    obtain ⟨tr, hdone⟩ := pktLoop_completed n h
    exact hdone.active

theorem sendFrom_given (hbpf : NoBpf e.world.st) (hidle : e.Idle) (hown : skb.users = 1) {n : ℕ}
    {ret : ℤ} (h : sendFrom k n e fb skb dir = some (ret, e')) :
    ∃ given, Gives e e' skb.id.root given ∧
      Delivers k e.world.st fb dir fun d => (given.map Prod.snd).count d := by
  obtain ⟨ls, hd, hran, hidle'⟩ := drained_of_sendFrom hbpf hidle h
  refine ⟨_, ⟨hbpf.congr hran.same.registry, hidle', hran.ledger,
    fun x hx => root_of_gone hd hx⟩, ?_⟩
  obtain ⟨ws, hw⟩ := exists_walked hd.ends
  have hperm : ((ls.flatMap fun p => (visitAt k e.world.st p).gone).map Prod.snd).Perm
      (ws.flatMap fun p => (visitAt k e.world.st p).gone.map Prod.snd) := by
    rw [List.map_flatMap]
    exact (hd.perm hw).flatMap_right _
  have hbound : (e.world.area k fb).port dir ≠ idpUnknown →
      ∀ x ∈ [(writeNextIdpToSkb skb (e.world.st.idp fb) ((e.world.area k fb).port dir), dir)],
        Bound dir x := by
    intro hport x hx
    obtain rfl := List.mem_singleton.1 hx
    exact ⟨hport, rfl, hown⟩
  have hfree : (e.world.area k fb).port dir = idpUnknown →
      (ls.flatMap fun p => (visitAt k e.world.st p).gone) = [] := by
    intro hport
    -- the engine does not take the packet to any block
    have hvisit : visitAt k e.world.st
        (writeNextIdpToSkb skb (e.world.st.idp fb) ((e.world.area k fb).port dir), dir) = {} :=
      if_pos hport
    rcases hd with _ | hd
    unfold nextPos spawnedPos at hd
    rw [hvisit] at hd
    cases hd
    rw [List.flatMap_singleton, hvisit]
  refine ⟨fun hport d => ?_, fun bs ds hspread d => ?_, fun hk hport => ?_⟩
  · rw [hfree hport]
    rfl
  · by_cases hport : (e.world.area k fb).port dir = idpUnknown
    · rw [hfree hport]
      exact Nat.zero_le _
    · rw [hperm.count_eq d]
      exact (sublist_of_walked hbpf hw (hbound hport) (.refl _) hspread).count_le d
  · exact ⟨_, _, spread_of_walked hk hbpf hw (hbound hport), hperm.count_eq⟩

end Send

end Lana
