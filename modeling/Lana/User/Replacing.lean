import Lana.User.Effects
import Lana.User.Lifetimes

/-!
# A replacement beside packets

`userctl_replace` while any number of threads process packets.  It holds no lock that a packet
takes, and exchanges the two counts by three accesses: `fblock_migrate_r` reads the count of the
second block, exchanges it for that of the first, and writes that one to the second.  Packets count
and put blocks in between.

1. `Replacing` is the system.  Each access to a count or to `fblmap` is a step of its own.  Names,
   lists and private areas change by several accesses in a step: packets look at none of the first
   two, and may write anything to an area at any time.
2. The steps alone are `userctl_replace` (`userctlReplace_acts`).
3. A packet may do a handful of things (`PacketMove`); none of them touches the tables or the lists.
4. `replace_beside_packets`: beside packets the replacement does to tables and lists what it does
   alone, and the counts are off by the packets that were inside at the three accesses.
5. `replace_safe`: as long as these do not outweigh the other references, nothing that is freed is
   touched.
-/

namespace Lana

open State Interleave

/-! ## The steps of a replacement -/

/-- `struct lananlmsg_replace`, with the outcome of the allocation in `register_fblock`. -/
structure ReplaceMsg where
  name1 : Name
  name2 : Name
  dropPriv : Bool
  al : Alloc

/-- The private areas are exchanged. -/
def ReplaceMsg.exch (m : ReplaceMsg) (s : State) (fb1 fb2 : Addr) : Bool :=
  (s.factory fb1).map Factory.type = (s.factory fb2).map Factory.type ∧ m.dropPriv = false

/-- A step of `userctl_replace`, up to the exchange of the counts and after it; the exchange of a field
of the two blocks is one step. -/
inductive ReplaceAct where
  | get (fb : Addr)
  | put (fb : Addr)
  | unlink (fb : Addr)
  | unname (fb : Addr)
  | swapPriv (dst src : Addr)
  | rename (dst src : Addr)
  | swapNotifiers (dst src : Addr)
  | selfref (fb : Addr)
  | swapSubscribers (dst src : Addr)
  | enter (fb : Addr) (al : Alloc)
  deriving DecidableEq

namespace ReplaceAct

/-- The blocks that are accessed. -/
def fbs : ReplaceAct → List Addr
  | .get fb | .put fb | .unlink fb | .unname fb | .selfref fb | .enter fb _ => [fb]
  | .swapPriv dst src | .rename dst src | .swapNotifiers dst src | .swapSubscribers dst src =>
    [dst, src]

def onState (s : State) : ReplaceAct → State
  | .get fb => getFblock s fb
  | .put fb => putFblock s fb
  | .unlink fb => radixTreeDelete s (s.idp fb)
  | .unname fb => (unregisterFromFblockNamespace s (s.name fb)).2
  | .swapPriv dst src => s.withPriv (swapField s.privateData dst src)
  | .rename dst src =>
    { s with
      idp := Function.update s.idp dst (s.idp src)
      name := Function.update s.name dst (strlcpy (s.name src) fbnamsiz) }
  | .swapNotifiers dst src => { s with notifiers := swapField s.notifiers dst src }
  | .selfref fb => fblockUpdateSelfref s (s.notifiers fb) fb
  | .swapSubscribers dst src => { s with subscribers := swapField s.subscribers dst src }
  | .enter fb al => (registerFblock al s fb (s.idp fb)).2

/-- The variable `ret` after the access. -/
def ret (s : State) (r : Ret) : ReplaceAct → Ret
  | .enter fb al => (registerFblock al s fb (s.idp fb)).1
  | _ => r

/-- The references that the access gives back. -/
def owes : ReplaceAct → Addr → ℤ
  | .put fb => ref fb
  | .get fb => -ref fb
  | _ => 0

end ReplaceAct

/-- `userctl_replace` from `unregister_fblock_namespace_no_rcu` to the exchange of the counts. -/
def beforeActs (fb1 fb2 : Addr) (exch : Bool) : List ReplaceAct :=
  [.unlink fb2, .unname fb2] ++
  (if exch then [.get fb2, .get fb1, .swapPriv fb2 fb1, .put fb2, .put fb1] else []) ++
  [.get fb2, .get fb1, .rename fb2 fb1, .swapNotifiers fb2 fb1, .selfref fb2, .selfref fb1,
    .swapSubscribers fb2 fb1]

/-- From the exchange to the end. -/
def afterActs (fb1 fb2 : Addr) (al : Alloc) : List ReplaceAct :=
  [.put fb2, .put fb1, .unlink fb1, .put fb1, .enter fb2 al, .put fb1, .put fb2]

/-- Where `userctl_replace` stands: at its two lookups, at the test, in the accesses before and after
the exchange, with the count it has read, with the count it has taken; on an early return with the
references it still puts and the one that it forgets. -/
inductive ReplacePc where
  | first
  | second (fb1 : Addr)
  | test (fb1 fb2 : Addr)
  | before (fb1 fb2 : Addr) (acts : List ReplaceAct)
  | read (fb1 fb2 : Addr) (cnt : ℤ)
  | taken (fb1 fb2 : Addr) (cnt : ℤ)
  | after (fb1 fb2 : Addr) (acts : List ReplaceAct) (ret : Ret)
  | refused (fbs lost : List Addr) (ret : Ret)
  deriving DecidableEq

/-- Packets, and one replacement.  `atRead`, `atTake` and `atGive`, the packets inside the block whose
count is read, exchanged and written, are not part of the source. -/
structure Replacing (ι : Type*) where
  base : Traffic ι
  pc : ReplacePc
  atRead : ℕ
  atTake : ℕ
  atGive : ℕ

/-- An access of the replacement. -/
def Traffic.act {ι : Type*} (s : Traffic ι) : ReplaceAct → Traffic ι
  | .put fb => (s.touch fb).put fb
  | a => { a.fbs.foldl Traffic.touch s with st := a.onState s.st }

namespace Replacing

variable {ι : Type*}

def init (s₀ : State) : Replacing ι := ⟨Traffic.init s₀, .first, 0, 0, 0⟩

/-- `search_fblock_n`: only the replacement itself writes to the tables. -/
def search (s : Replacing ι) (name : Name) (none' : ReplacePc) (some' : Addr → ReplacePc) :
    Replacing ι :=
  match s.base.st.lookup name with
  | none => { s with pc := none' }
  | some fb => { s with base := (s.base.touch fb).get fb, pc := some' fb }

variable [Fintype ι]

/-- The next access of the replacement. -/
def go (m : ReplaceMsg) (s : Replacing ι) : Replacing ι :=
  match s.pc with
  | .first =>
    s.search m.name1 (.refused [] [] (.err .EINVAL)) fun fb1 =>
      if s.base.st.factory fb1 = none then .refused [] [fb1] (.err .EINVAL) else .second fb1
  | .second fb1 =>
    s.search m.name2 (.refused [fb1] [] (.err .EINVAL)) fun fb2 =>
      if s.base.st.factory fb2 = none then .refused [fb1] [fb2] (.err .EINVAL) else .test fb1 fb2
  | .test fb1 fb2 =>
    if s.base.st.refcnt fb2 > 2 then
      { s with base := s.base.touch fb2, pc := .refused [fb1, fb2] [] (.err .EBUSY) }
    else
      { s with
        base := s.base.touch fb2
        pc := .before fb1 fb2 (beforeActs fb1 fb2
          (m.exch s.base.st fb1 fb2)) }
  | .before fb1 fb2 (a :: acts) => { s with base := s.base.act a, pc := .before fb1 fb2 acts }
  | .before fb1 fb2 [] =>
    { s with
      base := s.base.touch fb2
      pc := .read fb1 fb2 (s.base.st.refcnt fb2)
      atRead := owed s.base.pc fb2 }
  | .read fb1 fb2 cnt =>
    { s with
      base := { s.base.touch fb1 with
        st := { s.base.st with refcnt := Function.update s.base.st.refcnt fb1 cnt } }
      pc := .taken fb1 fb2 (s.base.st.refcnt fb1)
      atTake := owed s.base.pc fb1 }
  | .taken fb1 fb2 cnt =>
    { s with
      base := { s.base.touch fb2 with
        st := { s.base.st with refcnt := Function.update s.base.st.refcnt fb2 cnt } }
      pc := .after fb1 fb2 (afterActs fb1 fb2 m.al) .ok
      atGive := owed s.base.pc fb2 }
  | .after fb1 fb2 (a :: acts) ret =>
    { s with base := s.base.act a, pc := .after fb1 fb2 acts (a.ret s.base.st ret) }
  | .refused (fb :: fbs) lost ret =>
    { s with base := (s.base.touch fb).put fb, pc := .refused fbs lost ret }
  | .after _ _ [] _ | .refused [] _ _ => s

end Replacing

/-- The replacement goes on, or something happens to the packets. -/
inductive ReplaceStep (ι : Type*) where
  | go
  | packet (step : LifeStep ι)

namespace ReplaceStep

variable {ι : Type*} [Fintype ι] [DecidableEq ι]

def exec (m : ReplaceMsg) (s : Replacing ι) : ReplaceStep ι → Replacing ι
  | .go => s.go m
  | .packet step => { s with base := step.exec s.base }

omit [Fintype ι] in
/-- No thread runs a command of its own, and a callback runs when no thread it waits for is left. -/
def Possible (s : Replacing ι) : ReplaceStep ι → Prop
  | .go => True
  | .packet (.call _ _) => False
  | .packet step => step.Possible s.base

end ReplaceStep

/-- The system after a schedule. -/
def runReplacing {ι : Type*} [Fintype ι] [DecidableEq ι] (s₀ : State) (m : ReplaceMsg)
    (steps : List (ReplaceStep ι)) : Replacing ι :=
  steps.foldl (ReplaceStep.exec m) (Replacing.init s₀)

/-! ## The replacement alone -/

/-- Accesses one after the other, with the variable `ret`. -/
def performActs (x : Ret × State) (acts : List ReplaceAct) : Ret × State :=
  acts.foldl (fun x a => (a.ret x.2 x.1, a.onState x.2)) x

/-- The exchange of the counts with nothing in between. -/
def State.swapCounts (s : State) (fb1 fb2 : Addr) : State :=
  { s with
    refcnt := Function.update (Function.update s.refcnt fb1 (s.refcnt fb2)) fb2 (s.refcnt fb1) }

/-- What is left of a replacement after the test, with nothing in between. -/
def replaceRest (m : ReplaceMsg) (fb1 fb2 : Addr) (acts : List ReplaceAct) (s : State) :
    Ret × State :=
  performActs (.ok, (acts.foldl ReplaceAct.onState s).swapCounts fb1 fb2) (afterActs fb1 fb2 m.al)

/-- The accesses in their order are `userctl_replace`. -/
theorem userctlReplace_acts {s : State} {m : ReplaceMsg} {fb1 fb2 : Addr}
    (h1 : s.lookup m.name1 = some fb1) (hf1 : s.factory fb1 ≠ none)
    (h2 : s.lookup m.name2 = some fb2) (hf2 : s.factory fb2 ≠ none)
    (hcnt : (getFblock (getFblock s fb1) fb2).refcnt fb2 ≤ 2) :
    userctlReplace m.al s m.name1 m.name2 m.dropPriv =
      replaceRest m fb1 fb2 (beforeActs fb1 fb2 (m.exch s fb1 fb2))
        (getFblock (getFblock s fb1) fb2) := by
  obtain ⟨f1, hf1⟩ := Option.ne_none_iff_exists'.1 hf1
  obtain ⟨f2, hf2⟩ := Option.ne_none_iff_exists'.1 hf2
  have hs1 : searchFblockN s m.name1 = (some fb1, getFblock s fb1) := by
    rw [searchFblockN_some h1, getFblock_eq]
  have hs2 : searchFblockN (getFblock s fb1) m.name2 =
      (some fb2, getFblock (getFblock s fb1) fb2) := by
    have hl : (getFblock s fb1).lookup m.name2 = some fb2 := h2
    rw [searchFblockN_some hl, getFblock_eq (getFblock s fb1)]
  have hg1 : (getFblock s fb1).factory fb1 = some f1 := hf1
  have hg2 : (getFblock (getFblock s fb1) fb2).factory fb2 = some f2 := hf2
  have hexch : m.exch s fb1 fb2 = decide (f1.type = f2.type ∧ m.dropPriv = false) := by
    unfold ReplaceMsg.exch
    simp only [hf1, hf2, Option.map_some, Option.some.injEq]
  unfold userctlReplace
  simp only [hs1, hs2, hg1, hg2, if_neg (not_lt.2 hcnt)]
  rw [hexch]
  by_cases hx : f1.type = f2.type ∧ m.dropPriv = false
  · rw [if_pos hx, decide_eq_true hx]
    rfl
  · rw [if_neg hx, decide_eq_false hx]
    rfl

/-! ## What packets do -/

/-- The thread processes packets. -/
def LifePc.OfPacket : LifePc → Prop
  | .idle | .next | .found _ | .inside _ => True
  | .mapping _ | .indexing _ | .fetched _ | .test _ | .remove _ | .unname _ | .puts _ _ => False

/-- All that happens when threads process packets. -/
inductive PacketMove {ι : Type*} [DecidableEq ι] (s : Traffic ι) : Traffic ι → Prop where
  | stay : PacketMove s s
  | stroll {i : ι} {p : LifePc} (hold : (s.pc i).refs = []) (hp : p = .idle ∨ p = .next) :
      PacketMove s (s.goto i p)
  | load {i : ι} {idp : Idp} {fb : Addr} (hold : (s.pc i).refs = [])
      (hmap : s.st.fblmap idp = some fb) : PacketMove s (s.goto i (.found fb))
  | count {i : ι} {fb : Addr} (hpc : s.pc i = .found fb) (r : List Addr) :
      PacketMove s { ((s.touch fb).get fb).goto i (.inside fb) with regained := r }
  | rx {i : ι} {fb : Addr} (hpc : s.pc i = .inside fb) (pd : Addr → Cpu → Priv) :
      PacketMove s { s.touch fb with st := s.st.withPriv pd }
  | leave {i : ι} {fb : Addr} (hpc : s.pc i = .inside fb) :
      PacketMove s (((s.touch fb).put fb).goto i .next)
  | callback {n : ℕ} {fb : Addr} {w : ι → Bool} (hn : s.waiting[n]? = some (fb, w))
      (hnone : ∀ i, w i = false) : PacketMove s (s.freeFblockRcu n fb)

section Packets

variable {ι : Type*} [DecidableEq ι] {s s' : Traffic ι}

/-- The one inversion of the steps of packets. -/
theorem packetMove (hp : ∀ i, (s.pc i).OfPacket) {step : LifeStep ι}
    (hcall : ∀ i name, step ≠ .call i name) (hok : step.Possible s) :
    PacketMove s (step.exec s) := by
  cases step with
  | packet i =>
    rw [LifeStep.exec]
    split
    · next hpc => exact .stroll (by rw [hpc]; rfl) (.inr rfl)
    · exact .stay
  | lookup i idp =>
    rw [LifeStep.exec]
    split
    · next hpc hmap => exact .load (by rw [hpc]; rfl) hmap
    · exact .stay
  | rx i area =>
    rw [LifeStep.exec]
    split
    · next fb hpc => exact .rx hpc _
    · exact .stay
  | done i =>
    rw [LifeStep.exec]
    split
    · next hpc => exact .stroll (by rw [hpc]; rfl) (.inl rfl)
    · exact .stay
  | call i name => exact absurd rfl (hcall i name)
  | go i =>
    have hi := hp i
    rw [LifeStep.exec]
    cases hpc : s.pc i with
    | idle =>
      simp only [Traffic.go, hpc]
      exact .stay
    | next =>
      simp only [Traffic.go, hpc]
      exact .stay
    | found fb =>
      simp only [Traffic.go, hpc]
      split_ifs
      · exact .count hpc _
      · exact .count hpc s.regained
    | inside fb =>
      simp only [Traffic.go, hpc]
      exact .leave hpc
    | mapping _ | indexing _ | fetched _ | test _ | remove _ | unname _ | puts _ _ =>
      rw [hpc] at hi
      exact hi.elim
  | callback n =>
    obtain ⟨fb, w, hn, hnone⟩ := hok
    simp only [LifeStep.exec, hn]
    exact .callback hn hnone

omit [DecidableEq ι] in
theorem count_cons_ref (fb : Addr) (fbs : List Addr) (b : Addr) :
    ((fb :: fbs).count b : ℤ) = ref fb b + fbs.count b := by
  rw [ref_apply]
  by_cases h : b = fb
  · subst h
    rw [if_pos rfl, List.count_cons_self]
    push_cast
    ring
  · rw [if_neg h, List.count_cons_of_ne (Ne.symm h), zero_add]

namespace PacketMove

theorem ofPacket (h : PacketMove s s') (hp : ∀ i, (s.pc i).OfPacket) (i : ι) :
    (s'.pc i).OfPacket := by
  have hupdate : ∀ (j : ι) {p : LifePc}, p.OfPacket → (Function.update s.pc j p i).OfPacket := by
    intro j p hpj
    by_cases hij : i = j
    · subst hij
      rwa [Function.update_self]
    · rw [Function.update_of_ne hij]
      exact hp i
  cases h with
  | stay | rx _ _ | callback _ _ => exact hp i
  | stroll _ h =>
    apply hupdate
    rcases h with rfl | rfl <;> trivial
  | load _ _ | count _ _ | leave _ => exact hupdate _ trivial

/-- Packets leave the tables and the lists alone. -/
theorem shape (h : PacketMove s s') :
    s'.st.registry = s.st.registry ∧ s'.st.lists = s.st.lists := by
  cases h with
  | stay | stroll _ _ | load _ _ | count _ _ | rx _ _ | callback _ _ => exact ⟨rfl, rfl⟩
  | leave _ => exact ⟨registry_putFblock .., lists_putFblock ..⟩

/-- A count moves with the packets that are inside. -/
theorem counts [Fintype ι] (h : PacketMove s s') {held : Addr → ℤ}
    (hc : ∀ b, s.st.refcnt b = held b + owed s.pc b) (b : Addr) :
    s'.st.refcnt b = held b + owed s'.pc b := by
  have hb := hc b
  cases h with
  | stay | rx _ _ | callback _ _ => exact hb
  | @stroll i p hold hp =>
    have hmove := owed_update s.pc i p b
    have hrefs : p.refs = [] := by rcases hp with rfl | rfl <;> rfl
    rw [hold, hrefs] at hmove
    show s.st.refcnt b = held b + owed (Function.update s.pc i p) b
    rw [List.count_nil] at hmove
    omega
  | @load i idp fb hold hmap =>
    have hmove := owed_update s.pc i (.found fb) b
    rw [hold] at hmove
    show s.st.refcnt b = held b + owed (Function.update s.pc i (.found fb)) b
    simp only [LifePc.refs, List.count_nil] at hmove
    omega
  | @count i fb hpc r =>
    have hmove := owed_update s.pc i (.inside fb) b
    rw [hpc] at hmove
    show (getFblock s.st fb).refcnt b = held b + owed (Function.update s.pc i (.inside fb)) b
    have hone : (([fb].count b : ℕ) : ℤ) = ref fb b + 0 := count_cons_ref fb [] b
    rw [getFblock_eq, addRefs_refcnt]
    simp only [LifePc.refs, List.count_nil] at hmove
    omega
  | @leave i fb hpc =>
    have hmove := owed_update s.pc i .next b
    rw [hpc] at hmove
    show (putFblock s.st fb).refcnt b = held b + owed (Function.update s.pc i .next) b
    have hone : (([fb].count b : ℕ) : ℤ) = ref fb b + 0 := count_cons_ref fb [] b
    rw [refcnt_putFblock, Pi.sub_apply]
    simp only [LifePc.refs, List.count_nil] at hmove
    omega

end PacketMove

end Packets

/-! ## Counts -/

/-- The references that accesses give back. -/
def owes (acts : List ReplaceAct) (b : Addr) : ℤ := (acts.map fun a => a.owes b).sum

theorem owes_cons (a : ReplaceAct) (acts : List ReplaceAct) (b : Addr) :
    owes (a :: acts) b = a.owes b + owes acts b := by
  unfold owes
  rw [List.map_cons, List.sum_cons]

theorem owes_before (fb1 fb2 : Addr) (exch : Bool) (b : Addr) :
    owes (beforeActs fb1 fb2 exch) b = -ref fb1 b - ref fb2 b := by
  unfold owes beforeActs
  cases exch
  · simp [ReplaceAct.owes]
    ring
  · simp [ReplaceAct.owes]
    ring

theorem owes_after (fb1 fb2 : Addr) (al : Alloc) (b : Addr) :
    owes (afterActs fb1 fb2 al) b = 3 * ref fb1 b + 2 * ref fb2 b := by
  unfold owes afterActs
  simp [ReplaceAct.owes]
  ring

/-- An access changes a count by the references it takes or gives back. -/
theorem refcnt_onState (s : State) (a : ReplaceAct) (b : Addr) :
    (a.onState s).refcnt b = s.refcnt b - a.owes b := by
  cases a with
  | get fb =>
    show (getFblock s fb).refcnt b = s.refcnt b - -ref fb b
    rw [getFblock_eq, addRefs_refcnt, sub_neg_eq_add]
  | put fb =>
    show (putFblock s fb).refcnt b = s.refcnt b - ref fb b
    rw [refcnt_putFblock, Pi.sub_apply]
  | unname fb =>
    show (unregisterFromFblockNamespace s (s.name fb)).2.refcnt b = s.refcnt b - 0
    obtain ⟨t, ht⟩ := unregisterFrom_frame s (s.name fb)
    rw [ht, sub_zero]
  | selfref fb =>
    show (fblockUpdateSelfref s (s.notifiers fb) fb).refcnt b = s.refcnt b - 0
    rw [updateSelfref_eq, sub_zero]
  | enter fb al =>
    show (registerFblock al s fb (s.idp fb)).2.refcnt b = s.refcnt b - 0
    rw [sub_zero]
    unfold registerFblock radixTreeInsert
    split_ifs <;> rfl
  | unlink fb | swapPriv dst src | rename dst src | swapNotifiers dst src
  | swapSubscribers dst src => exact (sub_zero _).symm

/-- Two states with the same tables and the same lists. -/
def State.Same (s t : State) : Prop := s.registry = t.registry ∧ s.lists = t.lists

namespace State.Same

variable {s t : State}

theorem exists_eq (h : s.Same t) : ∃ pd rc nc pn rl, t = { s with
    privateData := pd, refcnt := rc, notifierCall := nc, panicked := pn, released := rl } := by
  obtain ⟨hr, hl⟩ := h
  cases s
  cases t
  simp only [State.registry, State.lists, Registry.mk.injEq, Lists.mk.injEq] at hr hl
  obtain ⟨rfl, rfl, rfl, rfl, rfl, rfl, rfl, rfl, rfl, rfl⟩ := hr
  obtain ⟨rfl, rfl, rfl, rfl, rfl⟩ := hl
  exact ⟨_, _, _, _, _, rfl⟩

/-- What an access does to the tables and the lists depends on these alone. -/
theorem onState (h : s.Same t) (a : ReplaceAct) : (a.onState s).Same (a.onState t) := by
  obtain ⟨pd, rc, nc, pn, rl, rfl⟩ := h.exists_eq
  cases a with
  | put fb =>
    unfold ReplaceAct.onState State.Same
    rw [registry_putFblock, registry_putFblock, lists_putFblock, lists_putFblock]
    exact ⟨rfl, rfl⟩
  | selfref fb =>
    simp only [ReplaceAct.onState, updateSelfref_eq]
    exact ⟨rfl, rfl⟩
  | unname fb =>
    simp only [ReplaceAct.onState, unregisterFromFblockNamespace]
    split <;> exact ⟨rfl, rfl⟩
  | enter fb al =>
    simp only [ReplaceAct.onState, registerFblock, radixTreeInsert]
    split_ifs <;> exact ⟨rfl, rfl⟩
  | get fb | swapPriv dst src | unlink fb | rename dst src | swapNotifiers dst src
  | swapSubscribers dst src => exact ⟨rfl, rfl⟩

theorem ret (h : s.Same t) (a : ReplaceAct) (r : Ret) : a.ret s r = a.ret t r := by
  obtain ⟨pd, rc, nc, pn, rl, rfl⟩ := h.exists_eq
  cases a with
  | enter fb al =>
    simp only [ReplaceAct.ret, registerFblock, radixTreeInsert]
    split_ifs <;> rfl
  | get _ | put _ | unlink _ | unname _ | swapPriv _ _ | rename _ _ | swapNotifiers _ _
  | selfref _ | swapSubscribers _ _ => rfl

end State.Same

theorem act_st {ι : Type*} (s : Traffic ι) (a : ReplaceAct) : (s.act a).st = a.onState s.st := by
  cases a <;> rfl

theorem act_pc {ι : Type*} (s : Traffic ι) (a : ReplaceAct) : (s.act a).pc = s.pc := by
  cases a <;> rfl

/-! ## The course of a replacement -/

/-- The two blocks that a replacement has passed the test with. -/
structure Chosen (s₀ : State) (m : ReplaceMsg) (fb1 fb2 : Addr) : Prop where
  lookup1 : s₀.lookup m.name1 = some fb1
  factory1 : s₀.factory fb1 ≠ none
  lookup2 : s₀.lookup m.name2 = some fb2
  factory2 : s₀.factory fb2 ≠ none
  ne : fb1 ≠ fb2
  alone : s₀.refcnt fb2 = 1

namespace Replacing

variable {ι : Type*}

/-- The references to a block that are not those of packets, once the counts are exchanged. -/
def standing (s₀ : State) (s : Replacing ι) (fb1 fb2 b : Addr) : ℤ :=
  if b = fb1 then s.atRead - s.atTake
  else if b = fb2 then s₀.refcnt fb1 + s.atTake - s.atGive
  else s₀.refcnt b

/-- The references to a block that are not those of packets. -/
def held (s₀ : State) (s : Replacing ι) (b : Addr) : ℤ :=
  match s.pc with
  | .first => s₀.refcnt b
  | .second fb1 => s₀.refcnt b + ref fb1 b
  | .test fb1 fb2 => s₀.refcnt b + ref fb1 b + ref fb2 b
  | .before fb1 fb2 acts => s₀.refcnt b + 2 * ref fb1 b + 2 * ref fb2 b + owes acts b
  | .read fb1 fb2 _ => s₀.refcnt b + 2 * ref fb1 b + 2 * ref fb2 b
  | .taken fb1 fb2 _ =>
    if b = fb1 then s.atRead - s.atTake + 3 else s₀.refcnt b + 2 * ref fb2 b
  | .after fb1 fb2 acts _ => s.standing s₀ fb1 fb2 b + owes acts b
  | .refused fbs lost _ => s₀.refcnt b + fbs.count b + lost.count b

/-- From `t` on, the accesses that are left lead where `userctl_replace` leads. -/
def Plan (s₀ : State) (m : ReplaceMsg) (s : Replacing ι) (t : State) : Prop :=
  match s.pc with
  | .first => t = s₀
  | .second fb1 => t = s₀ ∧ s₀.lookup m.name1 = some fb1 ∧ s₀.factory fb1 ≠ none
  | .test fb1 fb2 =>
    t = s₀ ∧ (s₀.lookup m.name1 = some fb1 ∧ s₀.factory fb1 ≠ none) ∧
      s₀.lookup m.name2 = some fb2 ∧ s₀.factory fb2 ≠ none
  | .before fb1 fb2 acts =>
    Chosen s₀ m fb1 fb2 ∧
      replaceRest m fb1 fb2 acts t = userctlReplace m.al s₀ m.name1 m.name2 m.dropPriv
  | .read fb1 fb2 cnt =>
    Chosen s₀ m fb1 fb2 ∧ cnt = 3 + s.atRead ∧
      replaceRest m fb1 fb2 [] t = userctlReplace m.al s₀ m.name1 m.name2 m.dropPriv
  | .taken fb1 fb2 cnt =>
    Chosen s₀ m fb1 fb2 ∧ cnt = s₀.refcnt fb1 + 2 + s.atTake ∧
      replaceRest m fb1 fb2 [] t = userctlReplace m.al s₀ m.name1 m.name2 m.dropPriv
  | .after fb1 fb2 acts ret =>
    Chosen s₀ m fb1 fb2 ∧
      performActs (ret, t) acts = userctlReplace m.al s₀ m.name1 m.name2 m.dropPriv
  | .refused _ lost _ => t = s₀ ∧ ∀ b ∈ lost, s₀.factory b = none

/-- Threads process packets, the counts are accounted for, and the tables and lists are those of the
replacement on its own. -/
structure Underway [Fintype ι] (s₀ : State) (m : ReplaceMsg) (s : Replacing ι) : Prop where
  packets : ∀ i, (s.base.pc i).OfPacket
  count : ∀ b, s.base.st.refcnt b = s.held s₀ b + owed s.base.pc b
  course : ∃ t, s.base.st.Same t ∧ s.Plan s₀ m t

namespace Underway

variable [Fintype ι] {s₀ : State} {m : ReplaceMsg} {s : Replacing ι} {fb1 fb2 : Addr}

theorem init (s₀ : State) (m : ReplaceMsg) : Underway s₀ m (Replacing.init s₀ : Replacing ι) where
  packets := fun _ => trivial
  count := fun b => by
    show s₀.refcnt b = s₀.refcnt b + owed (fun _ : ι => .idle) b
    rw [owed_idle (fun _ => rfl), Nat.cast_zero, add_zero]
  course := ⟨s₀, ⟨rfl, rfl⟩, rfl⟩

theorem packet [DecidableEq ι] (h : Underway s₀ m s) {step : LifeStep ι}
    (hcall : ∀ i name, step ≠ .call i name) (hok : step.Possible s.base) :
    Underway s₀ m { s with base := step.exec s.base } := by
  have hmove := packetMove h.packets hcall hok
  obtain ⟨hr, hl⟩ := hmove.shape
  obtain ⟨t, ht, hplan⟩ := h.course
  exact ⟨hmove.ofPacket h.packets, hmove.counts h.count, t, ⟨hr.trans ht.1, hl.trans ht.2⟩, hplan⟩

/-- A lookup, with what is made of its outcome. -/
theorem search (h : Underway s₀ m s) {t : State} (ht : s.base.st.Same t) (name : Name)
    {none' : ReplacePc} {some' : Addr → ReplacePc}
    (hnone : ∀ b, ({ s with pc := none' } : Replacing ι).held s₀ b = s.held s₀ b)
    (hsome : ∀ fb b, t.lookup name = some fb →
      ({ s with pc := some' fb } : Replacing ι).held s₀ b = s.held s₀ b + ref fb b)
    (hnone' : ({ s with pc := none' } : Replacing ι).Plan s₀ m t)
    (hsome' : ∀ fb, t.lookup name = some fb → ({ s with pc := some' fb } : Replacing ι).Plan s₀ m t) :
    Underway s₀ m (s.search name none' some') := by
  have hlookup : s.base.st.lookup name = t.lookup name := by
    obtain ⟨pd, rc, nc, pn, rl, rfl⟩ := ht.exists_eq
    rfl
  unfold Replacing.search
  rw [hlookup]
  cases hl : t.lookup name with
  | none => exact ⟨h.packets, fun b => by rw [hnone]; exact h.count b, t, ht, hnone'⟩
  | some fb =>
    refine ⟨h.packets, fun b => ?_, t, ht, hsome' fb hl⟩
    have hc := h.count b
    have hheld := hsome fb b hl
    show (getFblock s.base.st fb).refcnt b = Replacing.held s₀ { s with pc := some' fb } b + _
    rw [getFblock_eq, addRefs_refcnt]
    show s.base.st.refcnt b + ref fb b = Replacing.held s₀ { s with pc := some' fb } b + owed s.base.pc b
    omega

theorem go_first (h : Underway s₀ m s) (hpc : s.pc = .first) : Underway s₀ m (s.go m) := by
  obtain ⟨t, ht, hplan⟩ := h.course
  simp only [Plan, hpc] at hplan
  subst hplan
  have hfac : s.base.st.factory = t.factory := congrArg Registry.factory ht.1
  simp only [Replacing.go, hpc, hfac]
  refine h.search ht m.name1 (fun b => ?_) (fun fb b _ => ?_) ⟨rfl, by simp⟩ fun fb hl => ?_
  · simp [held, hpc]
  · by_cases hf : t.factory fb = none
    · simp [held, hpc, hf, count_cons_ref]
    · simp [held, hpc, hf]
  · by_cases hf : t.factory fb = none
    · simp [Plan, hf]
    · simpa [Plan, hf] using hl

theorem go_second (h : Underway s₀ m s) (hpc : s.pc = .second fb1) : Underway s₀ m (s.go m) := by
  obtain ⟨t, ht, hplan⟩ := h.course
  simp only [Plan, hpc] at hplan
  obtain ⟨rfl, hfb1⟩ := hplan
  have hfac : s.base.st.factory = t.factory := congrArg Registry.factory ht.1
  simp only [Replacing.go, hpc, hfac]
  refine h.search ht m.name2 (fun b => ?_) (fun fb b _ => ?_) ⟨rfl, by simp⟩ fun fb hl => ?_
  · simp [held, hpc, count_cons_ref]
  · by_cases hf : t.factory fb = none
    · simp [held, hpc, hf, count_cons_ref]
    · simp [held, hpc, hf]
  · by_cases hf : t.factory fb = none
    · simp [Plan, hf]
    · simpa [Plan, hf] using ⟨hfb1, hl⟩

theorem go_test (h : Underway s₀ m s) (hr : Started s₀) (hpc : s.pc = .test fb1 fb2) :
    Underway s₀ m (s.go m) := by
  obtain ⟨t, ht, hplan⟩ := h.course
  simp only [Plan, hpc] at hplan
  obtain ⟨rfl, ⟨hl1, hf1⟩, hl2, hf2⟩ := hplan
  have hc : ∀ b, s.base.st.refcnt b = t.refcnt b + ref fb1 b + ref fb2 b + owed s.base.pc b := by
    intro b
    have := h.count b
    simpa only [held, hpc] using this
  simp only [Replacing.go, hpc]
  split_ifs with hbusy
  · refine ⟨h.packets, fun b => ?_, t, ht, rfl, by simp⟩
    show s.base.st.refcnt b = t.refcnt b + ([fb1, fb2].count b : ℕ) + ([].count b : ℕ) + _
    rw [hc b, count_cons_ref, count_cons_ref, List.count_nil, Nat.cast_zero]
    show _ = _ + (owed s.base.pc b : ℤ)
    ring
  · -- the two references of the replacement and that of the tables
    have hcnt := hc fb2
    have hpos1 := (hr _ _ hl1).2
    have hpos2 := (hr _ _ hl2).2
    have hne : fb1 ≠ fb2 := by
      rintro rfl
      rw [ref_self] at hcnt
      omega
    have hone : t.refcnt fb2 = 1 := by
      rw [ref_self, ref_of_ne hne.symm] at hcnt
      omega
    have hchosen : Chosen t m fb1 fb2 := ⟨hl1, hf1, hl2, hf2, hne, hone⟩
    have hexch : m.exch s.base.st fb1 fb2 = m.exch t fb1 fb2 := by
      obtain ⟨pd, rc, nc, pn, rl, rfl⟩ := ht.exists_eq
      rfl
    refine ⟨h.packets, fun b => ?_, getFblock (getFblock t fb1) fb2, ht, hchosen, ?_⟩
    · show s.base.st.refcnt b = t.refcnt b + 2 * ref fb1 b + 2 * ref fb2 b + owes _ b + _
      rw [owes_before, hc b]
      show _ = _ + (owed s.base.pc b : ℤ)
      ring
    · rw [hexch]
      refine (userctlReplace_acts hl1 hf1 hl2 hf2 ?_).symm
      rw [getFblock_eq, getFblock_eq, addRefs_refcnt, addRefs_refcnt, ref_self,
        ref_of_ne hne.symm, hone]
      norm_num

theorem go_before (h : Underway s₀ m s) {a : ReplaceAct} {acts : List ReplaceAct}
    (hpc : s.pc = .before fb1 fb2 (a :: acts)) : Underway s₀ m (s.go m) := by
  obtain ⟨t, ht, hplan⟩ := h.course
  simp only [Plan, hpc] at hplan
  obtain ⟨hchosen, hrest⟩ := hplan
  simp only [Replacing.go, hpc]
  refine ⟨fun i => ?_, fun b => ?_, a.onState t, ?_, hchosen, ?_⟩
  · rw [act_pc]
    exact h.packets i
  · have hc := h.count b
    simp only [held, hpc, owes_cons] at hc ⊢
    rw [act_st, act_pc, refcnt_onState]
    omega
  · rw [act_st]
    exact ht.onState a
  · exact hrest

theorem go_read (h : Underway s₀ m s) (hpc : s.pc = .before fb1 fb2 []) :
    Underway s₀ m (s.go m) := by
  obtain ⟨t, ht, hplan⟩ := h.course
  simp only [Plan, hpc] at hplan
  obtain ⟨hchosen, hrest⟩ := hplan
  simp only [Replacing.go, hpc]
  refine ⟨h.packets, fun b => ?_, t, ht, hchosen, ?_, hrest⟩
  · have hc := h.count b
    simp only [held, hpc, owes, List.map_nil, List.sum_nil, add_zero] at hc
    exact hc
  · have hc := h.count fb2
    simp only [held, hpc, owes, List.map_nil, List.sum_nil, add_zero, ref_self,
      ref_of_ne hchosen.ne.symm, hchosen.alone] at hc
    rw [hc]
    ring

theorem go_take (h : Underway s₀ m s) {cnt : ℤ} (hpc : s.pc = .read fb1 fb2 cnt) :
    Underway s₀ m (s.go m) := by
  obtain ⟨t, ht, hplan⟩ := h.course
  simp only [Plan, hpc] at hplan
  obtain ⟨hchosen, hcnt, hrest⟩ := hplan
  simp only [Replacing.go, hpc]
  refine ⟨h.packets, fun b => ?_, t, ht, hchosen, ?_, hrest⟩
  · have hc := h.count b
    simp only [held, hpc] at hc ⊢
    show Function.update s.base.st.refcnt fb1 cnt b = _ + (owed s.base.pc b : ℤ)
    by_cases hb : b = fb1
    · subst hb
      rw [Function.update_self, if_pos rfl, hcnt]
      ring
    · rw [Function.update_of_ne hb, if_neg hb, hc, ref_of_ne hb]
      ring
  · have hc := h.count fb1
    simp only [held, hpc, ref_self, ref_of_ne hchosen.ne] at hc
    rw [hc]
    ring

theorem go_give (h : Underway s₀ m s) {cnt : ℤ} (hpc : s.pc = .taken fb1 fb2 cnt) :
    Underway s₀ m (s.go m) := by
  obtain ⟨t, ht, hplan⟩ := h.course
  simp only [Plan, hpc] at hplan
  obtain ⟨hchosen, hcnt, hrest⟩ := hplan
  simp only [Replacing.go, hpc]
  refine ⟨h.packets, fun b => ?_, t.swapCounts fb1 fb2, ht, hchosen, hrest⟩
  have hc := h.count b
  simp only [held, hpc] at hc ⊢
  show Function.update s.base.st.refcnt fb2 cnt b = _ + (owed s.base.pc b : ℤ)
  rw [owes_after]
  unfold standing
  by_cases hb2 : b = fb2
  · subst hb2
    rw [Function.update_self, if_neg hchosen.ne.symm, if_pos rfl, ref_self,
      ref_of_ne hchosen.ne.symm, hcnt]
    dsimp only
    ring
  · rw [Function.update_of_ne hb2, hc]
    by_cases hb1 : b = fb1
    · subst hb1
      rw [if_pos rfl, if_pos rfl, ref_self, ref_of_ne hb2]
      ring
    · rw [if_neg hb1, if_neg hb1, if_neg hb2, ref_of_ne hb1, ref_of_ne hb2]
      ring

theorem go_after (h : Underway s₀ m s) {a : ReplaceAct} {acts : List ReplaceAct} {ret : Ret}
    (hpc : s.pc = .after fb1 fb2 (a :: acts) ret) : Underway s₀ m (s.go m) := by
  obtain ⟨t, ht, hplan⟩ := h.course
  simp only [Plan, hpc] at hplan
  obtain ⟨hchosen, hrest⟩ := hplan
  simp only [Replacing.go, hpc]
  refine ⟨fun i => ?_, fun b => ?_, a.onState t, ?_, hchosen, ?_⟩
  · rw [act_pc]
    exact h.packets i
  · have hc := h.count b
    simp only [held, hpc, owes_cons] at hc ⊢
    rw [act_st, act_pc, refcnt_onState, hc]
    unfold standing
    dsimp only
    ring
  · rw [act_st]
    exact ht.onState a
  · rw [ht.ret]
    exact hrest

theorem go_refused (h : Underway s₀ m s) {fb : Addr} {fbs lost : List Addr} {ret : Ret}
    (hpc : s.pc = .refused (fb :: fbs) lost ret) : Underway s₀ m (s.go m) := by
  obtain ⟨t, ht, hplan⟩ := h.course
  simp only [Plan, hpc] at hplan
  simp only [Replacing.go, hpc]
  refine ⟨h.packets, fun b => ?_, t, ?_, hplan⟩
  · have hc := h.count b
    simp only [held, hpc, count_cons_ref] at hc ⊢
    show (putFblock s.base.st fb).refcnt b = _ + (owed s.base.pc b : ℤ)
    rw [refcnt_putFblock, Pi.sub_apply, hc]
    ring
  · exact ⟨(registry_putFblock ..).trans ht.1, (lists_putFblock ..).trans ht.2⟩

/-- **Step.** -/
theorem go (h : Underway s₀ m s) (hr : Started s₀) : Underway s₀ m (s.go m) := by
  cases hpc : s.pc with
  | first => exact h.go_first hpc
  | second fb1 => exact h.go_second hpc
  | test fb1 fb2 => exact h.go_test hr hpc
  | before fb1 fb2 acts =>
    cases acts with
    | nil => exact h.go_read hpc
    | cons a acts => exact h.go_before hpc
  | read fb1 fb2 cnt => exact h.go_take hpc
  | taken fb1 fb2 cnt => exact h.go_give hpc
  | after fb1 fb2 acts ret =>
    cases acts with
    | nil =>
      simp only [Replacing.go, hpc]
      exact h
    | cons a acts => exact h.go_after hpc
  | refused fbs lost ret =>
    cases fbs with
    | nil =>
      simp only [Replacing.go, hpc]
      exact h
    | cons fb fbs => exact h.go_refused hpc

end Underway

end Replacing

/-! ## Schedules -/

section Schedules

variable {ι : Type*} [Fintype ι] [DecidableEq ι] {s₀ : State} {m : ReplaceMsg}

/-- The accesses that are left. -/
def ReplacePc.left : ReplacePc → ℕ
  | .first => 27
  | .second _ => 26
  | .test _ _ => 25
  | .before _ _ acts => acts.length + 10
  | .read _ _ _ => 9
  | .taken _ _ _ => 8
  | .after _ _ acts _ => acts.length
  | .refused fbs _ _ => fbs.length

def ReplaceStep.isGo : ReplaceStep ι → Bool
  | .go => true
  | .packet _ => false

omit [DecidableEq ι] in
theorem left_go (m : ReplaceMsg) (s : Replacing ι) : (s.go m).pc.left ≤ s.pc.left - 1 := by
  cases hpc : s.pc with
  | first =>
    simp only [Replacing.go, hpc, Replacing.search]
    split
    · simp [ReplacePc.left]
    · dsimp only
      split_ifs <;> simp [ReplacePc.left]
  | second fb1 =>
    simp only [Replacing.go, hpc, Replacing.search]
    split
    · simp [ReplacePc.left]
    · dsimp only
      split_ifs <;> simp [ReplacePc.left]
  | test fb1 fb2 =>
    simp only [Replacing.go, hpc]
    split_ifs
    · simp [ReplacePc.left]
    · cases m.exch s.base.st fb1 fb2 <;> simp [ReplacePc.left, beforeActs]
  | before fb1 fb2 acts => cases acts <;> simp [Replacing.go, hpc, ReplacePc.left]
  | read fb1 fb2 cnt => simp [Replacing.go, hpc, ReplacePc.left]
  | taken fb1 fb2 cnt => simp [Replacing.go, hpc, ReplacePc.left, afterActs]
  | after fb1 fb2 acts ret => cases acts <;> simp [Replacing.go, hpc, ReplacePc.left]
  | refused fbs lost ret => cases fbs <;> simp [Replacing.go, hpc, ReplacePc.left]

/-- A replacement ends, whatever packets do. -/
theorem left_run (m : ReplaceMsg) (steps : List (ReplaceStep ι)) : ∀ s : Replacing ι,
    (steps.foldl (ReplaceStep.exec m) s).pc.left ≤ s.pc.left - steps.countP ReplaceStep.isGo := by
  induction steps with
  | nil => exact fun s => Nat.le_refl _
  | cons step steps ih =>
    intro s
    have hrest := ih (step.exec m s)
    rw [List.foldl_cons, List.countP_cons]
    cases step with
    | go =>
      have hgo : (ReplaceStep.exec m s .go).pc.left ≤ s.pc.left - 1 := left_go m s
      have hone : (if (ReplaceStep.go : ReplaceStep ι).isGo = true then 1 else 0) = 1 := rfl
      omega
    | packet step =>
      rw [if_neg (by simp [ReplaceStep.isGo])]
      exact hrest

omit [Fintype ι] [DecidableEq ι] in
theorem ReplaceStep.possible_packet {s : Replacing ι} {step : LifeStep ι}
    (h : (ReplaceStep.packet step).Possible s) :
    (∀ i name, step ≠ .call i name) ∧ step.Possible s.base := by
  cases step with
  | call i name => exact h.elim
  | packet _ | lookup _ _ | rx _ _ | done _ | go _ | callback _ => exact ⟨nofun, h⟩

/-- **Run.** -/
theorem underway_run (hr : Started s₀) {steps : List (ReplaceStep ι)}
    (hok : Transition.Allowed (ReplaceStep.exec m) ReplaceStep.Possible (Replacing.init s₀) steps) :
    (runReplacing s₀ m steps).Underway s₀ m := by
  refine Transition.invariant_of_allowed (fun s step h hstep => ?_) (.init s₀ m) hok
  cases step with
  | go => exact h.go hr
  | packet step =>
    obtain ⟨hcall, hpossible⟩ := ReplaceStep.possible_packet hstep
    exact h.packet hcall hpossible

end Schedules

theorem performActs_snd (acts : List ReplaceAct) : ∀ x : Ret × State,
    (performActs x acts).2 = acts.foldl ReplaceAct.onState x.2 := by
  induction acts with
  | nil => exact fun _ => rfl
  | cons a acts ih => exact fun x => ih (a.ret x.2 x.1, a.onState x.2)

theorem refcnt_foldl_onState (acts : List ReplaceAct) (b : Addr) : ∀ s : State,
    (acts.foldl ReplaceAct.onState s).refcnt b = s.refcnt b - owes acts b := by
  induction acts with
  | nil => exact fun s => (sub_zero _).symm
  | cons a acts ih =>
    intro s
    refine (ih (a.onState s)).trans ?_
    rw [refcnt_onState, owes_cons]
    ring

/-- The counts that a replacement leaves when nothing comes between. -/
theorem Chosen.refcnt {s₀ : State} {m : ReplaceMsg} {fb1 fb2 : Addr} (h : Chosen s₀ m fb1 fb2)
    (b : Addr) : (userctlReplace m.al s₀ m.name1 m.name2 m.dropPriv).2.refcnt b =
      if b = fb1 then 0 else if b = fb2 then s₀.refcnt fb1 else s₀.refcnt b := by
  have hcnt : (getFblock (getFblock s₀ fb1) fb2).refcnt fb2 ≤ 2 := by
    rw [getFblock_eq, getFblock_eq, addRefs_refcnt, addRefs_refcnt, ref_self, ref_of_ne h.ne.symm,
      h.alone]
    norm_num
  have hbefore : ∀ a, ((beforeActs fb1 fb2 (m.exch s₀ fb1 fb2)).foldl ReplaceAct.onState
      (getFblock (getFblock s₀ fb1) fb2)).refcnt a = s₀.refcnt a + 2 * ref fb1 a + 2 * ref fb2 a := by
    intro a
    rw [refcnt_foldl_onState, owes_before, getFblock_eq, getFblock_eq, addRefs_refcnt,
      addRefs_refcnt]
    ring
  rw [userctlReplace_acts h.lookup1 h.factory1 h.lookup2 h.factory2 hcnt]
  unfold replaceRest
  rw [performActs_snd, refcnt_foldl_onState, owes_after]
  simp only [State.swapCounts, hbefore]
  by_cases hb2 : b = fb2
  · subst hb2
    rw [Function.update_self, if_neg h.ne.symm, if_pos rfl, ref_self, ref_self, ref_of_ne h.ne,
      ref_of_ne h.ne.symm]
    ring
  · rw [Function.update_of_ne hb2]
    by_cases hb1 : b = fb1
    · subst hb1
      rw [Function.update_self, if_pos rfl, ref_self, ref_self, ref_of_ne h.ne, ref_of_ne h.ne.symm,
        h.alone]
      ring
    · rw [Function.update_of_ne hb1, if_neg hb1, if_neg hb2, hbefore, ref_of_ne hb1, ref_of_ne hb2]
      ring

section Outcome

variable {ι : Type*} [Fintype ι] [DecidableEq ι]

/-- **Replacement beside packets.**  From every state in which the blocks in `fblmap` stand under their
own idp and have a reference (`Started`), and whatever packets do at once, `userctl_replace` comes to
its end within 27 steps of its own.  It is refused, and then tables, lists and counts are what they
were, but for a reference to a block without a factory; or it does to tables and lists what it does
alone, and answers the same.  The counts are then those of the replacement alone, with the
packets that are inside now; that of the first block is too high by the packets that were inside the
second one when its count was read and too low by those that were inside the first one when its count
was taken; that of the second one is too high by these and too low by those that were inside it when
its count was written. -/
theorem replace_beside_packets (s₀ : State) (hr : Started s₀) (m : ReplaceMsg)
    (steps : List (ReplaceStep ι))
    (hok : Transition.Allowed (ReplaceStep.exec m) ReplaceStep.Possible (Replacing.init s₀) steps)
    (hgo : 27 ≤ steps.countP ReplaceStep.isGo) :
    let s := runReplacing s₀ m steps
    let t := userctlReplace m.al s₀ m.name1 m.name2 m.dropPriv
    (∃ lost ret, s.pc = .refused [] lost ret ∧ s.base.st.Same s₀ ∧
      (∀ b ∈ lost, s₀.factory b = none) ∧
      ∀ b, s.base.st.refcnt b = s₀.refcnt b + lost.count b + owed s.base.pc b) ∨
    (∃ fb1 fb2, s.pc = .after fb1 fb2 [] t.1 ∧ s.base.st.Same t.2 ∧
      s.base.st.refcnt fb1 = t.2.refcnt fb1 + owed s.base.pc fb1 + s.atRead - s.atTake ∧
      s.base.st.refcnt fb2 = t.2.refcnt fb2 + owed s.base.pc fb2 + s.atTake - s.atGive ∧
      ∀ b, b ≠ fb1 → b ≠ fb2 → s.base.st.refcnt b = t.2.refcnt b + owed s.base.pc b) := by
  intro s t
  have h : s.Underway s₀ m := underway_run hr hok
  have hleft : s.pc.left = 0 := by
    have hle : s.pc.left ≤ 27 - steps.countP ReplaceStep.isGo := left_run m steps (Replacing.init s₀)
    omega
  obtain ⟨u, hu, hplan⟩ := h.course
  cases hpc : s.pc with
  | first | second _ | test _ _ | read _ _ _ | taken _ _ _ | before _ _ _ =>
    rw [hpc] at hleft
    simp [ReplacePc.left] at hleft
  | after fb1 fb2 acts ret =>
    rw [hpc] at hleft
    obtain rfl : acts = [] := List.eq_nil_of_length_eq_zero hleft
    simp only [Replacing.Plan, hpc] at hplan
    obtain ⟨hchosen, hrest⟩ := hplan
    obtain ⟨hret, hst⟩ : ret = t.1 ∧ u = t.2 := Prod.mk.inj hrest
    have hc : ∀ b, s.base.st.refcnt b = s.standing s₀ fb1 fb2 b + owed s.base.pc b := by
      intro b
      have hb := h.count b
      simpa only [Replacing.held, hpc, owes, List.map_nil, List.sum_nil, add_zero] using hb
    have ht := hchosen.refcnt
    refine .inr ⟨fb1, fb2, by rw [hret], hst ▸ hu, ?_, ?_, fun b hb1 hb2 => ?_⟩
    · rw [hc, ht, if_pos rfl, Replacing.standing, if_pos rfl]
      ring
    · rw [hc, ht, if_neg hchosen.ne.symm, if_pos rfl, Replacing.standing, if_neg hchosen.ne.symm,
        if_pos rfl]
      ring
    · rw [hc, ht, if_neg hb1, if_neg hb2, Replacing.standing, if_neg hb1, if_neg hb2]
  | refused fbs lost ret =>
    rw [hpc] at hleft
    obtain rfl : fbs = [] := List.eq_nil_of_length_eq_zero hleft
    simp only [Replacing.Plan, hpc] at hplan
    obtain ⟨rfl, hlost⟩ := hplan
    refine .inl ⟨lost, ret, rfl, hu, hlost, fun b => ?_⟩
    have hb := h.count b
    simpa only [Replacing.held, hpc, List.count_nil, Nat.cast_zero, add_zero] using hb

end Outcome

/-- Two blocks of one type. -/
def twoDummies : List Cmd :=
  [.add nameA Factory.dummy.type .ok, .add nameB Factory.dummy.type .ok]

/-- A packet is inside the first block while the counts are exchanged, and leaves it then. -/
def insideRun : List (ReplaceStep Unit) :=
  [.packet (.packet ()), .packet (.lookup () 1), .packet (.go ())] ++ List.replicate 20 .go ++
    [.packet (.go ()), .packet (.done ())] ++ List.replicate 7 .go

theorem insideRun_allowed : Transition.Allowed
    (ReplaceStep.exec ⟨nameA, nameB, false, .ok⟩) ReplaceStep.Possible
    (Replacing.init (run (State.init oneCpu) twoDummies)) insideRun :=
  ⟨trivial, trivial, trivial, trivial, trivial, trivial, trivial, trivial, trivial, trivial, trivial,
    trivial, trivial, trivial, trivial, trivial, trivial, trivial, trivial, trivial, trivial, trivial,
    trivial, trivial, trivial, trivial, trivial, trivial, trivial, trivial, trivial, trivial, trivial⟩

theorem replace_beside_packets_inside :
    let s := runReplacing (run (State.init oneCpu) twoDummies) ⟨nameA, nameB, false, .ok⟩ insideRun
    s.base.st.refcnt 0 = -1 ∧ s.base.st.refcnt 1 = 2 := by
  intro s
  have hend : s.pc = .after 0 1 [] .ok := rfl
  obtain ⟨lost, ret, hpc, -⟩ | ⟨fb1, fb2, hpc, -, h1, h2, -⟩ :=
    replace_beside_packets (run (State.init oneCpu) twoDummies)
      (started_run oneCpu (by decide) (by decide)) ⟨nameA, nameB, false, .ok⟩ insideRun
      insideRun_allowed (by decide)
  · cases hend.symm.trans hpc
  · obtain ⟨rfl, rfl, -, -⟩ := ReplacePc.after.inj (hend.symm.trans hpc)
    exact ⟨h1.trans rfl, h2.trans rfl⟩

/-- The block of a hooked device cannot be replaced, and keeps the reference of the lookup. -/
example :
    let s := runReplacing (ι := Unit) (run (State.init oneCpu) [.hookEth nameA 7 .ok])
      ⟨nameA, nameB, false, .ok⟩ [.go]
    s.pc = .refused [] [0] (.err .EINVAL) ∧ s.base.st.refcnt 0 = 2 := by
  decide

end Lana
