import Lana.User.Sound
import Lana.User.Wiring

/-!
# What a replacement does to the connections

A binding is kept on both sides: a port of the one block names the other, and the opposite port of
the other names it back.  `userctl_replace` hands the idp over in any case, but the ports only with
the private data: same factory and `drop_priv = 0`.  Otherwise the new block keeps its own ports,
and the blocks that name it are no longer named back (`replace_mirrored`).
-/

namespace Lana

open State

/-! ## Entries of `fblmap`

They hold blocks of that idp, also when a replacement has lost its block. -/

/-- Every entry is that of the block's own idp. -/
def Registry.Entries (r : Registry) : Prop :=
  ∀ i a, r.fblmap i = some a → r.idp a = i ∧ a < r.nextFblock

namespace Registry.Entries

variable {r : Registry}

theorem fblmap_idp (h : r.Entries) {a : Addr} (ha : r.Has a) : r.fblmap (r.idp a) = some a := by
  obtain ⟨i, hi⟩ := ha
  rw [(h i a hi).1, hi]

theorem idp_inj (h : r.Entries) {a b : Addr} (ha : r.Has a) (hb : r.Has b)
    (hab : r.idp a = r.idp b) : a = b := by
  have hmap := h.fblmap_idp hb
  rw [← hab, h.fblmap_idp ha] at hmap
  exact Option.some.inj hmap

theorem enter (h : r.Entries) (i : Idp) : (r.enter i none).Entries := by
  intro j a hj
  simp only [Registry.enter, Function.update_apply] at hj
  split_ifs at hj
  exact h j a hj

/-- A fresh block is entered, or not. -/
theorem fresh (h : r.Entries) {r' : Registry} (hnext : r.nextFblock ≤ r'.nextFblock)
    (hidp : ∀ a, a ≠ r.nextFblock → r'.idp a = r.idp a)
    (hmap : r'.fblmap = r.fblmap ∨ r'.fblmap =
      Function.update r.fblmap (r'.idp r.nextFblock) (some r.nextFblock) ∧
        r.nextFblock < r'.nextFblock) : r'.Entries := by
  have hold : ∀ i a, r.fblmap i = some a → r'.idp a = i ∧ a < r'.nextFblock := by
    intro i a hi
    obtain ⟨hai, hlt⟩ := h i a hi
    exact ⟨(hidp a (ne_of_lt hlt)).trans hai, lt_of_lt_of_le hlt hnext⟩
  intro i a hi
  obtain heq | ⟨heq, hlt⟩ := hmap
  · rw [heq] at hi
    exact hold i a hi
  · rw [heq, Function.update_apply] at hi
    split_ifs at hi with hij
    · cases hi
      exact ⟨hij.symm, hlt⟩
    · exact hold i a hi

end Registry.Entries

section Steps

variable {s : State}

theorem entries_unregister (h : s.registry.Entries) (a : Addr) :
    (unregisterFblockNamespaceNoRcu s a).registry.Entries := by
  have hmap := fblmap_unregisterNoRcu s a
  obtain ⟨t, m, heq⟩ := unregisterNoRcu_frame s a
  rw [heq] at hmap ⊢
  intro i b hi
  have hm : Function.update s.fblmap (s.idp a) none i = some b := hmap ▸ hi
  exact h.enter (s.idp a) i b hm

theorem entries_fbCtor (h : s.registry.Entries) (ops : FbType) (proc : Bool) (area : Priv)
    (al : Alloc) (n : CStr) : (fbCtor ops proc area al s n).2.registry.Entries := by
  refine fbCtor_rule (I := fun t => t.registry.Entries) h ?_ ?_ ?_ (fun _ m => ?_) proc al
  · exact h.fresh (Nat.le_succ _) (fun _ _ => rfl) (Or.inl rfl)
  · exact h.fresh (Nat.le_succ _) (fun _ _ => rfl) (Or.inl rfl)
  · exact h.fresh (Nat.le_succ _) (fun a ha => Function.update_of_ne ha ..) (Or.inl rfl)
  · refine h.fresh (Nat.le_succ _) (fun a ha => Function.update_of_ne ha ..)
      (Or.inr ⟨?_, Nat.lt_succ_self _⟩)
    show Function.update s.fblmap (s.constructed n area ops).nextIdp _ =
      Function.update s.fblmap (Function.update s.idp s.nextFblock _ s.nextFblock) _
    rw [Function.update_self]
    rfl

theorem entries_keepVlink {r : Option Addr × State} (h : r.2.registry.Entries) :
    (keepVlink r).registry.Entries := by
  obtain ⟨_ | fb, t⟩ := r
  · exact h
  · exact h

theorem entries_add (h : s.registry.Entries) (al : Alloc) (n : Name) (type : CStr) :
    (userctlAdd al s n type).2.registry.Entries := by
  unfold userctlAdd
  cases hl : s.lookup n with
  | some a =>
    rw [searchFblockN_some hl]
    dsimp only
    rw [registry_putFblock]
    exact h
  | none =>
    rw [searchFblockN_none hl]
    dsimp only
    unfold buildFblockObject
    cases critbitGet Factory.type fbmap type with
    | none => exact h
    | some f =>
      obtain ⟨proc, hctor⟩ := ctor_eq f
      have hC := entries_fbCtor h f.ops proc (Priv.init 0 0) al n
      dsimp only
      rw [hctor]
      rcases hr : fbCtor f.ops proc (Priv.init 0 0) al s n with ⟨_ | fb, t⟩
      · rw [hr] at hC
        exact hC
      · rw [hr] at hC
        exact hC

/-- The entries and idps after a replacement. -/
theorem replaced_entries (s : State) (fb1 fb2 : Addr) (entry : Option Addr) :
    let r := ((unregisterFblockNamespaceNoRcu s fb2).registry.migrate fb2 fb1).enter
      (s.idp fb1) entry
    r.fblmap = Function.update (Function.update s.fblmap (s.idp fb2) none) (s.idp fb1) entry ∧
      r.idp = Function.update s.idp fb2 (s.idp fb1) ∧ r.nextFblock = s.nextFblock ∧
      r.online = s.online := by
  intro r
  have hmap := fblmap_unregisterNoRcu s fb2
  obtain ⟨t, m, heq⟩ := unregisterNoRcu_frame s fb2
  have hr : r = (({ s with idpmap := t, fblmap := m } : State).registry.migrate fb2 fb1).enter
      (s.idp fb1) entry := by rw [← heq]
  have hm : m = Function.update s.fblmap (s.idp fb2) none := by rw [← hmap, heq]
  rw [hr]
  refine ⟨?_, rfl, rfl, rfl⟩
  show Function.update m (s.idp fb1) entry = _
  rw [hm]

/-- The blocks that are entered after a replacement. -/
theorem fblmap_replaced (h : s.registry.Entries) {fb1 fb2 : Addr} (h2 : s.registry.Has fb2)
    {entry : Option Addr} {i : Idp} {a : Addr}
    (hi : Function.update (Function.update s.fblmap (s.idp fb2) none) (s.idp fb1) entry i =
      some a) :
    (i = s.idp fb1 ∧ entry = some a) ∨ (s.fblmap i = some a ∧ i ≠ s.idp fb1 ∧ a ≠ fb2) := by
  rw [Function.update_apply] at hi
  split_ifs at hi with h1
  · exact Or.inl ⟨h1, hi⟩
  · rw [Function.update_apply] at hi
    split_ifs at hi with hne
    refine Or.inr ⟨hi, h1, ?_⟩
    rintro rfl
    exact hne (h i a hi).1.symm

theorem entries_replace (h : s.registry.Entries) (al : Alloc) (n1 n2 : Name) (dropPriv : Bool) :
    (userctlReplace al s n1 n2 dropPriv).2.registry.Entries := by
  obtain ⟨-, hrefused⟩ | ⟨fb1, fb2, f1, f2, h1, h2, hf1, hf2, hcnt⟩ :=
    userctlReplace_cases al s n1 n2 dropPriv
  · rw [hrefused.prims.registry]
    exact h
  · obtain ⟨hreg, -⟩ := userctlReplace_frame h1 h2 hf1 hf2 hcnt al dropPriv
    obtain ⟨hmap, hidp, hnext, -⟩ := replaced_entries s fb1 fb2 (if al.radix then some fb2 else none)
    rw [hreg]
    intro i a hi
    rw [hidp, hnext]
    rw [hmap] at hi
    obtain ⟨rfl, hentry⟩ | ⟨hi, -, hne⟩ := fblmap_replaced h (has_of_lookup h2) hi
    · split_ifs at hentry
      cases hentry
      obtain ⟨j, hj⟩ := has_of_lookup h2
      exact ⟨Function.update_self .., (h j fb2 hj).2⟩
    · rw [Function.update_of_ne hne]
      exact h i a hi

theorem entries_exec (h : s.registry.Entries) (a : Action) : (a.exec s).registry.Entries := by
  have hprims : ∀ {t : State}, Prims s t → t.registry.Entries := fun hp => by
    rw [hp.registry]
    exact h
  cases a with
  | areas pd => exact h
  | cmd c =>
    cases c with
    | add n type al => exact entries_add h al n type
    | rm n =>
      obtain ⟨-, hq, -⟩ | ⟨a, f, -, -, -, -, hreg, -⟩ := userctlRemove_result s n
      · show (userctlRemove s n).2.registry.Entries
        rw [hq.registry]
        exact h
      · show (userctlRemove s n).2.registry.Entries
        rw [hreg]
        exact entries_unregister h a
    | bind n1 n2 al => exact hprims (Prims.withTuple s n1 n2 fun a b hp => hp.bind al a b)
    | unbind n1 n2 => exact hprims (Prims.withTuple s n1 n2 fun a b hp => hp.unbind a b)
    | replace n1 n2 dropPriv al => exact entries_replace h al n1 n2 dropPriv
    | subscribe n1 n2 al =>
      exact hprims (Prims.withTuple s n1 n2 fun a b hp => hp.subscribe al.fn1 b a)
    | unsubscribe n1 n2 =>
      exact hprims (Prims.withTuple s n1 n2 fun a b hp => hp.unsubscribe b a)
    | hookEth n dev al =>
      apply entries_keepVlink
      have hC := entries_fbCtor h .eth false (Priv.init dev 0) al n
      unfold fbEthBuildFblock
      rcases hr : fbCtor .eth false (Priv.init dev 0) al s n with ⟨_ | fb, t⟩
      · rw [hr] at hC
        exact hC
      · rw [hr] at hC
        dsimp only
        split_ifs
        · exact hC
        · exact entries_unregister hC fb
    | addEthvlink n vdev al => exact entries_keepVlink (entries_fbCtor h _ _ _ al n)
    | openSock n sock al => exact entries_keepVlink (entries_fbCtor h _ _ _ al n)
    | stopVlink fb =>
      show (removeVlink s fb).registry.Entries
      unfold removeVlink
      split_ifs
      · exact h
      · exact entries_unregister h fb
      · exact h
    | closeSock fb cpu =>
      show (lanaSkFree cpu s fb).registry.Entries
      unfold lanaSkFree
      split_ifs
      · exact entries_unregister (hprims (Prims.skFree cpu s fb)) fb
      · exact h

/-- The entries of every reachable state. -/
theorem entries_run (online : OnlineCpus) (acts : List Action) :
    (acts.foldl Action.exec (State.init online)).registry.Entries :=
  List.foldlRecOn (motive := fun s => s.registry.Entries) acts Action.exec
    (fun _ _ hi => by cases hi) fun _ hs a _ => entries_exec hs a

end Steps

/-! ## Ports after a replacement -/

theorem ports_exchangePriv (s : State) (fb1 fb2 : Addr) (exch : Bool) (a : Addr) (c : Cpu) :
    ((exchangePriv s fb1 fb2 exch).privateData a c).ports =
      ((if exch then swapField s.privateData fb2 fb1 else s.privateData) a c).ports := by
  cases exch with
  | false => rfl
  | true =>
    show ((fblockMigrateP s fb2 fb1).privateData a c).ports = _
    rw [migrateP_eq, ports_putFblock, ports_putFblock]
    rfl

theorem ports_replaceSteps (s : State) (fb1 fb2 : Addr) (exch : Bool) (a : Addr) (c : Cpu) :
    ((replaceSteps s fb1 fb2 exch).privateData a c).ports =
      ((if exch then swapField s.privateData fb2 fb1 else s.privateData) a c).ports := by
  obtain ⟨t, m, heq⟩ := unregisterNoRcu_frame s fb2
  unfold replaceSteps unregisterFblock
  rw [ports_putFblock]
  show ((fblockMigrateR _ fb2 fb1).privateData a c).ports = _
  rw [migrateR_eq, ports_putFblock, ports_putFblock]
  show ((exchangePriv _ fb1 fb2 exch).privateData a c).ports = _
  rw [ports_exchangePriv, heq]

/-- The ports are exchanged with the private data, or stay where they are. -/
theorem ports_replaced {s : State} {n1 n2 : Name} {fb1 fb2 : Addr} {f1 f2 : Factory}
    (h1 : s.lookup n1 = some fb1) (h2 : s.lookup n2 = some fb2) (hf1 : s.factory fb1 = some f1)
    (hf2 : s.factory fb2 = some f2) (hcnt : (s.addRefs (ref fb1 + ref fb2)).refcnt fb2 ≤ 2)
    (al : Alloc) (dropPriv : Bool) (a : Addr) (c : Cpu) :
    ((userctlReplace al s n1 n2 dropPriv).2.privateData a c).ports =
      ((if exchanges f1 f2 dropPriv then swapField s.privateData fb2 fb1 else s.privateData)
        a c).ports := by
  rw [userctlReplace_eq h1 h2 hf1 hf2 hcnt al dropPriv]
  dsimp only
  rw [registerFblock_replaceSteps, ports_putFblock, ports_putFblock]
  exact ports_replaceSteps _ fb1 fb2 _ a c

/-! ## Connections -/

/-- Every entered block with a port that holds the idp of `fb` is named by the opposite port of
`fb`. -/
def Mirrored (s : State) (fb : Addr) : Prop :=
  ∀ cpu ∈ s.online.cpus, ∀ N, s.registry.Has N → ∀ d,
    (s.privateData N cpu).port d = s.idp fb → (s.privateData fb cpu).port d.flip = s.idp N

/-- The ports of `fb2` are already those that the neighbours of `fb1` expect: for a spare block
with free ports, when no other block names `fb1`. -/
def Prepared (s : State) (fb1 fb2 : Addr) : Prop :=
  ∀ cpu ∈ s.online.cpus, ∀ d,
    (∀ N, s.registry.Has N → N ≠ fb1 → N ≠ fb2 → (s.privateData N cpu).port d = s.idp fb1 →
      (s.privateData fb2 cpu).port d.flip = s.idp N) ∧
    ((s.privateData fb2 cpu).port d = s.idp fb1 → (s.privateData fb2 cpu).port d.flip = s.idp fb1)

/-- What the neighbours of the new block find, in terms of the state before. -/
theorem mirrored_replaced {s t : State} (h : s.registry.Entries) {fb1 fb2 : Addr}
    (h1 : s.registry.Has fb1) (h2 : s.registry.Has fb2)
    (hmap : t.fblmap =
      Function.update (Function.update s.fblmap (s.idp fb2) none) (s.idp fb1) (some fb2))
    (hidp : t.idp = Function.update s.idp fb2 (s.idp fb1)) (honline : t.online = s.online)
    (src : Addr) (hnew : ∀ cpu d, (t.privateData fb2 cpu).port d = (s.privateData src cpu).port d)
    (hold : ∀ N, N ≠ fb1 → N ≠ fb2 → ∀ cpu d,
      (t.privateData N cpu).port d = (s.privateData N cpu).port d) :
    Mirrored t fb2 ↔ ∀ cpu ∈ s.online.cpus, ∀ d,
      (∀ N, s.registry.Has N → N ≠ fb1 → N ≠ fb2 → (s.privateData N cpu).port d = s.idp fb1 →
        (s.privateData src cpu).port d.flip = s.idp N) ∧
      ((s.privateData src cpu).port d = s.idp fb1 →
        (s.privateData src cpu).port d.flip = s.idp fb1) := by
  have hfb2 : t.idp fb2 = s.idp fb1 := by rw [hidp, Function.update_self]
  have hothers : ∀ N, N ≠ fb2 → t.idp N = s.idp N := fun N hN => by
    rw [hidp, Function.update_of_ne hN]
  constructor
  · intro hm cpu hcpu d
    rw [← honline] at hcpu
    constructor
    · intro N hN hN1 hN2 hport
      have hent : t.registry.Has N := by
        refine ⟨s.idp N, ?_⟩
        show t.fblmap (s.idp N) = some N
        rw [hmap, Function.update_of_ne, Function.update_of_ne]
        · exact h.fblmap_idp hN
        · exact fun e => hN2 (h.idp_inj hN h2 e)
        · exact fun e => hN1 (h.idp_inj hN h1 e)
      have hback := hm cpu hcpu N hent d (by rw [hold N hN1 hN2, hport, hfb2])
      rwa [hnew, hothers N hN2] at hback
    · intro hself
      have hent : t.registry.Has fb2 := by
        refine ⟨s.idp fb1, ?_⟩
        show t.fblmap (s.idp fb1) = some fb2
        rw [hmap, Function.update_self]
      have hback := hm cpu hcpu fb2 hent d (by rw [hnew, hself, hfb2])
      rwa [hnew, hfb2] at hback
  · rintro hs cpu hcpu N ⟨i, hi⟩ d hport
    rw [honline] at hcpu
    rw [hfb2] at hport
    rw [hnew]
    have hi' : t.fblmap i = some N := hi
    rw [hmap] at hi'
    obtain ⟨-, hentry⟩ | ⟨hiN, hne, hN2⟩ := fblmap_replaced h h2 hi'
    · cases hentry
      rw [hnew] at hport
      rw [hfb2]
      exact (hs cpu hcpu d).2 hport
    · have hN1 : N ≠ fb1 := by
        rintro rfl
        exact hne (h i N hiN).1.symm
      rw [hold N hN1 hN2] at hport
      rw [hothers N hN2]
      exact (hs cpu hcpu d).1 N ⟨i, hiN⟩ hN1 hN2 hport

/-! ## Unbinding -/

/-- A loop that no CPU refuses runs to its end, and changes each area as `f` says. -/
theorem forEachOnlineCpu_ok {f : Priv → Option Priv} {cpus : List Cpu} (hnd : cpus.Nodup)
    {priv : Cpu → Priv} (h : ∀ c ∈ cpus, f (priv c) ≠ none) :
    ∃ priv', forEachOnlineCpu f cpus priv = (.ok, priv') ∧ (∀ c ∉ cpus, priv' c = priv c) ∧
      ∀ c ∈ cpus, f (priv c) = some (priv' c) := by
  induction cpus generalizing priv with
  | nil => exact ⟨priv, rfl, fun _ _ => rfl, fun c hc => by cases hc⟩
  | cons cpu cpus ih =>
    obtain ⟨hout, hnd⟩ := List.nodup_cons.1 hnd
    obtain ⟨p, hp⟩ := Option.ne_none_iff_exists'.1 (h cpu List.mem_cons_self)
    have hother : ∀ c, c ≠ cpu → Function.update priv cpu p c = priv c := fun c hc =>
      Function.update_of_ne hc ..
    have hrest : ∀ c ∈ cpus, f (Function.update priv cpu p c) ≠ none := by
      intro c hc
      rw [hother c (ne_of_mem_of_not_mem hc hout)]
      exact h c (List.mem_cons_of_mem _ hc)
    obtain ⟨priv', heq, hkeep, hall⟩ := ih hnd hrest
    refine ⟨priv', ?_, fun c hc => ?_, fun c hc => ?_⟩
    · simp only [forEachOnlineCpu, hp, heq]
    · rw [List.mem_cons, not_or] at hc
      rw [hkeep c hc.2, hother c hc.1]
    · obtain rfl | hc := List.mem_cons.1 hc
      · rw [hkeep c hout, Function.update_self, hp]
      · rw [← hall c hc, hother c (ne_of_mem_of_not_mem hc hout)]

/-- A port that holds `i` is freed, and the other one stays. -/
theorem unbindPriv_named (type : FbType) {d : PathType} {i : Idp} {p : Priv} (h : p.port d = i) :
    type.unbindPriv d i p = some { p with port := Function.update p.port d idpUnknown } := by
  cases type <;> simp only [FbType.unbindPriv, unbindPort, unbindTee, h, if_true]

/-- A block all of whose copies of a port hold `i` gives it free. -/
theorem eventRx_unbind_named {s : State} {fb : Addr} {d : PathType} {i : Idp}
    (h : ∀ cpu ∈ s.online.cpus, (s.privateData fb cpu).port d = i) :
    ∃ t, eventRx s fb (.unbindIdp d i) = (.ok, t) ∧ t.idp = s.idp ∧ t.online = s.online ∧
      ∀ a cpu d', d' ≠ d → (t.privateData a cpu).port d' = (s.privateData a cpu).port d' := by
  have hsome : ∀ c ∈ s.online.cpus, (s.ops fb).unbindPriv d i (s.privateData fb c) ≠ none := by
    intro c hc
    rw [unbindPriv_named _ (h c hc)]
    exact Option.some_ne_none _
  obtain ⟨priv', heq, hkeep, hall⟩ := forEachOnlineCpu_ok s.online.nodup hsome
  refine ⟨s.withPriv (Function.update s.privateData fb priv'), ?_, rfl, rfl, fun a c d' hd => ?_⟩
  · unfold eventRx
    rw [event_unbind, heq]
    rfl
  · show (Function.update s.privateData fb priv' a c).port d' = _
    by_cases ha : a = fb
    · subst ha
      rw [Function.update_self]
      by_cases hc : c ∈ s.online.cpus
      · have hp := hall c hc
        rw [unbindPriv_named _ (h c hc), Option.some.injEq] at hp
        rw [← hp]
        exact Function.update_of_ne hd ..
      · rw [hkeep c hc]
    · rw [Function.update_of_ne ha]

/-- A pair that names each other on every CPU can be unbound. -/
theorem fblockUnbind_named {s : State} {fb1 fb2 : Addr}
    (h1 : ∀ cpu ∈ s.online.cpus, (s.privateData fb1 cpu).port .egress = s.idp fb2)
    (h2 : ∀ cpu ∈ s.online.cpus, (s.privateData fb2 cpu).port .ingress = s.idp fb1) :
    (fblockUnbind s fb1 fb2).1 = .ok := by
  obtain ⟨t, ht, hidp, honline, hport⟩ := eventRx_unbind_named h1
  have h2' : ∀ cpu ∈ t.online.cpus, (t.privateData fb2 cpu).port .ingress = t.idp fb1 := by
    intro cpu hcpu
    rw [honline] at hcpu
    rw [hport fb2 cpu .ingress (by decide), hidp]
    exact h2 cpu hcpu
  obtain ⟨u, hu, -⟩ := eventRx_unbind_named h2'
  unfold fblockUnbind
  rw [ht]
  dsimp only
  rw [hu]

/-- **Connections over a replacement.** For every reachable state, and every replacement of `fb1`
by `fb2` that succeeds: when the connections of `fb1` were mirrored, those of `fb2` are exactly if
the private data, and with them the ports, went over, or the ports of `fb2` were right already.  A
mirrored connection can be unbound. -/
theorem replace_mirrored (online : OnlineCpus) (acts : List Action) (s : State)
    (hs : s = acts.foldl Action.exec (State.init online)) (n1 n2 : Name) (fb1 fb2 : Addr)
    (f1 f2 : Factory) (dropPriv : Bool) (al : Alloc) (h1 : s.lookup n1 = some fb1)
    (h2 : s.lookup n2 = some fb2) (hf1 : s.factory fb1 = some f1) (hf2 : s.factory fb2 = some f2)
    (hmirror : Mirrored s fb1) (hret : (userctlReplace al s n1 n2 dropPriv).1 = .ok) :
    let t := (userctlReplace al s n1 n2 dropPriv).2
    (Mirrored t fb2 ↔ (f1.type = f2.type ∧ dropPriv = false) ∨ Prepared s fb1 fb2) ∧
    (Mirrored t fb2 → ∀ N, t.registry.Has N →
      ((∀ cpu ∈ t.online.cpus, (t.privateData N cpu).port .egress = t.idp fb2) →
        (fblockUnbind t N fb2).1 = .ok) ∧
      ((∀ cpu ∈ t.online.cpus, (t.privateData N cpu).port .ingress = t.idp fb2) →
        (fblockUnbind t fb2 N).1 = .ok)) := by
  have hE : s.registry.Entries := hs ▸ entries_run online acts
  intro t
  refine ⟨?_, fun hm N hN => ⟨fun hport => ?_, fun hport => ?_⟩⟩
  · obtain ⟨hret', -⟩ | ⟨a, b, g1, g2, ha, hb, hg1, hg2, hcnt⟩ :=
      userctlReplace_cases al s n1 n2 dropPriv
    · exact absurd hret hret'
    cases ha.symm.trans h1
    cases hb.symm.trans h2
    cases hg1.symm.trans hf1
    cases hg2.symm.trans hf2
    have hports := ports_replaced h1 h2 hf1 hf2 hcnt al dropPriv
    have hport : ∀ x c d, (t.privateData x c).port d = ((if exchanges f1 f2 dropPriv then
        swapField s.privateData fb2 fb1 else s.privateData) x c).port d := fun x c d =>
      congrFun (congrArg Ports.port (hports x c)) d
    have hal : al.radix = true := by
      by_contra hno
      rw [userctlReplace_eq h1 h2 hf1 hf2 hcnt al dropPriv] at hret
      dsimp only at hret
      rw [registerFblock_replaceSteps, if_neg hno] at hret
      cases hret
    obtain ⟨hreg, -⟩ := userctlReplace_frame h1 h2 hf1 hf2 hcnt al dropPriv
    rw [hal, if_pos rfl] at hreg
    obtain ⟨hmap, hidp, -, honline⟩ := replaced_entries s fb1 fb2 (some fb2)
    rw [← hreg] at hmap hidp honline
    have hold : ∀ N, N ≠ fb1 → N ≠ fb2 → ∀ c d,
        (t.privateData N c).port d = (s.privateData N c).port d := by
      intro N hN1 hN2 c d
      rw [hport]
      split_ifs
      · rw [swapField_of_ne hN2 hN1]
      · rfl
    have hmem1 := has_of_lookup h1
    have hiff := @mirrored_replaced s t hE fb1 fb2 hmem1 (has_of_lookup h2) hmap hidp honline
    by_cases hexch : f1.type = f2.type ∧ dropPriv = false
    · rw [hiff fb1 (fun c d => ?_) hold]
      · refine ⟨fun _ => Or.inl hexch, fun _ cpu hcpu d => ⟨fun N hN _ _ hN1 => ?_, fun hself => ?_⟩⟩
        · exact hmirror cpu hcpu N hN d hN1
        · exact hmirror cpu hcpu fb1 hmem1 d hself
      · have htrue : exchanges f1 f2 dropPriv = true := decide_eq_true hexch
        rw [hport, if_pos htrue, swapField_dst]
    · rw [hiff fb2 (fun c d => ?_) hold]
      · exact ⟨Or.inr, fun hor => hor.resolve_left hexch⟩
      · have hfalse : ¬ exchanges f1 f2 dropPriv = true := fun hdec =>
          hexch (of_decide_eq_true hdec)
        rw [hport, if_neg hfalse]
  · refine fblockUnbind_named hport fun cpu hcpu => ?_
    exact hm cpu hcpu N hN .egress (hport cpu hcpu)
  · refine fblockUnbind_named (fun cpu hcpu => ?_) hport
    exact hm cpu hcpu N hN .ingress (hport cpu hcpu)

/-- The connections of two-port blocks are mirrored. -/
theorem Linked.mirrored {s : State} {P : Addr → Ports} (h : Linked s P) {fb : Addr}
    (hfb : s.registry.Has fb) : Mirrored s fb := by
  intro cpu hcpu N hN d hport
  have hP : ∀ a d, (s.privateData a cpu).port d = (P a).port d := fun a d =>
    congrFun (congrArg Ports.port (h.copies a cpu hcpu)) d
  rw [hP] at hport ⊢
  exact (h.symm hN hfb d).1 hport

/-- `a` is bound to `b`, and `c` is a spare block of the same type. -/
def pairActs : List Cmd :=
  [.add nameA Factory.dummy.type .ok, .add nameB Factory.dummy.type .ok,
    .add nameC Factory.dummy.type .ok, .bind nameA nameB .ok]

theorem replace_mirrored_pair :
    let s := (pairActs.map Action.cmd).foldl Action.exec (State.init oneCpu)
    let t := (userctlReplace .ok s nameB nameC false).2
    Mirrored t 2 ∧ (t.privateData 0 0).port .egress = t.idp 2 := by
  intro s t
  obtain ⟨P, hL⟩ := linked_run ⟨_, linked_init oneCpu⟩
    (by decide : Transition.Allowed Cmd.exec (fun s c => c.TwoPort s ∧ c.IdpLeft s)
      (State.init oneCpu) pairActs)
  have hs : run (State.init oneCpu) pairActs = s := rfl
  rw [hs] at hL
  have hlookup : s.lookup nameB = some 1 := by decide
  have h := replace_mirrored oneCpu (pairActs.map Action.cmd) s rfl nameB nameC 1 2 .dummy .dummy
    false .ok hlookup (by decide) (by decide) (by decide) (hL.mirrored (has_of_lookup hlookup))
    (by decide)
  exact ⟨h.1.2 (Or.inl ⟨rfl, rfl⟩), by decide⟩

/-- With `drop_priv = 1` the new block has free ports: `a` names it, is not named back, and cannot
be unbound from it. -/
theorem dropped_not_mirrored :
    let s := (pairActs.map Action.cmd).foldl Action.exec (State.init oneCpu)
    let r := userctlReplace .ok s nameB nameC true
    (s.privateData 0 0).port .egress = s.idp 1 ∧ (s.privateData 1 0).port .ingress = s.idp 0 ∧
      r.1 = .ok ∧ r.2.fblmap 2 = some 2 ∧ (r.2.privateData 0 0).port .egress = r.2.idp 2 ∧
      (r.2.privateData 2 0).port .ingress ≠ r.2.idp 0 ∧
      (userctlUnbind r.2 nameA nameB).1 = .err .EBUSY := by
  decide

end Lana
