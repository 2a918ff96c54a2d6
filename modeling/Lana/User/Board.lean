import Lana.Library.Board
import Lana.User.TwoPort

/-!
# The control commands as operations on a board

What add, rm, bind, unbind and replace do to two-port blocks, with memory and idps left and with
replacements within a type that keep the private data, said without idps, ports, notifier lists and
reference counts: they are the operations of a board whose components are the names, with the types
of their blocks as kinds and the bindings as connections.

`Represents s P b` relates a state to its board.  Every command is answered as the operation on the
board is (`represents_exec`), so that the return values of a whole run are those of the board
(`control_refines_board`).  What holds of boards then holds of the stack: from every reachable state
it can be taken apart by unbind and rm without one refusal (`control_dismantles`).
-/

namespace Lana

open State Board

/-- The operation that a command asks for. -/
def Cmd.op : Cmd → Option (Op Name Factory)
  | .add n type _ => some (.place n (critbitGet Factory.type fbmap type))
  | .rm n => some (.drop n)
  | .bind n m _ => some (.join n m)
  | .unbind n m => some (.part n m)
  | .replace n m _ _ => some (.relieve n m)
  | _ => none

/-- The return value for an answer of the board. -/
def answerRet : Option Fault → Ret
  | none => .ok
  | some .taken => .err .EINVAL
  | some .unfit => .err .ENOMEM
  | some .unknown => .err .EINVAL
  | some .busy => .err .EBUSY

/-- The names are those of the board, with the types of their blocks, and an egress port in use is
a connection. -/
structure Represents (s : State) (P : Addr → Ports) (b : Board Name Factory) : Prop where
  linked : Linked s P
  built : Built s
  paired : s.registry.Paired
  kind : ∀ n : Name, b.kind n = (s.lookup n).bind s.factory
  next : ∀ n m : Name, b.next n = some m ↔
    ∃ x y, s.lookup n = some x ∧ s.lookup m = some y ∧ (P x).port .egress = s.idp y

theorem represents_init (online : OnlineCpus) :
    Represents (State.init online) (fun _ => Ports.free) Board.empty where
  linked := linked_init online
  built := fun _ ⟨_, hi⟩ => by cases hi
  paired := (recorded_init online).paired
  kind := fun _ => rfl
  next := fun n m => by
    constructor
    · intro h
      cases h
    · rintro ⟨x, y, hx, -⟩
      cases hx

namespace Represents

variable {s s' : State} {P P' : Addr → Ports} {b : Board Name Factory} {n m : Name} {x y : Addr}

/-! ## Names -/

theorem unknown (h : Represents s P b) (hn : s.lookup n = none) : b.kind n = none := by
  rw [h.kind, hn]
  rfl

theorem known (h : Represents s P b) (hn : s.lookup n = some x) : b.kind n ≠ none := by
  rw [h.kind, hn]
  exact h.built x (has_of_lookup hn)

theorem lookup_inj (h : Represents s P b) (hn : s.lookup n = some x) (hm : s.lookup m = some x) :
    n = m :=
  Subtype.ext ((h.paired.name_of_lookup hn).2.2.symm.trans (h.paired.name_of_lookup hm).2.2)

/-- Every entered block has a name. -/
theorem exists_name (h : Represents s P b) (hx : s.registry.Has x) :
    ∃ n : Name, s.lookup n = some x := by
  obtain ⟨i, hi⟩ := hx
  refine ⟨⟨s.name x, h.linked.tables.short x⟩, ?_⟩
  have hname : s.registry.names (s.name x) = some i := h.paired.entries i x hi
  rw [lookup_eq_bind h.paired.numbered, hname]
  exact hi

/-! ## Ports -/

/-- The egress port is free where no connection leads out. -/
theorem next_none (h : Represents s P b) (hn : s.lookup n = some x) :
    b.next n = none ↔ (P x).port .egress = idpUnknown := by
  constructor
  · intro hnone
    by_contra hport
    obtain ⟨q, hq, -⟩ := h.linked.wired.back _ _ .egress
      (net_idp h.linked.tables (has_of_lookup hn)) hport
    obtain ⟨y, hy, -⟩ := Option.map_eq_some_iff.1 hq
    obtain ⟨m, hm⟩ := h.exists_name ⟨_, hy⟩
    have hidp : s.idp y = (P x).port .egress := (h.linked.tables.stored _ y hy).1
    have hnext := (h.next n m).2 ⟨x, y, hn, hm, hidp.symm⟩
    rw [hnone] at hnext
    cases hnext
  · intro hport
    rcases hnext : b.next n with _ | m
    · rfl
    · obtain ⟨x', y, hx', hy, hxy⟩ := (h.next n m).1 hnext
      obtain rfl := Option.some.inj (hn.symm.trans hx')
      exact absurd (hxy.symm.trans hport) (h.linked.idp_ne (has_of_lookup hy))

/-- The ingress port is free where no connection leads in. -/
theorem unfed (h : Represents s P b) (hm : s.lookup m = some y) :
    b.Unfed m ↔ (P y).port .ingress = idpUnknown := by
  constructor
  · intro hfree
    by_contra hport
    obtain ⟨q, hq, hback⟩ := h.linked.wired.back _ _ .ingress
      (net_idp h.linked.tables (has_of_lookup hm)) hport
    obtain ⟨x, hx, rfl⟩ := Option.map_eq_some_iff.1 hq
    obtain ⟨n, hn⟩ := h.exists_name ⟨_, hx⟩
    exact hfree n ((h.next n m).2 ⟨x, y, hn, hm, hback⟩)
  · intro hport n hnext
    obtain ⟨x, y', hx, hy', hxy⟩ := (h.next n m).1 hnext
    obtain rfl := Option.some.inj (hm.symm.trans hy')
    have hback := (h.linked.symm (has_of_lookup hx) (has_of_lookup hm) .egress).1 hxy
    exact h.linked.idp_ne (has_of_lookup hx) (hback.symm.trans hport)

/-- A component without connections is a block with no reference but its own. -/
theorem idle_iff (h : Represents s P b) (hn : s.lookup n = some x) :
    b.Idle n ↔ s.refcnt x ≤ 1 := by
  have hx := has_of_lookup hn
  have href := (h.linked.refs x hx).2 (h.built x hx)
  constructor
  · rintro ⟨hout, hin⟩
    rw [h.next_none hn] at hout
    rw [h.unfed hn] at hin
    have hcount : (P x).count = 0 := by
      unfold Ports.count
      rw [hout, hin, h.linked.unclone x hx]
      rfl
    rw [hcount] at href
    omega
  · intro hcnt
    exact ⟨(h.next_none hn).2 (h.linked.ports_free hx hcnt .egress),
      (h.unfed hn).2 (h.linked.ports_free hx hcnt .ingress)⟩

/-! ## Commands that change no name -/

/-- A state with the same tables, seen through its egress ports. -/
theorem of_registry (h : Represents s P b) {b' : Board Name Factory} (hL : Linked s' P')
    (hreg : s'.registry = s.registry) (hkind : b'.kind = b.kind)
    (hnext : ∀ n m : Name, b'.next n = some m ↔
      ∃ x y, s.lookup n = some x ∧ s.lookup m = some y ∧ (P' x).port .egress = s.idp y) :
    Represents s' P' b' where
  linked := hL
  built := h.built.congr hreg
  paired := hreg ▸ h.paired
  kind := fun n => by
    rw [hkind, h.kind, lookup_congr hreg, show s'.factory = s.factory from
      congrArg Registry.factory hreg]
  next := fun n m => by
    rw [hnext, lookup_congr hreg, lookup_congr hreg, show s'.idp = s.idp from
      congrArg Registry.idp hreg]

theorem quiet (h : Represents s P b) (hq : Quiet s s') : Represents s' P b :=
  h.of_registry (h.linked.quiet hq) hq.registry rfl h.next

end Represents

/-! ## Commands that change one name -/

/-- The names other than `n` lead to blocks with the ports, the idps and the types that theirs had. -/
structure Retains (n : Name) (s s' : State) (P P' : Addr → Ports) : Prop where
  fore : ∀ {k : Name} {a}, k ≠ n → s.lookup k = some a → ∃ a', s'.lookup k = some a' ∧
    P' a' = P a ∧ s'.idp a' = s.idp a ∧ s'.factory a' = s.factory a
  back : ∀ {k : Name}, k ≠ n → s.lookup k = none → s'.lookup k = none

namespace Represents

variable {s s' : State} {P P' : Addr → Ports} {b b' : Board Name Factory} {n m : Name} {x y : Addr}

/-- The names of a state are its record. -/
theorem recorded (h : Represents s P b) : Recorded s s.lookup :=
  ⟨h.paired, ⟨P, h.linked.toReferenced⟩, fun _ => rfl⟩

theorem kind_retains (h : Represents s P b) (hr : Retains n s s' P P') {k : Name} (hk : k ≠ n) :
    b.kind k = (s'.lookup k).bind s'.factory := by
  rw [h.kind k]
  rcases ha : s.lookup k with _ | a
  · rw [hr.back hk ha]
    rfl
  · obtain ⟨a', ha', -, -, hf⟩ := hr.fore hk ha
    rw [ha']
    exact hf.symm

/-- The connections between the other names are those that were there. -/
theorem next_retains (h : Represents s P b) (hr : Retains n s s' P P') {k k' : Name} (hk : k ≠ n)
    (hk' : k' ≠ n) : b.next k = some k' ↔
      ∃ x y, s'.lookup k = some x ∧ s'.lookup k' = some y ∧ (P' x).port .egress = s'.idp y := by
  rw [h.next k k']
  constructor
  · rintro ⟨a, c, ha, hc, hac⟩
    obtain ⟨a', ha', hPa, -⟩ := hr.fore hk ha
    obtain ⟨c', hc', -, hic, -⟩ := hr.fore hk' hc
    exact ⟨a', c', ha', hc', by rw [hPa, hic, hac]⟩
  · rintro ⟨a', c', ha', hc', hac⟩
    have hknown : ∀ {j : Name} {e}, j ≠ n → s'.lookup j = some e → ∃ e', s.lookup j = some e' := by
      intro j e hj he
      refine Option.ne_none_iff_exists'.1 fun hnone => ?_
      rw [hr.back hj hnone] at he
      cases he
    obtain ⟨a, ha⟩ := hknown hk ha'
    obtain ⟨c, hc⟩ := hknown hk' hc'
    obtain ⟨a'', ha'', hPa, -⟩ := hr.fore hk ha
    obtain ⟨c'', hc'', -, hic, -⟩ := hr.fore hk' hc
    obtain rfl := Option.some.inj (ha'.symm.trans ha'')
    obtain rfl := Option.some.inj (hc'.symm.trans hc'')
    exact ⟨a, c, ha, hc, by rw [← hPa, ← hic, hac]⟩

/-- A block with free ports is at no end of a connection. -/
theorem ne_of_ports (hL : Linked s' P')
    (hfree : ∀ x, s'.lookup n = some x → ∀ d, (P' x).port d = idpUnknown) {k k' : Name}
    (hx : s'.lookup k = some x) (hy : s'.lookup k' = some y)
    (hxy : (P' x).port .egress = s'.idp y) : k ≠ n ∧ k' ≠ n := by
  constructor
  · rintro rfl
    exact hL.idp_ne (has_of_lookup hy) (hxy.symm.trans (hfree x hx .egress))
  · rintro rfl
    -- a port that named the block would be answered
    have hback := (hL.symm (has_of_lookup hx) (has_of_lookup hy) .egress).1 hxy
    exact hL.idp_ne (has_of_lookup hx) (hback.symm.trans (hfree y hy .ingress))

/-- A name without connections, before and after, gets another block or none. -/
theorem of_retains (h : Represents s P b) (hi : b.Idle n) (hr : Retains n s s' P P')
    (hL : Linked s' P') (hB : Built s') (hp : s'.registry.Paired)
    (hfree : ∀ x, s'.lookup n = some x → ∀ d, (P' x).port d = idpUnknown)
    (hkind : b'.kind = Function.update b.kind n ((s'.lookup n).bind s'.factory))
    (hnext : b'.next = b.next) : Represents s' P' b' := by
  refine ⟨hL, hB, hp, fun k => ?_, fun k k' => ?_⟩
  · rw [hkind, Function.update_apply]
    split_ifs with hk
    · rw [hk]
    · exact h.kind_retains hr hk
  · rw [hnext]
    constructor
    · intro hk
      exact (h.next_retains hr (hi.ne hk).1 (hi.ne hk).2).1 hk
    · rintro ⟨x, y, hx, hy, hxy⟩
      obtain ⟨hk, hk'⟩ := ne_of_ports hL hfree hx hy hxy
      exact (h.next_retains hr hk hk').2 ⟨x, y, hx, hy, hxy⟩

end Represents

section Handlers

variable {s : State} {P : Addr → Ports} {b : Board Name Factory} {n m : Name} {x y : Addr}

/-! ## Add -/

theorem userctlAdd_taken (h : s.lookup n = some x) (al : Alloc) (type : CStr) :
    userctlAdd al s n type = (.err .EINVAL, putFblock (s.addRefs (ref x)) x) := by
  unfold userctlAdd
  rw [searchFblockN_some h]

theorem userctlAdd_unfit (h : s.lookup n = none) {type : CStr}
    (ht : critbitGet Factory.type fbmap type = none) (al : Alloc) :
    userctlAdd al s n type = (.err .ENOMEM, s) := by
  unfold userctlAdd buildFblockObject
  rw [searchFblockN_none h, ht]

/-- While there are idps left, the next one is free. -/
theorem next_idp_free (hN : Numbered s.registry) (hwrap : s.idpCounter + 1 < 2 ^ 32) :
    s.fblmap s.nextIdp = none := by
  rcases hi : s.fblmap s.nextIdp with _ | a
  · rfl
  · have hle := (hN.entry _ a hi).2
    have hnext := nextIdp_toNat hwrap
    have hcount : s.registry.idpCounter = s.idpCounter := rfl
    omega

/-- A name that is free and a type that is known give a block. -/
theorem userctlAdd_fit (h : Represents s P b) {type : CStr} (hwrap : s.idpCounter + 1 < 2 ^ 32)
    {f : Factory} (hn : s.lookup n = none) (hf : critbitGet Factory.type fbmap type = some f) :
    ∃ t, Created s t (Priv.init 0 0) f.ops ∧
      (buildFblockObject .ok s type n).1 = some s.nextFblock ∧
      userctlAdd .ok s n type =
        (.ok, { t with factory := Function.update t.factory s.nextFblock (some f) }) := by
  rcases userctlAdd_result h.linked.tables .ok n type with ⟨-, -, hwhy⟩ | ⟨g, -, -, -, -, hok⟩ |
    ⟨g, hg, t, hret, -, hC, -, -, hbuilt, -, -, heq⟩
  · rcases hwhy with ⟨a, ha, -⟩ | ⟨hnone, -⟩
    · rw [hn] at ha
      cases ha
    · rw [hf] at hnone
      cases hnone
  · exact absurd (next_idp_free h.linked.numbered hwrap) (hok rfl).2.2
  · obtain rfl : g = f := Factory.type_injective (hg.trans (fbmap_get hf).symm)
    exact ⟨t, hC, hbuilt, Prod.ext hret heq⟩

/-- The new name leads to the new block, the others to theirs. -/
theorem lookup_add (h : Represents s P b) {type : CStr} (hwrap : s.idpCounter + 1 < 2 ^ 32)
    (hret : (userctlAdd .ok s n type).1 = .ok)
    (hbuilt : (buildFblockObject .ok s type n).1 = some s.nextFblock) (k : Name) :
    (userctlAdd .ok s n type).2.lookup k = if k = n then some s.nextFblock else s.lookup k := by
  rw [(recorded_add h.recorded n type hwrap).lookup k, Cmd.record, hret]
  dsimp only
  rw [hbuilt, Function.update_apply]
  simp only [Subtype.ext_iff]

/-- The blocks that were there are as they were. -/
theorem retains_created (h : Represents s P b) {t s' : State} {f : Factory} {P' : Addr → Ports}
    (hC : Created s t (Priv.init 0 0) f.ops)
    (heq : s' = { t with factory := Function.update t.factory s.nextFblock (some f) })
    (hP' : Copies s' P')
    (hlookup : ∀ k : Name, s'.lookup k = if k = n then some s.nextFblock else s.lookup k) :
    Retains n s s' P P' where
  fore := by
    intro k a hk ha
    have hold : a ≠ s.nextFblock := by
      rintro rfl
      obtain ⟨i, hi⟩ := has_of_lookup ha
      exact h.linked.tables.not_has_next i hi
    obtain ⟨-, hidp, -, hpriv, -⟩ := hC.keep a hold
    obtain ⟨c, hc⟩ := List.exists_mem_of_ne_nil _ s.online.nonempty
    have hon : s'.online = s.online := heq ▸ hC.online
    refine ⟨a, by rw [hlookup, if_neg hk, ha], ?_, by rw [heq]; exact hidp, ?_⟩
    · rw [← h.linked.copies a c hc, ← hP' a c (hon ▸ hc), heq]
      exact congrArg Priv.ports (congrFun hpriv c)
    · rw [heq]
      show Function.update t.factory s.nextFblock (some f) a = s.factory a
      rw [Function.update_of_ne hold, hC.factory]
  back := fun hk hnone => by rw [hlookup, if_neg hk, hnone]

theorem represents_add (h : Represents s P b) {type : CStr} (htype : type ≠ Factory.tee.type)
    (hwrap : s.idpCounter + 1 < 2 ^ 32) {f : Factory} (hn : s.lookup n = none)
    (hf : critbitGet Factory.type fbmap type = some f) :
    (userctlAdd .ok s n type).1 = .ok ∧
      ∃ P', Represents (userctlAdd .ok s n type).2 P' (b.place n f) := by
  obtain ⟨t, hC, hbuilt, hadd⟩ := userctlAdd_fit h hwrap hn hf
  have hret : (userctlAdd .ok s n type).1 = .ok := congrArg Prod.fst hadd
  have heq := congrArg Prod.snd hadd
  have hlookup := lookup_add h hwrap hret hbuilt
  have hnew : (userctlAdd .ok s n type).2.lookup n = some s.nextFblock := by
    rw [hlookup, if_pos rfl]
  obtain ⟨P', hL⟩ := linked_add h.linked .ok n htype hwrap
  refine ⟨hret, P', h.of_retains (idle_of_absent (h.unknown hn))
    (retains_created h hC heq hL.copies hlookup) hL (built_add h.built h.linked.tables n type)
    (recorded_add h.recorded n type hwrap).paired (fun x hx => ?_) ?_ rfl⟩
  · -- the new block has one reference, its own
    refine hL.ports_free (has_of_lookup hx) ?_
    obtain rfl := Option.some.inj (hnew.symm.trans hx)
    obtain ⟨i, hi⟩ := has_of_lookup hnew
    rw [heq] at hi ⊢
    rcases hC.new i _ hi with hi' | ⟨-, -, -, -, -, href, -⟩
    · exact absurd hi' (h.linked.tables.not_has_next i)
    · exact le_of_eq href
  · rw [hnew, heq]
    show Function.update b.kind n (some f) =
      Function.update b.kind n (Function.update t.factory s.nextFblock (some f) s.nextFblock)
    rw [Function.update_self]

/-! ## Rm -/

theorem userctlRemove_unknown (h : s.lookup n = none) : userctlRemove s n = (.err .EINVAL, s) := by
  unfold userctlRemove
  rw [searchFblockN_none h]

theorem userctlRemove_busy (h : s.lookup n = some x) (hf : s.factory x ≠ none)
    (hcnt : 1 < s.refcnt x) :
    userctlRemove s n = (.err .EBUSY, putFblock (s.addRefs (ref x)) x) := by
  obtain ⟨f, hf⟩ := Option.ne_none_iff_exists'.1 hf
  have hf' : (s.addRefs (ref x)).factory x = some f := hf
  unfold userctlRemove
  rw [searchFblockN_some h]
  dsimp only
  rw [hf']
  dsimp only
  rw [addRefs_refcnt, ref_self, if_pos (by omega)]

theorem represents_remove (h : Represents s P b) (hn : s.lookup n = some x) (hi : b.Idle n) :
    (userctlRemove s n).1 = .ok ∧ Represents (userctlRemove s n).2 P (b.drop n hi) := by
  have hcnt := (h.idle_iff hn).1 hi
  have hR := recorded_remove h.recorded n
  rcases userctlRemove_result s n with ⟨-, -, hwhy⟩ | ⟨a, f, ha, -, -, hret, hreg, -⟩
  · rcases hwhy x hn with hf | hbusy
    · exact absurd hf (h.built x (has_of_lookup hn))
    · omega
  obtain rfl := Option.some.inj (hn.symm.trans ha)
  obtain ⟨t, heq, -⟩ := unregisterNoRcu_spec h.linked.tables.wf x
  rw [heq] at hreg
  have hfactory : (userctlRemove s n).2.factory = s.factory := congrArg Registry.factory hreg
  have hidp : (userctlRemove s n).2.idp = s.idp := congrArg Registry.idp hreg
  have hlookup : ∀ k : Name, (userctlRemove s n).2.lookup k =
      if k = n then none else s.lookup k := by
    intro k
    rw [hR.lookup k, Cmd.record, hret]
    dsimp only
    rw [Function.update_apply]
    simp only [Subtype.ext_iff]
  have hgone : (userctlRemove s n).2.lookup n = none := by rw [hlookup, if_pos rfl]
  have hretains : Retains n s (userctlRemove s n).2 P P :=
    ⟨fun {k a} hk ha => ⟨a, by rw [hlookup, if_neg hk, ha], rfl, congrFun hidp a,
      congrFun hfactory a⟩, fun hk hnone => by rw [hlookup, if_neg hk, hnone]⟩
  refine ⟨hret, h.of_retains hi hretains (linked_remove h.linked n)
    (built_exec h.built h.linked (c := .rm n) trivial) hR.paired (fun x hx => ?_) ?_ rfl⟩
  · rw [hgone] at hx
    cases hx
  · rw [hgone]
    rfl

/-! ## Bind and unbind -/

/-- Two free ports can be bound. -/
theorem fblockBind_of_free (hP : Copies s P) (h1 : (P x).port .egress = idpUnknown)
    (h2 : (P y).port .ingress = idpUnknown) : (fblockBind .ok s x y).1 = .ok := by
  unfold fblockBind
  simp only [getFblock_eq, addRefs_addRefs]
  set t := s.addRefs (ref x + ref y)
  have hPt : Copies t P := hP
  rcases eventRx_bind hPt x .egress (t.idp y) with ⟨hb, -⟩ | ⟨Q1, pd1, hb, e1, hP1, -⟩
  · rw [Ports.bind_of_free h1] at hb
    cases hb
  rw [Ports.bind_of_free h1] at hb
  obtain rfl := Option.some.inj hb
  rw [e1]
  rcases eventRx_bind hP1 y .ingress (t.idp x) with ⟨hb, -⟩ | ⟨Q2, pd2, hb, e2, hP2, -⟩
  · rw [Ports.bind_of_free] at hb
    · cases hb
    · rw [port_update_set, if_neg fun h => by cases h.2]
      exact h2
  simp only [show ((t.withPriv pd1).idp x) = t.idp x from rfl, e2]
  rfl

theorem userctlBind_unknown (h : s.lookup n = none ∨ s.lookup m = none) (al : Alloc) :
    (userctlBind al s n m).1 = .err .EINVAL ∧ Quiet s (userctlBind al s n m).2 := by
  rcases withTuple_cases s n m (fblockBind al) with hq | ⟨x, y, hx, hy, -⟩
  · exact hq
  · rcases h with h | h
    · rw [h] at hx
      cases hx
    · rw [h] at hy
      cases hy

theorem userctlUnbind_unknown (h : s.lookup n = none ∨ s.lookup m = none) :
    (userctlUnbind s n m).1 = .err .EINVAL ∧ Quiet s (userctlUnbind s n m).2 := by
  rcases withTuple_cases s n m fblockUnbind with hq | ⟨x, y, hx, hy, -⟩
  · exact hq
  · rcases h with h | h
    · rw [h] at hx
      cases hx
    · rw [h] at hy
      cases hy

theorem userctlBind_known (hn : s.lookup n = some x) (hm : s.lookup m = some y) (al : Alloc) :
    userctlBind al s n m = ((fblockBind al (s.addRefs (ref x + ref y)) x y).1,
      putFblock (putFblock (fblockBind al (s.addRefs (ref x + ref y)) x y).2 x) y) := by
  unfold userctlBind withTuple
  rw [searchFblockN_some hn]
  dsimp only
  rw [searchFblockN_some (show (s.addRefs (ref x)).lookup m = some y from hm), addRefs_addRefs]

theorem userctlUnbind_known (hn : s.lookup n = some x) (hm : s.lookup m = some y) :
    userctlUnbind s n m = ((fblockUnbind (s.addRefs (ref x + ref y)) x y).1,
      putFblock (putFblock (fblockUnbind (s.addRefs (ref x + ref y)) x y).2 x) y) := by
  unfold userctlUnbind withTuple
  rw [searchFblockN_some hn]
  dsimp only
  rw [searchFblockN_some (show (s.addRefs (ref x)).lookup m = some y from hm), addRefs_addRefs]

/-- The ports of the blocks that are entered decide the connections. -/
theorem next_of_ports (h : Represents s P b) {P' : Addr → Ports}
    (hP : ∀ a, s.registry.Has a → P' a = P a) (n m : Name) : b.next n = some m ↔
      ∃ x y, s.lookup n = some x ∧ s.lookup m = some y ∧ (P' x).port .egress = s.idp y := by
  rw [h.next n m]
  refine exists_congr fun x => exists_congr fun y => and_congr_right fun hx => ?_
  rw [hP x (has_of_lookup hx)]

/-- The connections after the egress port of one block got a new value. -/
theorem next_update (h : Represents s P b) (hn : s.lookup n = some x) {P' : Addr → Ports}
    {i : Idp} {o : Option Name}
    (hP : ∀ a, (P' a).port .egress = if a = x then i else (P a).port .egress)
    (ho : ∀ m : Name, o = some m ↔ ∃ y, s.lookup m = some y ∧ i = s.idp y) (k m : Name) :
    Function.update b.next n o k = some m ↔
      ∃ x y, s.lookup k = some x ∧ s.lookup m = some y ∧ (P' x).port .egress = s.idp y := by
  rw [Function.update_apply]
  split_ifs with hk
  · subst hk
    rw [ho m]
    constructor
    · rintro ⟨y, hy, hi⟩
      exact ⟨x, y, hn, hy, by rw [hP, if_pos rfl, hi]⟩
    · rintro ⟨x', y, hx', hy, hport⟩
      obtain rfl := Option.some.inj (hn.symm.trans hx')
      rw [hP, if_pos rfl] at hport
      exact ⟨y, hy, hport⟩
  · rw [h.next k m]
    refine exists_congr fun x' => exists_congr fun y => and_congr_right fun hx' => ?_
    have hne : x' ≠ x := by
      rintro rfl
      exact hk (h.lookup_inj hx' hn)
    rw [hP, if_neg hne]

theorem represents_bind (h : Represents s P b) (n m : Name) :
    (userctlBind .ok s n m).1 = answerRet (b.exec (.join n m)).1 ∧
      ∃ P', Represents (userctlBind .ok s n m).2 P' (b.exec (.join n m)).2 := by
  by_cases hnone : s.lookup n = none ∨ s.lookup m = none
  · obtain ⟨hret, hq⟩ := userctlBind_unknown hnone .ok
    rw [exec_join_unknown (hnone.imp h.unknown h.unknown)]
    exact ⟨hret, P, h.quiet hq⟩
  obtain ⟨hn, hm⟩ := not_or.1 hnone
  obtain ⟨x, hn⟩ := Option.ne_none_iff_exists'.1 hn
  obtain ⟨y, hm⟩ := Option.ne_none_iff_exists'.1 hm
  have hx := has_of_lookup hn
  have hy := has_of_lookup hm
  have hreg := registry_userctlBind .ok s n m
  have hr : BindResult s P x y (userctlBind .ok s n m) := by
    rw [userctlBind_known hn hm]
    exact (fblockBind_result (h.linked.copies.addRefs _) rfl rfl x y).tuple
  have hfree : (P x).port .egress = idpUnknown → (P y).port .ingress = idpUnknown →
      (userctlBind .ok s n m).1 = .ok := by
    intro h1 h2
    rw [userctlBind_known hn hm]
    exact fblockBind_of_free (h.linked.copies.addRefs _) h1 h2
  obtain ⟨P', hL⟩ := h.linked.bind hx hy hr hreg
  rcases hr with ⟨P'', hret, hP, -, htwo, -⟩ | ⟨Q1, Q2, h1, h2, hret, hP, -⟩
  · obtain rfl := hP.unique hL.copies
    have hbusy : ¬ (b.next n = none ∧ b.Unfed m) := by
      rintro ⟨hout, hin⟩
      have hok := hfree ((h.next_none hn).1 hout) ((h.unfed hm).1 hin)
      rw [hret] at hok
      cases hok
    rw [exec_join_busy (h.known hn) (h.known hm) hbusy]
    exact ⟨hret, P', h.of_registry hL hreg rfl
      (next_of_ports h fun a ha => htwo a (h.linked.ops_ne ha))⟩
  · rw [Ports.bind_two (h.linked.ops_ne hx)] at h1
    rw [Ports.bind_two (h.linked.ops_ne hy)] at h2
    split_ifs at h1 h2 with hp1 hp2
    obtain rfl := Option.some.inj h1
    obtain rfl := Option.some.inj h2
    rw [port_update_set, if_neg fun e => by cases e.2] at hp2
    obtain rfl := hP.unique hL.copies
    rw [exec_join (h.known hn) (h.known hm) ((h.next_none hn).2 hp1) ((h.unfed hm).2 hp2)]
    refine ⟨hret, _, h.of_registry hL hreg rfl (next_update h hn (i := s.idp y) (fun a => ?_)
      fun k => ?_)⟩
    · simp only [port_update_set, reduceCtorEq, and_false, if_false, and_true]
    · constructor
      · rintro hk
        obtain rfl := Option.some.inj hk
        exact ⟨y, hm, rfl⟩
      · rintro ⟨z, hz, hyz⟩
        obtain rfl := h.linked.tables.idp_inj hy (has_of_lookup hz) hyz
        rw [h.lookup_inj hm hz]

theorem represents_unbind (h : Represents s P b) (n m : Name) :
    (userctlUnbind s n m).1 = answerRet (b.exec (.part n m)).1 ∧
      ∃ P', Represents (userctlUnbind s n m).2 P' (b.exec (.part n m)).2 := by
  by_cases hnone : s.lookup n = none ∨ s.lookup m = none
  · obtain ⟨hret, hq⟩ := userctlUnbind_unknown hnone
    rw [exec_part_unknown (hnone.imp h.unknown h.unknown)]
    exact ⟨hret, P, h.quiet hq⟩
  obtain ⟨hn, hm⟩ := not_or.1 hnone
  obtain ⟨x, hn⟩ := Option.ne_none_iff_exists'.1 hn
  obtain ⟨y, hm⟩ := Option.ne_none_iff_exists'.1 hm
  have hx := has_of_lookup hn
  have hy := has_of_lookup hm
  have hreg := registry_userctlUnbind s n m
  have hr : UnbindResult s P x y (userctlUnbind s n m) := by
    rw [userctlUnbind_known hn hm]
    exact (fblockUnbind_result (h.linked.copies.addRefs _) x y).tuple
  have hnext : b.next n = some m ↔ (P x).port .egress = s.idp y := by
    rw [h.next n m]
    constructor
    · rintro ⟨x', y', hx', hy', hxy⟩
      obtain rfl := Option.some.inj (hn.symm.trans hx')
      obtain rfl := Option.some.inj (hm.symm.trans hy')
      exact hxy
    · exact fun hxy => ⟨x, y, hn, hm, hxy⟩
  obtain ⟨P', hL⟩ := h.linked.unbind hx hy hr hreg
  rcases hr with ⟨h1, hret, hP, -⟩ | ⟨Q1, h1, h2, -⟩ | ⟨Q1, Q2, h1, h2, hret, hP, -⟩
  · rw [Ports.unbind_two (h.linked.ops_ne hx)] at h1
    split_ifs at h1 with hp
    obtain rfl := hP.unique hL.copies
    rw [exec_part_busy (h.known hn) (h.known hm) (mt hnext.1 hp)]
    exact ⟨hret, P', h.of_registry hL hreg rfl h.next⟩
  · -- the second block names the first back
    rw [Ports.unbind_two (h.linked.ops_ne hx)] at h1
    rw [Ports.unbind_two (h.linked.ops_ne hy)] at h2
    split_ifs at h1 h2 with hp1 hp2
    obtain rfl := Option.some.inj h1
    rw [port_update_set, if_neg fun e => by cases e.2] at hp2
    exact absurd ((h.linked.symm hx hy .egress).1 hp1) hp2
  · rw [Ports.unbind_two (h.linked.ops_ne hx)] at h1
    rw [Ports.unbind_two (h.linked.ops_ne hy)] at h2
    split_ifs at h1 h2 with hp1 hp2
    obtain rfl := Option.some.inj h1
    obtain rfl := Option.some.inj h2
    obtain rfl := hP.unique hL.copies
    rw [exec_part (hnext.2 hp1)]
    refine ⟨hret, _, h.of_registry hL hreg rfl (next_update h hn (i := idpUnknown) (fun a => ?_)
      fun k => ?_)⟩
    · simp only [port_update_set, reduceCtorEq, and_false, if_false, and_true]
    · constructor
      · intro hk
        cases hk
      · rintro ⟨z, hz, hyz⟩
        exact absurd hyz.symm (h.linked.idp_ne (has_of_lookup hz))

/-! ## Replace -/

/-- The second block of a replace may take the first one's place where its name is another and has
no connections. -/
theorem replaceable_iff (h : Represents s P b) (hn : s.lookup n = some x)
    (hm : s.lookup m = some y) :
    (s.addRefs (ref x + ref y)).refcnt y ≤ 2 ↔ n ≠ m ∧ b.Idle m := by
  constructor
  · intro hle
    obtain ⟨hxy, hcnt⟩ := unreferenced_of_le_two (h.linked.pos y (has_of_lookup hm)) hle
    refine ⟨?_, (h.idle_iff hm).2 hcnt⟩
    rintro rfl
    exact hxy (Option.some.inj (hm.symm.trans hn))
  · rintro ⟨hne, hidle⟩
    have hcnt := (h.idle_iff hm).1 hidle
    have hxy : y ≠ x := by
      rintro rfl
      exact hne (h.lookup_inj hn hm)
    rw [addRefs_refcnt, Pi.add_apply, ref_self, ref_of_ne hxy]
    omega

/-- The first name leads to the second block, the second name to none. -/
theorem lookup_replace (h : Represents s P b) (hm : s.lookup m = some y)
    (hok : (userctlReplace .ok s n m false).1 = .ok) (k : Name) :
    (userctlReplace .ok s n m false).2.lookup k =
      if k = n then some y else if k = m then none else s.lookup k := by
  rw [(recorded_replace h.recorded n m false).lookup k, Cmd.record, hok]
  dsimp only
  rw [Function.update_apply, Function.update_apply, hm]
  simp only [Subtype.ext_iff]

/-- The second block has the ports, the idp and the type of the first. -/
theorem retains_replaced (h : Represents s P b) (hn : s.lookup n = some x)
    (hm : s.lookup m = some y) {s' : State} {entry : Option Addr}
    (hT : Replaced s x y entry s'.registry) (hxy : s.factory x = s.factory y)
    (hlookup : ∀ k : Name, s'.lookup k =
      if k = n then some y else if k = m then none else s.lookup k) :
    Retains m s s' P (swapField P y x) where
  fore := by
    intro k a hk ha
    have hidp : s'.idp = Function.update s.idp y (s.idp x) := hT.idp
    have hfactory : s'.factory = s.factory := hT.factory
    rw [hlookup, hidp, hfactory]
    by_cases hkn : k = n
    · subst hkn
      obtain rfl := Option.some.inj (hn.symm.trans ha)
      exact ⟨y, if_pos rfl, swapField_dst .., Function.update_self .., hxy.symm⟩
    · have hax : a ≠ x := by
        rintro rfl
        exact hkn (h.lookup_inj ha hn)
      have hay : a ≠ y := by
        rintro rfl
        exact hk (h.lookup_inj ha hm)
      exact ⟨a, by rw [if_neg hkn, if_neg hk, ha], swapField_of_ne hay hax,
        Function.update_of_ne hay .., rfl⟩
  back := by
    intro k hk hnone
    have hkn : k ≠ n := by
      rintro rfl
      rw [hn] at hnone
      cases hnone
    rw [hlookup, if_neg hkn, if_neg hk, hnone]

theorem represents_relieved (h : Represents s P b) (hsame : SameType s n m)
    (hn : s.lookup n = some x) (hm : s.lookup m = some y) (hne : n ≠ m) (hidle : b.Idle m) :
    (userctlReplace .ok s n m false).1 = .ok ∧
      ∃ P', Represents (userctlReplace .ok s n m false).2 P' (b.drop m hidle) := by
  obtain ⟨f, hf⟩ := Option.ne_none_iff_exists'.1 (h.built x (has_of_lookup hn))
  obtain ⟨g, hg⟩ := Option.ne_none_iff_exists'.1 (h.built y (has_of_lookup hm))
  have hok : (userctlReplace .ok s n m false).1 = .ok := by
    rw [userctlReplace_eq hn hm hf hg ((replaceable_iff h hn hm).2 ⟨hne, hidle⟩)]
    dsimp only
    rw [registerFblock_replaceSteps]
    rfl
  obtain ⟨P', hL⟩ := @linked_replace _ _ h.linked .ok _ _ (fun _ => rfl) hsame
  rcases userctlReplace_result h.linked.copies h.linked.pos .ok n m false with ⟨hret, -⟩ |
    ⟨a, hret, -⟩ | ⟨x', y', f', g', hn', hm', hf', hg', -, -, -, hreg, -, hP, -⟩
  · exact absurd hok hret
  · exact absurd hok hret
  obtain rfl := Option.some.inj (hn.symm.trans hn')
  obtain rfl := Option.some.inj (hm.symm.trans hm')
  obtain rfl := Option.some.inj (hf.symm.trans hf')
  obtain rfl := Option.some.inj (hg.symm.trans hg')
  obtain rfl : f = g := hsame f (by rw [hn]; exact hf) g (by rw [hm]; exact hg)
  rw [show exchanges f f false = true by simp [exchanges], if_pos rfl] at hP
  obtain rfl := hP.unique hL.copies
  have hlookup := lookup_replace (n := n) h hm hok
  have hgone : (userctlReplace .ok s n m false).2.lookup m = none := by
    rw [hlookup, if_neg hne.symm, if_pos rfl]
  refine ⟨hok, _, h.of_retains hidle
    (retains_replaced h hn hm (replaced_tables h.linked.tables hreg) (hf.trans hg.symm) hlookup)
    hL (built_exec h.built h.linked (c := .replace n m false .ok) rfl)
    (recorded_replace h.recorded n m false).paired (fun z hz => ?_) ?_ rfl⟩
  · rw [hgone] at hz
    cases hz
  · rw [hgone]
    rfl

theorem represents_replace (h : Represents s P b) {n m : Name} (hsame : SameType s n m) :
    (userctlReplace .ok s n m false).1 = answerRet (b.exec (.relieve n m)).1 ∧
      ∃ P', Represents (userctlReplace .ok s n m false).2 P' (b.exec (.relieve n m)).2 := by
  rcases hn : s.lookup n with _ | x
  · rw [exec_relieve_unknown (.inl (h.unknown hn)), userctlReplace_unknown hn]
    exact ⟨rfl, P, h⟩
  obtain ⟨f, hf⟩ := Option.ne_none_iff_exists'.1 (h.built x (has_of_lookup hn))
  rcases hm : s.lookup m with _ | y
  · rw [exec_relieve_unknown (.inr (h.unknown hm)), userctlReplace_second hn hf hm]
    exact ⟨rfl, P, h.quiet (quiet_get_put s x)⟩
  obtain ⟨g, hg⟩ := Option.ne_none_iff_exists'.1 (h.built y (has_of_lookup hm))
  by_cases hle : (s.addRefs (ref x + ref y)).refcnt y ≤ 2
  · obtain ⟨hne, hidle⟩ := (replaceable_iff h hn hm).1 hle
    rw [exec_relieve (h.known hn) (h.known hm) hne hidle]
    exact represents_relieved h hsame hn hm hne hidle
  · rw [exec_relieve_busy (h.known hn) (h.known hm) (mt (replaceable_iff h hn hm).2 hle),
      userctlReplace_busy hn hf hm hg (not_le.1 hle)]
    exact ⟨rfl, P, h.quiet (quiet_get_put_two s x y)⟩

end Handlers

/-! ## Runs -/

/-- **Step.** A command is answered as its operation on the board is, and has its effect. -/
theorem represents_exec {s : State} {b : Board Name Factory} (h : ∃ P, Represents s P b) {c : Cmd}
    (hc : (c.Basic ∧ c.TwoPort s) ∧ c.IdpLeft s) :
    ∃ op, c.op = some op ∧ c.ret s = answerRet (b.exec op).1 ∧
      ∃ P', Represents (c.exec s) P' (b.exec op).2 := by
  obtain ⟨P, h⟩ := h
  obtain ⟨⟨hbasic, htwo⟩, hleft⟩ := hc
  cases c with
  | add n type al =>
    obtain rfl : al = .ok := hbasic
    refine ⟨_, rfl, ?_⟩
    rcases hn : s.lookup n with _ | x
    · rcases hf : critbitGet Factory.type fbmap type with _ | f
      · rw [exec_place_unfit (h.unknown hn)]
        show (userctlAdd .ok s n type).1 = _ ∧ ∃ P', Represents (userctlAdd .ok s n type).2 P' _
        rw [userctlAdd_unfit hn hf]
        exact ⟨rfl, P, h⟩
      · rw [exec_place (h.unknown hn)]
        exact represents_add h htwo (hleft rfl) hn hf
    · rw [exec_place_taken (h.known hn)]
      show (userctlAdd .ok s n type).1 = _ ∧ ∃ P', Represents (userctlAdd .ok s n type).2 P' _
      rw [userctlAdd_taken hn]
      exact ⟨rfl, P, h.quiet (quiet_get_put s x)⟩
  | rm n =>
    refine ⟨_, rfl, ?_⟩
    show (userctlRemove s n).1 = _ ∧ ∃ P', Represents (userctlRemove s n).2 P' _
    rcases hn : s.lookup n with _ | x
    · rw [exec_drop_unknown (h.unknown hn), userctlRemove_unknown hn]
      exact ⟨rfl, P, h⟩
    by_cases hi : b.Idle n
    · rw [exec_drop (h.known hn) hi]
      obtain ⟨hret, h'⟩ := represents_remove h hn hi
      exact ⟨hret, P, h'⟩
    · have hcnt := not_le.1 (mt (h.idle_iff hn).2 hi)
      rw [exec_drop_busy (h.known hn) hi,
        userctlRemove_busy hn (h.built x (has_of_lookup hn)) hcnt]
      exact ⟨rfl, P, h.quiet (quiet_get_put s x)⟩
  | bind n m al =>
    obtain rfl : al = .ok := hbasic
    exact ⟨_, rfl, represents_bind h n m⟩
  | unbind n m => exact ⟨_, rfl, represents_unbind h n m⟩
  | replace n m dropPriv al =>
    obtain rfl : al = .ok := hbasic
    obtain ⟨rfl, -, hsame⟩ := htwo
    exact ⟨_, rfl, represents_replace h hsame⟩
  | _ => exact absurd hbasic id

/-- **Run.** The return values of a run are the answers of the board, and the state reached
represents the board reached. -/
theorem represents_run {s : State} {b : Board Name Factory} {cmds : List Cmd}
    (h : ∃ P, Represents s P b)
    (hok : Transition.Allowed Cmd.exec (fun s c => (c.Basic ∧ c.TwoPort s) ∧ c.IdpLeft s) s cmds) :
    Transition.answers Cmd.exec Cmd.ret s cmds =
        (b.answers (cmds.filterMap Cmd.op)).map answerRet ∧
      ∃ P, Represents (run s cmds) P (b.run (cmds.filterMap Cmd.op)) := by
  unfold Board.answers
  rw [← Transition.answers_map answerRet]
  exact Transition.answers_sim (R := fun s b => ∃ P, Represents s P b)
    (fun s b c h hc => represents_exec h hc) h hok

/-- **Refinement.** In every run of add, rm, bind, unbind and of replace within a type and without
`dropPriv`, over two-port blocks, with memory and idps left, the commands return what the operations
on a board answer.  After it the names are those of the board, each with the type of its block, and on
every online CPU the ports of two blocks name each other exactly where the board connects their
names. -/
theorem control_refines_board (online : OnlineCpus) (cmds : List Cmd)
    (hok : Transition.Allowed Cmd.exec (fun s c => (c.Basic ∧ c.TwoPort s) ∧ c.IdpLeft s)
      (State.init online) cmds) :
    let s := run (State.init online) cmds
    let b := (Board.empty : Board Name Factory).run (cmds.filterMap Cmd.op)
    Transition.answers Cmd.exec Cmd.ret (State.init online) cmds =
        ((Board.empty : Board Name Factory).answers (cmds.filterMap Cmd.op)).map answerRet ∧
      (∀ n : Name, (s.lookup n).bind s.factory = b.kind n) ∧
      ∀ cpu ∈ s.online.cpus, ∀ n x, s.lookup n.1 = some x →
        ((s.privateData x cpu).port .egress = idpUnknown ↔ b.next n = none) ∧
        ((s.privateData x cpu).port .ingress = idpUnknown ↔ b.Unfed n) ∧
        ∀ m y, s.lookup m.1 = some y →
          ((s.privateData x cpu).port .egress = s.idp y ↔ b.next n = some m) ∧
          ((s.privateData x cpu).port .ingress = s.idp y ↔ b.next m = some n) := by
  intro s b
  obtain ⟨hans, P, h⟩ := represents_run ⟨_, represents_init online⟩ hok
  refine ⟨hans, fun n => (h.kind n).symm, fun cpu hcpu n x hn => ?_⟩
  have hport : ∀ a d, (s.privateData a cpu).port d = (P a).port d :=
    fun a d => congrFun (congrArg Ports.port (h.linked.copies a cpu hcpu)) d
  have hnext : ∀ {n m : Name} {x y}, s.lookup n = some x → s.lookup m = some y →
      ((P x).port .egress = s.idp y ↔ b.next n = some m) := by
    intro n m x y hn hm
    rw [h.next n m]
    constructor
    · exact fun hxy => ⟨x, y, hn, hm, hxy⟩
    · rintro ⟨x', y', hx', hy', hxy⟩
      obtain rfl := Option.some.inj (hn.symm.trans hx')
      obtain rfl := Option.some.inj (hm.symm.trans hy')
      exact hxy
  refine ⟨?_, ?_, fun m y hm => ⟨?_, ?_⟩⟩
  · rw [hport, h.next_none hn]
  · rw [hport, h.unfed hn]
  · rw [hport, hnext hn hm]
  · rw [hport, ← hnext hm hn]
    exact h.linked.symm (has_of_lookup hn) (has_of_lookup hm) .ingress

/-- Two blocks bound, with refusals of every kind on the way. -/
def boardRun : List Cmd :=
  [.add nameA Factory.dummy.type .ok, .add nameA Factory.bpf.type .ok, .add nameC nameC .ok,
    .bind nameA nameB .ok, .add nameB Factory.counter.type .ok, .bind nameA nameB .ok, .rm nameB,
    .unbind nameB nameA]

theorem control_refines_board_run :
    ((Board.empty : Board Name Factory).answers (boardRun.filterMap Cmd.op)).map answerRet =
        [.ok, .err .EINVAL, .err .ENOMEM, .err .EINVAL, .ok, .ok, .err .EBUSY, .err .EBUSY] ∧
      ((Board.empty : Board Name Factory).run (boardRun.filterMap Cmd.op)).next nameA =
        some nameB := by
  obtain ⟨hans, -, hports⟩ := control_refines_board oneCpu boardRun (by decide)
  refine ⟨hans.symm.trans (by decide), ?_⟩
  exact (((hports 0 (by decide) nameA 0 (by decide)).2.2 nameB 1 (by decide)).1).1 (by decide)

/-! ## Taking the stack apart -/

/-- The commands that only take away. -/
def Cmd.IsRemoval : Cmd → Prop
  | .rm _ | .unbind _ _ => True
  | _ => False

theorem Cmd.IsRemoval.allowed {c : Cmd} (h : c.IsRemoval) (s : State) :
    (c.Basic ∧ c.TwoPort s) ∧ c.IdpLeft s := by
  cases c with
  | rm n => exact ⟨⟨trivial, trivial⟩, fun h => by cases h⟩
  | unbind n m => exact ⟨⟨trivial, trivial⟩, fun h => by cases h⟩
  | _ => exact absurd h id

/-- The commands for the operations that take a board apart. -/
theorem exists_removals : ∀ ops : List (Op Name Factory), (∀ op ∈ ops, op.IsRemoval) →
    ∃ cmds : List Cmd, (∀ c ∈ cmds, c.IsRemoval) ∧ cmds.filterMap Cmd.op = ops := by
  intro ops
  induction ops with
  | nil => exact fun _ => ⟨[], by simp, rfl⟩
  | cons op ops ih =>
    intro h
    obtain ⟨cmds, hrem, hops⟩ := ih fun op' hop' => h op' (List.mem_cons_of_mem op hop')
    have hcmd : ∃ c : Cmd, c.IsRemoval ∧ c.op = some op := by
      have hop := h op List.mem_cons_self
      cases op with
      | drop n => exact ⟨.rm n, trivial, rfl⟩
      | part n m => exact ⟨.unbind n m, trivial, rfl⟩
      | _ => exact absurd hop id
    obtain ⟨c, hc, hcop⟩ := hcmd
    refine ⟨c :: cmds, fun c' hc' => ?_, ?_⟩
    · rcases List.mem_cons.1 hc' with rfl | hc'
      · exact hc
      · exact hrem c' hc'
    · rw [List.filterMap_cons_some hcop, hops]

/-- **Dismantling.** From every state that such a run reaches there are unbind and rm commands that all
return 0 and leave no block and no name in the tables. -/
theorem control_dismantles (online : OnlineCpus) (cmds : List Cmd)
    (hok : Transition.Allowed Cmd.exec (fun s c => (c.Basic ∧ c.TwoPort s) ∧ c.IdpLeft s)
      (State.init online) cmds) :
    ∃ last : List Cmd, (∀ c ∈ last, c.IsRemoval) ∧
      (∀ r ∈ Transition.answers Cmd.exec Cmd.ret (run (State.init online) cmds) last, r = .ok) ∧
      (∀ i, (run (State.init online) (cmds ++ last)).fblmap i = none) ∧
      ∀ n, (run (State.init online) (cmds ++ last)).registry.names n = none := by
  obtain ⟨-, h⟩ := represents_run ⟨_, represents_init online⟩ hok
  obtain ⟨ops, hrem, hans, hempty⟩ :=
    ((Board.empty : Board Name Factory).run (cmds.filterMap Cmd.op)).dismantle
  obtain ⟨last, hlast, hops⟩ := exists_removals ops hrem
  obtain ⟨hrets, P, h'⟩ := represents_run h
    (Transition.allowed_of_forall fun c hc s => (hlast c hc).allowed s)
  rw [hops] at hrets h'
  rw [hempty] at h'
  have hrun : run (State.init online) (cmds ++ last) = run (run (State.init online) cmds) last :=
    List.foldl_append ..
  refine ⟨last, hlast, fun r hr => ?_, ?_⟩
  · rw [hrets] at hr
    obtain ⟨a, ha, rfl⟩ := List.mem_map.1 hr
    rw [hans a ha]
    rfl
  rw [hrun]
  generalize run (run (State.init online) cmds) last = t at h'
  have hno : ∀ i, t.fblmap i = none := by
    intro i
    rcases hi : t.fblmap i with _ | x
    · rfl
    · obtain ⟨n, hn⟩ := h'.exists_name ⟨i, hi⟩
      exact absurd rfl (h'.known hn)
  refine ⟨hno, fun n => ?_⟩
  rcases hn : t.registry.names n with _ | i
  · rfl
  · obtain ⟨x, hx, -⟩ := h'.linked.tables.named n i hn
    exact absurd ((hno i).symm.trans hx) (by simp)

theorem control_dismantles_ring :
    (run (State.init oneCpu) ringRun).fblmap 1 = some 2 ∧
      ∃ last : List Cmd, (∀ c ∈ last, c.IsRemoval) ∧
        (∀ r ∈ Transition.answers Cmd.exec Cmd.ret (run (State.init oneCpu) ringRun) last,
          r = .ok) ∧
        (run (State.init oneCpu) (ringRun ++ last)).fblmap 1 = none := by
  obtain ⟨last, hlast, hok, hempty, -⟩ := control_dismantles oneCpu ringRun (by decide)
  exact ⟨by decide, last, hlast, hok, hempty 1⟩

end Lana
