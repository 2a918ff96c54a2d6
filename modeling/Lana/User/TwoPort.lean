import Lana.User.Wiring

/-!
# Bindings and counts of two-port blocks

The invariant of `Lana.User.Wiring` read off the state, for runs of add, rm, bind, unbind and
same-type replace over the types dummy, counter and bpf (`two_port_invariant`).  It needs idps to
be left at each add: `idp_t` has 32 bits, so that in the end a block gets the idp 0, which is
`IDP_UNKNOWN`, and every free port seems to name it (`two_port_wrap`).
-/

namespace Lana

open State

/-- The number of ports in use on one CPU. -/
def Priv.portsInUse (p : Priv) : ℕ :=
  [PathType.ingress, PathType.egress].countP fun d => p.port d ≠ idpUnknown

theorem portsInUse_eq {p : Priv} (h : p.ports.clone = idpUnknown) :
    p.portsInUse = p.ports.count := by
  have hi : p.ports.port .ingress = p.port .ingress := rfl
  have he : p.ports.port .egress = p.port .egress := rfl
  unfold Priv.portsInUse Ports.count Ports.used
  rw [h, hi, he]
  by_cases h1 : p.port .ingress = idpUnknown <;> by_cases h2 : p.port .egress = idpUnknown <;>
    simp [h1, h2]

/-- Every entered block comes from a factory. -/
def Built (s : State) : Prop := ∀ a, s.registry.Has a → s.registry.factory a ≠ none

section Built

variable {s s' : State} {P : Addr → Ports}

theorem Built.congr (h : Built s) (hreg : s'.registry = s.registry) : Built s' := by
  intro a ha
  rw [hreg] at ha ⊢
  exact h a ha

theorem built_add (h : Built s) (hT : Tables s.registry) (n : Name) (type : CStr) :
    Built (userctlAdd .ok s n type).2 := by
  rcases userctlAdd_result hT .ok n type with ⟨-, hq, -⟩ | ⟨f, -, -, -, hC, hok⟩ |
    ⟨f, -, t, -, -, hC, -, -, -, -, -, heq⟩
  · exact h.congr hq.registry
  · rintro a ⟨i, hi⟩
    have hi' : s.fblmap i = some a := (hok rfl).1 ▸ hi
    show (userctlAdd .ok s n type).2.factory a ≠ none
    rw [hC.factory]
    exact h a ⟨i, hi'⟩
  · rw [heq]
    rintro a ⟨i, hi⟩
    show Function.update t.factory s.nextFblock (some f) a ≠ none
    rw [Function.update_apply]
    split_ifs with ha
    · exact Option.some_ne_none f
    · rcases hC.new i a hi with hi' | ⟨ha', -⟩
      · rw [hC.factory]
        exact h a ⟨i, hi'⟩
      · exact absurd ha' ha

theorem built_exec (h : Built s) (hL : Linked s P) {c : Cmd} (hc : c.Basic) : Built (c.exec s) := by
  cases c with
  | add n type al =>
    obtain rfl : al = .ok := hc
    exact built_add h hL.tables n type
  | rm n =>
    rcases userctlRemove_result s n with ⟨-, hq, -⟩ | ⟨a, f, -, -, -, -, hreg, -⟩
    · exact h.congr hq.registry
    · obtain ⟨t, heq, -⟩ := unregisterNoRcu_spec hL.tables.wf a
      rw [heq] at hreg
      rintro b ⟨i, hi⟩
      rw [show (Cmd.exec s (.rm n)).registry = _ from hreg] at hi ⊢
      have hi' : Function.update s.fblmap (s.idp a) none i = some b := hi
      rw [Function.update_apply] at hi'
      split_ifs at hi'
      exact h b ⟨i, hi'⟩
  | bind n1 n2 al => exact h.congr (registry_userctlBind al s n1 n2)
  | unbind n1 n2 => exact h.congr (registry_userctlUnbind s n1 n2)
  | replace n1 n2 dropPriv al =>
    rcases userctlReplace_result hL.copies hL.pos al n1 n2 dropPriv with ⟨-, hq⟩ |
      ⟨a, -, -, hreg, -⟩ | ⟨fb1, fb2, f1, f2, -, h2, -, -, -, -, -, hreg, -⟩
    · exact h.congr hq.registry
    · exact h.congr hreg
    · have hR := replaced_tables hL.tables hreg
      rintro b ⟨i, hi⟩
      rw [show (Cmd.exec s (.replace n1 n2 dropPriv al)).registry.factory = _ from hR.factory]
      rw [show (Cmd.exec s (.replace n1 n2 dropPriv al)).registry.fblmap i = _ from hR.fblmap i] at hi
      split_ifs at hi
      · obtain rfl := Option.some.inj hi
        exact h fb2 (has_of_lookup h2)
      · exact h b ⟨i, hi⟩
  | _ => exact absurd hc id

end Built

theorem built_run {s : State} {cmds : List Cmd} (h : ∃ P, Linked s P ∧ Built s)
    (hok : Transition.Allowed Cmd.exec (fun s c => (c.Basic ∧ c.TwoPort s) ∧ c.IdpLeft s) s cmds) :
    ∃ P, Linked (run s cmds) P ∧ Built (run s cmds) := by
  have hstep : ∀ s (c : Cmd), (∃ P, Linked s P ∧ Built s) → (c.Basic ∧ c.TwoPort s) ∧ c.IdpLeft s →
      ∃ P, Linked (c.exec s) P ∧ Built (c.exec s) := by
    rintro s c ⟨P, hP, hb⟩ ⟨⟨hbasic, htwo⟩, hleft⟩
    obtain ⟨P', hP'⟩ := linked_exec hP htwo hleft
    exact ⟨P', hP', built_exec hb hP hbasic⟩
  exact Transition.invariant_of_allowed (I := fun s => ∃ P, Linked s P ∧ Built s) hstep h hok

/-- **Bindings of two-port blocks.** After every run of add, rm, bind, unbind and same-type replace
in which there are idps left at each add, on every online CPU: the ports of two registered blocks name
each other or neither does, a port in use names a registered block, and a block has one reference
beside three for each port in use.  A block that rm would remove is named by no port. -/
theorem two_port_invariant (online : OnlineCpus) (cmds : List Cmd)
    (hok : Transition.Allowed Cmd.exec (fun s c => (c.Basic ∧ c.TwoPort s) ∧ c.IdpLeft s)
      (State.init online) cmds) :
    let s := run (State.init online) cmds
    (∀ cpu ∈ s.online.cpus,
      (∀ i j A B, s.fblmap i = some A → s.fblmap j = some B →
        ((s.privateData A cpu).port .egress = s.idp B ↔
          (s.privateData B cpu).port .ingress = s.idp A)) ∧
      (∀ i A d, s.fblmap i = some A → (s.privateData A cpu).port d ≠ idpUnknown →
        ∃ B, s.fblmap ((s.privateData A cpu).port d) = some B) ∧
      (∀ i A, s.fblmap i = some A → s.refcnt A = 1 + 3 * (s.privateData A cpu).portsInUse)) ∧
    ∀ n a, (userctlRemove s n).1 = .ok → s.lookup n = some a →
      ∀ cpu ∈ s.online.cpus, ∀ i B d, s.fblmap i = some B →
        (s.privateData B cpu).port d ≠ s.idp a := by
  intro s
  obtain ⟨P, h, hb⟩ := built_run ⟨_, linked_init online, fun a ⟨i, hi⟩ => by cases hi⟩ hok
  have hport : ∀ cpu ∈ s.online.cpus, ∀ a d, (s.privateData a cpu).port d = (P a).port d :=
    fun cpu hcpu a d => congrFun (congrArg Ports.port (h.copies a cpu hcpu)) d
  refine ⟨fun cpu hcpu => ⟨fun i j A B hA hB => ?_, fun i A d hA hne => ?_, fun i A hA => ?_⟩,
    fun n a hret hlookup cpu hcpu i B d hB hnames => ?_⟩
  · rw [hport cpu hcpu, hport cpu hcpu]
    exact h.symm ⟨i, hA⟩ ⟨j, hB⟩ .egress
  · rw [hport cpu hcpu] at hne ⊢
    have hnet := net_idp (P := P) h.tables ⟨i, hA⟩
    obtain ⟨q, hq, -⟩ := h.wired.back _ _ d hnet hne
    obtain ⟨B, hB, -⟩ := Option.map_eq_some_iff.1 hq
    exact ⟨B, hB⟩
  · have hcopy := h.copies A cpu hcpu
    rw [portsInUse_eq (by rw [hcopy]; exact h.unclone A ⟨i, hA⟩), hcopy]
    exact (h.refs A ⟨i, hA⟩).2 (hb A ⟨i, hA⟩)
  · rcases userctlRemove_result s n with ⟨hret', -⟩ | ⟨a', f, hlookup', -, hcnt, -⟩
    · exact hret' hret
    · obtain rfl := Option.some.inj (hlookup'.symm.trans hlookup)
      have ha := has_of_lookup hlookup
      rw [hport cpu hcpu] at hnames
      -- the block would name the other one back
      have hback := (h.symm ⟨i, hB⟩ ha d).1 hnames
      rw [h.ports_free ha hcnt] at hback
      exact h.idp_ne ⟨i, hB⟩ hback.symm

/-- Two blocks bound to each other both ways round, then one replaced by a third. -/
def ringRun : List Cmd :=
  [.add nameA Factory.dummy.type .ok, .add nameB Factory.counter.type .ok,
    .add nameC Factory.dummy.type .ok, .bind nameA nameB .ok, .bind nameB nameA .ok,
    .replace nameA nameC false .ok]

theorem two_port_invariant_ring :
    (run (State.init oneCpu) ringRun).fblmap 1 = some 2 ∧
      (run (State.init oneCpu) ringRun).refcnt 2 = 7 := by
  have hmap : (run (State.init oneCpu) ringRun).fblmap 1 = some 2 := by decide
  have h := (two_port_invariant oneCpu ringRun (by decide)).1 0 (by decide)
  refine ⟨hmap, (h.2.2 1 2 hmap).trans ?_⟩
  decide

/-! ## The last idp

A block that stays, and others added and removed until the counter has gone round. -/

/-- Only block 0 is entered: `a`, with idp 1 and free ports. -/
structure Alone (s : State) : Prop where
  tables : Tables s.registry
  entered : s.fblmap = Function.update (fun _ => none) 1 (some 0)
  name : s.name 0 = nameA
  next : 0 < s.nextFblock
  free : (s.privateData 0 0).ports = .free
  online : s.online = oneCpu

/-- A second block is entered beside it. -/
structure Beside (s : State) (i : Idp) (b : Addr) : Prop where
  tables : Tables s.registry
  entered : s.fblmap = Function.update (Function.update (fun _ => none) 1 (some 0)) i (some b)
  fresh : b ≠ 0
  name : s.name 0 = nameA
  named : s.registry.names nameB = some i
  factory : s.factory b = some .dummy
  refcnt : s.refcnt b = 1
  free : (s.privateData 0 0).ports = .free
  free' : (s.privateData b 0).ports = .free
  online : s.online = oneCpu

theorem Alone.lookup {s : State} (h : Alone s) : s.lookup nameB = none := by
  have hnone : s.registry.names nameB = none := by
    rcases hn : s.registry.names nameB with _ | i
    · rfl
    · obtain ⟨a, ha, hname⟩ := h.tables.named _ i hn
      have ha' : Function.update (fun _ => none) 1 (some 0) i = some a := h.entered ▸ ha
      rw [Function.update_apply] at ha'
      split_ifs at ha'
      obtain rfl := Option.some.inj ha'
      have hAB : (nameA : CStr) = nameB := h.name.symm.trans hname
      exact absurd hAB (by decide)
  rw [lookup_eq, hnone, h.entered]
  rfl

theorem Alone.add {s : State} (h : Alone s) (hi : s.nextIdp ≠ 1) :
    Beside (Cmd.exec s (.add nameB Factory.dummy.type .ok)) s.nextIdp s.nextFblock ∧
      (Cmd.exec s (.add nameB Factory.dummy.type .ok)).idpCounter =
        (s.idpCounter + 1) % 2 ^ 64 := by
  have hfree : s.fblmap s.nextIdp = none := by
    rw [h.entered, Function.update_of_ne hi]
  have h0 : (0 : Addr) ≠ s.nextFblock := ne_of_lt h.next
  show Beside (userctlAdd .ok s nameB Factory.dummy.type).2 _ _ ∧
    (userctlAdd .ok s nameB Factory.dummy.type).2.idpCounter = _
  rcases userctlAdd_result h.tables .ok nameB Factory.dummy.type with ⟨-, -, hwhy⟩ |
    ⟨f, -, -, -, -, hok⟩ | ⟨f, hf, t, -, -, hC, -, hmap, -, -, hnames, heq⟩
  · rcases hwhy with ⟨a, ha, -⟩ | ⟨hwhy, -⟩
    · exact absurd (h.lookup.symm.trans ha) (by simp)
    · exact absurd hwhy (by decide)
  · exact absurd hfree (hok rfl).2.2
  · obtain ⟨hname, -, -, hpriv, -⟩ := hC.keep 0 h0
    have hin : t.fblmap s.nextIdp = some s.nextFblock := by rw [hmap, Function.update_self]
    rcases hC.new _ _ hin with hold | ⟨-, -, -, hcnt, hnew, hone, -⟩
    · exact absurd (hfree.symm.trans hold) (by simp)
    · have hdummy : f = .dummy := by revert hf; cases f <;> decide
      rw [heq]
      refine ⟨⟨⟨hC.tables.wf, hC.tables.short, hC.tables.named, hC.tables.stored⟩, ?_, h0.symm,
        hname.trans h.name, ?_, ?_, hone, ?_, ?_, ?_⟩, hcnt⟩
      · show t.fblmap = _
        rw [hmap, h.entered]
      · exact (hnames nameB).trans (if_pos rfl)
      · show Function.update t.factory s.nextFblock (some f) s.nextFblock = _
        rw [Function.update_self, hdummy]
      · show (t.privateData 0 0).ports = _
        rw [hpriv, h.free]
      · show (t.privateData s.nextFblock 0).ports = _
        rw [hnew]
        rfl
      · exact hC.online.trans h.online

theorem Beside.remove {s : State} {i : Idp} {b : Addr} (h : Beside s i b) (hi : i ≠ 1) :
    Alone (Cmd.exec s (.rm nameB)) ∧ (Cmd.exec s (.rm nameB)).idpCounter = s.idpCounter := by
  obtain ⟨a, hlookup, ha, -, hidp⟩ := lookup_of_named h.tables h.named
  obtain rfl : b = a := by
    rw [h.entered, Function.update_self] at ha
    exact Option.some.inj ha
  show Alone (userctlRemove s nameB).2 ∧ (userctlRemove s nameB).2.idpCounter = _
  rcases userctlRemove_result s nameB with ⟨-, -, hwhy⟩ |
    ⟨a, f, hlookup', -, -, -, hreg, -, hports, -⟩
  · rcases hwhy b hlookup with hnone | hbusy
    · exact absurd (h.factory.symm.trans hnone) (by simp)
    · rw [h.refcnt] at hbusy
      exact absurd hbusy (by decide)
  · obtain rfl : a = b := Option.some.inj (hlookup'.symm.trans hlookup)
    have hT := tables_unregister h.tables ⟨i, ha⟩
    obtain ⟨t, heq, -, -⟩ := unregisterNoRcu_spec h.tables.wf a
    rw [← hreg] at hT
    rw [heq] at hreg
    have hlt : (0 : Addr) < s.nextFblock := by
      have h1 : s.registry.fblmap 1 = some 0 := by
        show s.fblmap 1 = some 0
        rw [h.entered, Function.update_of_ne hi.symm, Function.update_self]
      exact (h.tables.stored 1 0 h1).2
    refine ⟨⟨hT, ?_, ?_, ?_, ?_, ?_⟩, congrArg Registry.idpCounter hreg⟩
    · rw [show (userctlRemove s nameB).2.fblmap = _ from congrArg Registry.fblmap hreg]
      show Function.update s.fblmap (s.idp a) none = _
      rw [hidp, h.entered, Function.update_idem, Function.update_eq_self_iff,
        Function.update_of_ne hi]
    · rw [show (userctlRemove s nameB).2.name = _ from congrArg Registry.name hreg]
      exact h.name
    · rw [show (userctlRemove s nameB).2.nextFblock = _ from congrArg Registry.nextFblock hreg]
      exact hlt
    · rw [hports, h.free]
    · rw [show (userctlRemove s nameB).2.online = _ from congrArg Registry.online hreg]
      exact h.online

/-- `b` is added and removed again, `k` times. -/
def addRemove (k : ℕ) : List Cmd :=
  (List.replicate k [Cmd.add nameB Factory.dummy.type .ok, Cmd.rm nameB]).flatten

/-- Each round takes one idp. -/
theorem alone_addRemove (k : ℕ) {s : State} (h : Alone s) (h1 : 1 ≤ s.idpCounter)
    (hk : s.idpCounter + k < 2 ^ 32) :
    Alone (run s (addRemove k)) ∧ (run s (addRemove k)).idpCounter = s.idpCounter + k := by
  induction k generalizing s with
  | zero => exact ⟨h, rfl⟩
  | succ k ih =>
    have hnext : s.nextIdp ≠ 1 := by
      intro heq
      have htoNat := nextIdp_toNat (s := s) (by omega)
      rw [heq] at htoNat
      have : (1 : Idp).toNat = 1 := rfl
      omega
    obtain ⟨hbeside, hadd⟩ := h.add hnext
    obtain ⟨halone, hrm⟩ := hbeside.remove hnext
    rw [hadd, Nat.mod_eq_of_lt (by omega)] at hrm
    obtain ⟨hfin, hcnt⟩ := ih halone (by omega) (by omega)
    exact ⟨hfin, hcnt.trans (by omega)⟩

/-- `a` is added, `b` goes `k` times, and comes a last time. -/
def wrapRun (k : ℕ) : List Cmd :=
  .add nameA Factory.dummy.type .ok :: (addRemove k ++ [.add nameB Factory.dummy.type .ok])

theorem run_wrapRun (k : ℕ) (s : State) :
    run s (wrapRun k) = Cmd.exec (run (Cmd.exec s (.add nameA Factory.dummy.type .ok))
      (addRemove k)) (.add nameB Factory.dummy.type .ok) := by
  unfold wrapRun run
  rw [List.foldl_cons, List.foldl_append]
  rfl

theorem allowed_addRemove (ok : State → Cmd → Prop)
    (hadd : ∀ s, ok s (.add nameB Factory.dummy.type .ok)) (hrm : ∀ s, ok s (.rm nameB)) (k : ℕ)
    (s : State) :
    Transition.Allowed Cmd.exec ok s (addRemove k) := by
  induction k generalizing s with
  | zero => trivial
  | succ k ih => exact ⟨hadd s, hrm _, ih _⟩

theorem alone_first : Alone (Cmd.exec (State.init oneCpu) (.add nameA Factory.dummy.type .ok)) := by
  obtain ⟨P, h⟩ := linked_exec (linked_init oneCpu) (c := .add nameA Factory.dummy.type .ok)
    (by decide) (by decide)
  refine ⟨h.tables, rfl, ?_, ?_, rfl, rfl⟩
  · decide
  · decide

/-- When the counter has gone round, `b` is entered under the idp 0. -/
theorem beside_wrapRun {k : ℕ} (hk : k + 2 = 2 ^ 32) :
    ∃ b, Beside (run (State.init oneCpu) (wrapRun k)) 0 b := by
  have hone : (Cmd.exec (State.init oneCpu) (.add nameA Factory.dummy.type .ok)).idpCounter = 1 := by
    decide
  obtain ⟨h, hcnt⟩ := alone_addRemove k alone_first (by omega) (by omega)
  rw [run_wrapRun]
  generalize run _ (addRemove k) = t at h hcnt
  have hidp : t.nextIdp = 0 := by
    unfold State.nextIdp
    rw [hcnt, hone, show 1 + k + 1 = 2 ^ 32 by omega]
    decide
  obtain ⟨hb, -⟩ := h.add (by rw [hidp]; decide)
  exact ⟨_, hidp ▸ hb⟩

theorem allowed_wrapRun (k : ℕ) : Transition.Allowed Cmd.exec (fun s c => c.Basic ∧ c.TwoPort s)
    (State.init oneCpu) (wrapRun k) := by
  have hadd : Factory.dummy.type ≠ Factory.tee.type := by decide
  refine ⟨⟨rfl, hadd⟩, Transition.allowed_append.2 ⟨?_, ⟨rfl, hadd⟩, trivial⟩⟩
  exact allowed_addRemove _ (fun _ => ⟨rfl, hadd⟩) (fun _ => ⟨trivial, trivial⟩) _ _

/-- The free egress port of `a` seems to name a block with the idp 0. -/
theorem Beside.not_symm {s : State} {b : Addr} (h : Beside s 0 b) :
    0 ∈ s.online.cpus ∧ s.fblmap 1 = some 0 ∧ s.fblmap 0 = some b ∧
      ¬ ((s.privateData 0 0).port .egress = s.idp b ↔
        (s.privateData b 0).port .ingress = s.idp 0) := by
  have h1 : s.fblmap 1 = some 0 := by
    rw [h.entered, Function.update_of_ne (by decide), Function.update_self]
  have h0 : s.fblmap 0 = some b := by
    rw [h.entered, Function.update_self]
  have he : (s.privateData 0 0).port .egress = 0 := congrArg (·.port .egress) h.free
  have hi : (s.privateData b 0).port .ingress = 0 := congrArg (·.port .ingress) h.free'
  have hidpA : s.idp 0 = 1 := (h.tables.stored 1 0 h1).1
  have hidpB : s.idp b = 0 := (h.tables.stored 0 _ h0).1
  refine ⟨?_, h1, h0, ?_⟩
  · rw [h.online]
    decide
  · rw [he, hi, hidpA, hidpB]
    decide

/-- The last block of the run has the idp 0: the free egress port of `a` seems to name it. -/
theorem two_port_wrap :
    Transition.Allowed Cmd.exec (fun s c => c.Basic ∧ c.TwoPort s) (State.init oneCpu)
      (wrapRun (2 ^ 32 - 2)) ∧
    ∃ b, let s := run (State.init oneCpu) (wrapRun (2 ^ 32 - 2))
      0 ∈ s.online.cpus ∧ s.fblmap 1 = some 0 ∧ s.fblmap 0 = some b ∧
      ¬ ((s.privateData 0 0).port .egress = s.idp b ↔
        (s.privateData b 0).port .ingress = s.idp 0) := by
  obtain ⟨b, hb⟩ := beside_wrapRun (k := 2 ^ 32 - 2) (by norm_num)
  exact ⟨allowed_wrapRun _, b, hb.not_symm⟩

end Lana
