import Lana.User.Effects
import Lana.Library.Transition

/-!
# Names and blocks

Over the commands add, rm, bind, unbind and replace, with memory for everything and fewer than
`2 ^ 32` additions, the names in `idpmap` and the blocks in `fblmap` stay in one-to-one
correspondence (`Registry.Paired`).  A replacement of a block by itself would break it; it is
refused because a registered block has at least `1 + 3 * (ports in use)` references
(`Referenced`).
-/

namespace Lana

open State

/-- Every entry of `fblmap` is the block of its name. -/
structure Registry.Paired (r : Registry) : Prop where
  tables : Tables r
  numbered : Numbered r
  entries : ∀ i a, r.fblmap i = some a → r.names (r.name a) = some i

/-- Each port in use stands for three references, beside the one of the table. -/
structure Referenced (s : State) (P : Addr → Ports) : Prop where
  copies : Copies s P
  refs : ∀ a, s.registry.Has a → 1 + 3 * ((P a).count : ℤ) ≤ s.refcnt a

theorem Referenced.pos {s : State} {P : Addr → Ports} (h : Referenced s P) (a : Addr)
    (ha : s.registry.Has a) : 1 ≤ s.refcnt a := by
  have := h.refs a ha
  omega

theorem Referenced.quiet {s s' : State} {P : Addr → Ports} (h : Referenced s P) (hq : Quiet s s') :
    Referenced s' P := by
  refine ⟨hq.copies h.copies, fun a ha => ?_⟩
  rw [hq.registry] at ha
  rw [hq.refcnt]
  exact h.refs a ha

/-! ## Counting ports -/

/-- Two events on ports, each changing one count by `k`. -/
theorem count_update_two {P : Addr → Ports} {a b : Addr} {Q1 Q2 : Ports} {k : ℤ}
    (h1 : (Q1.count : ℤ) = (P a).count + k)
    (h2 : (Q2.count : ℤ) = (Function.update P a Q1 b).count + k) (x : Addr) :
    ((Function.update (Function.update P a Q1) b Q2 x).count : ℤ) =
      (P x).count + k * (ref a x + ref b x) := by
  have hone : ∀ y, ((Function.update P a Q1 y).count : ℤ) = (P y).count + k * ref a y := by
    intro y
    by_cases hy : y = a
    · subst hy
      rw [Function.update_self, ref_self, h1, mul_one]
    · rw [Function.update_of_ne hy, ref_of_ne hy, mul_zero, add_zero]
  by_cases hx : x = b
  · subst hx
    rw [Function.update_self, h2, hone, ref_self]
    ring
  · rw [Function.update_of_ne hx, hone, ref_of_ne hx, add_zero]

section Steps

variable {s s' : State} {P : Addr → Ports}

theorem Referenced.bind {r : Ret × State} {a b : Addr} (h : Referenced s P)
    (hr : BindResult s P a b r) (hreg : r.2.registry = s.registry)
    (ha : s.idp a ≠ idpUnknown) (hb : s.idp b ≠ idpUnknown) : ∃ P', Referenced r.2 P' := by
  rcases hr with ⟨P', -, hP, hcount, -, -, href⟩ | ⟨Q1, Q2, h1, h2, -, hP, -, href⟩
  · refine ⟨P', hP, fun x hx => ?_⟩
    rw [hreg] at hx
    rw [href, hcount hb]
    exact h.refs x hx
  · refine ⟨_, hP, fun x hx => ?_⟩
    rw [hreg] at hx
    have hc1 := Ports.count_bind h1 hb
    have hc2 := Ports.count_bind h2 ha
    have hc : ((Function.update (Function.update P a Q1) b Q2 x).count : ℤ) =
        (P x).count + 1 * (ref a x + ref b x) := count_update_two (by omega) (by omega) x
    rw [href, hc]
    have := h.refs x hx
    show _ ≤ s.refcnt x + (3 • (ref a + ref b)) x
    rw [Pi.smul_apply, Pi.add_apply, nsmul_eq_mul]
    push_cast
    omega

theorem Referenced.unbind {r : Ret × State} {a b : Addr} (h : Referenced s P)
    (hr : UnbindResult s P a b r) (hreg : r.2.registry = s.registry)
    (ha : s.idp a ≠ idpUnknown) (hb : s.idp b ≠ idpUnknown) : ∃ P', Referenced r.2 P' := by
  rcases hr with ⟨-, -, hP, -, href⟩ | ⟨Q1, h1, -, -, hP, -, href⟩ | ⟨Q1, Q2, h1, h2, -, hP, -, href⟩
  · refine ⟨P, hP, fun x hx => ?_⟩
    rw [hreg] at hx
    rw [href]
    exact h.refs x hx
  · refine ⟨_, hP, fun x hx => ?_⟩
    rw [hreg] at hx
    have hc := Ports.count_unbind h1 hb
    have := h.refs x hx
    rw [href, Pi.sub_apply]
    by_cases hxa : x = a
    · subst hxa
      rw [Function.update_self, ref_self]
      omega
    · rw [Function.update_of_ne hxa, ref_of_ne hxa]
      omega
  · refine ⟨_, hP, fun x hx => ?_⟩
    rw [hreg] at hx
    have hc1 := Ports.count_unbind h1 hb
    have hc2 := Ports.count_unbind h2 ha
    have hc : ((Function.update (Function.update P a Q1) b Q2 x).count : ℤ) =
        (P x).count + -1 * (ref a x + ref b x) := count_update_two (by omega) (by omega) x
    have := h.refs x hx
    have ha0 := ref_nonneg a x
    have hb0 := ref_nonneg b x
    rw [href, hc]
    simp only [Pi.sub_apply]
    split_ifs <;> simp only [Pi.zero_apply, Pi.add_apply] <;> omega

theorem Referenced.created {area : Priv} {ops : FbType} (h : Referenced s P)
    (hT : Tables s.registry) (hC : Created s s' area ops) (harea : area.ports = Ports.free) :
    ∃ P', Referenced s' P' := by
  obtain ⟨Q, hP, hQ⟩ := hC.copies h.copies
  refine ⟨_, hP, fun a ha => ?_⟩
  obtain ⟨i, hi⟩ := ha
  rcases hC.new i a hi with hold | ⟨rfl, -, hnone, -, -, href, -⟩
  · have hne : a ≠ s.nextFblock := by
      rintro rfl
      exact hT.not_has_next i hold
    rw [Function.update_of_ne hne, (hC.keep a hne).2.2.2.2.1]
    exact h.refs a ⟨i, hold⟩
  · have hfree : s.fblmap i ≠ some s.nextFblock := by
      rw [hnone]
      exact (Option.some_ne_none _).symm
    rw [Function.update_self, hQ i hi hfree, harea, Ports.count_free, href]
    norm_num

/-- A registered block that nothing refers to has no port in use. -/
theorem Referenced.count_zero (h : Referenced s P) {a : Addr} (ha : s.registry.Has a)
    (hcnt : s.refcnt a ≤ 1) : (P a).count = 0 := by
  have := h.refs a ha
  omega

/-! ## Pairing -/

theorem Registry.Paired.name_of_lookup (h : s.registry.Paired) {n : CStr} {a : Addr}
    (hl : s.lookup n = some a) :
    s.registry.names n = some (s.idp a) ∧ s.fblmap (s.idp a) = some a ∧ s.name a = n := by
  rw [lookup_eq_bind h.numbered] at hl
  rcases hn : s.registry.names n with _ | i
  · rw [hn] at hl
    cases hl
  · rw [hn] at hl
    obtain ⟨b, hb, hname⟩ := h.tables.named n i hn
    obtain rfl := Option.some.inj (hb.symm.trans hl)
    have hidp : s.idp b = i := (h.tables.stored i b hb).1
    exact ⟨by rw [hidp], by rw [hidp]; exact hb, hname⟩

/-- Pairing is about the tables, names and idps alone. -/
theorem Registry.Paired.congr {r r' : Registry} (h : r.Paired) (hT : Tables r')
    (hN : Numbered r') (hnames : ∀ n, r'.names n = r.names n)
    (hmap : r'.fblmap = r.fblmap) (hname : ∀ i a, r.fblmap i = some a → r'.name a = r.name a) :
    r'.Paired := by
  refine ⟨hT, hN, fun i a hi => ?_⟩
  rw [hmap] at hi
  rw [hname i a hi, hnames]
  exact h.entries i a hi

/-- A new block under a free name. -/
theorem Registry.Paired.add {t : State} {area : Priv} {ops : FbType} {n : CStr}
    (h : s.registry.Paired) (hC : Created s t area ops) (hwrap : s.idpCounter + 1 < 2 ^ 32)
    (hlookup : s.lookup n = none) (hname : t.name s.nextFblock = n)
    (hnames : ∀ m, t.registry.names m = if m = n then some s.nextIdp else s.registry.names m) :
    t.registry.Paired := by
  refine ⟨hC.tables, hC.numbered h.numbered hwrap, fun i a hi => ?_⟩
  rcases hC.new i a hi with hold | ⟨rfl, rfl, -⟩
  · have hne : a ≠ s.nextFblock := by
      rintro rfl
      exact h.tables.not_has_next i hold
    have hent : s.registry.names (s.name a) = some i := h.entries i a hold
    show t.registry.names (t.name a) = some i
    rw [(hC.keep a hne).1, hnames, if_neg, hent]
    intro hn
    rw [hn, names_of_lookup_none h.tables hlookup] at hent
    cases hent
  · show t.registry.names (t.name s.nextFblock) = _
    rw [hname, hnames, if_pos rfl]

/-- The removal of a block. -/
theorem Registry.Paired.remove (h : s.registry.Paired) {a : Addr} (ha : s.registry.Has a) :
    (unregisterFblockNamespaceNoRcu s a).registry.Paired := by
  obtain ⟨t, heq, -, hnames⟩ := unregisterNoRcu_spec h.tables.wf a
  have hT := tables_unregister h.tables ha
  have hia : s.fblmap (s.idp a) = some a := h.tables.fblmap_idp ha
  rw [heq] at hT ⊢
  have hold : ∀ i b, Function.update s.fblmap (s.idp a) none i = some b →
      s.fblmap i = some b ∧ i ≠ s.idp a := by
    intro i b hi
    rw [Function.update_apply] at hi
    split_ifs at hi with hne
    exact ⟨hi, hne⟩
  refine ⟨hT, ⟨h.numbered.lt, fun i b hi => h.numbered.entry i b (hold i b hi).1⟩,
    fun i b hi => ?_⟩
  obtain ⟨hi, hne⟩ := hold i b hi
  show (critbitGet IdpElem.name t (s.name b)).map IdpElem.idp = some i
  have hb : s.registry.names (s.name b) = some i := h.entries i b hi
  have haa : s.registry.names (s.name a) = some (s.idp a) := h.entries _ a hia
  rw [hnames, if_neg, hb]
  intro hn
  rw [hn, haa] at hb
  exact hne (Option.some.inj hb).symm

/-- The replacement of one block by another. -/
theorem Registry.Paired.replace (h : s.registry.Paired) {fb1 fb2 : Addr}
    (h1 : s.registry.Has fb1) (h2 : s.registry.Has fb2) (hne : fb2 ≠ fb1) :
    (((unregisterFblockNamespaceNoRcu s fb2).registry.migrate fb2 fb1).enter
      (s.idp fb1) (some fb2)).Paired := by
  have e1 : s.fblmap (s.idp fb1) = some fb1 := h.tables.fblmap_idp h1
  have e2 : s.fblmap (s.idp fb2) = some fb2 := h.tables.fblmap_idp h2
  have n1 : s.registry.names (s.name fb1) = some (s.idp fb1) := h.entries _ _ e1
  have n2 : s.registry.names (s.name fb2) = some (s.idp fb2) := h.entries _ _ e2
  have hT := tables_replaced h.tables h1 h2
  generalize hr : ((unregisterFblockNamespaceNoRcu s fb2).registry.migrate fb2 fb1).enter
    (s.idp fb1) (some fb2) = r at hT ⊢
  have hR := replaced_tables h.tables hr.symm
  refine ⟨hT, ⟨?_, fun i a hi => ?_⟩, fun i a hi => ?_⟩
  · rw [hR.idpCounter]
    exact h.numbered.lt
  · rw [hR.idpCounter]
    obtain ⟨-, rfl⟩ | ⟨-, -, hold⟩ := entry_replaced h.tables hr.symm hi
    · exact h.numbered.entry _ _ e1
    · exact h.numbered.entry i a hold
  · rw [hR.fblmap] at hi
    rw [hR.names, hR.name]
    split_ifs at hi with hi1 hi2
    · obtain rfl := Option.some.inj hi
      rw [Function.update_self, if_neg, n1, hi1]
      intro hn
      -- equal names would mean equal idps
      rw [hn, n2] at n1
      rw [Option.some.inj n1, e1] at e2
      exact hne (Option.some.inj e2).symm
    · have hi' : s.registry.names (s.name a) = some i := h.entries i a hi
      have ha2 : a ≠ fb2 := by
        rintro rfl
        exact hi2 (h.tables.stored i a hi).1.symm
      rw [Function.update_of_ne ha2, if_neg, hi']
      intro hn
      rw [hn, n2] at hi'
      exact hi2 (Option.some.inj hi').symm

theorem Referenced.remove {a : Addr} (h : Referenced s P) (hT : Tables s.registry)
    (ha : s.registry.Has a) (hreg : s'.registry = (unregisterFblockNamespaceNoRcu s a).registry)
    (hports : ∀ b c, (s'.privateData b c).ports = (s.privateData b c).ports)
    (href : s'.refcnt = s.refcnt - ref a) : Referenced s' P := by
  obtain ⟨t, heq, -, -⟩ := unregisterNoRcu_spec hT.wf a
  rw [heq] at hreg
  refine ⟨h.copies.of_ports (congrArg Registry.online hreg) hports, fun b hb => ?_⟩
  obtain ⟨i, hi⟩ := hb
  rw [hreg] at hi
  have hi' : Function.update s.fblmap (s.idp a) none i = some b := hi
  rw [Function.update_apply] at hi'
  split_ifs at hi' with hne
  have hba : b ≠ a := by
    rintro rfl
    exact hne (hT.stored i b hi').1.symm
  rw [href, Pi.sub_apply, ref_of_ne hba, sub_zero]
  exact h.refs b ⟨i, hi'⟩

theorem Referenced.replace {fb1 fb2 : Addr} {exch : Bool} (h : Referenced s P)
    (hT : Tables s.registry) (h1 : s.registry.Has fb1) (h2 : s.registry.Has fb2)
    (hne : fb2 ≠ fb1) (hcnt : s.refcnt fb2 ≤ 1)
    (hreg : s'.registry = ((unregisterFblockNamespaceNoRcu s fb2).registry.migrate fb2 fb1).enter
      (s.idp fb1) (some fb2))
    (hP : Copies s' (if exch then swapField P fb2 fb1 else P))
    (href : s'.refcnt = swapField s.refcnt fb2 fb1 - ref fb1) :
    Referenced s' (if exch then swapField P fb2 fb1 else P) := by
  have h1' := h.refs fb1 h1
  have hzero := h.count_zero h2 hcnt
  refine ⟨hP, fun a ha => ?_⟩
  obtain ⟨i, hi⟩ := ha
  rw [href, Pi.sub_apply]
  obtain ⟨rfl, -⟩ | ⟨ha1, ha2, hold⟩ := entry_replaced hT hreg hi
  · rw [swapField_dst, ref_of_ne hne, sub_zero]
    cases exch
    · simp only [Bool.false_eq_true, if_false, hzero]
      omega
    · simp only [if_true, swapField_dst]
      exact h1'
  · have := h.refs a ⟨i, hold⟩
    rw [swapField_of_ne ha2 ha1, ref_of_ne ha1, sub_zero]
    cases exch
    · exact this
    · simp only [if_true, swapField_of_ne ha2 ha1]
      exact this

end Steps

/-! ## Runs -/

/-- The commands add, rm, bind, unbind and replace, with memory for all they allocate. -/
def Cmd.Basic : Cmd → Prop
  | .add _ _ al => al = .ok
  | .rm _ => True
  | .bind _ _ al => al = .ok
  | .unbind _ _ => True
  | .replace _ _ _ al => al = .ok
  | _ => False

instance : ∀ c : Cmd, Decidable c.Basic
  | .add _ _ al => inferInstanceAs (Decidable (al = .ok))
  | .rm _ => inferInstanceAs (Decidable True)
  | .bind _ _ al => inferInstanceAs (Decidable (al = .ok))
  | .unbind _ _ => inferInstanceAs (Decidable True)
  | .replace _ _ _ al => inferInstanceAs (Decidable (al = .ok))
  | .subscribe .. | .unsubscribe .. | .hookEth .. | .addEthvlink .. | .openSock .. | .stopVlink ..
  | .closeSock .. => inferInstanceAs (Decidable False)

/-- Which block was last added under a name, or swapped in by a replacement, according to what the
commands returned. -/
def Cmd.record (s : State) (m : CStr → Option Addr) : Cmd → CStr → Option Addr
  | .add name type al =>
    match (userctlAdd al s name type).1 with
    | .ok => Function.update m name (buildFblockObject al s type name).1
    | .err _ => m
  | .rm name =>
    match (userctlRemove s name).1 with
    | .ok => Function.update m name none
    | .err _ => m
  | .replace name1 name2 dropPriv al =>
    match (userctlReplace al s name1 name2 dropPriv).1 with
    | .ok => Function.update (Function.update m name2 none) name1 (m name2)
    | .err _ => m
  | _ => m

/-- The state after a run from `s`, and the record of the run. -/
def runRecord (s : State) (m : CStr → Option Addr) (cmds : List Cmd) :
    State × (CStr → Option Addr) :=
  cmds.foldl (fun p c => (c.exec p.1, c.record p.1 p.2)) (s, m)

theorem runRecord_fst (cmds : List Cmd) : ∀ (s : State) (m : CStr → Option Addr),
    (runRecord s m cmds).1 = run s cmds := by
  induction cmds with
  | nil => exact fun _ _ => rfl
  | cons c cmds ih => exact fun s m => ih (c.exec s) (c.record s m)

/-- The invariant of the runs. -/
structure Recorded (s : State) (m : CStr → Option Addr) : Prop where
  paired : s.registry.Paired
  referenced : ∃ P, Referenced s P
  lookup : ∀ n, s.lookup n = m n

section Record

variable {s : State} {m : CStr → Option Addr} {P : Addr → Ports}

theorem Recorded.congr {s' : State} (h : Recorded s m) (hreg : s'.registry = s.registry)
    (hP : Referenced s' P) : Recorded s' m := by
  refine ⟨hreg ▸ h.paired, ⟨P, hP⟩, fun n => ?_⟩
  rw [← h.lookup n, lookup_eq, lookup_eq, hreg, show s'.fblmap = s.fblmap from
    congrArg Registry.fblmap hreg]

theorem Recorded.quiet {s' : State} (h : Recorded s m) (hq : Quiet s s') : Recorded s' m := by
  obtain ⟨P, hP⟩ := h.referenced
  exact h.congr hq.registry (hP.quiet hq)

/-- Names other than that of a block do not lead to it. -/
theorem Registry.Paired.other (h : s.registry.Paired) {n : CStr} {i : Idp} {a : Addr}
    (hi : s.registry.names n = some i) (ha : s.registry.Has a) (hn : n ≠ s.name a) :
    i ≠ s.idp a := by
  rintro rfl
  obtain ⟨b, hb, hname⟩ := h.tables.named n _ hi
  have ha' : s.fblmap (s.idp a) = some a := h.tables.fblmap_idp ha
  obtain rfl := Option.some.inj (ha'.symm.trans hb)
  exact hn hname.symm

theorem recorded_add (h : Recorded s m) (n : Name) (type : CStr)
    (hwrap : s.idpCounter + 1 < 2 ^ 32) :
    Recorded (userctlAdd .ok s n type).2 ((Cmd.add n type .ok).record s m) := by
  obtain ⟨P, hP⟩ := h.referenced
  have hT := h.paired.tables
  rw [Cmd.record]
  rcases userctlAdd_result hT .ok n type with ⟨hret, hq, -⟩ | ⟨f, -, hret, hlookup, hC, hok⟩ |
    ⟨f, -, t, hret, hlookup, hC, hfree, hmap, hbuilt, hname, hnames, heq⟩
  · rcases hr : (userctlAdd .ok s n type).1 with _ | e
    · exact absurd hr hret
    · exact h.quiet hq
  · rw [hret]
    dsimp only
    obtain ⟨P', hP'⟩ := hP.created hT hC rfl
    obtain ⟨hmap, hidpmap, -⟩ := hok rfl
    have hnames : ∀ k, (userctlAdd .ok s n type).2.registry.names k = s.registry.names k := by
      intro k
      show (critbitGet IdpElem.name (userctlAdd .ok s n type).2.idpmap k).map IdpElem.idp = _
      rw [hidpmap]
      rfl
    refine ⟨h.paired.congr hC.tables (hC.numbered h.paired.numbered hwrap) hnames hmap ?_,
      ⟨P', hP'⟩, fun k => ?_⟩
    · intro i a hi
      refine (hC.keep a ?_).1
      rintro rfl
      exact hT.not_has_next i hi
    · rw [← h.lookup k, lookup_eq, lookup_eq, hnames, hmap]
  · rw [hret, heq, hbuilt]
    dsimp only
    obtain ⟨P', hP'⟩ := hP.created hT hC rfl
    have hpaired := h.paired.add hC hwrap hlookup hname hnames
    have hT' := hpaired.tables
    refine ⟨⟨⟨hT'.wf, hT'.short, hT'.named, hT'.stored⟩, ⟨hpaired.numbered.lt,
      hpaired.numbered.entry⟩, hpaired.entries⟩, ⟨P', hP'.copies, hP'.refs⟩, fun k => ?_⟩
    show t.lookup k = _
    rw [lookup_eq_bind hpaired.numbered, hnames, Function.update_apply]
    split_ifs with hk
    · show t.fblmap s.nextIdp = _
      rw [hmap, Function.update_self]
    · rw [← h.lookup k, lookup_eq_bind h.paired.numbered]
      rcases hi : s.registry.names k with _ | i
      · rfl
      · show t.fblmap i = s.fblmap i
        obtain ⟨a, ha, -⟩ := hT.named k i hi
        rw [hmap, Function.update_of_ne]
        rintro rfl
        rw [show s.registry.fblmap s.nextIdp = s.fblmap s.nextIdp from rfl, hfree] at ha
        cases ha

theorem recorded_remove (h : Recorded s m) (n : Name) :
    Recorded (userctlRemove s n).2 ((Cmd.rm n).record s m) := by
  obtain ⟨P, hP⟩ := h.referenced
  have hT := h.paired.tables
  rw [Cmd.record]
  rcases userctlRemove_result s n with ⟨hret, hq, -⟩ |
    ⟨a, f, hlookup, -, -, hret, hreg, -, hports, href⟩
  · rcases hr : (userctlRemove s n).1 with _ | e
    · exact absurd hr hret
    · exact h.quiet hq
  · have ha := has_of_lookup hlookup
    obtain ⟨-, -, hname⟩ := h.paired.name_of_lookup hlookup
    have hpaired := h.paired.remove ha
    obtain ⟨t, heq, -, hnames⟩ := unregisterNoRcu_spec hT.wf a
    rw [← hreg] at hpaired
    rw [hret]
    dsimp only
    refine ⟨hpaired, ⟨P, hP.remove hT ha hreg hports href⟩, fun k => ?_⟩
    have hmap : (userctlRemove s n).2.fblmap = Function.update s.fblmap (s.idp a) none := by
      refine (congrArg Registry.fblmap hreg).trans ?_
      rw [heq]
      rfl
    have hnames' : (userctlRemove s n).2.registry.names k =
        if k = s.name a then none else s.registry.names k := by
      rw [hreg, heq]
      exact hnames k
    rw [lookup_eq_bind hpaired.numbered, hnames', Function.update_apply, hname]
    split_ifs with hk
    · rfl
    · rw [← h.lookup k, lookup_eq_bind h.paired.numbered]
      rcases hi : s.registry.names k with _ | i
      · rfl
      · show (userctlRemove s n).2.fblmap i = s.fblmap i
        rw [hmap, Function.update_of_ne (h.paired.other hi ha (by rwa [hname]))]

theorem recorded_replace (h : Recorded s m) (n1 n2 : Name) (dropPriv : Bool) :
    Recorded (userctlReplace .ok s n1 n2 dropPriv).2
      ((Cmd.replace n1 n2 dropPriv .ok).record s m) := by
  obtain ⟨P, hP⟩ := h.referenced
  have hT := h.paired.tables
  rw [Cmd.record]
  rcases userctlReplace_result hP.copies hP.pos .ok n1 n2 dropPriv with ⟨hret, hq⟩ |
    ⟨a, hret, -, hreg, -, hports, href⟩ |
    ⟨fb1, fb2, f1, f2, h1, h2, -, -, hne, hcnt, hret, hreg, -, hP', href⟩
  · rcases hr : (userctlReplace .ok s n1 n2 dropPriv).1 with _ | e
    · exact absurd hr hret
    · exact h.quiet hq
  · rcases hr : (userctlReplace .ok s n1 n2 dropPriv).1 with _ | e
    · exact absurd hr hret
    · refine h.congr hreg (P := P) ⟨hP.copies.of_ports (congrArg Registry.online hreg) hports,
        fun b hb => ?_⟩
      rw [hreg] at hb
      have := hP.refs b hb
      have hnn := ref_nonneg a b
      rw [href, Pi.add_apply]
      omega
  · have hb1 := has_of_lookup h1
    have hb2 := has_of_lookup h2
    obtain ⟨hn1, e1, hname1⟩ := h.paired.name_of_lookup h1
    obtain ⟨hn2, e2, hname2⟩ := h.paired.name_of_lookup h2
    have hreg' : (userctlReplace .ok s n1 n2 dropPriv).2.registry =
        ((unregisterFblockNamespaceNoRcu s fb2).registry.migrate fb2 fb1).enter
          (s.idp fb1) (some fb2) := hreg
    have hpaired := h.paired.replace hb1 hb2 hne
    have hR := replaced_tables hT hreg'
    rw [← hreg'] at hpaired
    have hret' : (userctlReplace .ok s n1 n2 dropPriv).1 = .ok := hret
    rw [hret']
    dsimp only
    refine ⟨hpaired, ⟨_, hP.replace hT hb1 hb2 hne hcnt hreg' hP' href⟩, fun k => ?_⟩
    rw [lookup_eq_bind hpaired.numbered, hR.names, hname2, Function.update_apply,
      Function.update_apply]
    have hne12 : (n1 : CStr) ≠ n2 := by
      intro he
      rw [he, h2] at h1
      exact hne (Option.some.inj h1)
    by_cases hk2 : k = n2
    · rw [if_pos hk2, if_neg (by rw [hk2]; exact hne12.symm), if_pos hk2]
      rfl
    rw [if_neg hk2, if_neg hk2]
    by_cases hk1 : k = n1
    · rw [if_pos hk1, hk1, hn1, ← h.lookup n2, h2]
      show (userctlReplace .ok s n1 n2 dropPriv).2.registry.fblmap (s.idp fb1) = _
      rw [hR.fblmap, if_pos rfl]
    · rw [if_neg hk1, ← h.lookup k, lookup_eq_bind h.paired.numbered]
      rcases hi : s.registry.names k with _ | i
      · rfl
      · show (userctlReplace .ok s n1 n2 dropPriv).2.registry.fblmap i = s.fblmap i
        rw [hR.fblmap, if_neg (h.paired.other hi hb1 (by rwa [hname1])),
          if_neg (h.paired.other hi hb2 (by rwa [hname2]))]

theorem recorded_bind (h : Recorded s m) (n1 n2 : Name) :
    Recorded (userctlBind .ok s n1 n2).2 m := by
  obtain ⟨P, hP⟩ := h.referenced
  rcases @userctlBind_cases s P hP.copies .ok rfl rfl n1 n2 with hq | ⟨a, b, h1, h2, hr⟩
  · exact h.quiet hq
  · have ha := (h.paired.name_of_lookup h1).2.1
    have hb := (h.paired.name_of_lookup h2).2.1
    have hreg := registry_userctlBind .ok s n1 n2
    obtain ⟨P', hP'⟩ := hP.bind hr hreg (h.paired.numbered.ne_unknown ha)
      (h.paired.numbered.ne_unknown hb)
    exact h.congr hreg hP'

theorem recorded_unbind (h : Recorded s m) (n1 n2 : Name) :
    Recorded (userctlUnbind s n1 n2).2 m := by
  obtain ⟨P, hP⟩ := h.referenced
  rcases userctlUnbind_cases hP.copies n1 n2 with hq | ⟨a, b, h1, h2, hr⟩
  · exact h.quiet hq
  · have ha := (h.paired.name_of_lookup h1).2.1
    have hb := (h.paired.name_of_lookup h2).2.1
    have hreg := registry_userctlUnbind s n1 n2
    obtain ⟨P', hP'⟩ := hP.unbind hr hreg (h.paired.numbered.ne_unknown ha)
      (h.paired.numbered.ne_unknown hb)
    exact h.congr hreg hP'

/-- One command keeps the record right. -/
theorem recorded_exec (h : Recorded s m) {c : Cmd} (hc : c.Basic)
    (hwrap : c.creates = true → s.idpCounter + 1 < 2 ^ 32) :
    Recorded (c.exec s) (c.record s m) := by
  cases c with
  | add n type al =>
    obtain rfl : al = .ok := hc
    exact recorded_add h n type (hwrap rfl)
  | rm n => exact recorded_remove h n
  | bind n1 n2 al =>
    obtain rfl : al = .ok := hc
    exact recorded_bind h n1 n2
  | unbind n1 n2 => exact recorded_unbind h n1 n2
  | replace n1 n2 dropPriv al =>
    obtain rfl : al = .ok := hc
    exact recorded_replace h n1 n2 dropPriv
  | _ => exact absurd hc id

end Record

theorem recorded_init (online : OnlineCpus) : Recorded (State.init online) fun _ => none where
  paired := ⟨tables_init online, numbered_init online, fun i a h => by cases h⟩
  referenced := ⟨fun _ => Ports.free, fun _ _ _ => rfl, fun a ha => by
    obtain ⟨i, hi⟩ := ha
    cases hi⟩
  lookup := fun _ => rfl

/-- A run keeps the record right, as long as the additions do not exhaust the idps. -/
theorem recorded_run : ∀ (cmds : List Cmd) {s : State} {m : CStr → Option Addr}, Recorded s m →
    (∀ c ∈ cmds, c.Basic) → s.idpCounter + cmds.countP Cmd.creates < 2 ^ 32 →
    Recorded (runRecord s m cmds).1 (runRecord s m cmds).2 := by
  intro cmds
  induction cmds with
  | nil => exact fun h _ _ => h
  | cons c cmds ih =>
    intro s m h hb hlt
    have hc := hb c List.mem_cons_self
    rw [List.countP_cons] at hlt
    have hwrap : c.creates = true → s.idpCounter + 1 < 2 ^ 32 := fun hadd => by
      rw [if_pos hadd] at hlt
      omega
    obtain ⟨P, hP⟩ := h.referenced
    have hle := idpCounter_exec h.paired.tables hP.copies hP.pos c hwrap
    have hlt' : (c.exec s).idpCounter + cmds.countP Cmd.creates < 2 ^ 32 := by omega
    exact ih (recorded_exec h hc hwrap) (fun c' hc' => hb c' (List.mem_cons_of_mem _ hc')) hlt'

/-- **Names and blocks.** In every state that add, rm, bind, unbind and replace commands reach with
fewer than `2 ^ 32` additions, a name is mapped to an idp exactly when `fblmap` holds a block of
that name and idp there; names, idps and blocks correspond one to one, and a lookup finds the block
last added or swapped in under the name. -/
theorem names_one_to_one (online : OnlineCpus) (cmds : List Cmd) (hb : ∀ c ∈ cmds, c.Basic)
    (hadds : cmds.countP Cmd.creates < 2 ^ 32) :
    let s := run (State.init online) cmds
    (∀ n i, s.registry.names n = some i ↔
      ∃ p, s.fblmap i = some p ∧ s.name p = n ∧ s.idp p = i) ∧
    (∀ n n' i, s.registry.names n = some i → s.registry.names n' = some i → n = n') ∧
    (∀ i j p q, s.fblmap i = some p → s.fblmap j = some q → s.name p = s.name q → p = q) ∧
    ∀ n, (searchFblockN s n).1 = (runRecord (State.init online) (fun _ => none) cmds).2 n := by
  intro s
  have hlt : (State.init online).idpCounter + cmds.countP Cmd.creates < 2 ^ 32 := by
    show 0 + _ < _
    rwa [Nat.zero_add]
  have h := recorded_run cmds (recorded_init online) hb hlt
  rw [runRecord_fst] at h
  obtain ⟨hT, -, hentries⟩ := h.paired
  refine ⟨fun n i => ⟨fun hn => ?_, ?_⟩, fun n n' i hn hn' => ?_, fun i j p q hi hj hpq => ?_,
    fun n => ?_⟩
  · obtain ⟨p, hp, hname⟩ := hT.named n i hn
    exact ⟨p, hp, hname, (hT.stored i p hp).1⟩
  · rintro ⟨p, hp, rfl, -⟩
    exact hentries i p hp
  · obtain ⟨p, hp, rfl⟩ := hT.named n i hn
    obtain ⟨q, hq, rfl⟩ := hT.named n' i hn'
    obtain rfl := Option.some.inj (hp.symm.trans hq)
    rfl
  · have hni : s.registry.names (s.name p) = some i := hentries i p hi
    have hnj : s.registry.names (s.name q) = some j := hentries j q hj
    rw [hpq, hnj] at hni
    obtain rfl := Option.some.inj hni
    exact Option.some.inj (hi.symm.trans hj)
  · rw [← h.lookup n, searchFblockN_eq]
    rcases s.lookup n with _ | a <;> rfl

/-- A block `a` is added and then replaced by a block `b`. -/
def replaceRun : List Cmd :=
  [.add nameA Factory.dummy.type .ok, .add nameB Factory.dummy.type .ok,
    .replace nameA nameB false .ok]

theorem names_one_to_one_replace :
    (searchFblockN (run (State.init oneCpu) replaceRun) nameA).1 = some 1 ∧
      (searchFblockN (run (State.init oneCpu) replaceRun) nameB).1 = none := by
  have h := (names_one_to_one oneCpu replaceRun (by decide) (by decide)).2.2.2
  refine ⟨(h nameA).trans ?_, (h nameB).trans ?_⟩
  · decide
  · decide

end Lana
