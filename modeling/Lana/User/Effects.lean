import Lana.Fblock.Migrate
import Lana.User.Commands

/-!
# What the commands do

One result per handler of `xt_user.c`, in terms of the parts of the state: the registry, the
lists, the ports and the counts.  A refused command is `Quiet`.
-/

namespace Lana

open State

/-- No change of registry, lists, ports and counts. -/
structure Quiet (s s' : State) : Prop where
  registry : s'.registry = s.registry
  lists : s'.lists = s.lists
  ports : ∀ a c, (s'.privateData a c).ports = (s.privateData a c).ports
  refcnt : s'.refcnt = s.refcnt

theorem Quiet.refl (s : State) : Quiet s s := ⟨rfl, rfl, fun _ _ => rfl, rfl⟩

theorem Quiet.copies {s s' : State} (h : Quiet s s') {P : Addr → Ports} (hP : Copies s P) :
    Copies s' P :=
  hP.of_ports (congrArg Registry.online h.registry) h.ports

/-- A reference taken and given back. -/
theorem quiet_get_put (s : State) (a : Addr) : Quiet s (putFblock (s.addRefs (ref a)) a) := by
  refine ⟨by simp, by simp, fun b c => ports_putFblock .., ?_⟩
  rw [refcnt_putFblock]
  show s.refcnt + ref a - ref a = s.refcnt
  abel

theorem quiet_get_put_two (s : State) (a b : Addr) :
    Quiet s (putFblock (putFblock (s.addRefs (ref a + ref b)) a) b) := by
  refine ⟨by simp, by simp, fun x c => by rw [ports_putFblock, ports_putFblock]; rfl, ?_⟩
  rw [refcnt_putFblock, refcnt_putFblock]
  show s.refcnt + (ref a + ref b) - ref a - ref b = s.refcnt
  abel

/-! ## Two names -/

theorem withTuple_cases (s : State) (n1 n2 : Name) (f : State → Addr → Addr → Ret × State) :
    (withTuple s n1 n2 f).1 = .err .EINVAL ∧ Quiet s (withTuple s n1 n2 f).2 ∨
      ∃ a b, s.lookup n1 = some a ∧ s.lookup n2 = some b ∧
        withTuple s n1 n2 f = ((f (s.addRefs (ref a + ref b)) a b).1,
          putFblock (putFblock (f (s.addRefs (ref a + ref b)) a b).2 a) b) := by
  unfold withTuple
  rcases h1 : s.lookup n1 with _ | a
  · rw [searchFblockN_none h1]
    exact .inl ⟨rfl, .refl s⟩
  rw [searchFblockN_some h1]
  dsimp only
  rcases h2 : s.lookup n2 with _ | b
  · rw [searchFblockN_none (show (s.addRefs (ref a)).lookup n2 = none from h2)]
    exact .inl ⟨rfl, quiet_get_put s a⟩
  · rw [searchFblockN_some (show (s.addRefs (ref a)).lookup n2 = some b from h2),
      addRefs_addRefs]
    exact .inr ⟨a, b, rfl, rfl, rfl⟩

section Tuple

variable {s : State} {P : Addr → Ports} {a b : Addr} {r : Ret × State}

theorem lists_put_two (t : State) (a b : Addr) :
    (putFblock (putFblock t a) b).lists = t.lists := by
  rw [lists_putFblock, lists_putFblock]

/-- The references of the handler cancel. -/
theorem refcnt_put_two (s : State) {t : State} {a b : Addr} {Δ : Addr → ℤ}
    (h : t.refcnt = (s.addRefs (ref a + ref b)).refcnt + Δ) :
    (putFblock (putFblock t a) b).refcnt = s.refcnt + Δ := by
  rw [refcnt_putFblock, refcnt_putFblock, h]
  show s.refcnt + (ref a + ref b) + Δ - ref a - ref b = s.refcnt + Δ
  abel

theorem BindResult.tuple (h : BindResult (s.addRefs (ref a + ref b)) P a b r) :
    BindResult s P a b (r.1, putFblock (putFblock r.2 a) b) := by
  rcases h with ⟨P', hret, hP, hcount, htwo, hlists, href⟩ | ⟨Q1, Q2, h1, h2, hret, hP, hlists, href⟩
  · refine .refused P' hret ((hP.putFblock a).putFblock b) hcount htwo
      ((lists_put_two ..).trans hlists) ?_
    rw [refcnt_put_two s (Δ := 0) (by rw [href, add_zero]), add_zero]
  · exact .done Q1 Q2 h1 h2 hret ((hP.putFblock a).putFblock b)
      ((lists_put_two ..).trans hlists) (refcnt_put_two s href)

theorem UnbindResult.tuple (h : UnbindResult (s.addRefs (ref a + ref b)) P a b r) :
    UnbindResult s P a b (r.1, putFblock (putFblock r.2 a) b) := by
  rcases h with ⟨h1, hret, hP, hlists, href⟩ | ⟨Q1, h1, h2, hret, hP, hlists, href⟩ |
    ⟨Q1, Q2, h1, h2, hret, hP, hlists, href⟩
  · refine .refused h1 hret ((hP.putFblock a).putFblock b) ((lists_put_two ..).trans hlists) ?_
    rw [refcnt_put_two s (Δ := 0) (by rw [href, add_zero]), add_zero]
  · refine .half Q1 h1 h2 hret ((hP.putFblock a).putFblock b)
      ((lists_put_two ..).trans hlists) ?_
    rw [refcnt_put_two s (Δ := -ref a) (by rw [href, sub_eq_add_neg]), sub_eq_add_neg]
  · refine .done Q1 Q2 h1 h2 hret ((hP.putFblock a).putFblock b)
      ((lists_put_two ..).trans hlists) ?_
    have href' : r.2.refcnt = (s.addRefs (ref a + ref b)).refcnt + (- ref a - ref b -
        (if s.notifiers a = [] then 0 else ref a + ref b) -
        (if (s.lists.unlink (s.idp b) a b).notifiers b = [] then 0 else ref a + ref b)) := by
      rw [href]
      show _ - (if s.notifiers a = [] then 0 else _) -
        (if (s.lists.unlink (s.idp b) a b).notifiers b = [] then 0 else _) = _
      abel
    rw [refcnt_put_two s href']
    abel

end Tuple

namespace Prims

variable {s t : State}

theorem withTuple (s : State) (n1 n2 : Name) {f : State → Addr → Addr → Ret × State}
    (hf : ∀ {t} a b, Prims s t → Prims s (f t a b).2) : Prims s (withTuple s n1 n2 f).2 := by
  unfold Lana.withTuple
  rcases h1 : s.lookup n1 with _ | a
  · rw [searchFblockN_none h1]
    exact .refl
  rw [searchFblockN_some h1]
  dsimp only
  rcases h2 : s.lookup n2 with _ | b
  · rw [searchFblockN_none (show (s.addRefs (ref a)).lookup n2 = none from h2)]
    exact (Prims.refl.get a).put a
  · rw [searchFblockN_some (show (s.addRefs (ref a)).lookup n2 = some b from h2)]
    exact ((hf a b ((Prims.refl.get a).get b)).put a).put b

theorem unbindBound (h : Prims s t) (cpu : Cpu) (fb : Addr) (dir : PathType)
    {f : State → Addr → Ret × State} (hf : ∀ {u} a, Prims s u → Prims s (f u a).2) :
    Prims s (unbindBound cpu t fb dir f) := by
  unfold Lana.unbindBound getBoundFblock searchFblock searchFblockRaw
  split_ifs
  · exact h
  · rcases t.fblmap ((t.privateData fb cpu).port dir) with _ | a
    · exact h
    · dsimp only
      rw [getFblock_eq]
      exact (hf a (h.get a)).put a

/-- The unbindings of `lana_sk_free`. -/
theorem skFree (cpu : Cpu) (s : State) (fb : Addr) :
    Prims s (Lana.unbindBound cpu
      (Lana.unbindBound cpu s fb .ingress fun s bound => fblockUnbind s bound fb) fb .egress
      fun s bound => fblockUnbind s fb bound) :=
  (Prims.refl.unbindBound cpu fb .ingress fun a h => h.unbind a fb).unbindBound cpu fb .egress
    fun a h => h.unbind fb a

end Prims

@[simp] theorem registry_userctlBind (al : Alloc) (s : State) (n1 n2 : Name) :
    (userctlBind al s n1 n2).2.registry = s.registry :=
  (Prims.withTuple s n1 n2 fun a b h => h.bind al a b).registry

@[simp] theorem registry_userctlUnbind (s : State) (n1 n2 : Name) :
    (userctlUnbind s n1 n2).2.registry = s.registry :=
  (Prims.withTuple s n1 n2 fun a b h => h.unbind a b).registry

@[simp] theorem registry_userctlSubscribe (al : Alloc) (s : State) (n1 n2 : Name) :
    (userctlSubscribe al s n1 n2).2.registry = s.registry :=
  (Prims.withTuple s n1 n2 fun a b h => h.subscribe al.fn1 b a).registry

@[simp] theorem registry_userctlUnsubscribe (s : State) (n1 n2 : Name) :
    (userctlUnsubscribe s n1 n2).2.registry = s.registry :=
  (Prims.withTuple s n1 n2 fun a b h => h.unsubscribe b a).registry

theorem userctlBind_cases {s : State} {P : Addr → Ports} (hP : Copies s P) {al : Alloc}
    (hal1 : al.fn1 = true) (hal2 : al.fn2 = true) (n1 n2 : Name) :
    Quiet s (userctlBind al s n1 n2).2 ∨ ∃ a b, s.lookup n1 = some a ∧ s.lookup n2 = some b ∧
      BindResult s P a b (userctlBind al s n1 n2) := by
  rcases withTuple_cases s n1 n2 (fblockBind al) with ⟨-, h⟩ | ⟨a, b, h1, h2, h⟩
  · exact .inl h
  · refine .inr ⟨a, b, h1, h2, ?_⟩
    unfold userctlBind
    rw [h]
    exact (fblockBind_result (hP.addRefs _) hal1 hal2 a b).tuple

theorem userctlUnbind_cases {s : State} {P : Addr → Ports} (hP : Copies s P) (n1 n2 : Name) :
    Quiet s (userctlUnbind s n1 n2).2 ∨ ∃ a b, s.lookup n1 = some a ∧ s.lookup n2 = some b ∧
      UnbindResult s P a b (userctlUnbind s n1 n2) := by
  rcases withTuple_cases s n1 n2 fblockUnbind with ⟨-, h⟩ | ⟨a, b, h1, h2, h⟩
  · exact .inl h
  · refine .inr ⟨a, b, h1, h2, ?_⟩
    unfold userctlUnbind
    rw [h]
    exact (fblockUnbind_result (hP.addRefs _) a b).tuple

/-! ## Creation and removal -/

theorem names_of_lookup_none {s : State} (hT : Tables s.registry) {n : CStr}
    (h : s.lookup n = none) : s.registry.names n = none := by
  rw [Option.eq_none_iff_forall_ne_some]
  intro i hi
  obtain ⟨a, ha, -⟩ := lookup_of_named hT hi
  rw [h] at ha
  cases ha

theorem ctor_eq (f : Factory) : ∃ proc, f.ctor = fbCtor f.ops proc (Priv.init 0 0) := by
  cases f
  · exact ⟨false, rfl⟩
  · exact ⟨true, rfl⟩
  · exact ⟨true, rfl⟩
  · exact ⟨false, rfl⟩

theorem fbmap_get {type : CStr} {f : Factory} (h : critbitGet Factory.type fbmap type = some f) :
    f.type = type :=
  ((critbitGet_eq_some (runCritbit_inv _).1).1 h).2

/-- The outcomes of `userctl_add`. -/
inductive AddResult (al : Alloc) (s : State) (n : Name) (type : CStr) (r : Ret × State) : Prop
  | quiet (hret : r.1 ≠ .ok) (h : Quiet s r.2)
      (hwhy : (∃ a, s.lookup n = some a ∧ r.2 = putFblock (s.addRefs (ref a)) a) ∨
        critbitGet Factory.type fbmap type = none ∧ r.2 = s)
  | failed (f : Factory) (hf : f.type = type) (hret : r.1 = .err .ENOMEM)
      (hlookup : s.lookup n = none)
      (hC : Created s r.2 (Priv.init 0 0) f.ops)
      (hok : al = .ok → r.2.fblmap = s.fblmap ∧ r.2.idpmap = s.idpmap ∧ s.fblmap s.nextIdp ≠ none)
  | done (f : Factory) (hf : f.type = type) (t : State) (hret : r.1 = .ok)
      (hlookup : s.lookup n = none) (hC : Created s t (Priv.init 0 0) f.ops)
      (hfree : s.fblmap s.nextIdp = none)
      (hmap : t.fblmap = Function.update s.fblmap s.nextIdp (some s.nextFblock))
      (hbuilt : (buildFblockObject al s type n).1 = some s.nextFblock)
      (hname : t.name s.nextFblock = n)
      (hnames : ∀ m, t.registry.names m = if m = n then some s.nextIdp else s.registry.names m)
      (heq : r.2 = { t with factory := Function.update t.factory s.nextFblock (some f) })

theorem userctlAdd_result {s : State} (hT : Tables s.registry) (al : Alloc) (n : Name)
    (type : CStr) : AddResult al s n type (userctlAdd al s n type) := by
  have hcpy : strlcpy n fbnamsiz = n := strlcpy_of_lt n.2
  unfold userctlAdd
  rcases h : s.lookup n with _ | a
  · rw [searchFblockN_none h]
    dsimp only
    rcases hf : critbitGet Factory.type fbmap type with _ | f
    · have hb : buildFblockObject al s type n = (none, s) := by
        unfold buildFblockObject
        rw [hf]
      rw [hb]
      exact .quiet (by simp) (.refl s) (.inr ⟨hf, rfl⟩)
    obtain ⟨proc, hctor⟩ := ctor_eq f
    have hC : Created s (fbCtor f.ops proc (Priv.init 0 0) al s n).2 (Priv.init 0 0) f.ops :=
      fbCtor_created hT proc al
    rcases hr : fbCtor f.ops proc (Priv.init 0 0) al s n with ⟨_ | fb, t⟩ <;> rw [hr] at hC
    · have hb : buildFblockObject al s type n = (none, t) := by
        simp only [buildFblockObject, hf, hctor, hr]
      rw [hb]
      refine .failed f (fbmap_get hf) rfl h hC fun hok => ?_
      subst hok
      have hfree : s.registry.names (strlcpy n fbnamsiz) = none := by
        rw [hcpy]
        exact names_of_lookup_none hT h
      obtain ⟨htaken, hmap, hidpmap⟩ := fbCtor_none hT hr hfree
      exact ⟨hmap, hidpmap, htaken⟩
    · have hb : buildFblockObject al s type n =
          (some fb, { t with factory := Function.update t.factory fb (some f) }) := by
        simp only [buildFblockObject, hf, hctor, hr]
      rw [hb]
      obtain ⟨rfl, hfree, hmap, hname, -, hnames⟩ := fbCtor_some hT hr
      rw [hcpy] at hname hnames
      exact .done f (fbmap_get hf) t rfl h hC hfree hmap (by rw [hb]) hname hnames rfl
  · rw [searchFblockN_some h]
    exact .quiet (by simp) (quiet_get_put s a) (.inl ⟨a, h, rfl⟩)

theorem unregisterNoRcu_addRefs (s : State) (δ : Addr → ℤ) (a : Addr) :
    unregisterFblockNamespaceNoRcu (s.addRefs δ) a =
      (unregisterFblockNamespaceNoRcu s a).addRefs δ := by
  have h1 : (radixTreeDelete (s.addRefs δ) ((s.addRefs δ).idp a)).idpmap = s.idpmap := rfl
  have h2 : (radixTreeDelete s (s.idp a)).idpmap = s.idpmap := rfl
  have h3 : (s.addRefs δ).name a = s.name a := rfl
  unfold unregisterFblockNamespaceNoRcu unregisterFromFblockNamespace
  rw [h1, h2, h3]
  rcases critbitGet IdpElem.name s.idpmap (s.name a) <;> rfl

theorem unregisterFrom_frame (s : State) (n : CStr) :
    ∃ t, (unregisterFromFblockNamespace s n).2 = { s with idpmap := t } := by
  unfold unregisterFromFblockNamespace
  cases critbitGet IdpElem.name s.idpmap n with
  | none => exact ⟨_, rfl⟩
  | some e => exact ⟨_, rfl⟩

/-- The removal from the tables leaves the other parts alone. -/
theorem unregisterNoRcu_frame (s : State) (a : Addr) :
    ∃ t m, unregisterFblockNamespaceNoRcu s a = { s with idpmap := t, fblmap := m } := by
  unfold unregisterFblockNamespaceNoRcu unregisterFromFblockNamespace
  rcases critbitGet IdpElem.name (radixTreeDelete s (s.idp a)).idpmap (s.name a) with _ | e
  · exact ⟨_, _, rfl⟩
  · exact ⟨_, _, rfl⟩

/-- The removal from the tables depends on the registry only. -/
theorem registry_unregister_congr {s t : State} (h : t.registry = s.registry) (a : Addr) :
    (unregisterFblockNamespaceNoRcu t a).registry =
      (unregisterFblockNamespaceNoRcu s a).registry := by
  have hfields := h
  simp only [State.registry, Registry.mk.injEq] at hfields
  obtain ⟨hname, hops, hfactory, hidp, hidpmap, hfblmap, hcounter, honline, hvlinks, hnext⟩ :=
    hfields
  unfold unregisterFblockNamespaceNoRcu unregisterFromFblockNamespace radixTreeDelete
  simp only [hname, hidp, hidpmap, hfblmap]
  rcases critbitGet IdpElem.name s.idpmap (s.name a) with _ | e
  all_goals simp only [State.registry, hops, hfactory, hcounter, honline, hvlinks, hnext]

/-- The outcomes of `userctl_remove`. -/
inductive RemoveResult (s : State) (n : Name) (r : Ret × State) : Prop
  | quiet (hret : r.1 ≠ .ok) (h : Quiet s r.2)
      (hwhy : ∀ a, s.lookup n = some a → s.factory a = none ∨ 1 < s.refcnt a)
  | done (a : Addr) (f : Factory) (hlookup : s.lookup n = some a) (hf : s.factory a = some f)
      (hcnt : s.refcnt a ≤ 1) (hret : r.1 = .ok)
      (hreg : r.2.registry = (unregisterFblockNamespaceNoRcu s a).registry)
      (hlists : r.2.lists = s.lists)
      (hports : ∀ b c, (r.2.privateData b c).ports = (s.privateData b c).ports)
      (href : r.2.refcnt = s.refcnt - ref a)

theorem userctlRemove_result (s : State) (n : Name) : RemoveResult s n (userctlRemove s n) := by
  unfold userctlRemove
  rcases h : s.lookup n with _ | a
  · rw [searchFblockN_none h]
    exact .quiet (by simp) (.refl s) fun a ha => by rw [h] at ha; cases ha
  have huniq : ∀ b, s.lookup n = some b → b = a := fun b hb => Option.some.inj (hb.symm.trans h)
  rw [searchFblockN_some h]
  dsimp only
  rw [show (s.addRefs (ref a)).factory a = s.factory a from rfl]
  rcases hf : s.factory a with _ | f
  · exact .quiet (by simp) (quiet_get_put s a) fun b hb => .inl (by rw [huniq b hb, hf])
  dsimp only
  rw [addRefs_refcnt, ref_self]
  split_ifs with hcnt
  · exact .quiet (by simp) (quiet_get_put s a) fun b hb => .inr (by rw [huniq b hb]; omega)
  · obtain ⟨t, m, heq⟩ := unregisterNoRcu_frame s a
    refine .done a f h hf (by omega) rfl ?_ ?_ (fun b c => ?_) ?_
    · unfold unregisterFblockNamespace
      rw [unregisterNoRcu_addRefs]
      simp only [registry_putFblock, registry_addRefs]
    · unfold unregisterFblockNamespace
      rw [unregisterNoRcu_addRefs, heq]
      simp only [lists_putFblock, lists_addRefs]
      rfl
    · unfold unregisterFblockNamespace
      rw [unregisterNoRcu_addRefs, heq, ports_putFblock, ports_putFblock]
      rfl
    · unfold unregisterFblockNamespace
      rw [unregisterNoRcu_addRefs, heq, refcnt_putFblock, refcnt_putFblock]
      show s.refcnt + ref a - ref a - ref a = _
      abel

/-! ## Replacement -/

/-- The private areas are exchanged when the types agree and are not to be dropped. -/
def exchanges (f1 f2 : Factory) (dropPriv : Bool) : Bool :=
  f1.type = f2.type ∧ dropPriv = false

/-- The step of `userctl_replace` that may exchange the private areas. -/
def exchangePriv (s : State) (fb1 fb2 : Addr) (exch : Bool) : State :=
  if exch then fblockMigrateP s fb2 fb1 else s

/-- `userctl_replace` up to the registration of the second block, both blocks held. -/
def replaceSteps (s : State) (fb1 fb2 : Addr) (exch : Bool) : State :=
  unregisterFblock
    (fblockMigrateR (exchangePriv (unregisterFblockNamespaceNoRcu s fb2) fb1 fb2 exch) fb2 fb1) fb1

/-- The registry with another entry in `fblmap`. -/
def Registry.enter (r : Registry) (i : Idp) (entry : Option Addr) : Registry :=
  { r with fblmap := Function.update r.fblmap i entry }

/-- The state with another entry in `fblmap`. -/
def State.enter (s : State) (i : Idp) (entry : Option Addr) : State :=
  { s with fblmap := Function.update s.fblmap i entry }

theorem registry_enter (s : State) (i : Idp) (entry : Option Addr) :
    (s.enter i entry).registry = s.registry.enter i entry := rfl

theorem Registry.enter_enter (r : Registry) (i : Idp) (e e' : Option Addr) :
    (r.enter i e).enter i e' = r.enter i e' := by
  unfold enter
  simp only [Function.update_idem]

theorem Copies.enter {s : State} {P : Addr → Ports} (h : Copies s P) (i : Idp)
    (entry : Option Addr) : Copies (s.enter i entry) P := h

theorem radixTreeDelete_eq (s : State) (i : Idp) : radixTreeDelete s i = s.enter i none := rfl

theorem idp_unregisterNoRcu (s : State) (a : Addr) :
    (unregisterFblockNamespaceNoRcu s a).idp = s.idp := by
  obtain ⟨t, m, h⟩ := unregisterNoRcu_frame s a
  rw [h]

section Replace

variable {s : State} {P : Addr → Ports} {fb1 fb2 : Addr} (exch : Bool)

@[simp] theorem registry_exchangePriv (s : State) (fb1 fb2 : Addr) (exch : Bool) :
    (exchangePriv s fb1 fb2 exch).registry = s.registry := by
  cases exch
  · rfl
  · exact registry_migrateP s fb2 fb1

@[simp] theorem lists_exchangePriv (s : State) (fb1 fb2 : Addr) (exch : Bool) :
    (exchangePriv s fb1 fb2 exch).lists = s.lists := by
  cases exch
  · rfl
  · exact lists_migrateP s fb2 fb1

@[simp] theorem refcnt_exchangePriv (s : State) (fb1 fb2 : Addr) (exch : Bool) :
    (exchangePriv s fb1 fb2 exch).refcnt = s.refcnt := by
  cases exch
  · rfl
  · exact refcnt_migrateP s fb2 fb1

theorem Copies.exchangePriv (hP : Copies s P) (fb1 fb2 : Addr) (exch : Bool) :
    Copies (exchangePriv s fb1 fb2 exch) (if exch then swapField P fb2 fb1 else P) := by
  cases exch
  · exact hP
  · exact hP.migrateP fb2 fb1

theorem registry_replaceSteps :
    (replaceSteps s fb1 fb2 exch).registry =
      ((unregisterFblockNamespaceNoRcu s fb2).registry.migrate fb2 fb1).enter (s.idp fb1) none := by
  unfold replaceSteps unregisterFblock
  set t := exchangePriv (unregisterFblockNamespaceNoRcu s fb2) fb1 fb2 exch with ht
  have hm : (fblockMigrateR t fb2 fb1).registry =
      (unregisterFblockNamespaceNoRcu s fb2).registry.migrate fb2 fb1 := by
    rw [registry_migrateR, ht, registry_exchangePriv]
  have hidp : (fblockMigrateR t fb2 fb1).idp fb1 = s.idp fb1 := by
    refine (congrFun (congrArg Registry.idp hm) fb1).trans ?_
    show Function.update (unregisterFblockNamespaceNoRcu s fb2).idp fb2
      ((unregisterFblockNamespaceNoRcu s fb2).idp fb1) fb1 = _
    rw [idp_unregisterNoRcu, Function.update_apply]
    split_ifs <;> rfl
  rw [registry_putFblock, radixTreeDelete_eq, registry_enter, hidp, hm]

theorem lists_replaceSteps :
    (replaceSteps s fb1 fb2 exch).lists = s.lists.migrate fb2 fb1 := by
  obtain ⟨t, m, heq⟩ := unregisterNoRcu_frame s fb2
  unfold replaceSteps unregisterFblock
  rw [lists_putFblock]
  show (fblockMigrateR _ fb2 fb1).lists = _
  rw [lists_migrateR, lists_exchangePriv, heq]
  rfl

theorem refcnt_replaceSteps :
    (replaceSteps s fb1 fb2 exch).refcnt = swapField s.refcnt fb2 fb1 - ref fb1 := by
  obtain ⟨t, m, heq⟩ := unregisterNoRcu_frame s fb2
  unfold replaceSteps unregisterFblock
  rw [refcnt_putFblock]
  show (fblockMigrateR _ fb2 fb1).refcnt - ref fb1 = _
  rw [refcnt_migrateR, refcnt_exchangePriv, heq]

theorem Copies.replaceSteps (hP : Copies s P) (fb1 fb2 : Addr) (exch : Bool) :
    Copies (replaceSteps s fb1 fb2 exch) (if exch then swapField P fb2 fb1 else P) := by
  obtain ⟨t, m, heq⟩ := unregisterNoRcu_frame s fb2
  have hu : Copies (unregisterFblockNamespaceNoRcu s fb2) P := by
    rw [heq]
    exact hP
  have hd : ∀ i, Copies (radixTreeDelete (fblockMigrateR
      (Lana.exchangePriv (unregisterFblockNamespaceNoRcu s fb2) fb1 fb2 exch) fb2 fb1) i)
      (if exch then swapField P fb2 fb1 else P) := fun i =>
    (hu.exchangePriv fb1 fb2 exch).migrateR fb2 fb1
  exact (hd _).putFblock fb1

/-- The registration of the second block under the idp it took over. -/
theorem registerFblock_replaceSteps (al : Alloc) (exch : Bool) :
    registerFblock al (replaceSteps s fb1 fb2 exch) fb2 ((replaceSteps s fb1 fb2 exch).idp fb2) =
      (if al.radix then .ok else .err .ENOMEM,
        (replaceSteps s fb1 fb2 exch).enter (s.idp fb1) (if al.radix then some fb2 else none)) := by
  have hreg : (replaceSteps s fb1 fb2 exch).registry = _ := registry_replaceSteps exch
  have hidp : (replaceSteps s fb1 fb2 exch).idp fb2 = s.idp fb1 := by
    refine (congrFun (congrArg Registry.idp hreg) fb2).trans ?_
    show Function.update (unregisterFblockNamespaceNoRcu s fb2).idp fb2
      ((unregisterFblockNamespaceNoRcu s fb2).idp fb1) fb2 = _
    rw [Function.update_self, idp_unregisterNoRcu]
  have hmap : (replaceSteps s fb1 fb2 exch).fblmap (s.idp fb1) = none := by
    refine (congrFun (congrArg Registry.fblmap hreg) (s.idp fb1)).trans ?_
    exact Function.update_self ..
  generalize replaceSteps s fb1 fb2 exch = t at hidp hmap ⊢
  unfold registerFblock radixTreeInsert
  rw [hidp]
  simp only [hmap]
  rw [if_neg (by simp), ← hidp, Function.update_eq_self]
  cases al.radix
  · unfold State.enter
    simp only [Bool.false_eq_true, if_false]
    rw [← hmap, ← hidp, Function.update_eq_self]
  · rfl

/-- The tables `r` after `fb2` has replaced `fb1` in `s`, entry by entry, with `entry` under the idp
of `fb1`. -/
structure Replaced (s : State) (fb1 fb2 : Addr) (entry : Option Addr) (r : Registry) : Prop where
  names : ∀ n, r.names n = if n = s.name fb2 then none else s.registry.names n
  fblmap : ∀ i, r.fblmap i =
    if i = s.idp fb1 then entry else if i = s.idp fb2 then none else s.fblmap i
  name : r.name = Function.update s.name fb2 (s.name fb1)
  idp : r.idp = Function.update s.idp fb2 (s.idp fb1)
  wf : Wf IdpElem.name r.idpmap
  nextFblock : r.nextFblock = s.nextFblock
  idpCounter : r.idpCounter = s.idpCounter
  ops : r.ops = s.ops
  factory : r.factory = s.factory
  vlinks : r.vlinks = s.vlinks

theorem replaced_registry (hw : Wf IdpElem.name s.idpmap) {fb1 : Addr}
    (hshort : (s.name fb1).strlen < fbnamsiz) (fb2 : Addr) (entry : Option Addr) {r : Registry}
    (hr : r = ((unregisterFblockNamespaceNoRcu s fb2).registry.migrate fb2 fb1).enter
      (s.idp fb1) entry) :
    Replaced s fb1 fb2 entry r := by
  subst hr
  obtain ⟨t, heq, hw, hnames⟩ := unregisterNoRcu_spec hw fb2
  rw [heq]
  refine ⟨hnames, fun i => ?_, ?_, rfl, hw, rfl, rfl, rfl, rfl, rfl⟩
  · show Function.update (Function.update s.fblmap (s.idp fb2) none) (s.idp fb1) entry i = _
    simp only [Function.update_apply]
  · show Function.update s.name fb2 (strlcpy (s.name fb1) fbnamsiz) = _
    rw [strlcpy_of_lt hshort]

theorem replaced_tables (hT : Tables s.registry) {fb1 fb2 : Addr} {entry : Option Addr}
    {r : Registry}
    (hr : r = ((unregisterFblockNamespaceNoRcu s fb2).registry.migrate fb2 fb1).enter
      (s.idp fb1) entry) :
    Replaced s fb1 fb2 entry r :=
  replaced_registry hT.wf (hT.short fb1) fb2 entry hr

/-- An entry after a replacement is the second block under the idp of the first, or an old one of
a third block. -/
theorem entry_replaced (hT : Tables s.registry) {r : Registry}
    (hr : r = ((unregisterFblockNamespaceNoRcu s fb2).registry.migrate fb2 fb1).enter (s.idp fb1)
      (some fb2)) {i : Idp} {a : Addr} (hi : r.fblmap i = some a) :
    a = fb2 ∧ i = s.idp fb1 ∨ a ≠ fb1 ∧ a ≠ fb2 ∧ s.fblmap i = some a := by
  rw [(replaced_tables hT hr).fblmap] at hi
  split_ifs at hi with hi1 hi2
  · exact .inl ⟨(Option.some.inj hi).symm, hi1⟩
  · have hidp : s.idp a = i := (hT.stored i a hi).1
    refine .inr ⟨?_, ?_, hi⟩
    · rintro rfl
      exact hi1 hidp.symm
    · rintro rfl
      exact hi2 hidp.symm

/-- A replacement keeps the tables in step. -/
theorem tables_replaced (hT : Tables s.registry) (h1 : s.registry.Has fb1)
    (h2 : s.registry.Has fb2) :
    Tables (((unregisterFblockNamespaceNoRcu s fb2).registry.migrate fb2 fb1).enter
      (s.idp fb1) (some fb2)) := by
  generalize hr : ((unregisterFblockNamespaceNoRcu s fb2).registry.migrate fb2 fb1).enter
    (s.idp fb1) (some fb2) = r
  have hR := replaced_tables hT hr.symm
  have e1 : s.fblmap (s.idp fb1) = some fb1 := hT.fblmap_idp h1
  have e2 : s.fblmap (s.idp fb2) = some fb2 := hT.fblmap_idp h2
  refine ⟨hR.wf, fun a => ?_, fun n i h => ?_, fun i a h => ?_⟩
  · rw [hR.name, Function.update_apply]
    split_ifs
    · exact hT.short fb1
    · exact hT.short a
  · rw [hR.names] at h
    split_ifs at h with hn
    obtain ⟨a, ha, hna⟩ := hT.named n i h
    have ha2 : a ≠ fb2 := by
      rintro rfl
      exact hn hna.symm
    rw [hR.fblmap, hR.name]
    by_cases hi : i = s.idp fb1
    · refine ⟨fb2, if_pos hi, ?_⟩
      rw [hi, show s.registry.fblmap (s.idp fb1) = some fb1 from e1] at ha
      obtain rfl := Option.some.inj ha
      rw [Function.update_self]
      exact hna
    · refine ⟨a, ?_, by rw [Function.update_of_ne ha2]; exact hna⟩
      rw [if_neg hi, if_neg]
      · exact ha
      · rintro rfl
        exact ha2 (Option.some.inj (ha.symm.trans e2))
  · rw [hR.idp, hR.nextFblock]
    obtain ⟨rfl, rfl⟩ | ⟨-, ha2, hold⟩ := entry_replaced hT hr.symm h
    · exact ⟨Function.update_self .., (hT.stored _ _ e2).2⟩
    · rw [Function.update_of_ne ha2]
      exact hT.stored i a hold

end Replace

/-- The outcomes of `userctl_replace`.  A block without a factory keeps the reference that the
lookup took (`leak`). -/
inductive ReplaceResult (al : Alloc) (s : State) (P : Addr → Ports) (n1 n2 : Name)
    (dropPriv : Bool) (r : Ret × State) : Prop
  | quiet (hret : r.1 ≠ .ok) (h : Quiet s r.2)
  | leak (a : Addr) (hret : r.1 ≠ .ok) (hf : s.factory a = none)
      (hreg : r.2.registry = s.registry) (hlists : r.2.lists = s.lists)
      (hports : ∀ b c, (r.2.privateData b c).ports = (s.privateData b c).ports)
      (href : r.2.refcnt = s.refcnt + ref a)
  | done (fb1 fb2 : Addr) (f1 f2 : Factory) (h1 : s.lookup n1 = some fb1)
      (h2 : s.lookup n2 = some fb2) (hf1 : s.factory fb1 = some f1) (hf2 : s.factory fb2 = some f2)
      (hne : fb2 ≠ fb1) (hcnt : s.refcnt fb2 ≤ 1)
      (hret : r.1 = if al.radix then .ok else .err .ENOMEM)
      (hreg : r.2.registry = ((unregisterFblockNamespaceNoRcu s fb2).registry.migrate fb2 fb1).enter
        (s.idp fb1) (if al.radix then some fb2 else none))
      (hlists : r.2.lists = s.lists.migrate fb2 fb1)
      (hP : Copies r.2 (if exchanges f1 f2 dropPriv then swapField P fb2 fb1 else P))
      (href : r.2.refcnt = swapField s.refcnt fb2 fb1 - ref fb1)

/-- The body of `userctl_replace`. -/
theorem userctlReplace_eq {s : State} {n1 n2 : Name} {fb1 fb2 : Addr} {f1 f2 : Factory}
    (h1 : s.lookup n1 = some fb1) (h2 : s.lookup n2 = some fb2) (hf1 : s.factory fb1 = some f1)
    (hf2 : s.factory fb2 = some f2) (hcnt : (s.addRefs (ref fb1 + ref fb2)).refcnt fb2 ≤ 2)
    (al : Alloc) (dropPriv : Bool) :
    userctlReplace al s n1 n2 dropPriv =
      let t := replaceSteps (s.addRefs (ref fb1 + ref fb2)) fb1 fb2 (exchanges f1 f2 dropPriv)
      let r := registerFblock al t fb2 (t.idp fb2)
      (r.1, putFblock (putFblock r.2 fb1) fb2) := by
  have h2' : (s.addRefs (ref fb1)).lookup n2 = some fb2 := h2
  have hf1' : (s.addRefs (ref fb1)).factory fb1 = some f1 := hf1
  have hf2' : (s.addRefs (ref fb1 + ref fb2)).factory fb2 = some f2 := hf2
  have hexch : ∀ t : State, (if f1.type = f2.type ∧ dropPriv = false then fblockMigrateP t fb2 fb1
      else t) = exchangePriv t fb1 fb2 (exchanges f1 f2 dropPriv) := fun t => by
    unfold exchangePriv exchanges
    by_cases h : f1.type = f2.type ∧ dropPriv = false
    · rw [if_pos h, decide_eq_true h, if_pos rfl]
    · rw [if_neg h, decide_eq_false h, if_neg Bool.false_ne_true]
  unfold userctlReplace
  rw [searchFblockN_some h1]
  dsimp only
  rw [hf1']
  dsimp only
  rw [searchFblockN_some h2', addRefs_addRefs]
  dsimp only
  rw [hf2']
  dsimp only
  rw [if_neg (not_lt.2 hcnt), hexch]
  rfl

/-! The five exits of `userctl_replace`, in its order. -/

section ReplaceExits

variable {s : State} {n1 n2 : Name} {fb1 fb2 : Addr} {f1 f2 : Factory}

theorem userctlReplace_unknown (h1 : s.lookup n1 = none) (al : Alloc) (dropPriv : Bool) :
    userctlReplace al s n1 n2 dropPriv = (.err .EINVAL, s) := by
  unfold userctlReplace
  rw [searchFblockN_none h1]

theorem userctlReplace_noFactory (h1 : s.lookup n1 = some fb1) (hf1 : s.factory fb1 = none)
    (al : Alloc) (dropPriv : Bool) :
    userctlReplace al s n1 n2 dropPriv = (.err .EINVAL, s.addRefs (ref fb1)) := by
  have hf1' : (s.addRefs (ref fb1)).factory fb1 = none := hf1
  unfold userctlReplace
  rw [searchFblockN_some h1]
  dsimp only
  rw [hf1']

theorem userctlReplace_second (h1 : s.lookup n1 = some fb1) (hf1 : s.factory fb1 = some f1)
    (h2 : s.lookup n2 = none) (al : Alloc) (dropPriv : Bool) :
    userctlReplace al s n1 n2 dropPriv = (.err .EINVAL, putFblock (s.addRefs (ref fb1)) fb1) := by
  have hf1' : (s.addRefs (ref fb1)).factory fb1 = some f1 := hf1
  have h2' : (s.addRefs (ref fb1)).lookup n2 = none := h2
  unfold userctlReplace
  rw [searchFblockN_some h1]
  dsimp only
  rw [hf1']
  dsimp only
  rw [searchFblockN_none h2']

theorem userctlReplace_secondNoFactory (h1 : s.lookup n1 = some fb1)
    (hf1 : s.factory fb1 = some f1) (h2 : s.lookup n2 = some fb2) (hf2 : s.factory fb2 = none)
    (al : Alloc) (dropPriv : Bool) :
    userctlReplace al s n1 n2 dropPriv =
      (.err .EINVAL, putFblock (s.addRefs (ref fb1 + ref fb2)) fb1) := by
  have hf1' : (s.addRefs (ref fb1)).factory fb1 = some f1 := hf1
  have h2' : (s.addRefs (ref fb1)).lookup n2 = some fb2 := h2
  have hf2' : (s.addRefs (ref fb1 + ref fb2)).factory fb2 = none := hf2
  unfold userctlReplace
  rw [searchFblockN_some h1]
  dsimp only
  rw [hf1']
  dsimp only
  rw [searchFblockN_some h2', addRefs_addRefs]
  dsimp only
  rw [hf2']

theorem userctlReplace_busy (h1 : s.lookup n1 = some fb1) (hf1 : s.factory fb1 = some f1)
    (h2 : s.lookup n2 = some fb2) (hf2 : s.factory fb2 = some f2)
    (hbusy : (s.addRefs (ref fb1 + ref fb2)).refcnt fb2 > 2) (al : Alloc) (dropPriv : Bool) :
    userctlReplace al s n1 n2 dropPriv =
      (.err .EBUSY, putFblock (putFblock (s.addRefs (ref fb1 + ref fb2)) fb1) fb2) := by
  have hf1' : (s.addRefs (ref fb1)).factory fb1 = some f1 := hf1
  have h2' : (s.addRefs (ref fb1)).lookup n2 = some fb2 := h2
  have hf2' : (s.addRefs (ref fb1 + ref fb2)).factory fb2 = some f2 := hf2
  unfold userctlReplace
  rw [searchFblockN_some h1]
  dsimp only
  rw [hf1']
  dsimp only
  rw [searchFblockN_some h2', addRefs_addRefs]
  dsimp only
  rw [hf2']
  dsimp only
  rw [if_pos hbusy]

end ReplaceExits

/-- The states in which `userctl_replace` gives up.  A block without a factory keeps the reference
that the lookup took. -/
inductive ReplaceRefused (s : State) : State → Prop
  | unknown : ReplaceRefused s s
  | leak (a : Addr) (hf : s.factory a = none) : ReplaceRefused s (s.addRefs (ref a))
  | second (a : Addr) : ReplaceRefused s (putFblock (s.addRefs (ref a)) a)
  | leakSecond (a b : Addr) (hf : s.factory b = none) :
      ReplaceRefused s (putFblock (s.addRefs (ref a + ref b)) a)
  | busy (a b : Addr) :
      ReplaceRefused s (putFblock (putFblock (s.addRefs (ref a + ref b)) a) b)

theorem userctlReplace_cases (al : Alloc) (s : State) (n1 n2 : Name) (dropPriv : Bool) :
    ((userctlReplace al s n1 n2 dropPriv).1 ≠ .ok ∧
      ReplaceRefused s (userctlReplace al s n1 n2 dropPriv).2) ∨
    ∃ fb1 fb2 f1 f2, s.lookup n1 = some fb1 ∧ s.lookup n2 = some fb2 ∧
      s.factory fb1 = some f1 ∧ s.factory fb2 = some f2 ∧
      (s.addRefs (ref fb1 + ref fb2)).refcnt fb2 ≤ 2 := by
  rcases h1 : s.lookup n1 with _ | fb1
  · rw [userctlReplace_unknown h1]
    exact .inl ⟨by simp, .unknown⟩
  rcases hf1 : s.factory fb1 with _ | f1
  · rw [userctlReplace_noFactory h1 hf1]
    exact .inl ⟨by simp, .leak fb1 hf1⟩
  rcases h2 : s.lookup n2 with _ | fb2
  · rw [userctlReplace_second h1 hf1 h2]
    exact .inl ⟨by simp, .second fb1⟩
  rcases hf2 : s.factory fb2 with _ | f2
  · rw [userctlReplace_secondNoFactory h1 hf1 h2 hf2]
    exact .inl ⟨by simp, .leakSecond fb1 fb2 hf2⟩
  by_cases hbusy : (s.addRefs (ref fb1 + ref fb2)).refcnt fb2 > 2
  · rw [userctlReplace_busy h1 hf1 h2 hf2 hbusy]
    exact .inl ⟨by simp, .busy fb1 fb2⟩
  · exact .inr ⟨fb1, fb2, f1, f2, rfl, rfl, hf1, hf2, not_lt.1 hbusy⟩

/-- A block that is let pass and has its reference is another one, with no further references. -/
theorem unreferenced_of_le_two {s : State} {fb1 fb2 : Addr} (hpos : 1 ≤ s.refcnt fb2)
    (h : (s.addRefs (ref fb1 + ref fb2)).refcnt fb2 ≤ 2) : fb2 ≠ fb1 ∧ s.refcnt fb2 ≤ 1 := by
  rw [addRefs_refcnt, Pi.add_apply, ref_self] at h
  refine ⟨?_, ?_⟩
  · rintro rfl
    rw [ref_self] at h
    omega
  · have := ref_nonneg fb1 fb2
    omega

/-- What a replacement does to the tables and the lists. -/
theorem userctlReplace_frame {s : State} {n1 n2 : Name} {fb1 fb2 : Addr} {f1 f2 : Factory}
    (h1 : s.lookup n1 = some fb1) (h2 : s.lookup n2 = some fb2) (hf1 : s.factory fb1 = some f1)
    (hf2 : s.factory fb2 = some f2) (hcnt : (s.addRefs (ref fb1 + ref fb2)).refcnt fb2 ≤ 2)
    (al : Alloc) (dropPriv : Bool) :
    (userctlReplace al s n1 n2 dropPriv).2.registry =
      ((unregisterFblockNamespaceNoRcu s fb2).registry.migrate fb2 fb1).enter (s.idp fb1)
        (if al.radix then some fb2 else none) ∧
    (userctlReplace al s n1 n2 dropPriv).2.lists = s.lists.migrate fb2 fb1 := by
  rw [userctlReplace_eq h1 h2 hf1 hf2 hcnt al dropPriv]
  dsimp only
  rw [registerFblock_replaceSteps]
  simp only [registry_putFblock, lists_putFblock]
  constructor
  · rw [registry_enter, registry_replaceSteps, Registry.enter_enter, unregisterNoRcu_addRefs,
      registry_addRefs]
    rfl
  · exact lists_replaceSteps _

theorem userctlReplace_result {s : State} {P : Addr → Ports} (hP : Copies s P)
    (hpos : ∀ a, s.registry.Has a → 1 ≤ s.refcnt a) (al : Alloc) (n1 n2 : Name)
    (dropPriv : Bool) :
    ReplaceResult al s P n1 n2 dropPriv (userctlReplace al s n1 n2 dropPriv) := by
  rcases userctlReplace_cases al s n1 n2 dropPriv with
    ⟨hret, hrefused⟩ | ⟨fb1, fb2, f1, f2, h1, h2, hf1, hf2, hcnt⟩
  · generalize userctlReplace al s n1 n2 dropPriv = r at hret hrefused ⊢
    obtain ⟨ret, t⟩ := r
    change ret ≠ .ok at hret
    change ReplaceRefused s t at hrefused
    cases hrefused with
    | unknown => exact .quiet hret (.refl _)
    | leak a hf => exact .leak a hret hf rfl rfl (fun _ _ => rfl) rfl
    | second a => exact .quiet hret (quiet_get_put s a)
    | leakSecond a b hf =>
      refine .leak b hret hf (by simp) (by simp) (fun _ _ => ports_putFblock ..) ?_
      rw [refcnt_putFblock]
      show s.refcnt + (ref a + ref b) - ref a = s.refcnt + ref b
      abel
    | busy a b => exact .quiet hret (quiet_get_put_two s a b)
  · obtain ⟨hne, hle⟩ := unreferenced_of_le_two (hpos fb2 (has_of_lookup h2)) hcnt
    obtain ⟨hreg, hlists⟩ := userctlReplace_frame h1 h2 hf1 hf2 hcnt al dropPriv
    refine .done fb1 fb2 f1 f2 h1 h2 hf1 hf2 hne hle ?_ hreg hlists ?_ ?_ <;>
      rw [userctlReplace_eq h1 h2 hf1 hf2 hcnt al dropPriv] <;> dsimp only <;>
      rw [registerFblock_replaceSteps]
    · have hPt := (hP.addRefs (ref fb1 + ref fb2)).replaceSteps fb1 fb2 (exchanges f1 f2 dropPriv)
      exact ((hPt.enter _ _).putFblock fb1).putFblock fb2
    · simp only [refcnt_putFblock]
      show (replaceSteps _ fb1 fb2 _).refcnt - ref fb1 - ref fb2 = _
      have hcount : (s.addRefs (ref fb1 + ref fb2)).refcnt = s.refcnt + (ref fb2 + ref fb1) := by
        rw [add_comm (ref fb2)]
        rfl
      rw [refcnt_replaceSteps, hcount, swapField_add_refs]
      abel

/-! ## The counter -/

section Counter

variable {s : State}

theorem counter_unregisterNoRcu (s : State) (a : Addr) :
    (unregisterFblockNamespaceNoRcu s a).idpCounter = s.idpCounter := by
  obtain ⟨t, m, h⟩ := unregisterNoRcu_frame s a
  rw [h]

theorem counter_keepVlink (r : Option Addr × State) :
    (keepVlink r).idpCounter = r.2.idpCounter := by
  obtain ⟨_ | fb, t⟩ := r <;> rfl

theorem counter_destroy (s : State) (fb : Addr) :
    (destroyFblock s fb).idpCounter = s.idpCounter := counter_unregisterNoRcu s fb

/-- Only the creation of a block moves the counter, by one. -/
theorem idpCounter_exec {P : Addr → Ports} (hT : Tables s.registry) (hP : Copies s P)
    (hpos : ∀ a, s.registry.Has a → 1 ≤ s.refcnt a) (c : Cmd)
    (hwrap : c.creates = true → s.idpCounter + 1 < 2 ^ 32) :
    (c.exec s).idpCounter ≤ s.idpCounter + (if c.creates then 1 else 0) := by
  have hmod : s.idpCounter + 1 < 2 ^ 32 → (s.idpCounter + 1) % 2 ^ 64 = s.idpCounter + 1 :=
    fun h => Nat.mod_eq_of_lt (by omega)
  have hctor : ∀ {ops proc area al n}, s.idpCounter + 1 < 2 ^ 32 →
      (fbCtor ops proc area al s n).2.idpCounter ≤ s.idpCounter + 1 := by
    intro ops proc area al n hlt
    have hC : Created s (fbCtor ops proc area al s n).2 area ops := fbCtor_created hT proc al
    have := hmod hlt
    rcases hC.counter with h | h <;> omega
  cases c with
  | add n type al =>
    have hlt := hmod (hwrap rfl)
    show (userctlAdd al s n type).2.idpCounter ≤ s.idpCounter + 1
    rcases userctlAdd_result hT al n type with ⟨-, hq, -⟩ | ⟨f, -, -, -, hC, -⟩ |
      ⟨f, -, t, -, -, hC, -, -, -, -, -, heq⟩
    · have : (userctlAdd al s n type).2.idpCounter = s.idpCounter :=
        congrArg Registry.idpCounter hq.registry
      omega
    · rcases hC.counter with h | h <;> omega
    · rw [heq]
      show t.idpCounter ≤ _
      rcases hC.counter with h | h <;> omega
  | rm n =>
    refine le_of_eq ?_
    rcases userctlRemove_result s n with ⟨-, hq, -⟩ | ⟨a, f, -, -, -, -, hreg, -⟩
    · exact congrArg Registry.idpCounter hq.registry
    · exact (congrArg Registry.idpCounter hreg).trans (counter_unregisterNoRcu s a)
  | bind n1 n2 al => exact le_of_eq (congrArg Registry.idpCounter (registry_userctlBind al s n1 n2))
  | unbind n1 n2 => exact le_of_eq (congrArg Registry.idpCounter (registry_userctlUnbind s n1 n2))
  | replace n1 n2 dropPriv al =>
    refine le_of_eq ?_
    rcases userctlReplace_result hP hpos al n1 n2 dropPriv with ⟨-, hq⟩ |
      ⟨a, -, -, hreg, -⟩ | ⟨fb1, fb2, f1, f2, -, -, -, -, -, -, -, hreg, -⟩
    · exact congrArg Registry.idpCounter hq.registry
    · exact congrArg Registry.idpCounter hreg
    · exact (replaced_tables hT hreg).idpCounter
  | subscribe n1 n2 al =>
    exact le_of_eq (congrArg Registry.idpCounter (registry_userctlSubscribe al s n1 n2))
  | unsubscribe n1 n2 =>
    exact le_of_eq (congrArg Registry.idpCounter (registry_userctlUnsubscribe s n1 n2))
  | hookEth n dev al =>
    show (fbEthStartHookDev al s n dev).idpCounter ≤ s.idpCounter + 1
    have h := @hctor .eth false (Priv.init dev 0) al n (hwrap rfl)
    unfold fbEthStartHookDev fbEthBuildFblock
    rw [counter_keepVlink]
    rcases hr : fbCtor .eth false (Priv.init dev 0) al s n with ⟨_ | fb, t⟩ <;> rw [hr] at h
    · exact h
    · dsimp only
      split_ifs
      · exact h
      · exact (counter_unregisterNoRcu t fb).trans_le h
  | addEthvlink n vdev al => exact (counter_keepVlink _).trans_le (hctor (hwrap rfl))
  | openSock n sock al => exact (counter_keepVlink _).trans_le (hctor (hwrap rfl))
  | stopVlink fb =>
    refine le_of_eq ?_
    show (removeVlink s fb).idpCounter = s.idpCounter
    unfold removeVlink
    split_ifs
    · rfl
    · exact counter_destroy s fb
    · rfl
  | closeSock fb cpu =>
    refine le_of_eq ?_
    show (lanaSkFree cpu s fb).idpCounter = s.idpCounter
    unfold lanaSkFree
    split_ifs
    · dsimp only
      rw [counter_destroy]
      exact congrArg Registry.idpCounter (Prims.skFree cpu s fb).registry
    · rfl

end Counter

end Lana
