import Lana.User.Registration
import Lana.User.Replace

/-!
# Blocks that nobody uses

With no binding and no subscription a block of a factory has one reference from its registration to
its release.  `Stack` is what holds then in a run of add, rm and replace, whatever allocation fails:
a registration that fails may leave an object without a factory in `fblmap`, and a replacement that
fails may leave a block out of it.  What a step leaves is read off the code once, as a record
(`Raised`, `Enrolled`, `Removed`, `Superseded`); that `Stack` is kept follows from the record.
-/

namespace Lana

open State

/-- A block of a factory that is entered has its name and one reference, and is not `gone`; the
blocks with an entry in procfs are entered until they are. -/
structure Stack (s : State) (gone : List Addr) : Prop where
  wf : Wf IdpElem.name s.idpmap
  short : ∀ a, (s.name a).strlen < fbnamsiz
  fresh : ∀ a, s.nextFblock ≤ a → s.factory a = none
  stored : ∀ i a, s.fblmap i = some a → s.idp a = i ∧ a < s.nextFblock
  registered : ∀ i a, s.fblmap i = some a → s.factory a ≠ none →
    s.registry.names (s.name a) = some i ∧ s.refcnt a = 1 ∧ a ∉ gone
  entered : ∀ a, (s.factory a).any Factory.proc = true → a ∉ gone → s.fblmap (s.idp a) = some a

/-- At most a new object, without a factory, and possibly its entry in `fblmap`. -/
structure Raised (s t : State) : Prop where
  idpmap : t.idpmap = s.idpmap
  factory : t.factory = s.factory
  next : s.nextFblock ≤ t.nextFblock
  name : (t.name s.nextFblock).strlen < fbnamsiz
  keep : ∀ a, a ≠ s.nextFblock → t.name a = s.name a ∧ t.idp a = s.idp a ∧ t.refcnt a = s.refcnt a
  fblmap : ∀ i, t.fblmap i = s.fblmap i ∨ s.fblmap i = none ∧ t.fblmap i = some s.nextFblock ∧
    t.idp s.nextFblock = i ∧ s.nextFblock < t.nextFblock

/-- A new block in both tables, under a name that was free. -/
structure Enrolled (s t : State) (n : CStr) : Prop where
  wf : Wf IdpElem.name t.idpmap
  free : s.registry.names n = none
  unused : s.fblmap (t.idp s.nextFblock) = none
  name : t.name s.nextFblock = n
  short : n.strlen < fbnamsiz
  refcnt : t.refcnt s.nextFblock = 1
  factory : t.factory = s.factory
  next : t.nextFblock = s.nextFblock + 1
  keep : ∀ a, a ≠ s.nextFblock → t.name a = s.name a ∧ t.idp a = s.idp a ∧ t.refcnt a = s.refcnt a
  fblmap : t.fblmap = Function.update s.fblmap (t.idp s.nextFblock) (some s.nextFblock)
  names : ∀ m, t.registry.names m =
    if m = n then some (t.idp s.nextFblock) else s.registry.names m

/-- `a` is out of both tables, and its last reference is gone. -/
structure Removed (s t : State) (a : Addr) : Prop where
  wf : Wf IdpElem.name t.idpmap
  names : ∀ n, t.registry.names n = if n = s.name a then none else s.registry.names n
  fblmap : t.fblmap = Function.update s.fblmap (s.idp a) none
  name : t.name = s.name
  idp : t.idp = s.idp
  factory : t.factory = s.factory
  next : t.nextFblock = s.nextFblock
  refcnt : t.refcnt = s.refcnt + -ref a

/-- `fb2` has the name, the idp and the count of `fb1`, whose last reference is gone; the entry of
the idp is `e`. -/
structure Superseded (s t : State) (fb1 fb2 : Addr) (e : Option Addr) : Prop where
  wf : Wf IdpElem.name t.idpmap
  names : ∀ n, t.registry.names n = if n = s.name fb2 then none else s.registry.names n
  fblmap : ∀ i, t.fblmap i =
    if i = s.idp fb1 then e else if i = s.idp fb2 then none else s.fblmap i
  name : t.name = Function.update s.name fb2 (s.name fb1)
  idp : t.idp = Function.update s.idp fb2 (s.idp fb1)
  factory : t.factory = s.factory
  next : t.nextFblock = s.nextFblock
  refcnt : t.refcnt = swapField s.refcnt fb2 fb1 - ref fb1

theorem ne_none_of_any {o : Option Factory} (h : o.any Factory.proc = true) : o ≠ none := by
  rintro rfl
  cases h

theorem ne_none_of_eq {o : Option Factory} {f : Factory} (h : o = some f) : o ≠ none := by
  rw [h]
  exact Option.some_ne_none f

namespace Stack

variable {s t : State} {gone : List Addr}

theorem init (online : OnlineCpus) : Stack (State.init online) [] where
  wf := wf_none _
  short := fun _ => show CStr.empty.strlen < fbnamsiz by decide
  fresh := fun _ _ => rfl
  stored := by
    intro i a h
    cases h
  registered := by
    intro i a h
    cases h
  entered := by
    intro a h
    cases h

theorem ne_next (h : Stack s gone) {a : Addr} (ha : s.factory a ≠ none) : a ≠ s.nextFblock := by
  rintro rfl
  exact ha (h.fresh _ le_rfl)

theorem addRefs (h : Stack s gone) {δ : Addr → ℤ} (hδ : ∀ a, s.factory a ≠ none → δ a = 0) :
    Stack (s.addRefs δ) gone where
  wf := h.wf
  short := h.short
  fresh := h.fresh
  stored := h.stored
  registered := by
    intro i a hi hf
    obtain ⟨hn, hr, hg⟩ := h.registered i a hi hf
    refine ⟨hn, ?_, hg⟩
    rw [addRefs_refcnt, hr, hδ a hf, add_zero]
  entered := h.entered

theorem raised (h : Stack s gone) (ht : Raised s t) : Stack t gone where
  wf := ht.idpmap ▸ h.wf
  short := by
    intro a
    by_cases ha : a = s.nextFblock
    · rw [ha]
      exact ht.name
    · rw [(ht.keep a ha).1]
      exact h.short a
  fresh := by
    intro a ha
    rw [ht.factory]
    exact h.fresh a (ht.next.trans ha)
  stored := by
    intro i a hi
    obtain heq | ⟨-, hnew, hidp, hlt⟩ := ht.fblmap i
    · obtain ⟨hidp, hlt⟩ := h.stored i a (heq ▸ hi)
      rw [(ht.keep a hlt.ne).2.1]
      exact ⟨hidp, lt_of_lt_of_le hlt ht.next⟩
    · obtain rfl := Option.some.inj (hnew.symm.trans hi)
      exact ⟨hidp, hlt⟩
  registered := by
    intro i a hi hf
    rw [ht.factory] at hf
    have hne := h.ne_next hf
    obtain heq | ⟨-, hnew, -⟩ := ht.fblmap i
    · obtain ⟨hn, hr, hg⟩ := h.registered i a (heq ▸ hi) hf
      obtain ⟨hname, -, hcnt⟩ := ht.keep a hne
      refine ⟨?_, hcnt.trans hr, hg⟩
      rw [hname, ← hn]
      exact congrArg (fun m => (critbitGet IdpElem.name m (s.name a)).map IdpElem.idp) ht.idpmap
    · exact absurd (Option.some.inj (hi.symm.trans hnew)) hne
  entered := by
    intro a hf hg
    rw [ht.factory] at hf
    have hne := h.ne_next (ne_none_of_any hf)
    have hold := h.entered a hf hg
    rw [(ht.keep a hne).2.1]
    obtain heq | ⟨hnone, -⟩ := ht.fblmap (s.idp a)
    · rw [heq, hold]
    · rw [hold] at hnone
      cases hnone

theorem enrolled (h : Stack s gone) {name : CStr} (ht : Enrolled s t name) (f : Factory)
    (hgone : s.nextFblock ∉ gone) :
    Stack { t with factory := Function.update t.factory s.nextFblock (some f) } gone := by
  refine ⟨ht.wf, fun a => ?_, fun a ha => ?_, fun i a hi => ?_, fun i a hi hf => ?_,
    fun a hf hg => ?_⟩
  · show (t.name a).strlen < fbnamsiz
    by_cases ha : a = s.nextFblock
    · rw [ha, ht.name]
      exact ht.short
    · rw [(ht.keep a ha).1]
      exact h.short a
  · change t.nextFblock ≤ a at ha
    rw [ht.next] at ha
    have hlt : s.nextFblock < a := ha
    show Function.update t.factory s.nextFblock (some f) a = none
    rw [Function.update_of_ne hlt.ne', ht.factory]
    exact h.fresh a hlt.le
  · change t.fblmap i = some a at hi
    show t.idp a = i ∧ a < t.nextFblock
    rw [ht.fblmap, Function.update_apply] at hi
    rw [ht.next]
    split_ifs at hi with hi'
    · obtain rfl := Option.some.inj hi
      exact ⟨hi'.symm, Nat.lt_succ_self _⟩
    · obtain ⟨hidp, hlt⟩ := h.stored i a hi
      rw [(ht.keep a hlt.ne).2.1]
      exact ⟨hidp, hlt.trans (Nat.lt_succ_self _)⟩
  · change t.fblmap i = some a at hi
    change Function.update t.factory s.nextFblock (some f) a ≠ none at hf
    show t.registry.names (t.name a) = some i ∧ t.refcnt a = 1 ∧ a ∉ gone
    rw [ht.names]
    rw [ht.fblmap, Function.update_apply] at hi
    split_ifs at hi with hi'
    · obtain rfl := Option.some.inj hi
      rw [if_pos ht.name, hi']
      exact ⟨rfl, ht.refcnt, hgone⟩
    · have hne : a ≠ s.nextFblock := (h.stored i a hi).2.ne
      rw [Function.update_of_ne hne, ht.factory] at hf
      obtain ⟨hn, hr, hg⟩ := h.registered i a hi hf
      obtain ⟨hname, -, hcnt⟩ := ht.keep a hne
      have hother : s.name a ≠ name := by
        rintro rfl
        cases hn.symm.trans ht.free
      rw [hname, hcnt, if_neg hother]
      exact ⟨hn, hr, hg⟩
  · change (Function.update t.factory s.nextFblock (some f) a).any Factory.proc = true at hf
    show t.fblmap (t.idp a) = some a
    rw [ht.fblmap]
    by_cases ha : a = s.nextFblock
    · rw [ha, Function.update_self]
    · rw [Function.update_of_ne ha, ht.factory] at hf
      have hold := h.entered a hf hg
      have hother : s.idp a ≠ t.idp s.nextFblock := by
        intro heq
        rw [heq, ht.unused] at hold
        cases hold
      rw [(ht.keep a ha).2.1, Function.update_of_ne hother]
      exact hold

end Stack

section Constructors

variable {s t : State} {ops : FbType} {proc : Bool} {area : Priv} {al : Alloc} {name : CStr}

theorem raised_constructed (s : State) (name : CStr) (area : Priv) (ops : FbType) :
    Raised s (s.constructed name area ops) where
  idpmap := rfl
  factory := rfl
  next := Nat.le_succ _
  name := constructed_name_lt s name area ops
  keep := fun _ ha =>
    have h := constructed_keep s name area ops ha
    ⟨h.1, h.2.1, h.2.2.2.2.1⟩
  fblmap := fun _ => .inl rfl

/-- What a constructor that fails leaves behind. -/
theorem raised_of_fbCtor (hw : Wf IdpElem.name s.idpmap) (hs : ∀ a, (s.name a).strlen < fbnamsiz)
    (h : fbCtor ops proc area al s name = (none, t)) : Raised s t := by
  have hcon := raised_constructed s name area ops
  have hidp : ∀ a, a ≠ s.nextFblock →
      ((s.constructed name area ops).numbered s.nextFblock).idp a = s.idp a :=
    fun a ha => Function.update_of_ne ha ..
  obtain ⟨u, heq, -, hu⟩ | ⟨e, u, hr, heq⟩ | ⟨u, hr, heq⟩ := fbCtor_cases ops proc area al s name
  · cases heq.symm.trans h
    obtain rfl | rfl | rfl := hu
    · exact ⟨rfl, rfl, le_rfl, hs _, fun _ _ => ⟨rfl, rfl, rfl⟩, fun _ => .inl rfl⟩
    · exact ⟨rfl, rfl, Nat.le_succ _, hs _, fun _ _ => ⟨rfl, rfl, rfl⟩, fun _ => .inl rfl⟩
    · exact hcon
  · cases heq.symm.trans h
    have hkeep : ∀ a, a ≠ s.nextFblock → (s.constructed name area ops).name a = s.name a ∧
        ((s.constructed name area ops).numbered s.nextFblock).idp a = s.idp a ∧
        (s.constructed name area ops).refcnt a = s.refcnt a := fun a ha =>
      ⟨(hcon.keep a ha).1, hidp a ha, (hcon.keep a ha).2.2⟩
    have hst := registerFblockNamespace_of_err (congrArg Prod.fst hr)
    rw [hr] at hst
    dsimp only at hst
    rw [hst]
    split_ifs with hent
    · refine ⟨rfl, rfl, hcon.next, hcon.name, hkeep, fun i => ?_⟩
      by_cases hi : i = s.nextIdp
      · subst hi
        exact .inr ⟨hent.2, Function.update_self .., Function.update_self .., Nat.lt_succ_self _⟩
      · exact .inl (Function.update_of_ne hi ..)
    · exact ⟨rfl, rfl, hcon.next, hcon.name, hkeep, fun _ => .inl rfl⟩
  · cases heq.symm.trans h

/-- A constructor that returns a block has entered it in both tables. -/
theorem enrolled_of_fbCtor (hw : Wf IdpElem.name s.idpmap) {fb : Addr}
    (h : fbCtor ops proc area al s name = (some fb, t)) :
    fb = s.nextFblock ∧ Enrolled s t (strlcpy name fbnamsiz) := by
  obtain ⟨u, heq, -⟩ | ⟨e, u, -, heq⟩ | ⟨u, hr, heq⟩ := fbCtor_cases ops proc area al s name
  · cases heq.symm.trans h
  · cases heq.symm.trans h
  cases heq.symm.trans h
  refine ⟨rfl, ?_⟩
  have hcon := raised_constructed s name area ops
  obtain ⟨hname, -, hone, -⟩ := constructed_new s name area ops
  obtain ⟨e, he, -⟩ | ⟨hfree, ⟨e, he, -⟩ | ⟨hnone, tr, hok, htr, hnames⟩⟩ :=
    registerFblockNamespace_cases al (s := s.constructed name area ops) hw
      (constructed_name_lt s name area ops)
  · cases he.symm.trans hr
  · cases he.symm.trans hr
  cases hok.symm.trans hr
  rw [hname] at hnone hnames
  have hidp : (Function.update s.idp s.nextFblock s.nextIdp) s.nextFblock = s.nextIdp :=
    Function.update_self ..
  exact
    { wf := htr
      free := hnone
      unused := (congrArg s.fblmap hidp).trans hfree
      name := hname
      short := strlcpy_strlen_lt name
      refcnt := hone
      factory := rfl
      next := rfl
      keep := fun a ha => ⟨(hcon.keep a ha).1, Function.update_of_ne ha .., (hcon.keep a ha).2.2⟩
      fblmap := congrArg (fun i => Function.update s.fblmap i (some s.nextFblock)) hidp.symm
      names := fun n => by
        rw [show State.idp _ s.nextFblock = s.nextIdp from hidp]
        exact hnames n }

end Constructors

section Releases

variable {s : State}

theorem removed_release (hw : Wf IdpElem.name s.idpmap) (a : Addr) (f : Factory) :
    Removed s ((unregisterFblockNamespaceNoRcu s a).release a f) a := by
  obtain ⟨tr, heq, htr, hnames⟩ := unregisterNoRcu_spec hw a
  rw [heq]
  cases f <;> exact ⟨htr, hnames, rfl, rfl, rfl, rfl, rfl, rfl⟩

theorem superseded_release (hw : Wf IdpElem.name s.idpmap) {fb1 : Addr}
    (hshort : (s.name fb1).strlen < fbnamsiz) (fb2 : Addr) (exch : Bool) (e : Option Addr)
    (f : Factory) :
    Superseded s (((s.replaced fb1 fb2 exch).enter (s.idp fb1) e).release fb1 f) fb1 fb2 e := by
  have hreg : (((s.replaced fb1 fb2 exch).enter (s.idp fb1) e).release fb1 f).registry =
      ((unregisterFblockNamespaceNoRcu s fb2).registry.migrate fb2 fb1).enter (s.idp fb1) e := by
    unfold State.replaced
    rw [enter_enter]
    cases f <;> rfl
  have hcnt : (((s.replaced fb1 fb2 exch).enter (s.idp fb1) e).release fb1 f).refcnt =
      swapField s.refcnt fb2 fb1 - ref fb1 := by
    rw [← refcnt_replaced s fb1 fb2 exch f]
    cases f <;> rfl
  have hR := replaced_registry hw hshort fb2 e hreg
  exact ⟨hR.wf, hR.names, hR.fblmap, hR.name, hR.idp, hR.factory, hR.nextFblock, hcnt⟩

end Releases

namespace Stack

variable {s t : State} {gone : List Addr}

theorem of_lookup (h : Stack s gone) {n : CStr} {a : Addr} (ha : s.lookup n = some a) :
    s.fblmap (s.idp a) = some a := by
  have hidp := (h.stored _ a ha).1
  rw [hidp]
  exact ha

/-- Two blocks of factories that are entered share neither idp nor name. -/
theorem ne_of_ne (h : Stack s gone) {i j : Idp} {a b : Addr} (ha : s.fblmap i = some a)
    (hb : s.fblmap j = some b) (hfa : s.factory a ≠ none) (hfb : s.factory b ≠ none)
    (hne : i ≠ j) : a ≠ b ∧ s.name a ≠ s.name b := by
  refine ⟨?_, fun hname => ?_⟩
  · rintro rfl
    exact hne ((h.stored i a ha).1.symm.trans (h.stored j a hb).1)
  · have hi := (h.registered i a ha hfa).1
    rw [hname, (h.registered j b hb hfb).1] at hi
    exact hne (Option.some.inj hi).symm

theorem idp_ne {a b : Addr} (ha : s.fblmap (s.idp a) = some a) (hb : s.fblmap (s.idp b) = some b)
    (hne : a ≠ b) : s.idp a ≠ s.idp b := by
  intro heq
  rw [heq, hb] at ha
  exact hne (Option.some.inj ha).symm

/-- A block is taken out of both tables and released. -/
theorem removed (h : Stack s gone) {a : Addr} (ha : s.fblmap (s.idp a) = some a)
    (hfa : s.factory a ≠ none) (ht : Removed s t a) : Stack t (a :: gone) := by
  have hmap : ∀ i b, t.fblmap i = some b → i ≠ s.idp a ∧ s.fblmap i = some b := by
    intro i b hi
    rw [ht.fblmap, Function.update_apply] at hi
    split_ifs at hi with hi'
    exact ⟨hi', hi⟩
  refine ⟨ht.wf, fun b => ?_, fun b hb => ?_, fun i b hi => ?_, fun i b hi hfb => ?_,
    fun b hfb hg => ?_⟩
  · rw [ht.name]
    exact h.short b
  · rw [ht.factory]
    exact h.fresh b (ht.next ▸ hb)
  · rw [ht.idp, ht.next]
    exact h.stored i b (hmap i b hi).2
  · rw [ht.factory] at hfb
    obtain ⟨hne, hi⟩ := hmap i b hi
    obtain ⟨hba, hnba⟩ := h.ne_of_ne hi ha hfb hfa hne
    obtain ⟨hn, hr, hg⟩ := h.registered i b hi hfb
    rw [ht.name, ht.names, if_neg hnba, hn, ht.refcnt, Pi.add_apply, Pi.neg_apply, ref_of_ne hba, hr]
    exact ⟨rfl, rfl, List.not_mem_cons_of_ne_of_not_mem hba hg⟩
  · rw [ht.factory] at hfb
    obtain ⟨hba, hg⟩ := List.ne_and_not_mem_of_not_mem_cons hg
    have hb := h.entered b hfb hg
    rw [ht.idp, ht.fblmap, Function.update_of_ne (idp_ne hb ha hba)]
    exact hb

/-- A block without an entry in procfs takes the place of another one, which is released. -/
theorem superseded (h : Stack s gone) {fb1 fb2 : Addr} (h1 : s.fblmap (s.idp fb1) = some fb1)
    (h2 : s.fblmap (s.idp fb2) = some fb2) (hfb1 : s.factory fb1 ≠ none)
    (hfb2 : s.factory fb2 ≠ none) (hne : fb2 ≠ fb1)
    (hproc : ¬ (s.factory fb2).any Factory.proc = true) {e : Option Addr}
    (he : ∀ a, e = some a → a = fb2) (ht : Superseded s t fb1 fb2 e) : Stack t (fb1 :: gone) := by
  have hother : ∀ i b, t.fblmap i = some b → i = s.idp fb1 ∧ b = fb2 ∨
      i ≠ s.idp fb1 ∧ i ≠ s.idp fb2 ∧ s.fblmap i = some b := by
    intro i b hi
    rw [ht.fblmap] at hi
    split_ifs at hi with hi1 hi2
    · exact .inl ⟨hi1, he b hi⟩
    · exact .inr ⟨hi1, hi2, hi⟩
  refine ⟨ht.wf, fun b => ?_, fun b hb => ?_, fun i b hi => ?_, fun i b hi hfb => ?_,
    fun b hfb hg => ?_⟩
  · rw [ht.name, Function.update_apply]
    split_ifs
    · exact h.short fb1
    · exact h.short b
  · rw [ht.factory]
    exact h.fresh b (ht.next ▸ hb)
  · rw [ht.idp, ht.next]
    obtain ⟨rfl, rfl⟩ | ⟨-, hi2, hb⟩ := hother i b hi
    · exact ⟨Function.update_self .., (h.stored _ b h2).2⟩
    · obtain ⟨hbi, hlt⟩ := h.stored i b hb
      have hb2 : b ≠ fb2 := by
        rintro rfl
        exact hi2 hbi.symm
      rw [Function.update_of_ne hb2]
      exact ⟨hbi, hlt⟩
  · rw [ht.factory] at hfb
    rw [ht.name, ht.refcnt, ht.names, Pi.sub_apply]
    obtain ⟨rfl, rfl⟩ | ⟨hi1, hi2, hb⟩ := hother i b hi
    · obtain ⟨hn, hr, -⟩ := h.registered _ fb1 h1 hfb1
      have hname := (h.ne_of_ne h1 h2 hfb1 hfb2 (idp_ne h1 h2 hne.symm)).2
      rw [Function.update_self, swapField_dst, ref_of_ne hne, if_neg hname, hn, hr, sub_zero]
      have hg := (h.registered _ b h2 hfb2).2.2
      exact ⟨rfl, rfl, List.not_mem_cons_of_ne_of_not_mem hne hg⟩
    · obtain ⟨hb1, -⟩ := h.ne_of_ne hb h1 hfb hfb1 hi1
      obtain ⟨hb2, hnb2⟩ := h.ne_of_ne hb h2 hfb hfb2 hi2
      obtain ⟨hn, hr, hg⟩ := h.registered i b hb hfb
      rw [Function.update_of_ne hb2, swapField_of_ne hb2 hb1, ref_of_ne hb1, if_neg hnb2, hn, hr,
        sub_zero]
      exact ⟨rfl, rfl, List.not_mem_cons_of_ne_of_not_mem hb1 hg⟩
  · rw [ht.factory] at hfb
    obtain ⟨hb1, hg⟩ := List.ne_and_not_mem_of_not_mem_cons hg
    have hb2 : b ≠ fb2 := by
      rintro rfl
      exact hproc hfb
    have hb := h.entered b hfb hg
    rw [ht.idp, Function.update_of_ne hb2, ht.fblmap, if_neg (idp_ne hb h1 hb1),
      if_neg (idp_ne hb h2 hb2)]
    exact hb

theorem congr_gone (h : Stack s gone) {gone' : List Addr} (hg : ∀ a, a ∈ gone' ↔ a ∈ gone) :
    Stack s gone' where
  wf := h.wf
  short := h.short
  fresh := h.fresh
  stored := h.stored
  registered := by
    intro i a hi hf
    rw [hg]
    exact h.registered i a hi hf
  entered := by
    intro a hf ha
    rw [hg] at ha
    exact h.entered a hf ha

/-! ## What a command comes to -/

theorem refcnt_of_lookup (h : Stack s gone) {n : CStr} {a : Addr} (ha : s.lookup n = some a)
    {f : Factory} (hf : s.factory a = some f) : s.refcnt a = 1 :=
  (h.registered _ a ha (ne_none_of_eq hf)).2.1

/-- A lookup that is given up again. -/
theorem get_put (h : Stack s gone) {n : CStr} {a : Addr} (ha : s.lookup n = some a) :
    putFblock (s.addRefs (ref a)) a = s := by
  have hput : putFblock (s.addRefs (ref a)) a = (s.addRefs (ref a)).addRefs (-ref a) := by
    rcases hf : s.factory a with _ | f
    · exact putFblock_of_no_factory hf
    · apply putFblock_eq
      rw [addRefs_refcnt, ref_self, h.refcnt_of_lookup ha hf]
      omega
  rw [hput, addRefs_addRefs, add_neg_cancel, addRefs_zero]

theorem remove_cases (h : Stack s gone) (n : Name) :
    (userctlRemove s n).2 = s ∨ ∃ a f, s.lookup n = some a ∧ s.factory a = some f ∧
      (userctlRemove s n).2 = (unregisterFblockNamespaceNoRcu s a).release a f := by
  unfold userctlRemove
  rcases ha : s.lookup n with _ | a
  · rw [searchFblockN_none ha]
    exact .inl rfl
  rw [searchFblockN_some ha]
  dsimp only
  rw [show (s.addRefs (ref a)).factory a = s.factory a from rfl]
  rcases hf : s.factory a with _ | f
  · exact .inl (h.get_put ha)
  · have hone := h.refcnt_of_lookup ha hf
    have hcnt : ¬ (s.addRefs (ref a)).refcnt a > 2 := by
      rw [addRefs_refcnt, ref_self, hone]
      omega
    dsimp only
    rw [if_neg hcnt, ← getFblock_eq]
    exact .inr ⟨a, f, rfl, hf, removed_eq hf hone⟩

/-- A replacement that gives up leaves a reference at most to a block without a factory. -/
theorem replace_cases (h : Stack s gone) (al : Alloc) (n1 n2 : Name) (dropPriv : Bool) :
    (∃ δ : Addr → ℤ, (∀ a, s.factory a ≠ none → δ a = 0) ∧
      (userctlReplace al s n1 n2 dropPriv).2 = s.addRefs δ) ∨
    ∃ fb1 fb2 f1 f2, s.lookup n1 = some fb1 ∧ s.lookup n2 = some fb2 ∧
      s.factory fb1 = some f1 ∧ s.factory fb2 = some f2 ∧ fb2 ≠ fb1 ∧
      (userctlReplace al s n1 n2 dropPriv).2 =
        ((s.replaced fb1 fb2 (exchanges f1 f2 dropPriv)).enter (s.idp fb1)
          (if al.radix then some fb2 else none)).release fb1 f1 := by
  have hleak : ∀ b, s.factory b = none → ∀ a, s.factory a ≠ none → ref b a = 0 := by
    intro b hb a ha
    apply ref_of_ne
    rintro rfl
    exact ha hb
  have hzero : s = s.addRefs 0 := (addRefs_zero s).symm
  rcases h1 : s.lookup n1 with _ | fb1
  · rw [userctlReplace_unknown h1]
    exact .inl ⟨0, fun _ _ => rfl, hzero⟩
  rcases hf1 : s.factory fb1 with _ | f1
  · rw [userctlReplace_noFactory h1 hf1]
    exact .inl ⟨ref fb1, hleak fb1 hf1, rfl⟩
  have hr1 := h.refcnt_of_lookup h1 hf1
  rcases h2 : s.lookup n2 with _ | fb2
  · rw [userctlReplace_second h1 hf1 h2]
    exact .inl ⟨0, fun _ _ => rfl, (h.get_put h1).trans hzero⟩
  rcases hf2 : s.factory fb2 with _ | f2
  · rw [userctlReplace_secondNoFactory h1 hf1 h2 hf2]
    refine .inl ⟨ref fb2, hleak fb2 hf2, ?_⟩
    have hcnt : (s.addRefs (ref fb1 + ref fb2)).refcnt fb1 ≠ 1 := by
      have := ref_nonneg fb2 fb1
      rw [addRefs_refcnt, Pi.add_apply, ref_self, hr1]
      omega
    rw [putFblock_eq hcnt, addRefs_addRefs, add_neg_cancel_comm]
  have hr2 := h.refcnt_of_lookup h2 hf2
  by_cases hbusy : (s.addRefs (ref fb1 + ref fb2)).refcnt fb2 > 2
  · rw [userctlReplace_busy h1 hf1 h2 hf2 hbusy]
    exact .inl ⟨0, fun _ _ => rfl, (put_two_cancel hr1.ge hr2.ge).trans hzero⟩
  · obtain ⟨hne, -⟩ := unreferenced_of_le_two hr2.ge (not_lt.1 hbusy)
    rw [userctlReplace_release h1 h2 hf1 hf2 hne hr1.ge hr2]
    exact .inr ⟨fb1, fb2, f1, f2, rfl, rfl, hf1, hf2, hne, rfl⟩

end Stack

end Lana
