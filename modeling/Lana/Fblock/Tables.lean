import Lana.Fblock.Ports

/-!
# The two tables

`Tables` is what ties the crit-bit tree of names, the radix tree of idps and the name and idp in
the block objects together: a name leads to a block of that name, and a block is entered under its
own idp.  It is kept by the creation (`fbCtor_created`), the removal (`tables_unregister`) and the
replacement of blocks.
-/

namespace Lana

open State

/-- The map from names to idps that the crit-bit tree holds. -/
def Registry.names (r : Registry) (n : CStr) : Option Idp :=
  (critbitGet IdpElem.name r.idpmap n).map IdpElem.idp

/-- The blocks entered in `fblmap`. -/
def Registry.Has (r : Registry) (a : Addr) : Prop := ∃ i, r.fblmap i = some a

/-- Names lead to blocks of that name, entries hold blocks of that idp. -/
structure Tables (r : Registry) : Prop where
  wf : Wf IdpElem.name r.idpmap
  short : ∀ a, (r.name a).strlen < fbnamsiz
  named : ∀ n i, r.names n = some i → ∃ a, r.fblmap i = some a ∧ r.name a = n
  stored : ∀ i a, r.fblmap i = some a → r.idp a = i ∧ a < r.nextFblock

namespace Tables

variable {r : Registry}

theorem not_has_next (h : Tables r) (i : Idp) : r.fblmap i ≠ some r.nextFblock := by
  intro hi
  exact absurd (h.stored i _ hi).2 (lt_irrefl _)

/-- Different entered blocks have different idps. -/
theorem idp_inj (h : Tables r) {a b : Addr} (ha : r.Has a) (hb : r.Has b)
    (hab : r.idp a = r.idp b) : a = b := by
  obtain ⟨i, hi⟩ := ha
  obtain ⟨j, hj⟩ := hb
  rw [(h.stored i a hi).1, (h.stored j b hj).1] at hab
  subst hab
  exact Option.some.inj (hi.symm.trans hj)

theorem fblmap_idp (h : Tables r) {a : Addr} (ha : r.Has a) : r.fblmap (r.idp a) = some a := by
  obtain ⟨i, hi⟩ := ha
  rw [(h.stored i a hi).1, hi]

end Tables

theorem tables_init (online : OnlineCpus) : Tables (State.init online).registry where
  wf := wf_none _
  short := fun _ => show CStr.empty.strlen < fbnamsiz by decide
  named := fun n i h => by cases h
  stored := fun i a h => by cases h

/-- No idp has come round: every entry has an idp that the counter has passed since 0. -/
structure Numbered (r : Registry) : Prop where
  lt : r.idpCounter < 2 ^ 32
  entry : ∀ i a, r.fblmap i = some a → 0 < i.toNat ∧ i.toNat ≤ r.idpCounter

theorem Numbered.ne_unknown {r : Registry} (h : Numbered r) {i : Idp} {a : Addr}
    (hi : r.fblmap i = some a) : i ≠ idpUnknown := by
  rintro rfl
  exact absurd (h.entry _ a hi).1 (lt_irrefl 0)

theorem Numbered.unknown {r : Registry} (h : Numbered r) : r.fblmap idpUnknown = none := by
  rw [Option.eq_none_iff_forall_ne_some]
  exact fun a ha => h.ne_unknown ha rfl

theorem numbered_init (online : OnlineCpus) : Numbered (State.init online).registry where
  lt := show 0 < 2 ^ 32 by decide
  entry := fun i a h => by cases h

/-! ## Names -/

theorem names_insert {t : CritbitTree IdpElem} (hw : Wf IdpElem.name t) {alloc : Bool}
    {e : IdpElem} (h : (critbitInsert IdpElem.name alloc t e).1 = .ok) (n : CStr) :
    (critbitGet IdpElem.name (critbitInsert IdpElem.name alloc t e).2 n).map IdpElem.idp =
      if n = e.name then some e.idp else (critbitGet IdpElem.name t n).map IdpElem.idp := by
  rw [critbitGet_insert_ok hw h]
  split_ifs <;> rfl

theorem names_delete {t : CritbitTree IdpElem} (hw : Wf IdpElem.name t) (k n : CStr) :
    (critbitGet IdpElem.name (critbitDelete IdpElem.name t k).2 n).map IdpElem.idp =
      if n = k then none else (critbitGet IdpElem.name t n).map IdpElem.idp := by
  rw [critbitGet_delete hw]
  split_ifs <;> rfl

theorem getFblockNamespaceMapping_eq (s : State) (n : CStr) :
    getFblockNamespaceMapping s n = (s.registry.names n).getD idpUnknown := by
  unfold getFblockNamespaceMapping Registry.names
  have hmap : s.registry.idpmap = s.idpmap := rfl
  rw [hmap]
  rcases critbitGet IdpElem.name s.idpmap n <;> rfl

theorem lookup_eq (s : State) (n : CStr) :
    s.lookup n = s.fblmap ((s.registry.names n).getD idpUnknown) := by
  unfold State.lookup
  rw [getFblockNamespaceMapping_eq]

theorem lookup_congr {s t : State} (h : t.registry = s.registry) (n : CStr) :
    t.lookup n = s.lookup n := by
  rw [lookup_eq, lookup_eq, h, show t.fblmap = s.fblmap from congrArg Registry.fblmap h]

/-- A known name is looked up in both tables. -/
theorem lookup_of_named {s : State} (hT : Tables s.registry) {n : CStr} {i : Idp}
    (h : s.registry.names n = some i) :
    ∃ a, s.lookup n = some a ∧ s.fblmap i = some a ∧ s.name a = n ∧ s.idp a = i := by
  obtain ⟨a, ha, hn⟩ := hT.named n i h
  refine ⟨a, ?_, ha, hn, (hT.stored i a ha).1⟩
  rw [lookup_eq, h]
  exact ha

theorem lookup_eq_bind {s : State} (hN : Numbered s.registry) (n : CStr) :
    s.lookup n = (s.registry.names n).bind s.fblmap := by
  rw [lookup_eq]
  rcases s.registry.names n with _ | i
  · exact hN.unknown
  · rfl

theorem has_of_lookup {s : State} {n : CStr} {a : Addr} (h : s.lookup n = some a) :
    s.registry.Has a := ⟨_, h⟩

/-! ## Removal -/

theorem fblmap_unregisterNoRcu (s : State) (a : Addr) :
    (unregisterFblockNamespaceNoRcu s a).fblmap = Function.update s.fblmap (s.idp a) none := by
  unfold unregisterFblockNamespaceNoRcu unregisterFromFblockNamespace
  cases critbitGet IdpElem.name (radixTreeDelete s (s.idp a)).idpmap (s.name a) <;> rfl

/-- `unregister_fblock_namespace_no_rcu` takes the block out of both tables. -/
theorem unregisterNoRcu_spec {s : State} (hw : Wf IdpElem.name s.idpmap) (p : Addr) :
    ∃ t, unregisterFblockNamespaceNoRcu s p =
        { s with fblmap := Function.update s.fblmap (s.idp p) none, idpmap := t } ∧
      Wf IdpElem.name t ∧
      ∀ n, (critbitGet IdpElem.name t n).map IdpElem.idp =
        if n = s.name p then none else s.registry.names n := by
  unfold unregisterFblockNamespaceNoRcu unregisterFromFblockNamespace radixTreeDelete
  simp only
  rcases hg : critbitGet IdpElem.name s.idpmap (s.name p) with _ | e
  · refine ⟨s.idpmap, rfl, hw, fun n => ?_⟩
    split_ifs with hn
    · rw [hn, hg]; rfl
    · rfl
  · have he := ((critbitGet_eq_some hw).1 hg).2
    refine ⟨_, rfl, wf_delete hw _, fun n => ?_⟩
    rw [names_delete hw, he]
    rfl

/-- Taking a block out of both tables keeps them in step. -/
theorem tables_unregister {s : State} (hT : Tables s.registry) {p : Addr}
    (hp : s.registry.Has p) : Tables (unregisterFblockNamespaceNoRcu s p).registry := by
  obtain ⟨t, heq, hw, hnames⟩ := unregisterNoRcu_spec hT.wf p
  rw [heq]
  refine ⟨hw, hT.short, fun n i h => ?_, fun i a h => ?_⟩
  · have h' : (critbitGet IdpElem.name t n).map IdpElem.idp = some i := h
    rw [hnames] at h'
    split_ifs at h' with hn
    obtain ⟨a, ha, hna⟩ := hT.named n i h'
    refine ⟨a, ?_, hna⟩
    show Function.update s.fblmap (s.idp p) none i = some a
    rw [Function.update_of_ne, show s.fblmap i = some a from ha]
    rintro rfl
    -- the entry of `p` would carry another name than its own
    have := Option.some.inj ((hT.fblmap_idp hp).symm.trans ha)
    rw [this] at hn
    exact hn hna.symm
  · have h' : Function.update s.fblmap (s.idp p) none i = some a := h
    rw [Function.update_apply] at h'
    split_ifs at h'
    exact hT.stored i a h'

/-! ## Creation -/

theorem strlcpy_strlen_lt (src : CStr) : (strlcpy src fbnamsiz).strlen < fbnamsiz := by
  show (src.bytes.take 15).length < 16
  rw [List.length_take]
  omega

/-- The idp that the next registration takes. -/
def State.nextIdp (s : State) : Idp := UInt32.ofNat ((s.idpCounter + 1) % 2 ^ 64)

/-- The object `p` with its new idp, before it is entered. -/
def State.numbered (s : State) (p : Addr) : State :=
  { s with idpCounter := (s.idpCounter + 1) % 2 ^ 64, idp := Function.update s.idp p s.nextIdp }

/-- The object `p` entered in the radix tree under its new idp. -/
def State.entered (s : State) (p : Addr) : State :=
  { s.numbered p with fblmap := Function.update s.fblmap s.nextIdp (some p) }

theorem radixTreeInsert_cases (alloc : Bool) (s : State) (i : Idp) (p : Addr) :
    (∃ e, radixTreeInsert alloc s i p = (.err e, s) ∧ (alloc = false ∨ s.fblmap i ≠ none)) ∨
      s.fblmap i = none ∧ radixTreeInsert alloc s i p =
        (.ok, { s with fblmap := Function.update s.fblmap i (some p) }) := by
  unfold radixTreeInsert
  by_cases hmap : s.fblmap i = none
  · rw [if_neg (not_not.2 hmap)]
    cases alloc
    · exact .inl ⟨_, rfl, .inl rfl⟩
    · exact .inr ⟨hmap, rfl⟩
  · rw [if_pos hmap]
    exact .inl ⟨_, rfl, .inr hmap⟩

/-- `register_to_fblock_namespace` with a name that fits. -/
theorem registerToFblockNamespace_cases (al : Alloc) {s : State} (hw : Wf IdpElem.name s.idpmap)
    {n : CStr} (hn : n.strlen < fbnamsiz) (i : Idp) :
    (∃ e, registerToFblockNamespace al s n i = (.err e, s) ∧
      (al.elem = false ∨ al.node = false ∨ s.registry.names n ≠ none)) ∨
    s.registry.names n = none ∧ ∃ t, registerToFblockNamespace al s n i =
        (.ok, { s with idpmap := t }) ∧ Wf IdpElem.name t ∧
      ∀ m, (critbitGet IdpElem.name t m).map IdpElem.idp =
        if m = n then some i else s.registry.names m := by
  have hnames : s.registry.names n = (critbitGet IdpElem.name s.idpmap n).map IdpElem.idp := rfl
  unfold registerToFblockNamespace
  rw [critbitContains_eq, strlcpy_of_lt hn]
  rcases hg : critbitGet IdpElem.name s.idpmap n with _ | e
  · rw [hg, Option.map_none] at hnames
    rw [if_neg (by simp)]
    cases al.elem
    · exact .inl ⟨_, rfl, .inl rfl⟩
    · by_cases hok : (critbitInsert IdpElem.name al.node s.idpmap ⟨n, i⟩).1 = .ok
      · refine .inr ⟨hnames, _, ?_, wf_insert hw al.node ⟨n, i⟩, names_insert hw hok⟩
        rw [← hok]
        rfl
      · obtain ⟨htree, he | he⟩ := critbitInsert_not_ok hw hok
        · rw [critbitInsert_eexist_iff hw, hg] at he
          exact absurd rfl he
        · refine .inl ⟨.ENOMEM, ?_, .inr (.inl he.2)⟩
          simp only [htree, he.1]
          rfl
  · rw [hg, Option.map_some] at hnames
    exact .inl ⟨.EEXIST, if_pos rfl, .inr (.inr (by rw [hnames]; exact Option.some_ne_none _))⟩

theorem registerFblockNamespace_err {al : Alloc} {s t : State} {p : Addr} {e : Errno}
    (h : radixTreeInsert al.radix (s.numbered p) s.nextIdp p = (.err e, t)) :
    registerFblockNamespace al s p = (.err e, t) := by
  unfold registerFblockNamespace
  dsimp only
  split
  · rename_i hr
    cases h.symm.trans hr
    rfl
  · rename_i hr
    cases h.symm.trans hr

theorem registerFblockNamespace_ok {al : Alloc} {s t : State} {p : Addr}
    (h : radixTreeInsert al.radix (s.numbered p) s.nextIdp p = (.ok, t)) :
    registerFblockNamespace al s p = registerToFblockNamespace al t (t.name p) (t.idp p) := by
  unfold registerFblockNamespace
  dsimp only
  split
  · rename_i hr
    cases h.symm.trans hr
  · rename_i hr
    cases h.symm.trans hr
    rfl

theorem registerToFblockNamespace_frame (al : Alloc) (s : State) (n : CStr) (i : Idp) :
    ∃ t, (registerToFblockNamespace al s n i).2 = { s with idpmap := t } := by
  unfold registerToFblockNamespace
  split_ifs
  · exact ⟨s.idpmap, rfl⟩
  · exact ⟨s.idpmap, rfl⟩
  · exact ⟨_, rfl⟩

/-- The registry after a registration, whatever its outcome. -/
theorem registerFblockNamespace_frame (al : Alloc) (s : State) (p : Addr) :
    ∃ t, (registerFblockNamespace al s p).2 = s.numbered p ∨ s.fblmap s.nextIdp = none ∧
      (registerFblockNamespace al s p).2 = { s.entered p with idpmap := t } := by
  obtain ⟨e, hins, -⟩ | ⟨hnone, hins⟩ :=
    radixTreeInsert_cases al.radix (s.numbered p) s.nextIdp p
  · exact ⟨none, Or.inl (by rw [registerFblockNamespace_err hins])⟩
  · rw [registerFblockNamespace_ok hins]
    obtain ⟨t, ht⟩ := registerToFblockNamespace_frame al (s.entered p) ((s.entered p).name p)
      ((s.entered p).idp p)
    exact ⟨t, Or.inr ⟨hnone, ht⟩⟩

/-- What `register_fblock_namespace` can do: give up before the radix tree, give up with the block
entered there, or enter it in both tables. -/
theorem registerFblockNamespace_cases (al : Alloc) {s : State} (hw : Wf IdpElem.name s.idpmap)
    {p : Addr} (hn : (s.name p).strlen < fbnamsiz) :
    (∃ e, registerFblockNamespace al s p = (.err e, s.numbered p) ∧
      (al.radix = false ∨ s.fblmap s.nextIdp ≠ none)) ∨
    s.fblmap s.nextIdp = none ∧
      ((∃ e, registerFblockNamespace al s p = (.err e, s.entered p) ∧
        (al.elem = false ∨ al.node = false ∨ s.registry.names (s.name p) ≠ none)) ∨
      (s.registry.names (s.name p) = none ∧ ∃ t, registerFblockNamespace al s p =
          (.ok, { s.entered p with idpmap := t }) ∧ Wf IdpElem.name t ∧
        ∀ m, (critbitGet IdpElem.name t m).map IdpElem.idp =
          if m = s.name p then some s.nextIdp else s.registry.names m)) := by
  have hidp : (s.entered p).idp p = s.nextIdp := Function.update_self ..
  rcases radixTreeInsert_cases al.radix (s.numbered p) s.nextIdp p with ⟨e, hr, hwhy⟩ | ⟨hmap, hr⟩
  · exact .inl ⟨e, registerFblockNamespace_err hr, hwhy⟩
  · refine .inr ⟨hmap, ?_⟩
    have hreg : registerFblockNamespace al s p =
        registerToFblockNamespace al (s.entered p) (s.name p) s.nextIdp := by
      have hr' : radixTreeInsert al.radix (s.numbered p) s.nextIdp p = (.ok, s.entered p) := hr
      rw [registerFblockNamespace_ok hr', hidp]
      rfl
    rw [hreg]
    exact @registerToFblockNamespace_cases al (s.entered p) hw (s.name p) hn s.nextIdp

/-- The fresh object after `init_fblock`. -/
def State.constructed (s : State) (name : CStr) (area : Priv) (ops : FbType) : State :=
  initFblock (allocFblock s).2 s.nextFblock name area ops

/-- The steps of a constructor: the allocations before the registration, then the registration. -/
theorem fbCtor_cases (ops : FbType) (proc : Bool) (area : Priv) (al : Alloc) (s : State)
    (name : CStr) :
    (∃ t, fbCtor ops proc area al s name = (none, t) ∧ al ≠ .ok ∧
      (t = s ∨ t = (allocFblock s).2 ∨ t = s.constructed name area ops)) ∨
    (∃ e t, registerFblockNamespace al (s.constructed name area ops) s.nextFblock = (.err e, t) ∧
      fbCtor ops proc area al s name = (none, t)) ∨
    ∃ t, registerFblockNamespace al (s.constructed name area ops) s.nextFblock = (.ok, t) ∧
      fbCtor ops proc area al s name = (some s.nextFblock, t) := by
  unfold fbCtor
  dsimp only
  split_ifs with h1 h2 h3
  · exact .inl ⟨_, rfl, by rintro rfl; simp [Alloc.ok] at h1, .inl rfl⟩
  · exact .inl ⟨_, rfl, by rintro rfl; simp [Alloc.ok] at h2, .inr (.inl rfl)⟩
  · exact .inl ⟨_, rfl, by rintro rfl; simp [Alloc.ok] at h3, .inr (.inr rfl)⟩
  · split
    · rename_i e t hr
      exact .inr (.inl ⟨e, t, hr, rfl⟩)
    · rename_i t hr
      exact .inr (.inr ⟨t, hr, rfl⟩)

/-- The rule: what holds at each stage of a constructor holds after it. -/
theorem fbCtor_rule {I : State → Prop} {s : State} {name : CStr} {area : Priv} {ops : FbType}
    (hs : I s) (halloc : I (allocFblock s).2) (hcon : I (s.constructed name area ops))
    (hnumbered : I ((s.constructed name area ops).numbered s.nextFblock))
    (hentered : s.fblmap s.nextIdp = none → ∀ m,
      I { (s.constructed name area ops).entered s.nextFblock with idpmap := m })
    (proc : Bool) (al : Alloc) : I (fbCtor ops proc area al s name).2 := by
  have hreg : I (registerFblockNamespace al (s.constructed name area ops) s.nextFblock).2 := by
    obtain ⟨m, heq | ⟨hnone, heq⟩⟩ :=
      registerFblockNamespace_frame al (s.constructed name area ops) s.nextFblock
    · rw [heq]
      exact hnumbered
    · rw [heq]
      exact hentered hnone m
  obtain ⟨t, heq, -, rfl | rfl | rfl⟩ | ⟨e, t, ht, heq⟩ | ⟨t, ht, heq⟩ :=
    fbCtor_cases ops proc area al s name
  · rw [heq]
    exact hs
  · rw [heq]
    exact halloc
  · rw [heq]
    exact hcon
  · rw [heq]
    rwa [ht] at hreg
  · rw [heq]
    rwa [ht] at hreg

/-- An object that was allocated is not handed out again. -/
theorem nextFblock_fbCtor (ops : FbType) (proc : Bool) (area : Priv) {al : Alloc} (s : State)
    (name : CStr) (hal : al.fblock = true) :
    (fbCtor ops proc area al s name).2.nextFblock = s.nextFblock + 1 := by
  have hreg : (registerFblockNamespace al (s.constructed name area ops) s.nextFblock).2.nextFblock =
      s.nextFblock + 1 := by
    obtain ⟨m, heq | ⟨-, heq⟩⟩ :=
      registerFblockNamespace_frame al (s.constructed name area ops) s.nextFblock
    · rw [heq]
      rfl
    · rw [heq]
      rfl
  unfold fbCtor
  dsimp only
  rw [if_neg (by simp [hal])]
  split_ifs
  · rfl
  · rfl
  · split
    · rename_i e t hr
      rw [show registerFblockNamespace al (s.constructed name area ops) s.nextFblock = (.err e, t)
        from hr] at hreg
      exact hreg
    · rename_i t hr
      rw [show registerFblockNamespace al (s.constructed name area ops) s.nextFblock = (.ok, t)
        from hr] at hreg
      exact hreg

/-- What the construction of a block changes, whether or not it succeeds: the fresh object alone
is written, and a new entry of `fblmap` is a new object with free ports and one reference. -/
structure Created (s s' : State) (area : Priv) (ops : FbType) : Prop where
  tables : Tables s'.registry
  next : s.nextFblock ≤ s'.nextFblock
  keep : ∀ a, a ≠ s.nextFblock → s'.name a = s.name a ∧ s'.idp a = s.idp a ∧ s'.ops a = s.ops a ∧
    s'.privateData a = s.privateData a ∧ s'.refcnt a = s.refcnt a ∧
    s'.subscribers a = s.subscribers a
  fresh : s'.privateData s.nextFblock = s.privateData s.nextFblock ∨
    s'.privateData s.nextFblock = fun _ => area
  factory : s'.factory = s.factory
  online : s'.online = s.online
  vlinks : s'.vlinks = s.vlinks
  notifiers : s'.notifiers = s.notifiers
  nodes : s'.self = s.self ∧ s'.remote = s.remote ∧ s'.nextNode = s.nextNode
  released : s'.released = s.released
  old : ∀ i a, s.fblmap i = some a → s'.fblmap i = some a
  new : ∀ i a, s'.fblmap i = some a → s.fblmap i = some a ∨ a = s.nextFblock ∧ i = s.nextIdp ∧
    s.fblmap i = none ∧ s'.idpCounter = (s.idpCounter + 1) % 2 ^ 64 ∧
    s'.privateData a = (fun _ => area) ∧ s'.refcnt a = 1 ∧ s'.ops a = ops ∧ s'.subscribers a = []
  counter : s'.idpCounter = s.idpCounter ∨ s'.idpCounter = (s.idpCounter + 1) % 2 ^ 64

theorem nextIdp_toNat {s : State} (h : s.idpCounter + 1 < 2 ^ 32) :
    s.nextIdp.toNat = s.idpCounter + 1 := by
  unfold State.nextIdp
  rw [UInt32.toNat_ofNat', Nat.mod_mod_of_dvd _ (by norm_num), Nat.mod_eq_of_lt h]

section Creation

variable {s : State} {name : CStr} {area : Priv} {ops : FbType}

theorem constructed_keep (s : State) (name : CStr) (area : Priv) (ops : FbType) {a : Addr}
    (ha : a ≠ s.nextFblock) :
    let t := s.constructed name area ops
    t.name a = s.name a ∧ t.idp a = s.idp a ∧ t.ops a = s.ops a ∧
      t.privateData a = s.privateData a ∧ t.refcnt a = s.refcnt a ∧
      t.subscribers a = s.subscribers a := by
  refine ⟨?_, rfl, ?_, ?_, ?_, ?_⟩ <;> exact Function.update_of_ne ha ..

theorem constructed_new (s : State) (name : CStr) (area : Priv) (ops : FbType) :
    let t := s.constructed name area ops
    t.name s.nextFblock = strlcpy name fbnamsiz ∧ t.privateData s.nextFblock = (fun _ => area) ∧
      t.refcnt s.nextFblock = 1 ∧ t.ops s.nextFblock = ops ∧ t.subscribers s.nextFblock = [] := by
  refine ⟨?_, ?_, ?_, ?_, ?_⟩ <;> exact Function.update_self ..

theorem constructed_name_lt (s : State) (name : CStr) (area : Priv) (ops : FbType) :
    ((s.constructed name area ops).name s.nextFblock).strlen < fbnamsiz := by
  rw [(constructed_new s name area ops).1]
  exact strlcpy_strlen_lt name

/-- Names and entries of the old tables are still in order after writes to the fresh object. -/
theorem tables_of_fresh (hT : Tables s.registry) {r : Registry} (hidpmap : r.idpmap = s.idpmap)
    (hfblmap : r.fblmap = s.fblmap) (hnext : s.nextFblock ≤ r.nextFblock)
    (hshort : (r.name s.nextFblock).strlen < fbnamsiz)
    (hkeep : ∀ a, a ≠ s.nextFblock → r.name a = s.name a ∧ r.idp a = s.idp a) : Tables r := by
  have hne : ∀ {i a}, s.fblmap i = some a → a ≠ s.nextFblock := fun h e =>
    hT.not_has_next _ (e ▸ h)
  refine ⟨hidpmap ▸ hT.wf, fun a => ?_, fun n i h => ?_, fun i a h => ?_⟩
  · by_cases ha : a = s.nextFblock
    · rwa [ha]
    · rw [(hkeep a ha).1]
      exact hT.short a
  · unfold Registry.names at h
    rw [hidpmap] at h
    obtain ⟨a, ha, hn⟩ := hT.named n i h
    exact ⟨a, hfblmap ▸ ha, (hkeep a (hne ha)).1.trans hn⟩
  · rw [hfblmap] at h
    obtain ⟨hi, hlt⟩ := hT.stored i a h
    exact ⟨(hkeep a (hne h)).2.trans hi, lt_of_lt_of_le hlt hnext⟩

/-- Whatever became of the tables, the construction wrote the fresh object alone. -/
theorem created_of_constructed {k : ℕ} {j : Idp} {m : Idp → Option Addr} {t : CritbitTree IdpElem}
    {s' : State} (hs' : s' = { s.constructed name area ops with
      idpCounter := k, idp := Function.update s.idp s.nextFblock j, fblmap := m, idpmap := t })
    (hT' : Tables s'.registry)
    (hk : k = s.idpCounter ∨ k = (s.idpCounter + 1) % 2 ^ 64)
    (hm : m = s.fblmap ∨ s.fblmap s.nextIdp = none ∧ k = (s.idpCounter + 1) % 2 ^ 64 ∧
      m = Function.update s.fblmap s.nextIdp (some s.nextFblock)) :
    Created s s' area ops := by
  obtain ⟨-, hpriv, href, hops, hsub⟩ := constructed_new s name area ops
  subst hs'
  refine ⟨hT', Nat.le_succ _, fun a ha => ?_, .inr hpriv, rfl, rfl, rfl, rfl, ⟨rfl, rfl, rfl⟩, rfl,
    fun i a h => ?_, fun i a h => ?_, hk⟩
  · obtain ⟨h1, -, h3, h4, h5, h6⟩ := constructed_keep s name area ops ha
    exact ⟨h1, Function.update_of_ne ha .., h3, h4, h5, h6⟩
  · rcases hm with rfl | ⟨hnone, -, rfl⟩
    · exact h
    · show Function.update s.fblmap s.nextIdp (some s.nextFblock) i = some a
      rw [Function.update_of_ne, h]
      rintro rfl
      rw [hnone] at h
      cases h
  · rcases hm with rfl | ⟨hnone, hk', rfl⟩
    · exact .inl h
    · have h' : Function.update s.fblmap s.nextIdp (some s.nextFblock) i = some a := h
      rw [Function.update_apply] at h'
      split_ifs at h' with hi
      · obtain rfl := Option.some.inj h'
        exact .inr ⟨rfl, hi, hi ▸ hnone, hk', hpriv, href, hops, hsub⟩
      · exact .inl h'

theorem created_of_same (hT : Tables s.registry) : Created s s area ops where
  tables := hT
  next := le_rfl
  keep := fun _ _ => ⟨rfl, rfl, rfl, rfl, rfl, rfl⟩
  fresh := .inl rfl
  factory := rfl
  online := rfl
  vlinks := rfl
  notifiers := rfl
  nodes := ⟨rfl, rfl, rfl⟩
  released := rfl
  old := fun _ _ h => h
  new := fun _ _ h => .inl h
  counter := .inl rfl

theorem created_of_alloc (hT : Tables s.registry) : Created s (allocFblock s).2 area ops :=
  { created_of_same hT with
    tables := tables_of_fresh hT rfl rfl (Nat.le_succ _) (hT.short _) fun _ _ => ⟨rfl, rfl⟩
    next := Nat.le_succ _ }

/-- The tables with the new block in the radix tree only. -/
theorem tables_entered (hT : Tables s.registry) (hnone : s.fblmap s.nextIdp = none) :
    Tables ((s.constructed name area ops).entered s.nextFblock).registry := by
  have hfresh : Tables ((s.constructed name area ops).numbered s.nextFblock).registry :=
    tables_of_fresh hT rfl rfl (Nat.le_succ _) (constructed_name_lt s name area ops) fun a ha =>
      ⟨(constructed_keep s name area ops ha).1, Function.update_of_ne ha ..⟩
  refine ⟨hT.wf, hfresh.short, fun n i h => ?_, fun i a h => ?_⟩
  · obtain ⟨a, ha, hn⟩ := hfresh.named n i h
    refine ⟨a, ?_, hn⟩
    have ha' : s.fblmap i = some a := ha
    show Function.update s.fblmap s.nextIdp (some s.nextFblock) i = some a
    rw [Function.update_of_ne, ha']
    rintro rfl
    rw [hnone] at ha'
    cases ha'
  · have h' : Function.update s.fblmap s.nextIdp (some s.nextFblock) i = some a := h
    rw [Function.update_apply] at h'
    split_ifs at h' with hi
    · obtain rfl := Option.some.inj h'
      subst hi
      exact ⟨Function.update_self .., Nat.lt_succ_self _⟩
    · exact hfresh.stored i a h'

/-- The tables with the new block in both. -/
theorem tables_named (hT : Tables s.registry) (hnone : s.fblmap s.nextIdp = none)
    {t : CritbitTree IdpElem} (hw : Wf IdpElem.name t)
    (hnames : ∀ m, (critbitGet IdpElem.name t m).map IdpElem.idp =
      if m = strlcpy name fbnamsiz then some s.nextIdp else s.registry.names m) :
    Tables ({ (s.constructed name area ops).entered s.nextFblock with idpmap := t }).registry := by
  have hE : Tables ((s.constructed name area ops).entered s.nextFblock).registry :=
    tables_entered hT hnone
  refine ⟨hw, hE.short, fun n i h => ?_, hE.stored⟩
  have h' : (critbitGet IdpElem.name t n).map IdpElem.idp = some i := h
  rw [hnames] at h'
  split_ifs at h' with hn
  · obtain rfl := Option.some.inj h'
    exact ⟨s.nextFblock, Function.update_self .., hn ▸ (constructed_new s name area ops).1⟩
  · exact hE.named n i h'

/-- **Creation.** Every outcome of a constructor keeps the tables in step and the old blocks as
they are. -/
theorem fbCtor_created (hT : Tables s.registry) (proc : Bool) (al : Alloc) :
    Created s (fbCtor ops proc area al s name).2 area ops := by
  have hname := constructed_new s name area ops
  have hlen := constructed_name_lt s name area ops
  have hcases := registerFblockNamespace_cases al
    (show Wf IdpElem.name (s.constructed name area ops).idpmap from hT.wf) hlen
  rcases fbCtor_cases ops proc area al s name with
    ⟨t, heq, -, rfl | rfl | rfl⟩ | ⟨e, t, hreg, heq⟩ | ⟨t, hreg, heq⟩
  · rw [heq]
    exact created_of_same hT
  · rw [heq]
    exact created_of_alloc hT
  · rw [heq]
    have hs : s.constructed name area ops = { s.constructed name area ops with
        idpCounter := s.idpCounter
        idp := Function.update s.idp s.nextFblock (s.idp s.nextFblock)
        fblmap := s.fblmap
        idpmap := s.idpmap } := by
      rw [Function.update_eq_self]
      rfl
    refine created_of_constructed hs ?_ (.inl rfl) (.inl rfl)
    exact tables_of_fresh hT rfl rfl (Nat.le_succ _) hlen fun a ha =>
      ⟨(constructed_keep s name area ops ha).1, rfl⟩
  · rw [heq]
    rcases hcases with ⟨e', h, -⟩ | ⟨hnone, ⟨e', h, -⟩ | ⟨-, t', h, -⟩⟩ <;> rw [hreg] at h <;>
      obtain ⟨-, rfl⟩ := Prod.mk.inj h
    · refine created_of_constructed rfl ?_ (.inr rfl) (.inl rfl)
      exact tables_of_fresh hT rfl rfl (Nat.le_succ _) hlen fun a ha =>
        ⟨(constructed_keep s name area ops ha).1, Function.update_of_ne ha ..⟩
    · exact created_of_constructed rfl (tables_entered hT hnone) (.inr rfl)
        (.inr ⟨hnone, rfl, rfl⟩)
    · cases h
  · rw [heq]
    rcases hcases with ⟨e', h, -⟩ | ⟨hnone, ⟨e', h, -⟩ | ⟨-, t', h, hw, hnames⟩⟩ <;> rw [hreg] at h
    · cases h
    · cases h
    · obtain ⟨-, rfl⟩ := Prod.mk.inj h
      rw [hname.1] at hnames
      exact created_of_constructed rfl (tables_named hT hnone hw hnames) (.inr rfl)
        (.inr ⟨hnone, rfl, rfl⟩)

/-- The radix tree after a construction. -/
theorem Created.fblmap_cases {s' : State} (hC : Created s s' area ops) :
    s'.fblmap = s.fblmap ∨
      s'.fblmap = Function.update s.fblmap s.nextIdp (some s.nextFblock) ∧
        s.fblmap s.nextIdp = none ∧ s'.refcnt s.nextFblock = 1 ∧ s'.ops s.nextFblock = ops := by
  have hnone : ∀ i, s'.fblmap i = none → s.fblmap i = none := fun i hi => by
    rcases h : s.fblmap i with _ | a
    · rfl
    · rw [hC.old i a h] at hi
      cases hi
  by_cases hent : s'.fblmap s.nextIdp = s.fblmap s.nextIdp
  · refine .inl (funext fun i => ?_)
    rcases h : s'.fblmap i with _ | a
    · rw [hnone i h]
    · rcases hC.new i a h with h' | ⟨-, rfl, -⟩
      · rw [h']
      · rw [← h, hent]
  · rcases h : s'.fblmap s.nextIdp with _ | a
    · rw [h, hnone _ h] at hent
      exact absurd rfl hent
    · rcases hC.new _ a h with h' | ⟨rfl, -, hfree, -, -, href, hops, -⟩
      · rw [h, h'] at hent
        exact absurd rfl hent
      · refine .inr ⟨funext fun i => ?_, hfree, href, hops⟩
        rw [Function.update_apply]
        split_ifs with hi
        · rw [hi, h]
        · rcases h' : s'.fblmap i with _ | b
          · rw [hnone i h']
          · rcases hC.new i b h' with h'' | ⟨-, rfl, -⟩
            · rw [h'']
            · exact absurd rfl hi

/-- A new idp below the width of `idp_t` is free, and the numbering goes on. -/
theorem Created.numbered {s' : State} (hC : Created s s' area ops) (hN : Numbered s.registry)
    (hwrap : s.idpCounter + 1 < 2 ^ 32) : Numbered s'.registry := by
  have hmod : (s.idpCounter + 1) % 2 ^ 64 = s.idpCounter + 1 := Nat.mod_eq_of_lt (by omega)
  have hle : s.idpCounter ≤ s'.idpCounter := by
    rcases hC.counter with h | h <;> omega
  refine ⟨?_, fun i a h => ?_⟩
  · show s'.idpCounter < 2 ^ 32
    rcases hC.counter with h | h <;> omega
  · show 0 < i.toNat ∧ i.toNat ≤ s'.idpCounter
    rcases hC.new i a h with h | ⟨-, rfl, -, hc, -⟩
    · have := hN.entry i a h
      exact ⟨this.1, this.2.trans hle⟩
    · rw [nextIdp_toNat hwrap]
      omega

/-- The ports after a construction: those of the fresh object are new. -/
theorem Created.copies {s' : State} (hC : Created s s' area ops) {P : Addr → Ports}
    (hP : Copies s P) : ∃ Q, Copies s' (Function.update P s.nextFblock Q) ∧
      ∀ i, s'.fblmap i = some s.nextFblock → s.fblmap i ≠ some s.nextFblock → Q = area.ports := by
  have hold : ∀ a, a ≠ s.nextFblock → ∀ c ∈ s'.online.cpus, (s'.privateData a c).ports = P a := by
    intro a ha c hc
    rw [(hC.keep a ha).2.2.2.1]
    exact hP a c (hC.online ▸ hc)
  by_cases hnew : s'.privateData s.nextFblock = fun _ => area
  · refine ⟨area.ports, fun a c hc => ?_, fun _ _ _ => rfl⟩
    by_cases ha : a = s.nextFblock
    · rw [ha, hnew, Function.update_self]
    · rw [Function.update_of_ne ha]
      exact hold a ha c hc
  · refine ⟨P s.nextFblock, fun a c hc => ?_, fun i hi hi' => ?_⟩
    · rw [Function.update_eq_self]
      by_cases ha : a = s.nextFblock
      · rw [ha, hC.fresh.resolve_right hnew]
        exact hP _ c (hC.online ▸ hc)
      · exact hold a ha c hc
    · rcases hC.new i _ hi with h | ⟨-, -, -, -, h, -⟩
      · exact absurd h hi'
      · exact absurd h hnew

/-- A constructor that returns a block has entered it in both tables. -/
theorem fbCtor_some (hT : Tables s.registry) {proc : Bool} {al : Alloc} {fb : Addr} {s' : State}
    (h : fbCtor ops proc area al s name = (some fb, s')) :
    fb = s.nextFblock ∧ s.fblmap s.nextIdp = none ∧
      s'.fblmap = Function.update s.fblmap s.nextIdp (some fb) ∧
      s'.name fb = strlcpy name fbnamsiz ∧ s.registry.names (strlcpy name fbnamsiz) = none ∧
      ∀ m, s'.registry.names m =
        if m = strlcpy name fbnamsiz then some s.nextIdp else s.registry.names m := by
  have hname := (constructed_new s name area ops).1
  rcases fbCtor_cases ops proc area al s name with
    ⟨t, heq, -⟩ | ⟨e, t, -, heq⟩ | ⟨t, hreg, heq⟩ <;> rw [heq] at h
  · cases h
  · cases h
  · obtain ⟨hfb, rfl⟩ := Prod.mk.inj h
    obtain rfl := Option.some.inj hfb
    rcases registerFblockNamespace_cases al
      (show Wf IdpElem.name (s.constructed name area ops).idpmap from hT.wf)
      (constructed_name_lt s name area ops) with
      ⟨e', h, -⟩ | ⟨hnone, ⟨e', h, -⟩ | ⟨hfree, t', h, -, hnames⟩⟩ <;> rw [hreg] at h
    · cases h
    · cases h
    · obtain ⟨-, rfl⟩ := Prod.mk.inj h
      rw [hname] at hfree hnames
      exact ⟨rfl, hnone, rfl, hname, hfree, hnames⟩

/-- With memory for everything and a free name, a constructor that fails has found its idp taken and
has left both tables alone. -/
theorem fbCtor_none (hT : Tables s.registry) {proc : Bool} {s' : State}
    (h : fbCtor ops proc area .ok s name = (none, s'))
    (hfree : s.registry.names (strlcpy name fbnamsiz) = none) :
    s.fblmap s.nextIdp ≠ none ∧ s'.fblmap = s.fblmap ∧ s'.idpmap = s.idpmap := by
  have hname := (constructed_new s name area ops).1
  rcases fbCtor_cases ops proc area .ok s name with
    ⟨t, -, hok, -⟩ | ⟨e, t, hreg, heq⟩ | ⟨t, -, heq⟩
  · exact absurd rfl hok
  · rw [heq] at h
    obtain ⟨-, rfl⟩ := Prod.mk.inj h
    rcases registerFblockNamespace_cases .ok
      (show Wf IdpElem.name (s.constructed name area ops).idpmap from hT.wf)
      (constructed_name_lt s name area ops) with
      ⟨e', h, hwhy⟩ | ⟨-, ⟨e', -, hwhy⟩ | ⟨-, t', h, -⟩⟩
    · rw [hreg] at h
      obtain ⟨-, rfl⟩ := Prod.mk.inj h
      rcases hwhy with hwhy | hwhy
      · cases hwhy
      · exact ⟨hwhy, rfl, rfl⟩
    · rw [hname] at hwhy
      rcases hwhy with hwhy | hwhy | hwhy
      · cases hwhy
      · cases hwhy
      · exact absurd hfree hwhy
    · rw [hreg] at h
      cases h
  · rw [heq] at h
    cases h

end Creation

/-! ## When a block can be built -/

/-- A block can be built: there is memory for it, and its name and its idp are free. -/
def Constructible (al : Alloc) (s : State) (name : CStr) : Prop :=
  al.fblock = true ∧ al.percpu = true ∧ al.others = true ∧ al.radix = true ∧ al.elem = true ∧
    (al.node = true ∨ s.idpmap = none) ∧ s.fblmap s.nextIdp = none ∧
    critbitGet IdpElem.name s.idpmap (strlcpy name fbnamsiz) = none

instance (al : Alloc) (s : State) (name : CStr) : Decidable (Constructible al s name) :=
  inferInstanceAs (Decidable (al.fblock = true ∧ al.percpu = true ∧ al.others = true ∧
    al.radix = true ∧ al.elem = true ∧ (al.node = true ∨ s.idpmap = none) ∧
    s.fblmap s.nextIdp = none ∧ critbitGet IdpElem.name s.idpmap (strlcpy name fbnamsiz) = none))

theorem registerToFblockNamespace_ok_iff (al : Alloc) (s : State) {name : CStr}
    (hn : name.strlen < fbnamsiz) (i : Idp) :
    (registerToFblockNamespace al s name i).1 = .ok ↔ al.elem = true ∧
      (al.node = true ∨ s.idpmap = none) ∧ critbitGet IdpElem.name s.idpmap name = none := by
  unfold registerToFblockNamespace
  rw [critbitContains_eq, strlcpy_of_lt hn]
  split_ifs with hstored helem
  · rw [Option.isSome_iff_ne_none] at hstored
    exact ⟨nofun, fun h => absurd h.2.2 hstored⟩
  · exact ⟨nofun, fun h => by simp [h.1] at helem⟩
  · have hfree : critbitGet IdpElem.name s.idpmap name = none := by simpa using hstored
    rw [critbitInsert_ok_iff al.node s.idpmap ⟨name, i⟩ hfree]
    simp only [Bool.not_eq_true', Bool.not_eq_false] at helem
    exact ⟨fun h => ⟨helem, h, hfree⟩, fun h => h.2.1⟩

theorem registerFblockNamespace_ok_iff (al : Alloc) (s : State) (p : Addr)
    (hn : (s.name p).strlen < fbnamsiz) :
    (registerFblockNamespace al s p).1 = .ok ↔ al.radix = true ∧ s.fblmap s.nextIdp = none ∧
      al.elem = true ∧ (al.node = true ∨ s.idpmap = none) ∧
      critbitGet IdpElem.name s.idpmap (s.name p) = none := by
  obtain ⟨e, hr, hwhy⟩ | ⟨hmap, hr⟩ := radixTreeInsert_cases al.radix (s.numbered p) s.nextIdp p
  · rw [registerFblockNamespace_err hr]
    refine ⟨nofun, fun h => ?_⟩
    rcases hwhy with hradix | hmap
    · rw [h.1] at hradix
      cases hradix
    · exact absurd h.2.1 hmap
  · have hradix : al.radix = true := by
      unfold radixTreeInsert at hr
      rw [if_neg (not_not.2 hmap)] at hr
      split_ifs at hr with h
      · exact h
      · cases hr
    rw [registerFblockNamespace_ok hr]
    refine (registerToFblockNamespace_ok_iff al (s.entered p) hn _).trans ?_
    exact ⟨fun h => ⟨hradix, hmap, h⟩, fun h => h.2.2⟩

theorem fbCtor_isSome_iff (ops : FbType) (area : Priv) (al : Alloc) (s : State) (name : CStr) :
    (fbCtor ops false area al s name).1.isSome = true ↔ Constructible al s name := by
  have hreg := registerFblockNamespace_ok_iff al (s.constructed name area ops) s.nextFblock
    (constructed_name_lt s name area ops)
  rw [(constructed_new s name area ops).1] at hreg
  unfold fbCtor Constructible
  dsimp only
  split_ifs with hfblock hothers hproc
  · exact ⟨nofun, fun h => by simp [h.1] at hfblock⟩
  · exact ⟨nofun, fun h => by simp [h.2.1, h.2.2.1] at hothers⟩
  · cases hproc
  · simp only [Bool.not_eq_true', Bool.not_eq_false, Bool.or_eq_true, not_or] at hfblock hothers
    obtain ⟨hpercpu, hothers⟩ := hothers
    split
    · rename_i e t hr
      refine ⟨nofun, fun ⟨_, _, _, hradix, helem, hnode, hidp, hname⟩ => ?_⟩
      have hok := hreg.2 ⟨hradix, hidp, helem, hnode, hname⟩
      have herr : (registerFblockNamespace al (s.constructed name area ops) s.nextFblock).1 =
          .err e := congrArg Prod.fst hr
      rw [hok] at herr
      cases herr
    · rename_i t hr
      have hok : (registerFblockNamespace al (s.constructed name area ops) s.nextFblock).1 = .ok :=
        congrArg Prod.fst hr
      obtain ⟨hradix, hidp, helem, hnode, hname⟩ := hreg.1 hok
      exact ⟨fun _ => ⟨hfblock, hpercpu, hothers, hradix, helem, hnode, hidp, hname⟩, fun _ => rfl⟩

/-- The block of a device can be built, and the device takes the handler. -/
theorem fbEthBuildFblock_isSome_iff (al : Alloc) (s : State) (name : CStr) (d : ℕ) :
    (fbEthBuildFblock al s name d).1.isSome = true ↔
      Constructible al s name ∧ al.rxHandler = true := by
  have hctor := fbCtor_isSome_iff .eth (Priv.init d 0) al s name
  unfold fbEthBuildFblock
  rcases hr : fbCtor .eth false (Priv.init d 0) al s name with ⟨_ | fb, t⟩ <;> rw [hr] at hctor
  · exact ⟨nofun, fun h => absurd (hctor.2 h.1) nofun⟩
  · rw [and_iff_right (hctor.1 rfl)]
    cases al.rxHandler <;> simp

end Lana
