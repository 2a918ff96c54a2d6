import Lana.Library.Transition
import Lana.User.Effects

/-!
# Registration

`register_fblock_namespace` enters a block in two tables, in `fblmap` under a new idp and then in
`idpmap` under its name.  A registration that fails at the name leaves the entry in `fblmap`
(`failed_registration`); one that succeeds gives the block an idp that no other registered block
has, but 0 when the counter has gone round (`idps_usable_iff`).
-/

namespace Lana

open State

/-- The radix tree takes the entry of the next registration. -/
def Enters (al : Alloc) (s : State) : Prop := al.radix = true ∧ s.fblmap s.nextIdp = none

instance (al : Alloc) (s : State) : Decidable (Enters al s) :=
  inferInstanceAs (Decidable (_ ∧ _))

/-- The crit-bit tree takes the name. -/
def TakesName (al : Alloc) (s : State) (name : CStr) : Prop :=
  al.elem = true ∧ (al.node = true ∨ s.idpmap = none) ∧
    critbitGet IdpElem.name s.idpmap name = none

instance (al : Alloc) (s : State) (name : CStr) : Decidable (TakesName al s name) :=
  inferInstanceAs (Decidable (al.elem = true ∧ (al.node = true ∨ s.idpmap = none) ∧
    critbitGet IdpElem.name s.idpmap name = none))

section Registration

variable {al : Alloc} {s : State} {p : Addr} {e : Errno}

theorem registerFblockNamespace_not_enters (h : ¬ Enters al s) (p : Addr) :
    ∃ e, registerFblockNamespace al s p = (.err e, s.numbered p) := by
  obtain ⟨e, hr, -⟩ | ⟨hmap, hr⟩ := radixTreeInsert_cases al.radix (s.numbered p) s.nextIdp p
  · exact ⟨e, registerFblockNamespace_err hr⟩
  · refine absurd ⟨?_, hmap⟩ h
    unfold radixTreeInsert at hr
    rw [if_neg (not_not.2 hmap)] at hr
    split_ifs at hr with hradix
    · exact hradix
    · cases hr

theorem registerFblockNamespace_enters (h : Enters al s) (p : Addr) :
    registerFblockNamespace al s p =
      registerToFblockNamespace al (s.entered p) (s.name p) s.nextIdp := by
  have hr : radixTreeInsert al.radix (s.numbered p) s.nextIdp p = (.ok, s.entered p) := by
    unfold radixTreeInsert
    rw [if_neg (not_not.2 (show (s.numbered p).fblmap s.nextIdp = none from h.2)), h.1, if_pos rfl]
    rfl
  rw [registerFblockNamespace_ok hr]
  congr 1
  exact Function.update_self ..

theorem registerToFblockNamespace_of_err {n : CStr} {i : Idp}
    (h : (registerToFblockNamespace al s n i).1 = .err e) :
    (registerToFblockNamespace al s n i).2 = s := by
  unfold registerToFblockNamespace at h ⊢
  split_ifs at h ⊢
  · rfl
  · rfl
  · dsimp only at h ⊢
    rw [critbitInsert_of_err h]

/-- A registration that fails after the radix tree has taken the entry leaves it there. -/
theorem registerFblockNamespace_of_err (h : (registerFblockNamespace al s p).1 = .err e) :
    (registerFblockNamespace al s p).2 = if Enters al s then s.entered p else s.numbered p := by
  split_ifs with hent
  · rw [registerFblockNamespace_enters hent] at h ⊢
    exact registerToFblockNamespace_of_err h
  · obtain ⟨e', he⟩ := registerFblockNamespace_not_enters hent p
    rw [he]

theorem registerFblockNamespace_of_ok (h : (registerFblockNamespace al s p).1 = .ok) :
    Enters al s ∧ ∃ t, (registerFblockNamespace al s p).2 = { s.entered p with idpmap := t } := by
  have hent : Enters al s := by
    by_contra hent
    obtain ⟨e, he⟩ := registerFblockNamespace_not_enters hent p
    rw [he] at h
    cases h
  rw [registerFblockNamespace_enters hent]
  exact ⟨hent, registerToFblockNamespace_frame al _ _ _⟩

/-- The other blocks keep their idps, whatever the outcome. -/
theorem idp_register (al : Alloc) (s : State) {p q : Addr} (h : q ≠ p) :
    (registerFblockNamespace al s p).2.idp q = s.idp q := by
  obtain ⟨t, heq | ⟨-, heq⟩⟩ := registerFblockNamespace_frame al s p
  · rw [heq]
    exact Function.update_of_ne h ..
  · rw [heq]
    exact Function.update_of_ne h ..

/-- An entry of the radix tree is not overwritten. -/
theorem fblmap_register (al : Alloc) (p : Addr) {i : Idp} {q : Addr} (h : s.fblmap i = some q) :
    (registerFblockNamespace al s p).2.fblmap i = some q := by
  obtain ⟨t, heq | ⟨hnone, heq⟩⟩ := registerFblockNamespace_frame al s p
  · rw [heq]
    exact h
  · have hi : i ≠ s.nextIdp := by
      rintro rfl
      cases h.symm.trans hnone
    rw [heq]
    exact (Function.update_of_ne hi ..).trans h

theorem registry_unregister (s : State) (p : Addr) :
    (unregisterFblockNamespace s p).registry = (unregisterFblockNamespaceNoRcu s p).registry :=
  registry_putFblock ..

/-- The entry of `p` was not there before. -/
theorem fblmap_entered_ne (h : s.fblmap s.nextIdp = none) :
    (s.entered p).fblmap s.nextIdp ≠ s.fblmap s.nextIdp := by
  rw [h]
  show Function.update s.fblmap s.nextIdp (some p) s.nextIdp ≠ none
  rw [Function.update_self]
  exact Option.some_ne_none p

end Registration

/-! ## Constructors -/

/-- The blocks of the factory have an entry in procfs. -/
def Factory.proc : Factory → Bool
  | .counter | .bpf => true
  | .dummy | .tee => false

theorem Factory.ctor_eq (f : Factory) : f.ctor = fbCtor f.ops f.proc (Priv.init 0 0) := by
  cases f <;> rfl

/-- The constructors of blocks. -/
inductive Maker where
  | factory (f : Factory)
  | eth (dev : ℕ)
  | ethvlink (vdev : ℕ)
  | pflana (sock : ℕ)

namespace Maker

/-- `factory->ctor`, `fb_eth_build_fblock`, `fb_ethvlink_build_fblock`, `fb_pflana_build_fblock`. -/
def build (al : Alloc) (s : State) (name : CStr) : Maker → Option Addr × State
  | .factory f => f.ctor al s name
  | .eth d => fbEthBuildFblock al s name d
  | .ethvlink vdev => fbEthvlinkBuildFblock al s name vdev
  | .pflana sock => fbPflanaBuildFblock al s name sock

/-- The block has an entry in procfs. -/
def proc : Maker → Bool
  | .factory f => f.proc
  | _ => false

/-- The type of the blocks. -/
def ops : Maker → FbType
  | .factory f => f.ops
  | .eth _ => .eth
  | .ethvlink _ => .ethvlink
  | .pflana _ => .pflana

/-- The area of a new block. -/
def area : Maker → Priv
  | .factory _ => Priv.init 0 0
  | .eth d | .ethvlink d => Priv.init d 0
  | .pflana sock => Priv.init 0 sock

/-- All constructors are the same up to the registration; that of a device goes on. -/
theorem build_eq (al : Alloc) (s : State) (name : CStr) (m : Maker) :
    m.build al s name = fbCtor m.ops m.proc m.area al s name ∨
      ∃ fb t, fbCtor m.ops m.proc m.area al s name = (some fb, t) ∧
        m.build al s name = (none, unregisterFblockNamespaceNoRcu t fb) := by
  cases m with
  | factory f => cases f <;> exact .inl rfl
  | eth d =>
    show fbEthBuildFblock al s name d = fbCtor .eth false (Priv.init d 0) al s name ∨ _
    unfold fbEthBuildFblock
    rcases hr : fbCtor .eth false (Priv.init d 0) al s name with ⟨_ | fb, t⟩
    · exact .inl rfl
    · cases hrx : al.rxHandler
      · refine .inr ⟨fb, t, hr, ?_⟩
        simp only [build, fbEthBuildFblock, hr, hrx]
        rfl
      · exact .inl rfl
  | ethvlink vdev => exact .inl rfl
  | pflana sock => exact .inl rfl

/-- The constructor gets as far as the registration. -/
def Registers (al : Alloc) (m : Maker) : Prop :=
  al.fblock = true ∧ al.percpu = true ∧ al.others = true ∧ (m.proc = true → al.proc = true)

instance (al : Alloc) (m : Maker) : Decidable (m.Registers al) :=
  inferInstanceAs (Decidable (al.fblock = true ∧ al.percpu = true ∧ al.others = true ∧
    (m.proc = true → al.proc = true)))

end Maker

section Constructors

variable {ops : FbType} {proc : Bool} {area : Priv} {al : Alloc} {s : State} {name : CStr}

theorem fbCtor_of_not_registers
    (h : ¬ (al.fblock = true ∧ al.percpu = true ∧ al.others = true ∧ (proc = true → al.proc = true))) :
    (fbCtor ops proc area al s name).1 = none ∧
      (fbCtor ops proc area al s name).2.fblmap = s.fblmap := by
  unfold fbCtor
  dsimp only
  split_ifs with h1 h2 h3
  · exact ⟨rfl, rfl⟩
  · exact ⟨rfl, rfl⟩
  · exact ⟨rfl, rfl⟩
  · refine absurd ?_ h
    simp only [Bool.not_eq_true', Bool.not_eq_false, Bool.or_eq_true, Bool.and_eq_true, not_or,
      not_and] at h1 h2 h3
    exact ⟨h1, h2.1, h2.2, h3⟩

theorem fbCtor_of_registers
    (h : al.fblock = true ∧ al.percpu = true ∧ al.others = true ∧ (proc = true → al.proc = true)) :
    ((fbCtor ops proc area al s name).1 = none ↔
        ∃ e, (registerFblockNamespace al (s.constructed name area ops) s.nextFblock).1 = .err e) ∧
      (fbCtor ops proc area al s name).2 =
        (registerFblockNamespace al (s.constructed name area ops) s.nextFblock).2 := by
  obtain ⟨hfblock, hpercpu, hothers, hproc⟩ := h
  have hp : ¬ (proc && !al.proc) = true := by
    cases proc
    · simp
    · simp [hproc rfl]
  unfold fbCtor
  dsimp only
  rw [if_neg (by simp [hfblock]), if_neg (by simp [hpercpu, hothers]), if_neg hp]
  split
  · rename_i e t hr
    rw [show registerFblockNamespace al (s.constructed name area ops) s.nextFblock = (.err e, t)
      from hr]
    exact ⟨⟨fun _ => ⟨e, rfl⟩, fun _ => rfl⟩, rfl⟩
  · rename_i t hr
    rw [show registerFblockNamespace al (s.constructed name area ops) s.nextFblock = (.ok, t)
      from hr]
    exact ⟨⟨nofun, nofun⟩, rfl⟩

theorem fbCtor_none_strands (hfresh : ∀ i, s.fblmap i ≠ some s.nextFblock)
    (h : (fbCtor ops proc area al s name).1 = none) :
    (∃ i, (fbCtor ops proc area al s name).2.fblmap i = some s.nextFblock) ↔
      (al.fblock = true ∧ al.percpu = true ∧ al.others = true ∧ (proc = true → al.proc = true)) ∧
        Enters al s ∧ ¬ TakesName al s (strlcpy name fbnamsiz) := by
  by_cases hreg : al.fblock = true ∧ al.percpu = true ∧ al.others = true ∧
      (proc = true → al.proc = true)
  · obtain ⟨hnone, hstate⟩ := @fbCtor_of_registers ops proc area al s name hreg
    obtain ⟨e, he⟩ := hnone.1 h
    have hok := registerFblockNamespace_ok_iff al (s.constructed name area ops) s.nextFblock
      (constructed_name_lt s name area ops)
    rw [he, (constructed_new s name area ops).1] at hok
    rw [hstate, registerFblockNamespace_of_err he]
    by_cases hent : Enters al s
    · rw [if_pos (show Enters al (s.constructed name area ops) from hent)]
      have htakes : ¬ TakesName al s (strlcpy name fbnamsiz) := fun ht =>
        absurd (hok.2 ⟨hent.1, hent.2, ht⟩) nofun
      exact ⟨fun _ => ⟨hreg, hent, htakes⟩, fun _ => ⟨s.nextIdp, Function.update_self ..⟩⟩
    · rw [if_neg (show ¬ Enters al (s.constructed name area ops) from hent)]
      exact ⟨fun ⟨i, hi⟩ => absurd hi (hfresh i), fun h => absurd h.2.1 hent⟩
  · rw [(fbCtor_of_not_registers hreg).2]
    exact ⟨fun ⟨i, hi⟩ => absurd hi (hfresh i), fun h => absurd h.1 hreg⟩

/-- A block that was built is entered under its own idp, and under its name. -/
theorem fbCtor_some_entered {fb : Addr} {t : State}
    (h : fbCtor ops proc area al s name = (some fb, t)) :
    fb = s.nextFblock ∧ TakesName al s (strlcpy name fbnamsiz) ∧ t.idp fb = s.nextIdp ∧
      t.fblmap = Function.update s.fblmap s.nextIdp (some s.nextFblock) := by
  obtain ⟨u, heq, -⟩ | ⟨e, u, -, heq⟩ | ⟨u, hreg, heq⟩ := fbCtor_cases ops proc area al s name
  · cases heq.symm.trans h
  · cases heq.symm.trans h
  · cases heq.symm.trans h
    have hok : (registerFblockNamespace al (s.constructed name area ops) s.nextFblock).1 = .ok :=
      congrArg Prod.fst hreg
    obtain ⟨-, v, hv⟩ := registerFblockNamespace_of_ok hok
    have htakes := (registerFblockNamespace_ok_iff al _ _ (constructed_name_lt s name area ops)).1 hok
    rw [(constructed_new s name area ops).1] at htakes
    rw [hreg] at hv
    subst hv
    exact ⟨rfl, htakes.2.2, Function.update_self .., rfl⟩

end Constructors

/-- The constructor leaves its block in `fblmap` and frees it. -/
def Maker.Strands (al : Alloc) (s : State) (name : CStr) (m : Maker) : Prop :=
  m.Registers al ∧ Enters al s ∧ ¬ TakesName al s (strlcpy name fbnamsiz)

instance (al : Alloc) (s : State) (name : CStr) (m : Maker) : Decidable (m.Strands al s name) :=
  inferInstanceAs (Decidable (m.Registers al ∧ Enters al s ∧
    ¬ TakesName al s (strlcpy name fbnamsiz)))

theorem Maker.build_none_strands {al : Alloc} {s : State} {name : CStr} {m : Maker}
    (hfresh : ∀ i, s.fblmap i ≠ some s.nextFblock) (h : (m.build al s name).1 = none) :
    (∃ i, (m.build al s name).2.fblmap i = some s.nextFblock) ↔ m.Strands al s name := by
  obtain heq | ⟨fb, t, hctor, heq⟩ := m.build_eq al s name
  · rw [heq] at h ⊢
    exact fbCtor_none_strands hfresh h
  · -- the block of a device was entered in both tables and is taken out of both
    obtain ⟨rfl, htakes, hidp, hmap⟩ := fbCtor_some_entered hctor
    rw [heq]
    refine ⟨fun ⟨i, hi⟩ => ?_, fun hs => absurd htakes hs.2.2⟩
    dsimp only at hi
    rw [fblmap_unregisterNoRcu, hidp, hmap, Function.update_idem, Function.update_apply] at hi
    split_ifs at hi
    exact absurd hi (hfresh i)

/-- Every idp and every name is mapped as before. -/
def SameTables (s t : State) : Prop :=
  (∀ i, t.fblmap i = s.fblmap i) ∧ ∀ n, t.registry.names n = s.registry.names n

/-- **Failed registrations.** For every state: a registration that returns an error leaves the
tables as they were exactly if the radix tree had not taken the entry; and a constructor that
returns no block leaves no entry to the object it frees exactly if the registration did not fail
between the two tables. -/
theorem failed_registration (al : Alloc) (s : State) :
    (∀ p e, (registerFblockNamespace al s p).1 = .err e →
      (SameTables s (registerFblockNamespace al s p).2 ↔ ¬ Enters al s)) ∧
    ∀ (m : Maker) (name : CStr), (∀ i, s.fblmap i ≠ some s.nextFblock) →
      (m.build al s name).1 = none →
      ((∀ i, (m.build al s name).2.fblmap i ≠ some s.nextFblock) ↔ ¬ m.Strands al s name) := by
  refine ⟨fun p e herr => ?_, fun m name hfresh hnone => ?_⟩
  · rw [registerFblockNamespace_of_err herr]
    split_ifs with hent
    · refine ⟨fun h => absurd (h.1 s.nextIdp) (fblmap_entered_ne hent.2), fun h => absurd hent h⟩
    · exact ⟨fun _ => hent, fun _ => ⟨fun _ => rfl, fun _ => rfl⟩⟩
  · rw [← Maker.build_none_strands hfresh hnone, not_exists]

/-- Two blocks that are bound. -/
def boundPair : State :=
  run (State.init oneCpu) [.add nameA Factory.dummy.type .ok, .add nameB Factory.counter.type .ok,
    .bind nameA nameB .ok]

/-- Without memory for the radix tree a third block is entered nowhere, and its constructor frees the
object with nothing left behind. -/
theorem failed_registration_radix :
    boundPair.fblmap 2 = some 1 ∧
      SameTables boundPair (registerFblockNamespace { radix := false } boundPair 2).2 ∧
      ∀ i, ((Maker.factory .tee).build { radix := false } boundPair nameC).2.fblmap i ≠
        some boundPair.nextFblock := by
  obtain ⟨hreg, hbuild⟩ := failed_registration { radix := false } boundPair
  have hmap : boundPair.fblmap =
      Function.update (Function.update (fun _ => none) 1 (some 0)) 2 (some 1) := rfl
  refine ⟨rfl, (hreg 2 .ENOMEM (by decide)).2 (by decide), ?_⟩
  refine (hbuild (.factory .tee) nameC (fun i => ?_) (by decide)).2 (by decide)
  rw [hmap, Function.update_apply, Function.update_apply, show boundPair.nextFblock = 2 from rfl]
  split_ifs <;> decide

/-- A device is named like a block: its own block is freed and stays in `fblmap`. -/
theorem registration_left :
    let s := run (State.init oneCpu) [.add nameA Factory.dummy.type .ok]
    let r := (Maker.eth 7).build .ok s nameA
    r.1 = none ∧ s.fblmap 2 = none ∧ r.2.fblmap 2 = some s.nextFblock := by
  decide

/-! ## Identifiers over runs -/

/-- A call of `register_fblock_namespace` on a block that `init_fblock` has set up, or of
`unregister_fblock_namespace`. -/
inductive RegCall where
  | register (p : Addr) (name : CStr) (area : Priv) (ops : FbType) (al : Alloc)
  | unregister (p : Addr)

/-- The state and the blocks that are registered in it. -/
structure Registered where
  state : State
  blocks : List Addr

/-- No block is registered. -/
def Registered.init (online : OnlineCpus) : Registered := ⟨State.init online, []⟩

/-- A block is registered while it is not, and unregistered while it is. -/
def RegCall.step (w : Registered) : RegCall → Registered
  | .register p name area ops al =>
    if p ∈ w.blocks then w
    else
      let r := registerFblockNamespace al (initFblock w.state p name area ops) p
      ⟨r.2, if r.1 = .ok then p :: w.blocks else w.blocks⟩
  | .unregister p =>
    if p ∈ w.blocks then ⟨unregisterFblockNamespace w.state p, w.blocks.erase p⟩ else w

/-- No registration goes through with the idp 0. -/
def RegCall.NotZero (w : Registered) : RegCall → Prop
  | .register p name _ _ al => p ∉ w.blocks → Enters al w.state →
      TakesName al w.state (strlcpy name fbnamsiz) → w.state.nextIdp ≠ idpUnknown
  | .unregister _ => True

/-- Every registered block has an idp that is not 0 and no other registered block has, and is found
by it. -/
def Usable (w : Registered) : Prop :=
  ∀ p ∈ w.blocks, w.state.idp p ≠ idpUnknown ∧
    (∀ q ∈ w.blocks, q ≠ p → w.state.idp q ≠ w.state.idp p) ∧
    (searchFblock w.state (w.state.idp p)).1 = some p

/-- The registered blocks are in `fblmap` under their idps. -/
structure Booked (w : Registered) : Prop where
  nodup : w.blocks.Nodup
  entry : ∀ p ∈ w.blocks, w.state.fblmap (w.state.idp p) = some p

namespace Booked

variable {w : Registered}

theorem idp_ne (h : Booked w) {p q : Addr} (hp : p ∈ w.blocks) (hq : q ∈ w.blocks) (hne : q ≠ p) :
    w.state.idp q ≠ w.state.idp p := by
  intro heq
  have := (h.entry q hq).symm.trans (heq ▸ h.entry p hp)
  exact hne (Option.some.inj this)

theorem usable_iff (h : Booked w) : Usable w ↔ ∀ p ∈ w.blocks, w.state.idp p ≠ idpUnknown := by
  refine ⟨fun hu p hp => (hu p hp).1, fun hne p hp => ⟨hne p hp, fun q hq => h.idp_ne hp hq, ?_⟩⟩
  unfold searchFblock searchFblockRaw
  rw [if_neg (hne p hp), h.entry p hp]

theorem register (h : Booked w) {p : Addr} (hp : p ∉ w.blocks) (name : CStr) (area : Priv)
    (ops : FbType) (al : Alloc) : Booked ((RegCall.register p name area ops al).step w) := by
  simp only [RegCall.step]
  rw [if_neg hp]
  set s := initFblock w.state p name area ops
  have hold : ∀ q ∈ w.blocks, (registerFblockNamespace al s p).2.fblmap
      ((registerFblockNamespace al s p).2.idp q) = some q := by
    intro q hq
    rw [idp_register al s (ne_of_mem_of_not_mem hq hp)]
    exact fblmap_register al p (h.entry q hq)
  split_ifs with hok
  · obtain ⟨-, t, ht⟩ := registerFblockNamespace_of_ok hok
    refine ⟨List.nodup_cons.2 ⟨hp, h.nodup⟩, fun q hq => ?_⟩
    obtain rfl | hq := List.mem_cons.1 hq
    · dsimp only
      rw [ht]
      show Function.update w.state.fblmap w.state.nextIdp (some q)
        (Function.update w.state.idp q w.state.nextIdp q) = some q
      rw [Function.update_self, Function.update_self]
    · exact hold q hq
  · exact ⟨h.nodup, hold⟩

theorem unregister (h : Booked w) {p : Addr} (hp : p ∈ w.blocks) :
    Booked ⟨unregisterFblockNamespace w.state p, w.blocks.erase p⟩ := by
  refine ⟨h.nodup.erase p, fun q hq => ?_⟩
  obtain ⟨hqp, hq⟩ := (h.nodup.mem_erase_iff).1 hq
  show (unregisterFblockNamespace w.state p).registry.fblmap
    ((unregisterFblockNamespace w.state p).registry.idp q) = some q
  rw [registry_unregister]
  show (unregisterFblockNamespaceNoRcu w.state p).fblmap
    ((unregisterFblockNamespaceNoRcu w.state p).idp q) = some q
  rw [idp_unregisterNoRcu, fblmap_unregisterNoRcu, Function.update_of_ne (h.idp_ne hp hq hqp),
    h.entry q hq]

theorem step (h : Booked w) (c : RegCall) : Booked (c.step w) := by
  cases c with
  | register p name area ops al =>
    by_cases hp : p ∈ w.blocks
    · simp only [RegCall.step]
      rwa [if_pos hp]
    · exact h.register hp name area ops al
  | unregister p =>
    simp only [RegCall.step]
    split_ifs with hp
    · exact h.unregister hp
    · exact h

/-- A call keeps the identifiers usable exactly if it registers no block under the idp 0. -/
theorem usable_step (h : Booked w) (hu : Usable w) (c : RegCall) :
    Usable (c.step w) ↔ c.NotZero w := by
  rw [(h.step c).usable_iff]
  have hold := h.usable_iff.1 hu
  cases c with
  | register p name area ops al =>
    by_cases hp : p ∈ w.blocks
    · simp only [RegCall.step, if_pos hp]
      exact ⟨fun _ hp' => absurd hp hp', fun _ => hold⟩
    simp only [RegCall.step, RegCall.NotZero, if_neg hp]
    set s := initFblock w.state p name area ops with hs
    have hname : s.name p = strlcpy name fbnamsiz := Function.update_self ..
    have hok := registerFblockNamespace_ok_iff al s p (by rw [hname]; exact strlcpy_strlen_lt name)
    rw [hname] at hok
    have hkeep : ∀ q ∈ w.blocks, (registerFblockNamespace al s p).2.idp q = w.state.idp q :=
      fun q hq => idp_register al s (ne_of_mem_of_not_mem hq hp)
    by_cases hgo : (registerFblockNamespace al s p).1 = .ok
    · obtain ⟨hent, t, ht⟩ := registerFblockNamespace_of_ok hgo
      have hidp : (registerFblockNamespace al s p).2.idp p = w.state.nextIdp := by
        rw [ht]
        exact Function.update_self ..
      rw [if_pos hgo]
      constructor
      · intro hall _ _ _
        rw [← hidp]
        exact hall p List.mem_cons_self
      · intro hne q hq
        obtain rfl | hq := List.mem_cons.1 hq
        · rw [hidp]
          exact hne hp hent (hok.1 hgo).2.2
        · rw [hkeep q hq]
          exact hold q hq
    · rw [if_neg hgo]
      constructor
      · intro _ _ hent htakes
        exact absurd (hok.2 ⟨hent.1, hent.2, htakes⟩) hgo
      · intro _ q hq
        rw [hkeep q hq]
        exact hold q hq
  | unregister p =>
    simp only [RegCall.step, RegCall.NotZero, iff_true]
    split_ifs with hp
    · intro q hq
      have hidp : (unregisterFblockNamespace w.state p).idp = w.state.idp :=
        (congrArg Registry.idp (registry_unregister w.state p)).trans
          (idp_unregisterNoRcu w.state p)
      dsimp only
      rw [hidp]
      exact hold q (List.mem_of_mem_erase hq)
    · exact hold

end Booked

theorem booked_init (online : OnlineCpus) : Booked (.init online) := ⟨List.nodup_nil, nofun⟩

/-- **Identifiers.** In a run of registrations and unregistrations of any length, the registered
blocks have usable identifiers all along exactly if no registration goes through while the counter
stands before a multiple of `2 ^ 32`. -/
theorem idps_usable_iff (online : OnlineCpus) (calls : List RegCall) :
    (∀ cs, cs <+: calls → Usable (cs.foldl RegCall.step (.init online))) ↔
      Transition.Allowed RegCall.step RegCall.NotZero (.init online) calls :=
  (Transition.allowed_iff_forall_prefix (I := Booked) (M := Usable)
    (fun _ c h hu => ⟨h.step c, h.usable_step hu c⟩) (booked_init online) nofun).symm

/-- A call moves the counter by one at most. -/
theorem RegCall.counter_step (w : Registered) (c : RegCall) :
    (c.step w).state.idpCounter ≤ w.state.idpCounter + 1 := by
  cases c with
  | register p name area ops al =>
    simp only [RegCall.step]
    by_cases hp : p ∈ w.blocks
    · rw [if_pos hp]
      exact Nat.le_succ _
    · rw [if_neg hp]
      obtain ⟨t, heq | ⟨-, heq⟩⟩ :=
        registerFblockNamespace_frame al (initFblock w.state p name area ops) p
      · dsimp only
        rw [heq]
        exact Nat.mod_le _ _
      · dsimp only
        rw [heq]
        exact Nat.mod_le _ _
  | unregister p =>
    simp only [RegCall.step]
    split_ifs
    · have : (unregisterFblockNamespace w.state p).idpCounter = w.state.idpCounter :=
        (congrArg Registry.idpCounter (registry_unregister w.state p)).trans
          (counter_unregisterNoRcu w.state p)
      dsimp only
      omega
    · exact Nat.le_succ _

/-- Fewer than `2 ^ 32` calls never get to the idp 0. -/
theorem allowed_of_short : ∀ {calls : List RegCall} {w : Registered},
    w.state.idpCounter + calls.length < 2 ^ 32 →
      Transition.Allowed RegCall.step RegCall.NotZero w calls := by
  intro calls
  induction calls with
  | nil => exact fun _ => trivial
  | cons c calls ih =>
    intro w hlt
    rw [List.length_cons] at hlt
    refine ⟨?_, ih (by have := c.counter_step w; omega)⟩
    cases c with
    | register p name area ops al =>
      intro _ _ _ hzero
      have hnat : w.state.nextIdp.toNat = _ := nextIdp_toNat (by omega)
      rw [hzero] at hnat
      exact absurd hnat (by simp [idpUnknown])
    | unregister p => exact trivial

/-! A block that comes and goes until the counter has gone round. -/

/-- A block is registered and unregistered. -/
def lap : List RegCall := [.register 0 nameA (Priv.init 0 0) .dummy .ok, .unregister 0]

def laps : ℕ → List RegCall
  | 0 => []
  | k + 1 => lap ++ laps k

/-- Both tables are empty and `k` idps have been given out. -/
structure Cleared (w : Registered) (k : ℕ) : Prop where
  blocks : w.blocks = []
  fblmap : w.state.fblmap = fun _ => none
  idpmap : w.state.idpmap = none
  counter : w.state.idpCounter = k

theorem name_initFblock (s : State) (p : Addr) (name : Name) (area : Priv) (ops : FbType) :
    (initFblock s p name area ops).name p = name := by
  show Function.update s.name p (strlcpy name fbnamsiz) p = name
  rw [Function.update_self, strlcpy_of_lt name.2]

theorem Cleared.register {w : Registered} {k : ℕ} (h : Cleared w k) :
    (RegCall.register 0 nameA (Priv.init 0 0) .dummy .ok).step w =
      ⟨{ (initFblock w.state 0 nameA (Priv.init 0 0) .dummy).entered 0 with
          idpmap := some (.elem ⟨nameA, w.state.nextIdp⟩) }, [0]⟩ := by
  set s := initFblock w.state 0 nameA (Priv.init 0 0) .dummy with hs
  have hname : s.name 0 = nameA := name_initFblock ..
  have hmap : (s.entered 0).idpmap = none := h.idpmap
  have hent : Enters .ok s := ⟨rfl, congrFun h.fblmap _⟩
  have hreg : registerFblockNamespace .ok s 0 =
      (.ok, { s.entered 0 with idpmap := some (.elem ⟨nameA, w.state.nextIdp⟩) }) := by
    rw [registerFblockNamespace_enters hent, hname]
    unfold registerToFblockNamespace
    rw [hmap, strlcpy_of_lt nameA.2]
    rfl
  simp only [RegCall.step, h.blocks, List.not_mem_nil, if_false]
  rw [← hs, hreg]
  rfl

theorem Cleared.lap {w : Registered} {k : ℕ} (h : Cleared w k) (hk : k + 1 < 2 ^ 64) :
    Cleared (lap.foldl RegCall.step w) (k + 1) := by
  unfold Lana.lap
  rw [List.foldl_cons, List.foldl_cons, List.foldl_nil, h.register]
  set s := initFblock w.state 0 nameA (Priv.init 0 0) .dummy with hs
  have hname : s.name 0 = nameA := name_initFblock ..
  set t : State := { s.entered 0 with idpmap := some (.elem ⟨nameA, w.state.nextIdp⟩) } with ht
  have hreg := registry_unregister t 0
  have hstep : (RegCall.unregister 0).step ⟨t, [0]⟩ = ⟨unregisterFblockNamespace t 0, []⟩ := rfl
  rw [hstep]
  refine ⟨rfl, ?_, ?_, ?_⟩
  · refine (congrArg Registry.fblmap hreg).trans ((fblmap_unregisterNoRcu t 0).trans ?_)
    show Function.update (Function.update w.state.fblmap w.state.nextIdp (some 0))
      (Function.update w.state.idp 0 w.state.nextIdp 0) none = _
    rw [Function.update_self, Function.update_idem, h.fblmap]
    exact Function.update_eq_self ..
  · refine (congrArg Registry.idpmap hreg).trans ?_
    have hget : critbitGet IdpElem.name (radixTreeDelete t (t.idp 0)).idpmap nameA =
        some ⟨nameA, w.state.nextIdp⟩ := by
      show (if (nameA : CStr) = nameA then some _ else none) = _
      rw [if_pos rfl]
      rfl
    show (unregisterFblockNamespaceNoRcu t 0).idpmap = none
    unfold unregisterFblockNamespaceNoRcu unregisterFromFblockNamespace
    rw [show t.name 0 = nameA from hname, hget]
    exact congrArg Prod.snd (if_neg (not_not.2 rfl))
  · refine (congrArg Registry.idpCounter hreg).trans ((counter_unregisterNoRcu t 0).trans ?_)
    show (w.state.idpCounter + 1) % 2 ^ 64 = k + 1
    rw [h.counter, Nat.mod_eq_of_lt hk]

theorem Cleared.laps {w : Registered} {k : ℕ} (n : ℕ) (h : Cleared w k) (hk : k + n < 2 ^ 64) :
    Cleared ((laps n).foldl RegCall.step w) (k + n) := by
  induction n generalizing w k with
  | zero => exact h
  | succ n ih =>
    unfold Lana.laps
    rw [List.foldl_append, show k + (n + 1) = k + 1 + n by omega]
    exact ih (h.lap (by omega)) (by omega)

/-- When the counter has gone round, the block gets the idp 0. -/
theorem Cleared.goes_round {k : ℕ} (hk : k + 1 = 2 ^ 32) :
    let w := (Lana.laps k ++ [RegCall.register 0 nameA (Priv.init 0 0) .dummy .ok]).foldl
      RegCall.step (.init oneCpu)
    0 ∈ w.blocks ∧ w.state.idp 0 = idpUnknown ∧ (searchFblock w.state (w.state.idp 0)).1 = none := by
  have hinit : Cleared (.init oneCpu) 0 := ⟨rfl, rfl, rfl, rfl⟩
  have hround := hinit.laps k (by omega)
  intro w
  have hw : w = _ := (List.foldl_append ..).trans hround.register
  generalize (Lana.laps k).foldl RegCall.step (.init oneCpu) = v at hround hw
  have hnext : v.state.nextIdp = idpUnknown := by
    unfold State.nextIdp
    rw [hround.counter, show 0 + k + 1 = 2 ^ 32 by omega]
    decide
  have hidp : w.state.idp 0 = idpUnknown := by
    rw [hw, ← hnext]
    show Function.update v.state.idp 0 v.state.nextIdp 0 = _
    rw [Function.update_self]
  refine ⟨?_, hidp, ?_⟩
  · rw [hw]
    exact List.mem_singleton_self 0
  · unfold searchFblock
    rw [if_pos hidp]

/-- After `2 ^ 32 - 1` registrations the next block gets the idp 0, by which it is not found. -/
theorem idp_goes_round :
    let w := (laps (2 ^ 32 - 1) ++ [RegCall.register 0 nameA (Priv.init 0 0) .dummy .ok]).foldl
      RegCall.step (.init oneCpu)
    0 ∈ w.blocks ∧ w.state.idp 0 = idpUnknown ∧ (searchFblock w.state (w.state.idp 0)).1 = none :=
  Cleared.goes_round (by norm_num)

end Lana
