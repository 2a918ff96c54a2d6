import Lana.Library.Transition
import Lana.User.Handlers
import Lana.User.Registration
import Lana.User.Tally

/-!
# Modules of the blocks

The functions of dummy, counter, bpf and tee blocks lie in modules of their own, which are loaded
and unloaded while there are blocks.  A module registers its factory when it is loaded and takes it
back when it is unloaded; a constructor takes a reference to its module, and the destructor, which
runs in the callback of a grace period, puts it.

1. The references to a module are its blocks that are not freed yet (`Modules.Kept`).
2. Whatever commands, loads, unloads and callbacks follow one another, no function of a block that
   is not freed lies in a module that is gone (`modules_outlive_blocks`).

The kernel looks at the references before it calls the exit function, which waits for a grace period
before it takes the factory back.  A block that is built in between has its functions in a module
that is gone.  A constructor that cannot enter the name frees its block and leaves it in `fblmap`
(`Maker.Strands`); both are kept out by `ModAct.Orderly`.  The chain that `cleanup_fblock` calls with
`FBLOCK_DOWN` is left out.
-/

namespace Lana

open State

/-! ## The stack with its modules -/

/-- Every factory is found under its type when all are registered. -/
theorem fbmap_type (f : Factory) : critbitGet Factory.type Lana.fbmap f.type = some f := by
  cases f <;> decide

/-- A module is in memory from `live` on until it is `absent` again; while it is `going`, its exit
function runs. -/
inductive ModStage where
  | absent
  | live
  | going
  deriving DecidableEq

/-- The stack with the modules of its blocks. -/
structure Modules where
  state : State
  /-- `fbmap`, by type. -/
  fbmap : CritbitTree Factory
  stage : Factory → ModStage
  /-- The references to the module. -/
  pins : Factory → ℤ
  /-- The objects that `free_fblock_rcu` has freed, and those that constructors have. -/
  freed : List Addr

namespace Modules

def init (online : OnlineCpus) : Modules where
  state := State.init online
  fbmap := none
  stage _ := .absent
  pins _ := 0
  freed := []

/-- `build_fblock_object`; a constructor that succeeds ends with `__module_get`, and one that does
not frees the object it has allocated. -/
def buildFblockObject (w : Modules) (al : Alloc) (type name : CStr) : Modules :=
  match critbitGet Factory.type w.fbmap type with
  | none => w
  | some factory =>
    match factory.ctor al w.state name with
    | (none, s) =>
      { w with state := s, freed := if al.fblock then w.state.nextFblock :: w.freed else w.freed }
    | (some fb, s) =>
      { w with
        state := { s with factory := Function.update s.factory fb (some factory) }
        pins := Function.update w.pins factory (w.pins factory + 1) }

/-- `userctl_add`. -/
def userctlAdd (w : Modules) (al : Alloc) (name : Name) (type : CStr) : Modules :=
  match searchFblockN w.state name with
  | (some fb, s) => { w with state := putFblock s fb }
  | (none, s) => { w with state := s }.buildFblockObject al type name

/-- A command. -/
def command (w : Modules) : Cmd → Modules
  | .add name type al => w.userctlAdd al name type
  | c => { w with state := c.exec w.state }

/-- The init function of a module: `register_fblock_type`. -/
def load (w : Modules) (f : Factory) (alloc : Bool) : Modules :=
  match critbitInsert Factory.type alloc w.fbmap f with
  | (.ok, tree) => { w with fbmap := tree, stage := Function.update w.stage f .live }
  | (.err _, tree) => { w with fbmap := tree }

/-- The end of the exit function of a module: `unregister_fblock_type`. -/
def exit (w : Modules) (f : Factory) : Modules :=
  { w with
    fbmap := (critbitDelete Factory.type w.fbmap f.type).2
    stage := Function.update w.stage f .absent }

/-- `free_fblock_rcu`: the destructor ends with `module_put`. -/
def freeFblockRcu (w : Modules) (a : Addr) : Modules :=
  match w.state.factory a with
  | none => { w with freed := a :: w.freed }
  | some f =>
    { w with
      pins := Function.update w.pins f (w.pins f - 1)
      freed := a :: w.freed }

end Modules

inductive ModAct where
  | cmd (c : Cmd)
  | load (f : Factory) (alloc : Bool)
  /-- `delete_module` finds no references and calls the exit function. -/
  | stop (f : Factory)
  /-- The exit function has waited for its grace period. -/
  | exit (f : Factory)
  /-- The grace period of a block is over. -/
  | free (a : Addr)

def ModAct.step (w : Modules) : ModAct → Modules
  | .cmd c => w.command c
  | .load f alloc => if w.stage f = .absent then w.load f alloc else w
  | .stop f =>
    if w.stage f = .live ∧ w.pins f = 0 then { w with stage := Function.update w.stage f .going }
    else w
  | .exit f => if w.stage f = .going then w.exit f else w
  | .free a =>
    if a ∈ w.state.released.map Release.fb ∧ a ∉ w.freed then w.freeFblockRcu a else w

/-- No block is built by a module that is being unloaded or left in `fblmap` by a constructor that
fails, and blocks are replaced by blocks of their type, with memory for the entry in `fblmap`;
unsubscriptions find their nodes, and there are idps left. -/
def ModAct.Orderly (w : Modules) : ModAct → Prop
  | .cmd (.add name type al) => w.state.idpCounter + 1 < 2 ^ 32 ∧
      ∀ f ∈ critbitGet Factory.type w.fbmap type,
        w.stage f = .live ∧ ¬ (Maker.factory f).Strands al w.state name
  | .cmd (.replace n1 n2 _ al) => al.radix = true ∧
      (w.state.lookup n1).bind w.state.factory = (w.state.lookup n2).bind w.state.factory
  | .cmd c => c.Finds w.state
  | _ => True

instance (w : Modules) : ∀ act : ModAct, Decidable (act.Orderly w)
  | .cmd (.add name type al) => inferInstanceAs (Decidable (w.state.idpCounter + 1 < 2 ^ 32 ∧
      ∀ f ∈ critbitGet Factory.type w.fbmap type,
        w.stage f = .live ∧ ¬ (Maker.factory f).Strands al w.state name))
  | .cmd (.replace n1 n2 _ al) => inferInstanceAs (Decidable (al.radix = true ∧
      (w.state.lookup n1).bind w.state.factory = (w.state.lookup n2).bind w.state.factory))
  | .cmd (.rm n) => inferInstanceAs (Decidable ((Cmd.rm n).Finds w.state))
  | .cmd (.bind n1 n2 al) => inferInstanceAs (Decidable ((Cmd.bind n1 n2 al).Finds w.state))
  | .cmd (.unbind n1 n2) => inferInstanceAs (Decidable ((Cmd.unbind n1 n2).Finds w.state))
  | .cmd (.subscribe n1 n2 al) =>
    inferInstanceAs (Decidable ((Cmd.subscribe n1 n2 al).Finds w.state))
  | .cmd (.unsubscribe n1 n2) => inferInstanceAs (Decidable ((Cmd.unsubscribe n1 n2).Finds w.state))
  | .cmd (.hookEth ..) | .cmd (.addEthvlink ..) | .cmd (.openSock ..) | .cmd (.stopVlink ..)
  | .cmd (.closeSock ..) => inferInstanceAs (Decidable False)
  | .load .. | .stop _ | .exit _ | .free _ => inferInstanceAs (Decidable True)

/-- A block of the module that is not freed. -/
def Modules.Pinned (w : Modules) (f : Factory) (a : Addr) : Prop :=
  w.state.factory a = some f ∧ a ∉ w.freed

/-- The invariant. -/
structure Modules.Kept (w : Modules) : Prop where
  held : ∃ P, Held w.state P 0
  handled : Handled w.state
  tally : Tally w.state
  freed : ∀ a ∈ w.freed, a < w.state.nextFblock ∧ ¬ w.state.registry.Has a
  wf : Wf Factory.type w.fbmap
  mapped : ∀ f, critbitGet Factory.type w.fbmap f.type = some f ↔ w.stage f ≠ .absent
  pins : ∀ f, ∃ B : Finset Addr, (∀ a, a ∈ B ↔ w.Pinned f a) ∧ w.pins f = B.card
  live : ∀ f a, w.Pinned f a → w.stage f = .live

namespace Modules.Kept

variable {w : Modules}

theorem init (online : OnlineCpus) : (Modules.init online).Kept where
  held := ⟨_, held_init online⟩
  handled := handled_init online
  tally := .init online
  freed := fun _ h => absurd h List.not_mem_nil
  wf := wf_none _
  mapped := fun f => ⟨fun h => (by cases h), fun h => absurd rfl h⟩
  pins := fun f =>
    ⟨∅, fun a => ⟨fun h => absurd h (Finset.notMem_empty a), fun h => by cases h.1⟩, rfl⟩
  live := fun f a h => by cases h.1

/-- A command that builds no block of a factory. -/
theorem continues (h : w.Kept) {t : State} (ht : Continues w.state t) (hheld : ∃ P, Held t P 0)
    (hhandled : Handled t) : { w with state := t }.Kept := by
  have hpin : ∀ f a, ({ w with state := t } : Modules).Pinned f a ↔ w.Pinned f a := by
    intro f a
    unfold Modules.Pinned
    rw [show ({ w with state := t } : Modules).state.factory = w.state.factory from ht.factory]
  refine ⟨hheld, hhandled, h.tally.continues ht, fun a ha => ?_, h.wf, h.mapped, fun f => ?_,
    fun f a ha => h.live f a ((hpin f a).1 ha)⟩
  · obtain ⟨hlt, hout⟩ := h.freed a ha
    refine ⟨hlt.trans_le ht.next, fun hin => ?_⟩
    obtain hin | hnew := ht.has a hin
    · exact hout hin
    · exact absurd hnew (not_le.2 hlt)
  · obtain ⟨B, hB, hcard⟩ := h.pins f
    exact ⟨B, fun a => (hB a).trans (hpin f a).symm, hcard⟩

/-- An object that is in no table and has no factory is freed. -/
theorem discard (h : w.Kept) {a : Addr} (ha : a < w.state.nextFblock ∧ ¬ w.state.registry.Has a)
    (hnone : w.state.factory a = none) : { w with freed := a :: w.freed }.Kept := by
  have hpin : ∀ f b, ({ w with freed := a :: w.freed } : Modules).Pinned f b ↔ w.Pinned f b := by
    intro f b
    refine ⟨fun hb => ⟨hb.1, fun hmem => hb.2 (List.mem_cons_of_mem _ hmem)⟩, fun hb => ⟨hb.1, ?_⟩⟩
    rintro (_ | ⟨_, hmem⟩)
    · exact absurd (hb.1.symm.trans hnone) (Option.some_ne_none f)
    · exact hb.2 hmem
  refine ⟨h.held, h.handled, h.tally, List.forall_mem_cons.2 ⟨ha, h.freed⟩, h.wf, h.mapped,
    fun f => ?_, fun f b hb => h.live f b ((hpin f b).1 hb)⟩
  obtain ⟨B, hB, hcard⟩ := h.pins f
  exact ⟨B, fun b => (hB b).trans (hpin f b).symm, hcard⟩

/-- With a new block of the factory `f` its references are those there were, and the one of the
block. -/
theorem pinned_enrolled (h : w.Kept) {f : Factory} {w' : Modules} (hfreed : w'.freed = w.freed)
    (hfac : w'.state.factory = Function.update w.state.factory w.state.nextFblock (some f))
    (g : Factory) (a : Addr) :
    w'.Pinned g a ↔ (a = w.state.nextFblock ∧ g = f) ∨ w.Pinned g a := by
  have hnone : w.state.factory w.state.nextFblock = none := h.tally.fresh _ le_rfl
  have hnew : w.state.nextFblock ∉ w.freed := fun hmem => lt_irrefl _ (h.freed _ hmem).1
  unfold Modules.Pinned
  rw [hfac, hfreed]
  by_cases ha : a = w.state.nextFblock
  · subst ha
    rw [Function.update_self, hnone]
    refine ⟨fun hg => .inl ⟨rfl, (Option.some.inj hg.1).symm⟩, ?_⟩
    rintro (⟨-, rfl⟩ | ⟨hg, -⟩)
    · exact ⟨rfl, hnew⟩
    · cases hg
  · rw [Function.update_of_ne ha]
    exact ⟨.inr, fun hg => hg.resolve_left fun hg => ha hg.1⟩

/-- The module of the new block is referred to once more, the others as often as before. -/
theorem pins_enrolled (h : w.Kept) {f : Factory} {w' : Modules} (hfreed : w'.freed = w.freed)
    (hfac : w'.state.factory = Function.update w.state.factory w.state.nextFblock (some f))
    (hpins : w'.pins = Function.update w.pins f (w.pins f + 1)) (g : Factory) :
    ∃ B : Finset Addr, (∀ a, a ∈ B ↔ w'.Pinned g a) ∧ w'.pins g = B.card := by
  obtain ⟨B, hB, hcard⟩ := h.pins g
  have hpin := h.pinned_enrolled hfreed hfac
  rw [hpins]
  by_cases hg : g = f
  · subst hg
    refine ⟨insert w.state.nextFblock B, fun a => ?_, ?_⟩
    · rw [Finset.mem_insert, hB, hpin]
      simp only [and_true]
    · have hout : w.state.nextFblock ∉ B := fun hmem => by
        have hnone : w.state.factory w.state.nextFblock = some g := ((hB _).1 hmem).1
        rw [h.tally.fresh _ le_rfl] at hnone
        cases hnone
      rw [Finset.card_insert_of_notMem hout, Function.update_self, hcard]
      push_cast
      rfl
  · refine ⟨B, fun a => ?_, ?_⟩
    · rw [hB, hpin]
      exact ⟨.inr, fun ha => ha.resolve_left fun ha => hg ha.2⟩
    · rw [Function.update_of_ne hg, hcard]

/-- The new block of a factory. -/
theorem enrolled (h : w.Kept) {f : Factory} {t : State} {area : Priv}
    (hC : Created w.state t area f.ops) (hin : t.registry.Has w.state.nextFblock)
    (hstage : w.stage f = .live)
    (hheld : ∃ P, Held { t with
      factory := Function.update t.factory w.state.nextFblock (some f) } P 0)
    (hhandled : Handled { t with
      factory := Function.update t.factory w.state.nextFblock (some f) }) :
    { w with
      state := { t with factory := Function.update t.factory w.state.nextFblock (some f) }
      pins := Function.update w.pins f (w.pins f + 1) }.Kept := by
  obtain ⟨P, hP⟩ := h.held
  set w' : Modules := { w with
    state := { t with factory := Function.update t.factory w.state.nextFblock (some f) }
    pins := Function.update w.pins f (w.pins f + 1) }
  have hfac : w'.state.factory =
      Function.update w.state.factory w.state.nextFblock (some f) := by
    rw [← hC.factory]
  have hfreed : w'.freed = w.freed := rfl
  refine ⟨hheld, hhandled, h.tally.enrolled hP.tables hC hin, fun a ha => ?_, h.wf, h.mapped,
    h.pins_enrolled hfreed hfac rfl, fun g a ha => ?_⟩
  · obtain ⟨hlt, hout⟩ := h.freed a ha
    refine ⟨hlt.trans_le hC.next, ?_⟩
    rintro ⟨i, hi⟩
    obtain hold | ⟨heq, -⟩ := hC.new i a hi
    · exact hout ⟨i, hold⟩
    · exact absurd heq hlt.ne
  · obtain ⟨-, rfl⟩ | hold := (h.pinned_enrolled hfreed hfac g a).1 ha
    · exact hstage
    · exact h.live g a hold

/-- A constructor that fails frees its object, which is in no table. -/
theorem abandoned (h : w.Kept) {f : Factory} {al : Alloc} {n : CStr} {t : State}
    (hc : f.ctor al w.state n = (none, t)) (hstrands : ¬ (Maker.factory f).Strands al w.state n)
    (hC : Created w.state t (Priv.init 0 0) f.ops) (hheld : ∃ P, Held t P 0)
    (hhandled : Handled t) :
    { w with
      state := t
      freed := if al.fblock then w.state.nextFblock :: w.freed else w.freed }.Kept := by
  obtain ⟨P, hP⟩ := h.held
  have hkept := h.continues (h.tally.raised hC) hheld hhandled
  by_cases hal : al.fblock = true
  · rw [if_pos hal]
    refine hkept.discard ⟨?_, fun hin => ?_⟩ (h.tally.fresh _ le_rfl ▸ congrFun hC.factory _)
    · obtain ⟨proc, hctor⟩ := ctor_eq f
      rw [hctor] at hc
      have hnext := nextFblock_fbCtor f.ops proc (Priv.init 0 0) w.state n hal
      rw [hc] at hnext
      exact hnext ▸ Nat.lt_succ_self _
    · have hbuild : (Maker.factory f).build al w.state n = (none, t) := hc
      refine hstrands ((Maker.build_none_strands hP.tables.not_has_next ?_).1 ?_)
      · rw [hbuild]
      · rw [hbuild]
        exact hin
  · rw [if_neg hal]
    exact hkept

theorem add (h : w.Kept) (al : Alloc) (n : Name) (type : CStr)
    (hleft : w.state.idpCounter + 1 < 2 ^ 32)
    (hlive : ∀ f ∈ critbitGet Factory.type w.fbmap type,
      w.stage f = .live ∧ ¬ (Maker.factory f).Strands al w.state n) :
    (w.userctlAdd al n type).Kept := by
  obtain ⟨P, hP⟩ := h.held
  rcases hl : w.state.lookup n with _ | a
  swap
  · have hlog := (KeepsLog.steadyOn w.state).get_put (.refl _) hl
    unfold Modules.userctlAdd
    rw [searchFblockN_some hl]
    exact h.continues (hlog.continues (hP.get_put a)) ⟨P, hP.get_put a⟩
      (Handled.closed.put a (Handled.closed.refs _ h.handled))
  have hbuild : w.userctlAdd al n type = w.buildFblockObject al type n := by
    unfold Modules.userctlAdd
    rw [searchFblockN_none hl]
  rw [hbuild]
  unfold Modules.buildFblockObject
  rcases hg : critbitGet Factory.type w.fbmap type with _ | f
  · exact h
  -- the tree with all factories knows the type as well, so that `Lana.userctlAdd` does the same
  obtain rfl : f.type = type := ((critbitGet_eq_some h.wf).1 hg).2
  have hheld := hP.add al n f.type hleft
  have hhandled := Handled.closed.add al n f.type h.handled
  obtain ⟨proc, hctor⟩ := ctor_eq f
  have hC : Created w.state (f.ctor al w.state n).2 (Priv.init 0 0) f.ops := by
    rw [hctor]
    exact fbCtor_created hP.tables proc al
  dsimp only
  rcases hc : f.ctor al w.state n with ⟨_ | fb, t⟩ <;> rw [hc] at hC
  · have hstate : (Lana.userctlAdd al w.state n f.type).2 = t := by
      simp only [Lana.userctlAdd, searchFblockN_none hl, Lana.buildFblockObject, fbmap_type, hc]
    rw [hstate] at hheld hhandled
    exact h.abandoned hc (hlive f hg).2 hC hheld hhandled
  · have hstate : (Lana.userctlAdd al w.state n f.type).2 =
        { t with factory := Function.update t.factory fb (some f) } := by
      simp only [Lana.userctlAdd, searchFblockN_none hl, Lana.buildFblockObject, fbmap_type, hc]
    rw [hstate] at hheld hhandled
    rw [hctor] at hc
    obtain ⟨rfl, -, hmap, -⟩ := fbCtor_some hP.tables hc
    have hin : t.registry.Has w.state.nextFblock := by
      refine ⟨w.state.nextIdp, ?_⟩
      show t.fblmap w.state.nextIdp = _
      rw [hmap, Function.update_self]
    exact h.enrolled hC hin (hlive f hg).1 hheld hhandled

theorem command (h : w.Kept) {c : Cmd} (hok : (ModAct.cmd c).Orderly w) : (w.command c).Kept := by
  obtain ⟨P, hP⟩ := h.held
  obtain ⟨hnoded, hown⟩ := h.handled.exec c
  have hrest : c.Finds w.state → c.creates = false → c.SameHandler w.state →
      { w with state := c.exec w.state }.Kept := by
    intro hc hcr hsame
    refine h.continues (hP.continues hc hcr) (held_exec hP hc fun hcr' => ?_) ⟨hnoded, hown.2 hsame⟩
    rw [hcr] at hcr'
    cases hcr'
  cases c with
  | add n type al => exact h.add al n type hok.1 hok.2
  | replace n1 n2 dropPriv al =>
    have hsame : (Cmd.replace n1 n2 dropPriv al).SameHandler w.state := by
      rintro fb1 fb2 ⟨h1, h2, hf1, hf2, -⟩
      obtain ⟨f1, hf1⟩ := Option.ne_none_iff_exists'.1 hf1
      obtain ⟨f2, hf2⟩ := Option.ne_none_iff_exists'.1 hf2
      have htypes := hok.2
      rw [h1, h2, Option.bind_some, Option.bind_some, hf1, hf2] at htypes
      obtain rfl := Option.some.inj htypes
      exact .inl ((h.tally.named fb1 _ hf1).trans (h.tally.named fb2 _ hf2).symm)
    exact h.continues (hP.continues_replace hok.1 n1 n2 dropPriv) (hP.replace hok.1 n1 n2 dropPriv)
      ⟨hnoded, hown.2 hsame⟩
  | rm n => exact hrest hok rfl trivial
  | bind n1 n2 al => exact hrest hok rfl trivial
  | unbind n1 n2 => exact hrest hok rfl trivial
  | subscribe n1 n2 al => exact hrest hok rfl trivial
  | unsubscribe n1 n2 => exact hrest hok rfl trivial
  | _ => exact absurd hok id

theorem load (h : w.Kept) {f : Factory} (hf : w.stage f = .absent) (alloc : Bool) :
    (w.load f alloc).Kept := by
  unfold Modules.load
  have hwf := wf_insert h.wf alloc f
  rcases hi : critbitInsert Factory.type alloc w.fbmap f with ⟨_ | e, tree⟩ <;> rw [hi] at hwf
  · have hget := critbitGet_insert_ok h.wf (congrArg Prod.fst hi)
    rw [hi] at hget
    refine ⟨h.held, h.handled, h.tally, h.freed, hwf, fun g => ?_, h.pins, fun g a ha => ?_⟩
    · show critbitGet Factory.type tree g.type = some g ↔
        Function.update w.stage f .live g ≠ .absent
      rw [hget, Function.update_apply]
      by_cases hg : g = f
      · subst hg
        simp
      · rw [if_neg fun hty => hg (Factory.type_injective hty), if_neg hg]
        exact h.mapped g
    · show Function.update w.stage f .live g = .live
      rw [Function.update_apply]
      split_ifs
      · rfl
      · exact h.live g a ha
  · have htree : tree = w.fbmap := by
      obtain ⟨-, ht, -⟩ | ⟨-, ⟨-, -, ht⟩ | ⟨hok, -⟩⟩ := critbitInsert_cases h.wf alloc f
      · rw [← ht, hi]
      · rw [← ht, hi]
      · rw [hi] at hok
        cases hok
    rw [htree]
    exact h

/-- A module without references has no blocks. -/
theorem not_pinned (h : w.Kept) {f : Factory} (hf : w.pins f = 0) (a : Addr) : ¬ w.Pinned f a := by
  obtain ⟨B, hB, hcard⟩ := h.pins f
  rw [hf] at hcard
  have hempty : B = ∅ := Finset.card_eq_zero.1 (Int.ofNat_eq_zero.1 hcard.symm)
  rw [← hB, hempty]
  exact Finset.notMem_empty a

/-- The stage of a module without blocks. -/
theorem live_update (h : w.Kept) {f : Factory} (hf : ∀ a, ¬ w.Pinned f a) (st : ModStage)
    (g : Factory) (a : Addr) (ha : w.Pinned g a) : Function.update w.stage f st g = .live := by
  have hne : g ≠ f := by
    rintro rfl
    exact hf a ha
  rw [Function.update_of_ne hne]
  exact h.live g a ha

theorem stop (h : w.Kept) {f : Factory} (hf : w.stage f = .live) (hpins : w.pins f = 0) :
    { w with stage := Function.update w.stage f .going }.Kept := by
  refine ⟨h.held, h.handled, h.tally, h.freed, h.wf, fun g => ?_, h.pins,
    h.live_update (h.not_pinned hpins) .going⟩
  show critbitGet Factory.type w.fbmap g.type = some g ↔
    Function.update w.stage f .going g ≠ .absent
  rw [h.mapped, Function.update_apply]
  split_ifs with hg
  · subst hg
    simp [hf]
  · exact Iff.rfl

theorem exit (h : w.Kept) {f : Factory} (hf : w.stage f = .going) : (w.exit f).Kept := by
  have hnone : ∀ a, ¬ w.Pinned f a := by
    intro a ha
    have hlive := h.live f a ha
    rw [hf] at hlive
    cases hlive
  refine ⟨h.held, h.handled, h.tally, h.freed, wf_delete h.wf f.type, fun g => ?_, h.pins,
    h.live_update hnone .absent⟩
  show critbitGet Factory.type (critbitDelete Factory.type w.fbmap f.type).2 g.type = some g ↔
    Function.update w.stage f .absent g ≠ .absent
  rw [critbitGet_delete h.wf, Function.update_apply]
  by_cases hg : g = f
  · subst hg
    simp
  · rw [if_neg fun hty => hg (Factory.type_injective hty), if_neg hg]
    exact h.mapped g

theorem free (h : w.Kept) {a : Addr} (ha : a ∈ w.state.released.map Release.fb)
    (hnew : a ∉ w.freed) : (w.freeFblockRcu a).Kept := by
  obtain ⟨f, hf⟩ := Option.ne_none_iff_exists'.1 (h.tally.built a ha)
  have heq : w.freeFblockRcu a =
      { w with pins := Function.update w.pins f (w.pins f - 1), freed := a :: w.freed } := by
    unfold Modules.freeFblockRcu
    rw [hf]
  rw [heq]
  set w' : Modules :=
    { w with pins := Function.update w.pins f (w.pins f - 1), freed := a :: w.freed } with hw'
  have hpin : ∀ g b, w'.Pinned g b ↔ b ≠ a ∧ w.Pinned g b := by
    intro g b
    show _ ∧ b ∉ a :: w.freed ↔ _
    rw [List.mem_cons, not_or]
    exact ⟨fun ⟨hg, hne, hb⟩ => ⟨hne, hg, hb⟩, fun ⟨hne, hg, hb⟩ => ⟨hg, hne, hb⟩⟩
  have hlt : a < w.state.nextFblock := by
    by_contra hge
    exact h.tally.built a ha (h.tally.fresh a (not_lt.1 hge))
  refine ⟨h.held, h.handled, h.tally,
    List.forall_mem_cons.2 ⟨⟨hlt, h.tally.out a ha⟩, h.freed⟩, h.wf, h.mapped,
    fun g => ?_, fun g b hb => h.live g b ((hpin g b).1 hb).2⟩
  obtain ⟨B, hB, hcard⟩ := h.pins g
  refine ⟨B.erase a, fun b => ?_, ?_⟩
  · rw [Finset.mem_erase, hB, hpin]
  · show Function.update w.pins f (w.pins f - 1) g = _
    by_cases hg : g = f
    · subst hg
      have hmem : a ∈ B := (hB a).2 ⟨hf, hnew⟩
      rw [Function.update_self, hcard, ← Finset.card_erase_add_one hmem]
      push_cast
      ring
    · have hmem : a ∉ B := by
        rw [hB]
        rintro ⟨hg', -⟩
        exact hg (Option.some.inj (hg'.symm.trans hf))
      rw [Function.update_of_ne hg, Finset.erase_eq_of_notMem hmem, hcard]

/-- **Step.** -/
theorem step (h : w.Kept) (act : ModAct) (hok : act.Orderly w) : (act.step w).Kept := by
  cases act with
  | cmd c => exact h.command hok
  | load f alloc =>
    simp only [ModAct.step]
    split_ifs with hf
    · exact h.load hf alloc
    · exact h
  | stop f =>
    simp only [ModAct.step]
    split_ifs with hf
    · exact h.stop hf.1 hf.2
    · exact h
  | exit f =>
    simp only [ModAct.step]
    split_ifs with hf
    · exact h.exit hf
    · exact h
  | free a =>
    simp only [ModAct.step]
    split_ifs with ha
    · exact h.free ha.1 ha.2
    · exact h

end Modules.Kept

/-- **Modules outlive their blocks.**  Whatever user commands, loads, unloads and callbacks follow one
another, as long as each is `Orderly` (no block is built by a module that is being unloaded or
stranded in `fblmap` by a failed add, replacements stay within a type and are entered,
unsubscriptions find their nodes, idps are left): the references to a module are the blocks built by
it that are not freed, no block in the tables is freed, and as long as a block is not freed its
module is loaded, with the functions of the block and the handlers of its nodes. -/
theorem modules_outlive_blocks (online : OnlineCpus) (acts : List ModAct)
    (h : Transition.Allowed ModAct.step (fun w act => act.Orderly w) (Modules.init online) acts) :
    let w := acts.foldl ModAct.step (Modules.init online)
    (∀ f, ∃ B : Finset Addr, (∀ a, a ∈ B ↔ w.Pinned f a) ∧ w.pins f = B.card) ∧
    (∀ a, w.state.registry.Has a → a ∉ w.freed) ∧
    ∀ f a, w.Pinned f a → w.stage f = .live ∧ w.state.ops a = f.ops ∧
      ∀ n ∈ w.state.notifiers a, w.state.notifierCall n = f.ops := by
  intro w
  have hw : w.Kept := Transition.invariant_of_allowed (I := Modules.Kept)
    (fun _ act hk hok => hk.step act hok) (.init online) h
  refine ⟨hw.pins, fun a ha hfreed => (hw.freed a hfreed).2 ha, fun f a ha => ?_⟩
  have hops := hw.tally.named a f ha.1
  exact ⟨hw.live f a ha, hops, fun n hn => (hw.handled.own a n hn).2.trans hops⟩

/-- A tee is bound, unbound and removed.  Its module cannot be unloaded before the callback. -/
def unloadRun : List ModAct :=
  [.load .dummy true, .load .tee true, .cmd (.add nameA Factory.dummy.type .ok),
    .cmd (.add nameB Factory.tee.type .ok), .cmd (.bind nameA nameB .ok),
    .cmd (.unbind nameA nameB), .cmd (.rm nameB), .stop .tee, .exit .tee, .free 1, .stop .tee,
    .exit .tee]

theorem modules_outlive_blocks_unload :
    let v := (unloadRun.take 9).foldl ModAct.step (Modules.init oneCpu)
    let w := unloadRun.foldl ModAct.step (Modules.init oneCpu)
    (v.stage .tee = .live ∧ 1 ∈ v.state.released.map Release.fb ∧ w.stage .tee = .absent) ∧
      w.Pinned .dummy 0 ∧ w.stage .dummy = .live ∧ w.state.ops 0 = .dummy := by
  intro v w
  obtain ⟨-, -, hlive⟩ := modules_outlive_blocks oneCpu unloadRun (by decide)
  have hpin : w.Pinned .dummy 0 := ⟨by decide, by decide⟩
  obtain ⟨hstage, hops, -⟩ := hlive .dummy 0 hpin
  exact ⟨⟨by decide, by decide, by decide⟩, hpin, hstage, hops⟩

/-- A block is built while the exit function of its module waits for the grace period. -/
example :
    let w := [.load .dummy true, .stop .dummy, .cmd (.add nameA Factory.dummy.type .ok),
      .exit .dummy].foldl ModAct.step (Modules.init oneCpu)
    w.state.lookup nameA = some 0 ∧ w.state.factory 0 = some .dummy ∧ w.stage .dummy = .absent := by
  decide

end Lana
