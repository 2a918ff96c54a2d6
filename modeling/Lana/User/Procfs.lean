import Lana.Library.Transition
import Lana.User.Stack

/-!
# Entries in procfs

Counter and bpf blocks have a file in `fblock_proc_dir`.  The constructor creates it under the name
of the block, with the block as data; the destructor removes the file of the name that the block
has by then.  It runs in the callback of a grace period (`free_fblock_rcu`), some time after the
last reference was put.

A replacement gives the second block the name of the first one and leaves its file where it is, and
a block may be added under the name of one that waits for its callback.  Without these two every
file has a block that is still there, and every counter and bpf block has its one file
(`procfs_entries`).
-/

namespace Lana

open State

/-- A `struct proc_dir_entry`. -/
structure ProcEntry where
  name : CStr
  data : Addr
  deriving DecidableEq

/-- `proc_create_data`: the entry comes first, also if there is one of that name. -/
def procCreateData (dir : List ProcEntry) (name : CStr) (data : Addr) : List ProcEntry :=
  ⟨name, data⟩ :: dir

/-- `remove_proc_entry`: the first entry of that name. -/
def removeProcEntry (dir : List ProcEntry) (name : CStr) : List ProcEntry :=
  dir.eraseP fun e => e.name = name

/-- The stack with its directory. -/
structure Procfs where
  state : State
  /-- `fblock_proc_dir`. -/
  dir : List ProcEntry
  /-- The blocks handed to `call_rcu`. -/
  pending : List Addr
  /-- The blocks that `free_fblock_rcu` has freed. -/
  freed : List Addr

namespace Procfs

def init (online : OnlineCpus) : Procfs :=
  { state := State.init online, dir := [], pending := [], freed := [] }

/-- A function that does not touch the directory has run. -/
def after (w : Procfs) (s : State) : Procfs :=
  { w with state := s, pending := newReleases w.state s ++ w.pending }

/-- The end of `factory->ctor`, from the creation of the entry on. -/
def register (w : Procfs) (f : Factory) (al : Alloc) (fb : Addr) : Option Addr × Procfs :=
  let dir := if f.proc then procCreateData w.dir (w.state.name fb) fb else w.dir
  match registerFblockNamespace al w.state fb with
  | (.err _, s) =>
    (none, { w with state := s, dir := if f.proc then removeProcEntry dir (s.name fb) else dir })
  | (.ok, s) => (some fb, { w with state := s, dir := dir })

/-- `factory->ctor`. -/
def ctor (w : Procfs) (f : Factory) (al : Alloc) (name : CStr) : Option Addr × Procfs :=
  if !al.fblock then (none, w)
  else
    let (fb, s) := allocFblock w.state
    if !al.percpu || !al.others then (none, { w with state := s })
    else
      let s := initFblock s fb name (Priv.init 0 0) f.ops
      if f.proc && !al.proc then (none, { w with state := s })
      else { w with state := s }.register f al fb

/-- `build_fblock_object`. -/
def buildFblockObject (w : Procfs) (al : Alloc) (type name : CStr) : Procfs :=
  match critbitGet Factory.type fbmap type with
  | none => w
  | some factory =>
    match w.ctor factory al name with
    | (none, w) => w
    | (some fb, w) =>
      { w with state := { w.state with
          factory := Function.update w.state.factory fb (some factory) } }

/-- `userctl_add`. -/
def userctlAdd (w : Procfs) (al : Alloc) (name : Name) (type : CStr) : Procfs :=
  match searchFblockN w.state name with
  | (some fb, s) => w.after (putFblock s fb)
  | (none, s) => { w with state := s }.buildFblockObject al type name

/-- `free_fblock_rcu`, with the destructors of counter and bpf blocks. -/
def freeFblockRcu (w : Procfs) (a : Addr) : Procfs :=
  { w with
    dir := if (w.state.factory a).any Factory.proc then removeProcEntry w.dir (w.state.name a)
      else w.dir
    pending := w.pending.erase a
    freed := a :: w.freed }

end Procfs

inductive ProcAct where
  | add (name : Name) (type : CStr) (al : Alloc)
  | rm (name : Name)
  | replace (name1 name2 : Name) (dropPriv : Bool) (al : Alloc)
  /-- The grace period of a block is over. -/
  | free (a : Addr)

def ProcAct.step (w : Procfs) : ProcAct → Procfs
  | .add name type al => w.userctlAdd al name type
  | .rm name => w.after (userctlRemove w.state name).2
  | .replace name1 name2 dropPriv al => w.after (userctlReplace al w.state name1 name2 dropPriv).2
  | .free a => if a ∈ w.pending then w.freeFblockRcu a else w

/-- A block of a type with an entry, built and not freed. -/
def Procfs.Filed (w : Procfs) (a : Addr) : Prop :=
  (w.state.factory a).any Factory.proc = true ∧ a ∉ w.freed

instance (w : Procfs) (a : Addr) : Decidable (w.Filed a) := inferInstanceAs (Decidable (_ ∧ _))

/-- Every entry has a block that is still there, and every counter and bpf block has one entry,
under its name. -/
structure Procfs.Sane (w : Procfs) : Prop where
  data : ∀ e ∈ w.dir, w.state.factory e.data ≠ none ∧ e.data ∉ w.freed
  entry : ∀ a, w.Filed a → w.dir.filter (fun e => e.data = a) = [⟨w.state.name a, a⟩]

/-- A block with an entry is not added under the name of one that waits to be freed, and does not
take the place of another block. -/
def ProcAct.KeepsNames (w : Procfs) : ProcAct → Prop
  | .add name type _ => (critbitGet Factory.type fbmap type).any Factory.proc = true →
      ∀ a ∈ w.pending, w.Filed a → w.state.name a ≠ name
  | .replace name1 name2 _ _ => w.state.lookup name1 ≠ w.state.lookup name2 →
      ((w.state.lookup name1).bind w.state.factory).isSome = true →
      ((w.state.lookup name2).bind w.state.factory).any Factory.proc = false
  | _ => True

instance (w : Procfs) (act : ProcAct) : Decidable (act.KeepsNames w) := by
  cases act
  · exact inferInstanceAs (Decidable (_ → _))
  · exact inferInstanceAs (Decidable True)
  · exact inferInstanceAs (Decidable (_ → _ → _))
  · exact inferInstanceAs (Decidable True)

/-! ## The commands are those of the stack -/

namespace Procfs

variable {w : Procfs} {f : Factory} {al : Alloc} {name : CStr}

theorem removeProcEntry_create (dir : List ProcEntry) (name : CStr) (a : Addr) :
    removeProcEntry (procCreateData dir name a) name = dir := by
  unfold removeProcEntry procCreateData
  rw [List.eraseP_cons_of_pos (by simp)]

theorem name_register (al : Alloc) (s : State) (p : Addr) :
    (registerFblockNamespace al s p).2.name = s.name := by
  obtain ⟨t, heq | ⟨-, heq⟩⟩ := registerFblockNamespace_frame al s p
  · rw [heq]
    rfl
  · rw [heq]
    rfl

/-- The directory after a constructor that returned `r`. -/
def dirAfter (w : Procfs) (f : Factory) (name : CStr) : Option Addr → List ProcEntry
  | none => w.dir
  | some fb => if f.proc then procCreateData w.dir (strlcpy name fbnamsiz) fb else w.dir

theorem register_ok {fb : Addr} {s : State}
    (h : registerFblockNamespace al w.state fb = (.ok, s)) :
    w.register f al fb = (some fb, { w with
      state := s
      dir := if f.proc then procCreateData w.dir (w.state.name fb) fb else w.dir }) := by
  unfold register
  rw [h]

theorem register_err {fb : Addr} {e : Errno} {s : State}
    (h : registerFblockNamespace al w.state fb = (.err e, s)) :
    w.register f al fb = (none, { w with state := s }) := by
  have hname := congrFun (name_register al w.state fb) fb
  unfold register
  rw [h] at hname ⊢
  dsimp only at hname ⊢
  rw [hname]
  cases f.proc
  · rfl
  · rw [if_pos rfl, if_pos rfl, removeProcEntry_create]

/-- A constructor that fails leaves the directory as it was. -/
theorem ctor_eq {r : Option Addr} {t : State} (h : f.ctor al w.state name = (r, t)) :
    w.ctor f al name = (r, { w with state := t, dir := w.dirAfter f name r }) := by
  rw [Factory.ctor_eq] at h
  unfold fbCtor at h
  unfold ctor
  dsimp only [allocFblock] at h ⊢
  by_cases h1 : (!al.fblock) = true
  · rw [if_pos h1] at h ⊢
    cases h
    rfl
  rw [if_neg h1] at h ⊢
  by_cases h2 : (!al.percpu || !al.others) = true
  · rw [if_pos h2] at h ⊢
    cases h
    rfl
  rw [if_neg h2] at h ⊢
  by_cases h3 : (f.proc && !al.proc) = true
  · rw [if_pos h3] at h ⊢
    cases h
    rfl
  rw [if_neg h3] at h ⊢
  have hnew := (constructed_new w.state name (Priv.init 0 0) f.ops).1
  split at h
  · rename_i e u hr
    cases h
    exact register_err hr
  · rename_i u hr
    cases h
    refine (register_ok hr).trans ?_
    exact congrArg (fun n => (some w.state.nextFblock, { w with
      state := t
      dir := if f.proc then procCreateData w.dir n w.state.nextFblock else w.dir })) hnew

/-- The state changes as in the stack without its directory. -/
theorem state_add (w : Procfs) (al : Alloc) (name : Name) (type : CStr) :
    (w.userctlAdd al name type).state = (Lana.userctlAdd al w.state name type).2 := by
  unfold userctlAdd Lana.userctlAdd
  rcases searchFblockN w.state name with ⟨_ | fb, s⟩
  · dsimp only
    unfold buildFblockObject Lana.buildFblockObject
    rcases critbitGet Factory.type fbmap type with _ | f
    · rfl
    · dsimp only
      rcases hr : f.ctor al s name with ⟨_ | fb, t⟩
      · rw [ctor_eq (w := { w with state := s }) hr]
      · rw [ctor_eq (w := { w with state := s }) hr]
  · rfl

end Procfs

/-- The commands without the directory. -/
def ProcAct.onState (s : State) : ProcAct → State
  | .add name type al => (userctlAdd al s name type).2
  | .rm name => (userctlRemove s name).2
  | .replace name1 name2 dropPriv al => (userctlReplace al s name1 name2 dropPriv).2
  | .free _ => s

theorem ProcAct.state_step (w : Procfs) (act : ProcAct) :
    (act.step w).state = act.onState w.state := by
  cases act with
  | add name type al => exact w.state_add al name type
  | rm name => rfl
  | replace name1 name2 dropPriv al => rfl
  | free a =>
    simp only [step]
    split_ifs
    · rfl
    · rfl

/-! ## Directories -/

/-- The directory has one entry for each block that is filed, under its name, and no others. -/
structure Filing (filed : Addr → Prop) (name : Addr → CStr) (dir : List ProcEntry) : Prop where
  mem : ∀ e, e ∈ dir ↔ filed e.data ∧ e.name = name e.data
  nodup : dir.Nodup
  distinct : ∀ a b, filed a → filed b → name a = name b → a = b

namespace Filing

variable {filed filed' : Addr → Prop} {name name' : Addr → CStr} {dir : List ProcEntry}

theorem congr (h : Filing filed name dir) (hfiled : ∀ a, filed' a ↔ filed a)
    (hname : ∀ a, filed a → name' a = name a) : Filing filed' name' dir where
  mem := by
    intro e
    rw [h.mem e, hfiled]
    exact and_congr_right fun he => by rw [hname _ he]
  nodup := h.nodup
  distinct := by
    intro a b ha hb hab
    rw [hfiled] at ha hb
    rw [hname a ha, hname b hb] at hab
    exact h.distinct a b ha hb hab

theorem create (h : Filing filed name dir) {a : Addr} {m : CStr} (ha : ¬ filed a)
    (hm : ∀ b, filed b → name b ≠ m) (hfiled : ∀ b, filed' b ↔ b = a ∨ filed b)
    (hnew : name' a = m) (hold : ∀ b, filed b → name' b = name b) :
    Filing filed' name' (procCreateData dir m a) where
  mem := by
    intro e
    unfold procCreateData
    rw [List.mem_cons, h.mem e, hfiled]
    constructor
    · rintro (rfl | ⟨he, hen⟩)
      · exact ⟨.inl rfl, hnew.symm⟩
      · exact ⟨.inr he, hen.trans (hold _ he).symm⟩
    · rintro ⟨hea | he, hen⟩
      · obtain ⟨n, d⟩ := e
        obtain rfl : d = a := hea
        exact .inl (congrArg (fun n => ProcEntry.mk n d) (hen.trans hnew))
      · exact .inr ⟨he, hen.trans (hold _ he)⟩
  nodup := List.nodup_cons.2 ⟨fun hmem => ha ((h.mem _).1 hmem).1, h.nodup⟩
  distinct := by
    intro b c hb hc hbc
    rw [hfiled] at hb hc
    obtain rfl | hb := hb <;> obtain rfl | hc := hc
    · rfl
    · rw [hnew, hold c hc] at hbc
      exact absurd hbc.symm (hm c hc)
    · rw [hnew, hold b hb] at hbc
      exact absurd hbc (hm b hb)
    · rw [hold b hb, hold c hc] at hbc
      exact h.distinct b c hb hc hbc

/-- The entry under the name of a filed block is its own. -/
theorem eq_of_name (h : Filing filed name dir) {a : Addr} (ha : filed a) {e : ProcEntry}
    (he : e ∈ dir) (hname : e.name = name a) : e = ⟨name a, a⟩ := by
  obtain ⟨hd, hn⟩ := (h.mem e).1 he
  obtain rfl := h.distinct e.data a hd ha (hn.symm.trans hname)
  obtain ⟨n, d⟩ := e
  exact congrArg (fun n => ProcEntry.mk n d) hname

theorem remove (h : Filing filed name dir) {a : Addr} (ha : filed a)
    (hfiled : ∀ b, filed' b ↔ b ≠ a ∧ filed b) :
    Filing filed' name (removeProcEntry dir (name a)) := by
  have hmem : (⟨name a, a⟩ : ProcEntry) ∈ dir := (h.mem _).2 ⟨ha, rfl⟩
  obtain ⟨x, l1, l2, -, hx, hdir, herase⟩ :=
    List.exists_of_eraseP (p := fun e : ProcEntry => decide (e.name = name a)) hmem (by simp)
  have hxdir : x ∈ dir := hdir ▸ List.mem_append_right l1 List.mem_cons_self
  obtain rfl := h.eq_of_name ha hxdir (of_decide_eq_true hx)
  have hnodup : (⟨name a, a⟩ :: (l1 ++ l2)).Nodup :=
    List.perm_middle.nodup_iff.1 (hdir ▸ h.nodup)
  unfold removeProcEntry
  rw [herase]
  refine ⟨fun e => ?_, (List.nodup_cons.1 hnodup).2, fun b c hb hc => ?_⟩
  · have hall : e ∈ dir ↔ e = ⟨name a, a⟩ ∨ e ∈ l1 ++ l2 := by
      rw [hdir, List.perm_middle.mem_iff, List.mem_cons]
    rw [hfiled]
    constructor
    · intro he
      obtain ⟨hd, hn⟩ := (h.mem e).1 (hall.2 (.inr he))
      refine ⟨⟨fun hea => ?_, hd⟩, hn⟩
      have heq := h.eq_of_name ha (hall.2 (.inr he)) (hn.trans (by rw [hea]))
      exact (List.nodup_cons.1 hnodup).1 (heq ▸ he)
    · rintro ⟨⟨hne, hd⟩, hn⟩
      refine (hall.1 ((h.mem e).2 ⟨hd, hn⟩)).resolve_left ?_
      rintro rfl
      exact hne rfl
  · exact h.distinct b c ((hfiled b).1 hb).2 ((hfiled c).1 hc).2

theorem filter_eq (h : Filing filed name dir) {a : Addr} (ha : filed a) :
    dir.filter (fun e => e.data = a) = [⟨name a, a⟩] := by
  refine List.perm_singleton.1 ((List.perm_ext_iff_of_nodup (h.nodup.filter _)
    (List.nodup_singleton _)).2 fun e => ?_)
  rw [List.mem_filter, List.mem_singleton, decide_eq_true_iff, h.mem e]
  constructor
  · rintro ⟨⟨-, hn⟩, rfl⟩
    obtain ⟨n, d⟩ := e
    exact congrArg (fun n => ProcEntry.mk n d) hn
  · rintro rfl
    exact ⟨⟨ha, rfl⟩, rfl⟩

end Filing

/-! ## Runs -/

/-- The invariant of runs that keep names apart. -/
structure Procfs.Kept (w : Procfs) : Prop where
  stack : Stack w.state (w.pending ++ w.freed)
  filing : Filing w.Filed w.state.name w.dir
  built : ∀ a ∈ w.pending ++ w.freed, w.state.factory a ≠ none
  once : (w.pending ++ w.freed).Nodup

namespace Procfs.Kept

variable {w : Procfs}

theorem init (online : OnlineCpus) : (Procfs.init online).Kept where
  stack := Stack.init online
  filing := by
    refine ⟨fun e => ⟨nofun, fun h => ?_⟩, List.nodup_nil, fun a b ha => ?_⟩
    · cases h.1.1
    · cases ha.1
  built := nofun
  once := List.nodup_nil

theorem sane (h : w.Kept) : w.Sane where
  data := by
    intro e he
    obtain ⟨⟨hproc, hfreed⟩, -⟩ := (h.filing.mem e).1 he
    exact ⟨ne_none_of_any hproc, hfreed⟩
  entry := fun _ ha => h.filing.filter_eq ha

theorem next_not_gone (h : w.Kept) : w.state.nextFblock ∉ w.pending ++ w.freed := fun hmem =>
  h.built _ hmem (h.stack.fresh _ le_rfl)

/-- References to blocks without a factory. -/
theorem addRefs (h : w.Kept) {δ : Addr → ℤ} (hδ : ∀ a, w.state.factory a ≠ none → δ a = 0) :
    (w.after (w.state.addRefs δ)).Kept := by
  have hafter : w.after (w.state.addRefs δ) = { w with state := w.state.addRefs δ } := by
    have hnew : newReleases w.state (w.state.addRefs δ) = [] := newReleases_self w.state
    unfold Procfs.after
    rw [hnew]
    rfl
  rw [hafter]
  exact ⟨h.stack.addRefs hδ, h.filing, h.built, h.once⟩

/-- A block is released; its entry stays. -/
theorem released (h : w.Kept) {t : State} {a : Addr} {f : Factory}
    (hrel : t.released = w.state.released) (ha : a ∉ w.pending ++ w.freed)
    (hf : w.state.factory a ≠ none) (hfac : (t.release a f).factory = w.state.factory)
    (hname : ∀ b, w.Filed b → (t.release a f).name b = w.state.name b)
    (hstack : Stack (t.release a f) (a :: (w.pending ++ w.freed))) :
    (w.after (t.release a f)).Kept := by
  have hafter : w.after (t.release a f) =
      { w with state := t.release a f, pending := a :: w.pending } := by
    unfold Procfs.after
    rw [newReleases_release hrel]
    rfl
  rw [hafter]
  refine ⟨hstack, h.filing.congr (fun b => ?_) hname, fun b hb => ?_, List.nodup_cons.2 ⟨ha, h.once⟩⟩
  · unfold Procfs.Filed
    rw [hfac]
  · show (t.release a f).factory b ≠ none
    rw [hfac]
    obtain rfl | hb := List.mem_cons.1 hb
    · exact hf
    · exact h.built b hb

theorem rm (h : w.Kept) (n : Name) : (w.after (userctlRemove w.state n).2).Kept := by
  obtain heq | ⟨a, f, ha, hf, heq⟩ := h.stack.remove_cases n
  · rw [heq, ← addRefs_zero w.state]
    exact h.addRefs fun _ _ => rfl
  · have hfa := ne_none_of_eq hf
    have hmap := h.stack.of_lookup ha
    have ht := removed_release h.stack.wf a f
    have hrel : (unregisterFblockNamespaceNoRcu w.state a).released = w.state.released := by
      obtain ⟨t, m, hu⟩ := unregisterNoRcu_frame w.state a
      rw [hu]
    rw [heq]
    exact h.released hrel (h.stack.registered _ a hmap hfa).2.2 hfa ht.factory
      (fun b _ => congrFun ht.name b) (h.stack.removed hmap hfa ht)

theorem replace (h : w.Kept) (n1 n2 : Name) (dropPriv : Bool) (al : Alloc)
    (hok : (ProcAct.replace n1 n2 dropPriv al).KeepsNames w) :
    (w.after (userctlReplace al w.state n1 n2 dropPriv).2).Kept := by
  obtain ⟨δ, hδ, heq⟩ | ⟨fb1, fb2, f1, f2, h1, h2, hf1, hf2, hne, heq⟩ :=
    h.stack.replace_cases al n1 n2 dropPriv
  · rw [heq]
    exact h.addRefs hδ
  · have hproc : ¬ (w.state.factory fb2).any Factory.proc = true := by
      have hok' : w.state.lookup n1 ≠ w.state.lookup n2 → _ := hok
      rw [h1, h2, Option.bind_some, Option.bind_some, hf1] at hok'
      rw [hok' (fun he => hne (Option.some.inj he).symm) rfl]
      exact Bool.false_ne_true
    have hfb1 := ne_none_of_eq hf1
    have hmap1 := h.stack.of_lookup h1
    have hmap2 := h.stack.of_lookup h2
    have ht := superseded_release h.stack.wf (h.stack.short fb1) fb2 (exchanges f1 f2 dropPriv)
      (if al.radix then some fb2 else none) f1
    have hentry : ∀ a, (if al.radix then some fb2 else none) = some a → a = fb2 := by
      intro a ha
      split_ifs at ha
      exact (Option.some.inj ha).symm
    have hrel : (unregisterFblockNamespaceNoRcu w.state fb2).released = w.state.released := by
      obtain ⟨t, m, hu⟩ := unregisterNoRcu_frame w.state fb2
      rw [hu]
    rw [heq]
    refine h.released hrel (h.stack.registered _ fb1 hmap1 hfb1).2.2 hfb1 ht.factory (fun b hb => ?_)
      (h.stack.superseded hmap1 hmap2 hfb1 (ne_none_of_eq hf2) hne hproc hentry ht)
    have hb2 : b ≠ fb2 := by
      rintro rfl
      exact hproc hb.1
    rw [ht.name, Function.update_of_ne hb2]

/-- No block that keeps an entry has a name that the namespace does not know, unless it waits to be
freed. -/
theorem name_ne (h : w.Kept) {n : CStr} (hn : w.state.registry.names n = none) {b : Addr}
    (hb : w.Filed b) (hpending : b ∉ w.pending) : w.state.name b ≠ n := by
  have hgone : b ∉ w.pending ++ w.freed := fun hmem =>
    (List.mem_append.1 hmem).elim hpending hb.2
  obtain ⟨hname, -⟩ := h.stack.registered _ b (h.stack.entered b hb.1 hgone) (ne_none_of_any hb.1)
  rintro rfl
  cases hn.symm.trans hname

theorem next_not_filed (h : w.Kept) : ¬ w.Filed w.state.nextFblock := fun hF =>
  ne_none_of_any hF.1 (h.stack.fresh _ le_rfl)

/-- The filed blocks are the old ones and, with an entry, the new one. -/
theorem filed_built (h : w.Kept) (f : Factory) (b : Addr) :
    ((Function.update w.state.factory w.state.nextFblock (some f) b).any Factory.proc = true ∧
      b ∉ w.freed) ↔ b = w.state.nextFblock ∧ f.proc = true ∨ w.Filed b := by
  by_cases hb : b = w.state.nextFblock
  · have hfreed : b ∉ w.freed := fun hmem =>
      h.next_not_gone (List.mem_append_right _ (hb ▸ hmem))
    have hF : ¬ w.Filed b := hb ▸ h.next_not_filed
    rw [hb, Function.update_self, ← hb]
    exact ⟨fun hp => .inl ⟨rfl, hp.1⟩, fun hp => ⟨(hp.resolve_right hF).2, hfreed⟩⟩
  · rw [Function.update_of_ne hb]
    exact ⟨.inr, fun hF => hF.resolve_left fun hl => hb hl.1⟩

/-- A block that was built and its entry. -/
theorem built_entry (h : w.Kept) {f : Factory} {al : Alloc} {name : Name} {fb : Addr} {t : State}
    (hc : f.ctor al w.state name = (some fb, t))
    (hok : f.proc = true → ∀ a ∈ w.pending, w.Filed a → w.state.name a ≠ name) :
    ({ w with
      state := { t with factory := Function.update t.factory fb (some f) }
      dir := w.dirAfter f name (some fb) } : Procfs).Kept := by
  rw [Factory.ctor_eq] at hc
  obtain ⟨rfl, ht⟩ := enrolled_of_fbCtor h.stack.wf hc
  rw [strlcpy_of_lt name.2] at ht
  have hstack := h.stack.enrolled ht f h.next_not_gone
  rw [ht.factory] at hstack ⊢
  have hkeep : ∀ b, w.Filed b → t.name b = w.state.name b := fun b hb =>
    (ht.keep b fun heq => h.next_not_filed (heq ▸ hb)).1
  refine ⟨hstack, ?_, fun a ha => ?_, h.once⟩
  · show Filing _ t.name (if f.proc then _ else _)
    rw [strlcpy_of_lt name.2]
    cases hp : f.proc
    · refine h.filing.congr (fun b => (h.filed_built f b).trans ?_) hkeep
      rw [hp]
      exact ⟨fun hF => hF.resolve_left fun hl => Bool.false_ne_true hl.2, .inr⟩
    · refine h.filing.create h.next_not_filed (fun b hb => ?_)
        (fun b => (h.filed_built f b).trans ?_) ht.name hkeep
      · by_cases hpending : b ∈ w.pending
        · exact hok hp b hpending hb
        · exact h.name_ne ht.free hb hpending
      · rw [hp, and_iff_left rfl]
  · show Function.update w.state.factory w.state.nextFblock (some f) a ≠ none
    rw [Function.update_of_ne (ne_of_mem_of_not_mem ha h.next_not_gone)]
    exact h.built a ha

theorem add (h : w.Kept) (name : Name) (type : CStr) (al : Alloc)
    (hok : (ProcAct.add name type al).KeepsNames w) : (w.userctlAdd al name type).Kept := by
  unfold Procfs.userctlAdd
  rcases hl : w.state.lookup name with _ | a
  swap
  · rw [searchFblockN_some hl]
    dsimp only
    rw [h.stack.get_put hl, ← addRefs_zero w.state]
    exact h.addRefs fun _ _ => rfl
  rw [searchFblockN_none hl]
  show (w.buildFblockObject al type name).Kept
  unfold Procfs.buildFblockObject
  rcases hg : critbitGet Factory.type fbmap type with _ | f
  · exact h
  dsimp only
  rcases hc : f.ctor al w.state name with ⟨_ | fb, t⟩
  · rw [ctor_eq hc]
    rw [Factory.ctor_eq] at hc
    have hraised := raised_of_fbCtor h.stack.wf h.stack.short hc
    refine ⟨h.stack.raised hraised, h.filing.congr (fun b => ?_) (fun b hb => ?_), fun a ha => ?_,
      h.once⟩
    · unfold Procfs.Filed
      rw [hraised.factory]
    · exact (hraised.keep b (h.stack.ne_next (ne_none_of_any hb.1))).1
    · show t.factory a ≠ none
      rw [hraised.factory]
      exact h.built a ha
  · rw [ctor_eq hc]
    refine h.built_entry hc fun hp => ?_
    have hok' : (critbitGet Factory.type fbmap type).any Factory.proc = true → _ := hok
    rw [hg] at hok'
    exact hok' hp

theorem free (h : w.Kept) {a : Addr} (ha : a ∈ w.pending) : (w.freeFblockRcu a).Kept := by
  have hperm : (w.pending.erase a ++ a :: w.freed).Perm (w.pending ++ w.freed) :=
    List.perm_middle.trans ((List.perm_cons_erase ha).symm.append_right w.freed)
  have hfreed : a ∉ w.freed := fun hmem =>
    (List.nodup_append.1 h.once).2.2 a ha a hmem rfl
  refine ⟨h.stack.congr_gone fun b => hperm.mem_iff, ?_, fun b hb => h.built b (hperm.mem_iff.1 hb),
    hperm.nodup_iff.2 h.once⟩
  have hfiled : ∀ b, (w.freeFblockRcu a).Filed b ↔ b ≠ a ∧ w.Filed b := by
    intro b
    show _ ∧ b ∉ a :: w.freed ↔ _
    rw [List.mem_cons, not_or]
    exact ⟨fun ⟨hp, hne, hf⟩ => ⟨hne, hp, hf⟩, fun ⟨hne, hp, hf⟩ => ⟨hp, hne, hf⟩⟩
  show Filing _ w.state.name (if (w.state.factory a).any Factory.proc then _ else _)
  cases hp : (w.state.factory a).any Factory.proc
  · refine h.filing.congr (fun b => (hfiled b).trans ⟨And.right, fun hb => ⟨?_, hb⟩⟩) fun _ _ => rfl
    rintro rfl
    exact Bool.false_ne_true (hp.symm.trans hb.1)
  · exact h.filing.remove ⟨hp, hfreed⟩ hfiled

theorem step (h : w.Kept) (act : ProcAct) (hok : act.KeepsNames w) : (act.step w).Kept := by
  cases act with
  | add name type al => exact h.add name type al hok
  | rm name => exact h.rm name
  | replace name1 name2 dropPriv al => exact h.replace name1 name2 dropPriv al hok
  | free a =>
    simp only [ProcAct.step]
    split_ifs with ha
    · exact h.free ha
    · exact h

end Procfs.Kept

/-- **Entries in procfs.**  In a run in which no counter or bpf block takes the place of another
block or the name of one that waits to be freed, every entry has a block that is not freed, and
every counter and bpf block that is not freed has one entry, under its current name. -/
theorem procfs_entries (online : OnlineCpus) (acts : List ProcAct)
    (h : Transition.Allowed ProcAct.step (fun w act => act.KeepsNames w) (Procfs.init online) acts) :
    (acts.foldl ProcAct.step (Procfs.init online)).Sane :=
  (Transition.invariant_of_allowed (I := Procfs.Kept) (fun _ act hw hok => hw.step act hok)
    (Procfs.Kept.init online) h).sane

/-- A counter is replaced by a tee, and its name is used again once the tee is gone. -/
def procRun : List ProcAct :=
  [.add nameA Factory.counter.type {}, .add nameB Factory.tee.type {}, .replace nameA nameB false {},
    .free 0, .rm nameA, .free 1, .add nameA Factory.bpf.type {}]

theorem procfs_entries_reused : (procRun.foldl ProcAct.step (Procfs.init oneCpu)).Sane :=
  procfs_entries oneCpu procRun (by decide)

/-- A counter takes the place of another one and is removed. -/
def staleRun : List ProcAct :=
  [.add nameA Factory.counter.type {}, .add nameB Factory.counter.type {},
    .replace nameA nameB false {}, .free 0, .rm nameA, .free 1]

/-- The name of a counter is used again before the callback of the first one. -/
def reusedRun : List ProcAct :=
  [.add nameA Factory.counter.type {}, .rm nameA, .add nameA Factory.counter.type {}, .free 0]

/-- Both runs leave the file of a block that has been freed. -/
theorem procfs_stale :
    let v := staleRun.foldl ProcAct.step (Procfs.init oneCpu)
    let w := reusedRun.foldl ProcAct.step (Procfs.init oneCpu)
    (v.dir = [⟨nameB, 1⟩] ∧ 1 ∈ v.freed ∧ ¬ v.Sane) ∧
      w.dir = [⟨nameA, 0⟩] ∧ 0 ∈ w.freed ∧ ¬ w.Sane := by
  intro v w
  have hv : v.dir = [⟨nameB, 1⟩] ∧ 1 ∈ v.freed := by decide
  have hw : w.dir = [⟨nameA, 0⟩] ∧ 0 ∈ w.freed := by decide
  refine ⟨⟨hv.1, hv.2, fun h => ?_⟩, hw.1, hw.2, fun h => ?_⟩
  · exact (h.data ⟨nameB, 1⟩ (hv.1 ▸ List.mem_singleton_self _)).2 hv.2
  · exact (h.data ⟨nameA, 0⟩ (hw.1 ▸ List.mem_singleton_self _)).2 hw.2

end Lana
