import Mathlib.Data.List.TakeWhile
import Lana.Library.Links
import Lana.Library.Transition
import Lana.Vlink.Subsys

/-!
# Dispatch of vlink messages

`xt_vlink.c` keeps the registered subsystems in a table of 256 slots and the callbacks of each
subsystem in an intrusive list, sorted by priority.  After any sequence of calls in which a callback
is added only while it is in no list, the table and the lists are in order and a message runs the
callbacks it is for (`vlink_dispatch`).

The loops over lists are given a number of steps.  A run with as many steps for each loop as there
are calls has enough.
-/

namespace Lana

open Links

/-! ## The code -/

/-- `MAX_VLINK_SUBSYSTEMS`. -/
def maxVlinkSubsystems : ℕ := 256

/-- A slot of `vlink_subsystem_table`. -/
abbrev Slot := Fin maxVlinkSubsystems

/-- `vlink_subsystem_table`, the field `id` of the subsystems, and the pointers `n->head` and
`cb->next`. -/
structure VlinkSystem (ν κ : Type*) where
  table : Slot → Option ν
  id : ν → ℕ
  links : Mem ν κ

namespace VlinkSystem

variable {ν κ σ : Type*} [DecidableEq ν] [DecidableEq κ]

def init : VlinkSystem ν κ := { table := fun _ => none, id := fun _ => 0, links := fun _ => none }

/-- The loop of `vlink_subsys_register`; `slot` is the first free slot passed. -/
def registerLoop (type : ν → UInt16) (table : Slot → Option ν) (n : ν) :
    List Slot → Option Slot → Except Errno (Option Slot)
  | [], slot => .ok slot
  | i :: rest, slot =>
    match table i with
    | none => if slot = none then registerLoop type table n rest (some i)
      else registerLoop type table n rest slot
    | some vs => if type n = type vs then .error .EBUSY else registerLoop type table n rest slot

/-- `vlink_subsys_register`. -/
def vlinkSubsysRegister (type : ν → UInt16) (w : VlinkSystem ν κ) :
    Option ν → Ret × VlinkSystem ν κ
  | none => (.err .EINVAL, w)
  | some n =>
    match registerLoop type w.table n (List.finRange maxVlinkSubsystems) none with
    | .error e => (.err e, w)
    | .ok none => (.err .ENOMEM, w)
    | .ok (some slot) =>
      (.ok, { w with
        id := Function.update w.id n slot
        table := Function.update w.table slot (some n) })

/-- `vlink_subsys_unregister`. -/
def vlinkSubsysUnregister (w : VlinkSystem ν κ) : Option ν → VlinkSystem ν κ
  | none => w
  | some n =>
    match (List.finRange maxVlinkSubsystems).find?
      fun i => decide (w.table i = some n ∧ (i : ℕ) = w.id n) with
    | none => w
    | some i =>
      { w with table := Function.update w.table i none, id := Function.update w.id n 0 }

/-- `__vlink_subsys_find`. -/
def vlinkSubsysFind (type : ν → UInt16) (w : VlinkSystem ν κ) (t : UInt16) : Option ν :=
  (List.finRange maxVlinkSubsystems).findSome? fun i => (w.table i).filter fun n => type n = t

/-- `vlink_add_callback`. -/
def vlinkAddCallback (priority : κ → ℤ) (steps : ℕ) (w : VlinkSystem ν κ) :
    Option ν → Option κ → Option (Ret × VlinkSystem ν κ)
  | some n, some cb =>
    (Links.walk w.links (fun hb => priority cb > priority hb) steps (.head n)).map fun hb =>
      (.ok, { w with links := Links.insert w.links hb cb })
  | _, _ => some (.err .EINVAL, w)

/-- `vlink_rm_callback`. -/
def vlinkRmCallback (steps : ℕ) (w : VlinkSystem ν κ) :
    Option ν → Option κ → Option (Ret × VlinkSystem ν κ)
  | some n, some cb =>
    (Links.walk w.links (fun hb => hb = cb) steps (.head n)).map fun hb =>
      if w.links hb = none then (.err .ENOENT, w)
      else (.ok, { w with links := Links.remove w.links hb cb })
  | _, _ => some (.err .EINVAL, w)

/-- The second loop of `vlink_subsys_unregister_batch`, for at most `k` rounds. -/
def rmCallbacks (steps : ℕ) (n : ν) : ℕ → VlinkSystem ν κ → Option (VlinkSystem ν κ)
  | 0, w => if w.links (.head n) = none then some w else none
  | k + 1, w =>
    if w.links (.head n) = none then some w
    else (w.vlinkRmCallback steps (some n) (w.links (.head n))).bind fun r =>
      rmCallbacks steps n k r.2

/-- `vlink_subsys_unregister_batch`. -/
def vlinkSubsysUnregisterBatch (steps : ℕ) (w : VlinkSystem ν κ) :
    Option ν → Option (VlinkSystem ν κ)
  | none => some w
  | some n => rmCallbacks steps n steps (w.vlinkSubsysUnregister (some n))

/-- The loop of `__vlink_invoke`; `ret` is the result of the callback before. -/
def vlinkInvoke (rx : κ → VlinkMsg → σ → UInt32 × σ) (vmsg : VlinkMsg) (links : Mem ν κ) :
    ℕ → Option κ → UInt32 → Owned σ → Option (UInt32 × Owned σ)
  | _, none, ret, s => some (ret, s)
  | 0, some _, _, _ => none
  | k + 1, some hb, _, s =>
    let hn := links (.next hb)
    let (ret, state) := rx hb vmsg s.state
    if ret &&& vlinkRxEmerg = vlinkRxEmerg then some (ret, { s with state := state })
    else if ret &&& vlinkRxStop = vlinkRxStop then some (ret, ⟨s.pins + vmsg.cmd.pin, state⟩)
    else vlinkInvoke rx vmsg links k hn ret { s with state := state }

end VlinkSystem

/-- The result of `__vlink_rcv`. -/
inductive VlinkRcv where
  | eperm
  | einval
  | ret (r : UInt32)
  deriving DecidableEq

/-- A netlink message: what `__vlink_rcv` looks at. -/
structure NlMsg where
  /-- `security_netlink_recv` lets the sender pass. -/
  admin : Bool
  len : ℕ
  type : UInt16
  vmsg : VlinkMsg

/-- `NLMSG_LENGTH(sizeof(struct vlinknlmsg))`. -/
def vlinkNlmsgLength : ℕ := 16 + 40

namespace VlinkSystem

variable {ν κ σ : Type*} [DecidableEq ν] [DecidableEq κ]

/-- `__vlink_rcv`; `pins` are the references to the owners of the subsystems. -/
def vlinkRcv (type : ν → UInt16) (rx : κ → VlinkMsg → σ → UInt32 × σ) (steps : ℕ)
    (w : VlinkSystem ν κ) (nlh : NlMsg) (pins : ν → ℤ) (s : σ) :
    Option (VlinkRcv × (ν → ℤ) × σ) :=
  if !nlh.admin then some (.eperm, pins, s)
  else if nlh.len < vlinkNlmsgLength then some (.ret 0, pins, s)
  else
    match w.vlinkSubsysFind type nlh.type with
    | none => some (.einval, pins, s)
    | some sys =>
      (vlinkInvoke rx nlh.vmsg w.links steps (w.links (.head sys)) 0 ⟨pins sys, s⟩).map
        fun r => (.ret r.1, Function.update pins sys r.2.pins, r.2.state)

end VlinkSystem

/-- The calls of the vlink types. -/
inductive VlinkCall (ν κ : Type*) where
  | register (n : Option ν)
  | unregister (n : Option ν)
  | unregisterBatch (n : Option ν)
  | addCallback (n : Option ν) (cb : Option κ)
  | rmCallback (n : Option ν) (cb : Option κ)

namespace VlinkCall

variable {ν κ : Type*} [DecidableEq ν] [DecidableEq κ]

def exec (type : ν → UInt16) (priority : κ → ℤ) (steps : ℕ) (w : VlinkSystem ν κ) :
    VlinkCall ν κ → Option (VlinkSystem ν κ)
  | .register n => some (w.vlinkSubsysRegister type n).2
  | .unregister n => some (w.vlinkSubsysUnregister n)
  | .unregisterBatch n => w.vlinkSubsysUnregisterBatch steps n
  | .addCallback n cb => (w.vlinkAddCallback priority steps n cb).map Prod.snd
  | .rmCallback n cb => (w.vlinkRmCallback steps n cb).map Prod.snd

/-- A sequence of calls. -/
def runCalls (type : ν → UInt16) (priority : κ → ℤ) (steps : ℕ) :
    VlinkSystem ν κ → List (VlinkCall ν κ) → Option (VlinkSystem ν κ)
  | w, [] => some w
  | w, c :: cs => (c.exec type priority steps w).bind fun w => runCalls type priority steps w cs

/-- The callbacks added to each subsystem and not removed, in order of addition. -/
def track (added : ν → List κ) : VlinkCall ν κ → ν → List κ
  | .addCallback (some n) (some cb) => Function.update added n (added n ++ [cb])
  | .rmCallback (some n) (some cb) => Function.update added n ((added n).erase cb)
  | .unregisterBatch (some n) => Function.update added n []
  | _ => added

/-- A callback is added only while it is in no list. -/
def Unlinked (added : ν → List κ) : VlinkCall ν κ → Prop
  | .addCallback (some _) (some cb) => ∀ n, cb ∉ added n
  | _ => True

instance [Fintype ν] (added : ν → List κ) (c : VlinkCall ν κ) : Decidable (c.Unlinked added) := by
  unfold Unlinked
  split <;> infer_instance

end VlinkCall

/-! ## Priorities -/

/-- The list `l` holds the callbacks `added`, higher priorities first and equal ones in order of
addition. -/
structure ByPriority {κ : Type*} (priority : κ → ℤ) (added l : List κ) : Prop where
  perm : l.Perm added
  sorted : l.Pairwise fun a b => priority b ≤ priority a
  stable : ∀ p, (l.filter fun c => priority c = p) = added.filter fun c => priority c = p

section Priorities

variable {κ : Type*} {priority : κ → ℤ} {added l : List κ}

theorem ByPriority.nil : ByPriority priority [] [] where
  perm := .refl _
  sorted := .nil
  stable := fun _ => rfl

/-- `__vlink_add_callback` finds its place behind the callbacks of at least the same priority. -/
theorem vlinkAddCallback_eq (priority : κ → ℤ) (l : List κ) (cb : κ) :
    vlinkAddCallback priority l cb =
      (l.takeWhile fun hb => !decide (priority cb > priority hb)) ++
        cb :: l.dropWhile fun hb => !decide (priority cb > priority hb) := by
  induction l with
  | nil => rfl
  | cons hb l ih =>
    unfold vlinkAddCallback
    split_ifs with h
    · rw [List.takeWhile_cons_of_neg (by simpa using h), List.dropWhile_cons_of_neg (by simpa using h)]
      rfl
    · rw [List.takeWhile_cons_of_pos (by simpa using h), List.dropWhile_cons_of_pos (by simpa using h),
        ih]
      rfl

theorem vlinkAddCallback_perm (priority : κ → ℤ) (l : List κ) (cb : κ) :
    (vlinkAddCallback priority l cb).Perm (cb :: l) := by
  rw [vlinkAddCallback_eq]
  refine List.perm_middle.trans ?_
  rw [List.takeWhile_append_dropWhile]

theorem vlinkAddCallback_sorted (hl : l.Pairwise fun a b => priority b ≤ priority a) (cb : κ) :
    (vlinkAddCallback priority l cb).Pairwise fun a b => priority b ≤ priority a := by
  induction l with
  | nil => exact List.pairwise_singleton ..
  | cons hb l ih =>
    obtain ⟨hhb, hl⟩ := List.pairwise_cons.1 hl
    unfold vlinkAddCallback
    split_ifs with h
    · refine List.pairwise_cons.2 ⟨fun c hc => ?_, List.pairwise_cons.2 ⟨hhb, hl⟩⟩
      obtain rfl | hc := List.mem_cons.1 hc
      · exact h.le
      · exact (hhb c hc).trans h.le
    · refine List.pairwise_cons.2 ⟨fun c hc => ?_, ih hl⟩
      obtain rfl | hc := List.mem_cons.1 ((vlinkAddCallback_perm priority l cb).mem_iff.1 hc)
      · exact not_lt.1 h
      · exact hhb c hc

/-- Among the callbacks of one priority the new one comes last. -/
theorem vlinkAddCallback_stable (hl : l.Pairwise fun a b => priority b ≤ priority a) (cb : κ)
    (p : ℤ) : ((vlinkAddCallback priority l cb).filter fun c => priority c = p) =
      (l ++ [cb]).filter fun c => priority c = p := by
  induction l with
  | nil => rfl
  | cons hb l ih =>
    obtain ⟨hhb, hl⟩ := List.pairwise_cons.1 hl
    unfold vlinkAddCallback
    split_ifs with h
    · rw [List.filter_append]
      by_cases hp : priority cb = p
      · -- the callbacks behind the new one have lower priorities
        have hnil : ((hb :: l).filter fun c => priority c = p) = [] := by
          refine List.filter_eq_nil_iff.2 fun c hc => ?_
          have hlt : priority c < priority cb := by
            obtain rfl | hc := List.mem_cons.1 hc
            · exact h
            · exact (hhb c hc).trans_lt h
          rw [decide_eq_true_iff]
          exact fun heq => hlt.ne (heq.trans hp.symm)
        rw [List.filter_cons_of_pos (by simpa using hp), hnil,
          List.filter_cons_of_pos (by simpa using hp)]
        rfl
      · have hnil : ([cb].filter fun c => priority c = p) = [] :=
          List.filter_cons_of_neg (by simpa using hp)
        rw [List.filter_cons_of_neg (by simpa using hp), hnil, List.append_nil]
    · rw [List.cons_append, List.filter_cons, List.filter_cons, ih hl]

theorem ByPriority.add (h : ByPriority priority added l) (cb : κ) :
    ByPriority priority (added ++ [cb]) (vlinkAddCallback priority l cb) where
  perm := (vlinkAddCallback_perm priority l cb).trans
    ((h.perm.cons cb).trans (List.perm_append_singleton cb added).symm)
  sorted := vlinkAddCallback_sorted h.sorted cb
  stable := by
    intro p
    rw [vlinkAddCallback_stable h.sorted, List.filter_append, List.filter_append, h.stable]

theorem ByPriority.rm [DecidableEq κ] (h : ByPriority priority added l) (hl : l.Nodup) (cb : κ) :
    ByPriority priority (added.erase cb) (l.erase cb) where
  perm := h.perm.erase cb
  sorted := h.sorted.sublist List.erase_sublist
  stable := by
    intro p
    have hadded : added.Nodup := h.perm.nodup_iff.1 hl
    rw [hl.erase_eq_filter, hadded.erase_eq_filter, List.filter_filter, List.filter_filter]
    simp only [Bool.and_comm]
    rw [← List.filter_filter, ← List.filter_filter, h.stable]

end Priorities

namespace VlinkSystem

variable {ν κ σ : Type*} {type : ν → UInt16} {priority : κ → ℤ} {w : VlinkSystem ν κ}
  {ls : ν → List κ} {n : ν} {cb : κ} {steps : ℕ}

/-! ## The table -/

/-- No two slots hold subsystems of one type, and a held subsystem has the number of its slot. -/
structure Slotted (type : ν → UInt16) (w : VlinkSystem ν κ) : Prop where
  types : ∀ i j n m, w.table i = some n → w.table j = some m → type n = type m → i = j
  ids : ∀ i n, w.table i = some n → w.id n = i

theorem registerLoop_ok {table : Slot → Option ν} {is : List Slot} {slot r : Option Slot}
    (h : registerLoop type table n is slot = .ok r) :
    (∀ i ∈ is, ∀ m, table i = some m → type n ≠ type m) ∧
      (r = slot ∨ ∃ i, r = some i ∧ table i = none) := by
  induction is generalizing slot with
  | nil =>
    cases h
    exact ⟨nofun, .inl rfl⟩
  | cons i is ih =>
    unfold registerLoop at h
    rcases hi : table i with _ | vs
    · rw [hi] at h
      dsimp only at h
      have hfree : ∀ m, table i = some m → type n ≠ type m := by
        intro m hm
        cases hi.symm.trans hm
      split_ifs at h with hslot
      · obtain ⟨htypes, hr⟩ := ih h
        refine ⟨List.forall_mem_cons.2 ⟨hfree, htypes⟩, .inr ?_⟩
        obtain rfl | hr := hr
        · exact ⟨i, rfl, hi⟩
        · exact hr
      · obtain ⟨htypes, hr⟩ := ih h
        exact ⟨List.forall_mem_cons.2 ⟨hfree, htypes⟩, hr⟩
    · rw [hi] at h
      dsimp only at h
      split_ifs at h with htype
      obtain ⟨htypes, hr⟩ := ih h
      refine ⟨List.forall_mem_cons.2 ⟨fun m hm => ?_, htypes⟩, hr⟩
      obtain rfl := Option.some.inj (hi.symm.trans hm)
      exact htype

theorem Slotted.init (type : ν → UInt16) : Slotted type (VlinkSystem.init : VlinkSystem ν κ) where
  types := by
    intro i j n m h
    cases h
  ids := by
    intro i n h
    cases h

/-- The search finds the one subsystem of a type. -/
theorem vlinkSubsysFind_eq_some (h : Slotted type w) {i : Slot} (hi : w.table i = some n) :
    w.vlinkSubsysFind type (type n) = some n := by
  unfold vlinkSubsysFind
  rcases hf : (List.finRange maxVlinkSubsystems).findSome? fun i =>
      (w.table i).filter fun m => type m = type n with _ | m
  · have hnone := List.findSome?_eq_none_iff.1 hf i (List.mem_finRange i)
    rw [hi] at hnone
    simp at hnone
  · obtain ⟨j, -, hj⟩ := List.exists_of_findSome?_eq_some hf
    obtain ⟨hj, hm⟩ := Option.filter_eq_some_iff.1 hj
    obtain rfl := h.types j i m n hj hi (of_decide_eq_true hm)
    exact hj.symm.trans hi

theorem vlinkSubsysFind_eq_none {t : UInt16} (h : ∀ i m, w.table i = some m → type m ≠ t) :
    w.vlinkSubsysFind type t = none := by
  unfold vlinkSubsysFind
  refine List.findSome?_eq_none_iff.2 fun i _ => ?_
  rw [Option.filter_eq_none_iff]
  intro m hm
  simpa using h i m hm

section Slots

variable [DecidableEq ν]

theorem Slotted.register (h : Slotted type w) (n : Option ν) :
    Slotted type (w.vlinkSubsysRegister type n).2 ∧
      (w.vlinkSubsysRegister type n).2.links = w.links := by
  rcases n with _ | n
  · exact ⟨h, rfl⟩
  unfold vlinkSubsysRegister
  dsimp only
  split
  · exact ⟨h, rfl⟩
  · exact ⟨h, rfl⟩
  · rename_i slot hloop
    refine ⟨?_, rfl⟩
    obtain ⟨htypes, -⟩ := registerLoop_ok hloop
    have hother : ∀ i m, w.table i = some m → type n ≠ type m := fun i =>
      htypes i (List.mem_finRange i)
    refine ⟨fun i j a b hi hj hab => ?_, fun i m hi => ?_⟩
    · change Function.update w.table slot (some n) i = some a at hi
      change Function.update w.table slot (some n) j = some b at hj
      rw [Function.update_apply] at hi hj
      split_ifs at hi hj with hi' hj' hj'
      · exact hi'.trans hj'.symm
      · obtain rfl := Option.some.inj hi
        exact absurd hab (hother j b hj)
      · obtain rfl := Option.some.inj hj
        exact absurd hab.symm (hother i a hi)
      · exact h.types i j a b hi hj hab
    · change Function.update w.table slot (some n) i = some m at hi
      show Function.update w.id n (slot : ℕ) m = i
      rw [Function.update_apply] at hi
      split_ifs at hi with hi'
      · obtain rfl := Option.some.inj hi
        rw [Function.update_self, hi']
      · have hne : m ≠ n := by
          rintro rfl
          exact hother i m hi rfl
        rw [Function.update_of_ne hne]
        exact h.ids i m hi

theorem Slotted.unregister (h : Slotted type w) (n : Option ν) :
    Slotted type (w.vlinkSubsysUnregister n) ∧ (w.vlinkSubsysUnregister n).links = w.links := by
  rcases n with _ | n
  · exact ⟨h, rfl⟩
  unfold vlinkSubsysUnregister
  dsimp only
  split
  · exact ⟨h, rfl⟩
  · rename_i slot hfind
    have hslot := List.find?_some hfind
    rw [decide_eq_true_iff] at hslot
    have hrest : ∀ i m, Function.update w.table slot none i = some m →
        i ≠ slot ∧ w.table i = some m := by
      intro i m hi
      rw [Function.update_apply] at hi
      split_ifs at hi with hi'
      exact ⟨hi', hi⟩
    refine ⟨⟨fun i j a b hi hj hab => ?_, fun i m hi => ?_⟩, rfl⟩
    · exact h.types i j a b (hrest i a hi).2 (hrest j b hj).2 hab
    · obtain ⟨hne, hm⟩ := hrest i m hi
      show Function.update w.id n 0 m = i
      have hmn : m ≠ n := by
        rintro rfl
        exact hne (h.types i slot m m hm hslot.1 rfl)
      rw [Function.update_of_ne hmn]
      exact h.ids i m hm

end Slots

/-! ## Lists of callbacks -/

/-- On the list that hangs from the subsystem the loop runs as `__vlink_invoke` on a list. -/
theorem vlinkInvoke_chain {rx : κ → VlinkMsg → σ → UInt32 × σ} {vmsg : VlinkMsg} {loc : Loc ν κ}
    {l : List κ} (h : Chain w.links loc l) {k : ℕ} (hk : l.length ≤ k) (ret : UInt32)
    (s : Owned σ) :
    vlinkInvoke rx vmsg w.links k (w.links loc) ret s = some (Lana.vlinkInvoke rx vmsg l ret s) := by
  induction l generalizing loc k ret s with
  | nil =>
    have hnone : w.links loc = none := h
    rw [hnone]
    simp only [vlinkInvoke, Lana.vlinkInvoke]
  | cons hb l ih =>
    obtain ⟨k, rfl⟩ := Nat.exists_eq_succ_of_ne_zero (Nat.ne_zero_of_lt hk)
    rw [h.1]
    simp only [vlinkInvoke, Lana.vlinkInvoke]
    split_ifs
    · rfl
    · rfl
    · exact ih h.2 (Nat.le_of_succ_le_succ hk) _ _

section Lists

variable [DecidableEq ν] [DecidableEq κ]

theorem vlinkAddCallback_hung (priority : κ → ℤ) (h : Hung w.links ls)
    (hcb : ∀ m, cb ∉ ls m) (hsteps : (ls n).length < steps) :
    ∃ links, w.vlinkAddCallback priority steps (some n) (some cb) =
        some (.ok, { w with links := links }) ∧
      Hung links (Function.update ls n (Lana.vlinkAddCallback priority (ls n) cb)) := by
  simp only [vlinkAddCallback]
  rw [walk_eq (h.chain n) _ hsteps]
  refine ⟨_, rfl, ?_⟩
  rw [Lana.vlinkAddCallback_eq]
  exact h.insert (List.takeWhile_append_dropWhile).symm hcb

theorem vlinkRmCallback_hung (cb : κ) (h : Hung w.links ls) (hsteps : (ls n).length < steps) :
    ∃ r links, w.vlinkRmCallback steps (some n) (some cb) = some (r, { w with links := links }) ∧
      Hung links (Function.update ls n ((ls n).erase cb)) := by
  simp only [vlinkRmCallback]
  rw [walk_eq (h.chain n) _ hsteps, Option.map_some]
  by_cases hcb : cb ∈ ls n
  · obtain ⟨l1, l2, hl1, hls, herase⟩ := List.exists_erase_eq hcb
    have hwhile : ((ls n).takeWhile fun hb => !decide (hb = cb)) = l1 := by
      rw [hls, List.takeWhile_append_of_pos, List.takeWhile_cons_of_neg (by simp), List.append_nil]
      intro c hc
      simpa using ne_of_mem_of_not_mem hc hl1
    have hchain : Chain w.links (behind (.head n) l1) (cb :: l2) :=
      Chain.behind (hls ▸ h.chain n)
    rw [hwhile, if_neg (by rw [hchain.1]; exact Option.some_ne_none cb), herase]
    exact ⟨_, _, rfl, h.remove hls⟩
  · have hwhile : ((ls n).takeWhile fun hb => !decide (hb = cb)) = ls n := by
      refine List.takeWhile_eq_self_iff.2 fun c hc => ?_
      simpa using ne_of_mem_of_not_mem hc hcb
    have hend : w.links (behind (.head n) (ls n)) = none := by
      have hchain := h.chain n
      rw [← List.append_nil (ls n)] at hchain
      exact hchain.behind
    rw [hwhile, if_pos hend, List.erase_of_not_mem hcb, Function.update_eq_self]
    exact ⟨_, _, rfl, h⟩

/-- Every round takes the first callback out, so as many rounds as there are callbacks are
enough. -/
theorem rmCallbacks_hung {k : ℕ} (h : Hung w.links ls) (hsteps : (ls n).length < steps)
    (hk : (ls n).length ≤ k) :
    ∃ links, rmCallbacks steps n k w = some { w with links := links } ∧
      Hung links (Function.update ls n []) := by
  induction k generalizing w ls with
  | zero =>
    have hnil : ls n = [] := List.length_eq_zero_iff.1 (Nat.le_zero.1 hk)
    have hnone : w.links (.head n) = none := by
      have hchain := h.chain n
      rwa [hnil] at hchain
    refine ⟨w.links, if_pos hnone, ?_⟩
    rw [← hnil, Function.update_eq_self]
    exact h
  | succ k ih =>
    unfold rmCallbacks
    have hchain := h.chain n
    rcases hls : ls n with _ | ⟨cb, l⟩
    · rw [hls] at hchain
      refine ⟨w.links, if_pos hchain, ?_⟩
      rw [← hls, Function.update_eq_self]
      exact h
    · rw [hls] at hchain
      have hhead : w.links (.head n) = some cb := hchain.1
      obtain ⟨r, links, hrm, hung⟩ := vlinkRmCallback_hung cb h hsteps
      rw [hls, List.erase_cons_head] at hung
      rw [hls] at hsteps hk
      have hlen : l.length < steps := (Nat.lt_succ_self _).trans hsteps
      obtain ⟨links', hrest, hung'⟩ := ih (w := { w with links := links }) hung
        (by rwa [Function.update_self]) (by rw [Function.update_self]; exact Nat.le_of_succ_le_succ hk)
      rw [hhead, if_neg (Option.some_ne_none cb), hrm]
      rw [Function.update_idem] at hung'
      exact ⟨links', hrest, hung'⟩

end Lists

end VlinkSystem

/-! ## What a message runs -/

/-- The result has the bits of `EMERG` or of `STOP`. -/
def EndsWalk (ret : UInt32) : Prop :=
  ret &&& vlinkRxEmerg = vlinkRxEmerg ∨ ret &&& vlinkRxStop = vlinkRxStop

section Messages

variable {κ σ : Type*} {rx : κ → VlinkMsg → σ → UInt32 × σ} {vmsg : VlinkMsg} {s : σ}
  {l : List κ}

/-- The state after the callbacks `l` have run. -/
def stateAfter (rx : κ → VlinkMsg → σ → UInt32 × σ) (vmsg : VlinkMsg) (l : List κ) (s : σ) : σ :=
  l.foldl (fun s cb => (rx cb vmsg s).2) s

/-- The callbacks `ran` are those of `l` up to and including the first one whose result ends the
walk. -/
structure RunsUpTo (rx : κ → VlinkMsg → σ → UInt32 × σ) (vmsg : VlinkMsg) (s : σ)
    (l ran : List κ) : Prop where
  inOrder : ran <+: l
  first : ∀ p cb q, ran = p ++ cb :: q → EndsWalk (rx cb vmsg (stateAfter rx vmsg p s)).1 → q = []
  stopped : ran = l ∨ ∃ p cb, ran = p ++ [cb] ∧ EndsWalk (rx cb vmsg (stateAfter rx vmsg p s)).1

/-- The callbacks with a record of those that have run. -/
def logged (rx : κ → VlinkMsg → σ → UInt32 × σ) (cb : κ) (vmsg : VlinkMsg) (s : List κ × σ) :
    UInt32 × (List κ × σ) :=
  ((rx cb vmsg s.2).1, s.1 ++ [cb], (rx cb vmsg s.2).2)

theorem RunsUpTo.last {hb : κ} (h : EndsWalk (rx hb vmsg s).1) :
    RunsUpTo rx vmsg s (hb :: l) [hb] where
  inOrder := List.prefix_append [hb] l
  first := by
    intro p cb q heq _
    rcases p with _ | ⟨c, p⟩
    · exact (List.cons.inj heq).2.symm
    · simp at heq
  stopped := .inr ⟨[], hb, rfl, h⟩

theorem RunsUpTo.cons {hb : κ} {ran : List κ} (h : ¬ EndsWalk (rx hb vmsg s).1)
    (hran : RunsUpTo rx vmsg (rx hb vmsg s).2 l ran) : RunsUpTo rx vmsg s (hb :: l) (hb :: ran) where
  inOrder := (List.prefix_cons_inj hb).2 hran.inOrder
  first := by
    intro p cb q heq hends
    rcases p with _ | ⟨c, p⟩
    · obtain ⟨rfl, -⟩ := List.cons.inj heq
      exact absurd hends h
    · obtain ⟨rfl, hrest⟩ := List.cons.inj heq
      exact hran.first p cb q hrest hends
  stopped := by
    obtain rfl | ⟨p, cb, rfl, hends⟩ := hran.stopped
    · exact .inl rfl
    · exact .inr ⟨hb :: p, cb, rfl, hends⟩

/-- `__vlink_invoke` runs the callbacks up to the first one that ends the walk. -/
theorem vlinkInvoke_logged (rx : κ → VlinkMsg → σ → UInt32 × σ) (vmsg : VlinkMsg) (l : List κ)
    (ret : UInt32) (pins : ℤ) (log : List κ) (s : σ) :
    ∃ ret' pins' ran, RunsUpTo rx vmsg s l ran ∧
      vlinkInvoke (logged rx) vmsg l ret ⟨pins, log, s⟩ =
        (ret', ⟨pins', log ++ ran, stateAfter rx vmsg ran s⟩) := by
  induction l generalizing ret log s with
  | nil =>
    refine ⟨ret, pins, [], ⟨List.prefix_rfl, fun p cb q h => ?_, .inl rfl⟩, ?_⟩
    · simp at h
    · rw [List.append_nil]
      rfl
  | cons hb l ih =>
    have hrx : logged rx hb vmsg (log, s) =
        ((rx hb vmsg s).1, (log ++ [hb], (rx hb vmsg s).2)) := rfl
    by_cases hemerg : (rx hb vmsg s).1 &&& vlinkRxEmerg = vlinkRxEmerg
    · exact ⟨_, _, [hb], .last (.inl hemerg), vlinkInvoke_of_emerg hrx hemerg⟩
    by_cases hstop : (rx hb vmsg s).1 &&& vlinkRxStop = vlinkRxStop
    · exact ⟨_, _, [hb], .last (.inr hstop), vlinkInvoke_of_stop hrx hemerg hstop⟩
    obtain ⟨ret', pins', ran, hran, heq⟩ := ih (rx hb vmsg s).1 (log ++ [hb]) (rx hb vmsg s).2
    refine ⟨ret', pins', hb :: ran, .cons (fun h => h.elim hemerg hstop) hran, ?_⟩
    rw [vlinkInvoke_of_next hrx hemerg hstop, heq, List.append_assoc]
    rfl

end Messages

namespace VlinkSystem

variable {ν κ σ : Type*} [DecidableEq ν] {type : ν → UInt16} {priority : κ → ℤ}

/-- What `__vlink_rcv` does with a message: it runs the callbacks of the subsystem of that type, up
to the first one that ends the walk, and none if there is no such subsystem or the message is not
let in. -/
structure Dispatches (type : ν → UInt16) (rx : κ → VlinkMsg → σ → UInt32 × σ) (steps : ℕ)
    (w : VlinkSystem ν κ) (nlh : NlMsg) (pins : ν → ℤ) (s : σ) : Prop where
  refused : nlh.admin = false ∨ nlh.len < vlinkNlmsgLength →
    ∃ r, w.vlinkRcv type (logged rx) steps nlh pins ([], s) = some (r, pins, [], s)
  unknown : nlh.admin = true → vlinkNlmsgLength ≤ nlh.len →
    (∀ i n, w.table i = some n → type n ≠ nlh.type) →
    w.vlinkRcv type (logged rx) steps nlh pins ([], s) = some (.einval, pins, [], s)
  known : nlh.admin = true → vlinkNlmsgLength ≤ nlh.len → ∀ i n l, w.table i = some n →
    type n = nlh.type → Chain w.links (.head n) l →
    ∃ r pins' ran, RunsUpTo rx nlh.vmsg s l ran ∧
      w.vlinkRcv type (logged rx) steps nlh pins ([], s) =
        some (r, pins', ran, stateAfter rx nlh.vmsg ran s)

theorem dispatches {w : VlinkSystem ν κ} (hw : Slotted type w) {steps : ℕ}
    (hsteps : ∀ n l, Chain w.links (.head n) l → l.length ≤ steps)
    (rx : κ → VlinkMsg → σ → UInt32 × σ) (nlh : NlMsg) (pins : ν → ℤ) (s : σ) :
    w.Dispatches type rx steps nlh pins s where
  refused := by
    intro h
    unfold vlinkRcv
    split_ifs with hadmin hlen
    · exact ⟨_, rfl⟩
    · exact ⟨_, rfl⟩
    · obtain h | h := h
      · simp [h] at hadmin
      · exact absurd h hlen
  unknown := by
    intro hadmin hlen hnone
    unfold vlinkRcv
    rw [if_neg (by simp [hadmin]), if_neg (not_lt.2 hlen), vlinkSubsysFind_eq_none hnone]
  known := by
    intro hadmin hlen i n l hi htype hl
    obtain ⟨ret, p, ran, hran, heq⟩ := vlinkInvoke_logged rx nlh.vmsg l 0 (pins n) [] s
    refine ⟨.ret ret, Function.update pins n p, ran, hran, ?_⟩
    unfold vlinkRcv
    rw [if_neg (by simp [hadmin]), if_neg (not_lt.2 hlen), ← htype, vlinkSubsysFind_eq_some hw hi]
    dsimp only
    rw [vlinkInvoke_chain hl (hsteps n l hl), heq]
    rfl

end VlinkSystem

/-! ## Runs -/

namespace VlinkCall

variable {ν κ σ : Type*} {type : ν → UInt16} {priority : κ → ℤ} {w : VlinkSystem ν κ}
  {added : ν → List κ} {k steps : ℕ}

/-- The table and the lists are in order, and no list is longer than `k`. -/
structure InOrder (type : ν → UInt16) (priority : κ → ℤ) (w : VlinkSystem ν κ)
    (added : ν → List κ) (k : ℕ) : Prop where
  slotted : w.Slotted type
  lists : ∃ ls, Hung w.links ls ∧ ∀ n, ByPriority priority (added n) (ls n)
  bound : ∀ n, (added n).length ≤ k

theorem InOrder.init (type : ν → UInt16) (priority : κ → ℤ) :
    InOrder type priority (.init : VlinkSystem ν κ) (fun _ => []) 0 where
  slotted := .init type
  lists := ⟨fun _ => [], .empty, fun _ => .nil⟩
  bound := fun _ => le_rfl

theorem InOrder.retable (h : InOrder type priority w added k) {w' : VlinkSystem ν κ}
    (hw' : w'.Slotted type ∧ w'.links = w.links) : InOrder type priority w' added (k + 1) where
  slotted := hw'.1
  lists := by
    rw [hw'.2]
    exact h.lists
  bound := fun n => (h.bound n).trans (Nat.le_succ k)

variable [DecidableEq ν]

/-- One list is exchanged. -/
theorem InOrder.relink (h : InOrder type priority w added k) {ls : ν → List κ}
    (hls : ∀ n, ByPriority priority (added n) (ls n)) {w' : VlinkSystem ν κ}
    (hw' : w'.Slotted type) {links : Mem ν κ} {n : ν} {a l : List κ}
    (hung : Hung links (Function.update ls n l)) (hl : ByPriority priority a l)
    (hlen : a.length ≤ k + 1) :
    InOrder type priority { w' with links := links } (Function.update added n a) (k + 1) where
  slotted := ⟨hw'.types, hw'.ids⟩
  lists := by
    refine ⟨_, hung, fun m => ?_⟩
    by_cases hm : m = n
    · rw [hm, Function.update_self, Function.update_self]
      exact hl
    · rw [Function.update_of_ne hm, Function.update_of_ne hm]
      exact hls m
  bound := by
    intro m
    by_cases hm : m = n
    · rw [hm, Function.update_self]
      exact hlen
    · rw [Function.update_of_ne hm]
      exact (h.bound m).trans (Nat.le_succ k)

variable [DecidableEq κ]

/-- Every call returns and keeps the order. -/
theorem InOrder.exec (h : InOrder type priority w added k) (hk : k < steps) (c : VlinkCall ν κ)
    (hc : c.Unlinked added) :
    ∃ w', c.exec type priority steps w = some w' ∧ InOrder type priority w' (c.track added) (k + 1) := by
  obtain ⟨ls, hung, hls⟩ := h.lists
  have hsame := h.retable ⟨h.slotted, rfl⟩
  have hlen : ∀ n, (ls n).length < steps := fun n =>
    lt_of_le_of_lt ((hls n).perm.length_eq.trans_le (h.bound n)) hk
  cases c with
  | register n => exact ⟨_, rfl, h.retable (h.slotted.register n)⟩
  | unregister n => exact ⟨_, rfl, h.retable (h.slotted.unregister n)⟩
  | unregisterBatch n =>
    rcases n with _ | n
    · exact ⟨w, rfl, hsame⟩
    obtain ⟨hslotted, hlinks⟩ := h.slotted.unregister (some n)
    have hung0 : Hung (w.vlinkSubsysUnregister (some n)).links ls := by
      rw [hlinks]
      exact hung
    obtain ⟨links, heq, hung'⟩ := VlinkSystem.rmCallbacks_hung hung0 (hlen n) (hlen n).le
    exact ⟨_, heq, h.relink hls hslotted hung' .nil (Nat.zero_le _)⟩
  | addCallback n cb =>
    rcases n with _ | n
    · exact ⟨w, rfl, hsame⟩
    rcases cb with _ | cb
    · exact ⟨w, rfl, hsame⟩
    have hout : ∀ m, cb ∉ ls m := fun m hm => hc m ((hls m).perm.mem_iff.1 hm)
    obtain ⟨links, heq, hung'⟩ :=
      VlinkSystem.vlinkAddCallback_hung priority hung hout (hlen n)
    refine ⟨{ w with links := links }, ?_, h.relink hls h.slotted hung'
      ((hls n).add cb) ?_⟩
    · show (w.vlinkAddCallback priority steps (some n) (some cb)).map Prod.snd = _
      rw [heq]
      rfl
    · rw [List.length_append]
      exact Nat.succ_le_succ (h.bound n)
  | rmCallback n cb =>
    rcases n with _ | n
    · exact ⟨w, rfl, hsame⟩
    rcases cb with _ | cb
    · exact ⟨w, rfl, hsame⟩
    obtain ⟨r, links, heq, hung'⟩ := VlinkSystem.vlinkRmCallback_hung cb hung (hlen n)
    refine ⟨{ w with links := links }, ?_, h.relink hls h.slotted hung'
      ((hls n).rm (hung.nodup n) cb) ?_⟩
    · show (w.vlinkRmCallback steps (some n) (some cb)).map Prod.snd = _
      rw [heq]
      rfl
    · exact (List.erase_sublist.length_le).trans ((h.bound n).trans (Nat.le_succ k))

theorem InOrder.run (calls : List (VlinkCall ν κ)) (h : InOrder type priority w added k)
    (hk : k + calls.length ≤ steps) (hcalls : Transition.Allowed track Unlinked added calls) :
    ∃ w', runCalls type priority steps w calls = some w' ∧
      InOrder type priority w' (calls.foldl track added) (k + calls.length) := by
  induction calls generalizing w added k with
  | nil => exact ⟨w, rfl, h⟩
  | cons c calls ih =>
    have hlen : k + (c :: calls).length = k + 1 + calls.length := by
      rw [List.length_cons]
      omega
    rw [hlen] at hk ⊢
    have hlt : k < steps := by omega
    obtain ⟨w1, hexec, h1⟩ := h.exec hlt c hcalls.1
    obtain ⟨w2, hrun, h2⟩ := ih h1 hk hcalls.2
    refine ⟨w2, ?_, h2⟩
    show (c.exec type priority steps w).bind _ = some w2
    rw [hexec]
    exact hrun

end VlinkCall

/-- A subsystem with three callbacks, one of which is removed and added to another subsystem. -/
def dispatchCalls : List (VlinkCall (Fin 2) (Fin 3)) :=
  [.register (some 0), .addCallback (some 0) (some 0), .addCallback (some 0) (some 1),
    .addCallback (some 0) (some 2), .rmCallback (some 0) (some 1), .register (some 1),
    .addCallback (some 1) (some 1), .unregister (some 0)]

end Lana
