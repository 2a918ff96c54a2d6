import Lana.Critbit.Pool
import Lana.Library.Transition

/-!
# Threads, writers and grace periods

`__critbit_delete` hands the node it unlinks to `call_rcu`, and `unregister_from_fblock_namespace`
does so with the element; both are freed by a callback, which waits for the threads that were in a
read-side critical section when it was posted.  The cache then hands the node out again, so that a
pointer to it would lead into another part of the tree.

Any number of threads look strings up, one load after the other, while writers insert and delete
and callbacks run.  A state is `Tracked` by a memory of `Lana.Critbit.Heap`, in which nothing is freed:
what a thread in its section may still come to is in the tree, or waits for that thread.  This file
has one lemma for each thing that can happen to such a state; `Lana.Critbit.Reclaim` puts them
together.
-/

namespace Lana

open TreeHeap

/-! ## The system -/

/-- What `call_rcu` is called on. -/
inductive Item (α : Type*) where
  | node (q : ℕ)
  | elem (a : α)
  deriving DecidableEq

/-- The memory, the threads in a read-side critical section, with the string each looks up, the
callbacks that are posted, each with the threads it waits for, and the elements that are freed. -/
structure Rcu (ι α : Type*) where
  mem : CritbitPool α
  readers : ι → Option (CStr × Reader α)
  pending : List (Item α × (ι → Bool))
  dead : List α
  fault : Bool

/-- A step of a thread, a writer's call under `wr_lock`, or a callback. -/
inductive RcuStep (ι α : Type*) where
  | enter (i : ι) (u : CStr)
  | read (i : ι)
  | leave (i : ι)
  | insert (a : α) (slot : Option ℕ)
  | delete (k : CStr)
  | release (a : α)
  | callback (x : Item α)

section System

variable {ι α : Type*} [DecidableEq ι] [DecidableEq α] (str : α → CStr)

/-- The empty tree and `n` nodes in the cache. -/
def Rcu.init (n : ℕ) : Rcu ι α := ⟨⟨none, List.replicate n none⟩, fun _ => none, [], [], false⟩

/-- One load of `__critbit_get`, or its final comparison; `none` is a load from a free node. -/
def Reader.poolStep (u : CStr) (m : CritbitPool α) : Reader α → Option (Reader α)
  | .start =>
    match m.root with
    | none => some (.done none)
    | some p => some (.cursor p)
  | .cursor (.leaf a) => some (.done (if u = str a then some a else none))
  | .cursor (.node q) =>
    match m.read q with
    | none => none
    | some c => some (.cursor (c.child (c.data.side u)))
  | .done r => some (.done r)

/-- The element a thread has in hand: its string is compared, and its caller reads `elem->idp`. -/
def Reader.elem : Reader α → Option α
  | .start => none
  | .cursor (.leaf a) => some a
  | .cursor (.node _) => none
  | .done r => r

/-- The access to the element `o`. -/
def Rcu.touch (s : Rcu ι α) (o : Option α) : Rcu ι α :=
  { s with fault := s.fault || o.any (· ∈ s.dead) }

/-- `call_rcu`: the callback waits for the threads in their sections. -/
def Rcu.callRcu (s : Rcu ι α) (x : Item α) : Rcu ι α :=
  { s with pending := s.pending ++ [(x, fun i => (s.readers i).isSome)] }

def RcuStep.exec (s : Rcu ι α) : RcuStep ι α → Rcu ι α
  | .enter i u => { s with readers := Function.update s.readers i (some (u, .start)) }
  | .read i =>
    match s.readers i with
    | none => s
    | some (u, r) =>
      match r.poolStep str u s.mem with
      | none => { s with fault := true }
      | some r' => Rcu.touch { s with readers := Function.update s.readers i (some (u, r')) } r.elem
  | .leave i =>
    { s with
      readers := Function.update s.readers i none
      pending := s.pending.map fun x => (x.1, Function.update x.2 i false) }
  | .insert a slot =>
    match poolInsert str slot s.mem a with
    | none => { s with fault := true }
    | some (_, m) => Rcu.touch { s with mem := m } (poolLeaf s.mem (str a))
  | .delete k =>
    match poolDelete str s.mem k with
    | none => { s with fault := true }
    | some (_, m, none) => Rcu.touch { s with mem := m } (poolLeaf s.mem k)
    | some (_, m, some q) =>
      Rcu.callRcu (Rcu.touch { s with mem := m } (poolLeaf s.mem k)) (.node q)
  | .release a => s.callRcu (.elem a)
  | .callback (.node q) =>
    { s with mem := s.mem.free q, pending := s.pending.filter (·.1 ≠ .node q) }
  | .callback (.elem a) =>
    { s with dead := a :: s.dead, pending := s.pending.filter (·.1 ≠ .elem a) }

/-- The sections of a thread do not overlap, the cache hands out free nodes, an element that waits or
is freed is not inserted, one that is in the tree is not released, nor is one released twice, and a
callback runs when no thread it waits for is left. -/
def RcuStep.Possible (s : Rcu ι α) : RcuStep ι α → Prop
  | .enter i _ => s.readers i = none
  | .insert a slot => (∀ q, slot = some q → s.mem.cells[q]? = some none) ∧ a ∉ s.dead ∧
      Item.elem a ∉ s.pending.map Prod.fst
  | .release a => poolGet str s.mem (str a) ≠ some a ∧ a ∉ s.dead ∧
      Item.elem a ∉ s.pending.map Prod.fst
  | .callback x => ∃ w, (x, w) ∈ s.pending ∧ ∀ i, w i = false
  | .read _ | .leave _ | .delete _ => True

/-- The states of a schedule from an empty tree. -/
def runRcu (n : ℕ) (steps : List (RcuStep ι α)) : Rcu ι α :=
  steps.foldl (RcuStep.exec str) (Rcu.init n)

/-- Every step of the schedule is possible where it is taken. -/
def Schedule (n : ℕ) (steps : List (RcuStep ι α)) : Prop :=
  Transition.Allowed (RcuStep.exec str) (RcuStep.Possible str) (Rcu.init n) steps

end System

/-! ## The invariant -/

section Invariant

variable {ι α : Type*}

def Item.map (loc : ℕ → ℕ) : Item α → Item α
  | .node q => .node (loc q)
  | .elem a => .elem a

def Reader.map (loc : ℕ → ℕ) : Reader α → Reader α
  | .start => .start
  | .cursor p => .cursor (p.map loc)
  | .done r => .done r

/-- Where a thread stands in the memory. -/
def Reader.ptr : Reader α → Option (Ptr α)
  | .start => none
  | .cursor p => some p
  | .done r => r.map .leaf

/-- The node is in the tree or waits. -/
def InUse (t : Option (Placed Split α)) (gone : List (Item α × (ι → Bool))) (q : ℕ) : Prop :=
  InTree t q ∨ Item.node q ∈ gone.map Prod.fst

/-- The thread `i` may come to `x`: a node is in the tree or waits for `i`; an element is not freed,
and waits for `i` if it waits. -/
def Fits (t : Option (Placed Split α)) (gone : List (Item α × (ι → Bool))) (dead : List α)
    (i : ι) : Ptr α → Prop
  | .node q => InTree t q ∨ ∃ w, (.node q, w) ∈ gone ∧ w i = true
  | .leaf a => a ∉ dead ∧ ∀ w, (.elem a, w) ∈ gone → w i = true

/-- All that the thread `i` may come to from where it stands. -/
def Secure (cells : List (Cell Split α)) (t : Option (Placed Split α))
    (gone : List (Item α × (ι → Bool))) (dead : List α) (i : ι) (r : Reader α) : Prop :=
  ∀ p x, r.ptr = some p → Reach cells p x → Fits t gone dead i x

/-- The elements of the tree are neither waiting nor freed. -/
def Present (t : Option (Placed Split α)) (gone : List (Item α × (ι → Bool))) (dead : List α) :
    Prop :=
  ∀ a, Stored (t.map forget) a → Item.elem a ∉ gone.map Prod.fst ∧ a ∉ dead

/-- The state is that of the memory `h` with the tree `t`, of which `gone` waits, seen through
`loc`; the threads stand at `pos`. -/
structure Tracked (str : α → CStr) (s : Rcu ι α) (h : CritbitHeap α) (t : Option (Placed Split α))
    (loc : ℕ → ℕ) (gone : List (Item α × (ι → Bool))) (pos : ι → Option (CStr × Reader α)) :
    Prop where
  inv : HeapInv str h t
  pooled : Pooled loc (InUse t gone) h s.mem
  readers : ∀ i, s.readers i = (pos i).map (Prod.map id (Reader.map loc))
  pending : s.pending = gone.map (Prod.map (Item.map loc) id)
  nodup : (gone.map Prod.fst).Nodup
  apart : ∀ q, InTree t q → Item.node q ∉ gone.map Prod.fst
  present : Present t gone s.dead
  secure : ∀ i u r, pos i = some (u, r) → Secure h.cells t gone s.dead i r
  fault : s.fault = false

theorem tracked_init {str : α → CStr} (n : ℕ) :
    Tracked str (Rcu.init n : Rcu ι α) ⟨none, []⟩ none id [] fun _ => none := by
  have hread : ∀ x, (Rcu.init n : Rcu ι α).mem.read x = none := by
    intro x
    simp only [Rcu.init, Pool.read, List.getElem?_replicate]
    split_ifs <;> rfl
  refine ⟨heapInv_empty, ⟨rfl, ?_, ?_, ?_⟩, fun _ => rfl, rfl, List.nodup_nil, ?_, ?_, ?_, rfl⟩
  · rintro q (⟨s, ⟨⟩, -⟩ | hq)
    cases hq
  · rintro q q' (⟨s, ⟨⟩, -⟩ | hq)
    cases hq
  · exact fun x hx => absurd (hread x) hx
  · rintro q ⟨s, ⟨⟩, -⟩
  · exact fun a ha => absurd ha (not_stored_none a)
  · intro i u r hi
    cases hi

/-! ## What can be reached from the tree -/

theorem stored_iff_mem_elems {t : Placed Split α} {a : α} :
    Stored (some (forget t)) a ↔ a ∈ t.elems := by
  induction t with
  | leaf b => rw [stored_some, Placed.elems, List.mem_singleton]; rfl
  | node q s c ih =>
    rw [Placed.mem_elems_node, stored_some, Bool.exists_bool, ← ih, ← ih, stored_some, stored_some]
    rfl

variable {str : α → CStr} {h : CritbitHeap α} {t : Option (Placed Split α)} {loc : ℕ → ℕ}
  {gone : List (Item α × (ι → Bool))} {dead : List α} {i : ι} {m : CritbitPool α}

/-- Every thread may come to what is in the tree. -/
theorem Present.fits (hp : Present t gone dead) {s : Placed Split α} {x : Ptr α}
    {cells : List (Cell Split α)} (hs : s.In cells) (haddrs : ∀ q ∈ s.addrs, InTree t q)
    (hstored : ∀ a, Stored (some (forget s)) a → Stored (t.map forget) a)
    (hx : Reach cells s.ptr x) : Fits t gone dead i x := by
  obtain ⟨s', rfl, -, hsub, helems⟩ := hs.reach hx
  cases s' with
  | node q test c => exact .inl (haddrs q (hsub q (Placed.mem_addrs_node.2 (.inl rfl))))
  | leaf a =>
    obtain ⟨hgone, hdead⟩ :=
      hp a (hstored a (stored_iff_mem_elems.2 (helems a List.mem_cons_self)))
    exact ⟨hdead, fun w hw => absurd (List.mem_map_of_mem hw) hgone⟩

theorem Fits.inUse {q : ℕ} (h : Fits t gone dead i (.node q)) : InUse t gone q := by
  rcases h with h | ⟨w, hw, -⟩
  · exact .inl h
  · exact .inr (List.mem_map_of_mem hw)

theorem Secure.below {r : Reader α} (hr : Secure h.cells t gone dead i r)
    (hs : Pooled loc (InUse t gone) h m) {p : Ptr α} (hp : r.ptr = some p) :
    p.Below h.cells.length := by
  cases p with
  | leaf a => trivial
  | node q => exact hs.lt_length (hr _ _ hp .refl).inUse

theorem Fits.mono {t' : Option (Placed Split α)} (ht : ∀ q, InTree t q → InTree t' q) {x : Ptr α}
    (hx : Fits t gone dead i x) : Fits t' gone dead i x := by
  cases x with
  | leaf a => exact hx
  | node q => exact hx.imp (ht q) id

/-! ## A thread's step -/

theorem Reader.map_update {n q : ℕ} {r : Reader α} (hr : ∀ p, r.ptr = some p → p.Below n) :
    r.map (Function.update loc n q) = r.map loc := by
  cases r with
  | start => rfl
  | cursor p => exact congrArg Reader.cursor (Ptr.map_update (hr p rfl))
  | done o => rfl

theorem Reader.elem_map (r : Reader α) : (r.map loc).elem = r.elem := by
  cases r with
  | start => rfl
  | cursor p => cases p <;> rfl
  | done o => rfl

/-- The load finds in the pool what it finds in the memory. -/
theorem poolStep_eq (hs : Pooled loc (InUse t gone) h m) {r : Reader α}
    (hr : Secure h.cells t gone dead i r) (u : CStr) :
    (r.map loc).poolStep str u m = some ((r.step str u h).map loc) := by
  cases r with
  | start =>
    simp only [Reader.map, Reader.poolStep, Reader.step, hs.root]
    cases h.root <;> rfl
  | cursor p =>
    cases p with
    | leaf a => rfl
    | node q =>
      obtain ⟨c, hc, hread⟩ := hs.cell q (hr _ _ rfl .refl).inUse
      simp only [Reader.map, Ptr.map, Reader.poolStep, Reader.step, hc, hread, Cell.map]
  | done o => rfl

theorem Secure.step (hi : HeapInv str h t) (hp : Present t gone dead) {r : Reader α}
    (hr : Secure h.cells t gone dead i r) (u : CStr) :
    Secure h.cells t gone dead i (r.step str u h) := by
  intro p x hptr hx
  cases r with
  | start =>
    have hroot := hi.live.root
    cases t with
    | none =>
      simp only [Reader.step, hroot, Option.map_none, Reader.ptr] at hptr
      cases hptr
    | some t =>
      simp only [Reader.step, hroot, Option.map_some, Reader.ptr, Option.some.injEq] at hptr
      subst hptr
      exact hp.fits (hi.live.placed t rfl) (fun q hq => ⟨t, rfl, hq⟩) (fun _ ha => ha) hx
  | cursor p' =>
    cases p' with
    | leaf a =>
      -- the comparison leaves the thread with the element, or with nothing
      by_cases hu : u = str a
      · simp only [Reader.step, if_pos hu, Reader.ptr, Option.map_some, Option.some.injEq] at hptr
        subst hptr
        exact hr _ _ rfl hx
      · simp only [Reader.step, if_neg hu, Reader.ptr, Option.map_none] at hptr
        cases hptr
    | node q =>
      cases hc : h.cells[q]? with
      | none =>
        simp only [Reader.step, hc, Reader.ptr, Option.some.injEq] at hptr
        subst hptr
        exact hr _ _ rfl hx
      | some c =>
        simp only [Reader.step, hc, Reader.ptr, Option.some.injEq] at hptr
        subst hptr
        exact hr _ _ rfl (hx.head hc)
  | done o => exact hr p x hptr hx

/-- A thread has no element in hand that is freed. -/
theorem Secure.elem_alive {r : Reader α} {cells : List (Cell Split α)}
    (hr : Secure cells t gone dead i r) {a : α} (ha : r.elem = some a) : a ∉ dead := by
  cases r with
  | start => cases ha
  | cursor p =>
    cases p with
    | leaf b =>
      obtain rfl := Option.some.inj ha
      exact (hr _ _ rfl .refl).1
    | node q => cases ha
  | done o =>
    have ho : o = some a := ha
    subst ho
    exact (hr _ _ rfl .refl).1

end Invariant

section Steps

variable {ι α : Type*} {str : α → CStr} {s : Rcu ι α} {h : CritbitHeap α}
  {t : Option (Placed Split α)} {loc : ℕ → ℕ} {gone : List (Item α × (ι → Bool))}
  {pos : ι → Option (CStr × Reader α)}

theorem Rcu.touch_eq [DecidableEq α] {o : Option α} (ho : ∀ a, o = some a → a ∉ s.dead) :
    s.touch o = s := by
  unfold Rcu.touch
  cases o with
  | none => simp
  | some a => simp [ho a rfl]

/-- `x` waits for the threads in their sections. -/
def await (gone : List (Item α × (ι → Bool))) (pos : ι → Option (CStr × Reader α)) (x : Item α) :
    List (Item α × (ι → Bool)) :=
  gone ++ [(x, fun i => (pos i).isSome)]

theorem mem_await {x y : Item α} :
    y ∈ (await gone pos x).map Prod.fst ↔ y ∈ gone.map Prod.fst ∨ y = x := by
  simp [await]

theorem nodup_await {x : Item α} (hnd : (gone.map Prod.fst).Nodup) (hx : x ∉ gone.map Prod.fst) :
    ((await gone pos x).map Prod.fst).Nodup := by
  rw [await, List.map_append, List.map_cons, List.map_nil, ← List.concat_eq_append]
  exact hnd.concat hx

/-- A thread in its section may come to all it could before. -/
theorem Fits.await {dead : List α} {i : ι} (hi : (pos i).isSome) {y : Ptr α} (x : Item α)
    (hy : Fits t gone dead i y) : Fits t (await gone pos x) dead i y := by
  cases y with
  | node q =>
    refine hy.imp id ?_
    rintro ⟨w, hw, hwi⟩
    exact ⟨w, List.mem_append_left _ hw, hwi⟩
  | leaf a =>
    refine ⟨hy.1, fun w hw => ?_⟩
    rcases List.mem_append.1 hw with hw | hw
    · exact hy.2 w hw
    · obtain ⟨-, rfl⟩ := Prod.mk.inj (List.mem_singleton.1 hw)
      exact hi

theorem inTree_link {ext : List (Crumb Split α)} {sub : Placed Split α} {test : Split} {d : Bool}
    {a : α} {n q : ℕ} : InTree (some (plug ext (forkAt n test d a sub))) q ↔
      InTree (some (plug ext sub)) q ∨ q = n := by
  unfold InTree
  simp only [Option.some.injEq, exists_eq_left', mem_addrs_plug, addrs_forkAt, List.mem_cons]
  tauto

theorem inTree_unlink {ext : List (Crumb Split α)} {test : Split} {c : Bool → Placed Split α}
    {d : Bool} {a : α} {q x : ℕ} (hleaf : c d = .leaf a)
    (hnd : (plug ext (.node q test c)).addrs.Nodup) :
    InTree (some (plug ext (c (!d)))) x ↔ InTree (some (plug ext (.node q test c))) x ∧ x ≠ q := by
  obtain ⟨-, hnode, hdis⟩ := nodup_plug.1 hnd
  have hq : ∀ e, q ∉ (c e).addrs := by
    intro e he
    refine (List.nodup_cons.1 hnode).1 (List.mem_append.2 ?_)
    cases e with
    | false => exact .inl he
    | true => exact .inr he
  have hempty : ∀ x, x ∉ (c d).addrs := by
    rw [hleaf]
    exact fun x hx => by cases hx
  unfold InTree
  simp only [Option.some.injEq, exists_eq_left', mem_addrs_plug, Placed.mem_addrs_node]
  constructor
  · rintro (hx | hx)
    · refine ⟨.inl hx, ?_⟩
      rintro rfl
      exact hdis x (Placed.mem_addrs_node.2 (.inl rfl)) hx
    · refine ⟨.inr (.inr ⟨_, hx⟩), ?_⟩
      rintro rfl
      exact hq _ hx
  · rintro ⟨hx | rfl | ⟨e, hx⟩, hne⟩
    · exact .inl hx
    · exact absurd rfl hne
    · by_cases he : e = d
      · subst he
        exact absurd hx (hempty x)
      · rw [Bool.eq_not_of_ne he] at hx
        exact .inr hx

namespace Tracked

theorem get_eq (hT : Tracked str s h t loc gone pos) (u : CStr) :
    poolGet str s.mem u = critbitGet str (t.map forget) u :=
  poolGet_eq hT.inv hT.pooled (fun _ hq => .inl hq) u

theorem elem_mem_pending (hT : Tracked str s h t loc gone pos) (a : α) :
    Item.elem a ∈ s.pending.map Prod.fst ↔ Item.elem a ∈ gone.map Prod.fst := by
  rw [hT.pending, List.map_map]
  simp only [List.mem_map, Function.comp_apply, Prod.map_fst]
  constructor
  · rintro ⟨⟨x, w⟩, hx, e⟩
    cases x with
    | node q => cases e
    | elem b => exact ⟨_, hx, e⟩
  · rintro ⟨x, hx, e⟩
    exact ⟨x, hx, by rw [e]; rfl⟩

/-- The element a writer compares with is not freed. -/
theorem leaf_alive (hT : Tracked str s h t loc gone pos) {u : CStr} {a : α}
    (ha : poolLeaf s.mem u = some a) : a ∉ s.dead := by
  rw [poolLeaf_eq hT.inv hT.pooled (fun _ hq => .inl hq)] at ha
  cases t with
  | none => cases ha
  | some t =>
    obtain rfl := Option.some.inj ha
    exact (hT.present _ (walk_stored hT.inv.wf u)).2

/-! ### Threads -/

/-- A thread moves to another place. -/
theorem move [DecidableEq ι] (hT : Tracked str s h t loc gone pos) (i : ι)
    (x : Option (CStr × Reader α))
    (hx : ∀ u r, x = some (u, r) → Secure h.cells t gone s.dead i r) :
    Tracked str
      { s with readers := Function.update s.readers i (x.map (Prod.map id (Reader.map loc))) }
      h t loc gone (Function.update pos i x) := by
  refine { hT with readers := fun j => ?_, secure := fun j v r hj => ?_ }
  · show Function.update s.readers i _ j = _
    by_cases hji : j = i
    · subst hji
      rw [Function.update_self, Function.update_self]
    · rw [Function.update_of_ne hji, Function.update_of_ne hji]
      exact hT.readers j
  · by_cases hji : j = i
    · subst hji
      rw [Function.update_self] at hj
      exact hx v r hj
    · rw [Function.update_of_ne hji] at hj
      exact hT.secure j v r hj

/-- No callback waits any more for a thread that is in no section. -/
theorem forgo [DecidableEq ι] (hT : Tracked str s h t loc gone pos) {i : ι} (hi : pos i = none) :
    Tracked str { s with pending := s.pending.map fun x => (x.1, Function.update x.2 i false) }
      h t loc (gone.map fun x => (x.1, Function.update x.2 i false)) pos := by
  have hfst : (gone.map fun x => (x.1, Function.update x.2 i false)).map Prod.fst =
      gone.map Prod.fst := by
    rw [List.map_map]
    rfl
  have hback : ∀ {x : Item α} {w : ι → Bool},
      (x, w) ∈ (gone.map fun x => (x.1, Function.update x.2 i false)) →
        ∃ w', (x, w') ∈ gone ∧ w = Function.update w' i false := by
    intro x w hw
    obtain ⟨⟨x', w'⟩, hmem, e⟩ := List.mem_map.1 hw
    cases e
    exact ⟨w', hmem, rfl⟩
  refine ⟨hT.inv, ?_, hT.readers, ?_, hfst ▸ hT.nodup, fun q hq => hfst ▸ hT.apart q hq, ?_,
    fun j u r hj p x hp hx => ?_, hT.fault⟩
  · exact hT.pooled.congr_held fun q => by rw [InUse, InUse, hfst]
  · simp only [hT.pending, List.map_map]
    rfl
  · intro a ha
    rw [hfst]
    exact hT.present a ha
  · have hne : j ≠ i := by
      rintro rfl
      rw [hi] at hj
      cases hj
    have hfit := hT.secure j u r hj p x hp hx
    cases x with
    | node q =>
      refine hfit.imp id ?_
      rintro ⟨w, hw, hwj⟩
      refine ⟨Function.update w i false, List.mem_map.2 ⟨_, hw, rfl⟩, ?_⟩
      rwa [Function.update_of_ne hne]
    | leaf a =>
      refine ⟨hfit.1, fun w hw => ?_⟩
      obtain ⟨w', hw', rfl⟩ := hback hw
      rw [Function.update_of_ne hne]
      exact hfit.2 w' hw'

theorem enter [DecidableEq ι] [DecidableEq α] (hT : Tracked str s h t loc gone pos) (i : ι)
    (u : CStr) :
    Tracked str ((RcuStep.enter i u).exec str s) h t loc gone
      (Function.update pos i (some (u, .start))) := by
  refine hT.move i (some (u, .start)) ?_
  rintro v r ⟨⟩ p x ⟨⟩

theorem read [DecidableEq ι] [DecidableEq α] (hT : Tracked str s h t loc gone pos) {i : ι}
    {u : CStr} {r : Reader α} (hpos : pos i = some (u, r)) :
    Tracked str ((RcuStep.read i).exec str s) h t loc gone
      (Function.update pos i (some (u, r.step str u h))) := by
  have hsec := hT.secure i u r hpos
  have hread : s.readers i = some (u, r.map loc) := by
    rw [hT.readers, hpos]
    rfl
  have hexec : (RcuStep.read i).exec str s =
      { s with readers := Function.update s.readers i (some (u, (r.step str u h).map loc)) } := by
    simp only [RcuStep.exec, hread, poolStep_eq hT.pooled hsec]
    refine Rcu.touch_eq fun a ha => ?_
    rw [Reader.elem_map] at ha
    exact hsec.elem_alive ha
  rw [hexec]
  refine hT.move i (some (u, r.step str u h)) ?_
  rintro v r' ⟨⟩
  exact hsec.step hT.inv hT.present u

theorem leave [DecidableEq ι] [DecidableEq α] (hT : Tracked str s h t loc gone pos) (i : ι) :
    Tracked str ((RcuStep.leave i).exec str s) h t loc
      (gone.map fun x => (x.1, Function.update x.2 i false)) (Function.update pos i none) :=
  (hT.move i none nofun).forgo (Function.update_self ..)

/-! ### Writers -/

/-- A store to the root pointer when the tree has no inner node before and after. -/
theorem root (hT : Tracked str s h t loc gone pos) {t' : Option (Placed Split α)}
    {p : Option (Ptr α)} (hw : Writes str h t { h with root := p } t')
    (ht : ∀ q, ¬ InTree t q) (ht' : ∀ q, ¬ InTree t' q) (hpres : Present t' gone s.dead) :
    Tracked str { s with mem := { s.mem with root := p.map (Ptr.map loc) } } { h with root := p } t'
      loc gone pos := by
  have hheld : ∀ q, InUse t' gone q ↔ InUse t gone q := fun q =>
    or_congr_left ⟨fun h' => absurd h' (ht' q), fun h' => absurd h' (ht q)⟩
  have hpool : Pooled loc (InUse t gone) { h with root := p }
      { s.mem with root := p.map (Ptr.map loc) } :=
    ⟨rfl, hT.pooled.cell, hT.pooled.inj, hT.pooled.used⟩
  exact ⟨hw.inv, hpool.congr_held hheld, hT.readers, hT.pending, hT.nodup,
    fun q hq => absurd hq (ht' q), hpres,
    fun j u r hj p' x hp hx =>
      (hT.secure j u r hj p' x hp hx).mono fun q hq => absurd hq (ht q), hT.fault⟩

section Link

variable {ext : List (Crumb Split α)} {sub : Placed Split α} {test : Split} {d : Bool} {a : α}
  {q : ℕ}

/-- A new node is linked, at a cell of the pool that was free. -/
theorem link (hT : Tracked str s h (some (plug ext sub)) loc gone pos)
    (hw : Writes str h (some (plug ext sub))
      ((h.alloc (newCell test d sub.ptr a)).store (locOf ext) (.node h.cells.length))
      (some (plug ext (forkAt h.cells.length test d a sub))))
    (hslot : s.mem.cells[q]? = some none)
    (hpres : Present (some (plug ext (forkAt h.cells.length test d a sub))) gone s.dead) :
    Tracked str
      { s with
        mem := (s.mem.hand q ((newCell test d sub.ptr a).map loc)).store ((locOf ext).map loc)
          (.node q) }
      ((h.alloc (newCell test d sub.ptr a)).store (locOf ext) (.node h.cells.length))
      (some (plug ext (forkAt h.cells.length test d a sub)))
      (Function.update loc h.cells.length q) gone pos := by
  have hinside := hT.inv.ranked.inside
  have hplaced := hT.inv.live.placed _ rfl
  have hsub := in_of_plug hplaced
  have hnew : ∀ e, ((newCell test d sub.ptr a).child e).Below h.cells.length := by
    intro e
    simp only [newCell]
    split_ifs
    · exact hsub.below
    · trivial
  have hroot : ∀ p, h.root = some p → p.Below h.cells.length := by
    intro p hp
    rw [hT.inv.live.root] at hp
    cases hp
    exact hplaced.below
  have hctx : ∀ g e, locOf ext = .child g e → InTree (some (plug ext sub)) g := fun g e hg =>
    ⟨_, rfl, mem_addrs_plug.2 (.inl (mem_of_locOf hg))⟩
  -- the addresses in use are below the new one, so that the new `loc` does not move them
  have hlt : ∀ x, InUse (some (plug ext sub)) gone x → x < h.cells.length := fun x hx =>
    hT.pooled.lt_length hx
  have hwhere : (locOf ext).map (Function.update loc h.cells.length q) = (locOf ext).map loc :=
    Loc.map_update fun g e hg => hlt g (.inl (hctx g e hg))
  have hnode : (Ptr.node h.cells.length : Ptr α).map (Function.update loc h.cells.length q) =
      .node q := congrArg Ptr.node (Function.update_self ..)
  have hpool := (hT.pooled.hand hinside hroot hslot hnew).store (w := locOf ext)
    (fun g e hg => .inl (.inl (hctx g e hg))) (.node h.cells.length)
  rw [hwhere, hnode] at hpool
  refine ⟨hw.inv, hpool.congr_held fun x => ?_, fun i => ?_, ?_, hT.nodup, fun x hx => ?_, hpres,
    fun i u r hi p x hp hx => ?_, hT.fault⟩
  · rw [InUse, inTree_link, InUse]
    tauto
  · rw [hT.readers i]
    cases hi : pos i with
    | none => rfl
    | some v =>
      obtain ⟨u, r⟩ := v
      have hbelow : ∀ p, r.ptr = some p → p.Below h.cells.length := fun p hp =>
        (hT.secure i u r hi).below hT.pooled hp
      exact congrArg (fun r' => some (u, r')) (Reader.map_update hbelow).symm
  · rw [hT.pending]
    refine List.map_congr_left fun x hx => ?_
    obtain ⟨y, w⟩ := x
    cases y with
    | elem b => rfl
    | node x =>
      have hne : x ≠ h.cells.length := ne_of_lt (hlt x (.inr (List.mem_map_of_mem hx)))
      exact congrArg (fun z => (Item.node z, w)) (Function.update_of_ne hne ..).symm
  · rcases inTree_link.1 hx with hx | rfl
    · exact hT.apart x hx
    · exact fun hmem => lt_irrefl _ (hlt _ (.inr hmem))
  · have hp' := (hT.secure i u r hi).below hT.pooled hp
    rcases hx.of_store with hx | hx
    · -- along the old nodes
      exact (hT.secure i u r hi p x hp (hx.of_alloc hinside hp')).mono fun y hy =>
        inTree_link.2 (.inl hy)
    · rcases hx.of_new hinside hnew with rfl | ⟨e, hx⟩
      · exact .inl (inTree_link.2 (.inr rfl))
      · simp only [newCell] at hx
        split_ifs at hx
        · refine hpres.fits hsub (fun y hy => ?_) (fun b hb => ?_) hx
          · exact inTree_link.2 (.inl ⟨_, rfl, mem_addrs_plug.2 (.inr hy)⟩)
          · refine stored_plug ext (stored_child (d := d) ?_)
            simpa only [if_true] using hb
        · obtain rfl := hx.of_leaf
          have ha : Stored (some (forget (plug ext (forkAt h.cells.length test d a sub)))) a := by
            refine stored_plug ext (stored_child (d := !d) ?_)
            simp [stored_some, forget, toTree]
          obtain ⟨hgone, hdead⟩ := hpres a ha
          exact ⟨hdead, fun w hw => absurd (List.mem_map_of_mem hw) hgone⟩

end Link

theorem pending_callRcu (hT : Tracked str s h t loc gone pos) (x : Item α) :
    (s.callRcu (x.map loc)).pending =
      (await gone pos x).map (Prod.map (Item.map loc) id) := by
  have hwait : (fun i => (s.readers i).isSome) = fun i => (pos i).isSome := by
    funext i
    rw [hT.readers i, Option.isSome_map]
  simp only [Rcu.callRcu, await, hT.pending, hwait, List.map_append, List.map_cons, List.map_nil]
  rfl

section Unlink

variable {ext : List (Crumb Split α)} {test : Split} {c : Bool → Placed Split α} {d : Bool} {a : α}
  {q : ℕ}

/-- A node is unlinked and waits. -/
theorem unlink (hT : Tracked str s h (some (plug ext (.node q test c))) loc gone pos)
    (hleaf : c d = .leaf a)
    (hw : Writes str h (some (plug ext (.node q test c))) (h.store (locOf ext) (c (!d)).ptr)
      (some (plug ext (c (!d)))))
    (hpres : Present (some (plug ext (c (!d)))) gone s.dead) :
    Tracked str
      (Rcu.callRcu { s with mem := s.mem.store ((locOf ext).map loc) ((c (!d)).ptr.map loc) }
        (.node (loc q)))
      (h.store (locOf ext) (c (!d)).ptr) (some (plug ext (c (!d)))) loc
      (await gone pos (.node q)) pos := by
  have hplaced := hT.inv.live.placed _ rfl
  have hother := (in_of_plug hplaced).2 (!d)
  have hq : InTree (some (plug ext (.node q test c))) q :=
    ⟨_, rfl, mem_addrs_plug.2 (.inr (Placed.mem_addrs_node.2 (.inl rfl)))⟩
  have hiff := fun x => inTree_unlink hleaf (hT.inv.live.nodup _ rfl) (x := x)
  have hctx : ∀ g e, locOf ext = .child g e → InTree (some (plug ext (.node q test c))) g :=
    fun g e hg => ⟨_, rfl, mem_addrs_plug.2 (.inl (mem_of_locOf hg))⟩
  have hpool := hT.pooled.store (w := locOf ext) (fun g e hg => .inl (hctx g e hg)) (c (!d)).ptr
  refine ⟨hw.inv, hpool.congr_held fun x => ?_, hT.readers, hT.pending_callRcu (.node q),
    nodup_await hT.nodup (hT.apart q hq), fun x hx => ?_, fun b hb => ?_,
    fun i u r hi p x hp hx => ?_, hT.fault⟩
  · rw [InUse, hiff, mem_await, InUse, Item.node.injEq]
    by_cases hxq : x = q
    · subst hxq
      simp [hq]
    · simp [hxq]
  · obtain ⟨hx, hne⟩ := (hiff x).1 hx
    rw [mem_await, not_or]
    exact ⟨hT.apart x hx, fun e => hne (Item.node.inj e)⟩
  · rw [mem_await, not_or]
    exact ⟨⟨(hpres b hb).1, nofun⟩, (hpres b hb).2⟩
  · have hactive : (pos i).isSome := by
      rw [hi]
      rfl
    have hkeep : ∀ y : Ptr α, Fits (some (plug ext (.node q test c))) gone s.dead i y →
        Fits (some (plug ext (c (!d)))) (await gone pos (.node q)) s.dead i y := by
      intro y hy
      cases y with
      | node x =>
        rcases hy.await hactive (.node q) with hy | hy
        · by_cases hxq : x = q
          · subst hxq
            exact .inr ⟨_, List.mem_append_right _ List.mem_cons_self, hactive⟩
          · exact .inl ((hiff x).2 ⟨hy, hxq⟩)
        · exact .inr hy
      | leaf b => exact hy.await hactive (.node q)
    rcases hx.of_store with hx | hx
    · exact hkeep x (hT.secure i u r hi p x hp hx)
    · -- along the child that took the place of the node
      refine hkeep x (hT.present.fits hother (fun y hy => ?_) (fun b hb => ?_) hx)
      · exact ⟨_, rfl, mem_addrs_plug.2 (.inr (Placed.mem_addrs_node.2 (.inr ⟨_, hy⟩)))⟩
      · exact stored_plug ext (stored_child hb)

end Unlink

/-! ### Grace periods -/

/-- An element that is in no tree waits. -/
theorem release (hT : Tracked str s h t loc gone pos) {a : α}
    (hget : poolGet str s.mem (str a) ≠ some a) (hnew : Item.elem a ∉ s.pending.map Prod.fst) :
    Tracked str (s.callRcu (.elem a)) h t loc (await gone pos (.elem a)) pos := by
  rw [hT.elem_mem_pending] at hnew
  have hnode : ∀ q, Item.node q ∈ (await gone pos (.elem a)).map Prod.fst ↔
      Item.node q ∈ gone.map Prod.fst := by
    intro q
    rw [mem_await]
    exact ⟨fun hq => hq.resolve_right nofun, .inl⟩
  refine ⟨hT.inv, hT.pooled.congr_held fun q => by rw [InUse, InUse, hnode], hT.readers,
    hT.pending_callRcu (.elem a), nodup_await hT.nodup hnew, fun q hq => ?_, fun b hb => ?_,
    fun i u r hi p x hp hx => ?_, hT.fault⟩
  · rw [hnode]
    exact hT.apart q hq
  · rw [mem_await, not_or]
    refine ⟨⟨(hT.present b hb).1, ?_⟩, (hT.present b hb).2⟩
    rintro ⟨⟩
    rw [hT.get_eq] at hget
    exact hget ((critbitGet_eq_some hT.inv.wf).2 ⟨hb, rfl⟩)
  · refine (hT.secure i u r hi p x hp hx).await ?_ (.elem a)
    rw [hi]
    rfl

/-- What is not the item stays in the queue; an item is there once. -/
theorem mem_dequeue [DecidableEq α] {x y : Item α} {w : ι → Bool} :
    (y, w) ∈ gone.filter (·.1 ≠ x) ↔ (y, w) ∈ gone ∧ y ≠ x := by
  simp

theorem dequeue_fst [DecidableEq α] {x y : Item α} :
    y ∈ (gone.filter (·.1 ≠ x)).map Prod.fst ↔ y ∈ gone.map Prod.fst ∧ y ≠ x := by
  simp only [List.mem_map, Prod.exists, exists_and_right, exists_eq_right, mem_dequeue]

theorem item_inj (hT : Tracked str s h t loc gone pos) {x y : Item α}
    (hx : x ∈ gone.map Prod.fst) (hy : y ∈ gone.map Prod.fst) (e : x.map loc = y.map loc) :
    x = y := by
  cases x with
  | node q =>
    cases y with
    | node q' => exact congrArg Item.node (hT.pooled.inj q q' (.inr hx) (.inr hy) (Item.node.inj e))
    | elem b => cases e
  | elem a =>
    cases y with
    | node q' => cases e
    | elem b => exact e

theorem pending_dequeue [DecidableEq α] (hT : Tracked str s h t loc gone pos) {x : Item α}
    (hx : x ∈ gone.map Prod.fst) :
    s.pending.filter (·.1 ≠ x.map loc) =
      (gone.filter (·.1 ≠ x)).map (Prod.map (Item.map loc) id) := by
  rw [hT.pending, List.filter_map]
  congr 1
  refine List.filter_congr fun y hy => ?_
  have hiff : y.1.map loc = x.map loc ↔ y.1 = x :=
    ⟨hT.item_inj (List.mem_map_of_mem hy) hx, fun e => by rw [e]⟩
  simp only [Function.comp_apply, Prod.map_fst, ne_eq, hiff]

/-- The entry of an item whose callback runs waits for no thread. -/
theorem waits_for_none (hT : Tracked str s h t loc gone pos) {x : Item α} {w w' : ι → Bool}
    (hw : (x, w) ∈ gone) (hnone : ∀ i, w i = false) (hw' : (x, w') ∈ gone) (i : ι) :
    w' i = false := by
  obtain ⟨-, rfl⟩ := Prod.mk.inj (List.inj_on_of_nodup_map hT.nodup hw' hw rfl)
  exact hnone i

theorem callback_node [DecidableEq ι] [DecidableEq α] (hT : Tracked str s h t loc gone pos) {q : ℕ}
    {w : ι → Bool} (hw : (Item.node q, w) ∈ gone) (hnone : ∀ i, w i = false) :
    Tracked str ((RcuStep.callback (.node (loc q))).exec str s) h t loc
      (gone.filter (·.1 ≠ Item.node q)) pos := by
  have hq : Item.node q ∈ gone.map Prod.fst := List.mem_map_of_mem hw
  refine ⟨hT.inv, (hT.pooled.free (.inr hq)).congr_held fun x => ?_, hT.readers,
    hT.pending_dequeue hq, ?_, fun x hx => ?_, fun b hb => ?_, fun i u r hi p x hp hx => ?_,
    hT.fault⟩
  · rw [InUse, dequeue_fst, InUse, or_and_right]
    refine or_congr ⟨fun hx => ⟨hx, ?_⟩, And.left⟩ (and_congr_right fun _ => ?_)
    · rintro rfl
      exact hT.apart x hx hq
    · rw [ne_eq, Item.node.injEq]
  · exact hT.nodup.sublist (List.filter_sublist.map Prod.fst)
  · rw [dequeue_fst]
    exact fun hmem => hT.apart x hx hmem.1
  · rw [dequeue_fst]
    exact ⟨fun hmem => (hT.present b hb).1 hmem.1, (hT.present b hb).2⟩
  · have hfit := hT.secure i u r hi p x hp hx
    cases x with
    | node x =>
      refine hfit.imp id ?_
      rintro ⟨w', hw', hwi⟩
      refine ⟨w', mem_dequeue.2 ⟨hw', fun e => ?_⟩, hwi⟩
      rw [e] at hw'
      rw [hT.waits_for_none hw hnone hw' i] at hwi
      cases hwi
    | leaf b => exact ⟨hfit.1, fun w' hw' => hfit.2 w' (mem_dequeue.1 hw').1⟩

theorem callback_elem [DecidableEq ι] [DecidableEq α] (hT : Tracked str s h t loc gone pos) {a : α}
    {w : ι → Bool} (hw : (Item.elem a, w) ∈ gone) (hnone : ∀ i, w i = false) :
    Tracked str ((RcuStep.callback (.elem a)).exec str s) h t loc
      (gone.filter (·.1 ≠ Item.elem a)) pos := by
  have ha : Item.elem a ∈ gone.map Prod.fst := List.mem_map_of_mem hw
  refine ⟨hT.inv, hT.pooled.congr_held fun x => ?_, hT.readers, hT.pending_dequeue ha, ?_,
    fun x hx => ?_, fun b hb => ?_, fun i u r hi p x hp hx => ?_, hT.fault⟩
  · rw [InUse, dequeue_fst, InUse]
    exact or_congr_right ⟨And.left, fun hx => ⟨hx, nofun⟩⟩
  · exact hT.nodup.sublist (List.filter_sublist.map Prod.fst)
  · rw [dequeue_fst]
    exact fun hmem => hT.apart x hx hmem.1
  · obtain ⟨hgone, hdead⟩ := hT.present b hb
    rw [dequeue_fst]
    refine ⟨fun hmem => hgone hmem.1, fun hmem => ?_⟩
    rcases List.mem_cons.1 hmem with rfl | hmem
    · exact hgone ha
    · exact hdead hmem
  · have hfit := hT.secure i u r hi p x hp hx
    cases x with
    | node x =>
      refine hfit.imp id ?_
      rintro ⟨w', hw', hwi⟩
      exact ⟨w', mem_dequeue.2 ⟨hw', nofun⟩, hwi⟩
    | leaf b =>
      refine ⟨fun hmem => ?_, fun w' hw' => hfit.2 w' (mem_dequeue.1 hw').1⟩
      rcases List.mem_cons.1 hmem with rfl | hmem
      · -- a thread that could still come to the element would be waited for
        have hwi := hfit.2 w hw
        rw [hnone i] at hwi
        cases hwi
      · exact hfit.1 hmem

end Tracked

end Steps

end Lana
