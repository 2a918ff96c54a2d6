import Lana.Critbit.Rcu

/-!
# Nodes that are freed and used again

For every schedule of threads, writers and callbacks:

* no thread and no writer touches a node or an element that is free (`reclaim_safe`);
* a lookup returns the answer that holds at every moment of its section, after a bounded number of
  its own steps (`lookup_beside_reclaim`);
* the nodes in use are those of the tree and those that wait (`reclaim_exact`).
-/

namespace Lana

open TreeHeap

section Exec

variable {ι α : Type*} [DecidableEq ι] {str : α → CStr} {s : Rcu ι α} {h : CritbitHeap α}
  {t : Option (Placed Split α)} {loc : ℕ → ℕ} {gone : List (Item α × (ι → Bool))}
  {pos : ι → Option (CStr × Reader α)}

/-! ## A step -/

def RcuStep.isRead (i : ι) : RcuStep ι α → Bool
  | .read j => j = i
  | _ => false

def RcuStep.isLeave (i : ι) : RcuStep ι α → Bool
  | .leave j => j = i
  | _ => false

/-- What a step leaves to a thread that stays in its section: its own steps bring it forward, and it
stays on course to an answer that the step leaves alone. -/
def Steers (str : α → CStr) (step : RcuStep ι α) (m m' : CritbitPool α) (h : CritbitHeap α)
    (pos : ι → Option (CStr × Reader α)) (h' : CritbitHeap α)
    (pos' : ι → Option (CStr × Reader α)) : Prop :=
  ∀ i u r, pos i = some (u, r) → step.isLeave i = false → ∃ r', pos' i = some (u, r') ∧
    (∀ n, Progress n ⟨h, r⟩ → Progress (n + if step.isRead i then 1 else 0) ⟨h', r'⟩) ∧
    ∀ o, poolGet str m u = o → poolGet str m' u = o →
      OnCourse str u o ⟨h, r⟩ → OnCourse str u o ⟨h', r'⟩

variable {s' : Rcu ι α} {h' : CritbitHeap α} {t' : Option (Placed Split α)} {loc' : ℕ → ℕ}
  {gone' : List (Item α × (ι → Bool))} {pos' : ι → Option (CStr × Reader α)}

/-- A step that moves no thread but those that enter or leave. -/
theorem steers_of_writes (hT : Tracked str s h t loc gone pos)
    (hT' : Tracked str s' h' t' loc' gone' pos') (hw : Writes str h t h' t') {step : RcuStep ι α}
    (hpos : ∀ i, pos i ≠ none → step.isLeave i = false → pos' i = pos i)
    (hread : ∀ i, step.isRead i = false) :
    Steers str step s.mem s'.mem h pos h' pos' := by
  intro i u r hi hleave
  refine ⟨r, ?_, fun n hn => ?_, fun o ho ho' hon => ?_⟩
  · rw [hpos i (by rw [hi]; exact nofun) hleave, hi]
  · rw [hread i]
    exact progress_write (s := ⟨h, r⟩) hw.keeps hn
  · rw [hT.get_eq, ← heapGet_eq hT.inv] at ho
    rw [hT'.get_eq, ← heapGet_eq hT'.inv] at ho'
    exact onCourse_write (s := ⟨h, r⟩) hT.inv hw ho ho' hon

theorem steers_read (hT : Tracked str s h t loc gone pos) {i : ι} {u : CStr} {r : Reader α}
    (hpos : pos i = some (u, r)) (m : CritbitPool α) :
    Steers str (.read i) s.mem m h pos h
      (Function.update pos i (some (u, r.step str u h))) := by
  intro j v r' hj _
  by_cases hji : j = i
  · subst hji
    rw [hpos] at hj
    cases hj
    refine ⟨_, Function.update_self .., fun n hn => ?_, fun o ho _ hon => ?_⟩
    · simp only [RcuStep.isRead, decide_true, if_true]
      exact progress_read (s := ⟨h, r⟩) u hT.inv hn
    · rw [hT.get_eq, ← heapGet_eq hT.inv] at ho
      exact onCourse_read (s := ⟨h, r⟩) hT.inv ho hon
  · refine ⟨r', by rw [Function.update_of_ne hji, hj], fun n hn => ?_, fun _ _ _ hon => hon⟩
    have hne : RcuStep.isRead (α := α) j (.read i) = false := decide_eq_false fun e => hji e.symm
    rw [hne]
    exact hn

variable [DecidableEq α]

theorem Tracked.insert (hT : Tracked str s h t loc gone pos) {a : α} {slot : Option ℕ}
    (hok : (RcuStep.insert a slot : RcuStep ι α).Possible str s) :
    ∃ h' t' loc', Tracked str ((RcuStep.insert a slot).exec str s) h' t' loc' gone pos ∧
      Writes str h t h' t' := by
  obtain ⟨hslot, hdead, hgone⟩ := hok
  rw [hT.elem_mem_pending] at hgone
  obtain ⟨ret, m', h', t', hins, hcase, hw, hstored⟩ :=
    poolInsert_spec hT.inv hT.pooled (fun _ hq => .inl hq) slot a
  have hexec : (RcuStep.insert a slot).exec str s = { s with mem := m' } := by
    simp only [RcuStep.exec, hins]
    exact Rcu.touch_eq fun b hb => hT.leaf_alive hb
  have hpres : Present t' gone s.dead := by
    intro b hb
    rcases hstored b hb with rfl | hb
    · exact ⟨hgone, hdead⟩
    · exact hT.present b hb
  rw [hexec]
  cases hcase with
  | refused => exact ⟨h, t, loc, hT, hw⟩
  | first ht =>
    refine ⟨_, _, loc, hT.root hw ?_ ?_ hpres, hw⟩
    · rintro q ⟨s', hs', -⟩
      rw [ht] at hs'
      cases hs'
    · rintro q ⟨s', hs', hq⟩
      cases hs'
      cases hq
  | linked ext sub test d q ht hq =>
    subst ht
    exact ⟨_, _, _, hT.link hw (hslot q hq) hpres, hw⟩

theorem Tracked.delete (hT : Tracked str s h t loc gone pos) (k : CStr) :
    ∃ h' t' gone', Tracked str ((RcuStep.delete k).exec str s) h' t' loc gone' pos ∧
      Writes str h t h' t' := by
  obtain ⟨ret, m', o, h', t', hdel, hcase, hw, hstored⟩ :=
    poolDelete_spec hT.inv hT.pooled (fun _ hq => .inl hq) k
  have htouch : Rcu.touch { s with mem := m' } (poolLeaf s.mem k) = { s with mem := m' } :=
    Rcu.touch_eq fun b hb => hT.leaf_alive hb
  have hpres : Present t' gone s.dead := fun b hb => hT.present b (hstored b hb)
  cases hcase with
  | nothing =>
    refine ⟨h, t, gone, ?_, hw⟩
    simp only [RcuStep.exec, hdel, Option.map_none, htouch]
    exact hT
  | last a ht =>
    refine ⟨_, _, gone, ?_, hw⟩
    simp only [RcuStep.exec, hdel, Option.map_none, htouch]
    refine hT.root hw ?_ ?_ hpres
    · rintro q ⟨s', hs', hq⟩
      rw [ht] at hs'
      cases hs'
      cases hq
    · rintro q ⟨s', hs', -⟩
      cases hs'
  | unlinked ext q test c d a hleaf ht =>
    subst ht
    refine ⟨_, _, await gone pos (.node q), ?_, hw⟩
    simp only [RcuStep.exec, hdel, Option.map_some, htouch]
    exact hT.unlink hleaf hw hpres

/-- **Step.** -/
theorem Tracked.exec (hT : Tracked str s h t loc gone pos) {step : RcuStep ι α}
    (hok : step.Possible str s) :
    ∃ h' t' loc' gone' pos', Tracked str (step.exec str s) h' t' loc' gone' pos' ∧
      Steers str step s.mem (step.exec str s).mem h pos h' pos' := by
  have hrefl := Writes.refl hT.inv
  cases step with
  | enter i u =>
    refine ⟨_, _, _, _, _, hT.enter i u, steers_of_writes hT (hT.enter i u) hrefl ?_ fun _ => rfl⟩
    intro j hj _
    refine Function.update_of_ne ?_ ..
    rintro rfl
    have hnone : s.readers j = none := hok
    rw [hT.readers, Option.map_eq_none_iff] at hnone
    exact hj hnone
  | read i =>
    cases hpos : pos i with
    | none =>
      have hnone : s.readers i = none := by
        rw [hT.readers, hpos]
        rfl
      have hexec : (RcuStep.read i).exec str s = s := by simp only [RcuStep.exec, hnone]
      rw [hexec]
      refine ⟨_, _, _, _, _, hT, fun j u r hj _ => ⟨r, hj, fun n hn => ?_, fun _ _ _ hon => hon⟩⟩
      have hne : RcuStep.isRead (α := α) j (.read i) = false := by
        refine decide_eq_false ?_
        rintro rfl
        rw [hpos] at hj
        cases hj
      rw [hne]
      exact hn
    | some v => exact ⟨_, _, _, _, _, hT.read hpos, steers_read hT hpos _⟩
  | leave i =>
    refine ⟨_, _, _, _, _, hT.leave i, steers_of_writes hT (hT.leave i) hrefl ?_ fun _ => rfl⟩
    intro j _ hj
    refine Function.update_of_ne ?_ ..
    rintro rfl
    exact of_decide_eq_false hj rfl
  | insert a slot =>
    obtain ⟨h', t', loc', hT', hw⟩ := hT.insert hok
    exact ⟨h', t', loc', gone, pos, hT', steers_of_writes hT hT' hw (fun _ _ _ => rfl) fun _ => rfl⟩
  | delete k =>
    obtain ⟨h', t', gone', hT', hw⟩ := hT.delete k
    exact ⟨h', t', loc, gone', pos, hT', steers_of_writes hT hT' hw (fun _ _ _ => rfl) fun _ => rfl⟩
  | release a =>
    have hT' := hT.release hok.1 hok.2.2
    exact ⟨_, _, _, _, _, hT', steers_of_writes hT hT' hrefl (fun _ _ _ => rfl) fun _ => rfl⟩
  | callback x =>
    obtain ⟨w, hmem, hnone⟩ := hok
    rw [hT.pending] at hmem
    obtain ⟨⟨y, w'⟩, hy, e⟩ := List.mem_map.1 hmem
    obtain ⟨rfl, rfl⟩ := Prod.mk.inj e
    cases y with
    | node q =>
      have hT' := hT.callback_node hy hnone
      exact ⟨_, _, _, _, _, hT', steers_of_writes hT hT' hrefl (fun _ _ _ => rfl) fun _ => rfl⟩
    | elem a =>
      have hT' := hT.callback_elem hy hnone
      exact ⟨_, _, _, _, _, hT', steers_of_writes hT hT' hrefl (fun _ _ _ => rfl) fun _ => rfl⟩

/-! ## Runs -/

/-- **Run.** -/
theorem Tracked.run (hT : Tracked str s h t loc gone pos) {steps : List (RcuStep ι α)}
    (hok : Transition.Allowed (RcuStep.exec str) (RcuStep.Possible str) s steps) :
    ∃ h' t' loc' gone' pos',
      Tracked str (steps.foldl (RcuStep.exec str) s) h' t' loc' gone' pos' := by
  have hinv := Transition.invariant_of_allowed
    (I := fun s => ∃ h t loc gone pos, Tracked str s h t loc gone pos) ?_
    ⟨h, t, loc, gone, pos, hT⟩ hok
  · exact hinv
  · rintro s step ⟨h, t, loc, gone, pos, hT⟩ hstep
    obtain ⟨h', t', loc', gone', pos', hT', -⟩ := hT.exec hstep
    exact ⟨h', t', loc', gone', pos', hT'⟩

/-- A thread that does not leave its section comes forward and stays on course. -/
theorem Tracked.run_section (hT : Tracked str s h t loc gone pos) {i : ι} {u : CStr} {r : Reader α}
    (hpos : pos i = some (u, r)) {n : ℕ} (hn : Progress n ⟨h, r⟩) {steps : List (RcuStep ι α)}
    (hok : Transition.Allowed (RcuStep.exec str) (RcuStep.Possible str) s steps)
    (hin : ∀ step ∈ steps, step.isLeave i = false) :
    ∃ h' t' loc' gone' pos' r', Tracked str (steps.foldl (RcuStep.exec str) s) h' t' loc' gone' pos' ∧
      pos' i = some (u, r') ∧ Progress (n + steps.countP (RcuStep.isRead i)) ⟨h', r'⟩ ∧
      ∀ o, (∀ pre, pre <+: steps → poolGet str (pre.foldl (RcuStep.exec str) s).mem u = o) →
        OnCourse str u o ⟨h, r⟩ → OnCourse str u o ⟨h', r'⟩ := by
  induction steps generalizing s h t loc gone pos r n with
  | nil => exact ⟨h, t, loc, gone, pos, r, hT, hpos, hn, fun _ _ hon => hon⟩
  | cons step steps ih =>
    obtain ⟨h₁, t₁, loc₁, gone₁, pos₁, hT₁, hsteer⟩ := hT.exec hok.1
    obtain ⟨r₁, hpos₁, hprog, hcourse⟩ := hsteer i u r hpos (hin step List.mem_cons_self)
    obtain ⟨h', t', loc', gone', pos', r', hT', hpos', hn', hon'⟩ :=
      ih hT₁ hpos₁ (hprog n hn) hok.2 fun x hx => hin x (List.mem_cons_of_mem step hx)
    refine ⟨h', t', loc', gone', pos', r', hT', hpos', ?_, fun o ho hon => ?_⟩
    · rw [List.countP_cons, Nat.add_comm (steps.countP _), ← Nat.add_assoc]
      exact hn'
    · have hfirst : poolGet str (step.exec str s).mem u = o :=
        ho [step] (List.prefix_append [step] steps)
      refine hon' o (fun pre hpre => ?_) (hcourse o (ho [] List.nil_prefix) hfirst hon)
      exact ho (step :: pre) (List.cons_prefix_cons.2 ⟨rfl, hpre⟩)

theorem tracked_run {n : ℕ} {steps : List (RcuStep ι α)} (hs : Schedule str n steps) :
    ∃ h t loc gone pos, Tracked str (runRcu str n steps) h t loc gone pos :=
  (tracked_init n).run hs

end Exec

/-! ## The nodes of a tree -/

section Count

variable {ι α : Type*} {str : α → CStr} {s : Rcu ι α} {h : CritbitHeap α}
  {t : Option (Placed Split α)} {loc : ℕ → ℕ} {gone : List (Item α × (ι → Bool))}
  {pos : ι → Option (CStr × Reader α)}

/-- No element is in the tree twice. -/
theorem nodup_elems {t : Placed Split α} (hw : Wf str (some (forget t))) : t.elems.Nodup := by
  induction t with
  | leaf a => exact List.nodup_singleton a
  | node q test c ih =>
    refine List.nodup_append.2 ⟨ih _ (wf_child hw _), ih _ (wf_child hw _), ?_⟩
    rintro a ha b hb rfl
    -- the two sides differ in the bit that the node tests
    have h0 := bitAt_of_child hw (stored_iff_mem_elems.2 ha)
    have h1 := bitAt_of_child hw (stored_iff_mem_elems.2 hb)
    rw [h0] at h1
    cases h1

/-- The node that waits. -/
def Item.addr : Item α → Option ℕ
  | .node q => some q
  | .elem _ => none

/-- The elements of the tree. -/
theorem Tracked.exists_elems (hT : Tracked str s h t loc gone pos) :
    ∃ l nodes : List _, l.Nodup ∧ (∀ a, a ∈ l ↔ poolGet str s.mem (str a) = some a) ∧
      nodes.Nodup ∧ (∀ q, q ∈ nodes ↔ InTree t q) ∧ nodes.length = l.length - 1 := by
  have hmem : ∀ a, Stored (t.map forget) a ↔ poolGet str s.mem (str a) = some a := by
    intro a
    rw [hT.get_eq, critbitGet_eq_some hT.inv.wf]
    exact ⟨fun ha => ⟨ha, rfl⟩, And.left⟩
  cases t with
  | none =>
    refine ⟨[], [], List.nodup_nil, fun a => ?_, List.nodup_nil, fun q => ?_, rfl⟩
    · rw [← hmem]
      exact ⟨nofun, fun ha => absurd ha (not_stored_none a)⟩
    · exact ⟨nofun, fun ⟨_, ht, _⟩ => nomatch ht⟩
  | some t =>
    refine ⟨t.elems, t.addrs, nodup_elems hT.inv.wf, fun a => ?_, hT.inv.live.nodup _ rfl,
      fun q => ?_, ?_⟩
    · rw [← hmem, ← stored_iff_mem_elems]
      rfl
    · exact ⟨fun hq => ⟨t, rfl, hq⟩, fun ⟨_, ht, hq⟩ => Option.some.inj ht ▸ hq⟩
    · rw [t.length_elems]
      rfl

theorem Tracked.length_pending (hT : Tracked str s h t loc gone pos) :
    (s.pending.filterMap (·.1.addr)).length =
      ((gone.map Prod.fst).filterMap Item.addr).length := by
  rw [hT.pending, List.filterMap_map, List.filterMap_map, List.length_filterMap_eq_countP,
    List.length_filterMap_eq_countP]
  congr 1
  funext x
  obtain ⟨y, w⟩ := x
  cases y <;> rfl

theorem Tracked.countP_eq (hT : Tracked str s h t loc gone pos) {nodes : List ℕ}
    (hnd : nodes.Nodup) (hnodes : ∀ q, q ∈ nodes ↔ InTree t q) :
    s.mem.cells.countP Option.isSome =
      nodes.length + (s.pending.filterMap (·.1.addr)).length := by
  have haddr : ∀ q, q ∈ (gone.map Prod.fst).filterMap Item.addr ↔
      Item.node q ∈ gone.map Prod.fst := by
    intro q
    rw [List.mem_filterMap]
    constructor
    · rintro ⟨x, hx, e⟩
      cases x with
      | node q' => rwa [Option.some.inj e] at hx
      | elem a => cases e
    · exact fun hq => ⟨_, hq, rfl⟩
  have hgone : ((gone.map Prod.fst).filterMap Item.addr).Nodup := by
    refine hT.nodup.filterMap fun x y q hx hy => ?_
    cases x with
    | elem a => cases hx
    | node q' =>
      cases y with
      | elem a => cases hy
      | node q'' => rw [Option.some.inj hx, Option.some.inj hy]
  have hdis : ∀ q ∈ nodes, ∀ q' ∈ (gone.map Prod.fst).filterMap Item.addr, q ≠ q' := by
    rintro q hq q' hq' rfl
    exact hT.apart q ((hnodes q).1 hq) ((haddr q).1 hq')
  rw [hT.pooled.countP_eq (List.nodup_append.2 ⟨hnd, hgone, hdis⟩) fun q => ?_,
    List.length_append, hT.length_pending]
  rw [List.mem_append, hnodes, haddr]
  rfl

end Count

/-! ## Every schedule -/

section Schedules

variable {ι α : Type*} [DecidableEq ι] [DecidableEq α] {str : α → CStr}

/-- **Nothing that is free is touched.**  Whatever the threads, the writers and the callbacks do,
no load goes to a node in the cache and no string that is compared is that of a freed element; a
thread in its section stands at a node in use, and the element it has in hand is not freed. -/
theorem reclaim_safe {n : ℕ} {steps : List (RcuStep ι α)} (hs : Schedule str n steps) :
    (runRcu str n steps).fault = false ∧
      ∀ i u r, (runRcu str n steps).readers i = some (u, r) →
        (∀ q, r = .cursor (.node q) → (runRcu str n steps).mem.read q ≠ none) ∧
        ∀ a, r.elem = some a → a ∉ (runRcu str n steps).dead := by
  obtain ⟨h, t, loc, gone, pos, hT⟩ := tracked_run hs
  refine ⟨hT.fault, fun i u r hr => ?_⟩
  rw [hT.readers i, Option.map_eq_some_iff] at hr
  obtain ⟨⟨v, r'⟩, hpos, e⟩ := hr
  obtain ⟨rfl, rfl⟩ := Prod.mk.inj e
  have hsec := hT.secure i v r' hpos
  constructor
  · intro q hq
    cases r' with
    | start => cases hq
    | done o => cases hq
    | cursor p =>
      cases p with
      | leaf a => cases hq
      | node q' =>
        obtain rfl : loc q' = q := Ptr.node.inj (Reader.cursor.inj hq)
        obtain ⟨c, -, hread⟩ := hT.pooled.cell q' (hsec _ _ rfl .refl).inUse
        rw [hread]
        exact nofun
  · intro a ha
    rw [Reader.elem_map] at ha
    exact hsec.elem_alive ha

/-- Two strings are inserted; a thread stands on their node when one of them is deleted and released,
returns the other and leaves. -/
def reuseStart (a b : CStr) : List (RcuStep Unit CStr) :=
  [.insert a none, .insert b (some 0), .enter () b, .read (), .delete a, .release a, .read (),
    .read (), .leave ()]

/-- The thread is in its next section when the callbacks run and the node is used for a third string;
it then walks through that node. -/
def reuseSection (a c : CStr) : List (RcuStep Unit CStr) :=
  [.callback (.node 0), .callback (.elem a), .insert c (some 0), .read (), .read (), .read ()]

def strA : CStr := ⟨[97], by simp, by simp⟩

def strB : CStr := ⟨[98], by simp, by simp⟩

def strC : CStr := ⟨[99], by simp, by simp⟩

def reuseRun : List (RcuStep Unit CStr) :=
  reuseStart strA strB ++ .enter () strB :: reuseSection strA strC

theorem reuseRun_schedule : Schedule id 1 reuseRun := by
  refine ⟨⟨nofun, nofun, nofun⟩, ⟨?_, nofun, nofun⟩, rfl, trivial, trivial, ⟨?_, nofun, ?_⟩, trivial,
    trivial, trivial, rfl, ⟨_, List.mem_cons_self, fun _ => rfl⟩,
    ⟨_, List.mem_cons_self, fun _ => rfl⟩, ⟨?_, ?_, nofun⟩, trivial, trivial, trivial, trivial⟩
  · rintro q ⟨⟩
    rfl
  · decide
  · decide
  · rintro q ⟨⟩
    rfl
  · decide

theorem reclaim_safe_reuse :
    (runRcu id 1 reuseRun).fault = false ∧ strA ∈ (runRcu id 1 reuseRun).dead :=
  ⟨(reclaim_safe reuseRun_schedule).1, List.mem_cons_self⟩

/-- **Lookups.**  A thread that looks `u` up and stays in its section is not disturbed by nodes that
are freed and handed out again: if a lookup of `u` alone would find `o` at every moment of the
section, the thread can only return `o`, and after `8 * 2 ^ 32 + 2` steps of its own it has
returned. -/
theorem lookup_beside_reclaim {n : ℕ} {pre mid : List (RcuStep ι α)} {i : ι} {u : CStr}
    (hs : Schedule str n (pre ++ .enter i u :: mid)) (hin : ∀ step ∈ mid, step.isLeave i = false) :
    ∃ r, (runRcu str n (pre ++ .enter i u :: mid)).readers i = some (u, r) ∧
      (∀ o, (∀ mid', mid' <+: mid →
          poolGet str (runRcu str n (pre ++ .enter i u :: mid')).mem u = o) →
        ∀ x, r = .done x → x = o) ∧
      (8 * 2 ^ 32 + 2 ≤ mid.countP (RcuStep.isRead i) → ∃ x, r = .done x) := by
  obtain ⟨hpre, henter, hmid⟩ := Transition.allowed_append.1 hs
  obtain ⟨h, t, loc, gone, pos, hT⟩ := (tracked_init n).run hpre
  have hT₀ := hT.enter i u
  have hsplit : ∀ mid', runRcu str n (pre ++ .enter i u :: mid') =
      mid'.foldl (RcuStep.exec str)
        ((RcuStep.enter i u).exec str (pre.foldl (RcuStep.exec str) (Rcu.init n))) := by
    intro mid'
    rw [runRcu, List.foldl_append, List.foldl_cons]
  obtain ⟨h', t', loc', gone', pos', r, hT', hpos', hprog, hcourse⟩ :=
    hT₀.run_section (Function.update_self ..) (n := 0) rfl hmid hin
  refine ⟨r.map loc', ?_, fun o ho x hx => ?_, fun hn => ?_⟩
  · rw [hsplit, hT'.readers i, hpos']
    rfl
  · have hon := hcourse o (fun mid' hmid' => hsplit mid' ▸ ho mid' hmid') trivial
    cases r with
    | start => cases hx
    | cursor p => cases hx
    | done y =>
      obtain rfl := Reader.done.inj hx
      exact hon
  · rw [Nat.zero_add] at hprog
    obtain ⟨x, rfl⟩ := done_of_progress hT'.inv.ranked hprog hn
    exact ⟨x, rfl⟩

/-- The node that the thread's section sees freed and handed out again is on its way to the answer. -/
theorem lookup_beside_reclaim_reuse :
    (runRcu id 1 reuseRun).readers () = some (strB, .done (some strB)) := by
  obtain ⟨r, hr, hfound, -⟩ := lookup_beside_reclaim (i := ()) reuseRun_schedule (by decide)
  rw [reuseRun, hr]
  have hdone : ∃ x, r = .done x := by
    have he : (runRcu id 1 reuseRun).readers () = some (_, .done (some _)) := rfl
    exact ⟨_, (Prod.mk.inj (Option.some.inj (hr.symm.trans he))).2⟩
  obtain ⟨x, rfl⟩ := hdone
  rw [hfound (some strB) ?_ x rfl]
  intro mid' hmid'
  rw [← List.mem_inits] at hmid'
  fin_cases hmid' <;> rfl

/-- **No node is lost.**  The nodes in use are one less than the strings in the tree, and those that
wait for a grace period. -/
theorem reclaim_exact {n : ℕ} {steps : List (RcuStep ι α)} (hs : Schedule str n steps) :
    ∃ l : List α, l.Nodup ∧
      (∀ a, a ∈ l ↔ poolGet str (runRcu str n steps).mem (str a) = some a) ∧
      (runRcu str n steps).mem.cells.countP Option.isSome =
        (l.length - 1) + ((runRcu str n steps).pending.filterMap (·.1.addr)).length := by
  obtain ⟨h, t, loc, gone, pos, hT⟩ := tracked_run hs
  obtain ⟨l, nodes, hl, hmem, hnd, hnodes, hlen⟩ := hT.exists_elems
  refine ⟨l, hl, hmem, ?_⟩
  rw [hT.countP_eq hnd hnodes, hlen]

/-- The one node is in use, so two strings are in the tree: the second and the third. -/
theorem reclaim_exact_reuse :
    (runRcu id 1 reuseRun).mem.cells.countP Option.isSome = 1 ∧
      ∀ x : CStr, poolGet id (runRcu id 1 reuseRun).mem x = some x ↔ x ∈ [strB, strC] := by
  obtain ⟨l, hl, hmem, hcount⟩ := reclaim_exact reuseRun_schedule
  have hused : (runRcu id 1 reuseRun).mem.cells.countP Option.isSome = 1 := rfl
  have hlen : l.length ≤ [strB, strC].length := by
    have hnone : ((runRcu id 1 reuseRun).pending.filterMap (·.1.addr)).length = 0 := rfl
    rw [hused, hnone] at hcount
    show l.length ≤ 2
    omega
  have hsub : [strB, strC] ⊆ l := by
    intro x hx
    rw [hmem]
    fin_cases hx <;> rfl
  have hperm := (List.subperm_of_subset (by decide : [strB, strC].Nodup) hsub).perm_of_length_le hlen
  exact ⟨hused, fun x => (hmem x).symm.trans hperm.symm.mem_iff⟩

end Schedules

end Lana
