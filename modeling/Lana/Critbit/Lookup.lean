import Lana.Critbit.Heap

/-!
# Lookups beside writers

`critbit_get` takes no lock: it loads the root, then one child pointer after the other, and in the
end compares the string it arrived at.  Between any two of these steps writers may run.  A string
that is in the tree all along is found, one that is not there all along is not, and the lookup
ends after a bounded number of its own steps whatever the writers do
(`critbit_get_beside_writers`).
-/

namespace Lana

open TreeHeap

/-- Where a `critbit_get` stands. -/
inductive Reader (α : Type*) where
  | start
  | cursor (p : Ptr α)
  | done (r : Option α)

/-- A step of a system with one lookup and any number of writers, serialised by `wr_lock`. -/
inductive LookupStep (α : Type*) where
  | read
  | write (op : CritbitOp α)

/-- The memory and the lookup. -/
structure Lookup (α : Type*) where
  heap : CritbitHeap α
  reader : Reader α

section Steps

variable {α : Type*} (str : α → CStr)

/-- One load of `__critbit_get`, or its final comparison. -/
def Reader.step (u : CStr) (h : CritbitHeap α) : Reader α → Reader α
  | .start =>
    match h.root with
    | none => .done none
    | some p => .cursor p
  | .cursor (.leaf a) => .done (if u = str a then some a else none)
  | .cursor (.node q) =>
    match h.cells[q]? with
    | none => .cursor (.node q)
    | some c => .cursor (c.child (c.data.side u))
  | .done r => .done r

/-- A writer's call on the memory. -/
def CritbitOp.execHeap (h : CritbitHeap α) : CritbitOp α → Option (Ret × CritbitHeap α)
  | .insert a alloc => heapInsert str alloc h a
  | .delete k => heapDelete str h k

/-- The memory after a sequence of calls from the empty tree. -/
def runHeap (ops : List (CritbitOp α)) : Option (CritbitHeap α) :=
  ops.foldlM (fun h op => (op.execHeap str h).map Prod.snd) ⟨none, []⟩

def LookupStep.exec (u : CStr) (s : Lookup α) : LookupStep α → Option (Lookup α)
  | .read => some { s with reader := s.reader.step str u s.heap }
  | .write op => (op.execHeap str s.heap).map fun r => { s with heap := r.2 }

/-- An interleaving. -/
def runLookup (u : CStr) (s : Lookup α) (steps : List (LookupStep α)) : Option (Lookup α) :=
  steps.foldlM (LookupStep.exec str u) s

def LookupStep.isRead : LookupStep α → Bool
  | .read => true
  | .write _ => false

/-- `P` holds of what a lookup of `u` alone would return, at every moment of the interleaving. -/
def Throughout (u : CStr) (s : Lookup α) (steps : List (LookupStep α)) (P : Option α → Prop) :
    Prop :=
  ∀ pre s', pre <+: steps → runLookup str u s pre = some s' → P (heapGet str s'.heap u)

end Steps

section Runs

variable {α : Type*} {str : α → CStr}

theorem execHeap_refines {h : CritbitHeap α} {t : Option (Placed Split α)} (hi : HeapInv str h t)
    (op : CritbitOp α) : ∃ h' t', op.execHeap str h = some ((op.exec str (t.map forget)).1, h') ∧
      t'.map forget = (op.exec str (t.map forget)).2 ∧ Writes str h t h' t' := by
  cases op with
  | insert a alloc => exact heapInsert_refines hi alloc a
  | delete k => exact heapDelete_refines hi k

/-- The memory always holds the tree of the same calls. -/
theorem runHeap_refines (ops : List (CritbitOp α)) :
    ∃ h t, runHeap str ops = some h ∧ HeapInv str h t ∧
      t.map forget = (runCritbit str ops).1 := by
  unfold runHeap runCritbit
  induction ops using List.reverseRecOn with
  | nil => exact ⟨_, none, rfl, heapInv_empty, rfl⟩
  | append_singleton ops op ih =>
    obtain ⟨h, t, hrun, hi, ht⟩ := ih
    obtain ⟨h', t', hexec, ht', hwr⟩ := execHeap_refines hi op
    refine ⟨h', t', ?_, hwr.inv, ?_⟩
    · simp [List.foldlM_append, hrun, hexec]
    · rw [ht', ht, List.foldl_append, List.foldl_cons, List.foldl_nil]

/-- A string that is there before and after a call has the same reference. -/
theorem exec_get_eq {tree : CritbitTree α} (hw : Wf str tree) (op : CritbitOp α) {u : CStr}
    (h : critbitGet str tree u ≠ none) (h' : critbitGet str (op.exec str tree).2 u ≠ none) :
    critbitGet str (op.exec str tree).2 u = critbitGet str tree u := by
  cases op with
  | insert a alloc =>
    simp only [CritbitOp.exec] at h' ⊢
    by_cases hok : (critbitInsert str alloc tree a).1 = .ok
    · rw [critbitGet_insert_ok hw hok]
      split_ifs with hu
      · -- `u` would have been there already
        have hex := (critbitInsert_eexist_iff hw alloc a).2 (hu ▸ h)
        rw [hok] at hex
        cases hex
      · rfl
    · rw [(critbitInsert_not_ok hw hok).1]
  | delete k =>
    simp only [CritbitOp.exec, critbitGet_delete hw] at h' ⊢
    split_ifs at h' ⊢ with hu
    · exact absurd rfl h'
    · rfl

/-! ## The lookup ends -/

/-- What `n` steps of the lookup are worth. -/
def Progress (n : ℕ) (s : Lookup α) : Prop :=
  match s.reader with
  | .start => n = 0
  | .cursor (.leaf _) => n ≤ 1 + 8 * 2 ^ 32
  | .cursor (.node q) => ∃ c, s.heap.cells[q]? = some c ∧ n ≤ 1 + c.data.rank
  | .done _ => True

theorem progress_cursor {n : ℕ} {s : Lookup α} {p : Ptr α}
    (hr : Ranked Split.rank (8 * 2 ^ 32) s.heap.cells) {c : Cell Split α} {q : ℕ}
    (hc : s.heap.cells[q]? = some c) (hn : n ≤ 1 + c.data.rank) {d : Bool} (hp : c.child d = p) :
    Progress (n + 1) { s with reader := .cursor p } := by
  obtain ⟨hlt, hedge⟩ := hr q c hc
  cases p with
  | leaf a =>
    simp only [Progress]
    omega
  | node q' =>
    obtain ⟨c', hc', hrank⟩ := hedge d q' hp
    exact ⟨c', hc', by omega⟩

theorem progress_read {n : ℕ} {s : Lookup α} {t : Option (Placed Split α)} (u : CStr)
    (hi : HeapInv str s.heap t) (hp : Progress n s) :
    Progress (n + 1) { s with reader := s.reader.step str u s.heap } := by
  obtain ⟨h, reader⟩ := s
  cases reader with
  | start =>
    have hn : n = 0 := hp
    have hroot : h.root = t.map Placed.ptr := hi.live.root
    cases t with
    | none => simp only [Reader.step, hroot, Option.map_none, Progress]
    | some t =>
      have hin := hi.live.placed t rfl
      simp only [Reader.step, hroot, Option.map_some]
      cases t with
      | leaf a =>
        simp only [Placed.ptr, Progress]
        omega
      | node q test c => exact ⟨_, hin.1, by omega⟩
  | cursor p =>
    cases p with
    | leaf a => exact trivial
    | node q =>
      obtain ⟨c, hc, hn⟩ := hp
      dsimp only at hc
      simp only [Reader.step, hc]
      exact progress_cursor (s := ⟨h, .start⟩) hi.ranked hc hn rfl
  | done r => exact trivial

theorem progress_write {n : ℕ} {s : Lookup α} {h' : CritbitHeap α}
    (hk : Keeps s.heap.cells h'.cells) (hp : Progress n s) : Progress n { s with heap := h' } := by
  obtain ⟨h, reader⟩ := s
  cases reader with
  | start => exact hp
  | cursor p =>
    cases p with
    | leaf a => exact hp
    | node q =>
      obtain ⟨c, hc, hn⟩ := hp
      obtain ⟨c', hc', hdata⟩ := hk q c hc
      exact ⟨c', hc', by rw [hdata]; exact hn⟩
  | done r => exact trivial

/-- There are only so many positions. -/
theorem done_of_progress {n : ℕ} {s : Lookup α}
    (hr : Ranked Split.rank (8 * 2 ^ 32) s.heap.cells) (hp : Progress n s)
    (hn : 8 * 2 ^ 32 + 2 ≤ n) : ∃ r, s.reader = .done r := by
  obtain ⟨h, reader⟩ := s
  cases reader with
  | start =>
    have h0 : n = 0 := hp
    omega
  | cursor p =>
    cases p with
    | leaf a =>
      have hle : n ≤ 1 + 8 * 2 ^ 32 := hp
      omega
    | node q =>
      obtain ⟨c, hc, hle⟩ := hp
      have hlt := (hr q c hc).1
      omega
  | done r => exact ⟨r, rfl⟩

/-! ## The lookup is right -/

/-- What is true of the lookup while `r` is the answer. -/
def OnCourse (str : α → CStr) (u : CStr) (r : Option α) (s : Lookup α) : Prop :=
  match s.reader with
  | .start => True
  | .cursor p => Ends (Split.side u) s.heap.cells (Answers str u r) p
  | .done x => x = r

theorem onCourse_read {s : Lookup α} {t : Option (Placed Split α)} {u : CStr} {r : Option α}
    (hi : HeapInv str s.heap t) (hr : heapGet str s.heap u = r) (hs : OnCourse str u r s) :
    OnCourse str u r { s with reader := s.reader.step str u s.heap } := by
  obtain ⟨h, reader⟩ := s
  rw [heapGet_eq hi] at hr
  cases reader with
  | start =>
    have hroot : h.root = t.map Placed.ptr := hi.live.root
    cases t with
    | none =>
      simp only [Reader.step, hroot, Option.map_none, OnCourse]
      exact hr
    | some t =>
      simp only [Reader.step, hroot, Option.map_some, OnCourse]
      exact ends_root hi hr
  | cursor p =>
    cases hs with
    | leaf ha => exact ha
    | node hc hend =>
      simp only [Reader.step, hc, OnCourse]
      exact hend
  | done x => exact hs

theorem onCourse_write {s : Lookup α} {t t' : Option (Placed Split α)} {h' : CritbitHeap α}
    {u : CStr} {r : Option α} (hi : HeapInv str s.heap t) (hw : Writes str s.heap t h' t')
    (hr : heapGet str s.heap u = r) (hr' : heapGet str h' u = r) (hs : OnCourse str u r s) :
    OnCourse str u r { s with heap := h' } := by
  obtain ⟨h, reader⟩ := s
  rw [heapGet_eq hi] at hr
  rw [heapGet_eq hw.inv] at hr'
  cases reader with
  | start => exact trivial
  | cursor p => exact hw.ends u r p hr hr' hs
  | done x => exact hs

/-! ## Runs -/

theorem Throughout.head {u : CStr} {s : Lookup α} {steps : List (LookupStep α)}
    {P : Option α → Prop} (h : Throughout str u s steps P) : P (heapGet str s.heap u) :=
  h [] s List.nil_prefix rfl

theorem Throughout.tail {u : CStr} {s s' : Lookup α} {step : LookupStep α}
    {steps : List (LookupStep α)} {P : Option α → Prop}
    (h : Throughout str u s (step :: steps) P) (hs : step.exec str u s = some s') :
    Throughout str u s' steps P := by
  intro pre s'' hpre hrun
  refine h (step :: pre) s'' (List.cons_prefix_cons.2 ⟨rfl, hpre⟩) ?_
  simp only [runLookup, List.foldlM_cons, hs, Option.bind_eq_bind, Option.bind_some]
  exact hrun

/-- One step of either side. -/
theorem exec_spec {n : ℕ} {s : Lookup α} {t : Option (Placed Split α)} (u : CStr)
    (hi : HeapInv str s.heap t) (hp : Progress n s) (step : LookupStep α) :
    ∃ s' t', step.exec str u s = some s' ∧ HeapInv str s'.heap t' ∧
      Progress (n + if step.isRead then 1 else 0) s' ∧
      (heapGet str s.heap u ≠ none → heapGet str s'.heap u ≠ none →
        heapGet str s'.heap u = heapGet str s.heap u) ∧
      ∀ r, heapGet str s.heap u = r → heapGet str s'.heap u = r → OnCourse str u r s →
        OnCourse str u r s' := by
  cases step with
  | read =>
    exact ⟨_, t, rfl, hi, progress_read u hi hp, fun _ _ => rfl,
      fun r hr _ hs => onCourse_read hi hr hs⟩
  | write op =>
    obtain ⟨h', t', hexec, ht', hw⟩ := execHeap_refines hi op
    refine ⟨{ s with heap := h' }, t', by simp [LookupStep.exec, hexec], hw.inv,
      progress_write hw.keeps hp, fun h0 h1 => ?_, fun r hr hr' hs => onCourse_write hi hw hr hr' hs⟩
    rw [heapGet_eq hi] at h0 ⊢
    rw [heapGet_eq hw.inv, ht'] at h1 ⊢
    exact exec_get_eq hi.wf op h0 h1

theorem runLookup_progress {n : ℕ} {s : Lookup α} {t : Option (Placed Split α)} (u : CStr)
    (hi : HeapInv str s.heap t) (hp : Progress n s) (steps : List (LookupStep α)) :
    ∃ s' t', runLookup str u s steps = some s' ∧ HeapInv str s'.heap t' ∧
      Progress (n + steps.countP LookupStep.isRead) s' := by
  induction steps generalizing n s t with
  | nil => exact ⟨s, t, rfl, hi, hp⟩
  | cons step steps ih =>
    obtain ⟨s₁, t₁, hs₁, hi₁, hp₁, -, -⟩ := exec_spec u hi hp step
    obtain ⟨s', t', hrun, hi', hp'⟩ := ih hi₁ hp₁
    refine ⟨s', t', ?_, hi', ?_⟩
    · simp only [runLookup, List.foldlM_cons, hs₁, Option.bind_eq_bind, Option.bind_some]
      exact hrun
    · rw [List.countP_cons, Nat.add_comm (steps.countP _), ← Nat.add_assoc]
      exact hp'

/-- While the answer is `r`, the lookup can only return `r`. -/
theorem runLookup_onCourse {n : ℕ} {s s' : Lookup α} {t : Option (Placed Split α)} {u : CStr}
    {r : Option α} (hi : HeapInv str s.heap t) (hp : Progress n s)
    {steps : List (LookupStep α)} (hr : Throughout str u s steps (· = r))
    (hs : OnCourse str u r s) (hrun : runLookup str u s steps = some s') : OnCourse str u r s' := by
  induction steps generalizing n s t with
  | nil =>
    cases hrun
    exact hs
  | cons step steps ih =>
    obtain ⟨s₁, t₁, hs₁, hi₁, hp₁, -, hcourse⟩ := exec_spec u hi hp step
    have hr₁ := hr.tail hs₁
    refine ih hi₁ hp₁ hr₁ (hcourse r hr.head hr₁.head hs) ?_
    simpa only [runLookup, List.foldlM_cons, hs₁, Option.bind_eq_bind, Option.bind_some] using hrun

/-- A string that is always there keeps its reference. -/
theorem throughout_of_present {n : ℕ} {s : Lookup α} {t : Option (Placed Split α)} {u : CStr}
    (hi : HeapInv str s.heap t) (hp : Progress n s) {steps : List (LookupStep α)}
    (h : Throughout str u s steps (· ≠ none)) :
    Throughout str u s steps (· = heapGet str s.heap u) := by
  induction steps generalizing n s t with
  | nil =>
    intro pre s' hpre hrun
    rw [List.prefix_nil.1 hpre] at hrun
    cases hrun
    rfl
  | cons step steps ih =>
    obtain ⟨s₁, t₁, hs₁, hi₁, hp₁, hsame, -⟩ := exec_spec u hi hp step
    have h₁ := h.tail hs₁
    have hget := hsame h.head h₁.head
    rintro pre s' hpre hrun
    cases pre with
    | nil =>
      cases hrun
      rfl
    | cons step' pre =>
      obtain ⟨rfl, hpre'⟩ := List.cons_prefix_cons.1 hpre
      rw [← hget]
      refine ih hi₁ hp₁ h₁ pre s' hpre' ?_
      simpa only [runLookup, List.foldlM_cons, hs₁, Option.bind_eq_bind, Option.bind_some]
        using hrun

end Runs

/-- **Lock-free lookups.**  For every history of the tree and every interleaving of a lookup of
`u` with further insertions and deletions: if `u` is in the tree at every moment, the lookup
returns its reference; if it is in the tree at no moment, the lookup returns `NULL`; and the
lookup has returned after `8 * 2 ^ 32 + 2` steps of its own. -/
theorem critbit_get_beside_writers {α : Type*} {str : α → CStr} (ops : List (CritbitOp α))
    (u : CStr) (steps : List (LookupStep α)) :
    ∃ h s, runHeap str ops = some h ∧ runLookup str u ⟨h, .start⟩ steps = some s ∧
      (Throughout str u ⟨h, .start⟩ steps (· ≠ none) → ∀ r, s.reader = .done r →
        r ≠ none ∧ r = critbitGet str (runCritbit str ops).1 u ∧ r = heapGet str s.heap u) ∧
      (Throughout str u ⟨h, .start⟩ steps (· = none) → ∀ r, s.reader = .done r → r = none) ∧
      (8 * 2 ^ 32 + 2 ≤ steps.countP LookupStep.isRead → ∃ r, s.reader = .done r) := by
  obtain ⟨h, t, hops, hi, ht⟩ := @runHeap_refines α str ops
  have hp : Progress 0 (⟨h, .start⟩ : Lookup α) := rfl
  obtain ⟨s, t', hrun, hi', hp'⟩ := runLookup_progress (s := ⟨h, .start⟩) u hi hp steps
  have hcourse : ∀ r, Throughout str u ⟨h, .start⟩ steps (· = r) → ∀ x, s.reader = .done x →
      x = r := by
    intro r hr x hx
    have hon := runLookup_onCourse (s := ⟨h, .start⟩) hi hp hr trivial hrun
    rw [OnCourse, hx] at hon
    exact hon
  refine ⟨h, s, hops, hrun, fun hpres r hx => ?_, fun habs r hx => hcourse none habs r hx,
    fun hn => ?_⟩
  · have hall := throughout_of_present (s := ⟨h, .start⟩) hi hp hpres
    obtain rfl := hcourse _ hall r hx
    refine ⟨hpres.head, ?_, (hall steps s (List.prefix_refl _) hrun).symm⟩
    rw [heapGet_eq hi, ht]
  · rw [Nat.zero_add] at hp'
    exact done_of_progress hi'.ranked hp' hn

/-- The lookup stands on the node that the deletion of the other string unlinks. -/
example :
    let a := CStr.mk [97] (by simp) (by simp)
    let b := CStr.mk [98] (by simp) (by simp)
    (do
      let h ← runHeap id [.insert a true, .insert b true]
      let s ← runLookup id b ⟨h, .start⟩ [.read, .write (.delete a), .read, .read]
      pure s.reader) = some (.done (some b)) := by
  rfl

end Lana
