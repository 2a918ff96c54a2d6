import Mathlib.Tactic

/-!
# Binary trees in a heap

Cells at the addresses `0, 1, …`, each with its data and two child pointers; a pointer is an
address or, untagged, an element.  A walk asks `next` for a side at every cell it passes.

`Placed` is a tree together with the addresses of its inner nodes, `Live h (some t)` says that the
heap's root points to it, and `plug ctx t` is a tree with the subtree `t` in focus.  A writer
publishes a new subtree with one store at the focus (`live_store`).  A reader that stands
anywhere, on a cell of the tree or on one unlinked long ago, still ends in an element with `P`
when the walk through the replaced subtree may (`Ends.publish`).  Cells that are no longer in the
tree keep their contents.
-/

namespace TreeHeap

variable {β α : Type*}

/-- A child pointer. -/
inductive Ptr (α : Type*) where
  | leaf (a : α)
  | node (q : ℕ)

/-- An inner node in memory. -/
structure Cell (β α : Type*) where
  data : β
  child : Bool → Ptr α

/-- `c->child[d] = p`. -/
def Cell.setChild (c : Cell β α) (d : Bool) (p : Ptr α) : Cell β α :=
  { c with child := Function.update c.child d p }

/-- Where a pointer is kept. -/
inductive Loc where
  | root
  | child (q : ℕ) (d : Bool)

/-- The root pointer, `none` for `NULL`, and the cells handed out so far. -/
structure Heap (β α : Type*) where
  root : Option (Ptr α)
  cells : List (Cell β α)

namespace Heap

/-- A new cell, at the address `h.cells.length`. -/
def alloc (h : Heap β α) (c : Cell β α) : Heap β α := { h with cells := h.cells ++ [c] }

/-- The store `*w = p`. -/
def store (h : Heap β α) (w : Loc) (p : Ptr α) : Heap β α :=
  match w with
  | .root => { h with root := some p }
  | .child q d => { h with cells := h.cells.modify q (·.setChild d p) }

end Heap

/-- The walk from a pointer through at most `n` cells. -/
def walkFrom (next : β → Bool) (cells : List (Cell β α)) : ℕ → Ptr α → Option α
  | _, .leaf a => some a
  | 0, .node _ => none
  | n + 1, .node q =>
    match cells[q]? with
    | none => none
    | some c => walkFrom next cells n (c.child (next c.data))

/-- The walk from a pointer ends in an element with `P`. -/
inductive Ends (next : β → Bool) (cells : List (Cell β α)) (P : α → Prop) : Ptr α → Prop
  | leaf {a : α} : P a → Ends next cells P (.leaf a)
  | node {q : ℕ} {c : Cell β α} : cells[q]? = some c →
      Ends next cells P (c.child (next c.data)) → Ends next cells P (.node q)

/-! ## Placed trees -/

/-- A tree with the addresses of its inner nodes. -/
inductive Placed (β α : Type*) where
  | leaf (a : α)
  | node (q : ℕ) (data : β) (child : Bool → Placed β α)

namespace Placed

def ptr : Placed β α → Ptr α
  | leaf a => .leaf a
  | node q _ _ => .node q

def addrs : Placed β α → List ℕ
  | leaf _ => []
  | node q _ c => q :: ((c false).addrs ++ (c true).addrs)

/-- The tree is in memory. -/
def In (cells : List (Cell β α)) : Placed β α → Prop
  | leaf _ => True
  | node q data c => cells[q]? = some ⟨data, fun d => (c d).ptr⟩ ∧ ∀ d, (c d).In cells

def walk (next : β → Bool) : Placed β α → α
  | leaf a => a
  | node _ data c => (c (next data)).walk next

theorem mem_addrs_node {q q' : ℕ} {data : β} {c : Bool → Placed β α} :
    q' ∈ (node q data c).addrs ↔ q' = q ∨ ∃ d, q' ∈ (c d).addrs := by
  simp [addrs, Bool.exists_bool]

theorem In.congr {cells cells' : List (Cell β α)} {t : Placed β α} (ht : t.In cells)
    (h : ∀ q ∈ t.addrs, cells'[q]? = cells[q]?) : t.In cells' := by
  induction t with
  | leaf a => exact trivial
  | node q data c ih =>
    refine ⟨(h q (mem_addrs_node.2 (Or.inl rfl))).trans ht.1, fun d => ih d (ht.2 d) ?_⟩
    intro q' hq'
    exact h q' (mem_addrs_node.2 (Or.inr ⟨d, hq'⟩))

theorem In.lt_length {cells : List (Cell β α)} {t : Placed β α} (ht : t.In cells) {q : ℕ}
    (hq : q ∈ t.addrs) : q < cells.length := by
  induction t with
  | leaf a => cases hq
  | node q' data c ih =>
    obtain rfl | ⟨d, hd⟩ := mem_addrs_node.1 hq
    · obtain ⟨hlt, -⟩ := List.getElem?_eq_some_iff.1 ht.1
      exact hlt
    · exact ih d (ht.2 d) hd

theorem In.alloc {cells : List (Cell β α)} {t : Placed β α} (ht : t.In cells) (c : Cell β α) :
    t.In (cells ++ [c]) :=
  ht.congr fun _ hq => List.getElem?_append_left (ht.lt_length hq)

/-- A walk through a tree in memory takes at most a step for each of its nodes. -/
theorem walkFrom_eq {next : β → Bool} {cells : List (Cell β α)} {t : Placed β α} (ht : t.In cells)
    {n : ℕ} (hn : t.addrs.length ≤ n) : walkFrom next cells n t.ptr = some (t.walk next) := by
  induction t generalizing n with
  | leaf a => simp only [ptr, walkFrom, walk]
  | node q data c ih =>
    simp only [addrs, List.length_cons, List.length_append] at hn
    obtain ⟨m, rfl⟩ : ∃ m, n = m + 1 := ⟨n - 1, by omega⟩
    simp only [ptr, walkFrom, ht.1, walk]
    apply ih (next data) (ht.2 _)
    cases next data <;> omega

/-- The distinct nodes of a tree are at most as many as the cells. -/
theorem In.length_le {cells : List (Cell β α)} {t : Placed β α} (ht : t.In cells)
    (hnd : t.addrs.Nodup) : t.addrs.length ≤ cells.length := by
  have hsub : t.addrs ⊆ List.range cells.length := fun q hq => List.mem_range.2 (ht.lt_length hq)
  simpa using (hnd.subperm hsub).length_le

theorem ends_iff {next : β → Bool} {cells : List (Cell β α)} {P : α → Prop} {t : Placed β α}
    (ht : t.In cells) : Ends next cells P t.ptr ↔ P (t.walk next) := by
  induction t with
  | leaf a =>
    refine ⟨fun h => ?_, fun h => .leaf h⟩
    cases h with
    | leaf h => exact h
  | node q data c ih =>
    rw [walk, ← ih (next data) (ht.2 _)]
    constructor
    · intro h
      cases h with
      | node hq h =>
        cases hq.symm.trans ht.1
        exact h
    · exact fun h => .node ht.1 h

end Placed

/-! ## A subtree in focus -/

/-- A node on the way from the root to the focus; `child d` is not used. -/
structure Crumb (β α : Type*) where
  q : ℕ
  data : β
  child : Bool → Placed β α
  d : Bool

namespace Crumb

def plug (f : Crumb β α) (t : Placed β α) : Placed β α :=
  .node f.q f.data (Function.update f.child f.d t)

/-- The addresses of the node and of the side that is not in focus. -/
def addrs (f : Crumb β α) : List ℕ := f.q :: (f.child (!f.d)).addrs

theorem perm_addrs_plug (f : Crumb β α) (t : Placed β α) :
    (f.plug t).addrs.Perm (f.addrs ++ t.addrs) := by
  obtain ⟨q, data, c, d⟩ := f
  simp only [plug, addrs, Placed.addrs, List.cons_append]
  apply List.Perm.cons
  cases d with
  | false => simpa using List.perm_append_comm
  | true => simp

end Crumb

/-- The whole tree, the innermost frame first. -/
def plug : List (Crumb β α) → Placed β α → Placed β α
  | [], t => t
  | f :: ctx, t => plug ctx (f.plug t)

/-- Where the pointer to the focus is kept. -/
def locOf : List (Crumb β α) → Loc
  | [] => .root
  | f :: _ => .child f.q f.d

@[simp] theorem locOf_nil : locOf ([] : List (Crumb β α)) = .root := rfl

def ctxAddrs (ctx : List (Crumb β α)) : List ℕ := ctx.flatMap Crumb.addrs

theorem plug_append (ctx ctx' : List (Crumb β α)) (t : Placed β α) :
    plug (ctx ++ ctx') t = plug ctx' (plug ctx t) := by
  induction ctx generalizing t with
  | nil => rfl
  | cons f ctx ih => exact ih _

theorem perm_addrs_plug (ctx : List (Crumb β α)) (t : Placed β α) :
    (plug ctx t).addrs.Perm (ctxAddrs ctx ++ t.addrs) := by
  induction ctx generalizing t with
  | nil => exact List.Perm.refl _
  | cons f ctx ih =>
    have h := (ih (f.plug t)).trans ((f.perm_addrs_plug t).append_left _)
    refine h.trans ?_
    rw [← List.append_assoc]
    exact List.Perm.append_right _ List.perm_append_comm

theorem mem_addrs_plug {ctx : List (Crumb β α)} {t : Placed β α} {q : ℕ} :
    q ∈ (plug ctx t).addrs ↔ q ∈ ctxAddrs ctx ∨ q ∈ t.addrs := by
  rw [(perm_addrs_plug ctx t).mem_iff, List.mem_append]

theorem nodup_plug {ctx : List (Crumb β α)} {t : Placed β α} :
    (plug ctx t).addrs.Nodup ↔
      (ctxAddrs ctx).Nodup ∧ t.addrs.Nodup ∧ ∀ q ∈ t.addrs, q ∉ ctxAddrs ctx := by
  rw [(perm_addrs_plug ctx t).nodup_iff, List.nodup_append']
  refine and_congr_right fun _ => and_congr_right fun _ => ?_
  exact ⟨fun h q hq hc => h hc hq, fun h q hc hq => h q hq hc⟩

theorem ptr_plug_congr (ctx : List (Crumb β α)) {t t' : Placed β α} (h : t.ptr = t'.ptr) :
    (plug ctx t).ptr = (plug ctx t').ptr := by
  induction ctx generalizing t t' with
  | nil => exact h
  | cons f ctx ih => exact ih rfl

theorem ptr_update (c : Bool → Placed β α) (d : Bool) (t : Placed β α) :
    (fun b => (Function.update c d t b).ptr) = Function.update (fun b => (c b).ptr) d t.ptr := by
  ext1 b
  by_cases hb : b = d
  · rw [hb, Function.update_self, Function.update_self]
  · rw [Function.update_of_ne hb, Function.update_of_ne hb]

section InPlug

variable {cells cells' : List (Cell β α)}

theorem in_of_plug {ctx : List (Crumb β α)} {t : Placed β α} (h : (plug ctx t).In cells) :
    t.In cells := by
  induction ctx generalizing t with
  | nil => exact h
  | cons f ctx ih =>
    have hf := (ih h).2 f.d
    rwa [Function.update_self] at hf

/-- The children of a frame with another subtree in focus. -/
theorem in_child {f : Crumb β α} {t t' : Placed β α} (h : (f.plug t).In cells)
    (ht' : t'.In cells') (hcells : ∀ q ∈ (f.child (!f.d)).addrs, cells'[q]? = cells[q]?)
    (d : Bool) : (Function.update f.child f.d t' d).In cells' := by
  by_cases hd : d = f.d
  · rw [hd, Function.update_self]
    exact ht'
  · have hother := h.2 d
    rw [Function.update_of_ne hd] at hother ⊢
    obtain rfl : d = !f.d := Bool.eq_not_of_ne hd
    exact hother.congr hcells

/-- A subtree may be exchanged for one with the same pointer. -/
theorem in_plug_congr {ctx : List (Crumb β α)} {t t' : Placed β α} (h : (plug ctx t).In cells)
    (hptr : t'.ptr = t.ptr) (ht' : t'.In cells')
    (hcells : ∀ q ∈ ctxAddrs ctx, cells'[q]? = cells[q]?) : (plug ctx t').In cells' := by
  induction ctx generalizing t t' with
  | nil => exact ht'
  | cons f ctx ih =>
    have hf : (f.plug t).In cells := in_of_plug h
    have hmem : ∀ q ∈ f.addrs, cells'[q]? = cells[q]? := fun q hq =>
      hcells q (List.mem_append_left _ hq)
    refine ih h rfl ⟨?_, fun d => ?_⟩ fun q hq => hcells q (List.mem_append_right _ hq)
    · rw [hmem f.q List.mem_cons_self, hf.1, ptr_update, ptr_update, hptr]
    · exact in_child hf ht' (fun q hq => hmem q (List.mem_cons_of_mem _ hq)) d

end InPlug

/-! ## Publishing a subtree -/

/-- The root points to the tree, whose nodes are distinct cells. -/
structure Live (h : Heap β α) (t : Option (Placed β α)) : Prop where
  root : h.root = t.map Placed.ptr
  placed : ∀ s, t = some s → s.In h.cells
  nodup : ∀ s, t = some s → s.addrs.Nodup

theorem Live.alloc {h : Heap β α} {t : Option (Placed β α)} (hl : Live h t) (c : Cell β α) :
    Live (h.alloc c) t :=
  ⟨hl.root, fun s hs => (hl.placed s hs).alloc c, hl.nodup⟩

theorem getElem?_store_ne {h : Heap β α} {ctx : List (Crumb β α)} {p : Ptr α} {q : ℕ}
    (hq : q ∉ ctxAddrs ctx) : (h.store (locOf ctx) p).cells[q]? = h.cells[q]? := by
  cases ctx with
  | nil => rfl
  | cons f ctx =>
    have hne : f.q ≠ q := by
      rintro rfl
      exact hq (List.mem_append_left _ List.mem_cons_self)
    simp [locOf, Heap.store, hne]

/-- Every cell keeps its data. -/
def Keeps (cells cells' : List (Cell β α)) : Prop :=
  ∀ (q : ℕ) (c : Cell β α), cells[q]? = some c → ∃ c', cells'[q]? = some c' ∧ c'.data = c.data

theorem Keeps.refl (cells : List (Cell β α)) : Keeps cells cells := fun _ c hq => ⟨c, hq, rfl⟩

theorem Keeps.trans {cells cells' cells'' : List (Cell β α)} (h : Keeps cells cells')
    (h' : Keeps cells' cells'') : Keeps cells cells'' := by
  intro q c hq
  obtain ⟨c', hq', hd⟩ := h q c hq
  obtain ⟨c'', hq'', hd'⟩ := h' q c' hq'
  exact ⟨c'', hq'', hd'.trans hd⟩

theorem keeps_alloc (h : Heap β α) (c : Cell β α) : Keeps h.cells (h.alloc c).cells := by
  intro q c' hq
  obtain ⟨hlt, -⟩ := List.getElem?_eq_some_iff.1 hq
  exact ⟨c', (List.getElem?_append_left hlt).trans hq, rfl⟩

theorem keeps_store (h : Heap β α) (w : Loc) (p : Ptr α) : Keeps h.cells (h.store w p).cells := by
  intro q c hq
  cases w with
  | root => exact ⟨c, hq, rfl⟩
  | child g d =>
    by_cases hg : g = q
    · exact ⟨c.setChild d p, by simp [Heap.store, hg, hq], rfl⟩
    · exact ⟨c, by simp [Heap.store, hg, hq], rfl⟩

section Publish

variable {h : Heap β α} {ctx : List (Crumb β α)} {t t' : Placed β α}

theorem Placed.In.store {s : Placed β α} (hs : s.In h.cells) (p : Ptr α)
    (hdisj : ∀ q ∈ s.addrs, q ∉ ctxAddrs ctx) : s.In (h.store (locOf ctx) p).cells :=
  hs.congr fun q hq => getElem?_store_ne (hdisj q hq)

/-- The frame above the focus after the store. -/
theorem in_plug_frame {f : Crumb β α} (hf : (f.plug t).In h.cells) (hin : t'.In h.cells)
    (hdisj : ∀ q ∈ t'.addrs, q ∉ f.addrs) (hnd : f.addrs.Nodup) :
    (f.plug t').In (h.store (.child f.q f.d) t'.ptr).cells := by
  have hstore : ∀ q, q ≠ f.q → (h.store (.child f.q f.d) t'.ptr).cells[q]? = h.cells[q]? := by
    intro q hq
    simp [Heap.store, hq.symm]
  refine ⟨?_, in_child hf (hin.congr fun q hq => hstore q ?_) fun q hq => hstore q ?_⟩
  · simp [Heap.store, hf.1, Cell.setChild, ptr_update]
  · rintro rfl
    exact hdisj f.q hq List.mem_cons_self
  · rintro rfl
    exact (List.nodup_cons.1 hnd).1 hq

/-- After the store the tree has the new subtree in focus. -/
theorem live_store (hl : Live h (some (plug ctx t))) (hin : t'.In h.cells)
    (hnd : t'.addrs.Nodup) (hdisj : ∀ q ∈ t'.addrs, q ∉ ctxAddrs ctx) :
    Live (h.store (locOf ctx) t'.ptr) (some (plug ctx t')) := by
  obtain ⟨hctx, -, -⟩ := nodup_plug.1 (hl.nodup _ rfl)
  have hplaced := hl.placed _ rfl
  refine ⟨?_, ?_, ?_⟩
  · cases ctx with
    | nil => rfl
    | cons f ctx => exact hl.root.trans (congrArg some (ptr_plug_congr ctx rfl))
  · rintro s ⟨⟩
    cases ctx with
    | nil => exact hin
    | cons f ctx =>
      obtain ⟨hf, -, hdis⟩ := List.nodup_append'.1 hctx
      have hfocus : (plug ctx (f.plug t)).In h.cells := hplaced
      show (plug ctx (f.plug t')).In _
      refine in_plug_congr hfocus rfl ?_ fun q hq => ?_
      · exact in_plug_frame (in_of_plug hfocus) hin
          (fun q hq hqf => hdisj q hq (List.mem_append_left _ hqf)) hf
      · -- the other frames are elsewhere
        have hne : f.q ≠ q := by
          rintro rfl
          exact hdis List.mem_cons_self hq
        simp [locOf, Heap.store, hne]
  · rintro s ⟨⟩
    exact nodup_plug.2 ⟨hctx, hnd, hdisj⟩

/-! ## Readers -/

variable {next : β → Bool} {P : α → Prop}

theorem Ends.alloc {p : Ptr α} (hp : Ends next h.cells P p) (c : Cell β α) :
    Ends next (h.alloc c).cells P p := by
  induction hp with
  | leaf ha => exact .leaf ha
  | node hq _ ih =>
    obtain ⟨hlt, -⟩ := List.getElem?_eq_some_iff.1 hq
    exact .node ((List.getElem?_append_left hlt).trans hq) ih

/-- A walk that meets the stored pointer goes on from it. -/
theorem Ends.store {g : ℕ} {d : Bool} {p p' : Ptr α} (hp : Ends next h.cells P p)
    (hx : ∀ c, h.cells[g]? = some c → Ends next (h.store (.child g d) p').cells P (c.child d) →
      Ends next (h.store (.child g d) p').cells P p') :
    Ends next (h.store (.child g d) p').cells P p := by
  induction hp with
  | leaf ha => exact .leaf ha
  | @node q c hq _ ih =>
    by_cases hg : g = q
    · have hc : (h.store (.child g d) p').cells[q]? = some (c.setChild d p') := by
        simp [Heap.store, hg, hq]
      refine .node hc ?_
      by_cases hd : next c.data = d
      · have hchild : (c.setChild d p').child (next (c.setChild d p').data) = p' := by
          simp [Cell.setChild, hd]
        rw [hchild]
        rw [hd] at ih
        exact hx c (hg ▸ hq) ih
      · have hchild : (c.setChild d p').child (next (c.setChild d p').data) =
            c.child (next c.data) := by
          simp [Cell.setChild, hd]
        rw [hchild]
        exact ih
    · exact .node (by simp [Heap.store, hg, hq]) ih

/-- **A reader beside a store.**  Wherever the reader stands, only the replaced subtree matters. -/
theorem Ends.publish (hl : Live h (some (plug ctx t))) (hin : t'.In h.cells)
    (hdisj : ∀ q ∈ t'.addrs, q ∉ ctxAddrs ctx) (hwalk : P (t.walk next) → P (t'.walk next))
    {p : Ptr α} (hp : Ends next h.cells P p) :
    Ends next (h.store (locOf ctx) t'.ptr).cells P p := by
  have hplaced := hl.placed _ rfl
  obtain ⟨-, -, hdis⟩ := nodup_plug.1 (hl.nodup _ rfl)
  have ht := (in_of_plug hplaced).store t'.ptr hdis
  have ht' := hin.store t'.ptr hdisj
  cases ctx with
  | nil => exact hp
  | cons f ctx =>
    refine Ends.store hp fun c hc hend => ?_
    have hchild : c.child f.d = t.ptr := by
      have hfocus : (plug ctx (f.plug t)).In h.cells := hplaced
      have hf := (in_of_plug hfocus).1
      rw [hc] at hf
      cases hf
      simp
    rw [hchild] at hend
    exact (Placed.ends_iff ht').2 (hwalk ((Placed.ends_iff ht).1 hend))

end Publish

/-! ## Ranks -/

section Ranks

variable (rank : β → ℕ) (bound : ℕ)

/-- Ranks below the bound grow along every edge, out of unlinked cells too. -/
def Ranked (cells : List (Cell β α)) : Prop :=
  ∀ (q : ℕ) (c : Cell β α), cells[q]? = some c → rank c.data < bound ∧
    ∀ d q', c.child d = .node q' → ∃ c', cells[q']? = some c' ∧ rank c.data < rank c'.data

/-- Ranks below the bound grow along the edges of the tree. -/
def Placed.Ranked : Placed β α → Prop
  | leaf _ => True
  | node _ data c => rank data < bound ∧ ∀ d, (c d).Ranked ∧
      ∀ q' data' c', c d = node q' data' c' → rank data < rank data'

variable {rank bound}

theorem Placed.Ranked.edge {cells : List (Cell β α)} {t : Placed β α}
    (ht : t.Ranked rank bound) (hin : t.In cells) {q : ℕ} (hq : q ∈ t.addrs) {c : Cell β α}
    (hc : cells[q]? = some c) : rank c.data < bound ∧
      ∀ d q', c.child d = .node q' → ∃ c', cells[q']? = some c' ∧ rank c.data < rank c'.data := by
  induction t with
  | leaf a => cases hq
  | node q₀ data ch ih =>
    obtain rfl | ⟨d, hd⟩ := mem_addrs_node.1 hq
    · cases hc.symm.trans hin.1
      refine ⟨ht.1, fun d q' hchild => ?_⟩
      have hin' := hin.2 d
      obtain ⟨-, hlt⟩ := ht.2 d
      dsimp only at hchild
      cases hcd : ch d with
      | leaf a => rw [hcd] at hchild; cases hchild
      | node q'' data'' ch'' =>
        rw [hcd] at hchild hin'
        cases hchild
        exact ⟨_, hin'.1, hlt _ _ _ hcd⟩
    · exact ih d (ht.2 d).1 (hin.2 d) hd

/-- It is enough to look at the tree when every other cell is as before. -/
theorem Ranked.step {cells cells' : List (Cell β α)} {t : Placed β α}
    (hr : Ranked rank bound cells) (ht : t.Ranked rank bound) (hin : t.In cells')
    (hkeep : Keeps cells cells')
    (hold : ∀ q c, cells'[q]? = some c → q ∉ t.addrs → cells[q]? = some c) :
    Ranked rank bound cells' := by
  intro q c hc
  by_cases hq : q ∈ t.addrs
  · exact ht.edge hin hq hc
  · obtain ⟨hlt, hedge⟩ := hr q c (hold q c hc hq)
    refine ⟨hlt, fun d q' hd => ?_⟩
    obtain ⟨c', hc', hrank⟩ := hedge d q' hd
    obtain ⟨c'', hc'', hdata⟩ := hkeep q' c' hc'
    exact ⟨c'', hc'', by rw [hdata]; exact hrank⟩

end Ranks

end TreeHeap
