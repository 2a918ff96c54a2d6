import Lana.Library.TreeHeap

/-!
# Cells that are handed out again

A pool has a fixed number of cells; a cell that is freed may be handed out again with other
contents.  `Pooled loc held h m` relates it to a heap that hands out every cell once and frees
none: the pool keeps the cells `held` of the heap, the cell `q` at `loc q`.  Handing out, freeing
and storing keep the relation (`Pooled.hand`, `Pooled.free`, `Pooled.store`), and a walk through held
cells is the same in both (`Pooled.walk_eq`).

`Reach` is what a reader who stands at a pointer may still come to.
-/

namespace TreeHeap

variable {β α : Type*}

/-! ## Other addresses -/

def Ptr.map (loc : ℕ → ℕ) : Ptr α → Ptr α
  | leaf a => leaf a
  | node q => node (loc q)

def Cell.map (loc : ℕ → ℕ) (c : Cell β α) : Cell β α := ⟨c.data, fun d => (c.child d).map loc⟩

def Loc.map (loc : ℕ → ℕ) : Loc → Loc
  | root => root
  | child q d => child (loc q) d

theorem Loc.map_root (loc : ℕ → ℕ) : Loc.map loc .root = .root := rfl

/-- The pointer leads to one of the first `n` cells, or to an element. -/
def Ptr.Below (n : ℕ) : Ptr α → Prop
  | leaf _ => True
  | node q => q < n

/-- Child pointers lead to cells that exist. -/
def Inside (cells : List (Cell β α)) : Prop :=
  ∀ (q : ℕ) (c : Cell β α), cells[q]? = some c → ∀ d, (c.child d).Below cells.length

theorem Ranked.inside {rank : β → ℕ} {bound : ℕ} {cells : List (Cell β α)}
    (h : Ranked rank bound cells) : Inside cells := by
  intro q c hc d
  cases hd : c.child d with
  | leaf a => trivial
  | node q' =>
    obtain ⟨c', hc', -⟩ := (h q c hc).2 d q' hd
    obtain ⟨hlt, -⟩ := List.getElem?_eq_some_iff.1 hc'
    exact hlt

section Update

variable {loc : ℕ → ℕ} {n s : ℕ}

theorem Ptr.map_update {p : Ptr α} (hp : p.Below n) :
    p.map (Function.update loc n s) = p.map loc := by
  cases p with
  | leaf a => rfl
  | node q => exact congrArg Ptr.node (Function.update_of_ne (ne_of_lt hp) ..)

theorem Loc.map_update {w : Loc} (hw : ∀ q d, w = .child q d → q < n) :
    w.map (Function.update loc n s) = w.map loc := by
  cases w with
  | root => rfl
  | child q d => exact congrArg (Loc.child · d) (Function.update_of_ne (ne_of_lt (hw q d rfl)) ..)

theorem Cell.map_update {c : Cell β α} (hc : ∀ d, (c.child d).Below n) :
    c.map (Function.update loc n s) = c.map loc := by
  unfold Cell.map
  congr 1
  funext d
  exact Ptr.map_update (hc d)

theorem Cell.map_setChild (c : Cell β α) (d : Bool) (p : Ptr α) :
    (c.setChild d p).map loc = (c.map loc).setChild d (p.map loc) := by
  have hchild : (fun e => (Function.update c.child d p e).map loc) =
      Function.update (fun e => (c.child e).map loc) d (p.map loc) := by
    funext e
    by_cases he : e = d
    · rw [he, Function.update_self, Function.update_self]
    · rw [Function.update_of_ne he, Function.update_of_ne he]
  exact congrArg (Cell.mk c.data) hchild

end Update

/-! ## Pools -/

/-- The root pointer and the cells; `none` is a cell that may be handed out. -/
structure Pool (β α : Type*) where
  root : Option (Ptr α)
  cells : List (Option (Cell β α))

namespace Pool

/-- The contents of a cell that is handed out. -/
def read (m : Pool β α) (q : ℕ) : Option (Cell β α) := m.cells[q]?.join

/-- The cell `q` is handed out with the contents `c`. -/
def hand (m : Pool β α) (q : ℕ) (c : Cell β α) : Pool β α :=
  { m with cells := m.cells.set q (some c) }

def free (m : Pool β α) (q : ℕ) : Pool β α := { m with cells := m.cells.set q none }

/-- The store `*w = p`. -/
def store (m : Pool β α) (w : Loc) (p : Ptr α) : Pool β α :=
  match w with
  | .root => { m with root := some p }
  | .child q d => { m with cells := m.cells.modify q (Option.map (·.setChild d p)) }

/-- The walk from a pointer through at most `n` cells. -/
def walk (next : β → Bool) (m : Pool β α) : ℕ → Ptr α → Option α
  | _, .leaf a => some a
  | 0, .node _ => none
  | n + 1, .node q =>
    match m.read q with
    | none => none
    | some c => m.walk next n (c.child (next c.data))

variable {m : Pool β α} {q x : ℕ} {c : Cell β α}

theorem lt_length_of_read (h : m.read q = some c) : q < m.cells.length := by
  by_contra hle
  unfold read at h
  rw [List.getElem?_eq_none (not_lt.1 hle)] at h
  cases h

theorem read_set_self (o : Option (Cell β α)) (hq : q < m.cells.length) :
    read { m with cells := m.cells.set q o } q = o := by
  unfold read
  rw [List.getElem?_set_self hq]
  rfl

theorem read_set_ne (o : Option (Cell β α)) (hx : x ≠ q) :
    read { m with cells := m.cells.set q o } x = m.read x := by
  unfold read
  rw [List.getElem?_set_ne hx.symm]

theorem read_store_self (d : Bool) (p : Ptr α) (h : m.read q = some c) :
    (m.store (.child q d) p).read q = some (c.setChild d p) := by
  have hq := lt_length_of_read h
  have hcell : m.cells[q]? = some (some c) := by
    unfold read at h
    rcases hx : m.cells[q]? with _ | o
    · rw [hx] at h
      cases h
    · rw [hx] at h
      exact congrArg some h
  show (m.cells.modify q _)[q]?.join = _
  rw [List.getElem?_modify_eq, hcell]
  rfl

theorem read_store_ne (d : Bool) (p : Ptr α) (hx : x ≠ q) :
    (m.store (.child q d) p).read x = m.read x := by
  show (m.cells.modify q _)[x]?.join = _
  rw [List.getElem?_modify_ne _ _ hx.symm]
  rfl

end Pool

/-! ## The cells of a heap in a pool -/

/-- The pool keeps the cells `held` of the heap, the cell `q` at `loc q`, and no others. -/
structure Pooled (loc : ℕ → ℕ) (held : ℕ → Prop) (h : Heap β α) (m : Pool β α) : Prop where
  root : m.root = h.root.map (Ptr.map loc)
  cell : ∀ q, held q → ∃ c, h.cells[q]? = some c ∧ m.read (loc q) = some (c.map loc)
  inj : ∀ q q', held q → held q' → loc q = loc q' → q = q'
  used : ∀ x, m.read x ≠ none → ∃ q, held q ∧ loc q = x

namespace Pooled

variable {loc : ℕ → ℕ} {held : ℕ → Prop} {h : Heap β α} {m : Pool β α}

theorem lt_length (hs : Pooled loc held h m) {q : ℕ} (hq : held q) : q < h.cells.length := by
  obtain ⟨c, hc, -⟩ := hs.cell q hq
  obtain ⟨hlt, -⟩ := List.getElem?_eq_some_iff.1 hc
  exact hlt

theorem read_eq (hs : Pooled loc held h m) {q : ℕ} (hq : held q) {c : Cell β α}
    (hc : h.cells[q]? = some c) : m.read (loc q) = some (c.map loc) := by
  obtain ⟨c', hc', hread⟩ := hs.cell q hq
  rwa [Option.some.inj (hc.symm.trans hc')]

theorem congr_held (hs : Pooled loc held h m) {held' : ℕ → Prop} (hh : ∀ q, held' q ↔ held q) :
    Pooled loc held' h m := by
  obtain rfl : held' = held := funext fun q => propext (hh q)
  exact hs

/-- A held cell is freed. -/
theorem free (hs : Pooled loc held h m) {q : ℕ} (hq : held q) :
    Pooled loc (fun x => held x ∧ x ≠ q) h (m.free (loc q)) := by
  refine ⟨hs.root, fun x hx => ?_, fun x y hx hy => hs.inj x y hx.1 hy.1, fun x hx => ?_⟩
  · obtain ⟨c, hc, hread⟩ := hs.cell x hx.1
    refine ⟨c, hc, ?_⟩
    rw [Pool.free, Pool.read_set_ne none fun e => hx.2 (hs.inj x q hx.1 hq e), hread]
  · by_cases hxq : x = loc q
    · subst hxq
      obtain ⟨c, -, hread⟩ := hs.cell q hq
      exact absurd (Pool.read_set_self none (Pool.lt_length_of_read hread)) hx
    · rw [Pool.free, Pool.read_set_ne none hxq] at hx
      obtain ⟨y, hy, rfl⟩ := hs.used x hx
      exact ⟨y, ⟨hy, fun e => hxq (by rw [e])⟩, rfl⟩

/-- A new cell of the heap is handed out at a cell `s` of the pool that is free. -/
theorem hand (hs : Pooled loc held h m) (hinside : Inside h.cells)
    (hroot : ∀ p, h.root = some p → p.Below h.cells.length) {s : ℕ}
    (hslot : m.cells[s]? = some none) {c : Cell β α} (hc : ∀ d, (c.child d).Below h.cells.length) :
    Pooled (Function.update loc h.cells.length s) (fun x => held x ∨ x = h.cells.length)
      (h.alloc c) (m.hand s (c.map loc)) := by
  obtain ⟨hlt, -⟩ := List.getElem?_eq_some_iff.1 hslot
  have hnone : m.read s = none := by
    unfold Pool.read
    rw [hslot]
    rfl
  have hold : ∀ {q}, held q → Function.update loc h.cells.length s q = loc q := fun hq =>
    Function.update_of_ne (ne_of_lt (hs.lt_length hq)) ..
  -- the cell handed out is none of those in use
  have hne : ∀ {q}, held q → loc q ≠ s := by
    rintro q hq rfl
    obtain ⟨c, -, hread⟩ := hs.cell q hq
    rw [hnone] at hread
    cases hread
  have hself : Function.update loc h.cells.length s h.cells.length = s := Function.update_self ..
  refine ⟨?_, fun q hq => ?_, fun q q' hq hq' e => ?_, fun x hx => ?_⟩
  · show m.root = h.root.map _
    rw [hs.root]
    cases hr : h.root with
    | none => rfl
    | some p => exact congrArg some (Ptr.map_update (hroot p hr)).symm
  · rcases hq with hq | rfl
    · obtain ⟨c', hc', hread⟩ := hs.cell q hq
      refine ⟨c', (List.getElem?_append_left (hs.lt_length hq)).trans hc', ?_⟩
      rw [hold hq, Pool.hand, Pool.read_set_ne _ (hne hq), hread,
        Cell.map_update (hinside q c' hc')]
    · refine ⟨c, List.getElem?_concat_length, ?_⟩
      rw [hself, Pool.hand, Pool.read_set_self _ hlt, Cell.map_update hc]
  · rcases hq with hq | rfl <;> rcases hq' with hq' | rfl
    · rw [hold hq, hold hq'] at e
      exact hs.inj q q' hq hq' e
    · rw [hold hq, hself] at e
      exact absurd e (hne hq)
    · rw [hold hq', hself] at e
      exact absurd e.symm (hne hq')
    · rfl
  · by_cases hxs : x = s
    · exact ⟨h.cells.length, .inr rfl, by rw [hself, hxs]⟩
    · rw [Pool.hand, Pool.read_set_ne _ hxs] at hx
      obtain ⟨q, hq, rfl⟩ := hs.used x hx
      exact ⟨q, .inl hq, hold hq⟩

/-- A store to the root pointer or to a held cell. -/
theorem store (hs : Pooled loc held h m) {w : Loc} (hw : ∀ g d, w = .child g d → held g)
    (p : Ptr α) : Pooled loc held (h.store w p) (m.store (w.map loc) (p.map loc)) := by
  cases w with
  | root => exact ⟨rfl, hs.cell, hs.inj, hs.used⟩
  | child g d =>
    have hg := hw g d rfl
    obtain ⟨cg, hcg, hreadg⟩ := hs.cell g hg
    refine ⟨hs.root, fun q hq => ?_, hs.inj, fun x hx => ?_⟩
    · by_cases hqg : q = g
      · subst hqg
        refine ⟨cg.setChild d p, ?_, ?_⟩
        · show (h.cells.modify q _)[q]? = _
          rw [List.getElem?_modify_eq, hcg]
          rfl
        · rw [Loc.map, Pool.read_store_self d _ hreadg, Cell.map_setChild]
      · obtain ⟨c, hc, hread⟩ := hs.cell q hq
        refine ⟨c, ?_, ?_⟩
        · show (h.cells.modify g _)[q]? = _
          rw [List.getElem?_modify_ne _ _ (Ne.symm hqg), hc]
        · rw [Loc.map, Pool.read_store_ne d _ fun e => hqg (hs.inj q g hq hg e), hread]
    · by_cases hxg : x = loc g
      · exact ⟨g, hg, hxg.symm⟩
      · rw [Loc.map, Pool.read_store_ne d _ hxg] at hx
        exact hs.used x hx

variable {t : Placed β α}

/-- A walk through a tree whose cells are held. -/
theorem walk_eq (hs : Pooled loc held h m) {next : β → Bool} (ht : t.In h.cells)
    (hheld : ∀ q ∈ t.addrs, held q) {n : ℕ} (hn : t.addrs.length ≤ n) :
    m.walk next n (t.ptr.map loc) = some (t.walk next) := by
  induction t generalizing n with
  | leaf a => simp only [Placed.ptr, Ptr.map, Pool.walk, Placed.walk]
  | node q data c ih =>
    simp only [Placed.addrs, List.length_cons, List.length_append] at hn
    obtain ⟨k, rfl⟩ : ∃ k, n = k + 1 := ⟨n - 1, by omega⟩
    have hread := hs.read_eq (hheld q (Placed.mem_addrs_node.2 (.inl rfl))) ht.1
    simp only [Placed.ptr, Ptr.map, Pool.walk, hread, Placed.walk]
    refine ih (next data) (ht.2 _)
      (fun x hx => hheld x (Placed.mem_addrs_node.2 (.inr ⟨_, hx⟩))) ?_
    cases next data <;> omega

/-- The pool has room for the nodes of the tree. -/
theorem length_le (hs : Pooled loc held h m) (hheld : ∀ q ∈ t.addrs, held q)
    (hnd : t.addrs.Nodup) : t.addrs.length ≤ m.cells.length := by
  have hmap : (t.addrs.map loc).Nodup :=
    hnd.map_on fun x hx y hy e => hs.inj x y (hheld x hx) (hheld y hy) e
  have hsub : t.addrs.map loc ⊆ List.range m.cells.length := by
    intro x hx
    obtain ⟨q, hq, rfl⟩ := List.mem_map.1 hx
    obtain ⟨c, -, hread⟩ := hs.cell q (hheld q hq)
    exact List.mem_range.2 (Pool.lt_length_of_read hread)
  simpa using (hmap.subperm hsub).length_le

/-- The cells handed out are the held ones. -/
theorem countP_eq (hs : Pooled loc held h m) {l : List ℕ} (hnd : l.Nodup)
    (hl : ∀ q, q ∈ l ↔ held q) : m.cells.countP Option.isSome = l.length := by
  have hcells : m.cells = (List.range m.cells.length).map m.read := by
    refine List.ext_getElem (by simp) fun x hx _ => ?_
    rw [List.getElem_map, List.getElem_range, Pool.read, List.getElem?_eq_getElem hx]
    rfl
  have hperm : ((List.range m.cells.length).filter fun x => (m.read x).isSome).Perm (l.map loc) := by
    refine (List.perm_ext_iff_of_nodup (List.nodup_range.filter _) ?_).2 fun x => ?_
    · exact hnd.map_on fun x hx y hy e => hs.inj x y ((hl x).1 hx) ((hl y).1 hy) e
    · rw [List.mem_filter, List.mem_range, List.mem_map, Option.isSome_iff_ne_none]
      constructor
      · rintro ⟨-, hx⟩
        obtain ⟨q, hq, rfl⟩ := hs.used x hx
        exact ⟨q, (hl q).2 hq, rfl⟩
      · rintro ⟨q, hq, rfl⟩
        obtain ⟨c, -, hread⟩ := hs.cell q ((hl q).1 hq)
        exact ⟨Pool.lt_length_of_read hread, by rw [hread]; exact nofun⟩
  calc m.cells.countP Option.isSome
      = ((List.range m.cells.length).map m.read).countP Option.isSome := by rw [← hcells]
    _ = ((List.range m.cells.length).filter fun x => (m.read x).isSome).length := by
        rw [List.countP_map, List.countP_eq_length_filter]
        rfl
    _ = l.length := by rw [hperm.length_eq, List.length_map]

end Pooled

theorem Placed.In.below {cells : List (Cell β α)} {t : Placed β α} (ht : t.In cells) :
    t.ptr.Below cells.length := by
  cases t with
  | leaf a => trivial
  | node q data c => exact ht.lt_length (mem_addrs_node.2 (.inl rfl))

theorem mem_of_locOf {ctx : List (Crumb β α)} {q : ℕ} {d : Bool} (h : locOf ctx = .child q d) :
    q ∈ ctxAddrs ctx := by
  cases ctx with
  | nil => cases h
  | cons f ctx =>
    obtain ⟨rfl, -⟩ := Loc.child.inj h
    exact List.mem_append_left _ List.mem_cons_self

/-- The elements, from left to right. -/
def Placed.elems : Placed β α → List α
  | leaf a => [a]
  | node _ _ c => (c false).elems ++ (c true).elems

theorem Placed.mem_elems_node {q : ℕ} {data : β} {c : Bool → Placed β α} {a : α} :
    a ∈ (node q data c).elems ↔ ∃ d, a ∈ (c d).elems := by
  rw [elems, List.mem_append, Bool.exists_bool]

theorem Placed.length_elems (t : Placed β α) : t.elems.length = t.addrs.length + 1 := by
  induction t with
  | leaf a => rfl
  | node q data c ih =>
    simp only [elems, addrs, List.length_append, List.length_cons, ih]
    omega

/-! ## What a reader may come to -/

/-- The pointers along all ways from `p`. -/
inductive Reach (cells : List (Cell β α)) (p : Ptr α) : Ptr α → Prop
  | refl : Reach cells p p
  | step {q : ℕ} {c : Cell β α} (d : Bool) (h : Reach cells p (.node q))
      (hc : cells[q]? = some c) : Reach cells p (c.child d)

namespace Reach

variable {cells : List (Cell β α)} {p p' x : Ptr α}

theorem head {q : ℕ} {c : Cell β α} (hc : cells[q]? = some c) {d : Bool}
    (h : Reach cells (c.child d) x) : Reach cells (.node q) x := by
  induction h with
  | refl => exact .step d .refl hc
  | step e _ hc' ih => exact .step e ih hc'

theorem of_leaf {a : α} (h : Reach cells (.leaf a) x) : x = .leaf a := by
  induction h with
  | refl => rfl
  | step d _ hc ih => cases ih

theorem isBelow (h : Reach cells p x) (hinside : Inside cells) (hp : p.Below cells.length) :
    x.Below cells.length := by
  cases h with
  | refl => exact hp
  | step d _ hc => exact hinside _ _ hc d

/-- A store opens the ways from the stored pointer, and no others. -/
theorem of_store {h : Heap β α} {w : Loc} (hx : Reach (h.store w p').cells p x) :
    Reach h.cells p x ∨ Reach h.cells p' x := by
  cases w with
  | root => exact .inl hx
  | child g d =>
    induction hx with
    | refl => exact .inl .refl
    | @step q c e _ hc ih =>
      have hcell : (h.cells.modify g (·.setChild d p'))[q]? = some c := hc
      by_cases hq : g = q
      · subst hq
        rw [List.getElem?_modify_eq] at hcell
        obtain ⟨c', hc', rfl⟩ := Option.map_eq_some_iff.1 hcell
        by_cases he : e = d
        · subst he
          have hchild : (c'.setChild e p').child e = p' := Function.update_self ..
          rw [hchild]
          exact .inr .refl
        · have hchild : (c'.setChild d p').child e = c'.child e := Function.update_of_ne he ..
          rw [hchild]
          exact ih.imp (fun h => .step e h hc') fun h => .step e h hc'
      · rw [List.getElem?_modify_ne _ _ hq] at hcell
        exact ih.imp (fun h => .step e h hcell) fun h => .step e h hcell

/-- A new cell is not on the ways through the old ones. -/
theorem of_alloc {h : Heap β α} {c : Cell β α} (hinside : Inside h.cells)
    (hp : p.Below h.cells.length) (hx : Reach (h.alloc c).cells p x) : Reach h.cells p x := by
  induction hx with
  | refl => exact .refl
  | @step q c' d _ hc ih =>
    have hq : q < h.cells.length := ih.isBelow hinside hp
    exact .step d ih ((List.getElem?_append_left hq).symm.trans hc)

/-- The ways from a new cell lead through its children. -/
theorem of_new {h : Heap β α} {c : Cell β α} (hinside : Inside h.cells)
    (hc : ∀ d, (c.child d).Below h.cells.length)
    (hx : Reach (h.alloc c).cells (.node h.cells.length) x) :
    x = .node h.cells.length ∨ ∃ d, Reach h.cells (c.child d) x := by
  induction hx with
  | refl => exact .inl rfl
  | @step q c' e _ hc' ih =>
    rcases ih with ih | ⟨d, ih⟩
    · obtain rfl : q = h.cells.length := Ptr.node.inj ih
      have hnew : (h.alloc c).cells[h.cells.length]? = some c := List.getElem?_concat_length
      obtain rfl := Option.some.inj (hc'.symm.trans hnew)
      exact .inr ⟨e, .refl⟩
    · have hq : q < h.cells.length := ih.isBelow hinside (hc d)
      exact .inr ⟨d, .step e ih ((List.getElem?_append_left hq).symm.trans hc')⟩

end Reach

/-- What can be reached from the root of a tree are its subtrees. -/
theorem Placed.In.reach {cells : List (Cell β α)} {t : Placed β α} (ht : t.In cells) {x : Ptr α}
    (hx : Reach cells t.ptr x) : ∃ s : Placed β α, s.ptr = x ∧ s.In cells ∧
      (∀ q ∈ s.addrs, q ∈ t.addrs) ∧ ∀ a ∈ s.elems, a ∈ t.elems := by
  induction hx with
  | refl => exact ⟨t, rfl, ht, fun _ hq => hq, fun _ ha => ha⟩
  | @step q c d _ hc ih =>
    obtain ⟨s, hptr, hs, haddrs, helems⟩ := ih
    cases s with
    | leaf a => cases hptr
    | node q' data ch =>
      obtain rfl : q' = q := Ptr.node.inj hptr
      obtain rfl := Option.some.inj (hc.symm.trans hs.1)
      exact ⟨ch d, rfl, hs.2 d, fun x hx => haddrs x (mem_addrs_node.2 (.inr ⟨d, hx⟩)),
        fun a ha => helems a (mem_elems_node.2 ⟨d, ha⟩)⟩

end TreeHeap
