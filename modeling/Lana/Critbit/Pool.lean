import Lana.Critbit.Lookup
import Lana.Library.Recycle

/-!
# The tree in a pool of nodes

In `Lana.Critbit.Heap` a node that is unlinked stays in the memory for ever.  Here nodes come from a
cache and go back to it: a cell of the pool that is free may be handed out again, and a load from
it finds nothing.  While the nodes of the tree are held, the functions do to the pool what they do
to the memory in which nothing is freed (`poolGet_eq`, `poolInsert_spec`, `poolDelete_spec`).
-/

namespace Lana

open TreeHeap

/-! ## The functions over a pool of nodes -/

/-- The memory of a tree; `none` is a node that the cache may hand out. -/
abbrev CritbitPool (α : Type*) := Pool Split α

section Loops

variable {α : Type*}

/-- The second loop of `__critbit_insert` from `wherep` on, with `*wherep`: where it breaks off. -/
def poolFindWhere (u : CStr) (newbyte newotherbits : ℕ) (m : CritbitPool α) :
    ℕ → Loc → Ptr α → Option (Loc × Ptr α)
  | _, wherep, .leaf a => some (wherep, .leaf a)
  | 0, _, .node _ => none
  | n + 1, wherep, .node q =>
    match m.read q with
    | none => none
    | some c =>
      if c.data.byte > newbyte then some (wherep, .node q)
      else if c.data.byte = newbyte ∧ c.data.otherbits > newotherbits then some (wherep, .node q)
      else poolFindWhere u newbyte newotherbits m n (.child q (c.data.side u))
        (c.child (c.data.side u))

/-- The loop of `__critbit_delete` from `wherep` on, with `*wherep`: the last `whereq`, `q`, the
contents of `q` and `direction`, and the element found. -/
def poolFindLeaf (u : CStr) (m : CritbitPool α) :
    ℕ → Option (Loc × ℕ × Cell Split α × Bool) → Loc → Ptr α →
      Option (Option (Loc × ℕ × Cell Split α × Bool) × α)
  | _, whereq, _, .leaf a => some (whereq, a)
  | 0, _, _, .node _ => none
  | n + 1, _, wherep, .node q =>
    match m.read q with
    | none => none
    | some c => poolFindLeaf u m n (some (wherep, q, c, c.data.side u))
        (.child q (c.data.side u)) (c.child (c.data.side u))

/-- The first loop of all four functions. -/
def poolLeaf (m : CritbitPool α) (u : CStr) : Option α :=
  m.root.bind (m.walk (Split.side u) m.cells.length)

end Loops

section Operations

variable {α : Type*} (str : α → CStr)

/-- `critbit_get` with no writer beside it. -/
def poolGet (m : CritbitPool α) (u : CStr) : Option α :=
  (poolLeaf m u).bind fun a => if u = str a then some a else none

/-- `critbit_insert`; `slot` is what `critbit_alloc_node_aligned` returns. -/
def poolInsert (slot : Option ℕ) (m : CritbitPool α) (a : α) : Option (Ret × CritbitPool α) :=
  match m.root with
  | none => some (.ok, m.store .root (.leaf a))
  | some p =>
    match m.walk (Split.side (str a)) m.cells.length p with
    | none => none
    | some b =>
      match differingByte (str a) (str b) (str a).strlen 0 with
      | none => some (.err .EEXIST, m)
      | some (newbyte, x) =>
        let newotherbits := highestBit 8 x ^^^ 255
        let newdirection := direction newotherbits ((str b).get newbyte)
        match slot with
        | none => some (.err .ENOMEM, m)
        | some q =>
          match poolFindWhere (str a) newbyte newotherbits m m.cells.length .root p with
          | none => none
          | some (wherep, old) =>
            let newnode := newCell ⟨newbyte, newotherbits⟩ (decide (newdirection ≠ 0)) old a
            some (.ok, (m.hand q newnode).store wherep (.node q))

/-- `critbit_delete`, with the node it hands to `call_rcu`. -/
def poolDelete (m : CritbitPool α) (u : CStr) : Option (Ret × CritbitPool α × Option ℕ) :=
  match m.root with
  | none => some (.ok, m, none)
  | some p =>
    match poolFindLeaf u m m.cells.length none .root p with
    | none => none
    | some (whereq, a) =>
      if u ≠ str a then some (.err .ENOENT, m, none)
      else
        match whereq with
        | none => some (.ok, { m with root := none }, none)
        | some (w, q, c, d) => some (.ok, m.store w (c.child (!d)), some q)

end Operations

/-! ## The loops over a tree whose nodes are held -/

section Loops

variable {α : Type*} {loc : ℕ → ℕ} {held : ℕ → Prop} {h : CritbitHeap α} {m : CritbitPool α}
  {t : Placed Split α}

theorem poolFindWhere_eq (hs : Pooled loc held h m) (u : CStr) (newbyte newotherbits : ℕ)
    (ht : t.In h.cells) (hheld : ∀ q ∈ t.addrs, held q) {n n' : ℕ} (hn : t.addrs.length ≤ n)
    (hn' : t.addrs.length ≤ n') (w : Loc) :
    poolFindWhere u newbyte newotherbits m n' (w.map loc) (t.ptr.map loc) =
      (findWhere u newbyte newotherbits h.cells n w t.ptr).map
        (Prod.map (Loc.map loc) (Ptr.map loc)) := by
  induction t generalizing n n' w with
  | leaf b => simp only [Placed.ptr, Ptr.map, poolFindWhere, findWhere, Option.map_some, Prod.map]
  | node q s c ih =>
    simp only [Placed.addrs, List.length_cons, List.length_append] at hn hn'
    obtain ⟨k, rfl⟩ : ∃ k, n = k + 1 := ⟨n - 1, by omega⟩
    obtain ⟨k', rfl⟩ : ∃ k, n' = k + 1 := ⟨n' - 1, by omega⟩
    have hread := hs.read_eq (hheld q (Placed.mem_addrs_node.2 (.inl rfl))) ht.1
    have hd : (c (s.side u)).addrs.length ≤ k ∧ (c (s.side u)).addrs.length ≤ k' := by
      cases s.side u <;> omega
    simp only [Placed.ptr, Ptr.map, poolFindWhere, findWhere, hread, ht.1, Cell.map]
    split_ifs
    · rfl
    · rfl
    · exact ih (s.side u) (ht.2 _) (fun x hx => hheld x (Placed.mem_addrs_node.2 (.inr ⟨_, hx⟩)))
        hd.1 hd.2 (.child q (s.side u))

/-- What the loop of a deletion finds below an inner node, and what unlinking makes of the tree. -/
theorem poolFindLeaf_spec (hs : Pooled loc held h m) {u : CStr} (ht : t.In h.cells)
    (hheld : ∀ q ∈ t.addrs, held q) {n : ℕ} (hn : t.addrs.length ≤ n)
    (ctx : List (Crumb Split α)) (whereq : Option (Loc × ℕ × Cell Split α × Bool)) :
    (t = .leaf (t.walk (Split.side u)) ∧
        poolFindLeaf u m n whereq ((locOf ctx).map loc) (t.ptr.map loc) =
          some (whereq, t.walk (Split.side u))) ∨
      ∃ ext q s c, poolFindLeaf u m n whereq ((locOf ctx).map loc) (t.ptr.map loc) =
          some (some ((locOf (ext ++ ctx)).map loc, loc q,
            Cell.map loc ⟨s, fun d => (c d).ptr⟩, s.side u), t.walk (Split.side u)) ∧
        plug ext (.node q s c) = t ∧ c (s.side u) = .leaf (t.walk (Split.side u)) ∧
        unlinkNode u (forget t) = some (forget (plug ext (c (!s.side u)))) := by
  induction t generalizing n ctx whereq with
  | leaf a =>
    left
    simp [Placed.ptr, Ptr.map, poolFindLeaf, Placed.walk]
  | node q s c ih =>
    right
    simp only [Placed.addrs, List.length_cons, List.length_append] at hn
    obtain ⟨k, rfl⟩ : ∃ k, n = k + 1 := ⟨n - 1, by omega⟩
    have hd : (c (s.side u)).addrs.length ≤ k := by
      cases s.side u <;> omega
    have hread := hs.read_eq (hheld q (Placed.mem_addrs_node.2 (.inl rfl))) ht.1
    obtain ⟨hleaf, hfind⟩ | ⟨ext, q', s', c', hfind, hplug, hleaf, hunlink⟩ :=
      ih _ (ht.2 _) (fun x hx => hheld x (Placed.mem_addrs_node.2 (.inr ⟨_, hx⟩))) hd
        (⟨q, s, c, s.side u⟩ :: ctx)
        (some ((locOf ctx).map loc, loc q, Cell.map loc ⟨s, fun d => (c d).ptr⟩, s.side u))
    · refine ⟨[], q, s, c, ?_, rfl, ?_, ?_⟩
      · simp only [Placed.ptr, Ptr.map, poolFindLeaf, hread, Placed.walk]
        exact hfind
      · simp only [Placed.walk]
        exact hleaf
      · apply unlinkNode_leaf_below
        rw [hleaf, forget, unlinkNode]
    · refine ⟨ext ++ [⟨q, s, c, s.side u⟩], q', s', c', ?_, ?_, hleaf, ?_⟩
      · simp only [Placed.ptr, Ptr.map, poolFindLeaf, hread, Placed.walk]
        rw [List.append_assoc]
        exact hfind
      · rw [plug_append, hplug]
        exact Crumb.plug_self q s c _
      · rw [plug_append]
        exact unlinkNode_below u q s c hunlink

end Loops

/-! ## The calls over a tree whose nodes are held -/

section Calls

variable {α : Type*} {str : α → CStr} {loc : ℕ → ℕ} {held : ℕ → Prop} {h : CritbitHeap α}
  {m : CritbitPool α} {t : Option (Placed Split α)}

/-- The node at `q` is in the tree. -/
def InTree (t : Option (Placed Split α)) (q : ℕ) : Prop := ∃ s, t = some s ∧ q ∈ s.addrs

section Lookup

theorem poolLeaf_eq (hi : HeapInv str h t) (hs : Pooled loc held h m)
    (hheld : ∀ q, InTree t q → held q) (u : CStr) :
    poolLeaf m u = (t.map forget).map (walk u) := by
  unfold poolLeaf
  rw [hs.root, hi.live.root]
  cases t with
  | none => rfl
  | some t =>
    have hsub : ∀ q ∈ t.addrs, held q := fun q hq => hheld q ⟨t, rfl, hq⟩
    have hlen := hs.length_le hsub (hi.live.nodup _ rfl)
    simp only [Option.map_some, Option.bind_some]
    rw [hs.walk_eq (hi.live.placed _ rfl) hsub hlen, walk_forget]

theorem poolGet_eq (hi : HeapInv str h t) (hs : Pooled loc held h m)
    (hheld : ∀ q, InTree t q → held q) (u : CStr) :
    poolGet str m u = critbitGet str (t.map forget) u := by
  unfold poolGet
  rw [poolLeaf_eq hi hs hheld]
  cases t with
  | none => rfl
  | some t => rfl

end Lookup

/-! ## Insertion -/

/-- What `critbit_insert` does to the pool, and what it does to the memory. -/
inductive Inserted (h : CritbitHeap α) (t : Option (Placed Split α)) (loc : ℕ → ℕ)
    (m : CritbitPool α) (slot : Option ℕ) (a : α) :
    CritbitPool α → CritbitHeap α → Option (Placed Split α) → Prop
  | refused : Inserted h t loc m slot a m h t
  | first (ht : t = none) : Inserted h t loc m slot a (m.store .root (.leaf a))
      (h.store .root (.leaf a)) (some (.leaf a))
  | linked (ext : List (Crumb Split α)) (s : Placed Split α) (test : Split) (d : Bool) (q : ℕ)
      (ht : t = some (plug ext s)) (hslot : slot = some q) :
      Inserted h t loc m slot a
        ((m.hand q ((newCell test d s.ptr a).map loc)).store ((locOf ext).map loc) (.node q))
        ((h.alloc (newCell test d s.ptr a)).store (locOf ext) (.node h.cells.length))
        (some (plug ext (forkAt h.cells.length test d a s)))

theorem map_newCell (loc : ℕ → ℕ) (test : Split) (d : Bool) (old : Ptr α) (a : α) :
    (newCell test d old a).map loc = newCell test d (old.map loc) a := by
  unfold newCell Cell.map
  congr 1
  funext b
  by_cases hb : b = d
  · simp only [if_pos hb]
  · simp only [if_neg hb, Ptr.map]

theorem poolInsert_spec (hi : HeapInv str h t) (hs : Pooled loc held h m)
    (hheld : ∀ q, InTree t q → held q) (slot : Option ℕ) (a : α) :
    ∃ ret m' h' t', poolInsert str slot m a = some (ret, m') ∧
      Inserted h t loc m slot a m' h' t' ∧ Writes str h t h' t' ∧
      ∀ b, Stored (t'.map forget) b → b = a ∨ Stored (t.map forget) b := by
  have hroot : m.root = (t.map Placed.ptr).map (Ptr.map loc) := by rw [hs.root, hi.live.root]
  have hcases := critbitInsert_cases hi.wf slot.isSome a
  have hwf := wf_insert hi.wf slot.isSome a
  cases t with
  | none =>
    refine ⟨.ok, _, h.store .root (.leaf a), some (.leaf a), ?_, .first rfl,
      Writes.root hi ?_ hwf, fun b hb => .inl (stored_some.1 hb)⟩
    · simp only [poolInsert, hroot, Option.map_none]
    · exact ⟨rfl, by rintro s ⟨⟩; exact trivial, by rintro s ⟨⟩; exact List.nodup_nil⟩
  | some t =>
    have hin := hi.live.placed _ rfl
    have hnd := hi.live.nodup _ rfl
    have hsub : ∀ q ∈ t.addrs, held q := fun q hq => hheld q ⟨t, rfl, hq⟩
    have hlen := hs.length_le hsub hnd
    simp only [poolInsert, hroot, Option.map_some, hs.walk_eq hin hsub hlen, ← walk_forget]
    simp only [critbitInsert, Option.map_some] at hcases hwf
    cases hd : differingByte (str a) (str (walk (str a) (forget t))) (str a).strlen 0 with
    | none => exact ⟨_, _, h, some t, rfl, .refused, .refl hi, fun b hb => .inr hb⟩
    | some e =>
      obtain ⟨newbyte, x⟩ := e
      cases slot with
      | none => exact ⟨_, _, h, some t, rfl, .refused, .refl hi, fun b hb => .inr hb⟩
      | some q =>
        obtain ⟨ext, s, hfind, rfl, hlink⟩ := findWhere_spec (str a) newbyte
          (highestBit 8 x ^^^ 255) hin (hin.length_le hnd) []
        have hpool := poolFindWhere_eq hs (str a) newbyte (highestBit 8 x ^^^ 255) hin hsub
          (hin.length_le hnd) hlen (locOf ([] : List (Crumb Split α)))
        rw [hfind, List.append_nil, locOf_nil] at hpool
        simp only [hd, Option.isSome_some, if_true, ← hlink h.cells.length] at hcases hwf
        obtain ⟨h0, -⟩ | ⟨hnew, ⟨h0, -⟩ | ⟨-, -, hstored⟩⟩ := hcases
        · cases h0
        · cases h0
        · refine ⟨.ok, _, _, _, ?_, .linked ext s _ _ q rfl rfl, Writes.link hi hwf hnew,
            fun b hb => (hstored b).1 hb⟩
          rw [map_newCell]
          rw [Loc.map_root] at hpool
          simp only [hpool, Option.map_some, Prod.map]

/-! ## Deletion -/

/-- What `critbit_delete` does to the pool, the node it hands to `call_rcu`, and what it does to
the memory. -/
inductive Deleted (h : CritbitHeap α) (t : Option (Placed Split α)) (loc : ℕ → ℕ)
    (m : CritbitPool α) :
    CritbitPool α → Option ℕ → CritbitHeap α → Option (Placed Split α) → Prop
  | nothing : Deleted h t loc m m none h t
  | last (a : α) (ht : t = some (.leaf a)) :
      Deleted h t loc m { m with root := none } none { h with root := none } none
  | unlinked (ext : List (Crumb Split α)) (q : ℕ) (s : Split) (c : Bool → Placed Split α)
      (d : Bool) (a : α) (hleaf : c d = .leaf a) (ht : t = some (plug ext (.node q s c))) :
      Deleted h t loc m (m.store ((locOf ext).map loc) ((c (!d)).ptr.map loc)) (some q)
        (h.store (locOf ext) (c (!d)).ptr) (some (plug ext (c (!d))))

theorem poolDelete_spec (hi : HeapInv str h t) (hs : Pooled loc held h m)
    (hheld : ∀ q, InTree t q → held q) (u : CStr) :
    ∃ ret m' o h' t', poolDelete str m u = some (ret, m', o.map loc) ∧
      Deleted h t loc m m' o h' t' ∧ Writes str h t h' t' ∧
      ∀ b, Stored (t'.map forget) b → Stored (t.map forget) b := by
  have hroot : m.root = (t.map Placed.ptr).map (Ptr.map loc) := by rw [hs.root, hi.live.root]
  have hcases := critbitDelete_cases hi.wf u
  have hwf := wf_delete hi.wf u
  cases t with
  | none =>
    refine ⟨.ok, _, none, h, none, ?_, .nothing, .refl hi, fun b hb => hb⟩
    simp only [poolDelete, hroot, Option.map_none]
  | some t =>
    have hin := hi.live.placed _ rfl
    have hnd := hi.live.nodup _ rfl
    have hsub : ∀ q ∈ t.addrs, held q := fun q hq => hheld q ⟨t, rfl, hq⟩
    have hlen := hs.length_le hsub hnd
    simp only [poolDelete, hroot, Option.map_some]
    simp only [critbitDelete, critbitGet, Option.map_some, walk_forget] at hcases hwf
    by_cases hu : u = str (t.walk (Split.side u))
    · rw [if_neg (not_not.2 hu)] at hcases hwf
      rw [if_pos hu] at hcases
      obtain ⟨h0, -⟩ | ⟨a, ha, -, -, hstored⟩ := hcases
      · cases h0
      obtain rfl := Option.some.inj ha
      obtain ⟨hleaf, hfind⟩ | ⟨ext, q, s, c, hfind, hplug, hleaf, hunlink⟩ :=
        poolFindLeaf_spec hs (u := u) hin hsub hlen [] none
      · simp only [locOf_nil, Loc.map_root] at hfind
        refine ⟨.ok, _, none, { h with root := none }, none, ?_, .last _ (congrArg some hleaf),
          Writes.root hi ⟨rfl, by rintro s ⟨⟩, by rintro s ⟨⟩⟩ (wf_none str),
          fun b hb => absurd hb (not_stored_none b)⟩
        simp only [hfind, if_neg (not_not.2 hu), Option.map_none]
      · simp only [locOf_nil, Loc.map_root, List.append_nil] at hfind
        rw [hunlink] at hstored hwf
        subst hplug
        have hgone : ¬ Stored (some (forget (plug ext (c (!s.side u)))))
            ((plug ext (.node q s c)).walk (Split.side u)) := fun h0 => ((hstored _).1 h0).2 rfl
        refine ⟨.ok, _, some q, _, _, ?_, .unlinked ext q s c (s.side u) _ hleaf rfl,
          Writes.unlink hi hleaf hwf hgone, fun b hb => ((hstored b).1 hb).1⟩
        simp only [hfind, if_neg (not_not.2 hu), Option.map_some, Cell.map]
    · obtain ⟨w, hfind⟩ : ∃ w, poolFindLeaf u m m.cells.length none .root (t.ptr.map loc) =
          some (w, t.walk (Split.side u)) := by
        obtain ⟨-, hfind⟩ | ⟨ext, q, s, c, hfind, -⟩ :=
          poolFindLeaf_spec hs (u := u) hin hsub hlen [] none
        · exact ⟨_, hfind⟩
        · exact ⟨_, hfind⟩
      refine ⟨.err .ENOENT, _, none, h, some t, ?_, .nothing, .refl hi, fun b hb => hb⟩
      simp only [hfind, if_pos hu, Option.map_none]

end Calls

end Lana
