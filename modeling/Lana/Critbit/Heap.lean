import Lana.Critbit.Map
import Lana.Library.TreeHeap

/-!
# The crit-bit tree in memory

The functions of `xt_critbit.c` once more, now over the nodes in memory: the loops follow child
pointers, and an insertion or a deletion becomes visible with its one store to `*wherep`, resp.
`*whereq`.  Both hold `wr_lock`, so a writer's walk sees the memory its store then changes.  A
removed node keeps its contents (it is freed after a grace period).

`none` stands for a walk that does not end at an element; `HeapInv` rules it out and ties the
memory to the tree of `Lana.Critbit.Basic`: the writers here do what they do there
(`heapInsert_refines`, `heapDelete_refines`).
-/

namespace Lana

open BitTree TreeHeap

/-- The test of a `struct critbit_node`. -/
structure Split where
  byte : ℕ
  otherbits : ℕ

/-- The tree in memory. -/
abbrev CritbitHeap (α : Type*) := Heap Split α

/-- The child `u` is sent to: `child[1]` when set. -/
def Split.side (u : CStr) (s : Split) : Bool :=
  decide (direction s.otherbits (byteOf u s.byte) ≠ 0)

/-- The second loop of `__critbit_insert` from `wherep` on, with `*wherep`: where it breaks off. -/
def findWhere {α : Type*} (u : CStr) (newbyte newotherbits : ℕ) (cells : List (Cell Split α)) :
    ℕ → Loc → Ptr α → Option (Loc × Ptr α)
  | _, wherep, .leaf a => some (wherep, .leaf a)
  | 0, _, .node _ => none
  | n + 1, wherep, .node q =>
    match cells[q]? with
    | none => none
    | some c =>
      if c.data.byte > newbyte then some (wherep, .node q)
      else if c.data.byte = newbyte ∧ c.data.otherbits > newotherbits then some (wherep, .node q)
      else findWhere u newbyte newotherbits cells n (.child q (c.data.side u))
        (c.child (c.data.side u))

/-- The loop of `__critbit_delete` from `wherep` on, with `*wherep`: the last `whereq`, `q` and
`direction`, and the element found. -/
def findLeaf {α : Type*} (u : CStr) (cells : List (Cell Split α)) :
    ℕ → Option (Loc × Cell Split α × Bool) → Loc → Ptr α →
      Option (Option (Loc × Cell Split α × Bool) × α)
  | _, whereq, _, .leaf a => some (whereq, a)
  | 0, _, _, .node _ => none
  | n + 1, _, wherep, .node q =>
    match cells[q]? with
    | none => none
    | some c => findLeaf u cells n (some (wherep, c, c.data.side u)) (.child q (c.data.side u))
        (c.child (c.data.side u))

/-- `newnode` before it is linked: `old = *wherep` is the child on side `d`. -/
def newCell {α : Type*} (test : Split) (d : Bool) (old : Ptr α) (a : α) : Cell Split α :=
  ⟨test, fun b => if b = d then old else .leaf a⟩

section Operations

variable {α : Type*} (str : α → CStr)

/-- `critbit_get` with no writer beside it. -/
def heapGet (h : CritbitHeap α) (u : CStr) : Option α :=
  match h.root with
  | none => none
  | some p =>
    match walkFrom (Split.side u) h.cells h.cells.length p with
    | none => none
    | some a => if u = str a then some a else none

/-- `critbit_insert`; `alloc` is the outcome of `critbit_alloc_node_aligned`. -/
def heapInsert (alloc : Bool) (h : CritbitHeap α) (a : α) : Option (Ret × CritbitHeap α) :=
  match h.root with
  | none => some (.ok, h.store .root (.leaf a))
  | some p =>
    match walkFrom (Split.side (str a)) h.cells h.cells.length p with
    | none => none
    | some b =>
      match differingByte (str a) (str b) (str a).strlen 0 with
      | none => some (.err .EEXIST, h)
      | some (newbyte, x) =>
        let newotherbits := highestBit 8 x ^^^ 255
        let newdirection := direction newotherbits ((str b).get newbyte)
        if alloc then
          match findWhere (str a) newbyte newotherbits h.cells h.cells.length .root p with
          | none => none
          | some (wherep, old) =>
            let newnode := newCell ⟨newbyte, newotherbits⟩ (decide (newdirection ≠ 0)) old a
            some (.ok, (h.alloc newnode).store wherep (.node h.cells.length))
        else some (.err .ENOMEM, h)

/-- `critbit_delete`. -/
def heapDelete (h : CritbitHeap α) (u : CStr) : Option (Ret × CritbitHeap α) :=
  match h.root with
  | none => some (.ok, h)
  | some p =>
    match findLeaf u h.cells h.cells.length none .root p with
    | none => none
    | some (whereq, a) =>
      if u ≠ str a then some (.err .ENOENT, h)
      else
        match whereq with
        | none => some (.ok, { h with root := none })
        | some (w, c, d) => some (.ok, h.store w (c.child (!d)))

end Operations

/-! ## The tree in the memory -/

section Forget

variable {α : Type*}

/-- The tree without the addresses. -/
def forget : Placed Split α → CritbitNode α
  | .leaf a => .elem a
  | .node _ s c => .node s.byte s.otherbits (forget (c false)) (forget (c true))

/-- A node for `a` over `s`, which is on side `d`. -/
def forkAt (q : ℕ) (test : Split) (d : Bool) (a : α) (s : Placed Split α) : Placed Split α :=
  .node q test fun b => if b = d then s else .leaf a

theorem walk_forget (u : CStr) (t : Placed Split α) : walk u (forget t) = t.walk (Split.side u) := by
  induction t with
  | leaf a => rfl
  | node q s c ih =>
    simp only [forget, walk, Placed.walk, Split.side]
    by_cases h : direction s.otherbits (byteOf u s.byte) = 0
    · simp [h, ih]
    · simp [h, ih]

theorem forget_forkAt (q newbyte newotherbits newdirection : ℕ) (a : α)
    (s : Placed Split α) :
    forget (forkAt q ⟨newbyte, newotherbits⟩ (decide (newdirection ≠ 0)) a s) =
      linkNode.newnode newbyte newotherbits newdirection a (forget s) := by
  unfold forkAt linkNode.newnode
  by_cases h : newdirection = 0
  · simp [h, forget]
  · simp [h, forget]

theorem Crumb.plug_self (q : ℕ) (s : Split) (c : Bool → Placed Split α) (d : Bool) :
    (Crumb.mk q s c d).plug (c d) = .node q s c := by
  simp [Crumb.plug]

/-- A frame whose focus is on the side of `u`. -/
theorem forget_plug_frame (u : CStr) (q : ℕ) (s : Split) (c : Bool → Placed Split α)
    (t : Placed Split α) :
    forget ((Crumb.mk q s c (s.side u)).plug t) =
      if direction s.otherbits (byteOf u s.byte) = 0 then
        .node s.byte s.otherbits (forget t) (forget (c true))
      else .node s.byte s.otherbits (forget (c false)) (forget t) := by
  by_cases h : direction s.otherbits (byteOf u s.byte) = 0
  · simp [Crumb.plug, forget, Split.side, h]
  · simp [Crumb.plug, forget, Split.side, h]

/-- Where the loop of an insertion breaks off, and what linking a node there makes of the tree. -/
theorem findWhere_spec (u : CStr) (newbyte newotherbits : ℕ) {cells : List (Cell Split α)}
    {t : Placed Split α} (ht : t.In cells) {n : ℕ} (hn : t.addrs.length ≤ n)
    (ctx : List (Crumb Split α)) :
    ∃ ext s, findWhere u newbyte newotherbits cells n (locOf ctx) t.ptr =
        some (locOf (ext ++ ctx), s.ptr) ∧ plug ext s = t ∧
      ∀ q newdirection a,
        forget (plug ext (forkAt q ⟨newbyte, newotherbits⟩ (decide (newdirection ≠ 0)) a s)) =
          linkNode u newbyte newotherbits newdirection a (forget t) := by
  induction t generalizing n ctx with
  | leaf b =>
    refine ⟨[], .leaf b, by simp only [Placed.ptr, findWhere, List.nil_append], rfl, ?_⟩
    intro q newdirection a
    exact forget_forkAt q newbyte newotherbits newdirection a (.leaf b)
  | node q s c ih =>
    simp only [Placed.addrs, List.length_cons, List.length_append] at hn
    obtain ⟨m, rfl⟩ : ∃ m, n = m + 1 := ⟨n - 1, by omega⟩
    have hd : (c (s.side u)).addrs.length ≤ m := by
      cases s.side u <;> omega
    by_cases h1 : s.byte > newbyte
    · refine ⟨[], .node q s c, by simp [Placed.ptr, findWhere, ht.1, h1], rfl, ?_⟩
      intro q' newdirection a
      simp only [plug, forget_forkAt, forget, linkNode, if_pos h1]
    by_cases h2 : s.byte = newbyte ∧ s.otherbits > newotherbits
    · refine ⟨[], .node q s c, by simp [Placed.ptr, findWhere, ht.1, h2], rfl, ?_⟩
      intro q' newdirection a
      simp only [plug, forget_forkAt, forget, linkNode, if_neg h1, if_pos h2]
    · -- the loop goes on below `q`
      obtain ⟨ext, s', hfind, hplug, hlink⟩ := ih _ (ht.2 _) hd (⟨q, s, c, s.side u⟩ :: ctx)
      refine ⟨ext ++ [⟨q, s, c, s.side u⟩], s', ?_, ?_, fun q' newdirection a => ?_⟩
      · simp only [Placed.ptr, findWhere, ht.1, if_neg h1, if_neg h2]
        rw [List.append_assoc]
        exact hfind
      · rw [plug_append, hplug]
        exact Crumb.plug_self q s c _
      · rw [plug_append]
        simp only [plug, forget_plug_frame, hlink, forget, linkNode, if_neg h1, if_neg h2]
        by_cases h : direction s.otherbits (byteOf u s.byte) = 0
        · simp [h, Split.side]
        · simp [h, Split.side]

theorem unlinkNode_leaf_below (u : CStr) (q : ℕ) (s : Split) (c : Bool → Placed Split α)
    (h : unlinkNode u (forget (c (s.side u))) = none) :
    unlinkNode u (forget (.node q s c)) = some (forget (c (!s.side u))) := by
  by_cases h0 : direction s.otherbits (byteOf u s.byte) = 0
  · simp only [Split.side, h0, ne_eq, not_true, decide_false, Bool.not_false] at h ⊢
    simp only [forget, unlinkNode, if_pos h0, h]
  · simp only [Split.side, h0, ne_eq, not_false_iff, decide_true, Bool.not_true] at h ⊢
    simp only [forget, unlinkNode, if_neg h0, h]

theorem unlinkNode_below (u : CStr) (q : ℕ) (s : Split) (c : Bool → Placed Split α)
    {t : Placed Split α} (h : unlinkNode u (forget (c (s.side u))) = some (forget t)) :
    unlinkNode u (forget (.node q s c)) =
      some (forget ((Crumb.mk q s c (s.side u)).plug t)) := by
  rw [forget_plug_frame]
  by_cases h0 : direction s.otherbits (byteOf u s.byte) = 0
  · simp only [Split.side, h0, ne_eq, not_true, decide_false] at h
    simp only [forget, unlinkNode, if_pos h0, h]
  · simp only [Split.side, h0, ne_eq, not_false_iff, decide_true] at h
    simp only [forget, unlinkNode, if_neg h0, h]

/-- What the loop of a deletion finds below an inner node, and what unlinking makes of the tree. -/
theorem findLeaf_spec {u : CStr} {cells : List (Cell Split α)} {t : Placed Split α}
    (ht : t.In cells) {n : ℕ} (hn : t.addrs.length ≤ n) (ctx : List (Crumb Split α))
    (whereq : Option (Loc × Cell Split α × Bool)) :
    (t = .leaf (t.walk (Split.side u)) ∧
        findLeaf u cells n whereq (locOf ctx) t.ptr = some (whereq, t.walk (Split.side u))) ∨
      ∃ ext q s c, findLeaf u cells n whereq (locOf ctx) t.ptr =
          some (some (locOf (ext ++ ctx), ⟨s, fun d => (c d).ptr⟩, s.side u),
            t.walk (Split.side u)) ∧
        plug ext (.node q s c) = t ∧ c (s.side u) = .leaf (t.walk (Split.side u)) ∧
        unlinkNode u (forget t) = some (forget (plug ext (c (!s.side u)))) := by
  induction t generalizing n ctx whereq with
  | leaf a =>
    left
    simp [Placed.ptr, findLeaf, Placed.walk]
  | node q s c ih =>
    right
    simp only [Placed.addrs, List.length_cons, List.length_append] at hn
    obtain ⟨m, rfl⟩ : ∃ m, n = m + 1 := ⟨n - 1, by omega⟩
    have hd : (c (s.side u)).addrs.length ≤ m := by
      cases s.side u <;> omega
    obtain ⟨hleaf, hfind⟩ | ⟨ext, q', s', c', hfind, hplug, hleaf, hunlink⟩ :=
      ih _ (ht.2 _) hd (⟨q, s, c, s.side u⟩ :: ctx)
        (some (locOf ctx, ⟨s, fun d => (c d).ptr⟩, s.side u))
    · refine ⟨[], q, s, c, ?_, rfl, ?_, ?_⟩
      · simp only [Placed.ptr, findLeaf, ht.1, Placed.walk]
        exact hfind
      · simp only [Placed.walk]
        exact hleaf
      · apply unlinkNode_leaf_below
        rw [hleaf, forget, unlinkNode]
    · refine ⟨ext ++ [⟨q, s, c, s.side u⟩], q', s', c', ?_, ?_, hleaf, ?_⟩
      · simp only [Placed.ptr, findLeaf, ht.1, Placed.walk]
        rw [List.append_assoc]
        exact hfind
      · rw [plug_append, hplug]
        exact Crumb.plug_self q s c _
      · rw [plug_append]
        exact unlinkNode_below u q s c hunlink

end Forget

/-! ## The invariant -/

section Invariant

variable {α : Type*} {str : α → CStr}

/-- The position an inner node tests. -/
def Split.rank (s : Split) : ℕ := position s.byte s.otherbits

theorem lt_of_bitAt {s : CStr} {n : ℕ} (h : bitAt s n = true) : n < 8 * 2 ^ 32 := by
  have hlen := s.len_lt
  have hget : n / 8 < s.strlen := by
    by_contra hle
    rw [bitAt, CStr.get_of_strlen_le (not_lt.1 hle), Nat.zero_testBit] at h
    cases h
  unfold CStr.strlen at hget
  omega

theorem wf_child {q : ℕ} {s : Split} {c : Bool → Placed Split α}
    (hw : Wf str (some (forget (.node q s c)))) (d : Bool) : Wf str (some (forget (c d))) := by
  rintro p ⟨⟩
  obtain ⟨he, hc⟩ := hw _ rfl
  cases d with
  | false => exact ⟨he.2.1, hc.1⟩
  | true => exact ⟨he.2.2, hc.2.1⟩

theorem stored_child {q : ℕ} {s : Split} {c : Bool → Placed Split α} {d : Bool} {b : α}
    (hb : Stored (some (forget (c d))) b) : Stored (some (forget (.node q s c))) b := by
  rw [stored_some] at hb ⊢
  cases d with
  | false => exact Or.inl hb
  | true => exact Or.inr hb

/-- The bit at the position of a node is the side of the string. -/
theorem bitAt_of_child {q : ℕ} {s : Split} {c : Bool → Placed Split α}
    (hw : Wf str (some (forget (.node q s c)))) {d : Bool} {b : α}
    (hb : Stored (some (forget (c d))) b) : bitAt (str b) s.rank = d := by
  obtain ⟨-, hc⟩ := hw _ rfl
  rw [stored_some] at hb
  cases d with
  | false => exact hc.2.2.1 b hb
  | true => exact hc.2.2.2.1 b hb

theorem side_of_child {q : ℕ} {s : Split} {c : Bool → Placed Split α}
    (hw : Wf str (some (forget (.node q s c)))) {d : Bool} {b : α}
    (hb : Stored (some (forget (c d))) b) : s.side (str b) = d := by
  have hbit := bitAt_of_child hw hb
  obtain ⟨⟨⟨k, hk, hs⟩, -, -⟩, -⟩ := hw _ rfl
  rw [Split.rank, hs] at hbit
  have hdir := direction_byteOf (str b) s.byte hk
  rw [Split.side, hs]
  cases d with
  | false => simp [hdir.2 (by simp [hbit])]
  | true => simp [hdir, hbit]

theorem wf_of_plug {ctx : List (Crumb Split α)} {t : Placed Split α}
    (hw : Wf str (some (forget (plug ctx t)))) : Wf str (some (forget t)) := by
  induction ctx generalizing t with
  | nil => exact hw
  | cons f ctx ih =>
    have hf := wf_child (ih hw) f.d
    rwa [Function.update_self] at hf

theorem stored_plug (ctx : List (Crumb Split α)) {t : Placed Split α} {b : α}
    (hb : Stored (some (forget t)) b) : Stored (some (forget (plug ctx t))) b := by
  induction ctx generalizing t with
  | nil => exact hb
  | cons f ctx ih =>
    apply ih
    apply stored_child (d := f.d)
    rw [Function.update_self]
    exact hb

theorem walk_placed_stored {t : Placed Split α} (hw : Wf str (some (forget t))) (u : CStr) :
    Stored (some (forget t)) (t.walk (Split.side u)) := by
  rw [← walk_forget]
  exact walk_stored hw u

/-- Positions grow on the way down. -/
theorem ranked_of_wf {t : Placed Split α} (hw : Wf str (some (forget t))) :
    t.Ranked Split.rank (8 * 2 ^ 32) := by
  induction t with
  | leaf a => exact trivial
  | node q s c ih =>
    refine ⟨?_, fun d => ⟨ih d (wf_child hw d), fun q' s' c' hcd => ?_⟩⟩
    · obtain ⟨b, hb⟩ := Tree.exists_mem (toTree (forget (c true)))
      exact lt_of_bitAt (bitAt_of_child hw (stored_some.2 hb))
    · obtain ⟨-, hcrit⟩ := wf_child hw d _ rfl
      have hbit : ∀ b, (toTree (forget (c d))).Mem b → bitAt (str b) s.rank = d := fun b hb =>
        bitAt_of_child hw (stored_some.2 hb)
      have hup : ∀ b, (toTree (forget (c d))).Mem b →
          (toTree (forget (.node q s c))).Mem b := fun b hb =>
        stored_some.1 (stored_child (stored_some.2 hb))
      have hag : ∀ a b, (toTree (forget (c d))).Mem a → (toTree (forget (c d))).Mem b →
          ∀ n ≤ s.rank, bitAt (str a) n = bitAt (str b) n := by
        intro a b ha hb n hn
        obtain hlt | rfl := Nat.lt_or_eq_of_le hn
        · exact (hw _ rfl).2.2.2.2.2 a b (hup a ha) (hup b hb) n hlt
        · rw [hbit a ha, hbit b hb]
      rw [hcd] at hcrit hag
      exact Tree.lt_of_agree hcrit hag

variable (str)

/-- The memory holds a crit-bit tree, and no walk through it is longer than a string has bits. -/
structure HeapInv (h : CritbitHeap α) (t : Option (Placed Split α)) : Prop where
  live : Live h t
  wf : Wf str (t.map forget)
  ranked : Ranked Split.rank (8 * 2 ^ 32) h.cells

/-- The comparison with the string of `b` answers a lookup of `u` with `r`. -/
def Answers (u : CStr) (r : Option α) (b : α) : Prop := (if u = str b then some b else none) = r

/-- What a writer leaves to a reader that has started: nodes keep their tests, and a walk whose
answer the change leaves alone still finds it. -/
structure Writes (h : CritbitHeap α) (t : Option (Placed Split α)) (h' : CritbitHeap α)
    (t' : Option (Placed Split α)) : Prop where
  inv : HeapInv str h' t'
  keeps : Keeps h.cells h'.cells
  ends : ∀ u r p, critbitGet str (t.map forget) u = r → critbitGet str (t'.map forget) u = r →
    Ends (Split.side u) h.cells (Answers str u r) p →
      Ends (Split.side u) h'.cells (Answers str u r) p

variable {str}

theorem answers_of_eq {u : CStr} {r : Option α} {b : α} (h : u = str b) :
    Answers str u r b ↔ r = some b := by
  unfold Answers
  rw [if_pos h, eq_comm]

theorem answers_of_ne {u : CStr} {r : Option α} {b : α} (h : u ≠ str b) :
    Answers str u r b ↔ r = none := by
  unfold Answers
  rw [if_neg h, eq_comm]

theorem heapInv_empty : HeapInv str (⟨none, []⟩ : CritbitHeap α) none :=
  ⟨⟨rfl, by rintro s ⟨⟩, by rintro s ⟨⟩⟩, wf_none str, by rintro q c hq; simp at hq⟩

theorem Writes.refl {h : CritbitHeap α} {t : Option (Placed Split α)} (hi : HeapInv str h t) :
    Writes str h t h t :=
  ⟨hi, Keeps.refl _, fun _ _ _ _ _ hp => hp⟩

/-- A store to the root pointer of a tree without inner nodes. -/
theorem Writes.root {h : CritbitHeap α} {t t' : Option (Placed Split α)} (hi : HeapInv str h t)
    {root : Option (Ptr α)} (hl : Live ⟨root, h.cells⟩ t') (hw : Wf str (t'.map forget)) :
    Writes str h t ⟨root, h.cells⟩ t' :=
  ⟨⟨hl, hw, hi.ranked⟩, Keeps.refl _, fun _ _ _ _ _ hp => hp⟩

section Lookup

variable {h : CritbitHeap α} {t : Placed Split α}

/-- The first loop of the writers. -/
theorem walkFrom_live (hi : HeapInv str h (some t)) (u : CStr) :
    walkFrom (Split.side u) h.cells h.cells.length t.ptr = some (walk u (forget t)) := by
  have hin := hi.live.placed _ rfl
  rw [walk_forget]
  exact Placed.walkFrom_eq hin (hin.length_le (hi.live.nodup _ rfl))

theorem heapGet_eq {t : Option (Placed Split α)} (hi : HeapInv str h t) (u : CStr) :
    heapGet str h u = critbitGet str (t.map forget) u := by
  unfold heapGet
  rw [hi.live.root]
  cases t with
  | none => rfl
  | some t =>
    simp only [Option.map_some, walkFrom_live hi u]
    rfl

/-- A lookup that starts at the root finds its answer. -/
theorem ends_root (hi : HeapInv str h (some t)) {u : CStr} {r : Option α}
    (hr : critbitGet str (some (forget t)) u = r) :
    Ends (Split.side u) h.cells (Answers str u r) t.ptr := by
  rw [Placed.ends_iff (hi.live.placed _ rfl), ← walk_forget]
  exact hr

end Lookup

/-! ## Insertion -/

section Insert

variable {h : CritbitHeap α} {ctx : List (Crumb Split α)} {s : Placed Split α} {a : α}
  {test : Split} {d : Bool}

theorem addrs_forkAt (q : ℕ) : (forkAt q test d a s).addrs = q :: s.addrs := by
  cases d with
  | false => simp [forkAt, Placed.addrs]
  | true => simp [forkAt, Placed.addrs]

theorem walk_forkAt (q : ℕ) (next : Split → Bool) :
    (forkAt q test d a s).walk next = if next test = d then s.walk next else a := by
  simp only [forkAt, Placed.walk]
  split_ifs with hd
  · rfl
  · rfl

theorem in_forkAt (hs : s.In h.cells) :
    (forkAt h.cells.length test d a s).In (h.alloc (newCell test d s.ptr a)).cells := by
  refine ⟨?_, fun b => ?_⟩
  · have hptr : (fun b => (if b = d then s else .leaf a : Placed Split α).ptr) =
        fun b => if b = d then s.ptr else .leaf a := by
      ext1 b
      split_ifs <;> rfl
    rw [hptr]
    simp [Heap.alloc, newCell]
  · dsimp only
    split_ifs
    · exact hs.alloc _
    · exact trivial

/-- A lookup that ended below the place of the new node goes to the same side of it. -/
theorem answers_forkAt {q : ℕ} (hw : Wf str (some (forget (forkAt q test d a s)))) {u : CStr}
    {r : Option α} (ha : u ≠ str a) (hs : Answers str u r (s.walk (Split.side u))) :
    Answers str u r ((forkAt q test d a s).walk (Split.side u)) := by
  rw [walk_forkAt]
  split_ifs with hd
  · exact hs
  · rw [answers_of_ne ha]
    by_cases hu : u = str (s.walk (Split.side u))
    · -- then `u` is among the strings of `s`, all on its side
      exfalso
      have hside : Stored (some (forget (if d = d then s else .leaf a)))
          (s.walk (Split.side u)) := by
        rw [if_pos rfl]
        have hs' := wf_child hw d
        rw [if_pos rfl] at hs'
        exact walk_placed_stored hs' u
      apply hd
      rw [hu]
      exact side_of_child hw hside
    · exact (answers_of_ne hu).1 hs

/-- Linking a new node. -/
theorem Writes.link (hi : HeapInv str h (some (plug ctx s)))
    (hw : Wf str (some (forget (plug ctx (forkAt h.cells.length test d a s)))))
    (hnew : ∀ b, Stored (some (forget (plug ctx s))) b → str b ≠ str a) :
    Writes str h (some (plug ctx s))
      ((h.alloc (newCell test d s.ptr a)).store (locOf ctx) (.node h.cells.length))
      (some (plug ctx (forkAt h.cells.length test d a s))) := by
  set h₁ := h.alloc (newCell test d s.ptr a) with hh₁
  set new := forkAt h.cells.length test d a s with hfork
  have hplaced := hi.live.placed _ rfl
  have hlt : ∀ q ∈ (plug ctx s).addrs, q < h.cells.length := fun q hq => hplaced.lt_length hq
  obtain ⟨-, hnd, hdis⟩ := nodup_plug.1 (hi.live.nodup _ rfl)
  have hin : new.In h₁.cells := in_forkAt (in_of_plug hplaced)
  have hnodup : new.addrs.Nodup := by
    rw [hfork, addrs_forkAt, List.nodup_cons]
    refine ⟨fun hmem => ?_, hnd⟩
    exact lt_irrefl _ (hlt _ (mem_addrs_plug.2 (Or.inr hmem)))
  have hdisj : ∀ q ∈ new.addrs, q ∉ ctxAddrs ctx := by
    intro q hq hctx
    rw [hfork, addrs_forkAt, List.mem_cons] at hq
    obtain rfl | hq := hq
    · exact lt_irrefl _ (hlt _ (mem_addrs_plug.2 (Or.inl hctx)))
    · exact hdis q hq hctx
  have hl₁ : Live h₁ (some (plug ctx s)) := hi.live.alloc _
  have hlive := live_store hl₁ hin hnodup hdisj
  have hkeep := (keeps_alloc h (newCell test d s.ptr a)).trans
    (keeps_store h₁ (locOf ctx) new.ptr)
  refine ⟨⟨hlive, hw, ?_⟩, hkeep, fun u r p hr hr' hp => ?_⟩
  · refine hi.ranked.step (ranked_of_wf hw) (hlive.placed _ rfl) hkeep fun q c hc hq => ?_
    rw [mem_addrs_plug, not_or] at hq
    have hne : q ≠ h.cells.length := by
      rintro rfl
      exact hq.2 (by rw [hfork, addrs_forkAt]; exact List.mem_cons_self)
    have hc₁ : h₁.cells[q]? = some c := (getElem?_store_ne hq.1).symm.trans hc
    obtain ⟨hlen, -⟩ := List.getElem?_eq_some_iff.1 hc₁
    rw [hh₁, Heap.alloc] at hc₁ hlen
    simp only [List.length_append, List.length_singleton] at hlen
    rwa [List.getElem?_append_left (by omega)] at hc₁
  · refine (Ends.alloc hp _).publish hl₁ hin hdisj (answers_forkAt (wf_of_plug hw) ?_)
    rintro rfl
    -- the new string was not there before and is there now
    have hget : critbitGet str (some (forget (plug ctx new))) (str a) = some a := by
      refine (critbitGet_eq_some hw).2 ⟨stored_plug ctx ?_, rfl⟩
      apply stored_child (d := !d)
      simp [stored_some, forget, toTree]
    rw [← hr'] at hr
    have hold := (critbitGet_eq_some hi.wf).1 (hr.trans hget)
    exact hnew a hold.1 rfl

/-- The insertion in memory is the insertion of the tree. -/
theorem heapInsert_refines {t : Option (Placed Split α)} (hi : HeapInv str h t) (alloc : Bool)
    (a : α) : ∃ h' t', heapInsert str alloc h a =
        some ((critbitInsert str alloc (t.map forget) a).1, h') ∧
      t'.map forget = (critbitInsert str alloc (t.map forget) a).2 ∧ Writes str h t h' t' := by
  have hroot := hi.live.root
  have hcases := critbitInsert_cases hi.wf alloc a
  have hwf := wf_insert hi.wf alloc a
  cases t with
  | none =>
    refine ⟨h.store .root (.leaf a), some (.leaf a), ?_, rfl, Writes.root hi ?_ hwf⟩
    · simp only [heapInsert, hroot, Option.map_none, critbitInsert]
    · exact ⟨rfl, by rintro s ⟨⟩; exact trivial, by rintro s ⟨⟩; exact List.nodup_nil⟩
  | some t =>
    simp only [heapInsert, hroot, Option.map_some, critbitInsert, walkFrom_live hi] at hcases hwf ⊢
    cases hd : differingByte (str a) (str (walk (str a) (forget t))) (str a).strlen 0 with
    | none => exact ⟨h, some t, rfl, rfl, .refl hi⟩
    | some e =>
      obtain ⟨newbyte, x⟩ := e
      cases alloc with
      | false => exact ⟨h, some t, rfl, rfl, .refl hi⟩
      | true =>
        have hin := hi.live.placed _ rfl
        obtain ⟨ext, s, hfind, rfl, hlink⟩ := findWhere_spec (str a) newbyte
          (highestBit 8 x ^^^ 255) hin (hin.length_le (hi.live.nodup _ rfl)) []
        rw [List.append_nil, locOf_nil] at hfind
        simp only [hd, if_true, ← hlink h.cells.length] at hcases hwf ⊢
        refine ⟨_, _, ?_, rfl, Writes.link hi hwf ?_⟩
        · simp only [hfind]
        · obtain ⟨h0, -⟩ | ⟨hnew, -⟩ := hcases
          · cases h0
          · exact hnew

end Insert

/-! ## Deletion -/

section Delete

variable {h : CritbitHeap α} {ctx : List (Crumb Split α)} {q : ℕ} {s : Split}
  {c : Bool → Placed Split α} {a : α} {d : Bool}

/-- Unlinking a node one of whose children is the element to be deleted. -/
theorem Writes.unlink (hi : HeapInv str h (some (plug ctx (.node q s c)))) (hleaf : c d = .leaf a)
    (hw : Wf str (some (forget (plug ctx (c (!d))))))
    (hgone : ¬ Stored (some (forget (plug ctx (c (!d))))) a) :
    Writes str h (some (plug ctx (.node q s c))) (h.store (locOf ctx) (c (!d)).ptr)
      (some (plug ctx (c (!d)))) := by
  have hplaced := hi.live.placed _ rfl
  obtain ⟨-, hnd, hdis⟩ := nodup_plug.1 (hi.live.nodup _ rfl)
  have hsub : ∀ q' ∈ (c (!d)).addrs, q' ∈ (Placed.node q s c).addrs := fun q' hq' =>
    Placed.mem_addrs_node.2 (Or.inr ⟨!d, hq'⟩)
  have hin : (c (!d)).In h.cells := (in_of_plug hplaced).2 (!d)
  have hnodup : (c (!d)).addrs.Nodup := by
    obtain ⟨-, hnd⟩ := List.nodup_cons.1 hnd
    obtain ⟨h0, h1, -⟩ := List.nodup_append'.1 hnd
    cases d with
    | false => exact h1
    | true => exact h0
  have hdisj : ∀ q' ∈ (c (!d)).addrs, q' ∉ ctxAddrs ctx := fun q' hq' => hdis q' (hsub q' hq')
  have hlive := live_store hi.live hin hnodup hdisj
  have hkeep := keeps_store h (locOf ctx) (c (!d)).ptr
  refine ⟨⟨hlive, hw, ?_⟩, hkeep, fun u r p hr hr' hp => ?_⟩
  · refine hi.ranked.step (ranked_of_wf hw) (hlive.placed _ rfl) hkeep fun q' c' hc' hq' => ?_
    rw [mem_addrs_plug, not_or] at hq'
    exact (getElem?_store_ne hq'.1).symm.trans hc'
  · refine hp.publish hi.live hin hdisj fun hold => ?_
    simp only [Placed.walk] at hold
    by_cases hside : s.side u = d
    · rw [hside, hleaf] at hold
      simp only [Placed.walk] at hold
      have hne : u ≠ str a := by
        intro hu
        rw [answers_of_eq hu] at hold
        exact hgone ((critbitGet_eq_some hw).1 (hr'.trans hold)).1
      rw [answers_of_ne hne] at hold
      -- the lookup finds nothing in the tree, so not in this part of it
      have hstored := stored_plug ctx (walk_placed_stored (wf_of_plug hw) u)
      have hother : u ≠ str ((c (!d)).walk (Split.side u)) := by
        intro hu
        have hget := (critbitGet_eq_some hw).2 ⟨hstored, hu.symm⟩
        cases (hr'.trans hold).symm.trans hget
      exact (answers_of_ne hother).2 hold
    · rwa [Bool.eq_not_of_ne hside] at hold

/-- The deletion in memory is the deletion of the tree. -/
theorem heapDelete_refines {t : Option (Placed Split α)} (hi : HeapInv str h t) (u : CStr) :
    ∃ h' t', heapDelete str h u = some ((critbitDelete str (t.map forget) u).1, h') ∧
      t'.map forget = (critbitDelete str (t.map forget) u).2 ∧ Writes str h t h' t' := by
  have hroot := hi.live.root
  have hcases := critbitDelete_cases hi.wf u
  have hwf := wf_delete hi.wf u
  cases t with
  | none =>
    refine ⟨h, none, ?_, rfl, .refl hi⟩
    simp only [heapDelete, hroot, Option.map_none, critbitDelete]
  | some t =>
    have hin := hi.live.placed _ rfl
    have hlen := hin.length_le (hi.live.nodup _ rfl)
    simp only [heapDelete, hroot, Option.map_some, critbitDelete, walk_forget] at hcases hwf ⊢
    obtain ⟨hleaf, hfind⟩ | ⟨ext, q, s, c, hfind, rfl, hleaf, hunlink⟩ :=
      findLeaf_spec (u := u) hin hlen [] none
    · rw [locOf_nil] at hfind
      simp only [hfind]
      by_cases hu : u = str (t.walk (Split.side u))
      · simp only [← hu, ne_eq, not_true, if_false]
        refine ⟨{ h with root := none }, none, rfl, ?_, Writes.root hi ?_ (wf_none str)⟩
        · rw [hleaf]
          rfl
        · exact ⟨rfl, by rintro s ⟨⟩, by rintro s ⟨⟩⟩
      · simp only [ne_eq, hu, not_false_iff, if_true]
        exact ⟨h, some t, rfl, rfl, .refl hi⟩
    · rw [List.append_nil, locOf_nil] at hfind
      simp only [hfind]
      set a := (plug ext (.node q s c)).walk (Split.side u) with ha
      by_cases hu : u = str a
      · simp only [← hu, ne_eq, not_true, if_false, hunlink] at hcases hwf ⊢
        refine ⟨_, _, rfl, rfl, Writes.unlink hi hleaf hwf fun hstill => ?_⟩
        obtain ⟨hget, -⟩ | ⟨b, hget, -, -, hmem⟩ := hcases
        · simp [critbitGet, walk_forget, ← ha, ← hu] at hget
        · simp only [critbitGet, walk_forget, ← ha, if_pos hu, Option.some.injEq] at hget
          exact ((hmem a).1 hstill).2 hget
      · simp only [ne_eq, hu, not_false_iff, if_true]
        exact ⟨h, _, rfl, rfl, .refl hi⟩

end Delete

end Invariant

end Lana
