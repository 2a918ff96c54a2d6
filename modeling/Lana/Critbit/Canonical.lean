import Lana.Critbit.Map

/-!
# The shape of a crit-bit tree

The set of stored strings decides the tree, down to the `byte` and `otherbits` of every inner node
(`critbit_canonical`): neither the order of the insertions nor strings that came and went leave a
trace.
-/

namespace Lana

open BitTree

/-- The tree with the strings in the place of the references to them. -/
def CritbitNode.map {α β : Type*} (f : α → β) : CritbitNode α → CritbitNode β
  | .elem a => .elem (f a)
  | .node byte otherbits c0 c1 => .node byte otherbits (c0.map f) (c1.map f)

section Encoded

variable {α β : Type*}

theorem encoded_map (f : α → β) {p : CritbitNode α} (hp : Encoded p) : Encoded (p.map f) := by
  induction p with
  | elem a => exact trivial
  | node byte otherbits c0 c1 ih0 ih1 => exact ⟨hp.1, ih0 hp.2.1, ih1 hp.2.2⟩

theorem toTree_map (f : α → β) (p : CritbitNode α) : toTree (p.map f) = (toTree p).map f := by
  induction p with
  | elem a => rfl
  | node byte otherbits c0 c1 ih0 ih1 =>
    simp only [CritbitNode.map, toTree, BitTree.Tree.map, ih0, ih1]

/-- A position is tested in one way only. -/
theorem position_inj {byte byte' b b' : ℕ} (hb : b < 8) (hb' : b' < 8)
    (h : position byte (255 - 2 ^ b) = position byte' (255 - 2 ^ b')) :
    byte = byte' ∧ b = b' := by
  rw [position_eq byte hb, position_eq byte' hb'] at h
  omega

theorem eq_of_toTree_eq {p p' : CritbitNode α} (hp : Encoded p) (hp' : Encoded p')
    (h : toTree p = toTree p') : p = p' := by
  induction p generalizing p' with
  | elem a =>
    cases p' with
    | elem a' => rw [BitTree.Tree.leaf.inj h]
    | node byte' otherbits' c0' c1' => cases h
  | node byte otherbits c0 c1 ih0 ih1 =>
    cases p' with
    | elem a' => cases h
    | node byte' otherbits' c0' c1' =>
      obtain ⟨hpos, h0, h1⟩ := BitTree.Tree.node.inj h
      obtain ⟨⟨b, hb, rfl⟩, he0, he1⟩ := hp
      obtain ⟨⟨b', hb', rfl⟩, he0', he1'⟩ := hp'
      obtain ⟨rfl, rfl⟩ := position_inj hb hb' hpos
      rw [ih0 he0 he0' h0, ih1 he1 he1' h1]

end Encoded

section Trees

variable {α : Type*} {str : α → CStr}

/-- Two trees over the same references are the same. -/
theorem eq_of_stored_iff {tree tree' : CritbitTree α} (hw : Wf str tree) (hw' : Wf str tree')
    (h : ∀ a, Stored tree a ↔ Stored tree' a) : tree = tree' := by
  cases tree with
  | none =>
    cases tree' with
    | none => rfl
    | some p' =>
      obtain ⟨a, ha⟩ := Tree.exists_mem (toTree p')
      exact absurd ((h a).2 (stored_some.2 ha)) (not_stored_none a)
  | some p =>
    cases tree' with
    | none =>
      obtain ⟨a, ha⟩ := Tree.exists_mem (toTree p)
      exact absurd ((h a).1 (stored_some.2 ha)) (not_stored_none a)
    | some p' =>
      obtain ⟨he, hc⟩ := hw p rfl
      obtain ⟨he', hc'⟩ := hw' p' rfl
      have hmem : ∀ a, (toTree p).Mem a ↔ (toTree p').Mem a := fun a => by
        rw [← stored_some, ← stored_some, h]
      rw [eq_of_toTree_eq he he' (Tree.eq_of_mem_iff hc hc' hmem)]

theorem wf_map {tree : CritbitTree α} (hw : Wf str tree) :
    Wf id (tree.map (CritbitNode.map str)) := by
  intro q hq
  obtain ⟨p, rfl, rfl⟩ := Option.map_eq_some_iff.1 hq
  obtain ⟨he, hc⟩ := hw p rfl
  refine ⟨encoded_map str he, ?_⟩
  rw [toTree_map]
  exact Tree.crit_map str hc

theorem stored_map {tree : CritbitTree α} {u : CStr} :
    Stored (tree.map (CritbitNode.map str)) u ↔ ∃ a, Stored tree a ∧ str a = u := by
  cases tree with
  | none =>
    constructor
    · exact fun h => absurd h (not_stored_none u)
    · rintro ⟨a, ha, -⟩
      exact absurd ha (not_stored_none a)
  | some p =>
    show Stored (some (p.map str)) u ↔ _
    simp only [stored_some, toTree_map, Tree.mem_map]

theorem critbitContains_iff {tree : CritbitTree α} (hw : Wf str tree) {u : CStr} :
    critbitContains str tree u = true ↔ ∃ a, Stored tree a ∧ str a = u := by
  rw [critbitContains_eq, Option.isSome_iff_exists]
  simp only [critbitGet_eq_some hw]

/-- Two trees with the same strings have the same shape. -/
theorem map_eq_of_contains {tree tree' : CritbitTree α} (hw : Wf str tree) (hw' : Wf str tree')
    (h : ∀ u, critbitContains str tree u = critbitContains str tree' u) :
    tree.map (CritbitNode.map str) = tree'.map (CritbitNode.map str) := by
  apply eq_of_stored_iff (wf_map hw) (wf_map hw')
  intro u
  rw [stored_map, stored_map, ← critbitContains_iff hw, ← critbitContains_iff hw', h]

theorem critbitInsert_new {tree : CritbitTree α} (hw : Wf str tree) {a : α}
    (hnew : critbitGet str tree (str a) = none) : (critbitInsert str true tree a).1 = .ok := by
  by_contra hok
  obtain he | ⟨-, he⟩ := (critbitInsert_not_ok hw hok).2
  · exact (critbitInsert_eexist_iff hw true a).1 he hnew
  · cases he

/-- A string that comes and goes leaves the references as they were. -/
theorem critbitGet_delete_insert {tree : CritbitTree α} (hw : Wf str tree) {a : α}
    (hnew : critbitGet str tree (str a) = none) (u : CStr) :
    critbitGet str (critbitDelete str (critbitInsert str true tree a).2 (str a)).2 u =
      critbitGet str tree u := by
  rw [critbitGet_delete (wf_insert hw true a), critbitGet_insert_ok hw (critbitInsert_new hw hnew)]
  by_cases hu : u = str a
  · rw [if_pos hu, hu, hnew]
  · rw [if_neg hu, if_neg hu]

theorem delete_insert_eq {tree : CritbitTree α} (hw : Wf str tree) {a : α}
    (hnew : critbitGet str tree (str a) = none) :
    (critbitDelete str (critbitInsert str true tree a).2 (str a)).2 = tree := by
  have hw' := wf_delete (wf_insert hw true a) (str a)
  apply eq_of_stored_iff hw' hw
  intro b
  have hget := critbitGet_delete_insert hw hnew (str b)
  constructor
  · intro hb
    rw [(critbitGet_eq_some hw').2 ⟨hb, rfl⟩] at hget
    exact ((critbitGet_eq_some hw).1 hget.symm).1
  · intro hb
    rw [(critbitGet_eq_some hw).2 ⟨hb, rfl⟩] at hget
    exact ((critbitGet_eq_some hw').1 hget).1

end Trees

/-- **Canonical.** Two histories from the empty tree that leave the same strings leave the same
tree, node by node; and an insertion of a new string is undone by its deletion, down to the
references. -/
theorem critbit_canonical {α : Type*} {str : α → CStr} (ops ops' : List (CritbitOp α))
    (h : ∀ u, critbitContains str (runCritbit str ops).1 u =
      critbitContains str (runCritbit str ops').1 u) :
    (runCritbit str ops).1.map (CritbitNode.map str) =
        (runCritbit str ops').1.map (CritbitNode.map str) ∧
      ∀ a, critbitContains str (runCritbit str ops).1 (str a) = false →
        (critbitDelete str (critbitInsert str true (runCritbit str ops).1 a).2 (str a)).2 =
          (runCritbit str ops).1 := by
  obtain ⟨hw, -⟩ := @runCritbit_inv _ str ops
  obtain ⟨hw', -⟩ := @runCritbit_inv _ str ops'
  refine ⟨map_eq_of_contains hw hw' h, fun a ha => delete_insert_eq hw ?_⟩
  rw [critbitContains_eq] at ha
  simpa using ha

/-- Two strings in two orders, and a third that comes and goes. -/
theorem critbit_canonical_order :
    let a := CStr.mk [97] (by simp) (by simp)
    let b := CStr.mk [98] (by simp) (by simp)
    let ab := CStr.mk [97, 98] (by simp) (by simp)
    (runCritbit id [.insert a true, .insert b true]).1.map (CritbitNode.map id) =
      (runCritbit id [.insert ab true, .delete ab, .insert b true, .insert a true]).1.map
        (CritbitNode.map id) := by
  intro a b ab
  refine (critbit_canonical _ _ fun u => ?_).1
  have hleft : (runCritbit id [.insert a true, .insert b true]).2 =
      Function.update (Function.update (fun _ => none) a (some a)) b (some b) := rfl
  have hright : (runCritbit id [.insert ab true, .delete ab, .insert b true, .insert a true]).2 =
      Function.update (Function.update (Function.update (Function.update (fun _ => none)
        ab (some ab)) ab none) b (some b)) a (some a) := rfl
  have hne : a ≠ b := by simp [a, b]
  rw [critbitContains_eq, critbitContains_eq, (runCritbit_inv _).2, (runCritbit_inv _).2, hleft,
    hright]
  simp only [Function.update_apply]
  split_ifs <;> simp_all

end Lana
