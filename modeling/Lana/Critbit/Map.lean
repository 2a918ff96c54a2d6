import Lana.Critbit.Bits

/-!
# The crit-bit tree is a finite map

`Wf` is the invariant of `xt_critbit.c`: every inner node tests one bit and the tree is a
critical-bit tree for the bits of its strings.  A well-formed tree is read through the references
stored in it (`critbitGet_eq_some`); an insertion adds one reference, a deletion removes one
(`stored_insert`, `stored_delete`).  Over a run of insertions and deletions from the empty tree the
lookups answer from the history (`critbit_finite_map`), and so do the deletions on every tree but the
empty one (`critbit_delete_truthful_iff`).
-/

namespace Lana

open BitTree

variable {α : Type*} (str : α → CStr)

/-- The representation invariant of a tree. -/
def Wf (tree : CritbitTree α) : Prop :=
  ∀ p, tree = some p → Encoded p ∧ (toTree p).Crit (fun a => bitAt (str a))

/-- `a` is one of the references in the tree. -/
def Stored (tree : CritbitTree α) (a : α) : Prop := ∃ p, tree = some p ∧ (toTree p).Mem a

theorem wf_none : Wf str (none : CritbitTree α) := by
  intro p hp
  cases hp

theorem not_stored_none (a : α) : ¬ Stored (none : CritbitTree α) a := by
  rintro ⟨p, hp, -⟩
  cases hp

theorem stored_some {p : CritbitNode α} {a : α} : Stored (some p) a ↔ (toTree p).Mem a := by
  constructor
  · rintro ⟨p', hp', ha⟩
    cases hp'
    exact ha
  · exact fun ha => ⟨p, rfl, ha⟩

variable {str}

/-! ## Lookups -/

theorem walk_stored {p : CritbitNode α} (hw : Wf str (some p)) (u : CStr) :
    Stored (some p) (walk u p) := by
  rw [stored_some, walk_toTree u (hw p rfl).1]
  exact Tree.walk_mem _ _

/-- A stored string leads to its own reference. -/
theorem walk_of_stored {p : CritbitNode α} (hw : Wf str (some p)) {a : α}
    (ha : Stored (some p) a) : walk (str a) p = a := by
  rw [walk_toTree _ (hw p rfl).1]
  exact Tree.walk_eq_of_mem (hw p rfl).2 (stored_some.1 ha) (fun _ => rfl)

/-- `critbit_get` finds exactly the stored references. -/
theorem critbitGet_eq_some {tree : CritbitTree α} (hw : Wf str tree) {u : CStr} {a : α} :
    critbitGet str tree u = some a ↔ Stored tree a ∧ str a = u := by
  cases tree with
  | none =>
    unfold critbitGet
    constructor
    · intro h; cases h
    · rintro ⟨h, -⟩; exact absurd h (not_stored_none a)
  | some p =>
    simp only [critbitGet]
    constructor
    · intro h
      split_ifs at h with hu
      cases h
      exact ⟨walk_stored hw u, hu.symm⟩
    · rintro ⟨ha, rfl⟩
      rw [walk_of_stored hw ha, if_pos rfl]

theorem critbitContains_eq (tree : CritbitTree α) (u : CStr) :
    critbitContains str tree u = (critbitGet str tree u).isSome := by
  cases tree with
  | none => rfl
  | some p =>
    simp only [critbitContains, critbitGet]
    by_cases hu : u = str (walk u p)
    · rw [if_pos hu, decide_eq_true hu]; rfl
    · rw [if_neg hu, decide_eq_false hu]; rfl

/-! ## Insertion -/

/-- The second walk adds the reference and keeps the invariant. -/
theorem wf_linkNode {p : CritbitNode α} (hw : Wf str (some p)) {a : α}
    {newbyte x newotherbits newdirection : ℕ}
    (hd : differingByte (str a) (str (walk (str a) p)) (str a).strlen 0 = some (newbyte, x))
    (hother : newotherbits = highestBit 8 x ^^^ 255)
    (hnewdir : newdirection = direction newotherbits ((str (walk (str a) p)).get newbyte)) :
    Wf str (some (linkNode (str a) newbyte newotherbits newdirection a p)) ∧
      ∀ b, Stored (some (linkNode (str a) newbyte newotherbits newdirection a p)) b ↔
        b = a ∨ Stored (some p) b := by
  obtain ⟨henc, hcrit⟩ := hw p rfl
  obtain ⟨b, hb, hob, hag, hne⟩ := first_difference hd
  rw [hob] at hother
  subst hother
  have hpos := position_eq newbyte hb
  -- the new element lies on the other side than the leaf the first walk found
  have hdir : newdirection = 0 ↔ bitAt (str a) (position newbyte (255 - 2 ^ b)) = true := by
    rw [hnewdir, direction_eq hb (CStr.get_lt _ _), hpos, bitAt_mul_add _ _ hb]
    revert hne
    cases ((str (walk (str a) p)).get newbyte).testBit b <;>
      cases ((str a).get newbyte).testBit b <;> simp
  have htree : toTree (linkNode (str a) newbyte (255 - 2 ^ b) newdirection a p) =
      (toTree p).graft (bitAt (str a)) (position newbyte (255 - 2 ^ b)) a :=
    linkNode_toTree hb hdir henc
  refine ⟨fun q hq => ?_, fun c => ?_⟩
  · cases hq
    refine ⟨encoded_linkNode hb a henc, ?_⟩
    rw [htree]
    refine Tree.crit_graft hcrit (fun _ => rfl) (fun n hn => ?_) ?_
    · rw [← walk_toTree _ henc]
      rw [hpos] at hn
      exact hag n hn
    · rw [← walk_toTree _ henc, hpos, bitAt_mul_add _ _ hb, bitAt_mul_add _ _ hb]
      exact hne
  · rw [stored_some, stored_some, htree]
    exact Tree.mem_graft

/-- What `critbit_insert` can do. -/
theorem critbitInsert_cases {tree : CritbitTree α} (hw : Wf str tree) (alloc : Bool) (a : α) :
    ((critbitInsert str alloc tree a).1 = .err .EEXIST ∧
        (critbitInsert str alloc tree a).2 = tree ∧ ∃ b, Stored tree b ∧ str b = str a) ∨
      ((∀ b, Stored tree b → str b ≠ str a) ∧
        (((critbitInsert str alloc tree a).1 = .err .ENOMEM ∧ alloc = false ∧
            (critbitInsert str alloc tree a).2 = tree) ∨
          ((critbitInsert str alloc tree a).1 = .ok ∧
            Wf str (critbitInsert str alloc tree a).2 ∧
            ∀ b, Stored (critbitInsert str alloc tree a).2 b ↔ b = a ∨ Stored tree b))) := by
  cases tree with
  | none =>
    refine Or.inr ⟨fun b hb => absurd hb (not_stored_none b), Or.inr ⟨rfl, ?_, fun b => ?_⟩⟩
    · intro p hp
      cases hp
      exact ⟨trivial, trivial⟩
    · change Stored (some (.elem a)) b ↔ _
      rw [stored_some]
      exact ⟨Or.inl, fun h => h.elim id (fun h => absurd h (not_stored_none b))⟩
  | some p =>
    simp only [critbitInsert]
    rcases hd : differingByte (str a) (str (walk (str a) p)) (str a).strlen 0 with _ | ⟨i, x⟩
    · exact Or.inl ⟨rfl, rfl, walk (str a) p, walk_stored hw _, (differingByte_none_iff.1 hd).symm⟩
    · refine Or.inr ⟨fun b hb heq => ?_, ?_⟩
      · -- a stored string equal to the new one would have been found by the first walk
        have hwalk := walk_of_stored hw hb
        rw [heq] at hwalk
        rw [hwalk, heq, differingByte_none_iff.2 rfl] at hd
        cases hd
      · cases alloc with
        | false => exact Or.inl ⟨rfl, rfl, rfl⟩
        | true => exact Or.inr ⟨rfl, wf_linkNode hw hd rfl rfl⟩

theorem wf_insert {tree : CritbitTree α} (hw : Wf str tree) (alloc : Bool) (a : α) :
    Wf str (critbitInsert str alloc tree a).2 := by
  rcases critbitInsert_cases hw alloc a with ⟨-, h, -⟩ | ⟨-, ⟨-, -, h⟩ | ⟨-, h, -⟩⟩
  · rw [h]; exact hw
  · rw [h]; exact hw
  · exact h

/-- A lookup after an insertion that returned 0. -/
theorem critbitGet_insert_ok {tree : CritbitTree α} (hw : Wf str tree) {alloc : Bool} {a : α}
    (h : (critbitInsert str alloc tree a).1 = .ok) (u : CStr) :
    critbitGet str (critbitInsert str alloc tree a).2 u =
      if u = str a then some a else critbitGet str tree u := by
  rcases critbitInsert_cases hw alloc a with ⟨h', -⟩ | ⟨hnew, ⟨h', -⟩ | ⟨-, hw', hs⟩⟩
  · rw [h] at h'; cases h'
  · rw [h] at h'; cases h'
  · refine Option.ext fun b => ?_
    rw [critbitGet_eq_some hw', hs]
    by_cases hu : u = str a
    · rw [if_pos hu, Option.some.injEq]
      constructor
      · rintro ⟨rfl | hb, hub⟩
        · rfl
        · exact absurd (hub.trans hu) (hnew b hb)
      · rintro rfl
        exact ⟨Or.inl rfl, hu.symm⟩
    · rw [if_neg hu, critbitGet_eq_some hw]
      constructor
      · rintro ⟨rfl | hb, hub⟩
        · exact absurd hub.symm hu
        · exact ⟨hb, hub⟩
      · exact fun hb => ⟨Or.inr hb.1, hb.2⟩

/-- `-EEXIST` says that the string is stored. -/
theorem critbitInsert_eexist_iff {tree : CritbitTree α} (hw : Wf str tree) (alloc : Bool) (a : α) :
    (critbitInsert str alloc tree a).1 = .err .EEXIST ↔ critbitGet str tree (str a) ≠ none := by
  rcases critbitInsert_cases hw alloc a with ⟨h, -, b, hb⟩ | ⟨hnew, h⟩
  · rw [(critbitGet_eq_some hw).2 hb]
    exact ⟨fun _ => Option.some_ne_none b, fun _ => h⟩
  · have hnone : critbitGet str tree (str a) = none := by
      rw [Option.eq_none_iff_forall_ne_some]
      intro b hb
      obtain ⟨hs, heq⟩ := (critbitGet_eq_some hw).1 hb
      exact hnew b hs heq
    rw [hnone]
    rcases h with ⟨h, -⟩ | ⟨h, -⟩ <;> rw [h] <;> simp

/-- Only a returned 0 comes with a changed tree, and an absent string fails for want of memory
only. -/
theorem critbitInsert_not_ok {tree : CritbitTree α} (hw : Wf str tree) {alloc : Bool} {a : α}
    (h : (critbitInsert str alloc tree a).1 ≠ .ok) :
    (critbitInsert str alloc tree a).2 = tree ∧
      ((critbitInsert str alloc tree a).1 = .err .EEXIST ∨
        (critbitInsert str alloc tree a).1 = .err .ENOMEM ∧ alloc = false) := by
  rcases critbitInsert_cases hw alloc a with ⟨h', ht, -⟩ | ⟨-, ⟨h', hal, ht⟩ | ⟨h', -⟩⟩
  · exact ⟨ht, Or.inl h'⟩
  · exact ⟨ht, Or.inr ⟨h', hal⟩⟩
  · exact absurd h' h

/-- The insertion of a name that is not stored fails for want of memory only. -/
theorem critbitInsert_ok_iff (alloc : Bool) (tree : CritbitTree α)
    (a : α) (h : critbitGet str tree (str a) = none) :
    (critbitInsert str alloc tree a).1 = .ok ↔ alloc = true ∨ tree = none := by
  cases tree with
  | none => exact ⟨fun _ => .inr rfl, fun _ => rfl⟩
  | some p =>
    have hne : str a ≠ str (walk (str a) p) := by
      intro heq
      simp [critbitGet, ← heq] at h
    simp only [critbitInsert]
    rcases hd : differingByte (str a) (str (walk (str a) p)) (str a).strlen 0 with _ | ⟨i, x⟩
    · exact absurd (differingByte_none_iff.1 hd) hne
    · cases alloc <;> simp

/-- An insertion that fails leaves the tree as it is, well-formed or not. -/
theorem critbitInsert_of_err {alloc : Bool} {tree : CritbitTree α} {a : α} {e : Errno}
    (h : (critbitInsert str alloc tree a).1 = .err e) :
    (critbitInsert str alloc tree a).2 = tree := by
  cases tree with
  | none => cases h
  | some p =>
    simp only [critbitInsert] at h ⊢
    rcases hd : differingByte (str a) (str (walk (str a) p)) (str a).strlen 0 with _ | ⟨i, x⟩
    · rfl
    · rw [hd] at h
      cases alloc
      · rfl
      · cases h

/-! ## Deletion -/

/-- The deletion walk on a stored string. -/
theorem wf_unlinkNode {p : CritbitNode α} (hw : Wf str (some p)) (u : CStr) :
    Wf str (unlinkNode u p) ∧
      ∀ b, Stored (unlinkNode u p) b ↔ Stored (some p) b ∧ b ≠ walk u p := by
  obtain ⟨henc, hcrit⟩ := hw p rfl
  have htree := unlinkNode_toTree (u := u) henc
  rcases hp' : unlinkNode u p with _ | p'
  · rw [hp'] at htree
    refine ⟨wf_none str, fun b => ?_⟩
    have hleaf := Tree.prune_eq_none htree.symm
    rw [stored_some, hleaf, walk_toTree u henc, Tree.mem_leaf]
    exact ⟨fun h => absurd h (not_stored_none b), fun h => absurd h.1 h.2⟩
  · rw [hp'] at htree
    have hprune : (toTree p).prune (bitAt u) = some (toTree p') := htree.symm
    refine ⟨fun q hq => ?_, fun b => ?_⟩
    · cases hq
      exact ⟨encoded_unlinkNode henc hp', Tree.crit_prune hcrit hprune⟩
    · rw [stored_some, stored_some, Tree.mem_prune hcrit hprune, walk_toTree u henc]

/-- What `critbit_delete` can do. -/
theorem critbitDelete_cases {tree : CritbitTree α} (hw : Wf str tree) (u : CStr) :
    (critbitGet str tree u = none ∧ (critbitDelete str tree u).2 = tree) ∨
      ∃ a, critbitGet str tree u = some a ∧ (critbitDelete str tree u).1 = .ok ∧
        Wf str (critbitDelete str tree u).2 ∧
        ∀ b, Stored (critbitDelete str tree u).2 b ↔ Stored tree b ∧ b ≠ a := by
  cases tree with
  | none => exact Or.inl ⟨rfl, rfl⟩
  | some p =>
    simp only [critbitGet, critbitDelete]
    by_cases hu : u = str (walk u p)
    · rw [if_pos hu, if_neg (not_not.2 hu)]
      exact Or.inr ⟨walk u p, rfl, rfl, wf_unlinkNode hw u⟩
    · rw [if_neg hu, if_pos hu]
      exact Or.inl ⟨rfl, rfl⟩

/-- What `critbit_delete` returns; the empty tree has an exit of its own. -/
theorem critbitDelete_ok_iff (tree : CritbitTree α) (u : CStr) :
    (critbitDelete str tree u).1 = .ok ↔ tree = none ∨ critbitGet str tree u ≠ none := by
  cases tree with
  | none => exact ⟨fun _ => .inl rfl, fun _ => rfl⟩
  | some p =>
    simp only [critbitGet, critbitDelete]
    by_cases hu : u = str (walk u p)
    · rw [if_neg (not_not.2 hu), if_pos hu]; simp
    · rw [if_pos hu, if_neg hu]; simp

/-- `critbit_delete` knows one error. -/
theorem critbitDelete_enoent_iff (tree : CritbitTree α) (u : CStr) :
    (critbitDelete str tree u).1 = .err .ENOENT ↔ (critbitDelete str tree u).1 ≠ .ok := by
  cases tree with
  | none => exact ⟨nofun, fun h => absurd rfl h⟩
  | some p =>
    simp only [critbitDelete]
    split_ifs <;> simp

theorem wf_delete {tree : CritbitTree α} (hw : Wf str tree) (u : CStr) :
    Wf str (critbitDelete str tree u).2 := by
  rcases critbitDelete_cases hw u with ⟨-, h⟩ | ⟨a, -, -, h, -⟩
  · rw [h]; exact hw
  · exact h

/-- A lookup after a deletion. -/
theorem critbitGet_delete {tree : CritbitTree α} (hw : Wf str tree) (k u : CStr) :
    critbitGet str (critbitDelete str tree k).2 u =
      if u = k then none else critbitGet str tree u := by
  rcases critbitDelete_cases hw k with ⟨hnone, h⟩ | ⟨a, ha, -, hw', hs⟩
  · rw [h]
    by_cases hu : u = k
    · rw [if_pos hu, hu, hnone]
    · rw [if_neg hu]
  · obtain ⟨hsa, rfl⟩ := (critbitGet_eq_some hw).1 ha
    refine Option.ext fun b => ?_
    rw [critbitGet_eq_some hw', hs]
    by_cases hu : u = str a
    · rw [if_pos hu]
      constructor
      · rintro ⟨⟨hb, hne⟩, hub⟩
        -- two stored references with one string are one
        have hba := (critbitGet_eq_some hw).2 ⟨hb, hub.trans hu⟩
        rw [ha, Option.some.injEq] at hba
        exact absurd hba.symm hne
      · intro h; cases h
    · rw [if_neg hu, critbitGet_eq_some hw]
      constructor
      · rintro ⟨⟨hb, -⟩, hub⟩
        exact ⟨hb, hub⟩
      · rintro ⟨hb, hub⟩
        refine ⟨⟨hb, ?_⟩, hub⟩
        rintro rfl
        exact hu hub.symm

/-! ## Histories -/

variable (str)

/-- A call that changes the tree; an insertion comes with the outcome of its node allocation. -/
inductive CritbitOp (α : Type*) where
  | insert (a : α) (alloc : Bool)
  | delete (k : CStr)

/-- One call. -/
def CritbitOp.exec (tree : CritbitTree α) : CritbitOp α → Ret × CritbitTree α
  | .insert a alloc => critbitInsert str alloc tree a
  | .delete k => critbitDelete str tree k

/-- The reference each string was last inserted with, from the calls and what they returned: an
insertion counts when it returned 0. -/
def CritbitOp.record (m : CStr → Option α) : Ret → CritbitOp α → CStr → Option α
  | .ok, .insert a _ => Function.update m (str a) (some a)
  | .err _, .insert _ _ => m
  | _, .delete k => Function.update m k none

/-- The tree after a sequence of calls, and what the history says. -/
def runCritbit (ops : List (CritbitOp α)) : CritbitTree α × (CStr → Option α) :=
  ops.foldl (fun s op => ((op.exec str s.1).2, op.record str s.2 (op.exec str s.1).1))
    (none, fun _ => none)

variable {str}

theorem exec_record {tree : CritbitTree α} (hw : Wf str tree) (op : CritbitOp α) :
    Wf str (op.exec str tree).2 ∧ critbitGet str (op.exec str tree).2 =
      op.record str (critbitGet str tree) (op.exec str tree).1 := by
  cases op with
  | insert a alloc =>
    refine ⟨wf_insert hw alloc a, funext fun u => ?_⟩
    simp only [CritbitOp.exec]
    rcases hr : (critbitInsert str alloc tree a).1 with _ | e
    · rw [critbitGet_insert_ok hw hr, CritbitOp.record, Function.update_apply]
    · rw [(critbitInsert_not_ok hw (by rw [hr]; exact Ret.noConfusion)).1, CritbitOp.record]
  | delete k =>
    refine ⟨wf_delete hw k, funext fun u => ?_⟩
    simp only [CritbitOp.exec]
    rw [critbitGet_delete hw, CritbitOp.record, Function.update_apply]

theorem runCritbit_inv (ops : List (CritbitOp α)) :
    Wf str (runCritbit str ops).1 ∧
      critbitGet str (runCritbit str ops).1 = (runCritbit str ops).2 := by
  unfold runCritbit
  induction ops using List.reverseRecOn with
  | nil => exact ⟨wf_none str, rfl⟩
  | append_singleton ops op ih =>
    rw [List.foldl_append, List.foldl_cons, List.foldl_nil]
    obtain ⟨hw, hget⟩ := ih
    obtain ⟨hw', hget'⟩ := exec_record hw op
    exact ⟨hw', by rw [hget', hget]⟩

/-- **Finite map.** After every sequence of insertions and deletions from the empty tree the
lookups answer from the history, and the next call changes exactly what it should. -/
theorem critbit_finite_map (ops : List (CritbitOp α)) :
    let tree := (runCritbit str ops).1
    let m := (runCritbit str ops).2
    (∀ k, critbitContains str tree k = true ↔ m k ≠ none) ∧
    (∀ k, critbitGet str tree k = m k) ∧
    (∀ a alloc, (critbitInsert str alloc tree a).1 = .err .EEXIST ↔ m (str a) ≠ none) ∧
    (∀ a alloc, m (str a) = none →
      ((critbitInsert str alloc tree a).1 = .ok ∧
        ∀ k, critbitGet str (critbitInsert str alloc tree a).2 k =
          if k = str a then some a else critbitGet str tree k) ∨
      (critbitInsert str alloc tree a).1 = .err .ENOMEM ∧ alloc = false) ∧
    (∀ a alloc, (critbitInsert str alloc tree a).1 = .err .EEXIST ∨
        (critbitInsert str alloc tree a).1 = .err .ENOMEM →
      (critbitInsert str alloc tree a).2 = tree) ∧
    (∀ k, m k = none → (critbitDelete str tree k).2 = tree) ∧
    (∀ k, m k ≠ none → ∀ k', critbitGet str (critbitDelete str tree k).2 k' =
      if k' = k then none else critbitGet str tree k') := by
  intro tree m
  obtain ⟨hw, hget⟩ := @runCritbit_inv _ str ops
  have hm : ∀ k, critbitGet str tree k = m k := fun k => congrFun hget k
  refine ⟨fun k => ?_, hm, fun a alloc => ?_, fun a alloc h => ?_, fun a alloc h => ?_,
    fun k h => ?_, fun k _ k' => critbitGet_delete hw k k'⟩
  · rw [critbitContains_eq, ← hm, Option.isSome_iff_ne_none]
  · rw [← hm]; exact critbitInsert_eexist_iff hw alloc a
  · by_cases hr : (critbitInsert str alloc tree a).1 = .ok
    · exact Or.inl ⟨hr, critbitGet_insert_ok hw hr⟩
    · rcases (critbitInsert_not_ok hw hr).2 with he | he
      · rw [critbitInsert_eexist_iff hw, hm] at he
        exact absurd h he
      · exact Or.inr he
  · refine (critbitInsert_not_ok hw fun hr => ?_).1
    rw [hr] at h
    rcases h with h | h <;> cases h
  · rcases critbitDelete_cases hw k with ⟨-, ht⟩ | ⟨a, ha, -⟩
    · exact ht
    · have := hm k
      rw [ha, h] at this
      cases this

/-- A well-formed tree is empty when no string is found in it. -/
theorem eq_none_iff {tree : CritbitTree α} (hw : Wf str tree) :
    tree = none ↔ ∀ k, critbitGet str tree k = none := by
  constructor
  · rintro rfl k
    rfl
  · intro h
    cases tree with
    | none => rfl
    | some p =>
      -- any walk ends at a stored reference
      have hs := walk_stored hw (CStr.mk [] nofun (by decide))
      have hget := (critbitGet_eq_some hw).2 ⟨hs, rfl⟩
      rw [h] at hget
      cases hget

/-- **Deletion.** `critbit_delete` tells whether the string was stored exactly on the trees that
store some string: on the empty tree it returns 0. -/
theorem critbit_delete_truthful_iff (ops : List (CritbitOp α)) (k : CStr) :
    let tree := (runCritbit str ops).1
    let m := (runCritbit str ops).2
    (((critbitDelete str tree k).1 = .ok ↔ m k ≠ none) ∧
      ((critbitDelete str tree k).1 = .err .ENOENT ↔ m k = none)) ↔ ∃ k', m k' ≠ none := by
  intro tree m
  obtain ⟨hw, hget⟩ := @runCritbit_inv _ str ops
  have hm : ∀ k, critbitGet str tree k = m k := fun k => congrFun hget k
  have hok : (critbitDelete str tree k).1 = .ok ↔ tree = none ∨ m k ≠ none := by
    rw [critbitDelete_ok_iff, hm]
  rw [critbitDelete_enoent_iff, ne_eq (critbitDelete str tree k).1, hok]
  by_cases htree : tree = none
  · -- everything is absent, and the answer is 0
    have hnone : ∀ k, m k = none := fun k => by rw [← hm]; exact (eq_none_iff hw).1 htree k
    simp [htree, hnone]
  · have hsome : ∃ k', m k' ≠ none := by
      by_contra h
      push Not at h
      exact htree ((eq_none_iff hw).2 fun k => by rw [hm]; exact h k)
    refine iff_of_true ⟨or_iff_right htree, ?_⟩ hsome
    rw [not_or, not_not]
    exact and_iff_right htree

/-- Nothing is stored in the new tree, and the deletion of any string succeeds. -/
theorem critbit_delete_empty :
    ¬ (((critbitDelete (α := CStr) id (runCritbit id []).1 ⟨[97], by simp, by decide⟩).1 = .ok ↔
          (runCritbit (α := CStr) id []).2 ⟨[97], by simp, by decide⟩ ≠ none) ∧
        ((critbitDelete (α := CStr) id (runCritbit id []).1 ⟨[97], by simp, by decide⟩).1 =
            .err .ENOENT ↔
          (runCritbit (α := CStr) id []).2 ⟨[97], by simp, by decide⟩ = none)) := by
  decide

end Lana
