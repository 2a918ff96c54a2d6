import Mathlib.Tactic

/-!
# Critical-bit trees over a linear order of positions

A binary tree whose leaves are elements `a : α` and whose inner nodes carry a position `p : P`.
Each element has a bit at every position (`bit a p`); an inner node sends the elements whose bit
at its position is set to the right.  `Crit` is the representation invariant: below an inner node
all elements agree at every smaller position and are split at the node's own position.

`walk` is the search for a bit stream `x`, `graft` adds an element at a position found by comparing
it with the element the walk ends in, `prune` removes that element.  The elements alone decide the
tree (`eq_of_mem_iff`).
-/

namespace BitTree

/-- A nonempty critical-bit tree. -/
inductive Tree (P α : Type*) where
  | leaf (a : α)
  | node (p : P) (l r : Tree P α)

variable {P α : Type*}

namespace Tree

/-- The elements at the leaves. -/
def Mem : Tree P α → α → Prop
  | leaf a, b => b = a
  | node _ l r, b => l.Mem b ∨ r.Mem b

@[simp] theorem mem_leaf {a b : α} : (leaf a : Tree P α).Mem b ↔ b = a := Iff.rfl

@[simp] theorem mem_node {p : P} {l r : Tree P α} {b : α} :
    (node p l r).Mem b ↔ l.Mem b ∨ r.Mem b := Iff.rfl

/-- The element the bit stream `x` leads to. -/
def walk (x : P → Bool) : Tree P α → α
  | leaf a => a
  | node p l r => if x p then r.walk x else l.walk x

theorem walk_mem (x : P → Bool) (t : Tree P α) : t.Mem (t.walk x) := by
  induction t with
  | leaf a => rfl
  | node p l r ihl ihr =>
    unfold walk
    split_ifs
    · exact Or.inr ihr
    · exact Or.inl ihl

/-- A node over `t` at the position `p`, with `a` on the side of its bit. -/
def fork (x : P → Bool) (p : P) (a : α) (t : Tree P α) : Tree P α :=
  if x p then node p t (leaf a) else node p (leaf a) t

theorem mem_fork {x : P → Bool} {p : P} {a b : α} {t : Tree P α} :
    (fork x p a t).Mem b ↔ b = a ∨ t.Mem b := by
  unfold fork
  split_ifs
  · exact or_comm
  · exact Iff.rfl

/-- Remove the element the bit stream `x` leads to; `none` when it is the only one. -/
def prune (x : P → Bool) : Tree P α → Option (Tree P α)
  | leaf _ => none
  | node p l r =>
    if x p then
      match r.prune x with
      | none => some l
      | some r' => some (node p l r')
    else
      match l.prune x with
      | none => some r
      | some l' => some (node p l' r)

theorem prune_eq_none {x : P → Bool} {t : Tree P α} (h : t.prune x = none) :
    t = leaf (t.walk x) := by
  cases t with
  | leaf a => rfl
  | node p l r =>
    unfold prune at h
    split_ifs at h <;> split at h <;> cases h

variable [LinearOrder P]

/-- Add `a` at the position `p`: descend along `x` past the nodes whose position is at most `p`. -/
def graft (x : P → Bool) (p : P) (a : α) : Tree P α → Tree P α
  | leaf b => fork x p a (leaf b)
  | node q l r =>
    if p < q then fork x p a (node q l r)
    else if x q then node q l (r.graft x p a) else node q (l.graft x p a) r

theorem mem_graft {x : P → Bool} {p : P} {a b : α} {t : Tree P α} :
    (t.graft x p a).Mem b ↔ b = a ∨ t.Mem b := by
  induction t with
  | leaf c => exact mem_fork
  | node q l r ihl ihr =>
    unfold graft
    split_ifs
    · exact mem_fork
    · rw [mem_node, ihr, mem_node]; exact or_left_comm
    · rw [mem_node, ihl, mem_node]; exact or_assoc

variable (bit : α → P → Bool)

/-- The representation invariant. -/
def Crit : Tree P α → Prop
  | leaf _ => True
  | node p l r => l.Crit ∧ r.Crit ∧ (∀ a, l.Mem a → bit a p = false) ∧
      (∀ a, r.Mem a → bit a p = true) ∧
      ∀ a b, (node p l r).Mem a → (node p l r).Mem b → ∀ q < p, bit a q = bit b q

variable {bit}

/-- An element of a tree is where its own bits lead. -/
theorem walk_eq_of_mem {t : Tree P α} (ht : t.Crit bit) {a : α} (ha : t.Mem a)
    {x : P → Bool} (hx : ∀ p, bit a p = x p) : t.walk x = a := by
  induction t with
  | leaf b => exact (mem_leaf.1 ha).symm
  | node p l r ihl ihr =>
    obtain ⟨hl, hr, h0, h1, -⟩ := ht
    unfold walk
    rcases mem_node.1 ha with ha | ha
    · rw [if_neg (by rw [← hx p, h0 a ha]; exact Bool.false_ne_true)]
      exact ihl hl ha
    · rw [if_pos (by rw [← hx p, h1 a ha])]
      exact ihr hr ha

theorem crit_fork {x : P → Bool} {p : P} {a : α} {t : Tree P α} (ht : t.Crit bit)
    (hx : ∀ q, bit a q = x q) (hlt : ∀ b, t.Mem b → ∀ q < p, bit b q = x q)
    (hne : ∀ b, t.Mem b → bit b p ≠ x p) : (fork x p a t).Crit bit := by
  have hagree : ∀ b, b = a ∨ t.Mem b → ∀ q < p, bit b q = x q := by
    rintro b (rfl | hb) q hq
    · exact hx q
    · exact hlt b hb q hq
  unfold fork
  split_ifs with hp
  · refine ⟨ht, trivial, fun b hb => ?_, fun b hb => ?_, fun b c hb hc q hq => ?_⟩
    · have := hne b hb
      rw [hp] at this
      simpa using this
    · rw [mem_leaf.1 hb, hx p, hp]
    · rw [hagree b (or_comm.1 hb) q hq, hagree c (or_comm.1 hc) q hq]
  · refine ⟨trivial, ht, fun b hb => ?_, fun b hb => ?_, fun b c hb hc q hq => ?_⟩
    · rw [mem_leaf.1 hb, hx p]
      simpa using hp
    · have := hne b hb
      rw [Bool.eq_false_iff.2 hp] at this
      simpa using this
    · rw [hagree b hb q hq, hagree c hc q hq]

/-- A node passed on the way to the first difference has a smaller position: at its own position
the new element and the walk's end agree. -/
theorem lt_of_differ {x : P → Bool} {p q : P} {l r : Tree P α} (ht : (node q l r).Crit bit)
    (hne : bit ((node q l r).walk x) p ≠ x p) (hpq : ¬ p < q) : q < p := by
  obtain ⟨-, -, h0, h1, -⟩ := ht
  refine lt_of_le_of_ne (not_lt.1 hpq) ?_
  rintro rfl
  apply hne
  unfold walk
  by_cases hx : x q
  · rw [if_pos hx, hx]
    exact h1 _ (walk_mem x r)
  · rw [if_neg hx, Bool.eq_false_iff.2 hx]
    exact h0 _ (walk_mem x l)

/-- Grafting keeps the invariant when `p` is the first position at which the new element differs
from the element its bits lead to. -/
theorem crit_graft {x : P → Bool} {p : P} {a : α} {t : Tree P α} (ht : t.Crit bit)
    (hx : ∀ q, bit a q = x q) (hlt : ∀ q < p, bit (t.walk x) q = x q)
    (hne : bit (t.walk x) p ≠ x p) : (t.graft x p a).Crit bit := by
  induction t with
  | leaf b =>
    refine crit_fork ht hx (fun c hc q hq => ?_) (fun c hc => ?_)
    · rw [mem_leaf.1 hc]; exact hlt q hq
    · rw [mem_leaf.1 hc]; exact hne
  | node q l r ihl ihr =>
    have hroot := walk_mem x (node q l r)
    unfold graft
    split_ifs with hpq hq
    · -- the new node stands above `q`: every element below agrees with the walk's end up to `p`
      have hag := ht.2.2.2.2
      refine crit_fork ht hx (fun c hc q' hq' => ?_) (fun c hc => ?_)
      · rw [hag c _ hc hroot q' (lt_trans hq' hpq)]; exact hlt q' hq'
      · rw [hag c _ hc hroot p hpq]; exact hne
    · have hqp := lt_of_differ ht hne hpq
      obtain ⟨hl, hr, h0, h1, hag⟩ := ht
      rw [walk, if_pos hq] at hlt hne hroot
      have hag' : ∀ c, (node q l (r.graft x p a)).Mem c → ∀ q' < q, bit c q' = x q' := by
        intro c hc q' hq'
        rw [mem_node, mem_graft, or_left_comm] at hc
        rcases hc with rfl | hc
        · exact hx q'
        · rw [hag c _ hc hroot q' hq']; exact hlt q' (lt_trans hq' hqp)
      refine ⟨hl, ihr hr hlt hne, h0, fun c hc => ?_, fun b c hb hc q' hq' => ?_⟩
      · rcases mem_graft.1 hc with rfl | hc
        · rw [hx, hq]
        · exact h1 c hc
      · rw [hag' b hb q' hq', hag' c hc q' hq']
    · have hqp := lt_of_differ ht hne hpq
      obtain ⟨hl, hr, h0, h1, hag⟩ := ht
      rw [walk, if_neg hq] at hlt hne hroot
      have hag' : ∀ c, (node q (l.graft x p a) r).Mem c → ∀ q' < q, bit c q' = x q' := by
        intro c hc q' hq'
        rw [mem_node, mem_graft, or_assoc] at hc
        rcases hc with rfl | hc
        · exact hx q'
        · rw [hag c _ hc hroot q' hq']; exact hlt q' (lt_trans hq' hqp)
      refine ⟨ihl hl hlt hne, hr, fun c hc => ?_, h1, fun b c hb hc q' hq' => ?_⟩
      · rcases mem_graft.1 hc with rfl | hc
        · rw [hx]; exact Bool.eq_false_iff.2 hq
        · exact h0 c hc
      · rw [hag' b hb q' hq', hag' c hc q' hq']

/-- The two sides of a node share no element. -/
theorem ne_of_sides {p : P} {l r : Tree P α} (ht : (node p l r).Crit bit) {a b : α}
    (ha : l.Mem a) (hb : r.Mem b) : a ≠ b := by
  rintro rfl
  obtain ⟨-, -, h0, h1, -⟩ := ht
  have := h1 a hb
  rw [h0 a ha] at this
  cases this

/-- Pruning removes the element the walk ends in, and no other. -/
theorem mem_prune {x : P → Bool} {t t' : Tree P α} (ht : t.Crit bit) (h : t.prune x = some t')
    {b : α} : t'.Mem b ↔ t.Mem b ∧ b ≠ t.walk x := by
  induction t generalizing t' with
  | leaf a => cases h
  | node p l r ihl ihr =>
    have hside := @ne_of_sides _ _ _ _ _ _ _ ht
    obtain ⟨hl, hr, -, -, -⟩ := ht
    unfold prune at h
    unfold walk
    split_ifs at h ⊢ with hx
    · have hl' : ∀ c, l.Mem c → c ≠ r.walk x := fun c hc => hside hc (walk_mem x r)
      split at h <;> cases h
      · -- the right side was a single leaf
        rename_i hnone
        have hleaf : r.Mem b ↔ b = r.walk x := by
          rw [prune_eq_none hnone]; exact Iff.rfl
        have := hl' b
        rw [mem_node, hleaf]
        tauto
      · rename_i r' hr'
        rw [mem_node, ihr hr hr', mem_node]
        have := hl' b
        tauto
    · have hr' : ∀ c, r.Mem c → c ≠ l.walk x := fun c hc => (hside (walk_mem x l) hc).symm
      split at h <;> cases h
      · rename_i hnone
        have hleaf : l.Mem b ↔ b = l.walk x := by
          rw [prune_eq_none hnone]; exact Iff.rfl
        have := hr' b
        rw [mem_node, hleaf]
        tauto
      · rename_i l' hl'
        rw [mem_node, ihl hl hl', mem_node]
        have := hr' b
        tauto

theorem crit_prune {x : P → Bool} {t t' : Tree P α} (ht : t.Crit bit)
    (h : t.prune x = some t') : t'.Crit bit := by
  induction t generalizing t' with
  | leaf a => cases h
  | node p l r ihl ihr =>
    obtain ⟨hl, hr, h0, h1, hag⟩ := ht
    unfold prune at h
    split_ifs at h with hx
    · split at h <;> cases h
      · exact hl
      · rename_i r' hr'
        have hsub : ∀ a, r'.Mem a → r.Mem a := fun a ha => ((mem_prune hr hr').1 ha).1
        refine ⟨hl, ihr hr hr', h0, fun a ha => h1 a (hsub a ha), fun a b ha hb => ?_⟩
        exact hag a b (ha.imp_right (hsub a)) (hb.imp_right (hsub b))
    · split at h <;> cases h
      · exact hr
      · rename_i l' hl'
        have hsub : ∀ a, l'.Mem a → l.Mem a := fun a ha => ((mem_prune hl hl').1 ha).1
        refine ⟨ihl hl hl', hr, fun a ha => h0 a (hsub a ha), h1, fun a b ha hb => ?_⟩
        exact hag a b (ha.imp_left (hsub a)) (hb.imp_left (hsub b))

/-- The elements of the left side are those with the bit unset. -/
theorem mem_left_iff {p : P} {l r : Tree P α} (ht : (node p l r).Crit bit) {a : α} :
    l.Mem a ↔ (node p l r).Mem a ∧ bit a p = false := by
  obtain ⟨-, -, h0, h1, -⟩ := ht
  refine ⟨fun ha => ⟨Or.inl ha, h0 a ha⟩, ?_⟩
  rintro ⟨ha | ha, hbit⟩
  · exact ha
  · rw [h1 a ha] at hbit
    cases hbit

theorem mem_right_iff {p : P} {l r : Tree P α} (ht : (node p l r).Crit bit) {a : α} :
    r.Mem a ↔ (node p l r).Mem a ∧ bit a p = true := by
  obtain ⟨-, -, h0, h1, -⟩ := ht
  refine ⟨fun ha => ⟨Or.inr ha, h1 a ha⟩, ?_⟩
  rintro ⟨ha | ha, hbit⟩
  · rw [h0 a ha] at hbit
    cases hbit
  · exact ha

omit [LinearOrder P] in
theorem exists_mem (t : Tree P α) : ∃ a, t.Mem a := ⟨_, walk_mem (fun _ => false) t⟩

/-- The elements of a node differ at its position, so no position before the node of another tree
over the same elements can be its own. -/
theorem not_lt_of_mem_iff {p q : P} {l r l' r' : Tree P α} (ht : (node p l r).Crit bit)
    (ht' : (node q l' r').Crit bit) (h : ∀ a, (node p l r).Mem a ↔ (node q l' r').Mem a) :
    ¬ p < q := by
  intro hpq
  obtain ⟨a, ha⟩ := exists_mem l
  obtain ⟨b, hb⟩ := exists_mem r
  have hagree := ht'.2.2.2.2 a b ((h a).1 (Or.inl ha)) ((h b).1 (Or.inr hb)) p hpq
  rw [ht.2.2.1 a ha, ht.2.2.2.1 b hb] at hagree
  cases hagree

/-- A node splits its elements, so they cannot agree up to a position at or after its own. -/
theorem lt_of_agree {p q : P} {l r : Tree P α} (ht : (node q l r).Crit bit)
    (hag : ∀ a b, (node q l r).Mem a → (node q l r).Mem b → ∀ q' ≤ p, bit a q' = bit b q') :
    p < q := by
  by_contra hlt
  obtain ⟨a, ha⟩ := exists_mem l
  obtain ⟨b, hb⟩ := exists_mem r
  have hsame := hag a b (Or.inl ha) (Or.inr hb) q (not_lt.1 hlt)
  rw [ht.2.2.1 a ha, ht.2.2.2.1 b hb] at hsame
  cases hsame

/-- A node has two elements, so it is no leaf. -/
theorem not_mem_iff_leaf {p : P} {l r : Tree P α} (ht : (node p l r).Crit bit) (a : α) :
    ¬ ∀ b, (node p l r).Mem b ↔ (leaf a : Tree P α).Mem b := by
  intro h
  obtain ⟨b, hb⟩ := exists_mem l
  obtain ⟨c, hc⟩ := exists_mem r
  have hba : b = a := (h b).1 (Or.inl hb)
  have hca : c = a := (h c).1 (Or.inr hc)
  exact ne_of_sides ht hb hc (hba.trans hca.symm)

/-- **Canonical.** A tree is determined by its elements. -/
theorem eq_of_mem_iff {t t' : Tree P α} (ht : t.Crit bit) (ht' : t'.Crit bit)
    (h : ∀ a, t.Mem a ↔ t'.Mem a) : t = t' := by
  induction t generalizing t' with
  | leaf a =>
    cases t' with
    | leaf b => rw [(h a).1 rfl]
    | node q l' r' => exact absurd (fun b => (h b).symm) (not_mem_iff_leaf ht' a)
  | node p l r ihl ihr =>
    cases t' with
    | leaf b => exact absurd h (not_mem_iff_leaf ht b)
    | node q l' r' =>
      obtain rfl : p = q := le_antisymm (not_lt.1 (not_lt_of_mem_iff ht' ht fun a => (h a).symm))
        (not_lt.1 (not_lt_of_mem_iff ht ht' h))
      have hl : l = l' := ihl ht.1 ht'.1 fun a => by
        rw [mem_left_iff ht, mem_left_iff ht', h]
      have hr : r = r' := ihr ht.2.1 ht'.2.1 fun a => by
        rw [mem_right_iff ht, mem_right_iff ht', h]
      rw [hl, hr]

/-! ### Elements read through a map -/

section Map

variable {β : Type*} (f : α → β)

/-- The tree with `f a` in the place of `a`. -/
def map : Tree P α → Tree P β
  | leaf a => leaf (f a)
  | node p l r => node p l.map r.map

omit [LinearOrder P] in
theorem mem_map {t : Tree P α} {b : β} : (t.map f).Mem b ↔ ∃ a, t.Mem a ∧ f a = b := by
  induction t with
  | leaf a =>
    show b = f a ↔ _
    simp [eq_comm]
  | node p l r ihl ihr =>
    show (l.map f).Mem b ∨ (r.map f).Mem b ↔ _
    rw [ihl, ihr]
    simp only [mem_node, or_and_right, exists_or]

theorem crit_map {bit : β → P → Bool} {t : Tree P α} (ht : t.Crit fun a => bit (f a)) :
    (t.map f).Crit bit := by
  induction t with
  | leaf a => exact trivial
  | node p l r ihl ihr =>
    obtain ⟨hl, hr, h0, h1, hag⟩ := ht
    refine ⟨ihl hl, ihr hr, fun b hb => ?_, fun b hb => ?_, fun b c hb hc q hq => ?_⟩
    · obtain ⟨a, ha, rfl⟩ := (mem_map f).1 hb
      exact h0 a ha
    · obtain ⟨a, ha, rfl⟩ := (mem_map f).1 hb
      exact h1 a ha
    · obtain ⟨a, ha, rfl⟩ := (mem_map f (t := node p l r)).1 hb
      obtain ⟨d, hd, rfl⟩ := (mem_map f (t := node p l r)).1 hc
      exact hag a d ha hd q hq

end Map

end Tree

end BitTree
