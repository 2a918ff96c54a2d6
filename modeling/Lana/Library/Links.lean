import Mathlib.Data.List.Perm.Basic

/-!
# Intrusive lists

Cells that each have room for one pointer to another cell, and heads that lists of cells hang from.
`Chain m hb l` says that the pointer kept at `hb` leads through the cells of `l`; `Hung m ls` that
from every head `h` hang the cells `ls h`, each cell once.

Code that walks such a list with the place of the pointer in hand, and not with the pointer, needs
one store to take a cell in or out, wherever it stands (`Hung.insert`, `Hung.remove`).
-/

namespace Links

/-- Where a pointer is kept. -/
inductive Loc (η κ : Type*) where
  | head (h : η)
  | next (c : κ)
  deriving DecidableEq

/-- The pointers in memory, `none` for `NULL`. -/
abbrev Mem (η κ : Type*) := Loc η κ → Option κ

variable {η κ : Type*}

/-- The cells that the pointer at `hb` leads through. -/
def Chain (m : Mem η κ) : Loc η κ → List κ → Prop
  | hb, [] => m hb = none
  | hb, c :: l => m hb = some c ∧ Chain m (.next c) l

/-- The place of the pointer behind the cells `l`. -/
def behind : Loc η κ → List κ → Loc η κ
  | hb, [] => hb
  | _, c :: l => behind (.next c) l

theorem behind_eq_or_mem (hb : Loc η κ) (l : List κ) :
    behind hb l = hb ∨ ∃ c ∈ l, behind hb l = .next c := by
  induction l generalizing hb with
  | nil => exact .inl rfl
  | cons d l ih =>
    obtain h | ⟨c, hc, h⟩ := ih (.next d)
    · exact .inr ⟨d, List.mem_cons_self, h⟩
    · exact .inr ⟨c, List.mem_cons_of_mem d hc, h⟩

/-- A pointer outside a list is not the one behind some of its cells, except the first. -/
theorem ne_behind {hb loc : Loc η κ} {l : List κ} (h : loc ≠ hb) (hl : ∀ c ∈ l, loc ≠ .next c) :
    loc ≠ behind hb l := by
  obtain heq | ⟨c, hc, heq⟩ := behind_eq_or_mem hb l
  · rw [heq]
    exact h
  · rw [heq]
    exact hl c hc

/-- A chain is read off one pointer and the cells. -/
theorem Chain.congr {m m' : Mem η κ} {hb hb' : Loc η κ} {l : List κ} (h : Chain m hb l)
    (hhb : m' hb' = m hb) (hl : ∀ c ∈ l, m' (.next c) = m (.next c)) : Chain m' hb' l := by
  induction l generalizing hb hb' with
  | nil => exact hhb.trans h
  | cons c l ih =>
    refine ⟨hhb.trans h.1, ih h.2 (hl c List.mem_cons_self) fun d hd => ?_⟩
    exact hl d (List.mem_cons_of_mem c hd)

theorem Chain.behind {m : Mem η κ} {hb : Loc η κ} {l1 l2 : List κ} (h : Chain m hb (l1 ++ l2)) :
    Chain m (behind hb l1) l2 := by
  induction l1 generalizing hb with
  | nil => exact h
  | cons c l1 ih => exact ih h.2

theorem Chain.unique {m : Mem η κ} {hb : Loc η κ} {l l' : List κ} (h : Chain m hb l)
    (h' : Chain m hb l') : l = l' := by
  induction l generalizing hb l' with
  | nil =>
    rcases l' with _ | ⟨c, l'⟩
    · rfl
    · cases h.symm.trans h'.1
  | cons c l ih =>
    rcases l' with _ | ⟨d, l'⟩
    · cases h.1.symm.trans h'
    · obtain rfl := Option.some.inj (h.1.symm.trans h'.1)
      rw [ih h.2 h'.2]

/-! ## Walks -/

/-- `while (*hb && !stop(*hb)) hb = &(*hb)->next`, for at most `k` tests. -/
def walk (m : Mem η κ) (stop : κ → Bool) : ℕ → Loc η κ → Option (Loc η κ)
  | 0, _ => none
  | k + 1, hb =>
    match m hb with
    | none => some hb
    | some c => if stop c then some hb else walk m stop k (.next c)

/-- With more tests than cells the walk ends, behind the cells that do not stop it. -/
theorem walk_eq {m : Mem η κ} {hb : Loc η κ} {l : List κ} (h : Chain m hb l) (stop : κ → Bool)
    {k : ℕ} (hk : l.length < k) :
    walk m stop k hb = some (behind hb (l.takeWhile fun c => !stop c)) := by
  induction l generalizing hb k with
  | nil =>
    obtain ⟨k, rfl⟩ := Nat.exists_eq_succ_of_ne_zero (Nat.ne_zero_of_lt hk)
    have hnone : m hb = none := h
    simp only [walk, hnone]
    rfl
  | cons c l ih =>
    obtain ⟨k, rfl⟩ := Nat.exists_eq_succ_of_ne_zero (Nat.ne_zero_of_lt hk)
    simp only [walk, h.1]
    cases hs : stop c
    · rw [if_neg Bool.false_ne_true, ih h.2 (Nat.lt_of_succ_lt_succ hk)]
      rw [List.takeWhile_cons_of_pos (by rw [hs]; rfl)]
      rfl
    · rw [if_pos rfl, List.takeWhile_cons_of_neg (by rw [hs]; exact Bool.false_ne_true)]
      rfl

/-! ## Several lists -/

/-- From every head hangs its list, and no cell hangs twice. -/
structure Hung (m : Mem η κ) (ls : η → List κ) : Prop where
  chain : ∀ h, Chain m (.head h) (ls h)
  nodup : ∀ h, (ls h).Nodup
  apart : ∀ h h' c, c ∈ ls h → c ∈ ls h' → h = h'

theorem Hung.empty : Hung (fun _ => none : Mem η κ) fun _ => [] where
  chain := fun _ => rfl
  nodup := fun _ => List.nodup_nil
  apart := by
    intro h h' c hc
    cases hc

variable [DecidableEq η]

/-- Stores behind cells of one list leave the other lists alone. -/
theorem Hung.update {m m' : Mem η κ} {ls : η → List κ} (hm : Hung m ls) {h : η} {l : List κ}
    (hchain : Chain m' (.head h) l) (hl : l.Nodup)
    (hold : ∀ c ∈ l, ∀ h', h' ≠ h → c ∉ ls h')
    (hkeep : ∀ loc : Loc η κ, loc ≠ .head h → (∀ c ∈ l ++ ls h, loc ≠ .next c) → m' loc = m loc) :
    Hung m' (Function.update ls h l) where
  chain := by
    intro h'
    by_cases heq : h' = h
    · rw [heq, Function.update_self]
      exact hchain
    · rw [Function.update_of_ne heq]
      refine (hm.chain h').congr (hkeep _ (fun he => heq (Loc.head.inj he)) nofun) fun c hc => ?_
      refine hkeep _ nofun fun d hd he => ?_
      obtain rfl := Loc.next.inj he
      obtain hd | hd := List.mem_append.1 hd
      · exact hold c hd h' heq hc
      · exact heq (hm.apart h' h c hc hd)
  nodup := by
    intro h'
    by_cases heq : h' = h
    · rw [heq, Function.update_self]
      exact hl
    · rw [Function.update_of_ne heq]
      exact hm.nodup h'
  apart := by
    intro h1 h2 c h1c h2c
    rw [Function.update_apply] at h1c h2c
    split_ifs at h1c h2c with e1 e2 e2
    · exact e1.trans e2.symm
    · exact absurd h2c (hold c h1c h2 e2)
    · exact absurd h1c (hold c h2c h1 e1)
    · exact hm.apart h1 h2 c h1c h2c

/-! ## Stores -/

variable [DecidableEq κ]

/-- `c->next = *hb; *hb = c`. -/
def insert (m : Mem η κ) (hb : Loc η κ) (c : κ) : Mem η κ :=
  Function.update (Function.update m (.next c) (m hb)) hb (some c)

/-- `*hb = c->next`. -/
def remove (m : Mem η κ) (hb : Loc η κ) (c : κ) : Mem η κ :=
  Function.update m hb (m (.next c))

theorem insert_of_ne {m : Mem η κ} {hb loc : Loc η κ} {c : κ} (h : loc ≠ hb) (hc : loc ≠ .next c) :
    insert m hb c loc = m loc := by
  unfold insert
  rw [Function.update_of_ne h, Function.update_of_ne hc]

theorem remove_of_ne {m : Mem η κ} {hb loc : Loc η κ} {c : κ} (h : loc ≠ hb) :
    remove m hb c loc = m loc := Function.update_of_ne h ..

theorem Chain.insert {m : Mem η κ} {hb : Loc η κ} {l1 l2 : List κ} {c : κ}
    (h : Chain m hb (l1 ++ l2)) (hnodup : (c :: (l1 ++ l2)).Nodup)
    (hhb : ∀ d ∈ c :: (l1 ++ l2), hb ≠ .next d) :
    Chain (insert m (Links.behind hb l1) c) hb (l1 ++ c :: l2) := by
  induction l1 generalizing hb with
  | nil =>
    have hne : ∀ d ∈ l2, d ≠ c := fun d hd => ne_of_mem_of_not_mem hd (List.nodup_cons.1 hnodup).1
    refine ⟨Function.update_self .., Chain.congr h ?_ fun d hd => ?_⟩
    · show Links.insert m hb c (.next c) = m hb
      unfold Links.insert
      rw [Function.update_of_ne (hhb c List.mem_cons_self).symm, Function.update_self]
    · exact insert_of_ne (hhb d (List.mem_cons_of_mem c hd)).symm fun heq =>
        hne d hd (Loc.next.inj heq)
  | cons d l1 ih =>
    have hmem : ∀ e ∈ c :: (l1 ++ l2), e ∈ c :: (d :: l1 ++ l2) := by
      intro e he
      obtain rfl | he := List.mem_cons.1 he
      · exact List.mem_cons_self
      · exact List.mem_cons_of_mem c (List.mem_cons_of_mem d he)
    obtain ⟨hc, hrest⟩ := List.nodup_cons.1 hnodup
    obtain ⟨hd, hrest⟩ := List.nodup_cons.1 hrest
    have hcd : c ≠ d := fun heq => hc (heq ▸ List.mem_cons_self)
    have htail := ih h.2 (List.nodup_cons.2 ⟨fun hm => hc (List.mem_cons_of_mem d hm), hrest⟩)
      fun e he heq => by
        obtain rfl := Loc.next.inj heq
        obtain heq | he := List.mem_cons.1 he
        · exact hcd heq.symm
        · exact hd he
    refine ⟨?_, htail⟩
    have hne : hb ≠ Links.behind (Loc.next d) l1 := by
      refine ne_behind (hhb d (List.mem_cons_of_mem c List.mem_cons_self)) fun e he => ?_
      exact hhb e (hmem e (List.mem_cons_of_mem c (List.mem_append_left l2 he)))
    exact (insert_of_ne hne (hhb c List.mem_cons_self)).trans h.1

theorem Chain.remove {m : Mem η κ} {hb : Loc η κ} {l1 l2 : List κ} {c : κ}
    (h : Chain m hb (l1 ++ c :: l2)) (hnodup : (l1 ++ c :: l2).Nodup)
    (hhb : ∀ d ∈ l1 ++ c :: l2, hb ≠ .next d) :
    Chain (remove m (Links.behind hb l1) c) hb (l1 ++ l2) := by
  induction l1 generalizing hb with
  | nil =>
    refine Chain.congr h.2 (Function.update_self ..) fun d hd => ?_
    exact remove_of_ne (hhb d (List.mem_cons_of_mem c hd)).symm
  | cons d l1 ih =>
    obtain ⟨hd, hrest⟩ := List.nodup_cons.1 hnodup
    have htail := ih h.2 hrest fun e he heq => hd (Loc.next.inj heq ▸ he)
    refine ⟨?_, htail⟩
    have hne : hb ≠ Links.behind (Loc.next d) l1 := by
      refine ne_behind (hhb d List.mem_cons_self) fun e he => ?_
      exact hhb e (List.mem_cons_of_mem d (List.mem_append_left _ he))
    exact (remove_of_ne hne).trans h.1

theorem Hung.insert {m : Mem η κ} {ls : η → List κ} (hm : Hung m ls) {h : η} {l1 l2 : List κ}
    (hls : ls h = l1 ++ l2) {c : κ} (hc : ∀ h', c ∉ ls h') :
    Hung (insert m (behind (.head h) l1) c) (Function.update ls h (l1 ++ c :: l2)) := by
  have hchain := hm.chain h
  have hnodup := hm.nodup h
  have hch := hc h
  rw [hls] at hchain hnodup hch
  have hcons : (c :: (l1 ++ l2)).Nodup := List.nodup_cons.2 ⟨hch, hnodup⟩
  refine hm.update (hchain.insert hcons fun _ _ => nofun) (List.perm_middle.nodup_iff.2 hcons)
    (fun d hd h' hne hmem => ?_) fun loc hloc hcells => ?_
  · obtain rfl | hd := List.mem_cons.1 (List.perm_middle.mem_iff.1 hd)
    · exact hc h' hmem
    · exact hne (hm.apart h' h d hmem (hls ▸ hd))
  · refine insert_of_ne (ne_behind hloc fun d hd => ?_) (hcells c ?_)
    · exact hcells d (List.mem_append_left _ (List.mem_append_left _ hd))
    · exact List.mem_append_left _ (List.mem_append_right _ List.mem_cons_self)

theorem Hung.remove {m : Mem η κ} {ls : η → List κ} (hm : Hung m ls) {h : η} {l1 l2 : List κ}
    {c : κ} (hls : ls h = l1 ++ c :: l2) :
    Hung (remove m (behind (.head h) l1) c) (Function.update ls h (l1 ++ l2)) := by
  have hchain := hm.chain h
  have hnodup := hm.nodup h
  rw [hls] at hchain hnodup
  have hsub : (l1 ++ l2).Sublist (l1 ++ c :: l2) := (List.sublist_cons_self c l2).append_left l1
  refine hm.update (hchain.remove hnodup fun _ _ => nofun) (hnodup.sublist hsub)
    (fun d hd h' hne hmem => ?_) fun loc hloc hcells => ?_
  · exact hne (hm.apart h' h d hmem (hls ▸ hsub.subset hd))
  · refine remove_of_ne (ne_behind hloc fun d hd => ?_)
    exact hcells d (List.mem_append_left _ (List.mem_append_left _ hd))

end Links
