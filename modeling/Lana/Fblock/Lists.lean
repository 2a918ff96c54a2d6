import Lana.Fblock.Frame

/-!
# Notifier lists

What the insertion and the removal of a node do to `fb->notifiers`, seen through the remote blocks
of its nodes (`Lists.remotes`).
-/

namespace Lana

/-- The idps of the blocks that `a` is subscribed to. -/
def Lists.remotes (l : Lists) (a : Addr) : Multiset Idp := (l.notifiers a).map l.remote

theorem Lists.remote_mem {l : Lists} {a : Addr} {n : NodeAddr} (h : n ∈ l.notifiers a) :
    l.remote n ∈ l.remotes a :=
  Multiset.mem_coe.2 (List.mem_map_of_mem h)

theorem find_erase_map {β γ : Type*} [DecidableEq β] [DecidableEq γ] (f : β → γ) (i : γ) :
    ∀ {l : List β} {x : β}, l.find? (fun y => f y = i) = some x →
      (l.erase x).map f = (l.map f).erase i := by
  intro l
  induction l with
  | nil => exact fun h => by cases h
  | cons y l ih =>
    intro x h
    by_cases hy : f y = i
    · rw [List.find?_cons_of_pos (by simpa using hy)] at h
      obtain rfl := Option.some.inj h
      rw [List.erase_cons_head, List.map_cons, hy, List.erase_cons_head]
    · rw [List.find?_cons_of_neg (by simpa using hy)] at h
      have hxy : y ≠ x := by
        rintro rfl
        exact hy (by simpa using List.find?_some h)
      rw [List.erase_cons_tail (by simpa using hxy), List.map_cons, ih h, List.map_cons,
        List.erase_cons_tail (by simpa using hy)]

/-- Whichever case of the removal applies, one node for the remote goes. -/
theorem Lists.remotes_unlink (l : Lists) (i : Idp) (us remote : Addr) :
    (l.unlink i us remote).remotes us = (l.remotes us).erase i := by
  unfold remotes
  rw [Multiset.coe_erase, Multiset.coe_eq_coe]
  refine List.Perm.of_eq ?_
  unfold unlink
  rcases hl : l.notifiers us with _ | ⟨fn, rest⟩
  · simp only [hl, List.map_nil, List.erase_nil]
  · simp only
    by_cases hfn : l.remote fn = i
    · rw [if_pos hfn, List.map_cons, hfn, List.erase_cons_head]
      simp only [Function.update_self]
    · rw [if_neg hfn, List.map_cons, List.erase_cons_tail (by simpa using hfn)]
      rcases hf : rest.find? (fun f1 => l.remote f1 = i) with _ | f1
      · have : i ∉ rest.map l.remote := by
          intro hi
          obtain ⟨x, hx, rfl⟩ := List.mem_map.1 hi
          simpa using List.find?_eq_none.1 hf x hx
        simp only [hl, List.map_cons, List.erase_of_not_mem this]
      · simp only [Function.update_self, List.map_cons, find_erase_map l.remote i hf]

theorem Lists.unlink_other (l : Lists) (i : Idp) {us a : Addr} (remote : Addr) (h : a ≠ us) :
    (l.unlink i us remote).notifiers a = l.notifiers a := by
  unfold unlink
  split
  · rfl
  · split_ifs
    · exact Function.update_of_ne h ..
    · split
      · rfl
      · exact Function.update_of_ne h ..

theorem Lists.unlink_nodes (l : Lists) (i : Idp) (us remote : Addr) :
    (l.unlink i us remote).remote = l.remote ∧ (l.unlink i us remote).self = l.self ∧
      (l.unlink i us remote).nextNode = l.nextNode := by
  unfold unlink
  split
  · exact ⟨rfl, rfl, rfl⟩
  · split_ifs
    · exact ⟨rfl, rfl, rfl⟩
    · split <;> exact ⟨rfl, rfl, rfl⟩

theorem Lists.remotes_unlink_other (l : Lists) (i : Idp) {us a : Addr} (remote : Addr)
    (h : a ≠ us) : (l.unlink i us remote).remotes a = l.remotes a := by
  unfold remotes
  rw [unlink_other l i remote h, (l.unlink_nodes i us remote).1]

/-- The removal takes nodes away only. -/
theorem Lists.unlink_subset (l : Lists) (i : Idp) (us remote a : Addr) :
    (l.unlink i us remote).notifiers a ⊆ l.notifiers a := by
  by_cases ha : a = us
  · subst ha
    unfold unlink
    rcases hl : l.notifiers a with _ | ⟨fn, rest⟩
    · simp [hl]
    · simp only
      split_ifs
      · simp
      · split
        · simp [hl]
        · simp only [Function.update_self]
          exact List.cons_subset_cons _ (List.erase_subset ..)
  · rw [unlink_other l i remote ha]
    exact List.Subset.refl _

/-- All nodes in use have been allocated. -/
def Lists.Allocated (l : Lists) : Prop := ∀ a, ∀ n ∈ l.notifiers a, n < l.nextNode

theorem Lists.remotes_link {l : Lists} (h : l.Allocated) (i : Idp) (us remote a : Addr) :
    (l.link i us remote).remotes a = if a = us then i ::ₘ l.remotes a else l.remotes a := by
  have hold : ∀ b, (l.notifiers b).map (Function.update l.remote l.nextNode i) =
      (l.notifiers b).map l.remote := by
    intro b
    refine List.map_congr_left fun n hn => Function.update_of_ne ?_ ..
    exact ne_of_lt (h b n hn)
  unfold remotes
  show (((Function.update l.notifiers us (l.nextNode :: l.notifiers us) a).map
    (Function.update l.remote l.nextNode i) : List Idp) : Multiset Idp) = _
  split_ifs with ha
  · subst ha
    rw [Function.update_self, List.map_cons, Function.update_self, hold]
    rfl
  · rw [Function.update_of_ne ha, hold]

theorem Lists.link_other (l : Lists) (i : Idp) {us a : Addr} (remote : Addr) (h : a ≠ us) :
    (l.link i us remote).notifiers a = l.notifiers a :=
  Function.update_of_ne h ..

theorem Lists.Allocated.link {l : Lists} (h : l.Allocated) (i : Idp) (us remote : Addr) :
    (l.link i us remote).Allocated := by
  intro a n hn
  show n < l.nextNode + 1
  have hn' : n ∈ Function.update l.notifiers us (l.nextNode :: l.notifiers us) a := hn
  rw [Function.update_apply] at hn'
  split_ifs at hn'
  · rcases List.mem_cons.1 hn' with rfl | hn'
    · exact Nat.lt_succ_self _
    · exact Nat.lt_succ_of_lt (h us n hn')
  · exact Nat.lt_succ_of_lt (h a n hn')

theorem Lists.Allocated.unlink {l : Lists} (h : l.Allocated) (i : Idp) (us remote : Addr) :
    (l.unlink i us remote).Allocated := by
  intro a n hn
  rw [(l.unlink_nodes i us remote).2.2]
  exact h a n (l.unlink_subset i us remote a hn)

end Lana
