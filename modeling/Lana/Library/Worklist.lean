import Mathlib.Data.Fintype.EquivFin
import Mathlib.Logic.Hydra
import Mathlib.Order.Preorder.Finite
import Mathlib.Tactic.Abel

/-!
# Draining a queue

An item that is worked on goes on as another item or ends (`next`), and leaves items behind at the
end of the queue (`spawn`).  `Drained q ls`: from the queue `q` the work ends, and `ls` are the
items worked on, in order.

The items worked on are those reachable from the queue (`Drained.mem_iff`), and the work ends when
and only when no item of the queue starts an infinite descent (`exists_drained_iff`).  Over a finite
graph this means that no cycle can be reached (`acc_iff_acyclic`).
-/

namespace Worklist

open Relation

variable {π : Type*} {next : π → Option π} {spawn : π → List π} {q ls : List π} {p x : π}

variable (next spawn) in
/-- `p` goes on as `p'`, or leaves `p'` behind. -/
def Succ (p p' : π) : Prop := next p = some p' ∨ p' ∈ spawn p

variable (next spawn) in
/-- From the queue `q` the work ends, and `ls` are the items worked on. -/
inductive Drained : List π → List π → Prop
  | nil : Drained [] []
  | cons {p : π} {q ls : List π} (h : Drained ((next p).toList ++ (q ++ spawn p)) ls) :
      Drained (p :: q) (p :: ls)

/-- The queue after `p`. -/
theorem mem_after : x ∈ (next p).toList ++ (q ++ spawn p) ↔ Succ next spawn p x ∨ x ∈ q := by
  unfold Succ
  rw [List.mem_append, List.mem_append, Option.mem_toList]
  tauto

/-- The items worked on are those reachable from the queue. -/
theorem Drained.mem_iff (h : Drained next spawn q ls) (x : π) :
    x ∈ ls ↔ ∃ p ∈ q, ReflTransGen (Succ next spawn) p x := by
  induction h with
  | nil => simp
  | @cons p q ls _ ih =>
    rw [List.mem_cons, ih]
    constructor
    · rintro (rfl | ⟨p', hp', hx⟩)
      · exact ⟨x, List.mem_cons_self, .refl⟩
      · rcases mem_after.1 hp' with hs | hq
        · exact ⟨p, List.mem_cons_self, .head hs hx⟩
        · exact ⟨p', List.mem_cons_of_mem p hq, hx⟩
    · rintro ⟨p', hp', hx⟩
      rcases List.mem_cons.1 hp' with rfl | hq
      · rcases ReflTransGen.cases_head hx with rfl | ⟨y, hs, hy⟩
        · exact .inl rfl
        · exact .inr ⟨y, mem_after.2 (.inl hs), hy⟩
      · exact .inr ⟨p', mem_after.2 (.inr hq), hx⟩

/-! ## Whether the work ends -/

variable (next spawn) in
/-- No infinite descent starts at the item. -/
abbrev Ends : π → Prop := Acc fun b a => Succ next spawn a b

theorem Drained.ends (h : Drained next spawn q ls) : ∀ p ∈ q, Ends next spawn p := by
  induction h with
  | nil => exact fun p hp => absurd hp List.not_mem_nil
  | @cons p q ls _ ih =>
    intro p' hp'
    rcases List.mem_cons.1 hp' with rfl | hq
    · exact Acc.intro _ fun y hy => ih y (mem_after.2 (.inl hy))
    · exact ih p' (mem_after.2 (.inr hq))

theorem not_self_of_acc {α : Type*} {r : α → α → Prop} {a : α} (h : Acc r a) : ¬r a a := by
  induction h with
  | intro a _ ih => exact fun haa => ih a haa haa

variable (next spawn) in
/-- `b` comes after `a`, and the work from `a` on ends. -/
def Below (b a : π) : Prop := Succ next spawn a b ∧ Ends next spawn a

instance : Std.Irrefl (Below next spawn) where
  irrefl _ h := not_self_of_acc h.2 h.1

/-- A queue of items whose work ends loses an item and gains finitely many below it. -/
theorem cutExpand_after (hp : Ends next spawn p) :
    CutExpand (Below next spawn) ((next p).toList ++ (q ++ spawn p) : List π)
      ((p :: q : List π) : Multiset π) := by
  refine ⟨((next p).toList ++ spawn p : List π), p, fun b hb => ⟨?_, hp⟩, ?_⟩
  · rw [Multiset.mem_coe, List.mem_append, Option.mem_toList] at hb
    exact hb
  · simp only [← Multiset.coe_add, ← Multiset.cons_coe, ← Multiset.singleton_add]
    abel

/-- The work ends when and only when no item of the queue starts an infinite descent. -/
theorem exists_drained_iff :
    (∃ ls, Drained next spawn q ls) ↔ ∀ p ∈ q, Ends next spawn p := by
  refine ⟨fun ⟨ls, h⟩ => h.ends, fun h => ?_⟩
  have hacc : Acc (CutExpand (Below next spawn)) (q : Multiset π) := by
    refine acc_of_singleton fun a ha => Acc.cutExpand ?_
    exact Subrelation.accessible (fun hb => hb.1) (h a ha)
  -- the induction is on the queue as a multiset, whose order is that of the hydra
  generalize hm : (q : Multiset π) = m at hacc
  induction hacc generalizing q with
  | intro m _ ih =>
    subst hm
    rcases q with _ | ⟨p, q⟩
    · exact ⟨[], .nil⟩
    have hp := h p List.mem_cons_self
    obtain ⟨ls, hls⟩ := ih _ (cutExpand_after hp)
      (fun x hx => by
        rcases mem_after.1 hx with hs | hq
        · exact hp.inv hs
        · exact h x (List.mem_cons_of_mem p hq)) rfl
    exact ⟨p :: ls, .cons hls⟩

/-! ## The order of the work

The items left behind wait at the end of the queue.  Worked on at once, depth first, they are the
same ones (`Drained.perm`). -/

variable (next spawn) in
/-- The items of `q` one after the other, each with all that comes from it; `ls` are the items worked
on. -/
inductive Walked : List π → List π → Prop
  | nil : Walked [] []
  | cons {p : π} {q as bs : List π} (h : Walked ((next p).toList ++ spawn p) as) (hq : Walked q bs) :
      Walked (p :: q) (p :: as ++ bs)

theorem Walked.append {as bs : List π} (h : Walked next spawn q as) {q' : List π}
    (h' : Walked next spawn q' bs) : Walked next spawn (q ++ q') (as ++ bs) := by
  induction h with
  | nil => exact h'
  | @cons p q cs ds hp hq _ ih =>
    rw [List.cons_append, List.append_assoc]
    exact .cons hp ih

theorem Walked.of_append : ∀ {q q' ls : List π}, Walked next spawn (q ++ q') ls →
    ∃ as bs, Walked next spawn q as ∧ Walked next spawn q' bs ∧ ls = as ++ bs
  | [], _, ls, h => ⟨[], ls, .nil, h, rfl⟩
  | p :: q, q', _, @Walked.cons _ _ _ _ _ cs _ hp hq => by
    obtain ⟨as, bs, has, hbs, rfl⟩ := hq.of_append
    exact ⟨p :: cs ++ as, bs, .cons hp has, hbs, by rw [List.append_assoc]⟩

theorem Drained.perm (h : Drained next spawn q ls) : ∀ {ls' : List π},
    Walked next spawn q ls' → ls.Perm ls' := by
  induction h with
  | nil =>
    rintro _ ⟨⟩
    exact .refl _
  | @cons p q ls _ ih =>
    rintro _ (_ | ⟨hp, hq⟩)
    obtain ⟨as, bs, has, hbs, rfl⟩ := hp.of_append
    rename_i cs
    have hperm : ls.Perm (as ++ (cs ++ bs)) := ih (has.append (hq.append hbs))
    have hswap : (as ++ (cs ++ bs)).Perm (as ++ bs ++ cs) := by
      rw [List.append_assoc]
      exact List.Perm.append_left as List.perm_append_comm
    exact (hperm.trans hswap).cons p

theorem walked_of_forall : ∀ {q : List π},
    (∀ p ∈ q, ∃ ls, Walked next spawn ((next p).toList ++ spawn p) ls) →
      ∃ ls, Walked next spawn q ls
  | [], _ => ⟨[], .nil⟩
  | p :: q, h => by
    obtain ⟨as, has⟩ := h p List.mem_cons_self
    obtain ⟨bs, hbs⟩ := walked_of_forall fun x hx => h x (List.mem_cons_of_mem p hx)
    exact ⟨p :: as ++ bs, .cons has hbs⟩

/-- Whatever can be worked on to the end can be worked on depth first. -/
theorem exists_walked (h : ∀ p ∈ q, Ends next spawn p) : ∃ ls, Walked next spawn q ls := by
  refine walked_of_forall fun p hp => ?_
  have hends := h p hp
  clear hp
  induction hends with
  | intro p _ ih =>
    refine walked_of_forall fun x hx => ih x ?_
    rwa [List.mem_append, Option.mem_toList] at hx

/-! ## Finite graphs -/

section Graph

variable {ι : Type*} {r : ι → ι → Prop} {i : ι}

/-- Over a finite type, `r` descends from `i` without end when and only when it runs into a
cycle. -/
theorem acc_iff_acyclic [Finite ι] :
    Acc (fun b a => r a b) i ↔ ∀ j, ReflTransGen r i j → ¬TransGen r j j := by
  constructor
  · intro h j hij hcyc
    have hj : Acc (fun b a => r a b) j := by
      clear hcyc
      induction hij with
      | refl => exact h
      | tail _ hbc ih => exact ih.inv hbc
    exact not_self_of_acc hj.transGen (transGen_swap.2 hcyc)
  · intro h
    let s : ι → ι → Prop := fun b a => TransGen r a b ∧ ReflTransGen r i a
    have : IsTrans ι s := ⟨fun _ _ _ hab hbc => ⟨hbc.1.trans hab.1, hbc.2⟩⟩
    have : Std.Irrefl s := ⟨fun a ha => h a ha.2 ha.1⟩
    have hwf : WellFounded s := Finite.wellFounded_of_trans_of_irrefl s
    -- on the points reachable from `i` the relations agree
    have hacc : ∀ a, ReflTransGen r i a → Acc (fun b a => r a b) a := by
      intro a
      induction a using hwf.induction with
      | _ a ih =>
        intro ha
        exact Acc.intro a fun b hab => ih b ⟨.single hab, ha⟩ (ha.tail hab)
    exact hacc i .refl

end Graph

end Worklist
