import Lana.Library.Transition
import Mathlib.Algebra.BigOperators.Group.Finset.Basic
import Mathlib.Algebra.Order.BigOperators.Group.Finset
import Mathlib.Logic.Relation

/-!
# Two threads on a shared state

A thread is a step function on the shared state and a program counter of its own; one step is
atomic.  A schedule names the thread that moves next, so the runs over all schedules are the
interleavings of the two.  `Reaches` is the run of one thread without interference; `Excluded` is
what spin locks give.
-/

namespace Interleave

/-- Whose turn it is. -/
inductive Thread where
  | first
  | second
  deriving DecidableEq, Repr

/-- The shared state and the two program counters. -/
structure Config (σ π ρ : Type*) where
  shared : σ
  first : π
  second : ρ

variable {σ π ρ : Type*} (f : σ → π → σ × π) (g : σ → ρ → σ × ρ)

/-- The thread whose turn it is takes one step. -/
def step (c : Config σ π ρ) : Thread → Config σ π ρ
  | .first => ⟨(f c.shared c.first).1, (f c.shared c.first).2, c.second⟩
  | .second => ⟨(g c.shared c.second).1, c.first, (g c.shared c.second).2⟩

/-- The configuration after a schedule. -/
def run (c : Config σ π ρ) (sched : List Thread) : Config σ π ρ := sched.foldl (step f g) c

theorem run_append (c : Config σ π ρ) (as bs : List Thread) :
    run f g c (as ++ bs) = run f g (run f g c as) bs := List.foldl_append ..

/-- One thread alone gets from one state and program counter to another. -/
def Reaches : σ × π → σ × π → Prop := Relation.ReflTransGen fun a b => f a.1 a.2 = b

variable {f g}

theorem Reaches.refl (a : σ × π) : Reaches f a a := Relation.ReflTransGen.refl

/-- A first step, and the way on from there. -/
theorem Reaches.head {s : σ} {p : π} {b c : σ × π} (h : f s p = b) (h' : Reaches f b c) :
    Reaches f (s, p) c := Relation.ReflTransGen.head h h'

/-- What the first thread does alone, it does while the second one waits. -/
theorem Reaches.run_first {a b : σ × π} (h : Reaches f a b) (q : ρ) :
    ∃ sched, run f g ⟨a.1, a.2, q⟩ sched = ⟨b.1, b.2, q⟩ := by
  induction h with
  | refl => exact ⟨[], rfl⟩
  | tail _ hstep ih =>
    obtain ⟨sched, hsched⟩ := ih
    refine ⟨sched ++ [.first], ?_⟩
    rw [run_append, hsched, ← hstep]
    rfl

theorem Reaches.run_second {a b : σ × ρ} (h : Reaches g a b) (p : π) :
    ∃ sched, run f g ⟨a.1, p, a.2⟩ sched = ⟨b.1, p, b.2⟩ := by
  induction h with
  | refl => exact ⟨[], rfl⟩
  | tail _ hstep ih =>
    obtain ⟨sched, hsched⟩ := ih
    refine ⟨sched ++ [.second], ?_⟩
    rw [run_append, hsched, ← hstep]
    rfl

/-- One thread after the other is an interleaving, in either order. -/
theorem run_first_second {s t u : σ} {p p' : π} {q q' : ρ} (hf : Reaches f (s, p) (t, p'))
    (hg : Reaches g (t, q) (u, q')) : ∃ sched, run f g ⟨s, p, q⟩ sched = ⟨u, p', q'⟩ := by
  obtain ⟨as, has⟩ := Reaches.run_first hf q
  obtain ⟨bs, hbs⟩ := Reaches.run_second hg p'
  exact ⟨as ++ bs, by rw [run_append, has, hbs]⟩

theorem run_second_first {s t u : σ} {p p' : π} {q q' : ρ} (hg : Reaches g (s, q) (t, q'))
    (hf : Reaches f (t, p) (u, p')) : ∃ sched, run f g ⟨s, p, q⟩ sched = ⟨u, p', q'⟩ := by
  obtain ⟨as, has⟩ := Reaches.run_second hg p
  obtain ⟨bs, hbs⟩ := Reaches.run_first hf q'
  exact ⟨as ++ bs, by rw [run_append, has, hbs]⟩

/-! ## Locks

Spin locks indexed by `κ`, and threads that hold at most one of them at a time. -/

section Locks

variable {κ : Type*} [DecidableEq κ]

/-- What a step of a thread does to the locks and to the lock it holds. -/
inductive LockMove (locked : κ → Bool) (holding : Option κ) : (κ → Bool) → Option κ → Prop
  | keep : LockMove locked holding locked holding
  | acquire {k : κ} (hfree : locked k = false) (hnone : holding = none) :
      LockMove locked holding (Function.update locked k true) (some k)
  | release {k : κ} (hk : holding = some k) :
      LockMove locked holding (Function.update locked k false) none

/-- A lock is taken while one of the two threads holds it, and they do not hold the same one. -/
structure Excluded (locked : κ → Bool) (h h' : Option κ) : Prop where
  taken : ∀ k, locked k = true ↔ h = some k ∨ h' = some k
  apart : ∀ k, h = some k → h' ≠ some k

variable {locked locked' : κ → Bool} {h h' hn : Option κ}

omit [DecidableEq κ] in
theorem Excluded.symm (he : Excluded locked h h') : Excluded locked h' h :=
  ⟨fun k => (he.taken k).trans or_comm, fun k hk hk' => he.apart k hk' hk⟩

theorem Excluded.move (he : Excluded locked h h') (hm : LockMove locked h locked' hn) :
    Excluded locked' hn h' := by
  cases hm with
  | keep => exact he
  | @acquire k hfree hnone =>
    have hother : h' ≠ some k := fun hk => by
      have := (he.taken k).2 (.inr hk)
      rw [hfree] at this
      cases this
    refine ⟨fun j => ?_, fun j hj => ?_⟩
    · by_cases hj : j = k
      · subst hj
        simp
      · rw [Function.update_of_ne hj, he.taken j, hnone]
        simp [Ne.symm hj]
    · rwa [← hj]
  | @release k hk =>
    have hother := he.apart k hk
    refine ⟨fun j => ?_, fun j hj => by cases hj⟩
    by_cases hj : j = k
    · subst hj
      simp [hother]
    · rw [Function.update_of_ne hj, he.taken j, hk]
      simp [Ne.symm hj]

end Locks

/-! ## Shares

Any number of threads, each with a share that its program counter decides. -/

section Shares

variable {ι τ : Type*} [Fintype ι] (share : τ → ℕ) (pc : ι → τ)

/-- What the threads hold together. -/
def shares : ℕ := ∑ i, share (pc i)

theorem share_le (i : ι) : share (pc i) ≤ shares share pc :=
  Finset.single_le_sum (f := fun i => share (pc i)) (fun _ _ => Nat.zero_le _) (Finset.mem_univ i)

variable [DecidableEq ι]

/-- One thread moves. -/
theorem shares_update (i : ι) (p : τ) :
    shares share (Function.update pc i p) + share (pc i) = shares share pc + share p := by
  unfold shares
  have hold := Finset.add_sum_erase Finset.univ (fun j => share (pc j)) (Finset.mem_univ i)
  have hnew := Finset.add_sum_erase Finset.univ (fun j => share (Function.update pc i p j))
    (Finset.mem_univ i)
  have hrest : ∑ j ∈ Finset.univ.erase i, share (Function.update pc i p j) =
      ∑ j ∈ Finset.univ.erase i, share (pc j) :=
    Finset.sum_congr rfl fun j hj => by rw [Function.update_of_ne (Finset.ne_of_mem_erase hj)]
  rw [Function.update_self, hrest] at hnew
  omega

theorem share_add_le {i j : ι} (h : i ≠ j) :
    share (pc i) + share (pc j) ≤ shares share pc := by
  rw [← Finset.sum_pair (f := fun i => share (pc i)) h]
  exact Finset.sum_le_sum_of_subset (Finset.subset_univ _)

end Shares

end Interleave
