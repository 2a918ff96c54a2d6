import Lana.Library.Transition
import Mathlib.Data.Set.Finite.Basic
import Mathlib.Data.Set.Card
import Mathlib.Tactic

/-!
# Boards

A board has components, each with a name and a kind, and connections between them; a component has
at most one connection out of it and at most one into it.  Components are placed and dropped, pairs
are joined and parted, and one component may take the place of another.  An operation that cannot
be done is answered with its fault and changes nothing.

Every board can be taken apart: connections are parted, then components are dropped, and nothing is
refused on the way (`Board.dismantle`).
-/

/-- Named components of kinds `τ` and the connections out of them. -/
@[ext]
structure Board (κ τ : Type*) where
  kind : κ → Option τ
  next : κ → Option κ
  inj : ∀ {n n' m}, next n = some m → next n' = some m → n = n'
  ends : ∀ {n m}, next n = some m → kind n ≠ none ∧ kind m ≠ none
  finite : {n | kind n ≠ none}.Finite

namespace Board

variable {κ τ : Type*}

/-- Why an operation is refused. -/
inductive Fault where
  /-- There is a component of that name. -/
  | taken
  /-- There is no such kind. -/
  | unfit
  /-- There is no component of that name. -/
  | unknown
  /-- A connection is in the way, or there is none to part. -/
  | busy
  deriving DecidableEq

inductive Op (κ τ : Type*) where
  | place (n : κ) (t : Option τ)
  | drop (n : κ)
  | join (n m : κ)
  | part (n m : κ)
  /-- The component `m` takes the place of `n`. -/
  | relieve (n m : κ)

/-- The board without components. -/
def empty : Board κ τ where
  kind := fun _ => none
  next := fun _ => none
  inj := fun h => by cases h
  ends := fun h => by cases h
  finite := by simp

/-- No connection leads into `n`. -/
def Unfed (b : Board κ τ) (n : κ) : Prop := ∀ k, b.next k ≠ some n

/-- The component has no connections. -/
def Idle (b : Board κ τ) (n : κ) : Prop := b.next n = none ∧ b.Unfed n

theorem Idle.ne {b : Board κ τ} {n k m : κ} (h : b.Idle n) (hk : b.next k = some m) :
    k ≠ n ∧ m ≠ n := by
  constructor
  · rintro rfl
    rw [h.1] at hk
    cases hk
  · rintro rfl
    exact h.2 k hk

/-- A connection has a component at both ends. -/
theorem idle_of_absent {b : Board κ τ} {n : κ} (h : b.kind n = none) : b.Idle n := by
  refine ⟨Option.eq_none_iff_forall_ne_some.2 fun m hm => ?_, fun k hk => ?_⟩
  · exact (b.ends hm).1 h
  · exact (b.ends hk).2 h

section Ops

variable [DecidableEq κ] (b : Board κ τ)

/-- A component of kind `t` under the name `n`. -/
def place (n : κ) (t : τ) : Board κ τ where
  kind := Function.update b.kind n (some t)
  next := b.next
  inj := b.inj
  ends := by
    intro k m h
    have hne : ∀ x, b.kind x ≠ none → Function.update b.kind n (some t) x ≠ none := by
      intro x hx
      rw [Function.update_apply]
      split_ifs
      · exact Option.some_ne_none t
      · exact hx
    exact ⟨hne k (b.ends h).1, hne m (b.ends h).2⟩
  finite := by
    refine (b.finite.insert n).subset fun x hx => ?_
    by_cases hxn : x = n
    · exact .inl hxn
    · exact .inr (by simpa [Function.update_of_ne hxn] using hx)

/-- The component without connections leaves the board. -/
def drop (n : κ) (h : b.Idle n) : Board κ τ where
  kind := Function.update b.kind n none
  next := b.next
  inj := b.inj
  ends := by
    intro k m hk
    rw [Function.update_of_ne (h.ne hk).1, Function.update_of_ne (h.ne hk).2]
    exact b.ends hk
  finite := by
    refine b.finite.subset fun x hx hnone => hx ?_
    rw [Function.update_apply]
    split_ifs
    · rfl
    · exact hnone

/-- A connection from `n` to `m`. -/
def join (n m : κ) (hn : b.kind n ≠ none) (hm : b.kind m ≠ none) (hfree : b.Unfed m) :
    Board κ τ where
  kind := b.kind
  next := Function.update b.next n (some m)
  inj := by
    intro x y k hx hy
    rw [Function.update_apply] at hx hy
    split_ifs at hx hy with hxn hyn hyn
    · rw [hxn, hyn]
    · exact absurd (hy.trans hx.symm) (hfree y)
    · exact absurd (hx.trans hy.symm) (hfree x)
    · exact b.inj hx hy
  ends := by
    intro x k hx
    rw [Function.update_apply] at hx
    split_ifs at hx with hxn
    · obtain rfl := Option.some.inj hx
      rw [hxn]
      exact ⟨hn, hm⟩
    · exact b.ends hx
  finite := b.finite

/-- The connection out of `n` is taken away. -/
def part (n : κ) : Board κ τ where
  kind := b.kind
  next := Function.update b.next n none
  inj := by
    intro x y k hx hy
    rw [Function.update_apply] at hx hy
    split_ifs at hx hy
    exact b.inj hx hy
  ends := by
    intro x k hx
    rw [Function.update_apply] at hx
    split_ifs at hx
    exact b.ends hx
  finite := b.finite

open Classical in
/-- An operation, with its answer: `none` when it is done. -/
noncomputable def exec : Op κ τ → Option Fault × Board κ τ
  | .place n t =>
    if b.kind n ≠ none then (some .taken, b)
    else t.elim (some .unfit, b) fun t => (none, b.place n t)
  | .drop n =>
    if b.kind n = none then (some .unknown, b)
    else if h : b.Idle n then (none, b.drop n h) else (some .busy, b)
  | .join n m =>
    if h : b.kind n ≠ none ∧ b.kind m ≠ none then
      if hfree : b.next n = none ∧ b.Unfed m then (none, b.join n m h.1 h.2 hfree.2)
      else (some .busy, b)
    else (some .unknown, b)
  | .part n m =>
    if b.kind n = none ∨ b.kind m = none then (some .unknown, b)
    else if b.next n = some m then (none, b.part n) else (some .busy, b)
  | .relieve n m =>
    if b.kind n = none ∨ b.kind m = none then (some .unknown, b)
    else if h : n ≠ m ∧ b.Idle m then (none, b.drop m h.2) else (some .busy, b)

end Ops

section Exec

variable [DecidableEq κ] {b : Board κ τ} {n m : κ}

theorem exec_place_taken (h : b.kind n ≠ none) (t : Option τ) :
    b.exec (.place n t) = (some .taken, b) := if_pos h

theorem exec_place_unfit (h : b.kind n = none) : b.exec (.place n none) = (some .unfit, b) :=
  if_neg (not_not.2 h)

theorem exec_place (h : b.kind n = none) (t : τ) :
    b.exec (.place n (some t)) = (none, b.place n t) := if_neg (not_not.2 h)

theorem exec_drop_unknown (h : b.kind n = none) : b.exec (.drop n) = (some .unknown, b) := if_pos h

theorem exec_drop_busy (h : b.kind n ≠ none) (hi : ¬ b.Idle n) :
    b.exec (.drop n) = (some .busy, b) := by
  rw [exec, if_neg h, dif_neg hi]

theorem exec_drop (h : b.kind n ≠ none) (hi : b.Idle n) :
    b.exec (.drop n) = (none, b.drop n hi) := by
  rw [exec, if_neg h, dif_pos hi]

theorem exec_join_unknown (h : b.kind n = none ∨ b.kind m = none) :
    b.exec (.join n m) = (some .unknown, b) := by
  rw [exec, dif_neg fun h' => h.elim h'.1 h'.2]

theorem exec_join_busy (hn : b.kind n ≠ none) (hm : b.kind m ≠ none)
    (hbusy : ¬ (b.next n = none ∧ b.Unfed m)) : b.exec (.join n m) = (some .busy, b) := by
  rw [exec, dif_pos ⟨hn, hm⟩, dif_neg hbusy]

theorem exec_join (hn : b.kind n ≠ none) (hm : b.kind m ≠ none) (hfree : b.next n = none)
    (hfed : b.Unfed m) : b.exec (.join n m) = (none, b.join n m hn hm hfed) := by
  rw [exec, dif_pos ⟨hn, hm⟩, dif_pos ⟨hfree, hfed⟩]

theorem exec_part_unknown (h : b.kind n = none ∨ b.kind m = none) :
    b.exec (.part n m) = (some .unknown, b) := if_pos h

theorem exec_part_busy (hn : b.kind n ≠ none) (hm : b.kind m ≠ none) (h : b.next n ≠ some m) :
    b.exec (.part n m) = (some .busy, b) := by
  rw [exec, if_neg (not_or.2 ⟨hn, hm⟩), if_neg h]

theorem exec_part (h : b.next n = some m) : b.exec (.part n m) = (none, b.part n) := by
  rw [exec, if_neg (not_or.2 (b.ends h)), if_pos h]

theorem exec_relieve_unknown (h : b.kind n = none ∨ b.kind m = none) :
    b.exec (.relieve n m) = (some .unknown, b) := if_pos h

theorem exec_relieve_busy (hn : b.kind n ≠ none) (hm : b.kind m ≠ none)
    (h : ¬ (n ≠ m ∧ b.Idle m)) : b.exec (.relieve n m) = (some .busy, b) := by
  rw [exec, if_neg (not_or.2 ⟨hn, hm⟩), dif_neg h]

theorem exec_relieve (hn : b.kind n ≠ none) (hm : b.kind m ≠ none) (hne : n ≠ m)
    (hi : b.Idle m) : b.exec (.relieve n m) = (none, b.drop m hi) := by
  rw [exec, if_neg (not_or.2 ⟨hn, hm⟩), dif_pos ⟨hne, hi⟩]

end Exec

/-! ## Runs -/

section Runs

variable [DecidableEq κ]

/-- The board after a run. -/
noncomputable def run (b : Board κ τ) (ops : List (Op κ τ)) : Board κ τ :=
  ops.foldl (fun b op => (b.exec op).2) b

/-- What the operations of a run are answered. -/
noncomputable def answers (b : Board κ τ) (ops : List (Op κ τ)) : List (Option Fault) :=
  Transition.answers (fun b op => (b.exec op).2) (fun b op => (b.exec op).1) b ops

/-- A run by which every operation is done. -/
inductive Done : Board κ τ → List (Op κ τ) → Board κ τ → Prop
  | nil {b : Board κ τ} : Done b [] b
  | cons {b c d : Board κ τ} {op : Op κ τ} {ops : List (Op κ τ)} (h : b.exec op = (none, c))
      (hrest : Done c ops d) : Done b (op :: ops) d

theorem Done.trans {b c d : Board κ τ} {ops ops' : List (Op κ τ)} (h : Done b ops c)
    (h' : Done c ops' d) : Done b (ops ++ ops') d := by
  induction h with
  | nil => exact h'
  | cons hop _ ih => exact .cons hop (ih h')

theorem Done.run_eq {b c : Board κ τ} {ops : List (Op κ τ)} (h : Done b ops c) :
    b.run ops = c := by
  induction h with
  | nil => rfl
  | @cons b c d op ops hop hrest ih =>
    show (b.exec op).2.run ops = d
    rw [hop, ih]

theorem answers_cons (b : Board κ τ) (op : Op κ τ) (ops : List (Op κ τ)) :
    b.answers (op :: ops) = (b.exec op).1 :: (b.exec op).2.answers ops := rfl

theorem Done.answers_eq {b c : Board κ τ} {ops : List (Op κ τ)} (h : Done b ops c) :
    ∀ a ∈ b.answers ops, a = none := by
  induction h with
  | nil => exact fun a ha => absurd ha List.not_mem_nil
  | @cons b c d op ops hop hrest ih =>
    intro a ha
    rw [answers_cons, hop] at ha
    rcases List.mem_cons.1 ha with rfl | ha
    · rfl
    · exact ih a ha

/-- The operations that take a board apart. -/
def Op.IsRemoval : Op κ τ → Prop
  | .drop _ | .part _ _ => True
  | _ => False

/-- Connection by connection the components are parted. -/
theorem exists_parted (b : Board κ τ) : ∃ ops c, Done b ops c ∧ (∀ op ∈ ops, op.IsRemoval) ∧
    ∀ n, c.next n = none := by
  have hfin : ∀ b : Board κ τ, {n | b.next n ≠ none}.Finite := fun b => by
    refine b.finite.subset fun n hn => ?_
    obtain ⟨m, hm⟩ := Option.ne_none_iff_exists'.1 hn
    exact (b.ends hm).1
  -- by induction on the number of connections
  induction hk : {n | b.next n ≠ none}.ncard using Nat.strong_induction_on generalizing b with
  | _ k ih =>
    by_cases hnone : ∀ n, b.next n = none
    · exact ⟨[], b, .nil, by simp, hnone⟩
    · obtain ⟨n, hn⟩ := not_forall.1 hnone
      obtain ⟨m, hm⟩ := Option.ne_none_iff_exists'.1 hn
      have hlt : {x | (b.part n).next x ≠ none}.ncard < k := by
        rw [← hk]
        refine Set.ncard_lt_ncard ⟨fun x hx hnone => hx ?_, fun hsub => ?_⟩ (hfin b)
        · show Function.update b.next n none x = none
          rw [Function.update_apply, hnone, ite_self]
        · exact hsub hn (Function.update_self ..)
      obtain ⟨ops, c, hdone, hrem, hc⟩ := ih _ hlt (b.part n) rfl
      refine ⟨.part n m :: ops, c, .cons (exec_part hm) hdone, fun op hop => ?_, hc⟩
      rcases List.mem_cons.1 hop with rfl | hop
      · trivial
      · exact hrem op hop

/-- Component by component a board without connections is emptied. -/
theorem exists_dropped (b : Board κ τ) (h : ∀ n, b.next n = none) :
    ∃ ops, Done b ops (empty : Board κ τ) ∧ ∀ op ∈ ops, op.IsRemoval := by
  -- by induction on the number of components
  induction hk : {n | b.kind n ≠ none}.ncard using Nat.strong_induction_on generalizing b with
  | _ k ih =>
    by_cases hnone : ∀ n, b.kind n = none
    · have hb : b = empty := Board.ext (funext hnone) (funext h)
      exact ⟨[], hb ▸ .nil, by simp⟩
    · obtain ⟨n, hn⟩ := not_forall.1 hnone
      have hidle : b.Idle n := by
        refine ⟨h n, fun k hk => ?_⟩
        rw [h k] at hk
        cases hk
      have hlt : {x | (b.drop n hidle).kind x ≠ none}.ncard < k := by
        rw [← hk]
        refine Set.ncard_lt_ncard ⟨fun x hx hnone => hx ?_, fun hsub => ?_⟩ b.finite
        · show Function.update b.kind n none x = none
          rw [Function.update_apply, hnone, ite_self]
        · exact hsub hn (Function.update_self ..)
      obtain ⟨ops, hdone, hrem⟩ := ih _ hlt (b.drop n hidle) h rfl
      refine ⟨.drop n :: ops, .cons (exec_drop hn hidle) hdone, fun op hop => ?_⟩
      rcases List.mem_cons.1 hop with rfl | hop
      · trivial
      · exact hrem op hop

/-- **Dismantling.** Every board is taken apart by parting and dropping, and nothing is refused. -/
theorem dismantle (b : Board κ τ) : ∃ ops : List (Op κ τ), (∀ op ∈ ops, op.IsRemoval) ∧
    (∀ a ∈ b.answers ops, a = none) ∧ b.run ops = empty := by
  obtain ⟨ops, c, hdone, hrem, hc⟩ := exists_parted b
  obtain ⟨ops', hdone', hrem'⟩ := exists_dropped c hc
  have hall := hdone.trans hdone'
  refine ⟨ops ++ ops', fun op hop => ?_, hall.answers_eq, hall.run_eq⟩
  rcases List.mem_append.1 hop with hop | hop
  · exact hrem op hop
  · exact hrem' op hop

end Runs

end Board
