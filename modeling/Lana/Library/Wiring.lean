import Mathlib.Data.Fintype.Card
import Mathlib.Tactic

/-!
# Two-sided wirings

A net gives each of its nodes a port per direction; a port holds a node or `null`.  In a wired net
every port in use leads to a node whose opposite port leads back (`Wired`).  Nodes come and go with
free ports, and pairs of ports are connected and disconnected.

Following one direction is then a partial injection, and the way of a partial injection from a
point without predecessor meets no point twice (`exists_orbit`).
-/

namespace Wiring

variable {ι D : Type*}

/-- A partial map from nodes to their ports. -/
abbrev Net (ι D : Type*) := ι → Option (D → ι)

/-- Every port in use leads to a node that leads back. -/
structure Wired (flip : D → D) (null : ι) (g : Net ι D) : Prop where
  null_free : g null = none
  back : ∀ i p d, g i = some p → p d ≠ null → ∃ q, g (p d) = some q ∧ q (flip d) = i

section Ops

variable {flip : D → D} {null : ι} {g : Net ι D}

theorem Wired.ne_null (h : Wired flip null g) {i : ι} {p : D → ι} (hi : g i = some p) :
    i ≠ null := by
  rintro rfl
  rw [h.null_free] at hi
  cases hi

/-- The port of one side decides that of the other. -/
theorem Wired.symm (h : Wired flip null g) (hflip : ∀ d, flip (flip d) = d) {i j : ι}
    {p q : D → ι} (hi : g i = some p) (hj : g j = some q) (d : D) : p d = j ↔ q (flip d) = i := by
  constructor
  · rintro rfl
    obtain ⟨q', hq', hback⟩ := h.back i p d hi (h.ne_null hj)
    rw [hj] at hq'
    rwa [Option.some.inj hq']
  · rintro rfl
    obtain ⟨p', hp', hback⟩ := h.back j q (flip d) hj (h.ne_null hi)
    rw [hi, hflip] at *
    rwa [Option.some.inj hp']

variable [DecidableEq ι]

/-- A new node with free ports. -/
theorem Wired.insert (h : Wired flip null g) {i : ι} (hi : g i = none) (hne : i ≠ null) :
    Wired flip null (Function.update g i (some fun _ => null)) := by
  refine ⟨by rw [Function.update_of_ne hne.symm]; exact h.null_free, fun k p d hk hd => ?_⟩
  by_cases hki : k = i
  · subst hki
    rw [Function.update_self] at hk
    obtain rfl := Option.some.inj hk
    exact absurd rfl hd
  · rw [Function.update_of_ne hki] at hk
    obtain ⟨q, hq, hback⟩ := h.back k p d hk hd
    refine ⟨q, ?_, hback⟩
    rw [Function.update_of_ne, hq]
    intro e
    rw [e, hi] at hq
    cases hq

/-- A node with free ports is taken out. -/
theorem Wired.erase (h : Wired flip null g) {i : ι} {p : D → ι} (hi : g i = some p)
    (hfree : ∀ d, p d = null) : Wired flip null (Function.update g i none) := by
  refine ⟨by rw [Function.update_of_ne (h.ne_null hi).symm]; exact h.null_free,
    fun k p' d hk hd => ?_⟩
  by_cases hki : k = i
  · rw [hki, Function.update_self] at hk
    cases hk
  · rw [Function.update_of_ne hki] at hk
    obtain ⟨q, hq, hback⟩ := h.back k p' d hk hd
    refine ⟨q, ?_, hback⟩
    rw [Function.update_of_ne, hq]
    intro e
    rw [e, hi] at hq
    rw [← Option.some.inj hq, hfree] at hback
    exact h.ne_null hk hback.symm

/-- The node behind a port in use. -/
def next (null : ι) (g : Net ι D) (d : D) (i : ι) : Option ι :=
  (g i).bind fun p => if p d = null then none else some (p d)

theorem next_eq_some {d : D} {i j : ι} :
    next null g d i = some j ↔ ∃ p, g i = some p ∧ p d = j ∧ j ≠ null := by
  unfold next
  rw [Option.bind_eq_some_iff]
  constructor
  · rintro ⟨p, hp, h⟩
    split_ifs at h with hn
    obtain rfl := Option.some.inj h
    exact ⟨p, hp, rfl, hn⟩
  · rintro ⟨p, hp, rfl, hn⟩
    exact ⟨p, hp, if_neg hn⟩

/-- Following one direction is a partial injection. -/
theorem Wired.next_inj (h : Wired flip null g) {d : D} {i j k : ι}
    (hi : next null g d i = some k) (hj : next null g d j = some k) : i = j := by
  obtain ⟨p, hp, rfl, hne⟩ := next_eq_some.1 hi
  obtain ⟨q, hq, heq, -⟩ := next_eq_some.1 hj
  obtain ⟨r, hr, hback⟩ := h.back i p d hp hne
  obtain ⟨r', hr', hback'⟩ := h.back j q d hq (by rwa [heq])
  rw [heq, hr] at hr'
  obtain rfl := Option.some.inj hr'
  exact hback.symm.trans hback'

variable [DecidableEq D]

/-- `port[d] = j` at the node `i`. -/
def setPort (g : Net ι D) (i : ι) (d : D) (j : ι) : Net ι D :=
  Function.update g i ((g i).map fun p => Function.update p d j)

theorem setPort_apply (g : Net ι D) (i k : ι) (d : D) (j : ι) :
    setPort g i d j k = (g k).map fun p e => if k = i ∧ e = d then j else p e := by
  unfold setPort
  by_cases hk : k = i
  · subst hk
    rw [Function.update_self]
    congr 1
    funext p e
    rw [Function.update_apply]
    simp
  · rw [Function.update_of_ne hk]
    rcases g k with _ | p <;> simp [hk]

/-- Two ports set one after the other. -/
theorem setPort_two {i j k : ι} {d e : D} {a b : ι} {p' : D → ι}
    (h : setPort (setPort g i d a) j e b k = some p') :
    ∃ p, g k = some p ∧ ∀ x, p' x = if k = j ∧ x = e then b else if k = i ∧ x = d then a else p x := by
  rw [setPort_apply, setPort_apply, Option.map_map] at h
  obtain ⟨p, hp, rfl⟩ := Option.map_eq_some_iff.1 h
  exact ⟨p, hp, fun _ => rfl⟩

theorem setPort_two_some {i j k : ι} {d e : D} {a b : ι} {p : D → ι} (h : g k = some p) :
    setPort (setPort g i d a) j e b k =
      some fun x => if k = j ∧ x = e then b else if k = i ∧ x = d then a else p x := by
  rw [setPort_apply, setPort_apply, h]
  rfl

theorem setPort_two_none {i j k : ι} {d e : D} {a b : ι} (h : g k = none) :
    setPort (setPort g i d a) j e b k = none := by
  rw [setPort_apply, setPort_apply, h]
  rfl

/-- Two free ports, opposite to each other, are connected. -/
theorem Wired.connect (h : Wired flip null g) (hflip : ∀ d, flip (flip d) = d) {i j : ι}
    {p q : D → ι} {d : D} (hd : flip d ≠ d) (hi : g i = some p) (hj : g j = some q)
    (hp : p d = null) (hq : q (flip d) = null) :
    Wired flip null (setPort (setPort g i d j) j (flip d) i) := by
  refine ⟨setPort_two_none h.null_free, fun k p' e hk he => ?_⟩
  obtain ⟨pk, hpk, hp'⟩ := setPort_two hk
  rw [hp'] at he ⊢
  by_cases h1 : k = j ∧ e = flip d
  · obtain ⟨rfl, rfl⟩ := h1
    rw [if_pos ⟨rfl, rfl⟩]
    refine ⟨_, setPort_two_some hi, ?_⟩
    rw [hflip, if_neg (fun e => hd e.2.symm), if_pos ⟨rfl, rfl⟩]
  rw [if_neg h1] at he ⊢
  by_cases h2 : k = i ∧ e = d
  · obtain ⟨rfl, rfl⟩ := h2
    rw [if_pos ⟨rfl, rfl⟩]
    exact ⟨_, setPort_two_some hj, if_pos ⟨rfl, rfl⟩⟩
  rw [if_neg h2] at he ⊢
  obtain ⟨r, hr, hback⟩ := h.back k pk e hpk he
  refine ⟨_, setPort_two_some hr, ?_⟩
  -- the port that leads back is neither of the two, which were free
  rw [if_neg, if_neg, hback]
  · rintro ⟨e1, e2⟩
    rw [e1, hi] at hr
    rw [← Option.some.inj hr, e2, hp] at hback
    exact h.ne_null hpk hback.symm
  · rintro ⟨e1, e2⟩
    rw [e1, hj] at hr
    rw [← Option.some.inj hr, e2, hq] at hback
    exact h.ne_null hpk hback.symm

/-- Two ports that lead to each other are disconnected. -/
theorem Wired.disconnect (h : Wired flip null g) (hflip : ∀ d, flip (flip d) = d) {i j : ι}
    {p q : D → ι} {d : D} (hi : g i = some p) (hj : g j = some q) (hp : p d = j) :
    Wired flip null (setPort (setPort g i d null) j (flip d) null) := by
  have hq : q (flip d) = i := (h.symm hflip hi hj d).1 hp
  refine ⟨setPort_two_none h.null_free, fun k p' e hk he => ?_⟩
  obtain ⟨pk, hpk, hp'⟩ := setPort_two hk
  rw [hp'] at he ⊢
  by_cases h1 : k = j ∧ e = flip d
  · rw [if_pos h1] at he
    exact absurd rfl he
  rw [if_neg h1] at he ⊢
  by_cases h2 : k = i ∧ e = d
  · rw [if_pos h2] at he
    exact absurd rfl he
  rw [if_neg h2] at he ⊢
  obtain ⟨r, hr, hback⟩ := h.back k pk e hpk he
  refine ⟨_, setPort_two_some hr, ?_⟩
  rw [if_neg, if_neg, hback]
  · rintro ⟨e1, e2⟩
    rw [e1, hi] at hr
    rw [← Option.some.inj hr, e2, hp] at hback
    exact h1 ⟨hback.symm, by rw [← e2, hflip]⟩
  · rintro ⟨e1, e2⟩
    rw [e1, hj] at hr
    rw [← Option.some.inj hr, e2, hq] at hback
    exact h2 ⟨hback.symm, by rw [← hflip e, e2, hflip]⟩

end Ops

/-! ## Orbits -/

/-- `l` is the way of `f` from `i` to the point where it ends. -/
inductive Orbit (f : ι → Option ι) : ι → List ι → Prop
  | last {i : ι} (h : f i = none) : Orbit f i [i]
  | next {i j : ι} {l : List ι} (h : f i = some j) (hl : Orbit f j l) : Orbit f i (i :: l)

variable [DecidableEq ι] [Fintype ι] {f : ι → Option ι}

/-- The induction behind `exists_orbit`: `A` holds the points behind. -/
theorem exists_orbit_avoiding (hinj : ∀ i j k, f i = some k → f j = some k → i = j) :
    ∀ (n : ℕ) (A : Finset ι) (i : ι), i ∉ A → (Finset.univ \ A).card = n →
      (∀ a ∈ A, ∀ j, f j = some a → j ∈ A) → (∀ j, f j = some i → j ∈ A) →
      ∃ l, Orbit f i l ∧ l.Nodup ∧ ∀ a ∈ l, a ∉ A := by
  intro n
  induction n with
  | zero =>
    intro A i hi hn _ _
    have : i ∈ Finset.univ \ A := Finset.mem_sdiff.2 ⟨Finset.mem_univ i, hi⟩
    rw [Finset.card_eq_zero.1 hn] at this
    exact absurd this (Finset.notMem_empty i)
  | succ n ih =>
    intro A i hi hn hA hpre
    rcases hf : f i with _ | j
    · exact ⟨[i], .last hf, List.nodup_singleton i, by simpa using hi⟩
    · have hj : j ∉ insert i A := by
        rw [Finset.mem_insert]
        rintro (rfl | hjA)
        · exact hi (hpre j hf)
        · exact hi (hA j hjA i hf)
      have hcard : (Finset.univ \ insert i A).card = n := by
        rw [Finset.sdiff_insert, Finset.card_erase_of_mem, hn, Nat.add_sub_cancel]
        exact Finset.mem_sdiff.2 ⟨Finset.mem_univ i, hi⟩
      obtain ⟨l, hl, hnd, hav⟩ := ih (insert i A) j hj hcard
        (fun a ha k hk => by
          rcases Finset.mem_insert.1 ha with rfl | ha
          · exact Finset.mem_insert_of_mem (hpre k hk)
          · exact Finset.mem_insert_of_mem (hA a ha k hk))
        (fun k hk => by
          rw [hinj k i j hk hf]
          exact Finset.mem_insert_self i A)
      refine ⟨i :: l, .next hf hl, List.nodup_cons.2 ⟨fun h => ?_, hnd⟩, fun a ha => ?_⟩
      · exact hav i h (Finset.mem_insert_self i A)
      · rcases List.mem_cons.1 ha with rfl | ha
        · exact hi
        · exact fun h => hav a ha (Finset.mem_insert_of_mem h)

/-- The way of a partial injection from a point without predecessor ends and meets no point
twice. -/
theorem exists_orbit (hinj : ∀ i j k, f i = some k → f j = some k → i = j) {i : ι}
    (hi : ∀ j, f j ≠ some i) : ∃ l, Orbit f i l ∧ l.Nodup := by
  obtain ⟨l, hl, hnd, -⟩ := exists_orbit_avoiding hinj _ ∅ i (Finset.notMem_empty i) rfl
    (fun a ha => absurd ha (Finset.notMem_empty a)) (fun j hj => absurd hj (hi j))
  exact ⟨l, hl, hnd⟩

end Wiring
