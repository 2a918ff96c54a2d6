import Mathlib.Tactic.Abel
import Lana.Fblock.Hotplug

/-!
# The tee as a store of bindings

A tee has three slots for two directions.  `TeeStore` runs its events and keeps, beside the private
areas, the multiset of the bindings accepted and not yet taken back.  The slots hold the idps of
that multiset, the clone port one that was bound for either direction (`Kept`).  The clone port does
not say for which one, so an unbinding that names its idp is accepted for both: the multiset
describes the tee all along exactly if no unbinding names the idp of the clone port for a direction
it is not bound in (`tee_store_iff`).
-/

namespace Lana

/-! ## Slots -/

namespace Ports

/-- The values of the slots in use. -/
def held (p : Ports) : Multiset Idp :=
  Multiset.filter (· ≠ idpUnknown) {p.port .ingress, p.port .egress, p.clone}

/-- The binding that a slot stands for. -/
def slot (dir : PathType) (i : Idp) : Multiset (PathType × Idp) :=
  if i = idpUnknown then 0 else {(dir, i)}

@[simp] theorem slot_unknown (dir : PathType) : slot dir idpUnknown = 0 := rfl

theorem slot_of_ne {i : Idp} (h : i ≠ idpUnknown) (dir : PathType) : slot dir i = {(dir, i)} :=
  if_neg h

/-- The bindings the ports stand for when the clone port was bound for `d`. -/
def bindings (p : Ports) (d : PathType) : Multiset (PathType × Idp) :=
  slot .ingress (p.port .ingress) + slot .egress (p.port .egress) + slot d p.clone

theorem map_slot (dir : PathType) (i : Idp) :
    (slot dir i).map Prod.snd = if i ≠ idpUnknown then {i} else 0 := by
  unfold slot
  split_ifs <;> simp_all

theorem map_bindings (p : Ports) (d : PathType) : (p.bindings d).map Prod.snd = p.held := by
  unfold bindings held
  rw [Multiset.map_add, Multiset.map_add, map_slot, map_slot, map_slot]
  simp only [Multiset.insert_eq_cons, Multiset.filter_cons, Multiset.filter_singleton, add_assoc,
    Multiset.empty_eq_zero]

theorem mem_slot {a : PathType × Idp} {dir : PathType} {i : Idp} :
    a ∈ slot dir i ↔ i ≠ idpUnknown ∧ a = (dir, i) := by
  unfold slot
  split_ifs with h <;> simp [h]

theorem mem_bindings (p : Ports) (d dir : PathType) {idp : Idp} (hi : idp ≠ idpUnknown) :
    (dir, idp) ∈ p.bindings d ↔ p.port dir = idp ∨ dir = d ∧ p.clone = idp := by
  unfold bindings
  simp only [Multiset.mem_add, mem_slot, Prod.mk.injEq]
  cases dir <;> simp only [reduceCtorEq, false_and, and_false, false_or, or_false, true_and] <;>
    constructor <;> rintro (h | h) <;> simp_all

theorem bindings_set (p : Ports) (d dir : PathType) (idp : Idp) :
    (p.set dir idp).bindings d + slot dir (p.port dir) = p.bindings d + slot dir idp := by
  cases dir
  · show slot .ingress idp + slot .egress (p.port .egress) + slot d p.clone + _ = _
    unfold bindings
    abel
  · show slot .ingress (p.port .ingress) + slot .egress idp + slot d p.clone + _ = _
    unfold bindings
    abel

end Ports

/-! ## Runs -/

/-- An event with an idp. -/
abbrev LiveEvent := {ev : BindEvent // ev.idp ≠ idpUnknown}

/-- What an accepted event does to the bindings. -/
def BindEvent.record (bound : Multiset (PathType × Idp)) : BindEvent → Multiset (PathType × Idp)
  | bind dir idp => (dir, idp) ::ₘ bound
  | unbind dir idp => bound.erase (dir, idp)

/-- A tee and the bindings accepted and not taken back. -/
structure TeeStore where
  block : Percpu
  bound : Multiset (PathType × Idp)

namespace TeeStore

def new (online : OnlineCpus) : TeeStore := ⟨.new online 0 0, 0⟩

/-- One event of the tee. -/
def step (s : TeeStore) (ev : LiveEvent) : TeeStore :=
  match s.block.deliver .tee ev.1 with
  | (.ok, block) => ⟨block, ev.1.record s.bound⟩
  | (.bad, block) => ⟨block, s.bound⟩

/-- Every CPU holds the idps of the bindings. -/
def Holds (s : TeeStore) : Prop :=
  ∀ c ∈ s.block.online.cpus, (s.block.area c).ports.held = s.bound.map Prod.snd

/-- Every CPU accepts the unbinding of what is bound, and of nothing else. -/
def Judges (s : TeeStore) : BindEvent → Prop
  | .bind _ _ => True
  | .unbind dir idp => ∀ c ∈ s.block.online.cpus,
      ((unbindTee dir idp (s.block.area c)).isSome ↔ (dir, idp) ∈ s.bound)

/-- What the clone port holds is unbound in a direction it is bound in. -/
def Ok (s : TeeStore) (ev : LiveEvent) : Prop :=
  match ev.1 with
  | .bind _ _ => True
  | .unbind dir idp => ∀ c ∈ s.block.online.cpus,
      (s.block.area c).portClone = idp → (dir, idp) ∈ s.bound

/-- The online CPUs hold the ports `P`, with the clone port bound for `d`, and these are the
bindings. -/
structure Kept (s : TeeStore) (P : Ports) (d : PathType) : Prop where
  copies : ∀ c ∈ s.block.online.cpus, (s.block.area c).ports = P
  bound : s.bound = P.bindings d

section Kept

variable {s : TeeStore} {P : Ports} {d : PathType}

theorem Kept.holds (h : s.Kept P d) : s.Holds := by
  intro c hc
  rw [h.copies c hc, h.bound, Ports.map_bindings]

theorem kept_new (online : OnlineCpus) (d : PathType) : (new online).Kept .free d :=
  ⟨fun c _ => Percpu.ports_new online 0 0 c, rfl⟩

theorem isSome_unbindTee (dir : PathType) (idp : Idp) (p : Priv) :
    (unbindTee dir idp p).isSome ↔ p.ports.port dir = idp ∨ p.ports.clone = idp := by
  unfold unbindTee Priv.ports
  split_ifs <;> simp_all

theorem Kept.judges_iff (h : s.Kept P d) (ev : LiveEvent) : s.Judges ev.1 ↔ s.Ok ev := by
  obtain ⟨ev, hidp⟩ := ev
  cases ev with
  | bind dir idp => exact Iff.rfl
  | unbind dir idp =>
    change idp ≠ idpUnknown at hidp
    refine forall₂_congr fun c hc => ?_
    have hclone : (s.block.area c).portClone = P.clone := congrArg Ports.clone (h.copies c hc)
    rw [isSome_unbindTee, h.copies c hc, hclone, h.bound, Ports.mem_bindings P d dir hidp]
    tauto

/-- The slot that a binding has filled, on the multiset. -/
theorem Kept.bindings_bind (h : s.Kept P d) {dir : PathType} {idp : Idp} (hi : idp ≠ idpUnknown)
    {Q : Ports} (hQ : P.bind .tee dir idp = some Q) :
    ∃ d', (dir, idp) ::ₘ s.bound = Q.bindings d' := by
  rw [h.bound, ← Multiset.singleton_add, ← Ports.slot_of_ne hi]
  obtain ⟨hfree, rfl⟩ | ⟨-, -, hclone, rfl⟩ := Ports.bind_cases hQ
  · refine ⟨d, ?_⟩
    have hset := Ports.bindings_set P d dir idp
    rw [hfree, Ports.slot_unknown, add_zero] at hset
    rw [hset, add_comm]
  · refine ⟨dir, ?_⟩
    unfold Ports.bindings
    rw [hclone, Ports.slot_unknown, add_zero, add_comm]

/-- The slot that an unbinding has cleared, on the multiset. -/
theorem Kept.bindings_unbind (h : s.Kept P d) {dir : PathType} {idp : Idp} (hi : idp ≠ idpUnknown)
    (hok : P.clone = idp → (dir, idp) ∈ s.bound) {Q : Ports}
    (hQ : P.unbind .tee dir idp = some Q) : s.bound.erase (dir, idp) = Q.bindings d := by
  -- the multiset is that of the ports left, and the binding
  have hsplit : Q.bindings d + Ports.slot dir idp = P.bindings d := by
    obtain ⟨hport, rfl⟩ | ⟨hport, -, hclone, rfl⟩ := Ports.unbind_cases hQ
    · have hset := Ports.bindings_set P d dir idpUnknown
      rwa [hport, Ports.slot_unknown, add_zero] at hset
    · have hmem := hok hclone
      rw [h.bound, Ports.mem_bindings P d dir hi] at hmem
      obtain ⟨rfl, -⟩ := hmem.resolve_left hport
      show Ports.slot _ _ + Ports.slot _ _ + Ports.slot dir idpUnknown + _ = _
      unfold Ports.bindings
      rw [hclone, Ports.slot_unknown, add_zero]
  rw [h.bound, ← hsplit, Ports.slot_of_ne hi, add_comm, Multiset.singleton_add,
    Multiset.erase_cons_head]

/-- An event keeps the description when it names the clone port for a direction it is bound in. -/
theorem Kept.step (h : s.Kept P d) (ev : LiveEvent) (hok : s.Ok ev) :
    ∃ P' d', (s.step ev).Kept P' d' := by
  unfold TeeStore.step
  rcases deliver_cases .tee ev.1 h.copies with ⟨-, heq⟩ | ⟨Q, area, hQ, heq, hin, -⟩
  · rw [heq]
    exact ⟨P, d, h⟩
  · rw [heq]
    obtain ⟨ev, hidp⟩ := ev
    cases ev with
    | bind dir idp =>
      obtain ⟨d', hd'⟩ := h.bindings_bind hidp hQ
      exact ⟨Q, d', hin, hd'⟩
    | unbind dir idp =>
      obtain ⟨c, cs, hcs⟩ := List.exists_cons_of_ne_nil s.block.online.nonempty
      have hc : c ∈ s.block.online.cpus := hcs ▸ List.mem_cons_self
      have hclone : P.clone = idp → (dir, idp) ∈ s.bound :=
        fun e => hok c hc ((congrArg Ports.clone (h.copies c hc)).trans e)
      exact ⟨Q, d, hin, h.bindings_unbind hidp hclone hQ⟩

end Kept

end TeeStore

/-- **The tee.** Over every run of events the slots hold the idps of what is bound, and each CPU
accepts an unbinding of the run exactly if it is of something bound, if and only if no unbinding of
the run names the idp of the clone port for a direction it is not bound in. -/
theorem tee_store_iff (online : OnlineCpus) (evs : List LiveEvent) :
    (∀ bs, bs <+: evs → (bs.foldl TeeStore.step (.new online)).Holds ∧
        ∀ ev, bs ++ [ev] <+: evs → (bs.foldl TeeStore.step (.new online)).Judges ev.1) ↔
      Transition.Allowed TeeStore.step TeeStore.Ok (.new online) evs := by
  have hnew : ∃ P d, (TeeStore.new online).Kept P d := ⟨_, _, TeeStore.kept_new online .ingress⟩
  have hstep : ∀ s ev, (∃ P d, TeeStore.Kept s P d) → s.Ok ev → ∃ P d, (s.step ev).Kept P d :=
    fun s ev ⟨_, _, h⟩ hok => h.step ev hok
  have hjudges : ∀ s ev, (∃ P d, TeeStore.Kept s P d) → (s.Ok ev ↔ s.Judges ev.1) :=
    fun s ev ⟨_, _, h⟩ => (h.judges_iff ev).symm
  constructor
  · intro h
    rw [Transition.allowed_congr hstep hjudges hnew, Transition.allowed_iff_forall_next]
    intro bs ev hbs
    exact (h bs ((List.prefix_append bs [ev]).trans hbs)).2 ev hbs
  · intro hall bs hbs
    refine ⟨?_, fun ev hev => ?_⟩
    · obtain ⟨cs, rfl⟩ := hbs
      obtain ⟨P, d, h⟩ :=
        Transition.invariant_of_allowed hstep hnew (Transition.allowed_append.1 hall).1
      exact h.holds
    · rw [Transition.allowed_congr hstep hjudges hnew, Transition.allowed_iff_forall_next] at hall
      exact hall bs ev hev

/-- 5 and 6 are bound for egress, then 6 is unbound for ingress: the clone port gives it up, and 6
is lost from the slots though its binding was never taken back. -/
theorem tee_unbinds_other_direction :
    let evs : List LiveEvent := [⟨.bind .egress 5, by decide⟩, ⟨.bind .egress 6, by decide⟩]
    let s := evs.foldl TeeStore.step (.new ⟨[0, 1], by decide, by decide⟩)
    (PathType.ingress, (6 : Idp)) ∉ s.bound ∧
      (∀ c ∈ s.block.online.cpus, (unbindTee .ingress 6 (s.block.area c)).isSome) ∧
      (s.block.deliver .tee (.unbind .ingress 6)).1 = .ok ∧
      ¬ (s.step ⟨.unbind .ingress 6, by decide⟩).Holds := by
  refine ⟨by decide, by decide, by decide, fun hholds => ?_⟩
  exact absurd (hholds 0 (by decide)) (by decide)

end Lana
