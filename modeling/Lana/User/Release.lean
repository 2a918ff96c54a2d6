import Lana.Fblock.Held
import Lana.Library.Transition
import Lana.User.Effects

/-!
# Releases

A block is released, and freed after a grace period, when its last reference is put.  Between
commands the running function holds nothing, so that `Held` with `δ = 0` is an invariant of runs of
add, rm, bind, unbind, subscribe and unsubscribe in which every unsubscription finds its node
(`released_after_removal`).  An unsubscription of a block that has other subscriptions only puts two
references nobody took (`released_while_entered`).
-/

namespace Lana

open State

section Commands

variable {s : State} {P : Addr → Ports}

/-- A lookup that is given up again. -/
theorem Held.get_put (h : Held s P 0) (a : Addr) : Held (putFblock (s.addRefs (ref a)) a) P 0 := by
  have := (h.addRefs (ref a)).put (a := a) fun _ => by simp
  rwa [zero_add, sub_self] at this

/-- The frame of the commands with two names. -/
theorem Held.withTuple (h : Held s P 0) (n1 n2 : Name) {f : State → Addr → Addr → Ret × State}
    (hf : ∀ a b, s.lookup n1 = some a → s.lookup n2 = some b →
      ∃ P', Held (f (s.addRefs (ref a + ref b)) a b).2 P' (ref a + ref b)) :
    ∃ P', Held (withTuple s n1 n2 f).2 P' 0 := by
  unfold Lana.withTuple
  rcases h1 : s.lookup n1 with _ | a
  · rw [searchFblockN_none h1]
    exact ⟨P, h⟩
  rw [searchFblockN_some h1]
  dsimp only
  rcases h2 : s.lookup n2 with _ | b
  · rw [searchFblockN_none (show (s.addRefs (ref a)).lookup n2 = none from h2)]
    exact ⟨P, h.get_put a⟩
  · rw [searchFblockN_some (show (s.addRefs (ref a)).lookup n2 = some b from h2),
      addRefs_addRefs]
    obtain ⟨P', hP'⟩ := hf a b h1 h2
    have hput1 := hP'.put (a := a) fun _ => by
      have := ref_nonneg b a
      simp only [Pi.add_apply, ref_self]
      omega
    have hput2 := hput1.put (a := b) fun _ => by
      simp only [Pi.sub_apply, Pi.add_apply, ref_self]
      omega
    have heq : ref a + ref b - ref a - ref b = 0 := by abel
    exact ⟨P', heq ▸ hput2⟩

/-- A block that is taken out of the tables needs no reference. -/
theorem Held.unregister {δ : Addr → ℤ} (h : Held s P δ) {a : Addr} (ha : s.registry.Has a) :
    Held (unregisterFblockNamespaceNoRcu s a) P δ ∧
      ¬ (unregisterFblockNamespaceNoRcu s a).registry.Has a := by
  have hT := tables_unregister h.tables ha
  obtain ⟨t, heq, -, -⟩ := unregisterNoRcu_spec h.tables.wf a
  rw [heq] at hT ⊢
  have hkeep : ∀ i b, Function.update s.fblmap (s.idp a) none i = some b →
      s.fblmap i = some b ∧ i ≠ s.idp a := by
    intro i b hi
    rw [Function.update_apply] at hi
    split_ifs at hi with hne
    exact ⟨hi, hne⟩
  refine ⟨⟨hT, ⟨h.numbered.lt, fun i b hi => h.numbered.entry i b (hkeep i b hi).1⟩, h.copies,
    h.allocated, h.known, h.fresh, fun b ⟨i, hi⟩ => h.refs b ⟨i, (hkeep i b hi).1⟩, h.safe⟩, ?_⟩
  rintro ⟨i, hi⟩
  obtain ⟨hi', hne⟩ := hkeep i a hi
  exact hne (h.tables.stored i a hi').1.symm

theorem Held.remove (h : Held s P 0) (n : Name) : Held (userctlRemove s n).2 P 0 := by
  unfold userctlRemove
  rcases hl : s.lookup n with _ | a
  · rw [searchFblockN_none hl]
    exact h
  rw [searchFblockN_some hl]
  dsimp only
  rw [show (s.addRefs (ref a)).factory a = s.factory a from rfl]
  rcases s.factory a with _ | f
  · exact h.get_put a
  dsimp only
  split_ifs
  · exact h.get_put a
  · have ha : (s.addRefs (ref a)).registry.Has a := has_of_lookup hl
    obtain ⟨hun, hout⟩ := (h.addRefs (ref a)).unregister ha
    have hput1 := hun.put (a := a) fun hin => absurd hin hout
    have hput2 := hput1.put (a := a) fun hin => by
      rw [registry_putFblock] at hin
      exact absurd hin hout
    refine hput2.mono fun b hb => ?_
    rw [registry_putFblock, registry_putFblock] at hb
    have hne : b ≠ a := fun hba => hout (hba ▸ hb)
    simp [ref_of_ne hne]

/-- A new block has one reference and nothing refers to it yet. -/
theorem Held.created {s' : State} {area : Priv} {ops : FbType} (h : Held s P 0)
    (hC : Created s s' area ops) (harea : area.ports = .free)
    (hwrap : s.idpCounter + 1 < 2 ^ 32) : ∃ P', Held s' P' 0 := by
  obtain ⟨Q, hcopies, hQ⟩ := hC.copies h.copies
  have hremotes : ∀ u, s'.lists.remotes u = s.lists.remotes u := by
    intro u
    show ((s'.notifiers u).map s'.remote : Multiset Idp) = (s.notifiers u).map s.remote
    rw [hC.notifiers, hC.nodes.2.1]
  have hcounter : s.idpCounter ≤ s'.idpCounter := by
    rcases hC.counter with hc | hc
    · exact hc.ge
    · rw [hc, Nat.mod_eq_of_lt (by omega)]
      omega
  have hinbound : ∀ i, s'.lists.inbound s'.nextFblock i = s.lists.inbound s.nextFblock i := by
    intro i
    rw [← Lists.inbound_mono hC.next h.fresh]
    unfold Lists.inbound
    simp only [hremotes]
  refine ⟨_, hC.tables, hC.numbered h.numbered hwrap, hcopies, ?_, fun u i hi => ?_,
    fun u hu => ?_, fun a ⟨i, hi⟩ => ?_, ?_⟩
  · intro a m hm
    show m < s'.nextNode
    rw [hC.nodes.2.2]
    have hm' : m ∈ s'.notifiers a := hm
    rw [hC.notifiers] at hm'
    exact h.allocated a m hm'
  · rw [hremotes] at hi
    exact (h.known u i hi).trans hcounter
  · show s'.notifiers u = []
    rw [hC.notifiers]
    exact h.fresh u (hC.next.trans hu)
  · rw [hinbound, hremotes]
    rcases hC.new i a hi with hold | ⟨rfl, rfl, hnone, -, -, hone, -⟩
    · have hne : a ≠ s.nextFblock := by
        rintro rfl
        exact h.tables.not_has_next i hold
      obtain ⟨-, hidp, -, -, href, -⟩ := hC.keep a hne
      rw [Function.update_of_ne hne, hidp, href]
      exact h.refs a ⟨i, hold⟩
    · have hfree : Q = Ports.free := (hQ _ hi (by rw [hnone]; simp)).trans harea
      have hidp : s'.idp s.nextFblock = s.nextIdp := (hC.tables.stored _ _ hi).1
      have hempty : s.lists.remotes s.nextFblock = 0 := by
        unfold Lists.remotes
        rw [h.fresh _ le_rfl]
        rfl
      have hzero : s.lists.inbound s.nextFblock s.nextIdp = 0 := by
        refine Finset.sum_eq_zero fun u _ => Multiset.count_eq_zero.2 fun hmem => ?_
        have := h.known u _ hmem
        rw [nextIdp_toNat hwrap] at this
        omega
      rw [Function.update_self, hfree, Ports.count_free, hidp, hempty, hzero, hone]
      simp
  · rw [hC.released]
    exact h.safe

theorem Held.add (h : Held s P 0) (al : Alloc) (n : Name) (type : CStr)
    (hwrap : s.idpCounter + 1 < 2 ^ 32) : ∃ P', Held (userctlAdd al s n type).2 P' 0 := by
  rcases userctlAdd_result h.tables al n type with ⟨-, -, ⟨a, -, heq⟩ | ⟨-, heq⟩⟩ |
    ⟨f, -, -, -, hC, -⟩ | ⟨f, -, t, -, -, hC, -, -, -, -, -, heq⟩
  · rw [heq]
    exact ⟨P, h.get_put a⟩
  · rw [heq]
    exact ⟨P, h⟩
  · exact h.created hC rfl hwrap
  · obtain ⟨P', hP'⟩ := h.created hC rfl hwrap
    obtain ⟨⟨hwf, hshort, hnamed, hstored⟩, ⟨hlt, hentry⟩, hcopies, hA, hknown, hfresh, hrefs, hsafe⟩ :=
      hP'
    rw [heq]
    exact ⟨P', ⟨hwf, hshort, hnamed, hstored⟩, ⟨hlt, hentry⟩, hcopies, hA, hknown, hfresh, hrefs,
      hsafe⟩

end Commands

/-- Every unsubscription that the command leads to finds its node: the one it asks for, those of an
unbinding that both blocks accept, and those of a binding that runs out of memory. -/
def Cmd.Finds (s : State) : Cmd → Prop
  | .add .. | .rm _ | .subscribe .. => True
  | .bind n1 n2 al => ∀ a ∈ s.lookup n1, ∀ b ∈ s.lookup n2, binds s a b →
      (al.fn1 = false → FindsBoth s a b) ∧
        (al.fn1 = true → al.fn2 = false → Lana.Finds (s.lists.remotes b) (s.idp a))
  | .unbind n1 n2 => ∀ a ∈ s.lookup n1, ∀ b ∈ s.lookup n2, unbinds s a b → FindsBoth s a b
  | .unsubscribe n1 n2 => ∀ a ∈ s.lookup n1, ∀ b ∈ s.lookup n2,
      Lana.Finds (s.lists.remotes b) (s.idp a)
  | _ => False

instance (s : State) : ∀ c : Cmd, Decidable (c.Finds s)
  | .add .. | .rm _ | .subscribe .. => inferInstanceAs (Decidable True)
  | .bind n1 n2 al => inferInstanceAs (Decidable (∀ a ∈ s.lookup n1, ∀ b ∈ s.lookup n2,
      binds s a b → (al.fn1 = false → FindsBoth s a b) ∧
        (al.fn1 = true → al.fn2 = false → Lana.Finds (s.lists.remotes b) (s.idp a))))
  | .unbind n1 n2 => inferInstanceAs (Decidable (∀ a ∈ s.lookup n1, ∀ b ∈ s.lookup n2,
      unbinds s a b → FindsBoth s a b))
  | .unsubscribe n1 n2 => inferInstanceAs (Decidable (∀ a ∈ s.lookup n1, ∀ b ∈ s.lookup n2,
      Lana.Finds (s.lists.remotes b) (s.idp a)))
  | .replace .. | .hookEth .. | .addEthvlink .. | .openSock .. | .stopVlink .. | .closeSock .. =>
    inferInstanceAs (Decidable False)

theorem ref_add_nonneg (a b x : Addr) : 0 ≤ (ref a + ref b) x :=
  add_nonneg (ref_nonneg a x) (ref_nonneg b x)

theorem held_exec {s : State} {P : Addr → Ports} (h : Held s P 0) {c : Cmd} (hc : c.Finds s)
    (hleft : c.IdpLeft s) : ∃ P', Held (c.exec s) P' 0 := by
  have hget := fun a b => zero_add (ref a + ref b) ▸ h.addRefs (ref a + ref b)
  cases c with
  | add n type al => exact h.add al n type (hleft rfl)
  | rm n => exact ⟨P, h.remove n⟩
  | bind n1 n2 al =>
    refine h.withTuple n1 n2 fun a b ha hb => ?_
    refine (hget a b).fblockBind (ref_add_nonneg a b) (has_of_lookup ha) (has_of_lookup hb) al ?_ ?_
    · exact fun hacc hfn1 => (hc a ha b hb hacc).1 hfn1
    · exact fun hacc hfn1 hfn2 => (hc a ha b hb hacc).2 hfn1 hfn2
  | unbind n1 n2 =>
    refine h.withTuple n1 n2 fun a b ha hb => ?_
    exact (hget a b).fblockUnbind (ref_add_nonneg a b) (has_of_lookup ha) (has_of_lookup hb)
      (hc a ha b hb)
  | subscribe n1 n2 al =>
    refine h.withTuple n1 n2 fun a b ha hb => ⟨P, ?_⟩
    exact (hget a b).subscribe (has_of_lookup hb) (has_of_lookup ha) al.fn1
  | unsubscribe n1 n2 =>
    refine h.withTuple n1 n2 fun a b ha hb => ⟨P, ?_⟩
    exact (hget a b).unsubscribe (ref_add_nonneg a b) (has_of_lookup hb) (has_of_lookup ha)
      (hc a ha b hb)
  | _ => exact absurd hc id

theorem held_init (online : OnlineCpus) : Held (State.init online) (fun _ => .free) 0 where
  tables := tables_init online
  numbered := numbered_init online
  copies := fun _ _ _ => rfl
  allocated := fun a n hn => by cases hn
  known := fun u i hi => by simp [Lists.remotes, State.init, State.lists] at hi
  fresh := fun _ _ => rfl
  refs := fun a ⟨i, hi⟩ => by cases hi
  safe := fun r hr => by cases hr

/-- **Releases.** In every run of add, rm, bind, unbind, subscribe and unsubscribe whose
unsubscriptions find their nodes, and in which there are idps left at each add, a block that was
released was in no entry of `fblmap` at that moment.

Objects that are freed are not handed out again here.  An add that fails between the two tables
leaves `fblmap` with an object that `kfree_fblock` has freed; a later block in the same memory would
be in that entry as well, and its release is not covered. -/
theorem released_after_removal (online : OnlineCpus) (cmds : List Cmd)
    (hok : Transition.Allowed Cmd.exec (fun s c => c.Finds s ∧ c.IdpLeft s) (State.init online)
      cmds) :
    ∀ r ∈ (run (State.init online) cmds).released, ∀ i, r.fblmap i ≠ some r.fb := by
  have hstep : ∀ s (c : Cmd), (∃ P, Held s P 0) → c.Finds s ∧ c.IdpLeft s →
      ∃ P, Held (c.exec s) P 0 := by
    rintro s c ⟨P, hP⟩ ⟨hc, hleft⟩
    exact held_exec hP hc hleft
  obtain ⟨P, h⟩ := Transition.invariant_of_allowed (I := fun s => ∃ P, Held s P 0) hstep
    ⟨_, held_init online⟩ hok
  exact h.safe

/-- Blocks are bound and subscribed, all of it is taken back, and one is removed. -/
def releaseRun : List Cmd :=
  [.add nameA Factory.tee.type .ok, .add nameB Factory.counter.type .ok, .bind nameA nameB .ok,
    .subscribe nameA nameB .ok, .unsubscribe nameA nameB, .unbind nameA nameB, .rm nameB]

theorem released_after_removal_run :
    (run (State.init oneCpu) releaseRun).released.map (·.fb) = [1] ∧
      ∀ r ∈ (run (State.init oneCpu) releaseRun).released, ∀ i, r.fblmap i ≠ some r.fb :=
  ⟨by decide, released_after_removal oneCpu releaseRun (by decide)⟩

/-- `b` is subscribed to `a` and unsubscribes from `c`. -/
def strayRun : List Cmd :=
  [.add nameA Factory.dummy.type .ok, .add nameB Factory.dummy.type .ok,
    .add nameC Factory.dummy.type .ok, .subscribe nameA nameB .ok, .unsubscribe nameC nameB]

/-- The stray unsubscription releases `c`, which is still entered under its idp. -/
theorem released_while_entered :
    ∃ r ∈ (run (State.init oneCpu) strayRun).released, r.fblmap 3 = some r.fb ∧
      (run (State.init oneCpu) strayRun).factory r.fb = some .dummy := by
  decide

end Lana
