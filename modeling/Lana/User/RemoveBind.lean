import Lana.User.Clients

/-!
# A removal beside a binding

`userctl_remove` tests the count of a block and takes the block out of the tables some steps
later; `userctl_bind` raises the count and writes the idp of the block to a port.  While the
lookup of the block does not fall between the test and the removal, a port that names a block
names a registered one, in every interleaving (`remove_beside_bind`).
-/

namespace Lana

open State Interleave

/-- A port of a registered block holds `i`, on some CPU. -/
def State.Names (s : State) (i : Idp) : Prop :=
  ∃ N, s.registry.Has N ∧ ∃ c ∈ s.online.cpus, 1 ≤ (s.privateData N c).ports.naming i

theorem names_iff {s : State} {P : Addr → Ports} (hP : Copies s P) (i : Idp) :
    s.Names i ↔ ∃ N, s.registry.Has N ∧ 1 ≤ (P N).naming i := by
  obtain ⟨c, hc⟩ := List.exists_mem_of_ne_nil _ s.online.nonempty
  constructor
  · rintro ⟨N, hN, c, hc, h⟩
    exact ⟨N, hN, hP N c hc ▸ h⟩
  · rintro ⟨N, hN, h⟩
    exact ⟨N, hN, c, hc, (hP N c hc).symm ▸ h⟩

/-- The block has an idp and is in the tables; if a port names it, a further reference says so. -/
structure Covered (s : State) (A : Addr) : Prop where
  known : s.idp A ≠ idpUnknown
  held : 1 ≤ s.refcnt A
  named : s.Names (s.idp A) → 2 ≤ s.refcnt A

/-- In a run over two-port blocks every registered block is covered. -/
theorem Linked.covered {s : State} {P : Addr → Ports} {A : Addr} (h : Linked s P)
    (hA : s.registry.Has A) : Covered s A where
  known := h.idp_ne hA
  held := h.pos A hA
  named := by
    intro hnames
    obtain ⟨N, hN, hpos⟩ := (names_iff h.copies _).1 hnames
    have hclone : (P N).clone ≠ s.idp A := by
      rw [h.unclone N hN]
      exact (h.idp_ne hA).symm
    -- the port that names the block is answered
    have hused : ∃ d, (P A).port d = s.idp N := by
      unfold Ports.naming at hpos
      rw [if_neg hclone] at hpos
      by_cases hi : (P N).port .ingress = s.idp A
      · exact ⟨_, (h.symm hN hA .ingress).1 hi⟩
      · by_cases he : (P N).port .egress = s.idp A
        · exact ⟨_, (h.symm hN hA .egress).1 he⟩
        · rw [if_neg hi, if_neg he] at hpos
          omega
    obtain ⟨d, hd⟩ := hused
    have hcount := (Ports.naming_pos_of_port hd).trans ((P A).naming_le_count (h.idp_ne hN))
    have := (h.refs A hA).1
    omega

/-! ## Events and names -/

section Naming

variable {t : State} {P : Addr → Ports} {i j : Idp}

/-- An event about another block leaves the ports that name this one. -/
theorem eventRx_bind_other (hP : Copies t P) (fb : Addr) (dir : PathType) (hij : i ≠ j)
    (hj : j ≠ idpUnknown) : ∃ P', Copies (eventRx t fb (.bindIdp dir i)).2 P' ∧
      ∀ N, (P' N).naming j = (P N).naming j := by
  rcases eventRx_bind hP fb dir i with ⟨-, e⟩ | ⟨Q, pd, h, e, hP', -⟩
  · rw [e]
    exact ⟨P, hP, fun _ => rfl⟩
  · rw [e]
    refine ⟨_, hP', fun N => ?_⟩
    rw [naming_of_bind h hj, if_neg fun h' => hij h'.2, add_zero]

theorem eventRx_unbind_other (hP : Copies t P) (fb : Addr) (dir : PathType) (hij : i ≠ j)
    (hj : j ≠ idpUnknown) : ∃ P', Copies (eventRx t fb (.unbindIdp dir i)).2 P' ∧
      ∀ N, (P' N).naming j = (P N).naming j := by
  rcases eventRx_unbind hP fb dir i with ⟨-, e⟩ | ⟨Q, pd, h, e, hP', -⟩
  · rw [e]
    exact ⟨P, hP, fun _ => rfl⟩
  · rw [e]
    refine ⟨_, hP', fun N => ?_⟩
    have := naming_of_unbind h hj N
    rwa [if_neg fun h' => hij h'.2, add_zero] at this

end Naming

/-! ## A binding that has nothing to do with the block -/

/-- No port names `A`, and the binding does not hold it. -/
structure Uninvolved (s : State) (A : Addr) (t : State) (q : BindPc) : Prop where
  unnamed : ∃ P, Copies t P ∧ ∀ N, s.registry.Has N → (P N).naming (s.idp A) = 0
  blocks : ∀ fb ∈ q.blocks, s.registry.Has fb ∧ fb ≠ A

namespace Uninvolved

variable {s t : State} {A : Addr} {q : BindPc} {al : Alloc} {name1 name2 : Name}

theorem of_copies (h : Uninvolved s A t q) {t' : State} (hc : ∀ P, Copies t P → Copies t' P) :
    Uninvolved s A t' q := by
  obtain ⟨P, hP, hname⟩ := h.unnamed
  exact ⟨⟨P, hc P hP, hname⟩, h.blocks⟩

/-- The ports name `A` as before. -/
theorem unnamed_of {P : Addr → Ports} (hname : ∀ N, s.registry.Has N → (P N).naming (s.idp A) = 0)
    {t' : State} (h : ∃ P', Copies t' P' ∧ ∀ N, (P' N).naming (s.idp A) = (P N).naming (s.idp A)) :
    ∃ P', Copies t' P' ∧ ∀ N, s.registry.Has N → (P' N).naming (s.idp A) = 0 := by
  obtain ⟨P', hP', heq⟩ := h
  exact ⟨P', hP', fun N hN => (heq N).trans (hname N hN)⟩

theorem stage_step {stage : BindStage} {fb1 fb2 : Addr}
    (h : Uninvolved s A t (.at stage fb1 fb2)) (hT : Tables s.registry) (hA : s.registry.Has A)
    (hknown : s.idp A ≠ idpUnknown) (hidp : t.idp = s.idp) :
    Uninvolved s A (stage.step al t fb1 fb2).1 (stage.step al t fb1 fb2).2 := by
  obtain ⟨P, hP, hname⟩ := h.unnamed
  have hblocks := h.blocks
  have h1 : s.registry.Has fb1 ∧ fb1 ≠ A := hblocks fb1 (by simp [BindPc.blocks])
  have h2 : s.registry.Has fb2 ∧ fb2 ≠ A := hblocks fb2 (by simp [BindPc.blocks])
  have hall : ∀ l : List Addr, (∀ x ∈ l, x = fb1 ∨ x = fb2) →
      ∀ x ∈ l, s.registry.Has x ∧ x ≠ A := by
    intro l hl x hx
    rcases hl x hx with rfl | rfl
    · exact h1
    · exact h2
  -- the events carry the idps of other blocks
  have hne : ∀ fb, s.registry.Has fb ∧ fb ≠ A → t.idp fb ≠ s.idp A := by
    intro fb hfb heq
    rw [hidp] at heq
    exact hfb.2 (hT.idp_inj hfb.1 hA heq)
  cases stage <;> simp only [BindStage.step]
  case get1 => exact ⟨⟨P, hP, hname⟩, hblocks⟩
  case get2 => exact ⟨⟨P, hP, hname⟩, hblocks⟩
  case bindEgress =>
    have hev := unnamed_of hname (eventRx_bind_other hP fb1 .egress (hne fb2 h2) hknown)
    rcases he : eventRx t fb1 (.bindIdp .egress (t.idp fb2)) with ⟨_ | _, t'⟩
    all_goals
      rw [he] at hev
      exact ⟨hev, hall _ (by simp [BindPc.blocks])⟩
  case bindIngress =>
    have hev := unnamed_of hname (eventRx_bind_other hP fb2 .ingress (hne fb1 h1) hknown)
    rcases he : eventRx t fb2 (.bindIdp .ingress (t.idp fb1)) with ⟨_ | _, t'⟩
    all_goals
      rw [he] at hev
      exact ⟨hev, hall _ (by simp [BindPc.blocks])⟩
  case rollback | unbindEgress =>
    have hev := unnamed_of hname (eventRx_unbind_other hP fb1 .egress (hne fb2 h2) hknown)
    rcases he : eventRx t fb1 (.unbindIdp .egress (t.idp fb2)) with ⟨_ | _, t'⟩
    all_goals
      rw [he] at hev
      exact ⟨hev, hall _ (by simp [BindPc.blocks])⟩
  case subscribe1 =>
    rcases al.fn1
    · exact ⟨⟨P, hP, hname⟩, hblocks⟩
    · rw [subscribe_eq]
      exact ⟨⟨P, hP, hname⟩, hblocks⟩
  case subscribe2 =>
    rcases al.fn2
    · exact ⟨⟨P, hP, hname⟩, hblocks⟩
    · rw [subscribe_eq]
      exact ⟨⟨P, hP, hname⟩, by simp [BindPc.blocks]⟩
  case unbindIngress =>
    have hev := unnamed_of hname (eventRx_unbind_other hP fb2 .ingress (hne fb1 h1) hknown)
    rcases he : eventRx t fb2 (.unbindIdp .ingress (t.idp fb1)) with ⟨_ | _, t'⟩
    all_goals
      rw [he] at hev
      exact ⟨hev, hall _ (by simp [BindPc.blocks])⟩
  case unsubscribe1 => exact ⟨⟨P, hP.unlink fb1 fb2, hname⟩, hblocks⟩
  case unput1 => exact ⟨⟨P, hP.putFblock fb1, hname⟩, hblocks⟩
  case unput2 => exact ⟨⟨P, hP.putFblock fb2, hname⟩, hblocks⟩
  case unsubscribe2 =>
    exact ⟨⟨P, hP.unlink fb2 fb1, hname⟩, by simp [BindPc.blocks]⟩

theorem step (h : Uninvolved s A t q) (hT : Tables s.registry) (hA : s.registry.Has A)
    (hknown : s.idp A ≠ idpUnknown) (hidp : t.idp = s.idp)
    (hlook : ∀ n ∈ q.looksUp name1 name2, ∀ fb, t.lookup n = some fb →
      s.registry.Has fb ∧ fb ≠ A) :
    Uninvolved s A (q.step al name1 name2 t).1 (q.step al name1 name2 t).2 := by
  obtain ⟨P, hP, hname⟩ := h.unnamed
  cases q with
  | lookup1 =>
    rcases hl : t.lookup name1 with _ | fb
    · simp only [BindPc.step, searchFblockN_none hl]
      exact ⟨h.unnamed, by simp [BindPc.blocks]⟩
    · simp only [BindPc.step, searchFblockN_some hl]
      refine ⟨⟨P, hP, hname⟩, ?_⟩
      simpa [BindPc.blocks] using hlook name1 rfl fb hl
  | lookup2 fb1 =>
    rcases hl : t.lookup name2 with _ | fb
    · simp only [BindPc.step, searchFblockN_none hl]
      exact ⟨h.unnamed, by simp [BindPc.blocks]⟩
    · simp only [BindPc.step, searchFblockN_some hl]
      refine ⟨⟨P, hP, hname⟩, ?_⟩
      have hfb := hlook name2 rfl fb hl
      have hblocks := h.blocks
      simp only [BindPc.blocks, List.mem_cons, List.not_mem_nil, or_false] at hblocks ⊢
      rintro x (rfl | rfl)
      · exact hblocks x rfl
      · exact hfb
  | puts fbs ret =>
    cases fbs with
    | nil => exact h
    | cons fb fbs =>
      simp only [BindPc.step]
      exact ⟨⟨P, hP.putFblock fb, hname⟩, by simp [BindPc.blocks]⟩
  | «at» stage fb1 fb2 => exact h.stage_step hT hA hknown hidp

end Uninvolved

/-! ## The ports of a binding under way -/

section Ways

variable (s : State) (P : Addr → Ports) (fb1 fb2 : Addr)

/-- The first block has taken its port. -/
def HalfBound (P' : Addr → Ports) : Prop :=
  ∃ Q, (P fb1).bind (s.ops fb1) .egress (s.idp fb2) = some Q ∧ P' = Function.update P fb1 Q

/-- Both blocks have taken their ports. -/
def FullyBound (P' : Addr → Ports) : Prop :=
  ∃ P1 Q, HalfBound s P fb1 fb2 P1 ∧ (P1 fb2).bind (s.ops fb2) .ingress (s.idp fb1) = some Q ∧
    P' = Function.update P1 fb2 Q

/-- The first block has given its port back. -/
def HalfUndone (P' : Addr → Ports) : Prop :=
  ∃ P2 Q, FullyBound s P fb1 fb2 P2 ∧ (P2 fb1).unbind (s.ops fb1) .egress (s.idp fb2) = some Q ∧
    P' = Function.update P2 fb1 Q

/-- As many ports name a block as before. -/
def SameNaming (P' : Addr → Ports) : Prop :=
  ∀ N j, j ≠ idpUnknown → (P' N).naming j = (P N).naming j

variable {s P fb1 fb2} {P' : Addr → Ports} {j : Idp}

theorem HalfBound.naming (h : HalfBound s P fb1 fb2 P') (hj : j ≠ idpUnknown) (N : Addr) :
    (P' N).naming j = (P N).naming j + if N = fb1 ∧ s.idp fb2 = j then 1 else 0 := by
  obtain ⟨Q, hQ, rfl⟩ := h
  exact naming_of_bind hQ hj N

theorem FullyBound.naming (h : FullyBound s P fb1 fb2 P') (hj : j ≠ idpUnknown) (N : Addr) :
    (P' N).naming j = (P N).naming j + (if N = fb1 ∧ s.idp fb2 = j then 1 else 0) +
      if N = fb2 ∧ s.idp fb1 = j then 1 else 0 := by
  obtain ⟨P1, Q, h1, hQ, rfl⟩ := h
  rw [naming_of_bind hQ hj N, h1.naming hj]

theorem HalfUndone.naming (h : HalfUndone s P fb1 fb2 P') (hj : j ≠ idpUnknown) (N : Addr) :
    (P' N).naming j = (P N).naming j + if N = fb2 ∧ s.idp fb1 = j then 1 else 0 := by
  obtain ⟨P2, Q, h2, hQ, rfl⟩ := h
  have := naming_of_unbind hQ hj N
  rw [h2.naming hj] at this
  omega

theorem HalfBound.undone {Q : Ports} (h : HalfBound s P fb1 fb2 P')
    (hQ : (P' fb1).unbind (s.ops fb1) .egress (s.idp fb2) = some Q) :
    SameNaming P (Function.update P' fb1 Q) := by
  intro N j hj
  have := naming_of_unbind hQ hj N
  rw [h.naming hj] at this
  omega

theorem HalfUndone.undone {Q : Ports} (h : HalfUndone s P fb1 fb2 P')
    (hQ : (P' fb2).unbind (s.ops fb2) .ingress (s.idp fb1) = some Q) :
    SameNaming P (Function.update P' fb2 Q) := by
  intro N j hj
  have := naming_of_unbind hQ hj N
  rw [h.naming hj] at this
  omega

/-- The second block gives its port back: the first one has left that port alone. -/
theorem HalfUndone.accepted (h : HalfUndone s P fb1 fb2 P') (hknown : s.idp fb1 ≠ idpUnknown) :
    (P' fb2).unbind (s.ops fb2) .ingress (s.idp fb1) ≠ none := by
  obtain ⟨P2, Q3, ⟨P1, Q2, h1, hQ2, rfl⟩, hQ3, rfl⟩ := h
  intro hnone
  by_cases hfb : fb2 = fb1
  · subst hfb
    rw [Function.update_self] at hnone hQ3
    obtain ⟨hport, hclone⟩ := Ports.unbind_eq_none hnone
    -- the egress port of a block bound to itself is free again
    have hegress : Q3.port .egress ≠ s.idp fb2 := by
      rcases Ports.port_unbind hQ3 .egress with ⟨heq, hne⟩ | ⟨-, -, hfree⟩
      · rw [heq]
        exact fun he => hne ⟨rfl, he⟩
      · rw [hfree]
        exact hknown.symm
    have hingress : Q3.port .ingress = Q2.port .ingress := by
      rcases Ports.port_unbind hQ3 .ingress with ⟨heq, -⟩ | ⟨hd, -⟩
      · exact heq
      · cases hd
    by_cases ht : s.ops fb2 = .tee
    · have hone : 1 ≤ Q3.naming (s.idp fb2) := by
        have hu := Ports.naming_unbind hQ3 hknown
        have hb := Ports.naming_bind hQ2 hknown
        have hb1 := h1.naming hknown fb2
        rw [if_pos rfl] at hu hb
        rw [if_pos ⟨rfl, rfl⟩] at hb1
        omega
      unfold Ports.naming at hone
      rw [if_neg hport, if_neg hegress, if_neg (hclone ht)] at hone
      omega
    · exact hport (hingress.trans (Ports.port_bind_two ht hQ2))
  · rw [Function.update_of_ne hfb, Function.update_self] at hnone
    obtain ⟨R, hR⟩ := Ports.unbind_of_bind hQ2
    rw [hR] at hnone
    cases hnone

end Ways

/-! ## A binding while the block is registered -/

/-- The references that `__fblock_bind` has added to the two blocks, those for ports and nodes
included. -/
def BindStage.owed (fn1 : Bool) : BindStage → ℤ × ℤ
  | .get1 => (1, 1)
  | .get2 => (2, 1)
  | .bindEgress | .bindIngress | .rollback | .subscribe1 => (2, 2)
  | .subscribe2 => (3, 3)
  | .unbindEgress | .unbindIngress | .unsubscribe1 => if fn1 then (3, 3) else (2, 2)
  | .unput1 => (3, 3)
  | .unput2 => (2, 3)
  | .unsubscribe2 => (2, 2)

/-- The ports at a stage of `__fblock_bind`. -/
def BindStage.PortsAt (s : State) (P : Addr → Ports) (fb1 fb2 : Addr) (P' : Addr → Ports) :
    BindStage → Prop
  | .get1 | .get2 | .bindEgress => P' = P
  | .bindIngress | .rollback => HalfBound s P fb1 fb2 P'
  | .subscribe1 | .subscribe2 | .unbindEgress => FullyBound s P fb1 fb2 P'
  | .unbindIngress => HalfUndone s P fb1 fb2 P'
  | .unsubscribe1 | .unput1 | .unput2 | .unsubscribe2 => SameNaming P P'

/-- The lists while an out of memory binding is undone. -/
def Undoing (al : Alloc) (s : State) (fb1 fb2 : Addr) (l : Lists) : Prop :=
  s.notifiers fb2 = [] ∧ if al.fn1 then l = s.lists.link (s.idp fb2) fb1 fb2
    else l = s.lists ∧ s.notifiers fb1 = []

/-- The lists at a stage of `__fblock_bind`. -/
def BindStage.ListsAt (al : Alloc) (s : State) (fb1 fb2 : Addr) (l : Lists) : BindStage → Prop
  | .get1 | .get2 | .bindEgress | .bindIngress | .rollback | .subscribe1 => l = s.lists
  | .subscribe2 => al.fn1 = true ∧ l = s.lists.link (s.idp fb2) fb1 fb2
  | .unbindEgress | .unbindIngress | .unsubscribe1 => Undoing al s fb1 fb2 l
  | .unput1 | .unput2 | .unsubscribe2 => l.notifiers fb2 = []

/-- The references to `A` among those still to be put. -/
def refsTo (A : Addr) (fbs : List Addr) : ℤ := (fbs.map fun fb => ref fb A).sum

theorem refsTo_nonneg (A : Addr) (fbs : List Addr) : 0 ≤ refsTo A fbs :=
  List.sum_nonneg (by simpa using fun fb _ => ref_nonneg fb A)

theorem refsTo_nil (A : Addr) : refsTo A [] = 0 := rfl

theorem refsTo_cons (A fb : Addr) (fbs : List Addr) :
    refsTo A (fb :: fbs) = ref fb A + refsTo A fbs := by
  simp [refsTo]

section Stages

variable (al : Alloc) (name1 name2 : Name) (s : State) (P : Addr → Ports) (A : Addr)

/-- What is known at a stage of `__fblock_bind` that began in the state `s`; `δ` references to `A`
are in other hands. -/
structure StageAt (t : State) (δ : ℤ) (fb1 fb2 : Addr) (stage : BindStage) : Prop where
  found : s.lookup name1 = some fb1 ∧ s.lookup name2 = some fb2
  ports : ∃ P', Copies t P' ∧ stage.PortsAt s P fb1 fb2 P'
  lists : stage.ListsAt al s fb1 fb2 t.lists
  count : t.refcnt A = s.refcnt A + δ +
    ((stage.owed al.fn1).1 * ref fb1 A + (stage.owed al.fn1).2 * ref fb2 A)

/-- The binding is over but for the references to `fbs`: what else is counted covers the ports. -/
structure Settled (t : State) (δ : ℤ) (fbs : List Addr) : Prop where
  covered : ∃ P' b, Copies t P' ∧ t.refcnt A = b + δ + refsTo A fbs ∧ 1 ≤ b ∧
    ((∃ N, s.registry.Has N ∧ 1 ≤ (P' N).naming (s.idp A)) → 2 ≤ b)

/-- What is known of a binding while `A` is registered. -/
inductive BindAt (t : State) (δ : ℤ) : BindPc → Prop
  | lookup1 (hP : Copies t P) (hl : t.lists = s.lists) (hr : t.refcnt A = s.refcnt A + δ) :
      BindAt t δ .lookup1
  | lookup2 {fb1 : Addr} (h1 : s.lookup name1 = some fb1) (hP : Copies t P)
      (hl : t.lists = s.lists) (hr : t.refcnt A = s.refcnt A + δ + ref fb1 A) :
      BindAt t δ (.lookup2 fb1)
  | stage {stage : BindStage} {fb1 fb2 : Addr}
      (h : StageAt al name1 name2 s P A t δ fb1 fb2 stage) : BindAt t δ (.at stage fb1 fb2)
  | puts {fbs : List Addr} {ret : Ret} (h : Settled s A t δ fbs) : BindAt t δ (.puts fbs ret)

variable {al name1 name2 s P A} {t : State} {δ : ℤ} {fb1 fb2 : Addr} {q : BindPc}

theorem Settled.of_naming (hC : Covered s A) (hP : Copies s P) {P' : Addr → Ports}
    (hP' : Copies t P') {fbs : List Addr} {k : ℤ} (hk : 0 ≤ k)
    (hr : t.refcnt A = s.refcnt A + δ + k + refsTo A fbs)
    (hn : ∀ N, 1 ≤ (P' N).naming (s.idp A) → 1 ≤ (P N).naming (s.idp A) ∨ 1 ≤ k) :
    Settled s A t δ fbs := by
  have hheld := hC.held
  refine ⟨P', s.refcnt A + k, hP', by rw [hr]; ring, by omega, ?_⟩
  rintro ⟨N, hN, hpos⟩
  rcases hn N hpos with h | h
  · have := hC.named ((names_iff hP _).2 ⟨N, hN, h⟩)
    omega
  · omega

/-- With the ports as before the binding nothing more is needed. -/
theorem Settled.of_same (hC : Covered s A) (hP : Copies s P) {P' : Addr → Ports}
    (hP' : Copies t P') (hsame : SameNaming P P') {fbs : List Addr}
    (hr : t.refcnt A = s.refcnt A + δ + refsTo A fbs) : Settled s A t δ fbs :=
  .of_naming hC hP hP' (le_refl 0) (by rw [hr]; ring) fun N h => .inl (hsame N _ hC.known ▸ h)

/-- Both blocks of a binding under way accept its events. -/
theorem FullyBound.binds {P' : Addr → Ports} (h : FullyBound s P fb1 fb2 P') (hP : Copies s P) :
    Lana.binds s fb1 fb2 := by
  obtain ⟨P1, Q2, ⟨Q1, h1, rfl⟩, h2, -⟩ := h
  unfold Lana.binds
  rcases eventRx_bind hP fb1 .egress (s.idp fb2) with ⟨hnone, -⟩ | ⟨Q, pd, hQ, e, hPQ, -⟩
  · rw [h1] at hnone
    cases hnone
  obtain rfl : Q1 = Q := Option.some.inj (h1.symm.trans hQ)
  rw [e]
  rcases eventRx_bind hPQ fb2 .ingress (s.idp fb1) with ⟨hnone, -⟩ | ⟨Q, pd', -, e', -⟩
  · exact absurd (h2.symm.trans hnone) (Option.some_ne_none _)
  · exact ⟨rfl, congrArg Prod.fst e'⟩

/-- With ports taken by the two blocks, references to them must be left. -/
theorem Settled.of_bound (hC : Covered s A) (hP : Copies s P) (hT : Tables s.registry)
    (hA : s.registry.Has A) (h1 : s.registry.Has fb1) (h2 : s.registry.Has fb2)
    {P' : Addr → Ports} (hP' : Copies t P') {fbs : List Addr} {k : ℤ}
    (hk : ref fb1 A + ref fb2 A ≤ k) (hr : t.refcnt A = s.refcnt A + δ + k + refsTo A fbs)
    (hle : ∀ N, (P' N).naming (s.idp A) ≤ (P N).naming (s.idp A) +
      (if N = fb1 ∧ s.idp fb2 = s.idp A then 1 else 0) +
      if N = fb2 ∧ s.idp fb1 = s.idp A then 1 else 0) : Settled s A t δ fbs := by
  have hn1 := ref_nonneg fb1 A
  have hn2 := ref_nonneg fb2 A
  refine .of_naming hC hP hP' (by omega) hr fun N hpos => ?_
  have hN := hle N
  by_cases hfb2 : s.idp fb2 = s.idp A
  · obtain rfl := hT.idp_inj h2 hA hfb2
    rw [ref_self] at hk
    exact .inr (by omega)
  · by_cases hfb1 : s.idp fb1 = s.idp A
    · obtain rfl := hT.idp_inj h1 hA hfb1
      rw [ref_self] at hk
      exact .inr (by omega)
    · rw [if_neg fun h => hfb2 h.2, if_neg fun h => hfb1 h.2] at hN
      exact .inl (by omega)

/-! ### One stage after the other -/

variable (al name1 name2 s P A) in
/-- The stage leads to a point of the call at which as much is known. -/
abbrev LeadsOn (t : State) (δ : ℤ) (fb1 fb2 : Addr) (stage : BindStage) : Prop :=
  BindAt al name1 name2 s P A (stage.step al t fb1 fb2).1 δ (stage.step al t fb1 fb2).2

namespace StageAt

theorem bindEgress (h : StageAt al name1 name2 s P A t δ fb1 fb2 .bindEgress) (hP : Copies s P)
    (hC : Covered s A) (hreg : t.registry = s.registry) :
    LeadsOn al name1 name2 s P A t δ fb1 fb2 .bindEgress := by
  obtain ⟨hfound, ⟨P', hP', hports⟩, hlists, hcount⟩ := h
  obtain rfl : P' = P := hports
  simp only [LeadsOn, BindStage.step]
  rcases eventRx_bind hP' fb1 .egress (t.idp fb2) with ⟨-, e⟩ | ⟨Q, pd, hQ, e, hPQ, -⟩
  · rw [e]
    refine .puts (.of_same hC hP hP' (fun _ _ _ => rfl) ?_)
    rw [hcount]
    simp only [BindStage.owed, refsTo_cons, refsTo_nil]
    ring
  · rw [e]
    rw [show t.idp = s.idp from congrArg Registry.idp hreg,
      show t.ops = s.ops from congrArg Registry.ops hreg] at hQ
    exact .stage ⟨hfound, ⟨_, hPQ, Q, hQ, rfl⟩, hlists, hcount⟩

theorem bindIngress (h : StageAt al name1 name2 s P A t δ fb1 fb2 .bindIngress)
    (hreg : t.registry = s.registry) :
    LeadsOn al name1 name2 s P A t δ fb1 fb2 .bindIngress := by
  obtain ⟨hfound, ⟨P', hP', hports⟩, hlists, hcount⟩ := h
  simp only [LeadsOn, BindStage.step]
  rcases eventRx_bind hP' fb2 .ingress (t.idp fb1) with ⟨-, e⟩ | ⟨Q, pd, hQ, e, hPQ, -⟩
  · rw [e]
    exact .stage ⟨hfound, ⟨P', hP', hports⟩, hlists, hcount⟩
  · rw [e]
    rw [show t.idp = s.idp from congrArg Registry.idp hreg,
      show t.ops = s.ops from congrArg Registry.ops hreg] at hQ
    exact .stage ⟨hfound, ⟨_, hPQ, P', Q, hports, hQ, rfl⟩, hlists, hcount⟩

theorem rollback (h : StageAt al name1 name2 s P A t δ fb1 fb2 .rollback)
    (hT : Tables s.registry) (hP : Copies s P) (hA : s.registry.Has A) (hC : Covered s A)
    (hreg : t.registry = s.registry) : LeadsOn al name1 name2 s P A t δ fb1 fb2 .rollback := by
  obtain ⟨hfound, ⟨P', hP', hports⟩, -, hcount⟩ := h
  have hhalf : HalfBound s P fb1 fb2 P' := hports
  simp only [LeadsOn, BindStage.step]
  rcases eventRx_unbind hP' fb1 .egress (t.idp fb2) with ⟨-, e⟩ | ⟨Q, pd, hQ, e, hPQ, -⟩
  · rw [e]
    have hpanic : Copies { t with panicked := true } P' := hP'
    refine .puts (.of_bound hC hP hT hA (has_of_lookup hfound.1) (has_of_lookup hfound.2) hpanic
      (le_refl _) ?_ fun N => ?_)
    · show t.refcnt A = _
      rw [hcount]
      simp only [BindStage.owed, refsTo_cons, refsTo_nil]
      ring
    · rw [hhalf.naming hC.known]
      omega
  · rw [e]
    rw [show t.idp = s.idp from congrArg Registry.idp hreg,
      show t.ops = s.ops from congrArg Registry.ops hreg] at hQ
    refine .puts (.of_same hC hP hPQ (hhalf.undone hQ) ?_)
    rw [refcnt_withPriv, hcount]
    simp only [BindStage.owed, refsTo_cons, refsTo_nil]
    ring

theorem subscribe1 (h : StageAt al name1 name2 s P A t δ fb1 fb2 .subscribe1) (hP : Copies s P)
    (hroll : RollsBack al s fb1 fb2) (hreg : t.registry = s.registry) :
    LeadsOn al name1 name2 s P A t δ fb1 fb2 .subscribe1 := by
  obtain ⟨hfound, ⟨P', hP', hports⟩, hlists, hcount⟩ := h
  have hbound : FullyBound s P fb1 fb2 P' := hports
  have hl : t.lists = s.lists := hlists
  have hundo := hroll (hbound.binds hP)
  simp only [LeadsOn, BindStage.step]
  rcases hfn1 : al.fn1
  · refine .stage ⟨hfound, ⟨P', hP', hports⟩, ⟨hundo.2 (.inl hfn1), ?_⟩, ?_⟩
    · rw [hfn1]
      exact ⟨hl, hundo.1 hfn1⟩
    · show t.refcnt A = _
      rw [hcount, hfn1]
      rfl
  · rw [subscribe_eq]
    refine .stage ⟨hfound, ⟨P', hP', hports⟩, ⟨hfn1, ?_⟩, ?_⟩
    · show t.lists.link (t.idp fb2) fb1 fb2 = _
      rw [hl, show t.idp = s.idp from congrArg Registry.idp hreg]
    · rw [addRefs_refcnt, refcnt_link, hcount]
      simp only [BindStage.owed, Pi.add_apply]
      ring

theorem subscribe2 (h : StageAt al name1 name2 s P A t δ fb1 fb2 .subscribe2)
    (hT : Tables s.registry) (hP : Copies s P) (hA : s.registry.Has A) (hC : Covered s A)
    (hroll : RollsBack al s fb1 fb2) : LeadsOn al name1 name2 s P A t δ fb1 fb2 .subscribe2 := by
  obtain ⟨hfound, ⟨P', hP', hports⟩, ⟨hfn1, hl⟩, hcount⟩ := h
  have hbound : FullyBound s P fb1 fb2 P' := hports
  have hundo := hroll (hbound.binds hP)
  simp only [LeadsOn, BindStage.step]
  rcases hfn2 : al.fn2
  · refine .stage ⟨hfound, ⟨P', hP', hports⟩, ⟨hundo.2 (.inr hfn2), ?_⟩, ?_⟩
    · rw [hfn1]
      exact hl
    · show t.refcnt A = _
      rw [hcount, hfn1]
      rfl
  · rw [subscribe_eq]
    have hPs : Copies ((t.link fb2 fb1).addRefs (ref fb2 + ref fb1)) P' := hP'
    have hn1 := ref_nonneg fb1 A
    have hn2 := ref_nonneg fb2 A
    have hk : ref fb1 A + ref fb2 A ≤ 3 * (ref fb1 A + ref fb2 A) := by omega
    refine .puts (.of_bound hC hP hT hA (has_of_lookup hfound.1) (has_of_lookup hfound.2) hPs hk ?_
      fun N => ?_)
    · rw [addRefs_refcnt, refcnt_link, hcount]
      simp only [BindStage.owed, refsTo_cons, refsTo_nil, Pi.add_apply]
      ring
    · rw [hbound.naming hC.known]

theorem unbindEgress (h : StageAt al name1 name2 s P A t δ fb1 fb2 .unbindEgress)
    (hT : Tables s.registry) (hP : Copies s P) (hA : s.registry.Has A) (hC : Covered s A)
    (hreg : t.registry = s.registry) :
    LeadsOn al name1 name2 s P A t δ fb1 fb2 .unbindEgress := by
  obtain ⟨hfound, ⟨P', hP', hports⟩, hlists, hcount⟩ := h
  have hbound : FullyBound s P fb1 fb2 P' := hports
  have hn1 := ref_nonneg fb1 A
  have hn2 := ref_nonneg fb2 A
  simp only [LeadsOn, BindStage.step]
  rcases eventRx_unbind hP' fb1 .egress (t.idp fb2) with ⟨-, e⟩ | ⟨Q, pd, hQ, e, hPQ, -⟩
  · rw [e]
    obtain ⟨k, hk, hcount⟩ : ∃ k : ℤ, ref fb1 A + ref fb2 A ≤ k ∧ t.refcnt A =
        s.refcnt A + δ + k + (ref fb1 A + ref fb2 A) := by
      rcases hfn1 : al.fn1
      · exact ⟨_, le_refl _, by rw [hcount, hfn1]; simp [BindStage.owed]; ring⟩
      · exact ⟨2 * (ref fb1 A + ref fb2 A), by omega,
          by rw [hcount, hfn1]; simp [BindStage.owed]; ring⟩
    refine .puts (.of_bound hC hP hT hA (has_of_lookup hfound.1) (has_of_lookup hfound.2) hP' hk ?_
      fun N => ?_)
    · rw [hcount]
      simp only [refsTo_cons, refsTo_nil]
      ring
    · rw [hbound.naming hC.known]
  · rw [e]
    rw [show t.idp = s.idp from congrArg Registry.idp hreg,
      show t.ops = s.ops from congrArg Registry.ops hreg] at hQ
    exact .stage ⟨hfound, ⟨_, hPQ, P', Q, hports, hQ, rfl⟩, hlists, hcount⟩

theorem unbindIngress (h : StageAt al name1 name2 s P A t δ fb1 fb2 .unbindIngress)
    (hP : Copies s P) (hC : Covered s A) (hreg : t.registry = s.registry) :
    LeadsOn al name1 name2 s P A t δ fb1 fb2 .unbindIngress := by
  obtain ⟨hfound, ⟨P', hP', hports⟩, hlists, hcount⟩ := h
  have hhalf : HalfUndone s P fb1 fb2 P' := hports
  have hidp : t.idp = s.idp := congrArg Registry.idp hreg
  have hops : t.ops = s.ops := congrArg Registry.ops hreg
  have hn1 := ref_nonneg fb1 A
  have hn2 := ref_nonneg fb2 A
  simp only [LeadsOn, BindStage.step]
  rcases eventRx_unbind hP' fb2 .ingress (t.idp fb1) with ⟨hnone, e⟩ | ⟨Q, pd, hQ, e, hPQ, -⟩
  · -- refused only where the first block is another one
    have hne : s.idp fb1 ≠ s.idp A := by
      intro heq
      rw [hidp, hops] at hnone
      exact hhalf.accepted (heq ▸ hC.known) hnone
    rw [e]
    obtain ⟨k, hk, hcount⟩ : ∃ k : ℤ, 0 ≤ k ∧ t.refcnt A =
        s.refcnt A + δ + k + (2 * ref fb1 A + ref fb2 A) := by
      rcases hfn1 : al.fn1
      · exact ⟨ref fb2 A, hn2, by rw [hcount, hfn1]; simp [BindStage.owed]; ring⟩
      · exact ⟨ref fb1 A + 2 * ref fb2 A, by omega,
          by rw [hcount, hfn1]; simp [BindStage.owed]; ring⟩
    refine .puts (.of_naming hC hP hP' hk ?_ fun N hpos => .inl ?_)
    · rw [hcount]
      simp only [refsTo_cons, refsTo_nil]
      ring
    · rw [hhalf.naming hC.known, if_neg fun h => hne h.2] at hpos
      exact hpos
  · rw [e]
    rw [hidp, hops] at hQ
    exact .stage ⟨hfound, ⟨_, hPQ, hhalf.undone hQ⟩, hlists, hcount⟩

theorem unsubscribe1 (h : StageAt al name1 name2 s P A t δ fb1 fb2 .unsubscribe1)
    (hreg : t.registry = s.registry) :
    LeadsOn al name1 name2 s P A t δ fb1 fb2 .unsubscribe1 := by
  obtain ⟨hfound, ⟨P', hP', hports⟩, ⟨hnil2, hl⟩, hcount⟩ := h
  have hlu : (t.unlink fb1 fb2).lists = t.lists.unlink (s.idp fb2) fb1 fb2 := by
    rw [lists_unlink, show t.idp = s.idp from congrArg Registry.idp hreg]
  have hcopies := hP'.unlink fb1 fb2
  simp only [LeadsOn, BindStage.step]
  rcases hfn1 : al.fn1
  · rw [hfn1] at hl
    have hnil : t.lists.notifiers fb1 = [] := by
      rw [hl.1]
      exact hl.2
    rw [if_pos (show t.notifiers fb1 = [] from hnil)]
    refine .stage ⟨hfound, ⟨P', hcopies, hports⟩, ?_, ?_⟩
    · show (t.unlink fb1 fb2).lists.notifiers fb2 = []
      rw [hlu, Lists.unlink_of_nil hnil, hl.1]
      exact hnil2
    · rw [refcnt_unlink, hcount, hfn1]
      rfl
  · rw [hfn1] at hl
    have hl : t.lists = s.lists.link (s.idp fb2) fb1 fb2 := hl
    have hne : t.lists.notifiers fb1 ≠ [] := by
      rw [hl]
      show Function.update s.notifiers fb1 _ fb1 ≠ []
      rw [Function.update_self]
      exact List.cons_ne_nil _ _
    rw [if_neg (show ¬ t.notifiers fb1 = [] from hne)]
    refine .stage ⟨hfound, ⟨P', hcopies, hports⟩, ?_, ?_⟩
    · show (t.unlink fb1 fb2).lists.notifiers fb2 = []
      rw [hlu, hl, Lists.unlink_link]
      exact hnil2
    · rw [refcnt_unlink, hcount, hfn1]
      rfl

theorem step {stage : BindStage} (h : StageAt al name1 name2 s P A t δ fb1 fb2 stage)
    (hT : Tables s.registry) (hP : Copies s P) (hA : s.registry.Has A) (hC : Covered s A)
    (hroll : RollsBack al s fb1 fb2) (hreg : t.registry = s.registry) :
    LeadsOn al name1 name2 s P A t δ fb1 fb2 stage := by
  cases stage with
  | bindEgress => exact h.bindEgress hP hC hreg
  | bindIngress => exact h.bindIngress hreg
  | rollback => exact h.rollback hT hP hA hC hreg
  | subscribe1 => exact h.subscribe1 hP hroll hreg
  | subscribe2 => exact h.subscribe2 hT hP hA hC hroll
  | unbindEgress => exact h.unbindEgress hT hP hA hC hreg
  | unbindIngress => exact h.unbindIngress hP hC hreg
  | unsubscribe1 => exact h.unsubscribe1 hreg
  | unsubscribe2 =>
    obtain ⟨hfound, ⟨P', hP', hports⟩, hlists, hcount⟩ := h
    have hnil : t.notifiers fb2 = [] := hlists
    simp only [LeadsOn, BindStage.step]
    rw [if_pos hnil]
    refine .puts (.of_same hC hP (hP'.unlink fb2 fb1) hports ?_)
    rw [refcnt_unlink, hcount]
    simp only [BindStage.owed, List.nil_append, refsTo_cons, refsTo_nil]
    ring
  | get1 | get2 =>
    obtain ⟨hfound, ⟨P', hP', hports⟩, hlists, hcount⟩ := h
    simp only [LeadsOn, BindStage.step]
    rw [getFblock_eq]
    refine .stage ⟨hfound, ⟨P', hP', hports⟩, hlists, ?_⟩
    rw [addRefs_refcnt, hcount]
    simp only [BindStage.owed]
    ring
  | unput1 | unput2 =>
    obtain ⟨hfound, ⟨P', hP', hports⟩, hlists, hcount⟩ := h
    simp only [LeadsOn, BindStage.step]
    refine .stage ⟨hfound, ⟨P', hP'.putFblock _, hports⟩, ?_, ?_⟩
    · show (putFblock t _).lists.notifiers fb2 = []
      rw [lists_putFblock]
      exact hlists
    · rw [refcnt_putFblock, Pi.sub_apply, hcount]
      simp only [BindStage.owed]
      ring

end StageAt

theorem BindAt.step (h : BindAt al name1 name2 s P A t δ q) (hT : Tables s.registry)
    (hP : Copies s P) (hA : s.registry.Has A) (hC : Covered s A)
    (hroll : ∀ fb1 fb2, s.lookup name1 = some fb1 → s.lookup name2 = some fb2 →
      RollsBack al s fb1 fb2) (hreg : t.registry = s.registry) :
    BindAt al name1 name2 s P A (q.step al name1 name2 t).1 δ (q.step al name1 name2 t).2 := by
  cases h with
  | lookup1 hP' hl hr =>
    rcases hlook : t.lookup name1 with _ | fb1
    · simp only [BindPc.step, searchFblockN_none hlook]
      exact .puts (.of_same hC hP hP' (fun _ _ _ => rfl) (by rw [hr]; simp [refsTo]))
    · simp only [BindPc.step, searchFblockN_some hlook]
      rw [lookup_congr hreg] at hlook
      exact .lookup2 hlook hP' hl (by rw [addRefs_refcnt, hr])
  | @lookup2 fb1 h1 hP' hl hr =>
    rcases hlook : t.lookup name2 with _ | fb2
    · simp only [BindPc.step, searchFblockN_none hlook]
      exact .puts (.of_same hC hP hP' (fun _ _ _ => rfl) (by rw [hr]; simp [refsTo]))
    · simp only [BindPc.step, searchFblockN_some hlook]
      rw [lookup_congr hreg] at hlook
      refine .stage ⟨⟨h1, hlook⟩, ⟨P, hP', rfl⟩, hl, ?_⟩
      rw [addRefs_refcnt, hr]
      simp only [BindStage.owed]
      ring
  | @stage st fb1 fb2 h =>
    exact h.step hT hP hA hC (hroll fb1 fb2 h.found.1 h.found.2) hreg
  | @puts fbs ret h =>
    cases fbs with
    | nil => exact .puts h
    | cons fb fbs =>
      obtain ⟨P', b, hP', hr, hb, hnamed⟩ := h.covered
      simp only [BindPc.step]
      refine .puts ⟨P', b, hP'.putFblock fb, ?_, hb, hnamed⟩
      rw [refcnt_putFblock, Pi.sub_apply, hr, refsTo_cons]
      ring

/-- More references in other hands. -/
theorem BindAt.addRefs (h : BindAt al name1 name2 s P A t δ q) (ε : Addr → ℤ) :
    BindAt al name1 name2 s P A (t.addRefs ε) (δ + ε A) q := by
  cases h with
  | lookup1 hP' hl hr => exact .lookup1 hP' hl (by rw [addRefs_refcnt, hr]; ring)
  | lookup2 h1 hP' hl hr => exact .lookup2 h1 hP' hl (by rw [addRefs_refcnt, hr]; ring)
  | stage h => exact .stage ⟨h.found, h.ports, h.lists, by rw [addRefs_refcnt, h.count]; ring⟩
  | puts h =>
    obtain ⟨P', b, hP', hr, hb, hnamed⟩ := h.covered
    exact .puts ⟨P', b, hP', by rw [addRefs_refcnt, hr]; ring, hb, hnamed⟩

/-- At every stage the binding owes references to both blocks. -/
theorem BindStage.owed_pos (fn1 : Bool) (stage : BindStage) :
    1 ≤ (stage.owed fn1).1 ∧ 1 ≤ (stage.owed fn1).2 := by
  cases stage <;> cases fn1 <;> decide

/-- The ports of two other blocks do not name `A` more often. -/
theorem StageAt.naming_le {P' : Addr → Ports} {stage : BindStage}
    (h : stage.PortsAt s P fb1 fb2 P') (hknown : s.idp A ≠ idpUnknown)
    (h1 : s.idp fb1 ≠ s.idp A) (h2 : s.idp fb2 ≠ s.idp A) (N : Addr) :
    (P' N).naming (s.idp A) = (P N).naming (s.idp A) := by
  cases stage
  case get1 | get2 | bindEgress => rw [show P' = P from h]
  case bindIngress | rollback =>
    rw [HalfBound.naming h hknown, if_neg fun h => h2 h.2, add_zero]
  case subscribe1 | subscribe2 | unbindEgress =>
    rw [FullyBound.naming h hknown, if_neg fun h => h2 h.2, if_neg fun h => h1 h.2]
    simp only [add_zero]
  case unbindIngress => rw [HalfUndone.naming h hknown, if_neg fun h => h1 h.2, add_zero]
  case unsubscribe1 | unput1 | unput2 | unsubscribe2 => exact h N _ hknown

/-- Where only the table holds `A`, the binding has nothing to do with it. -/
theorem BindAt.uninvolved (h : BindAt al name1 name2 s P A t δ q) (hT : Tables s.registry)
    (hP : Copies s P) (hA : s.registry.Has A) (hC : Covered s A) (hcnt : t.refcnt A ≤ 1 + δ) :
    Uninvolved s A t q := by
  have hheld := hC.held
  have hnone : s.refcnt A ≤ 1 → ∀ N, s.registry.Has N → (P N).naming (s.idp A) = 0 := by
    intro hone N hN
    by_contra hne
    have := hC.named ((names_iff hP _).2 ⟨N, hN, by omega⟩)
    omega
  have hother : ∀ {fb : Addr}, ref fb A = 0 → fb ≠ A := by
    rintro fb hfb rfl
    rw [ref_self] at hfb
    cases hfb
  cases h with
  | lookup1 hP' hl hr => exact ⟨⟨P, hP', hnone (by omega)⟩, by simp [BindPc.blocks]⟩
  | @lookup2 fb1 h1 hP' hl hr =>
    have hn1 := ref_nonneg fb1 A
    refine ⟨⟨P, hP', hnone (by omega)⟩, ?_⟩
    simpa [BindPc.blocks] using ⟨has_of_lookup h1, hother (by omega)⟩
  | @stage st fb1 fb2 h =>
    obtain ⟨hfound, ⟨P', hP', hports⟩, -, hcount⟩ := h
    have hn1 := ref_nonneg fb1 A
    have hn2 := ref_nonneg fb2 A
    obtain ⟨hk1, hk2⟩ := st.owed_pos al.fn1
    have hm1 : ref fb1 A ≤ (st.owed al.fn1).1 * ref fb1 A := le_mul_of_one_le_left hn1 hk1
    have hm2 : ref fb2 A ≤ (st.owed al.fn1).2 * ref fb2 A := le_mul_of_one_le_left hn2 hk2
    have hb1 : s.registry.Has fb1 ∧ fb1 ≠ A := ⟨has_of_lookup hfound.1, hother (by omega)⟩
    have hb2 : s.registry.Has fb2 ∧ fb2 ≠ A := ⟨has_of_lookup hfound.2, hother (by omega)⟩
    refine ⟨⟨P', hP', fun N hN => ?_⟩, ?_⟩
    · rw [StageAt.naming_le hports hC.known (fun he => hb1.2 (hT.idp_inj hb1.1 hA he))
        (fun he => hb2.2 (hT.idp_inj hb2.1 hA he))]
      exact hnone (by omega) N hN
    · simpa [BindPc.blocks] using ⟨hb1, hb2⟩
  | @puts fbs ret h =>
    obtain ⟨P', b, hP', hr, hb, hnamed⟩ := h.covered
    have hrefs := refsTo_nonneg A fbs
    refine ⟨⟨P', hP', fun N hN => ?_⟩, by simp [BindPc.blocks]⟩
    by_contra hne
    have := hnamed ⟨N, hN, by omega⟩
    omega

end Stages

/-! ## Both clients -/

theorem registry_bindStep (al : Alloc) (name1 name2 : Name) (t : State) (q : BindPc) :
    (q.step al name1 name2 t).1.registry = t.registry := by
  cases q with
  | lookup1 =>
    rcases h : t.lookup name1 with _ | fb
    · simp only [BindPc.step, searchFblockN_none h]
    · simp only [BindPc.step, searchFblockN_some h, registry_addRefs]
  | lookup2 fb1 =>
    rcases h : t.lookup name2 with _ | fb
    · simp only [BindPc.step, searchFblockN_none h]
    · simp only [BindPc.step, searchFblockN_some h, registry_addRefs]
  | puts fbs ret =>
    cases fbs with
    | nil => rfl
    | cons fb fbs => exact registry_putFblock t fb
  | «at» stage fb1 fb2 =>
    have hev : ∀ fb ev r t', eventRx t fb ev = (r, t') → t'.registry = t.registry := by
      intro fb ev r t' h
      rw [← registry_eventRx t fb ev, h]
    have hsub : ∀ b us remote r t', subscribeToRemoteFblock b t us remote = (r, t') →
        t'.registry = t.registry := by
      intro b us remote r t' h
      rw [← registry_subscribe b t us remote, h]
    simp only [BindPc.step]
    cases stage <;> simp only [BindStage.step]
    case get1 | get2 => exact registry_getFblock ..
    case unsubscribe1 | unsubscribe2 => exact registry_unlink ..
    case unput1 | unput2 => exact registry_putFblock ..
    case subscribe1 | subscribe2 => split <;> next h => exact hsub _ _ _ _ _ h
    all_goals
      split <;> next h =>
        have hreg := hev _ _ _ _ h
        exact hreg

/-- `userctl_bind` does not look a block up that `userctl_remove` has found unused and has yet to
take out of the tables. -/
def Undisturbed (name1 name2 : Name) (c : Config State RmPc BindPc) (turn : Thread) : Prop :=
  turn = .second → ∀ fb ∈ c.first.removing, ∀ n ∈ c.second.looksUp name1 name2,
    c.shared.lookup n ≠ some fb

instance (name1 name2 : Name) (c : Config State RmPc BindPc) (turn : Thread) :
    Decidable (Undisturbed name1 name2 c turn) :=
  inferInstanceAs (Decidable (turn = .second → ∀ fb ∈ c.first.removing,
    ∀ n ∈ c.second.looksUp name1 name2, c.shared.lookup n ≠ some fb))

section Both

variable (al : Alloc) (name1 name2 : Name) (s : State) (P : Addr → Ports) (A : Addr)

/-- What is known while the two handlers run, by where `userctl_remove` stands: the references of
the binding are accounted for up to the test, after which the binding has nothing to do with `A`. -/
inductive Together : Config State RmPc BindPc → Prop
  | looking {t : State} {q : BindPc} (hreg : t.registry = s.registry)
      (h : BindAt al name1 name2 s P A t 0 q) : Together ⟨t, .lookup, q⟩
  | testing {t : State} {q : BindPc} (hreg : t.registry = s.registry)
      (h : BindAt al name1 name2 s P A t 1 q) : Together ⟨t, .test A, q⟩
  | removing {t : State} {q : BindPc} (hreg : t.registry = s.registry)
      (h : Uninvolved s A t q) : Together ⟨t, .remove A, q⟩
  | kept {t : State} {q : BindPc} {fbs : List Addr} {ret : Ret}
      (hreg : t.registry = s.registry) : Together ⟨t, .puts fbs ret, q⟩
  | removed {t : State} {q : BindPc} {fbs : List Addr} {ret : Ret}
      (hreg : t.registry = (unregisterFblockNamespaceNoRcu s A).registry)
      (h : Uninvolved s A t q) : Together ⟨t, .puts fbs ret, q⟩

variable {al name1 name2 s P A} {c : Config State RmPc BindPc} {name : Name}

/-- A step of `userctl_remove`. -/
theorem Together.first (h : Together al name1 name2 s P A c) (hT : Tables s.registry)
    (hP : Copies s P) (hA : s.lookup name = some A) (hC : Covered s A) :
    Together al name1 name2 s P A
      (step (RmPc.step name) (BindPc.step al name1 name2) c .first) := by
  simp only [step]
  cases h with
  | @looking t q hreg h =>
    have hlook : t.lookup name = some A := (lookup_congr hreg _).trans hA
    simp only [RmPc.step, searchFblockN_some hlook]
    refine .testing hreg ?_
    have := h.addRefs (ref A)
    rwa [ref_self, zero_add] at this
  | @testing t q hreg h =>
    simp only [RmPc.step]
    rcases t.factory A with _ | f
    · exact .kept hreg
    · by_cases hcnt : t.refcnt A > 2
      · simp only [if_pos hcnt]
        exact .kept hreg
      · simp only [if_neg hcnt]
        exact .removing hreg (h.uninvolved hT hP (has_of_lookup hA) hC (by omega))
  | @removing t q hreg h =>
    refine .removed ?_ (h.of_copies fun P' hP' => ?_)
    · exact registry_unregister_congr hreg A
    · obtain ⟨_, _, heq⟩ := unregisterNoRcu_frame t A
      simp only [RmPc.step, heq]
      exact hP'
  | @kept t q fbs ret hreg =>
    cases fbs with
    | nil => exact .kept hreg
    | cons fb fbs => exact .kept ((registry_putFblock t fb).trans hreg)
  | @removed t q fbs ret hreg h =>
    cases fbs with
    | nil => exact .removed hreg h
    | cons fb fbs =>
      exact .removed ((registry_putFblock t fb).trans hreg)
        (h.of_copies fun P' hP' => hP'.putFblock fb)

/-- A block found once `A` has left the tables is another one. -/
theorem lookup_unregistered {t : State} (hT : Tables s.registry)
    (hreg : t.registry = (unregisterFblockNamespaceNoRcu s A).registry) {i : Idp} {fb : Addr}
    (h : t.fblmap i = some fb) : s.registry.Has fb ∧ fb ≠ A := by
  rw [show t.fblmap = (unregisterFblockNamespaceNoRcu s A).fblmap from
    congrArg Registry.fblmap hreg, fblmap_unregisterNoRcu, Function.update_apply] at h
  split_ifs at h with hi
  refine ⟨⟨i, h⟩, ?_⟩
  rintro rfl
  exact hi (hT.stored i fb h).1.symm

/-- A step of `userctl_bind`. -/
theorem Together.second (h : Together al name1 name2 s P A c) (hT : Tables s.registry)
    (hP : Copies s P) (hA : s.registry.Has A) (hC : Covered s A)
    (hroll : ∀ fb1 fb2, s.lookup name1 = some fb1 → s.lookup name2 = some fb2 →
      RollsBack al s fb1 fb2) (hok : Undisturbed name1 name2 c .second) :
    Together al name1 name2 s P A
      (step (RmPc.step name) (BindPc.step al name1 name2) c .second) := by
  simp only [step]
  have hstep := registry_bindStep al name1 name2
  cases h with
  | @looking t q hreg h =>
    exact .looking ((hstep t q).trans hreg) (h.step hT hP hA hC hroll hreg)
  | @testing t q hreg h =>
    exact .testing ((hstep t q).trans hreg) (h.step hT hP hA hC hroll hreg)
  | @removing t q hreg h =>
    refine .removing ((hstep t q).trans hreg)
      (h.step hT hA hC.known (congrArg Registry.idp hreg) fun n hn fb hfb => ⟨?_, ?_⟩)
    · exact has_of_lookup ((lookup_congr hreg n).symm.trans hfb)
    · rintro rfl
      exact hok rfl fb rfl n hn hfb
  | @kept t q fbs ret hreg => exact .kept ((hstep t q).trans hreg)
  | @removed t q fbs ret hreg h =>
    have hidp : t.idp = s.idp := by
      obtain ⟨_, _, heq⟩ := unregisterNoRcu_frame s A
      rw [heq] at hreg
      exact congrArg Registry.idp hreg
    exact .removed ((hstep t q).trans hreg) (h.step hT hA hC.known hidp fun n _ fb hfb =>
      lookup_unregistered hT hreg hfb)

/-- What is known says where a port that names `A` leads. -/
theorem Together.registered (h : Together al name1 name2 s P A c) (hT : Tables s.registry)
    (hA : s.lookup name = some A) (hC : Covered s A) (hnames : c.shared.Names (s.idp A)) :
    c.shared.fblmap (s.idp A) = some A ∧ c.shared.registry.names name = some (s.idp A) := by
  have hsame : c.shared.registry = s.registry →
      c.shared.fblmap (s.idp A) = some A ∧ c.shared.registry.names name = some (s.idp A) := by
    intro hreg
    have hmap : s.fblmap (s.idp A) = some A := hT.fblmap_idp (has_of_lookup hA)
    refine ⟨(congrFun (congrArg Registry.fblmap hreg) _).trans hmap, ?_⟩
    rw [hreg]
    rw [lookup_eq] at hA
    have hi := (hT.stored _ A hA).1
    rcases hn : s.registry.names name with _ | i
    · rw [hn] at hi
      exact absurd hi hC.known
    · rw [hn] at hi
      exact congrArg some hi.symm
  cases h with
  | looking hreg _ => exact hsame hreg
  | testing hreg _ => exact hsame hreg
  | removing hreg _ => exact hsame hreg
  | kept hreg => exact hsame hreg
  | removed hreg h =>
    obtain ⟨P', hP', hzero⟩ := h.unnamed
    obtain ⟨N, ⟨i, hi⟩, hpos⟩ := (names_iff hP' _).1 hnames
    have := hzero N (lookup_unregistered hT hreg hi).1
    omega

end Both

/-- **Safety.** `userctl_remove` and `userctl_bind` run by two processes, step by step in any order
in which no lookup of the block falls between its test and its removal: in every state reached, a
port of a registered block that names the block names a block in both tables. -/
theorem remove_beside_bind (s : State) (A : Addr) (name name1 name2 : Name) (al : Alloc)
    (hT : Tables s.registry) (hP : ∃ P, Copies s P) (hA : s.lookup name = some A)
    (hC : Covered s A)
    (hroll : ∀ fb1 fb2, s.lookup name1 = some fb1 → s.lookup name2 = some fb2 →
      RollsBack al s fb1 fb2)
    (sched : List Thread)
    (hok : Transition.Allowed (step (RmPc.step name) (BindPc.step al name1 name2))
      (Undisturbed name1 name2) ⟨s, .lookup, .lookup1⟩ sched) :
    let t := (Interleave.run (RmPc.step name) (BindPc.step al name1 name2)
      ⟨s, .lookup, .lookup1⟩ sched).shared
    t.Names (s.idp A) → t.fblmap (s.idp A) = some A ∧ t.registry.names name = some (s.idp A) := by
  obtain ⟨P, hP⟩ := hP
  intro t hnames
  have hstep : ∀ c turn, Together al name1 name2 s P A c → Undisturbed name1 name2 c turn →
      Together al name1 name2 s P A
        (step (RmPc.step name) (BindPc.step al name1 name2) c turn) := by
    intro c turn h hok
    cases turn with
    | first => exact h.first hT hP hA hC
    | second => exact h.second hT hP (has_of_lookup hA) hC hroll hok
  have hinit : Together al name1 name2 s P A ⟨s, .lookup, .lookup1⟩ :=
    .looking rfl (.lookup1 hP rfl (add_zero _).symm)
  exact (Transition.invariant_of_allowed hstep hinit hok).registered hT hA hC hnames

/-- Two blocks `a` and `b`, not bound. -/
def twoBlocks : State :=
  run (State.init oneCpu) [.add nameA Factory.dummy.type .ok, .add nameB Factory.dummy.type .ok]

/-- The binding has both blocks in its hands before the removal tests the count. -/
def earlyLookup : List Thread :=
  [.first, .second, .second, .first, .second, .second, .second, .second, .second, .second, .first,
    .second, .second]

/-- The binding runs between the test of the count and the removal. -/
def lateLookup : List Thread :=
  [.first, .first, .second, .second, .second, .second, .second, .second, .second, .second, .second,
    .second, .first, .first, .first]

theorem remove_beside_bind_early :
    let c := Interleave.run (RmPc.step nameA) (BindPc.step .ok nameA nameB)
      ⟨twoBlocks, .lookup, .lookup1⟩ earlyLookup
    c.first = .puts [] (.err .EBUSY) ∧ c.second = .puts [] .ok ∧
      (c.shared.privateData 1 0).port .ingress = 1 ∧
      c.shared.fblmap 1 = some 0 ∧ c.shared.registry.names nameA = some 1 := by
  obtain ⟨P, hL⟩ : ∃ P, Linked twoBlocks P :=
    linked_run ⟨_, linked_init oneCpu⟩ (by decide)
  have hA : twoBlocks.lookup nameA = some 0 := by decide
  refine ⟨by decide, by decide, by decide, ?_⟩
  have hroll : ∀ fb1 fb2, RollsBack .ok twoBlocks fb1 fb2 := fun fb1 fb2 _ =>
    ⟨fun h => absurd h (by decide), fun h => absurd h (by decide)⟩
  exact remove_beside_bind twoBlocks 0 nameA nameA nameB .ok hL.tables ⟨P, hL.copies⟩ hA
    (hL.covered (has_of_lookup hA)) (fun fb1 fb2 _ _ => hroll fb1 fb2) earlyLookup (by decide)
    ⟨1, ⟨2, by decide⟩, 0, by decide, by decide⟩

/-- The count test passes, the binding runs to its end, and only then is the block removed: the port
of `b` names a block that is in neither table. -/
theorem remove_beside_bind_late :
    let c := Interleave.run (RmPc.step nameA) (BindPc.step .ok nameA nameB)
      ⟨twoBlocks, .lookup, .lookup1⟩ lateLookup
    twoBlocks.lookup nameA = some 0 ∧ twoBlocks.idp 0 = 1 ∧
      c.first = .puts [] .ok ∧ c.second = .puts [] .ok ∧
      c.shared.fblmap 2 = some 1 ∧ (c.shared.privateData 1 0).port .ingress = 1 ∧
      c.shared.fblmap 1 = none ∧ c.shared.registry.names nameA = none := by
  decide

end Lana
