import Lana.Fblock.Binding
import Mathlib.Logic.Relation

/-!
# Ports that name a block

Which ports hold the idp of a block `V`, while `__fblock_bind` and `__fblock_unbind` change the
ports of any two blocks, tees included.  `PortStep` lists what they can do.  A port that names `V`
is answered by a port of `V` (`Reciprocal`): an unbinding may leave the answer behind, never the
port that is answered.
-/

namespace Lana

open State

namespace Ports

variable {t : FbType} {dir : PathType} {i j : Idp} {p q r : Ports}

/-- The number of ports that hold `i`. -/
def naming (p : Ports) (i : Idp) : ℕ :=
  (if p.port .ingress = i then 1 else 0) + (if p.port .egress = i then 1 else 0) +
    if p.clone = i then 1 else 0

theorem naming_set (p : Ports) (dir : PathType) (i j : Idp) :
    (p.set dir i).naming j + (if p.port dir = j then 1 else 0) =
      p.naming j + if i = j then 1 else 0 := by
  cases dir
  · show (if i = j then 1 else 0) + (if p.port .egress = j then 1 else 0) +
      (if p.clone = j then 1 else 0) + (if p.port .ingress = j then 1 else 0) = _
    unfold naming
    omega
  · show (if p.port .ingress = j then 1 else 0) + (if i = j then 1 else 0) +
      (if p.clone = j then 1 else 0) + (if p.port .egress = j then 1 else 0) = _
    unfold naming
    omega

theorem naming_bind (h : p.bind t dir i = some q) (hj : j ≠ idpUnknown) :
    q.naming j = p.naming j + if i = j then 1 else 0 := by
  obtain ⟨h1, rfl⟩ | ⟨-, -, hc, rfl⟩ := bind_cases h
  · have := naming_set p dir i j
    rw [h1, if_neg hj.symm] at this
    omega
  · unfold naming
    rw [hc, if_neg hj.symm]
    rfl

theorem naming_unbind (h : p.unbind t dir i = some q) (hj : j ≠ idpUnknown) :
    q.naming j + (if i = j then 1 else 0) = p.naming j := by
  obtain ⟨h1, rfl⟩ | ⟨-, -, hc, rfl⟩ := unbind_cases h
  · have := naming_set p dir idpUnknown j
    rw [h1, if_neg hj.symm] at this
    omega
  · unfold naming
    rw [hc, if_neg hj.symm]
    rfl

theorem naming_le_count (p : Ports) (hi : i ≠ idpUnknown) : p.naming i ≤ p.count := by
  have hle : ∀ x : Idp, (if x = i then 1 else 0) ≤ used x := by
    intro x
    split_ifs with hx
    · rw [hx, used_of_ne hi]
    · exact Nat.zero_le _
  have h1 := hle (p.port .ingress)
  have h2 := hle (p.port .egress)
  have h3 := hle p.clone
  unfold naming count
  omega

theorem naming_pos_of_port {d : PathType} (h : p.port d = i) : 1 ≤ p.naming i := by
  unfold naming
  cases d <;> rw [if_pos h] <;> omega

theorem naming_pos_of_clone (h : p.clone = i) : 1 ≤ p.naming i := by
  unfold naming
  rw [if_pos h]
  omega

/-- A binding writes a free port, if any. -/
theorem port_bind (h : p.bind t dir i = some q) (d : PathType) :
    q.port d = p.port d ∨ d = dir ∧ p.port dir = idpUnknown ∧ q.port dir = i := by
  obtain ⟨h1, rfl⟩ | ⟨-, -, -, rfl⟩ := bind_cases h
  · by_cases hd : d = dir
    · exact .inr ⟨hd, h1, set_self ..⟩
    · exact .inl (Function.update_of_ne hd ..)
  · exact .inl rfl

theorem port_bind_two (ht : t ≠ .tee) (h : p.bind t dir i = some q) : q.port dir = i := by
  rw [bind_two ht] at h
  split_ifs at h
  obtain rfl := Option.some.inj h
  exact set_self ..

/-- An unbinding frees the port that holds the idp, if there is one. -/
theorem port_unbind (h : p.unbind t dir i = some q) (d : PathType) :
    q.port d = p.port d ∧ ¬ (d = dir ∧ p.port dir = i) ∨
      d = dir ∧ p.port dir = i ∧ q.port dir = idpUnknown := by
  obtain ⟨h1, rfl⟩ | ⟨h1, -, -, rfl⟩ := unbind_cases h
  · by_cases hd : d = dir
    · exact .inr ⟨hd, h1, set_self ..⟩
    · exact .inl ⟨Function.update_of_ne hd .., fun hd' => hd hd'.1⟩
  · exact .inl ⟨rfl, fun hd' => h1 hd'.2⟩

theorem unbind_eq_none (h : p.unbind t dir i = none) :
    p.port dir ≠ i ∧ (t = .tee → p.clone ≠ i) := by
  unfold unbind at h
  split_ifs at h with h1 h2
  exact ⟨h1, fun ht hc => h2 ⟨ht, hc⟩⟩

theorem clone_bind (ht : t ≠ .tee) (h : p.bind t dir i = some q) : q.clone = p.clone := by
  rw [bind_two ht] at h
  split_ifs at h
  obtain rfl := Option.some.inj h
  rfl

theorem clone_unbind (ht : t ≠ .tee) (h : p.unbind t dir i = some q) : q.clone = p.clone := by
  rw [unbind_two ht] at h
  split_ifs at h
  obtain rfl := Option.some.inj h
  rfl

end Ports

/-! ## Steps of a binding -/

/-- What one call of `__fblock_bind` or `__fblock_unbind` does to the ports: both blocks take or give
up a port, or the first one alone does, for good (`half`) or until it is rolled back. -/
inductive PortStep (ops : Addr → FbType) (idp : Addr → Idp) (fb1 fb2 : Addr) (P : Addr → Ports) :
    (Addr → Ports) → Prop
  | bound {Q1 Q2 : Ports} (h1 : (P fb1).bind (ops fb1) .egress (idp fb2) = some Q1)
      (h2 : (Function.update P fb1 Q1 fb2).bind (ops fb2) .ingress (idp fb1) = some Q2) :
      PortStep ops idp fb1 fb2 P (Function.update (Function.update P fb1 Q1) fb2 Q2)
  | rolled {Q R : Ports} (h1 : (P fb1).bind (ops fb1) .egress (idp fb2) = some Q)
      (h2 : Q.unbind (ops fb1) .egress (idp fb2) = some R) :
      PortStep ops idp fb1 fb2 P (Function.update P fb1 R)
  | half {Q1 : Ports} (h1 : (P fb1).unbind (ops fb1) .egress (idp fb2) = some Q1)
      (h2 : (Function.update P fb1 Q1 fb2).unbind (ops fb2) .ingress (idp fb1) = none) :
      PortStep ops idp fb1 fb2 P (Function.update P fb1 Q1)
  | unbound {Q1 Q2 : Ports} (h1 : (P fb1).unbind (ops fb1) .egress (idp fb2) = some Q1)
      (h2 : (Function.update P fb1 Q1 fb2).unbind (ops fb2) .ingress (idp fb1) = some Q2) :
      PortStep ops idp fb1 fb2 P (Function.update (Function.update P fb1 Q1) fb2 Q2)

/-- Any number of such calls on the two blocks. -/
def PortSteps (ops : Addr → FbType) (idp : Addr → Idp) (fb1 fb2 : Addr) :
    (Addr → Ports) → (Addr → Ports) → Prop :=
  Relation.ReflTransGen (PortStep ops idp fb1 fb2)

section Calls

variable {s : State} {P : Addr → Ports} {fb1 fb2 : Addr}

theorem fblockUnbind_ports (hP : Copies s P) (fb1 fb2 : Addr) :
    ∃ P', Copies (fblockUnbind s fb1 fb2).2 P' ∧ PortSteps s.ops s.idp fb1 fb2 P P' := by
  rcases fblockUnbind_result hP fb1 fb2 with ⟨-, -, hP', -⟩ | ⟨Q1, h1, h2, -, hP', -⟩ |
    ⟨Q1, Q2, h1, h2, -, hP', -⟩
  · exact ⟨P, hP', .refl⟩
  · exact ⟨_, hP', .single (.half h1 h2)⟩
  · exact ⟨_, hP', .single (.unbound h1 h2)⟩

theorem fblockBind_ports (hP : Copies s P) (al : Alloc) (fb1 fb2 : Addr) :
    ∃ P', Copies (fblockBind al s fb1 fb2).2 P' ∧ PortSteps s.ops s.idp fb1 fb2 P P' := by
  unfold fblockBind
  simp only [getFblock_eq, addRefs_addRefs]
  have hPt : Copies (s.addRefs (ref fb1 + ref fb2)) P := hP
  set t := s.addRefs (ref fb1 + ref fb2)
  rcases eventRx_bind hPt fb1 .egress (t.idp fb2) with ⟨-, e1⟩ | ⟨Q1, pd1, h1, e1, hP1, -⟩
  · rw [e1]
    exact ⟨P, (hPt.putFblock fb1).putFblock fb2, .refl⟩
  rw [e1]
  rcases eventRx_bind hP1 fb2 .ingress (t.idp fb1) with ⟨-, e2⟩ | ⟨Q2, pd2, h2, e2, hP2, -⟩
  · simp only [show ((t.withPriv pd1).idp fb1) = t.idp fb1 from rfl, e2]
    rcases eventRx_unbind hP1 fb1 .egress (t.idp fb2) with ⟨h3, -⟩ | ⟨R, pd3, h3, e3, hR, -⟩
    · -- the port just bound can be unbound
      obtain ⟨R, hR⟩ := Ports.unbind_of_bind h1
      rw [Function.update_self] at h3
      exact absurd (h3.symm.trans hR) (Option.some_ne_none R).symm
    · simp only [show ((t.withPriv pd1).idp fb2) = t.idp fb2 from rfl, e3]
      rw [Function.update_self] at h3
      rw [Function.update_idem] at hR
      exact ⟨_, (hR.putFblock fb1).putFblock fb2, .single (.rolled h1 h3)⟩
  · simp only [show ((t.withPriv pd1).idp fb1) = t.idp fb1 from rfl, e2]
    have hstep : PortStep s.ops s.idp fb1 fb2 P
        (Function.update (Function.update P fb1 Q1) fb2 Q2) := .bound h1 h2
    -- what is undone starts from here
    have hundo : ∀ v : State, v.registry = s.registry →
        Copies v (Function.update (Function.update P fb1 Q1) fb2 Q2) →
        ∃ P', Copies (fblockUnbind v fb1 fb2).2 P' ∧ PortSteps s.ops s.idp fb1 fb2 P P' := by
      intro v hreg hv
      obtain ⟨P', hP', hsteps⟩ := fblockUnbind_ports hv fb1 fb2
      rw [show v.ops = s.ops from congrArg Registry.ops hreg,
        show v.idp = s.idp from congrArg Registry.idp hreg] at hsteps
      exact ⟨P', hP', .head hstep hsteps⟩
    rcases al.fn1
    · rw [subscribe_no_memory]
      exact hundo _ rfl hP2
    rcases al.fn2
    · simp only [subscribe_eq, subscribe_no_memory]
      exact hundo _ rfl hP2
    · simp only [subscribe_eq]
      exact ⟨_, hP2, .single hstep⟩

end Calls

/-! ## One event -/

section Event

variable {P : Addr → Ports} {fb a : Addr} {t : FbType} {dir d : PathType} {i j : Idp} {Q : Ports}

theorem port_of_bind (h : (P fb).bind t dir i = some Q) (a : Addr) (d : PathType) :
    (Function.update P fb Q a).port d = (P a).port d ∨
      a = fb ∧ d = dir ∧ (P a).port d = idpUnknown ∧ (Function.update P fb Q a).port d = i := by
  by_cases ha : a = fb
  · subst ha
    rw [Function.update_self]
    obtain hd | ⟨rfl, hfree, hQ⟩ := Ports.port_bind h d
    · exact .inl hd
    · exact .inr ⟨rfl, rfl, hfree, hQ⟩
  · rw [Function.update_of_ne ha]
    exact .inl rfl

theorem port_of_unbind (h : (P fb).unbind t dir i = some Q) (a : Addr) (d : PathType) :
    (Function.update P fb Q a).port d = (P a).port d ∧
        ¬ (a = fb ∧ d = dir ∧ (P a).port d = i) ∨
      a = fb ∧ d = dir ∧ (P a).port d = i ∧ (Function.update P fb Q a).port d = idpUnknown := by
  by_cases ha : a = fb
  · subst ha
    rw [Function.update_self]
    obtain ⟨hd, hnot⟩ | ⟨rfl, hi, hQ⟩ := Ports.port_unbind h d
    · refine .inl ⟨hd, ?_⟩
      rintro ⟨-, rfl, hi⟩
      exact hnot ⟨rfl, hi⟩
    · exact .inr ⟨rfl, rfl, hi, hQ⟩
  · rw [Function.update_of_ne ha]
    exact .inl ⟨rfl, fun hd => ha hd.1⟩

theorem naming_of_bind (h : (P fb).bind t dir i = some Q) (hj : j ≠ idpUnknown) (a : Addr) :
    (Function.update P fb Q a).naming j = (P a).naming j + if a = fb ∧ i = j then 1 else 0 := by
  by_cases ha : a = fb
  · subst ha
    rw [Function.update_self, Ports.naming_bind h hj]
    simp
  · rw [Function.update_of_ne ha, if_neg fun h' => ha h'.1, add_zero]

theorem naming_of_unbind (h : (P fb).unbind t dir i = some Q) (hj : j ≠ idpUnknown) (a : Addr) :
    (Function.update P fb Q a).naming j + (if a = fb ∧ i = j then 1 else 0) =
      (P a).naming j := by
  by_cases ha : a = fb
  · subst ha
    rw [Function.update_self, ← Ports.naming_unbind h hj]
    simp
  · rw [Function.update_of_ne ha, if_neg fun h' => ha h'.1, add_zero]

end Event

/-! ## Answered ports -/

/-- The blocks in `H` have idps of their own. -/
structure Distinct (H : Addr → Prop) (idp : Addr → Idp) : Prop where
  inj : ∀ a b, H a → H b → idp a = idp b → a = b
  ne_unknown : ∀ a, H a → idp a ≠ idpUnknown

theorem Distinct.eq_iff {H : Addr → Prop} {idp : Addr → Idp} (hD : Distinct H idp) {a b : Addr}
    (ha : H a) (hb : H b) : idp a = idp b ↔ a = b :=
  ⟨hD.inj a b ha hb, congrArg idp⟩

/-- The ports of the blocks in `H` that name `V` are answered by the ports of `V`. -/
structure Reciprocal (H : Addr → Prop) (idp : Addr → Idp) (P : Addr → Ports) (V : Addr) : Prop where
  port : ∀ N, H N → ∀ d, (P N).port d = idp V → (P V).port d.flip = idp N
  naming : ∀ N, H N → (P N).naming (idp V) ≤ (P V).naming (idp N)

namespace Reciprocal

variable {H : Addr → Prop} {ops : Addr → FbType} {idp : Addr → Idp} {P P' : Addr → Ports}
  {fb1 fb2 V : Addr}

theorem bound (h : Reciprocal H idp P V) (hD : Distinct H idp) (hV : H V) (htwo : ops V ≠ .tee)
    (hH1 : H fb1) (hH2 : H fb2) {Q1 Q2 : Ports}
    (h1 : (P fb1).bind (ops fb1) .egress (idp fb2) = some Q1)
    (h2 : (Function.update P fb1 Q1 fb2).bind (ops fb2) .ingress (idp fb1) = some Q2) :
    Reciprocal H idp (Function.update (Function.update P fb1 Q1) fb2 Q2) V := by
  have hfirst := port_of_bind h1
  have hsecond := port_of_bind h2
  have hnew1 : ops fb1 ≠ .tee → (Function.update P fb1 Q1 fb1).port .egress = idp fb2 := by
    intro ht
    rw [Function.update_self]
    exact Ports.port_bind_two ht h1
  have hnew2 : ops fb2 ≠ .tee →
      (Function.update (Function.update P fb1 Q1) fb2 Q2 fb2).port .ingress = idp fb1 := by
    intro ht
    rw [Function.update_self]
    exact Ports.port_bind_two ht h2
  have hn1 := fun {j : Idp} (hj : j ≠ idpUnknown) => naming_of_bind h1 hj
  have hn2 := fun {j : Idp} (hj : j ≠ idpUnknown) => naming_of_bind h2 hj
  set P1 := Function.update P fb1 Q1
  set P2 := Function.update P1 fb2 Q2
  refine ⟨fun N hN d hd => ?_, fun N hN => ?_⟩
  · -- a port in use is not written
    have hkeep : ∀ e, (P V).port e = idp N → (P2 V).port e = idp N := by
      intro e he
      have hne : (P V).port e ≠ idpUnknown := he ▸ hD.ne_unknown N hN
      rcases hfirst V e with h' | ⟨-, -, hfree, -⟩
      · rcases hsecond V e with h'' | ⟨-, -, hfree, -⟩
        · rw [h'', h', he]
        · exact absurd (h'.symm.trans hfree) hne
      · exact absurd hfree hne
    rcases hsecond N d with hd2 | ⟨rfl, rfl, -, hd2⟩
    · rcases hfirst N d with hd1 | ⟨rfl, rfl, -, hd1⟩
      · exact hkeep _ (h.port N hN d (hd1.symm.trans (hd2.symm.trans hd)))
      · obtain rfl : fb2 = V := hD.inj _ _ hH2 hV (hd1.symm.trans (hd2.symm.trans hd))
        exact hnew2 htwo
    · obtain rfl : fb1 = V := hD.inj _ _ hH1 hV (hd2.symm.trans hd)
      rcases hsecond fb1 .egress with h' | ⟨-, hdir, -⟩
      · exact h'.trans (hnew1 htwo)
      · cases hdir
  · have hold := h.naming N hN
    rw [hn2 (hD.ne_unknown V hV), hn1 (hD.ne_unknown V hV), hn2 (hD.ne_unknown N hN),
      hn1 (hD.ne_unknown N hN)]
    simp only [hD.eq_iff hH1 hV, hD.eq_iff hH2 hV, hD.eq_iff hH1 hN, hD.eq_iff hH2 hN]
    have hswap : (if N = fb1 ∧ fb2 = V then 1 else 0) = if V = fb2 ∧ fb1 = N then 1 else 0 :=
      if_congr (by tauto) rfl rfl
    have hswap' : (if N = fb2 ∧ fb1 = V then 1 else 0) = if V = fb1 ∧ fb2 = N then 1 else 0 :=
      if_congr (by tauto) rfl rfl
    omega

/-- The ports after a binding that was rolled back. -/
theorem rolled (h : Reciprocal H idp P V) (hD : Distinct H idp) (hV : H V) (htwo : ops V ≠ .tee)
    {Q R : Ports} (h1 : (P fb1).bind (ops fb1) .egress (idp fb2) = some Q)
    (h2 : Q.unbind (ops fb1) .egress (idp fb2) = some R) :
    Reciprocal H idp (Function.update P fb1 R) V := by
  have hVsame : Function.update P fb1 R V = P V := by
    by_cases hV1 : V = fb1
    · subst hV1
      rw [Function.update_self]
      exact (rollback_ports h1 h2).2 htwo
    · rw [Function.update_of_ne hV1]
  have hport : ∀ d, R.port d = (P fb1).port d ∨ R.port d = idpUnknown := by
    intro d
    rcases Ports.port_unbind h2 d with ⟨hd, hnot⟩ | ⟨rfl, -, hfree⟩
    · rcases Ports.port_bind h1 d with hd' | ⟨rfl, -, hi⟩
      · exact .inl (hd.trans hd')
      · exact absurd ⟨rfl, hi⟩ hnot
    · exact .inr hfree
  refine ⟨fun N hN d hd => ?_, fun N hN => ?_⟩
  · rw [hVsame]
    refine h.port N hN d ?_
    by_cases hN1 : N = fb1
    · subst hN1
      rw [Function.update_self] at hd
      rcases hport d with hd' | hfree
      · exact hd'.symm.trans hd
      · exact absurd (hd.symm.trans hfree) (hD.ne_unknown V hV)
    · rwa [Function.update_of_ne hN1] at hd
  · rw [hVsame]
    refine le_trans (le_of_eq ?_) (h.naming N hN)
    by_cases hN1 : N = fb1
    · subst hN1
      have hb := Ports.naming_bind h1 (hD.ne_unknown V hV)
      have hu := Ports.naming_unbind h2 (hD.ne_unknown V hV)
      rw [Function.update_self]
      omega
    · rw [Function.update_of_ne hN1]

/-- An unbinding that the second block refuses.  What is left of the second block's ports that name
the first one is its egress port, whose answer is the other port. -/
theorem half (h : Reciprocal H idp P V) (hD : Distinct H idp) (hV : H V)
    (hclone : ∀ N, H N → ops N ≠ .tee → (P N).clone = idpUnknown) (hH2 : H fb2)
    {Q1 : Ports} (h1 : (P fb1).unbind (ops fb1) .egress (idp fb2) = some Q1)
    (h2 : (Function.update P fb1 Q1 fb2).unbind (ops fb2) .ingress (idp fb1) = none) :
    Reciprocal H idp (Function.update P fb1 Q1) V := by
  have hfirst := port_of_unbind h1
  obtain ⟨hrefused, hrefused'⟩ := Ports.unbind_eq_none h2
  have hn1 := fun {j : Idp} (hj : j ≠ idpUnknown) => naming_of_unbind h1 hj
  have hsame : fb2 ≠ fb1 → Function.update P fb1 Q1 fb2 = P fb2 := fun hne =>
    Function.update_of_ne hne ..
  set P1 := Function.update P fb1 Q1
  have hport : ∀ N, H N → ∀ d, (P1 N).port d = idp V → (P1 V).port d.flip = idp N := by
    intro N hN d hd
    rcases hfirst N d with ⟨hd1, -⟩ | ⟨-, -, -, hfree⟩
    · have hans := h.port N hN d (hd1.symm.trans hd)
      rcases hfirst V d.flip with ⟨h', -⟩ | ⟨rfl, hflip, hi, -⟩
      · exact h'.trans hans
      · obtain rfl : N = fb2 := hD.inj _ _ hN hH2 (hans.symm.trans hi)
        cases d with
        | ingress => exact absurd hd hrefused
        | egress => cases hflip
    · exact absurd (hd.symm.trans hfree) (hD.ne_unknown V hV)
  refine ⟨hport, fun N hN => ?_⟩
  by_cases hVN : V = N
  · rw [hVN]
  have hold := h.naming N hN
  have hnN := hn1 (hD.ne_unknown V hV) N
  have hnV := hn1 (hD.ne_unknown N hN) V
  by_cases hboth : V = fb1 ∧ idp fb2 = idp N
  · obtain ⟨rfl, heq⟩ := hboth
    obtain rfl : fb2 = N := hD.inj _ _ hH2 hN heq
    have hc : (P1 fb2).clone ≠ idp V := by
      by_cases ht : ops fb2 = .tee
      · exact hrefused' ht
      · rw [hsame (Ne.symm hVN), hclone fb2 hN ht]
        exact (hD.ne_unknown V hV).symm
    have hle : (P1 fb2).naming (idp V) = if (P1 fb2).port .egress = idp V then 1 else 0 := by
      unfold Ports.naming
      rw [if_neg hrefused, if_neg hc, zero_add, add_zero]
    rw [hle]
    split_ifs with heg
    · exact Ports.naming_pos_of_port (hport fb2 hN .egress heg)
    · exact Nat.zero_le _
  · rw [if_neg hboth] at hnV
    omega

theorem unbound (h : Reciprocal H idp P V) (hD : Distinct H idp) (hV : H V) (hH1 : H fb1)
    (hH2 : H fb2) {Q1 Q2 : Ports} (h1 : (P fb1).unbind (ops fb1) .egress (idp fb2) = some Q1)
    (h2 : (Function.update P fb1 Q1 fb2).unbind (ops fb2) .ingress (idp fb1) = some Q2) :
    Reciprocal H idp (Function.update (Function.update P fb1 Q1) fb2 Q2) V := by
  have hfirst := port_of_unbind h1
  have hsecond := port_of_unbind h2
  have hn1 := fun {j : Idp} (hj : j ≠ idpUnknown) => naming_of_unbind h1 hj
  have hn2 := fun {j : Idp} (hj : j ≠ idpUnknown) => naming_of_unbind h2 hj
  set P1 := Function.update P fb1 Q1
  set P2 := Function.update P1 fb2 Q2
  have hne := hD.ne_unknown V hV
  refine ⟨fun N hN d hd => ?_, fun N hN => ?_⟩
  · rcases hsecond N d with ⟨hd2, hnot2⟩ | ⟨-, -, -, hfree⟩
    · rw [hd] at hd2
      rcases hfirst N d with ⟨hd1, hnot1⟩ | ⟨-, -, -, hfree⟩
      · rw [← hd2] at hd1
        have hans := h.port N hN d hd1.symm
        -- the answer is freed together with the port only
        have hans1 : (P1 V).port d.flip = idp N := by
          rcases hfirst V d.flip with ⟨h', -⟩ | ⟨rfl, hflip, hi, -⟩
          · exact h'.trans hans
          · obtain rfl : N = fb2 := hD.inj _ _ hN hH2 (hans.symm.trans hi)
            cases d with
            | ingress => exact absurd ⟨rfl, rfl, hd2.symm⟩ hnot2
            | egress => cases hflip
        rcases hsecond V d.flip with ⟨h', -⟩ | ⟨rfl, hflip, hi, -⟩
        · exact h'.trans hans1
        · obtain rfl : N = fb1 := hD.inj _ _ hN hH1 (hans1.symm.trans hi)
          cases d with
          | ingress => cases hflip
          | egress => exact absurd ⟨rfl, rfl, hd1.symm⟩ hnot1
      · exact absurd (hd2.trans hfree) hne
    · exact absurd (hd.symm.trans hfree) hne
  · have hold := h.naming N hN
    have hN1 := hn1 hne N
    have hN2 := hn2 hne N
    have hV1 := hn1 (hD.ne_unknown N hN) V
    have hV2 := hn2 (hD.ne_unknown N hN) V
    simp only [hD.eq_iff hH1 hV, hD.eq_iff hH2 hV] at hN1 hN2
    simp only [hD.eq_iff hH1 hN, hD.eq_iff hH2 hN] at hV1 hV2
    have hswap : (if N = fb1 ∧ fb2 = V then 1 else 0) = if V = fb2 ∧ fb1 = N then 1 else 0 :=
      if_congr (by tauto) rfl rfl
    have hswap' : (if N = fb2 ∧ fb1 = V then 1 else 0) = if V = fb1 ∧ fb2 = N then 1 else 0 :=
      if_congr (by tauto) rfl rfl
    omega

end Reciprocal

end Lana
