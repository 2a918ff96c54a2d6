import Lana.User.Chains

/-!
# The range of the counts

`refcnt` is an `atomic_t` of 32 bits, and an unbounded integer in the model.  A reference is not
always held by an object that takes memory: a replacement that finds a block without a factory is
refused and keeps the reference its lookup took (`ReplaceRefused.leak`), as often as it is asked
for.  What bounds the counts is the number of commands: one command moves a count by at most 16
(`Within.exec`), so that no count leaves the range of an `atomic_t` within fewer than 2 ^ 26 commands
(`atomicRead_run`).
-/

namespace Lana

open State

/-- `atomic_read`: what 32 bits hold of a count. -/
def atomicRead (c : ℤ) : ℤ := c.bmod (2 ^ 32)

/-- No count is further than `B` from 0. -/
def Within (B : ℤ) (s : State) : Prop := ∀ a, -B ≤ s.refcnt a ∧ s.refcnt a ≤ B

namespace Within

variable {B C : ℤ} {s t : State}

theorem mono (h : Within B s) (hle : B ≤ C) : Within C s := fun a => by
  have := h a
  omega

theorem nonneg (h : Within B s) : 0 ≤ B := by
  have := h 0
  omega

theorem congr (h : Within B s) (heq : t.refcnt = s.refcnt) : Within B t := by
  unfold Within
  rw [heq]
  exact h

/-! ## The backend -/

theorem get (h : Within B s) (a : Addr) : Within (B + 1) (s.addRefs (ref a)) := fun b => by
  have := h b
  rw [addRefs_refcnt, ref_apply]
  split_ifs <;> omega

theorem get_two (h : Within B s) (a b : Addr) : Within (B + 2) (s.addRefs (ref a + ref b)) := by
  rw [← addRefs_addRefs]
  exact ((h.get a).get b).mono (by omega)

theorem put (h : Within B s) (a : Addr) : Within (B + 1) (putFblock s a) := fun b => by
  have := h b
  rw [refcnt_putFblock, Pi.sub_apply, ref_apply]
  split_ifs <;> omega

theorem put_two (h : Within B s) (a b : Addr) : Within (B + 2) (putFblock (putFblock s a) b) :=
  ((h.put a).put b).mono (by omega)

theorem event (h : Within B s) {fb : Addr} {ev : FbEvent} {r : Notify}
    (he : eventRx s fb ev = (r, t)) : Within B t := by
  obtain rfl := (Prod.mk.inj he).2
  exact h.congr (refcnt_eventRx s fb ev)

theorem subscribe (h : Within B s) (alloc : Bool) (us remote : Addr) :
    Within (B + 2) (subscribeToRemoteFblock alloc s us remote).2 := by
  cases alloc with
  | false => exact h.mono (by omega)
  | true =>
    rw [subscribe_eq]
    exact (h.congr (refcnt_link s us remote)).get_two us remote

theorem unsubscribe (h : Within B s) (us remote : Addr) :
    Within (B + 2) (unsubscribeFromRemoteFblock s us remote) := by
  by_cases hn : s.notifiers us = []
  · rw [unsubscribe_eq_of_nil remote hn]
    exact h.mono (by omega)
  · rw [unsubscribe_eq_of_ne_nil remote hn]
    exact (h.congr (refcnt_unlink s us remote)).put_two us remote

theorem unbind (h : Within B s) (fb1 fb2 : Addr) : Within (B + 6) (fblockUnbind s fb1 fb2).2 := by
  unfold fblockUnbind
  split
  · rename_i t e
    exact (h.event e).mono (by omega)
  rename_i t e
  have ht := h.event e
  split
  · rename_i u e'
    exact ((ht.event e').put fb1).mono (by omega)
  · rename_i u e'
    have hu := ((ht.event e').unsubscribe fb1 fb2).unsubscribe fb2 fb1
    exact (hu.put_two fb2 fb1).mono (by omega)

theorem bind (h : Within B s) (al : Alloc) (fb1 fb2 : Addr) :
    Within (B + 12) (fblockBind al s fb1 fb2).2 := by
  have h0 : Within (B + 2) (getFblock (getFblock s fb1) fb2) := by
    rw [getFblock_eq, getFblock_eq, addRefs_addRefs]
    exact h.get_two fb1 fb2
  unfold fblockBind
  simp only
  generalize getFblock (getFblock s fb1) fb2 = t0 at h0 ⊢
  split
  · rename_i t1 e1
    exact ((h0.event e1).put_two fb1 fb2).mono (by omega)
  rename_i t1 e1
  have h1 := h0.event e1
  split
  · rename_i t2 e2
    have h2 := h1.event e2
    split
    · rename_i t3 e3
      exact (h2.event e3).mono (by omega)
    · rename_i t3 e3
      exact ((h2.event e3).put_two fb1 fb2).mono (by omega)
  rename_i t2 e2
  have h3 := (h1.event e2).subscribe al.fn1 fb1 fb2
  split
  · rename_i r t3 e3
    rw [e3] at h3
    exact (h3.unbind fb1 fb2).mono (by omega)
  rename_i t3 e3
  rw [e3] at h3
  have h4 := h3.subscribe al.fn2 fb2 fb1
  split
  · rename_i r t4 e4
    rw [e4] at h4
    exact (h4.unbind fb1 fb2).mono (by omega)
  · rename_i t4 e4
    rw [e4] at h4
    exact h4.mono (by omega)

theorem ctor (h : Within B s) (ops : FbType) (proc : Bool) (area : Priv) (al : Alloc) (n : CStr) :
    Within (B + 1) (fbCtor ops proc area al s n).2 := by
  have hB := h.nonneg
  have hcon : Within (B + 1) (s.constructed n area ops) := fun a => by
    have := h a
    show -(B + 1) ≤ Function.update s.refcnt s.nextFblock 1 a ∧
      Function.update s.refcnt s.nextFblock 1 a ≤ B + 1
    rw [Function.update_apply]
    split_ifs <;> omega
  exact fbCtor_rule (h.mono (by omega)) (h.mono (by omega)) hcon hcon (fun _ _ => hcon) proc al

theorem unregister (h : Within B s) (a : Addr) :
    Within B (unregisterFblockNamespaceNoRcu s a) := by
  obtain ⟨t, m, heq⟩ := unregisterNoRcu_frame s a
  rw [heq]
  exact h

theorem enter (h : Within B s) (i : Idp) (entry : Option Addr) : Within B (s.enter i entry) := h

/-! ## The commands -/

theorem withTuple {k : ℤ} (h : Within B s) (n1 n2 : Name) {f : State → Addr → Addr → Ret × State}
    (hk : 0 ≤ k) (hf : ∀ {t : State} {C : ℤ} (a b : Addr), Within C t → Within (C + k) (f t a b).2) :
    Within (B + k + 4) (withTuple s n1 n2 f).2 := by
  unfold Lana.withTuple
  rcases h1 : s.lookup n1 with _ | a
  · rw [searchFblockN_none h1]
    exact h.mono (by omega)
  rw [searchFblockN_some h1]
  dsimp only
  rcases h2 : s.lookup n2 with _ | b
  · rw [searchFblockN_none (show (s.addRefs (ref a)).lookup n2 = none from h2)]
    exact ((h.get a).put a).mono (by omega)
  · rw [searchFblockN_some (show (s.addRefs (ref a)).lookup n2 = some b from h2)]
    exact ((hf a b ((h.get a).get b)).put_two a b).mono (by omega)

theorem unbindBound (h : Within B s) (cpu : Cpu) (fb : Addr) (dir : PathType)
    {f : State → Addr → Ret × State}
    (hf : ∀ {t : State} {C : ℤ} (a : Addr), Within C t → Within (C + 6) (f t a).2) :
    Within (B + 8) (unbindBound cpu s fb dir f) := by
  obtain heq | ⟨a, -, heq⟩ := unbindBound_cases cpu s fb dir f
  · rw [heq]
    exact h.mono (by omega)
  · rw [heq]
    exact ((hf a (h.get a)).put a).mono (by omega)

theorem keepVlink {r : Option Addr × State} (hr : Within B r.2) : Within B (keepVlink r) := by
  obtain ⟨_ | fb, t⟩ := r
  · exact hr
  · exact hr.congr rfl

theorem destroy (h : Within B s) (fb : Addr) : Within B (destroyFblock s fb) :=
  (h.unregister fb).congr rfl

theorem add (h : Within B s) (al : Alloc) (n : Name) (type : CStr) :
    Within (B + 2) (userctlAdd al s n type).2 := by
  unfold userctlAdd
  rcases hl : s.lookup n with _ | a
  · rw [searchFblockN_none hl]
    dsimp only
    unfold buildFblockObject
    rcases critbitGet Factory.type fbmap type with _ | f
    · exact h.mono (by omega)
    obtain ⟨proc, hctor⟩ := ctor_eq f
    have hc := h.ctor f.ops proc (Priv.init 0 0) al n
    dsimp only
    rw [hctor]
    rcases hr : fbCtor f.ops proc (Priv.init 0 0) al s n with ⟨_ | fb, t⟩ <;> rw [hr] at hc
    · exact hc.mono (by omega)
    · exact (hc.congr rfl).mono (by omega)
  · rw [searchFblockN_some hl]
    exact ((h.get a).put a).mono (by omega)

theorem rm (h : Within B s) (n : Name) : Within (B + 3) (userctlRemove s n).2 := by
  unfold userctlRemove
  rcases hl : s.lookup n with _ | a
  · rw [searchFblockN_none hl]
    exact h.mono (by omega)
  rw [searchFblockN_some hl]
  dsimp only
  rcases (s.addRefs (ref a)).factory a with _ | f
  · exact ((h.get a).put a).mono (by omega)
  dsimp only
  split_ifs
  · exact ((h.get a).put a).mono (by omega)
  · exact (((h.get a).unregister a).put_two a a).mono (by omega)

theorem hookEth (h : Within B s) (al : Alloc) (n : CStr) (d : ℕ) :
    Within (B + 1) (fbEthStartHookDev al s n d) := by
  have hc := h.ctor .eth false (Priv.init d 0) al n
  refine keepVlink ?_
  unfold fbEthBuildFblock
  rcases hr : fbCtor .eth false (Priv.init d 0) al s n with ⟨_ | fb, t⟩ <;> rw [hr] at hc
  · exact hc
  · dsimp only
    split_ifs
    · exact hc
    · exact hc.unregister fb

/-- A replacement exchanges two counts, beside the references it takes and puts. -/
theorem replace (h : Within B s) (al : Alloc) (n1 n2 : Name) (dropPriv : Bool) :
    Within (B + 5) (userctlReplace al s n1 n2 dropPriv).2 := by
  obtain ⟨-, hr⟩ | ⟨fb1, fb2, f1, f2, h1, h2, hf1, hf2, hcnt⟩ :=
    userctlReplace_cases al s n1 n2 dropPriv
  · generalize (userctlReplace al s n1 n2 dropPriv).2 = t at hr ⊢
    cases hr with
    | unknown => exact h.mono (by omega)
    | leak a => exact (h.get a).mono (by omega)
    | second a => exact ((h.get a).put a).mono (by omega)
    | leakSecond a b => exact ((h.get_two a b).put a).mono (by omega)
    | busy a b => exact ((h.get_two a b).put_two a b).mono (by omega)
  · rw [userctlReplace_eq h1 h2 hf1 hf2 hcnt]
    dsimp only
    have hsteps : Within (B + 3)
        (replaceSteps (s.addRefs (ref fb1 + ref fb2)) fb1 fb2 (exchanges f1 f2 dropPriv)) := by
      have htwo := h.get_two fb1 fb2
      intro a
      have ha := htwo a
      have h1 := htwo fb1
      have h2 := htwo fb2
      rw [refcnt_replaceSteps, Pi.sub_apply, ref_apply]
      unfold swapField
      simp only [Function.update_apply]
      split_ifs <;> omega
    rw [registerFblock_replaceSteps]
    exact ((hsteps.enter _ _).put_two fb1 fb2).mono (by omega)

/-- **Step.** A command moves a count by at most 16. -/
theorem exec (h : Within B s) (c : Cmd) : Within (B + 16) (c.exec s) := by
  cases c with
  | add n type al => exact (h.add al n type).mono (by omega)
  | rm n => exact (h.rm n).mono (by omega)
  | bind n1 n2 al =>
    exact (h.withTuple n1 n2 (k := 12) (by omega) fun a b ht => ht.bind al a b).mono (by omega)
  | unbind n1 n2 =>
    exact (h.withTuple n1 n2 (k := 6) (by omega) fun a b ht => ht.unbind a b).mono (by omega)
  | replace n1 n2 dropPriv al => exact (h.replace al n1 n2 dropPriv).mono (by omega)
  | subscribe n1 n2 al =>
    exact (h.withTuple n1 n2 (k := 2) (by omega) fun a b ht => ht.subscribe al.fn1 b a).mono
      (by omega)
  | unsubscribe n1 n2 =>
    exact (h.withTuple n1 n2 (k := 2) (by omega) fun a b ht => ht.unsubscribe b a).mono (by omega)
  | hookEth n d al => exact (h.hookEth al n d).mono (by omega)
  | addEthvlink n vdev al =>
    exact (keepVlink (h.ctor .ethvlink false (Priv.init vdev 0) al n)).mono (by omega)
  | openSock n sock al =>
    exact (keepVlink (h.ctor .pflana false (Priv.init 0 sock) al n)).mono (by omega)
  | stopVlink fb =>
    show Within (B + 16) (removeVlink s fb)
    unfold removeVlink
    split_ifs
    · exact h.mono (by omega)
    · exact (h.destroy fb).mono (by omega)
    · exact h.mono (by omega)
  | closeSock fb cpu =>
    show Within (B + 16) (lanaSkFree cpu s fb)
    unfold lanaSkFree
    split_ifs
    · have h1 := h.unbindBound cpu fb .ingress fun a ht => ht.unbind a fb
      have h2 := h1.unbindBound cpu fb .egress fun a ht => ht.unbind fb a
      exact (h2.destroy fb).mono (by omega)
    · exact h.mono (by omega)

/-- **Run.** -/
theorem run (h : Within B s) (cmds : List Cmd) : Within (B + 16 * cmds.length) (run s cmds) := by
  induction cmds generalizing B s with
  | nil => exact h.mono (by simp)
  | cons c cmds ih =>
    refine (ih (h.exec c)).mono ?_
    rw [List.length_cons]
    push_cast
    omega

end Within

/-- Within fewer than 2 ^ 26 commands the 32 bits of a count are the count. -/
theorem atomicRead_run (online : OnlineCpus) {cmds : List Cmd} (h : cmds.length < 2 ^ 26) (a : Addr) :
    atomicRead ((run (State.init online) cmds).refcnt a) =
      (run (State.init online) cmds).refcnt a := by
  have hinit : Within 0 (State.init online) := fun _ => ⟨le_rfl, le_rfl⟩
  have hwithin := hinit.run cmds a
  unfold atomicRead
  exact Int.bmod_eq_of_le (by omega) (by omega)

end Lana
