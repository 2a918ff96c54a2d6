import Lana.User.Effects

/-!
# Invariants of the commands

The commands are put together from a few functions of `xt_fblock.c`.  A property that those keep
(`Closed`) is kept by every command except `replace`, which moves names, lists and counts between
two blocks and is looked at by itself.
-/

namespace Lana

open State

/-- A property kept by what the commands are put together from. -/
structure Closed (I : State → Prop) : Prop where
  refs : ∀ {s : State} (δ : Addr → ℤ), I s → I (s.addRefs δ)
  put : ∀ {s : State} (a : Addr), I s → I (putFblock s a)
  subscribe : ∀ {s : State} (alloc : Bool) {us : Addr} (remote : Addr), s.registry.Has us → I s →
    I (subscribeToRemoteFblock alloc s us remote).2
  unsubscribe : ∀ {s : State} (us remote : Addr), I s → I (unsubscribeFromRemoteFblock s us remote)
  bind : ∀ {s : State} (al : Alloc) {fb1 fb2 : Addr}, s.registry.Has fb1 → s.registry.Has fb2 →
    I s → I (fblockBind al s fb1 fb2).2
  unbind : ∀ {s : State} (fb1 fb2 : Addr), I s → I (fblockUnbind s fb1 fb2).2
  ctor : ∀ {s : State} (ops : FbType) (proc : Bool) (area : Priv) (al : Alloc) (n : CStr), I s →
    I (fbCtor ops proc area al s n).2
  unregister : ∀ {s : State} (a : Addr), I s → I (unregisterFblockNamespaceNoRcu s a)
  relabel : ∀ {s : State} (f : Addr → Option Factory) (l : List Addr), I s →
    I { s with factory := f, vlinks := l }

namespace Closed

variable {I : State → Prop} {s : State}

theorem withTuple (h : Closed I) (n1 n2 : Name) {f : State → Addr → Addr → Ret × State}
    (hf : ∀ {t : State} {a b : Addr}, t.registry.Has a → t.registry.Has b → I t → I (f t a b).2)
    (hs : I s) : I (withTuple s n1 n2 f).2 := by
  unfold Lana.withTuple
  rcases h1 : s.lookup n1 with _ | a
  · rw [searchFblockN_none h1]
    exact hs
  rw [searchFblockN_some h1]
  dsimp only
  rcases h2 : s.lookup n2 with _ | b
  · rw [searchFblockN_none (show (s.addRefs (ref a)).lookup n2 = none from h2)]
    exact h.put a (h.refs _ hs)
  · rw [searchFblockN_some (show (s.addRefs (ref a)).lookup n2 = some b from h2)]
    exact h.put b (h.put a (hf (has_of_lookup h1) (has_of_lookup h2) (h.refs _ (h.refs _ hs))))

theorem unbindBound (h : Closed I) (cpu : Cpu) (fb : Addr) (dir : PathType)
    {f : State → Addr → Ret × State} (hf : ∀ {t : State} (a : Addr), I t → I (f t a).2)
    (hs : I s) : I (unbindBound cpu s fb dir f) := by
  unfold Lana.unbindBound getBoundFblock searchFblock searchFblockRaw
  split_ifs
  · exact hs
  · rcases s.fblmap ((s.privateData fb cpu).port dir) with _ | a
    · exact hs
    · dsimp only
      rw [getFblock_eq]
      exact h.put a (hf a (h.refs _ hs))

theorem keepVlink (h : Closed I) {r : Option Addr × State} (hr : I r.2) : I (keepVlink r) := by
  obtain ⟨_ | fb, t⟩ := r
  · exact hr
  · exact h.relabel t.factory (fb :: t.vlinks) hr

theorem destroy (h : Closed I) (fb : Addr) (hs : I s) : I (destroyFblock s fb) :=
  h.relabel _ _ (h.unregister fb hs)

theorem add (h : Closed I) (al : Alloc) (n : Name) (type : CStr) (hs : I s) :
    I (userctlAdd al s n type).2 := by
  unfold userctlAdd
  rcases hl : s.lookup n with _ | a
  · rw [searchFblockN_none hl]
    dsimp only
    unfold buildFblockObject
    rcases critbitGet Factory.type fbmap type with _ | f
    · exact hs
    obtain ⟨proc, hctor⟩ := ctor_eq f
    have hc := h.ctor f.ops proc (Priv.init 0 0) al n hs
    dsimp only
    rw [hctor]
    rcases hr : fbCtor f.ops proc (Priv.init 0 0) al s n with ⟨_ | fb, t⟩ <;> rw [hr] at hc
    · exact hc
    · exact h.relabel _ t.vlinks hc
  · rw [searchFblockN_some hl]
    exact h.put a (h.refs _ hs)

theorem rm (h : Closed I) (n : Name) (hs : I s) : I (userctlRemove s n).2 := by
  unfold userctlRemove
  rcases hl : s.lookup n with _ | a
  · rw [searchFblockN_none hl]
    exact hs
  rw [searchFblockN_some hl]
  dsimp only
  rcases (s.addRefs (ref a)).factory a with _ | f
  · exact h.put a (h.refs _ hs)
  dsimp only
  split_ifs
  · exact h.put a (h.refs _ hs)
  · exact h.put a (h.put a (h.unregister a (h.refs _ hs)))

theorem hookEth (h : Closed I) (al : Alloc) (n : CStr) (d : ℕ) (hs : I s) :
    I (fbEthStartHookDev al s n d) := by
  have hc := h.ctor .eth false (Priv.init d 0) al n hs
  refine h.keepVlink ?_
  unfold fbEthBuildFblock
  rcases hr : fbCtor .eth false (Priv.init d 0) al s n with ⟨_ | fb, t⟩ <;> rw [hr] at hc
  · exact hc
  · dsimp only
    split_ifs
    · exact hc
    · exact h.unregister fb hc

/-- A replacement that gives up has done no more than take and put references. -/
theorem replaceRefused (h : Closed I) {t : State} (ht : ReplaceRefused s t) (hs : I s) : I t := by
  cases ht with
  | unknown => exact hs
  | leak a hf => exact h.refs _ hs
  | second a => exact h.put a (h.refs _ hs)
  | leakSecond a b hf => exact h.put a (h.refs _ hs)
  | busy a b => exact h.put b (h.put a (h.refs _ hs))

/-- The rule: what is closed is kept by a command, if a replacement keeps it. -/
theorem exec (h : Closed I) (c : Cmd) (hs : I s)
    (hreplace : ∀ n1 n2 dropPriv al, c = .replace n1 n2 dropPriv al →
      I (userctlReplace al s n1 n2 dropPriv).2) : I (c.exec s) := by
  cases c with
  | add n type al => exact h.add al n type hs
  | rm n => exact h.rm n hs
  | bind n1 n2 al => exact h.withTuple n1 n2 (fun ha hb => h.bind al ha hb) hs
  | unbind n1 n2 => exact h.withTuple n1 n2 (fun _ _ => h.unbind _ _) hs
  | replace n1 n2 dropPriv al => exact hreplace n1 n2 dropPriv al rfl
  | subscribe n1 n2 al =>
    exact h.withTuple n1 n2 (fun {_ a _} _ hb => h.subscribe al.fn1 a hb) hs
  | unsubscribe n1 n2 => exact h.withTuple n1 n2 (fun _ _ => h.unsubscribe _ _) hs
  | hookEth n d al => exact h.hookEth al n d hs
  | addEthvlink n vdev al => exact h.keepVlink (h.ctor .ethvlink false (Priv.init vdev 0) al n hs)
  | openSock n sock al => exact h.keepVlink (h.ctor .pflana false (Priv.init 0 sock) al n hs)
  | stopVlink fb =>
    show I (removeVlink s fb)
    unfold removeVlink
    split_ifs
    · exact hs
    · exact h.destroy fb hs
    · exact hs
  | closeSock fb cpu =>
    show I (lanaSkFree cpu s fb)
    unfold lanaSkFree
    split_ifs
    · exact h.destroy fb (h.unbindBound cpu fb .egress (fun a => h.unbind fb a)
        (h.unbindBound cpu fb .ingress (fun a => h.unbind a fb) hs))
    · exact hs

end Closed

end Lana
